/-! Cutting texts at line breaks and other marks -/

namespace PrunedHistory.Text

def startsWith (start text : String) : Bool := start.toList.isPrefixOf text.toList

/-- The pieces between occurrences of `mark`; there is always at least one. -/
def splitAt (mark : Char) : List Char → List (List Char)
  | [] => [[]]
  | c :: cs =>
    if c = mark then [] :: splitAt mark cs
    else match splitAt mark cs with
      | [] => [[c]]
      | piece :: rest => (c :: piece) :: rest

/-- The texts before and after the first occurrence of `mark`, if there is one. -/
def cut? (mark : Char) : List Char → Option (List Char × List Char)
  | [] => none
  | c :: cs =>
    if c = mark then some ([], cs)
    else (cut? mark cs).map fun (before, after) => (c :: before, after)

/-- The texts before and after the first empty line: two line breaks in a row. -/
def cutAtEmptyLine? : List Char → Option (List Char × List Char)
  | [] => none
  | '\n' :: '\n' :: cs => some ([], cs)
  | c :: cs => (cutAtEmptyLine? cs).map fun (before, after) => (c :: before, after)

/-- The text less a final `mark`, if it ends in one. -/
def dropFinal? (mark : Char) : List Char → Option (List Char)
  | [] => none
  | [c] => if c = mark then some [] else none
  | c :: cs => (dropFinal? mark cs).map (c :: ·)

/-- The lines of a text: each ends at a line break, one carriage return right before the break belongs to it, and
    no line follows a final break. -/
def lines (cs : List Char) : List (List Char) :=
  let pieces := splitAt '\n' cs
  let ended := pieces.dropLast.map fun line => (dropFinal? '\r' line).getD line
  -- The last piece ends at no break: it is a line if anything is in it, and keeps its carriage return.
  match pieces.getLast? with
  | none | some [] => ended
  | some last => ended ++ [last]

/-! ### Laws -/

/-- The text before the first mark has none. -/
theorem cut?_eq_some_iff {mark : Char} : ∀ {cs before after : List Char},
    cut? mark cs = some (before, after) ↔ mark ∉ before ∧ cs = before ++ mark :: after
  | [], before, after => by simp [cut?]
  | c :: cs, before, after => by
      by_cases hc : c = mark
      · subst hc
        cases before with
        | nil => simp [cut?]
        | cons b before =>
          simp only [cut?, ↓reduceIte, Option.some.injEq, Prod.mk.injEq, List.mem_cons, not_or, List.cons_append,
            List.cons.injEq]
          constructor
          · rintro ⟨h, _⟩
            cases h
          · rintro ⟨⟨h, _⟩, h', _⟩
            exact absurd h' h
      · simp only [cut?, hc, ↓reduceIte, Option.map_eq_some_iff, Prod.exists, Prod.mk.injEq]
        constructor
        · rintro ⟨b, a, h, rfl, rfl⟩
          obtain ⟨hb, rfl⟩ := cut?_eq_some_iff.1 h
          exact ⟨by simp [hb, Ne.symm hc], by simp⟩
        · rintro ⟨hm, h⟩
          cases before with
          | nil => simp at h; exact absurd h.1 hc
          | cons b before =>
            simp only [List.cons_append, List.cons.injEq] at h
            obtain ⟨rfl, rfl⟩ := h
            exact ⟨before, after, cut?_eq_some_iff.2 ⟨fun h => hm (by simp [h]), rfl⟩, rfl, rfl⟩

theorem dropFinal?_eq_some_iff {mark : Char} : ∀ {cs rest : List Char},
    dropFinal? mark cs = some rest ↔ cs = rest ++ [mark]
  | [], rest => by simp [dropFinal?]
  | [c], rest => by
      rw [List.singleton_eq_append_iff]
      by_cases hc : c = mark <;> simp [dropFinal?, hc, eq_comm (a := mark), eq_comm (a := ([] : List Char))]
  | c :: d :: cs, rest => by
      rw [dropFinal?, Option.map_eq_some_iff]
      constructor
      · rintro ⟨before, h, rfl⟩
        rw [dropFinal?_eq_some_iff.1 h, List.cons_append]
      · intro h
        cases rest with
        | nil => simp at h
        | cons r rest =>
          simp only [List.cons_append, List.cons.injEq] at h
          obtain ⟨rfl, h⟩ := h
          exact ⟨rest, dropFinal?_eq_some_iff.2 h, rfl⟩
      · simp

theorem splitAt_ne_nil (mark : Char) (cs : List Char) : splitAt mark cs ≠ [] := by
  cases cs with
  | nil => simp [splitAt]
  | cons c cs =>
    unfold splitAt
    split
    · simp
    · split <;> simp

theorem not_mem_of_mem_splitAt {mark : Char} : ∀ {cs piece : List Char}, piece ∈ splitAt mark cs → mark ∉ piece
  | [], piece, h => by simp_all [splitAt]
  | c :: cs, piece, h => by
      cases hs : splitAt mark cs with
      | nil => exact absurd hs (splitAt_ne_nil mark cs)
      | cons first rest =>
        have ih : ∀ p ∈ first :: rest, mark ∉ p := fun p hp => not_mem_of_mem_splitAt (hs ▸ hp)
        by_cases hc : c = mark
        · simp only [splitAt, hc, ↓reduceIte, hs] at h
          rcases List.mem_cons.1 h with rfl | h
          · simp
          · exact ih piece h
        · simp only [splitAt, hc, ↓reduceIte, hs] at h
          rcases List.mem_cons.1 h with rfl | h
          · simp [Ne.symm hc, ih first (by simp)]
          · exact ih piece (by simp [h])

end PrunedHistory.Text
