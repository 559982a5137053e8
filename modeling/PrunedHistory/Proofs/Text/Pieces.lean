import PrunedHistory.Text.Lines

/-! What cutting a text into pieces gives

    The pieces between marks are the one way to write a text with a mark after each piece, its last mark left off. A
    text is cut at an empty line where its pieces say so: the first cut comes where all pieces but the first have
    characters. -/

namespace PrunedHistory.Text

variable {mark : Char} {cs : List Char}

/-! ### Pieces between marks -/

theorem splitAt_of_not_mem : ∀ {cs : List Char}, mark ∉ cs → splitAt mark cs = [cs]
  | [], _ => rfl
  | c :: cs, h => by
      obtain ⟨hc, hcs⟩ := List.ne_and_not_mem_of_not_mem_cons h
      rw [splitAt, if_neg hc.symm, splitAt_of_not_mem hcs]

theorem splitAt_append_mark (mark : Char) : ∀ cs ds : List Char,
    splitAt mark (cs ++ mark :: ds) = splitAt mark cs ++ splitAt mark ds
  | [], ds => by simp [splitAt]
  | c :: cs, ds => by
      have ih := splitAt_append_mark mark cs ds
      by_cases hc : c = mark
      · simp only [List.cons_append, splitAt, hc, ↓reduceIte, ih]
      · simp only [List.cons_append, splitAt, hc, ↓reduceIte, ih]
        cases hs : splitAt mark cs with
        | nil => exact absurd hs (splitAt_ne_nil mark cs)
        | cons piece rest => rfl

/-- With a mark after each piece, the pieces are the text with a mark after it. -/
theorem flatMap_splitAt (mark : Char) : ∀ cs : List Char, (splitAt mark cs).flatMap (· ++ [mark]) = cs ++ [mark]
  | [] => rfl
  | c :: cs => by
      have ih := flatMap_splitAt mark cs
      cases hs : splitAt mark cs with
      | nil => exact absurd hs (splitAt_ne_nil mark cs)
      | cons piece rest =>
        rw [hs] at ih
        by_cases hc : c = mark
        · simp only [splitAt, hc, ↓reduceIte, hs]
          rw [List.flatMap_cons, ih]
          rfl
        · simp only [splitAt, hc, ↓reduceIte, hs]
          rw [List.flatMap_cons] at ih ⊢
          rw [List.cons_append, List.cons_append, ih, List.cons_append]

/-- Written with a mark after each, pieces are read back, and an empty one after the last mark. -/
theorem splitAt_flatMap : ∀ {pieces : List (List Char)}, (∀ piece ∈ pieces, mark ∉ piece) →
    splitAt mark (pieces.flatMap (· ++ [mark])) = pieces ++ [[]]
  | [], _ => rfl
  | piece :: rest, h => by
      have ih := splitAt_flatMap fun p hp => h p (List.mem_cons_of_mem piece hp)
      rw [List.flatMap_cons, List.append_assoc, List.singleton_append, splitAt_append_mark, ih,
        splitAt_of_not_mem (h piece List.mem_cons_self)]
      rfl

theorem flatMap_concat_mark (mark : Char) : ∀ (first : List Char) (more : List (List Char)),
    (first :: more).flatMap (· ++ [mark]) = first ++ more.flatMap (mark :: ·) ++ [mark]
  | first, [] => by simp
  | first, next :: more => by
      rw [List.flatMap_cons, flatMap_concat_mark mark next more]
      simp

/-- The text is its first piece, and each other piece after a mark. -/
theorem append_of_splitAt {first : List Char} {more : List (List Char)} (h : splitAt mark cs = first :: more) :
    first ++ more.flatMap (mark :: ·) = cs := by
  have hwhole := flatMap_splitAt mark cs
  rw [h, flatMap_concat_mark] at hwhole
  exact List.append_cancel_right hwhole

theorem splitAt_eq_of_flatMap {pieces : List (List Char)} (hpieces : ∀ piece ∈ pieces, mark ∉ piece)
    (h : pieces.flatMap (· ++ [mark]) = cs ++ [mark]) : splitAt mark cs = pieces := by
  have hread := splitAt_flatMap hpieces
  rw [h, splitAt_append_mark] at hread
  exact List.append_cancel_right hread

/-- Lines are read as written if none has a line break or ends in a carriage return. -/
theorem lines_flatMap {rows : List (List Char)} (h : ∀ row ∈ rows, '\n' ∉ row ∧ dropFinal? '\r' row = none) :
    lines (rows.flatMap (· ++ ['\n'])) = rows := by
  have hkept : rows.map (fun row => (dropFinal? '\r' row).getD row) = rows := by
    refine (List.map_congr_left fun row hrow => ?_).trans rows.map_id
    rw [(h row hrow).2]
    rfl
  simp only [lines, splitAt_flatMap fun row hrow => (h row hrow).1, List.dropLast_concat, List.getLast?_concat, hkept]

/-! ### The first empty line -/

theorem eq_of_cutAtEmptyLine? : ∀ {cs before after : List Char}, cutAtEmptyLine? cs = some (before, after) →
    cs = before ++ '\n' :: '\n' :: after := by
  intro cs
  fun_induction cutAtEmptyLine? cs with
  | case1 => intro before after h; cases h
  | case2 cs =>
    intro before after h
    cases h
    rfl
  | case3 c cs _ ih =>
    intro before after h
    obtain ⟨⟨front, rest⟩, hcut, heq⟩ := Option.map_eq_some_iff.1 h
    cases heq
    rw [ih hcut]
    rfl

theorem cutAtEmptyLine?_cons {c : Char} (h : c ≠ '\n' ∨ cs.head? ≠ some '\n') :
    cutAtEmptyLine? (c :: cs) = (cutAtEmptyLine? cs).map fun (before, after) => (c :: before, after) := by
  rw [cutAtEmptyLine?]
  rintro ds rfl rfl
  rcases h with h | h <;> exact h rfl

/-- The first line apart, no line of the text is empty. -/
def NoEmptyLine (cs : List Char) : Prop := ∀ line ∈ (splitAt '\n' cs).tail, line ≠ []

theorem NoEmptyLine.cons {c : Char} (h : NoEmptyLine (c :: cs)) :
    NoEmptyLine cs ∧ (c ≠ '\n' ∨ (cs ≠ [] ∧ cs.head? ≠ some '\n')) := by
  cases hs : splitAt '\n' cs with
  | nil => exact absurd hs (splitAt_ne_nil '\n' cs)
  | cons line rest =>
    by_cases hc : c = '\n'
    · have hall : ∀ l ∈ line :: rest, l ≠ [] := by
        simpa only [NoEmptyLine, splitAt, hc, ↓reduceIte, hs, List.tail_cons] using h
      have hline : line ≠ [] := hall line List.mem_cons_self
      refine ⟨fun l hl => hall l ?_, .inr ⟨?_, fun hhead => ?_⟩⟩
      · rw [hs] at hl
        exact List.mem_cons_of_mem line hl
      · rintro rfl
        cases hs
        exact hline rfl
      · -- Two line breaks in a row would leave an empty line between them.
        obtain ⟨ds, rfl⟩ := List.head?_eq_some_iff.1 hhead
        simp only [splitAt, ↓reduceIte] at hs
        exact hline (List.cons.inj hs).1.symm
    · simp only [NoEmptyLine, splitAt, hc, ↓reduceIte, hs, List.tail_cons] at h ⊢
      exact ⟨h, .inl hc⟩

/-- A text without an empty line is part of what is cut off before one. -/
theorem cutAtEmptyLine?_append : ∀ {cs : List Char}, NoEmptyLine cs → ∀ after,
    cutAtEmptyLine? (cs ++ '\n' :: after)
      = (cutAtEmptyLine? ('\n' :: after)).map fun (before, rest) => (cs ++ before, rest)
  | [], _, after => by simp
  | c :: cs, h, after => by
      obtain ⟨hcs, hc⟩ := h.cons
      -- The character is no line break, or does not stand before one, so the cut is further on.
      have hhead : c ≠ '\n' ∨ (cs ++ '\n' :: after).head? ≠ some '\n' := by
        refine hc.imp_right fun ⟨hne, hhead⟩ => ?_
        cases cs with
        | nil => exact absurd rfl hne
        | cons d ds => exact hhead
      rw [List.cons_append, cutAtEmptyLine?_cons hhead, cutAtEmptyLine?_append hcs, Option.map_map]
      rfl

end PrunedHistory.Text
