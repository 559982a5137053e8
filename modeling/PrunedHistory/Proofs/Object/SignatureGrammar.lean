import PrunedHistory.Object.Signature

/-! Which texts are signatures

    The name of a signature ends at the first mark, its email at the next, and its offset has two digits for the hours.
    What is remembered of a spelling is remembered only where it makes a difference. Main statement: a text is read as
    a signature exactly if it is the text of that signature, and the signature is of this kind. -/

namespace PrunedHistory

namespace Text

theorem dropFinal?_eq_none_iff {mark : Char} {cs : List Char} :
    dropFinal? mark cs = none ↔ cs.getLast? ≠ some mark := by
  rw [Ne, List.getLast?_eq_some_iff, Option.eq_none_iff_forall_ne_some, not_exists]
  exact forall_congr' fun rest => not_congr dropFinal?_eq_some_iff

theorem not_mem_dropFinal?_getD {c mark : Char} {cs : List Char} (h : c ∉ cs) :
    c ∉ (dropFinal? mark cs).getD cs := by
  cases hdrop : dropFinal? mark cs with
  | none => exact h
  | some rest =>
    rw [dropFinal?_eq_some_iff.1 hdrop] at h
    exact fun hmem => h (List.mem_append_left _ hmem)

end Text

/-! ### Digits -/

namespace Decimal

theorem isDigit_of_mem_ofNat {n : Nat} {c : Char} (h : c ∈ ofNat n) : c.isDigit = true :=
  List.all_eq_true.1 (all_isDigit_ofNat n) c h

theorem isDigit_or_eq_minus_of_mem_ofInt {n : Int} {c : Char} (h : c ∈ ofInt n) : c.isDigit = true ∨ c = '-' := by
  cases n with
  | ofNat n => exact .inl (isDigit_of_mem_ofNat h)
  | negSucc n =>
    rcases List.mem_cons.1 h with rfl | h
    · exact .inr rfl
    · exact .inl (isDigit_of_mem_ofNat h)

theorem isDigit_of_mem_twoDigits {n : Nat} {c : Char} (h : c ∈ twoDigits n) : c.isDigit = true := by
  rw [twoDigits] at h
  split at h
  · rcases List.mem_cons.1 h with rfl | h
    · rfl
    · exact isDigit_of_mem_ofNat h
  · exact isDigit_of_mem_ofNat h

theorem length_twoDigits_eq_iff (n : Nat) : (twoDigits n).length = 2 ↔ n < 100 := by
  have hone := Nat.length_toDigits_le_iff (b := 10) (n := n) (k := 1) (by decide) (by decide)
  have htwo := Nat.length_toDigits_le_iff (b := 10) (n := n) (k := 2) (by decide) (by decide)
  have hpos := Nat.length_toDigits_pos (b := 10) (n := n)
  rw [twoDigits]
  split
  · rw [List.length_cons, ofNat]
    omega
  · rw [ofNat]
    omega

theorem nat?_twoDigits (n : Nat) : nat? (twoDigits n) = some n := by
  rw [twoDigits]
  split
  · have hdigits : ('0' :: ofNat n).all Char.isDigit = true := by
      rw [List.all_cons, all_isDigit_ofNat]
      rfl
    rw [nat?, if_pos hdigits, Nat.ofDigitChars_cons, ofNat]
    · exact congrArg some Nat.ofDigitChars_ten_toDigits
    · exact fun h => List.cons_ne_nil _ _ h
  · exact nat?_ofNat n

end Decimal

namespace Signature

/-- The signatures that a text can be read as. -/
structure Canonical (g : Signature) : Prop where
  name : '<' ∉ g.name.toList
  email : '>' ∉ g.email.toList
  offset : g.offset.toInt.natAbs < 6000
  tight : g.tight = true → g.name.toList.getLast? ≠ some ' '
  negativeUtc : g.negativeUtc = true → g.offset = 0

theorem canonical_iff (g : Signature) : g.Canonical ↔ '<' ∉ g.name.toList ∧ '>' ∉ g.email.toList ∧
    g.offset.toInt.natAbs < 6000 ∧ (g.tight = true → g.name.toList.getLast? ≠ some ' ') ∧
    (g.negativeUtc = true → g.offset = 0) :=
  ⟨fun ⟨h₁, h₂, h₃, h₄, h₅⟩ => ⟨h₁, h₂, h₃, h₄, h₅⟩, fun ⟨h₁, h₂, h₃, h₄, h₅⟩ => ⟨h₁, h₂, h₃, h₄, h₅⟩⟩

instance (g : Signature) : Decidable g.Canonical := decidable_of_iff' _ (canonical_iff g)

variable {g : Signature} {cs : List Char}

/-! ### Time and offset -/

theorem time?_ofInt (t : Int64) : time? (Decimal.ofInt t.toInt) = some t := by
  rw [time?, Decimal.int?_ofInt, Option.bind_some, if_pos ⟨Int64.minValue_le_toInt t, Int64.toInt_le t⟩, Int64.ofInt_toInt]

/-- The offset is written with a minus sign. -/
def isWest (g : Signature) : Bool := g.offset < 0 || (g.offset == 0 && g.negativeUtc)

theorem isWest_iff : g.isWest = true ↔ g.offset.toInt < 0 ∨ (g.offset = 0 ∧ g.negativeUtc = true) := by
  rw [isWest, Bool.or_eq_true, Bool.and_eq_true, decide_eq_true_eq, beq_iff_eq, Int32.lt_iff_toInt_lt]
  rfl

theorem zone_eq (g : Signature) : g.zone = (if g.isWest then '-' else '+') ::
    (Decimal.twoDigits (g.offset.toInt.natAbs / 60) ++ Decimal.twoDigits (g.offset.toInt.natAbs % 60)) := rfl

theorem offset?_cons (sign : Char) : ∀ {hours minutes : List Char}, hours.length = 2 → minutes.length = 2 →
    offset? (sign :: (hours ++ minutes)) = (Decimal.nat? hours).bind fun h => (Decimal.nat? minutes).bind fun m =>
      match sign with
      | '+' => some (.ofInt (h * 60 + m))
      | '-' => some (.ofInt (-(h * 60 + m : Nat)))
      | _ => none
  | [_, _], [_, _], _, _ => rfl

/-- An offset of less than a hundred hours is read back. -/
theorem offset?_zone (h : g.offset.toInt.natAbs < 6000) : offset? g.zone = some g.offset := by
  have hhours : g.offset.toInt.natAbs / 60 < 100 := by omega
  have hminutes : g.offset.toInt.natAbs % 60 < 100 := by omega
  have hsum := Nat.div_add_mod' g.offset.toInt.natAbs 60
  rw [zone_eq, offset?_cons _ ((Decimal.length_twoDigits_eq_iff _).2 hhours)
    ((Decimal.length_twoDigits_eq_iff _).2 hminutes), Decimal.nat?_twoDigits, Decimal.nat?_twoDigits]
  cases hwest : g.isWest with
  | true =>
    -- The hours and the minutes are joined under one sign, so minus stands before their sum.
    have hneg : -((g.offset.toInt.natAbs / 60 * 60 + g.offset.toInt.natAbs % 60 : Nat) : Int) = g.offset.toInt := by
      rcases isWest_iff.1 hwest with hlt | ⟨heq, -⟩
      · omega
      · rw [heq]
        rfl
    exact congrArg some ((congrArg Int32.ofInt hneg).trans (Int32.ofInt_toInt g.offset))
  | false =>
    have hpos : ((g.offset.toInt.natAbs / 60 : Nat) : Int) * 60 + (g.offset.toInt.natAbs % 60 : Nat) = g.offset.toInt := by
      have hle : ¬g.offset.toInt < 0 := fun hlt => by simp [isWest_iff.2 (.inl hlt)] at hwest
      omega
    exact congrArg some ((congrArg Int32.ofInt hpos).trans (Int32.ofInt_toInt g.offset))

theorem natAbs_lt_of_offset?_zone {offset : Int32} (h : offset? g.zone = some offset) :
    g.offset.toInt.natAbs < 6000 := by
  have hlength : g.zone.length = 5 := by
    unfold offset? at h
    split at h
    · rename_i hzone
      rw [hzone]
      rfl
    · cases h
  -- A zone that is read has five characters, which leaves two for the hours.
  have hminutes : g.offset.toInt.natAbs % 60 < 100 := by omega
  rw [zone_eq, List.length_cons, List.length_append, (Decimal.length_twoDigits_eq_iff _).2 hminutes] at hlength
  have hhours := (Decimal.length_twoDigits_eq_iff (g.offset.toInt.natAbs / 60)).1 (by omega)
  omega

/-- The remembered spelling is that of a zero offset and of no other. -/
theorem zone_eq_negativeUtc_iff (h : g.offset.toInt.natAbs < 6000) :
    g.zone = ['-', '0', '0', '0', '0'] ↔ g.offset = 0 ∧ g.negativeUtc = true := by
  constructor
  · intro hzone
    -- The zone is read as the offset, and this one as none.
    have hoffset : g.offset = 0 := by
      have hread := offset?_zone h
      rw [hzone] at hread
      exact (Option.some.inj hread).symm
    cases hwest : g.isWest with
    | true =>
      rcases isWest_iff.1 hwest with hlt | hspelled
      · rw [hoffset] at hlt
        exact absurd hlt (by decide)
      · exact hspelled
    | false =>
      rw [zone_eq, hwest] at hzone
      cases hzone
  · intro hspelled
    rw [zone_eq, isWest_iff.2 (.inr hspelled), hspelled.1]
    rfl

/-! ### Reading back -/

/-- What stands before the opening bracket. -/
def front (g : Signature) : List Char := g.name.toList ++ if g.tight then [] else [' ']

theorem chars_eq (g : Signature) : g.chars = g.front ++ '<' :: (g.email.toList ++ '>' :: ' ' ::
    (Decimal.ofInt g.time.toInt ++ ' ' :: g.zone)) := by
  simp [chars, front]

theorem space_not_mem_ofInt (n : Int) : ' ' ∉ Decimal.ofInt n := fun hmem =>
  (Decimal.isDigit_or_eq_minus_of_mem_ofInt hmem).elim (by decide) (by decide)

theorem cut?_chars (hname : '<' ∉ g.name.toList) : Text.cut? '<' g.chars
    = some (g.front, g.email.toList ++ '>' :: ' ' :: (Decimal.ofInt g.time.toInt ++ ' ' :: g.zone)) := by
  have hfront : '<' ∉ g.front := by
    rw [front, List.mem_append, not_or]
    exact ⟨hname, by split <;> simp⟩
  exact Text.cut?_eq_some_iff.2 ⟨hfront, g.chars_eq⟩

/-- Of a signature whose name and email end at the marks, the text is cut where it was put together. -/
theorem candidate?_chars (hname : '<' ∉ g.name.toList) (hemail : '>' ∉ g.email.toList) :
    candidate? g.chars = (offset? g.zone).map fun offset =>
      { g with name := .ofList ((Text.dropFinal? ' ' g.front).getD g.front), offset,
               tight := (Text.dropFinal? ' ' g.front).isNone, negativeUtc := g.zone == ['-', '0', '0', '0', '0'] } := by
  have hclose : Text.cut? '>' (g.email.toList ++ '>' :: ' ' :: (Decimal.ofInt g.time.toInt ++ ' ' :: g.zone))
      = some (g.email.toList, ' ' :: (Decimal.ofInt g.time.toInt ++ ' ' :: g.zone)) :=
    Text.cut?_eq_some_iff.2 ⟨hemail, rfl⟩
  have htime : Text.cut? ' ' (Decimal.ofInt g.time.toInt ++ ' ' :: g.zone)
      = some (Decimal.ofInt g.time.toInt, g.zone) :=
    Text.cut?_eq_some_iff.2 ⟨space_not_mem_ofInt g.time.toInt, rfl⟩
  have hgap (rest : List Char) : Text.cut? ' ' (' ' :: rest) = some ([], rest) := rfl
  rw [candidate?, cut?_chars hname]
  simp only [bind, Option.bind_some, hclose, hgap, htime, time?_ofInt, pure, String.ofList_toList]
  cases offset? g.zone <;> rfl

/-- A text that may be a signature has a name and an email that end at the marks. -/
theorem marks_of_candidate? (h : candidate? cs = some g) : '<' ∉ g.name.toList ∧ '>' ∉ g.email.toList := by
  rw [candidate?] at h
  simp only [bind, Option.bind_eq_some_iff, pure, Option.some.injEq, Prod.exists] at h
  obtain ⟨front, afterOpen, hopen, email, afterClose, hclose, -, -, -, -, -, -, -, -, -, -, rfl⟩ := h
  rw [String.toList_ofList, String.toList_ofList]
  exact ⟨Text.not_mem_dropFinal?_getD (Text.cut?_eq_some_iff.1 hopen).1, (Text.cut?_eq_some_iff.1 hclose).1⟩

/-- A space before the bracket is taken for the gap, so a name ends in one only if there is a gap. -/
theorem dropFinal?_front (htight : g.tight = true → g.name.toList.getLast? ≠ some ' ') :
    Text.dropFinal? ' ' g.front = if g.tight then none else some g.name.toList := by
  rw [front]
  split
  · rename_i h
    rw [List.append_nil]
    exact Text.dropFinal?_eq_none_iff.2 (htight h)
  · exact Text.dropFinal?_eq_some_iff.2 rfl

/-- A text is read as a signature exactly if it is the text of a canonical one. -/
theorem ofChars?_eq_some_iff : ofChars? cs = some g ↔ g.Canonical ∧ cs = g.chars := by
  rw [ofChars?, Option.filter_eq_some_iff, beq_iff_eq]
  constructor
  · rintro ⟨hread, rfl⟩
    obtain ⟨hname, hemail⟩ := marks_of_candidate? hread
    refine ⟨?_, rfl⟩
    rw [candidate?_chars hname hemail] at hread
    obtain ⟨offset, hoffset, heq⟩ := Option.map_eq_some_iff.1 hread
    have hlt := natAbs_lt_of_offset?_zone hoffset
    -- What was read is the signature itself, so the two flags say how its own text is spelled.
    refine ⟨hname, hemail, hlt, fun htight => ?_, fun hspelled => ?_⟩
    · have hnone := congrArg tight heq
      rw [htight, Option.isNone_iff_eq_none, front, if_pos htight, List.append_nil] at hnone
      exact Text.dropFinal?_eq_none_iff.1 hnone
    · have hzone := congrArg negativeUtc heq
      rw [hspelled, beq_iff_eq] at hzone
      exact ((zone_eq_negativeUtc_iff hlt).1 hzone).1
  · rintro ⟨hg, rfl⟩
    refine ⟨?_, rfl⟩
    have hspelled : (g.zone == ['-', '0', '0', '0', '0']) = g.negativeUtc := by
      rw [Bool.eq_iff_iff, beq_iff_eq, zone_eq_negativeUtc_iff hg.offset]
      exact ⟨And.right, fun h => ⟨hg.negativeUtc h, h⟩⟩
    rw [candidate?_chars hg.name hg.email, offset?_zone hg.offset, Option.map_some, hspelled,
      dropFinal?_front hg.tight, front]
    cases g with
    | mk name email time offset tight negativeUtc => cases tight <;> simp

theorem parse_eq_ok_iff {text : String} : parse text = .ok g ↔ g.Canonical ∧ text = g.text := by
  have hchars : text.toList = g.chars ↔ text = g.text := by
    rw [Signature.text, ← String.toList_inj, String.toList_ofList]
  rw [← hchars, ← ofChars?_eq_some_iff, parse]
  cases ofChars? text.toList with
  | none => simp
  | some found => simp

end Signature

end PrunedHistory
