import Mathlib.Algebra.Group.Nat.Defs
import PrunedHistory.Proofs.Object.Encoding

/-! How ids may be spelled

    Digits are read in either case and written in lower case. Main statement: a text is read as an id exactly if it is
    the text of the id, but for the case of its letters. -/

namespace PrunedHistory

/-- Only upper-case letters are changed. -/
theorem Text.toLower_eq_self_iff (c : Char) : c.toLower = c ↔ c.isUpper = false := by
  delta Char.toLower Char.isUpper
  split
  · rename_i hupper
    refine iff_of_false (fun h => ?_) (by simpa using hupper)
    have hval := congrArg (fun d : Char => d.val.toNat) h
    have hlow := UInt32.le_iff_toNat_le.1 hupper.2
    have hsum := UInt32.toNat_add c.val 32
    have hz : 'Z'.val.toNat = 90 := rfl
    have ha : 'a'.val - 'A'.val = 32 := rfl
    simp only [ha] at hval
    rw [hsum] at hval
    have h32 : (32 : UInt32).toNat = 32 := rfl
    omega
  · rename_i hupper
    exact iff_of_true rfl (by simpa using hupper)

namespace Hex

/-- The digits are among the first 128 characters. -/
theorem toNat_lt_of_value? {c : Char} {d : Nat} (h : value? c = some d) : c.toNat < 128 := by
  have hle : ∀ {hi : Char}, hi.toNat < 128 → c ≤ hi → c.toNat < 128 := fun hhi hc =>
    Nat.lt_of_le_of_lt (UInt32.le_iff_toNat_le.1 hc) hhi
  unfold value? at h
  split at h
  · rename_i hc
    exact hle (by decide) hc.2
  · split at h
    · rename_i hc
      exact hle (by decide) hc.2
    · split at h
      · rename_i hc
        exact hle (by decide) hc.2
      · cases h

/-- A digit of either case is written back in lower case. -/
theorem digitChar_of_value? {c : Char} {d : Nat} (h : value? c = some d) : d < 16 ∧ Nat.digitChar d = c.toLower := by
  have hall : ∀ n < 128, ∀ d, value? (.ofNat n) = some d → d < 16 ∧ Nat.digitChar d = (Char.ofNat n).toLower := by
    decide
  have hc := hall c.toNat (toNat_lt_of_value? h) d
  rw [Char.ofNat_toNat] at hc
  exact hc h

theorem value?_toLower (c : Char) : value? c.toLower = value? c := by
  have hall : ∀ n < 128, value? (Char.ofNat n).toLower = value? (.ofNat n) := by decide
  by_cases hc : c.toNat < 128
  · have hlow := hall c.toNat hc
    rwa [Char.ofNat_toNat] at hlow
  · have hkept : c.toLower = c :=
      dif_neg fun hupper => hc (Nat.lt_of_le_of_lt (UInt32.le_iff_toNat_le.1 hupper.2) (by decide))
    rw [hkept]

theorem numberFrom?_map_toLower : ∀ (n : Nat) (cs : List Char), numberFrom? n (cs.map Char.toLower) = numberFrom? n cs
  | _, [] => rfl
  | n, c :: cs => by
      rw [List.map_cons, numberFrom?, numberFrom?, value?_toLower]
      exact congrArg (Option.bind _) (funext fun d => numberFrom?_map_toLower _ cs)

/-- Of one digit more, the first is the quotient. -/
theorem digitsOnto_succ : ∀ (count n : Nat) (after : List Char),
    digitsOnto (count + 1) n after = Nat.digitChar (n / 16 ^ count % 16) :: digitsOnto count n after
  | 0, n, after => by simp [digitsOnto]
  | count + 1, n, after => by
      rw [digitsOnto, digitsOnto_succ count, digitsOnto, Nat.div_div_eq_div_mul, Nat.pow_succ, Nat.mul_comm]

/-- What is read after a number is the last digits, and the number is what stands before them. -/
theorem digitsOnto_of_numberFrom? : ∀ {cs : List Char} {m n : Nat}, numberFrom? m cs = some n →
    n / 16 ^ cs.length = m ∧ ∀ after, digitsOnto cs.length n after = cs.map Char.toLower ++ after
  | [], m, n, h => by
      cases h
      exact ⟨Nat.div_one m, fun _ => rfl⟩
  | c :: cs, m, n, h => by
      rw [numberFrom?] at h
      obtain ⟨d, hd, hrest⟩ := Option.bind_eq_some_iff.1 h
      obtain ⟨hlt, hchar⟩ := digitChar_of_value? hd
      obtain ⟨hdiv, hdigits⟩ := digitsOnto_of_numberFrom? hrest
      refine ⟨?_, fun after => ?_⟩
      · rw [List.length_cons, Nat.pow_succ, ← Nat.div_div_eq_div_mul, hdiv]
        omega
      · -- The digit just read is the one left when those after it are cut off.
        have hlast : n / 16 ^ cs.length % 16 = d := by
          rw [hdiv]
          omega
        rw [List.length_cons, digitsOnto_succ, hlast, hchar, hdigits]
        rfl

end Hex

namespace ObjectId

/-- The text is that of the id, but for the case of its letters. -/
def Spells (id : ObjectId) (text : String) : Prop := text.toList.map Char.toLower = id.chars

instance (id : ObjectId) (text : String) : Decidable (id.Spells text) := inferInstanceAs (Decidable (_ = _))

variable {id : ObjectId}

theorem ofChars?_eq_some_iff {cs : List Char} : ofChars? cs = some id ↔ cs.map Char.toLower = id.chars := by
  constructor
  · intro h
    rw [ofChars?] at h
    split at h
    · rename_i hlength
      obtain ⟨n, hn, rfl⟩ := Option.map_eq_some_iff.1 h
      obtain ⟨hdiv, hdigits⟩ := Hex.digitsOnto_of_numberFrom? hn
      rw [hlength] at hdiv hdigits
      have hlt : n < 16 ^ 40 := Nat.lt_of_div_eq_zero (by decide) hdiv
      have hbits : (BitVec.ofNat 160 n).toNat = n := Nat.mod_eq_of_lt hlt
      rw [chars, hbits, Hex.digits, hdigits, List.append_nil]
    · cases h
  · intro h
    have hlength := congrArg List.length h
    rw [List.length_map, length_chars] at hlength
    -- Case makes no difference to the number read, and the lower-case spelling is read back as the id.
    have hnumber : Hex.number? cs = Hex.number? id.chars := by
      rw [← h, Hex.number?, Hex.number?, Hex.numberFrom?_map_toLower]
    have hread := ofChars?_chars id
    rw [ofChars?, if_pos id.length_chars] at hread
    rw [ofChars?, if_pos hlength, hnumber, hread]

/-- A text is read as an id exactly if it spells it. -/
theorem parse_eq_ok_iff {text : String} : parse text = .ok id ↔ id.Spells text := by
  rw [Spells, ← ofChars?_eq_some_iff, parse]
  cases ofChars? text.toList with
  | none => simp
  | some found => simp

theorem spells_text (id : ObjectId) : id.Spells id.text := parse_eq_ok_iff.1 (parse_text id)

/-- Of the texts that spell an id, its own is the one without upper-case letters. -/
theorem Spells.eq_text_iff {text : String} (h : id.Spells text) :
    text = id.text ↔ ∀ d ∈ text.toList, d.isUpper = false := by
  have hlower : text.toList.map Char.toLower = text.toList.map (fun d => d) ↔ ∀ d ∈ text.toList, d.toLower = d :=
    List.map_inj_left
  rw [List.map_id'] at hlower
  simp only [← Text.toLower_eq_self_iff, ← hlower]
  rw [← String.toList_inj, ObjectId.text, String.toList_ofList, ← h, eq_comm]

end ObjectId

end PrunedHistory
