import Mathlib.Tactic.SplitIfs

/-! The order of bytes

    A greater code point has a greater encoding: it is longer and starts with a greater byte, or it is as long and its
    bytes are the digits of a greater number. Main statement: the bytes of a greater text are greater. -/

namespace PrunedHistory.Text

/-- The bytes that a text is stored as. -/
def bytes (s : String) : List UInt8 := s.toUTF8.data.toList

theorem bytes_eq_flatMap (s : String) : bytes s = s.toList.flatMap String.utf8EncodeChar := by
  rw [bytes, String.toUTF8_eq_toByteArray, ← String.utf8Encode_toList, List.utf8Encode, List.toList_data_toByteArray]

theorem ofNat_lt_ofNat_iff {m n : Nat} (hm : m < 256) (hn : n < 256) : UInt8.ofNat m < UInt8.ofNat n ↔ m < n := by
  rw [UInt8.lt_iff_toNat_lt, UInt8.toNat_ofNat', UInt8.toNat_ofNat', Nat.mod_eq_of_lt hm, Nat.mod_eq_of_lt hn]

theorem ofNat_inj {m n : Nat} (hm : m < 256) (hn : n < 256) : UInt8.ofNat m = UInt8.ofNat n ↔ m = n := by
  rw [← UInt8.toNat_inj, UInt8.toNat_ofNat', UInt8.toNat_ofNat', Nat.mod_eq_of_lt hm, Nat.mod_eq_of_lt hn]

/-- The bytes of a greater character are greater at the first byte in which they differ, so whatever follows them does
    not count. -/
theorem utf8EncodeChar_append_lt {c d : Char} (h : c < d) (xs ys : List UInt8) :
    String.utf8EncodeChar c ++ xs < String.utf8EncodeChar d ++ ys := by
  have hlt : c.val.toNat < d.val.toNat := h
  have hbound : d.val.toNat < 55296 ∨ 57343 < d.val.toNat ∧ d.val.toNat < 1114112 := d.valid
  unfold String.utf8EncodeChar
  generalize c.val.toNat = m at *
  generalize d.val.toNat = n at *
  have hsecond (k : Nat) : k / 4096 = k / 64 / 64 := by omega
  have hthird (k : Nat) : k / 262144 = k / 64 / 64 / 64 := by omega
  simp only [hsecond, hthird]
  -- a longer encoding starts with a greater byte; in equally long ones the bytes are digits of the code points
  split_ifs <;>
    simp (disch := omega) only [List.cons_append, List.cons_lt_cons_iff, ofNat_lt_ofNat_iff, ofNat_inj] <;> omega

theorem flatMap_utf8EncodeChar_lt : ∀ {cs ds : List Char}, cs < ds →
    cs.flatMap String.utf8EncodeChar < ds.flatMap String.utf8EncodeChar
  | _, [], h => absurd h (List.not_lt_nil _)
  | [], d :: ds, _ => by
      obtain ⟨byte, rest, hbytes⟩ := List.exists_cons_of_ne_nil (String.utf8EncodeChar_ne_nil (c := d))
      rw [List.flatMap_nil, List.flatMap_cons, hbytes]
      exact List.nil_lt_cons _ _
  | c :: cs, d :: ds, h => by
      rw [List.flatMap_cons, List.flatMap_cons]
      rcases List.cons_lt_cons_iff.1 h with hlt | ⟨rfl, hlt⟩
      · exact utf8EncodeChar_append_lt hlt _ _
      · exact List.append_left_lt (flatMap_utf8EncodeChar_lt hlt)

/-- Texts compare as their bytes do. -/
theorem bytes_lt_of_lt {s t : String} (h : s < t) : bytes s < bytes t := by
  rw [bytes_eq_flatMap, bytes_eq_flatMap]
  exact flatMap_utf8EncodeChar_lt (String.lt_iff.1 h)

end PrunedHistory.Text
