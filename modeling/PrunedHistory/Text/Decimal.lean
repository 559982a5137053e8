/-! Decimal numbers

    Integers written in the shortest decimal form, and read back from a minus sign and digits. -/

namespace PrunedHistory.Decimal

/-- The digits of a number, without leading zeros. -/
def ofNat (n : Nat) : List Char := Nat.toDigits 10 n

/-- Digits, after a minus sign if the number is negative. -/
def ofInt : Int → List Char
  | .ofNat n => ofNat n
  | .negSucc n => '-' :: ofNat (n + 1)

/-- The number a non-empty text of digits alone writes. -/
def nat? : List Char → Option Nat
  | [] => none
  | cs => if cs.all Char.isDigit then some (Nat.ofDigitChars 10 cs 0) else none

/-- An optional minus sign and digits. -/
def int? : List Char → Option Int
  | '-' :: cs => (nat? cs).map fun n : Nat => -(n : Int)
  | cs => (nat? cs).map Int.ofNat

/-- At least two digits. -/
def twoDigits (n : Nat) : List Char := if n < 10 then '0' :: ofNat n else ofNat n

/-! ### Laws -/

theorem all_isDigit_ofNat (n : Nat) : (ofNat n).all Char.isDigit = true :=
  List.all_eq_true.2 fun _ h => Nat.isDigit_of_mem_toDigits (by decide) (by decide) h

@[simp] theorem nat?_ofNat (n : Nat) : nat? (ofNat n) = some n := by
  have h := all_isDigit_ofNat n
  cases hd : ofNat n with
  | nil => exact absurd hd Nat.toDigits_ne_nil
  | cons d ds =>
    rw [hd] at h
    rw [nat?, if_pos h, ← hd, ofNat, Nat.ofDigitChars_ten_toDigits]
    simp

@[simp] theorem int?_ofInt (n : Int) : int? (ofInt n) = some n := by
  cases n with
  | ofNat n =>
    have h := all_isDigit_ofNat n
    rw [ofInt]
    cases hd : ofNat n with
    | nil => exact absurd hd Nat.toDigits_ne_nil
    | cons d ds =>
      have hm : d ≠ '-' := by
        rintro rfl
        rw [hd] at h
        simp at h
      rw [int?, ← hd, nat?_ofNat, Option.map_some]
      rintro cs hc
      exact hm (List.cons.inj hc).1
  | negSucc n =>
    rw [ofInt, int?, nat?_ofNat, Option.map_some]
    rfl

end PrunedHistory.Decimal
