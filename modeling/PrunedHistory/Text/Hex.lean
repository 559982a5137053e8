/-! Hexadecimal digits

    Numbers written with a fixed count of lower-case digits, and read back with either case. -/

namespace PrunedHistory.Hex

/-- The last `count` digits of `n`, put in front of `after`. -/
def digitsOnto : Nat → Nat → List Char → List Char
  | 0, _, after => after
  | count + 1, n, after => digitsOnto count (n / 16) (Nat.digitChar (n % 16) :: after)

/-- Exactly `count` lower-case digits, most significant first. -/
def digits (count n : Nat) : List Char := digitsOnto count n []

/-- The value of one digit of either case. -/
def value? (c : Char) : Option Nat :=
  if '0' ≤ c ∧ c ≤ '9' then some (c.toNat - 48)
  else if 'a' ≤ c ∧ c ≤ 'f' then some (c.toNat - 87)
  else if 'A' ≤ c ∧ c ≤ 'F' then some (c.toNat - 55)
  else none

/-- The number that digits of either case write after a number already read. -/
def numberFrom? : Nat → List Char → Option Nat
  | n, [] => some n
  | n, c :: cs => (value? c).bind fun d => numberFrom? (16 * n + d) cs

/-- The number that a text of digits alone writes; nothing else is read. -/
def number? (cs : List Char) : Option Nat := numberFrom? 0 cs

/-! ### Laws -/

theorem length_digitsOnto : ∀ (count n : Nat) (after : List Char),
    (digitsOnto count n after).length = count + after.length
  | 0, _, _ => by simp [digitsOnto]
  | count + 1, n, after => by
      rw [digitsOnto, length_digitsOnto, List.length_cons]
      omega

@[simp] theorem length_digits (count n : Nat) : (digits count n).length = count :=
  length_digitsOnto count n []

theorem value?_digitChar {d : Nat} (h : d < 16) : value? (Nat.digitChar d) = some d := by
  revert d
  decide

/-- The digits are read back after any number read before them. -/
theorem numberFrom?_digitsOnto : ∀ (count n m : Nat) (after : List Char),
    numberFrom? m (digitsOnto count n after)
      = numberFrom? (m * Nat.pow 16 count + n % Nat.pow 16 count) after
  | 0, n, m, after => by
      have : n % Nat.pow 16 0 = 0 := Nat.mod_one n
      rw [this]
      simp [digitsOnto]
  | count + 1, n, m, after => by
      rw [digitsOnto, numberFrom?_digitsOnto, numberFrom?, value?_digitChar (Nat.mod_lt n (by decide)),
        Option.bind_some]
      congr 1
      have h : n % (Nat.pow 16 count * 16) = n % 16 + 16 * (n / 16 % Nat.pow 16 count) := by
        rw [Nat.mul_comm, Nat.mod_mul]
      rw [show Nat.pow 16 (count + 1) = Nat.pow 16 count * 16 from rfl, h, Nat.mul_add, ← Nat.mul_assoc m]
      rw [Nat.mul_comm (m * Nat.pow 16 count) 16]
      omega

theorem number?_digits (count n : Nat) : number? (digits count n) = some (n % Nat.pow 16 count) := by
  rw [number?, digits, numberFrom?_digitsOnto, numberFrom?, Nat.zero_mul, Nat.zero_add]

end PrunedHistory.Hex
