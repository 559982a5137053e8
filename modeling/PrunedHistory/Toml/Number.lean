import PrunedHistory.Text.Hex
import PrunedHistory.Toml.Value

/-! TOML numbers

    Whole words that write an integer of 64 bits or a float. Single underscores may stand between digits. A float may
    round to anything but positive infinity. -/

namespace PrunedHistory.Toml

/-- The digits of a word in which single underscores stand between digits. -/
def plainDigits? (isDigit : Char → Bool) : List Char → Option (List Char)
  | [] => none
  | [c] => if isDigit c then some [c] else none
  | c :: '_' :: rest => if isDigit c then (plainDigits? isDigit rest).map (c :: ·) else none
  | c :: rest => if isDigit c then (plainDigits? isDigit rest).map (c :: ·) else none

/-- The value of digits in a base. -/
def digitsValue (base : Nat) (digits : List Char) : Nat :=
  digits.foldl (fun n c => base * n + (Hex.value? c).getD 0) 0

/-- The digits of a decimal integer without a sign, which has no leading zero. -/
def decimalDigits? : List Char → Option (List Char)
  | ['0'] => some ['0']
  | '0' :: _ => none
  | cs => plainDigits? Char.isDigit cs

/-- Whether the sign is a minus, and the word without it. -/
def splitSign : List Char → Bool × List Char
  | '-' :: rest => (true, rest)
  | '+' :: rest => (false, rest)
  | rest => (false, rest)

/-- A number of 64 bits. -/
def fits (n : Int) : Option Int :=
  if Int64.minValue.toInt ≤ n ∧ n ≤ Int64.maxValue.toInt then some n else none

/-- A decimal integer with an optional sign, or a hexadecimal, octal or binary one with its mark. -/
def integer? (word : List Char) : Option Int :=
  match word with
  | '0' :: 'x' :: rest => do
    fits (digitsValue 16 (← plainDigits? (fun c => (Hex.value? c).isSome) rest))
  | '0' :: 'o' :: rest => do fits (digitsValue 8 (← plainDigits? (fun c => '0' ≤ c && c ≤ '7') rest))
  | '0' :: 'b' :: rest => do fits (digitsValue 2 (← plainDigits? (fun c => c == '0' || c == '1') rest))
  | word => do
    let (negative, rest) := splitSign word
    let n := digitsValue 10 (← decimalDigits? rest)
    fits (if negative then -n else n)

/-- Whether `m * 10 ^ e` rounds to a finite 64-bit float: it is below the middle between the greatest of them and the
    next power of two. -/
def roundsFinite (m : Nat) (e : Int) : Bool :=
  let bound := Nat.pow 2 1024 - Nat.pow 2 970
  -- Far off the bound the sizes decide, so that no huge power is computed.
  match e with
  | .ofNat e => m == 0 || (e ≤ 400 && m * Nat.pow 10 e < bound)
  | .negSucc e => (Nat.toDigits 10 m).length ≤ e || m < bound * Nat.pow 10 (e + 1)

/-- The power of ten after the mark of an exponent. -/
def power? (cs : List Char) : Option Int := do
  let (negative, digits) := splitSign cs
  let n := digitsValue 10 (← plainDigits? Char.isDigit digits)
  return if negative then -n else n

/-- A float without its sign: the digits before the point, those after it, and the exponent. A word of whole digits
    alone is no float. -/
def floatParts? (cs : List Char) : Option (List Char × List Char × Int) := do
  let mantissa := cs.takeWhile fun c => c != 'e' && c != 'E'
  let whole := mantissa.takeWhile (· != '.')
  if whole.length = cs.length then none
  let fraction ← match mantissa.drop whole.length with
    | [] => some []
    | _ :: digits => plainDigits? Char.isDigit digits
  let exponent ← match cs.drop mantissa.length with
    | [] => some 0
    | _ :: power => power? power
  return (← decimalDigits? whole, fraction, exponent)

/-- Whether a word is a float: an integer part with a fraction, an exponent or both, or `inf` or `nan`. -/
def isFloat (word : List Char) : Bool :=
  let (negative, rest) := splitSign word
  rest == ['i', 'n', 'f'] || rest == ['n', 'a', 'n'] ||
  match floatParts? rest with
  | some (whole, fraction, exponent) =>
    negative || roundsFinite (digitsValue 10 (whole ++ fraction)) (exponent - fraction.length)
  | none => false

end PrunedHistory.Toml
