/-! TOML dates and times

    Whole words that write a date, a time of day, or a date and a time with an optional offset from UTC. Days fit their
    month, and a minute may have a leap second. -/

namespace PrunedHistory.Toml

/-- The number that two digits write, if it lies in a range. -/
def pairIn? (low high : Nat) (tens ones : Char) : Option Nat :=
  if tens.isDigit && ones.isDigit then
    let n := 10 * (tens.toNat - 48) + (ones.toNat - 48)
    if low ≤ n ∧ n ≤ high then some n else none
  else none

def isLeapYear (year : Nat) : Bool := year % 4 == 0 && (year % 100 != 0 || year % 400 == 0)

/-- Only the second month depends on the year. -/
def daysInMonth (year month : Nat) : Nat :=
  match month with
  | 2 => if isLeapYear year then 29 else 28
  | 4 | 6 | 9 | 11 => 30
  | _ => 31

/-- A year, a month and a day: `1979-05-27`. -/
def isDate : List Char → Bool
  | [y1, y2, y3, y4, '-', m1, m2, '-', d1, d2] =>
    match pairIn? 0 99 y1 y2, pairIn? 0 99 y3 y4, pairIn? 1 12 m1 m2, pairIn? 1 31 d1 d2 with
    | some century, some year, some month, some day => day ≤ daysInMonth (100 * century + year) month
    | _, _, _, _ => false
  | _ => false

/-- What is left after hours, minutes, seconds and an optional fraction: `07:32:00.999`. -/
def afterTime? : List Char → Option (List Char)
  | h1 :: h2 :: ':' :: m1 :: m2 :: ':' :: s1 :: s2 :: rest =>
    match pairIn? 0 23 h1 h2, pairIn? 0 59 m1 m2, pairIn? 0 60 s1 s2 with
    | some _, some _, some _ =>
      match rest with
      | '.' :: c :: rest => if c.isDigit then some (rest.dropWhile Char.isDigit) else none
      | rest => some rest
    | _, _, _ => none
  | _ => none

/-- A time of day and nothing after it. -/
def isTime (cs : List Char) : Bool := afterTime? cs == some []

/-- `Z`, or a sign, hours and minutes. -/
def isOffset : List Char → Bool
  | ['Z'] | ['z'] => true
  | [sign, h1, h2, ':', m1, m2] =>
    (sign == '+' || sign == '-') && (pairIn? 0 23 h1 h2).isSome && (pairIn? 0 59 m1 m2).isSome
  | _ => false

/-- A time with or without an offset. -/
def isZonedTime (cs : List Char) : Bool :=
  match afterTime? cs with
  | some [] => true
  | some offset => isOffset offset
  | none => false

/-- A date, a time, or a date and a time with a `T` between them. -/
def isDateTime (cs : List Char) : Bool :=
  isDate cs || isTime cs ||
  match cs.drop 10 with
  | 'T' :: time | 't' :: time => isDate (cs.take 10) && isZonedTime time
  | _ => false

end PrunedHistory.Toml
