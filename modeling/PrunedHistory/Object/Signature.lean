import PrunedHistory.Text.Decimal
import PrunedHistory.Text.Lines
import PrunedHistory.Object.Error

/-! Signatures

    Who did something and when, as the headers of commits and tags write it: `Name <email> 1234567890 +0200`. Two
    spellings that name, email, time and offset cannot tell apart are remembered, so that reading a text and writing
    the signature again gives the text back; a text for which this would fail is refused. -/

namespace PrunedHistory

/-- Who, when and where, with two marks of how the text was spelled. -/
structure Signature where
  name : String
  email : String
  /-- Seconds since the start of 1970. -/
  time : Int64
  /-- Minutes east of UTC. -/
  offset : Int32 := 0
  /-- No space stands between the name and the opening bracket. -/
  tight : Bool := false
  /-- A zero offset is written with a minus sign. -/
  negativeUtc : Bool := false
deriving DecidableEq

namespace Signature

/-- Sign, hours and minutes; an offset of a hundred hours or more takes more than four digits. -/
def zone (s : Signature) : List Char :=
  let minutes := s.offset.toInt.natAbs
  let negative := s.offset < 0 || (s.offset == 0 && s.negativeUtc)
  (if negative then '-' else '+') :: Decimal.twoDigits (minutes / 60) ++ Decimal.twoDigits (minutes % 60)

/-- The text of a signature. Name and email are written as they are, so that not every signature can be read back. -/
def chars (s : Signature) : List Char :=
  s.name.toList ++ (if s.tight then [] else [' ']) ++ '<' :: s.email.toList ++ '>' :: ' ' ::
    Decimal.ofInt s.time.toInt ++ ' ' :: s.zone

def text (s : Signature) : String := .ofList s.chars

/-- The same name, email, time and offset, spelled the usual way. -/
def plain (s : Signature) : Signature := { s with tight := false, negativeUtc := false }

/-! ### Reading -/

/-- A time that fits its 64 bits. -/
def time? (cs : List Char) : Option Int64 :=
  (Decimal.int? cs).bind fun n =>
    if Int64.minValue.toInt ≤ n ∧ n ≤ Int64.maxValue.toInt then some (.ofInt n) else none

/-- The minutes that a sign and four digits mean. -/
def offset? : List Char → Option Int32
  | sign :: hours :: hours' :: minutes :: minutes' :: [] => do
    let h ← Decimal.nat? [hours, hours']
    let m ← Decimal.nat? [minutes, minutes']
    match sign with
    | '+' => some (.ofInt (h * 60 + m))
    | '-' => some (.ofInt (-(h * 60 + m : Nat)))
    | _ => none
  | _ => none

/-- The one signature that may be written as the text: the name ends at the first `<`, less one space before it,
    the email at the first `>` after it, and one space each comes before the time and the offset. -/
def candidate? (cs : List Char) : Option Signature := do
  let (front, afterOpen) ← Text.cut? '<' cs
  let (email, afterClose) ← Text.cut? '>' afterOpen
  let (_, afterGap) ← Text.cut? ' ' afterClose
  let (time, zone) ← Text.cut? ' ' afterGap
  let time ← time? time
  let offset ← offset? zone
  let name := (Text.dropFinal? ' ' front).getD front
  return { name := .ofList name, email := .ofList email, time, offset,
           tight := (Text.dropFinal? ' ' front).isNone, negativeUtc := zone == ['-', '0', '0', '0', '0'] }

/-- The signature that is written as exactly this text. -/
def ofChars? (cs : List Char) : Option Signature :=
  -- Signs, blanks and zeros can be spelled in ways that no signature is written in; those texts are refused here.
  (candidate? cs).filter fun s => s.chars == cs

/-- Reads a text that some signature is written as. -/
def parse (s : String) : Except ObjectError Signature :=
  match ofChars? s.toList with
  | some signature => .ok signature
  | none => .error (.signature s)

end Signature

end PrunedHistory
