/-! Bytes as text

    A text from any bytes: where they are not UTF-8, each longest start of a character that breaks off, and each byte
    that starts none, becomes one replacement character. -/

namespace PrunedHistory.Text

/-- A character that has begun: the bytes it still takes, the range of the next one, and its bits so far. -/
structure Pending where
  needed : Nat
  low : UInt8
  high : UInt8
  bits : Nat

/-- What the first byte of a character gives: the character, or the begin of one. -/
def beginChar (b : UInt8) : List Char × Option Pending :=
  if b < 0x80 then ([.ofNat b.toNat], none)
  else if 0xC2 ≤ b ∧ b ≤ 0xDF then ([], some ⟨1, 0x80, 0xBF, b.toNat % 32⟩)
  else if 0xE0 ≤ b ∧ b ≤ 0xEF then
    ([], some ⟨2, if b = 0xE0 then 0xA0 else 0x80, if b = 0xED then 0x9F else 0xBF, b.toNat % 16⟩)
  else if 0xF0 ≤ b ∧ b ≤ 0xF4 then
    ([], some ⟨3, if b = 0xF0 then 0x90 else 0x80, if b = 0xF4 then 0x8F else 0xBF, b.toNat % 8⟩)
  else (['\uFFFD'], none)

/-- What one more byte gives. -/
def stepChar (pending : Option Pending) (b : UInt8) : List Char × Option Pending :=
  match pending with
  | none => beginChar b
  | some p =>
    if p.low ≤ b ∧ b ≤ p.high then
      let bits := 64 * p.bits + b.toNat % 64
      if p.needed = 1 then ([.ofNat bits], none) else ([], some ⟨p.needed - 1, 0x80, 0xBF, bits⟩)
    else
      let (chars, next) := beginChar b
      ('\uFFFD' :: chars, next)

/-- The text of the bytes that are left, behind a character that has perhaps begun. -/
def repairFrom (pending : Option Pending) : List UInt8 → List Char
  | [] => if pending.isSome then ['\uFFFD'] else []
  | b :: bytes =>
    let (chars, next) := stepChar pending b
    chars ++ repairFrom next bytes

/-- The text the bytes encode, repaired where they encode none. -/
def ofBytes (bytes : ByteArray) : String :=
  match String.fromUTF8? bytes with
  | some s => s
  | none => .ofList (repairFrom none bytes.data.toList)

end PrunedHistory.Text
