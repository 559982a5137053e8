import PrunedHistory.Digest.Sha1
import PrunedHistory.Text.Hex
import PrunedHistory.Text.Decimal
import PrunedHistory.Object.Error

/-! Object ids

    An id is the digest of an object's kind, size and body. It is written as forty lower-case hexadecimal digits,
    read in either case, and ordered as a number, which is also the order of its bytes and of its text. -/

namespace PrunedHistory

/-- The id of an object: 160 bits. -/
structure ObjectId where
  bits : BitVec 160
deriving DecidableEq, Inhabited

namespace ObjectId

/-- How many ids there are. -/
def count : Nat := Nat.pow 2 160

instance : Ord ObjectId := ⟨fun a b => compare a.bits.toNat b.bits.toNat⟩

instance : Std.TransOrd ObjectId where
  eq_swap := Std.OrientedOrd.eq_swap (α := Nat)
  isLE_trans := Std.TransOrd.isLE_trans (α := Nat)

instance : Std.LawfulEqOrd ObjectId where
  eq_of_compare h := by
    have := Std.LawfulEqOrd.eq_of_compare (α := Nat) h
    cases ‹ObjectId›; cases ‹ObjectId›; simp_all [BitVec.toNat_inj]
  compare_self := Std.ReflOrd.compare_self (α := Nat)

/-! ### Text -/

/-- Forty lower-case digits. -/
def chars (id : ObjectId) : List Char := Hex.digits 40 id.bits.toNat

def text (id : ObjectId) : String := .ofList id.chars

/-- The first eight digits. -/
def short (id : ObjectId) : String := .ofList (id.chars.take 8)

/-- The twenty bytes, most significant first. -/
def bytes (id : ObjectId) : List UInt8 :=
  (List.range 20).map fun i => (id.bits.toNat >>> (8 * (19 - i))).toUInt8

/-- The id that forty digits write. -/
def ofChars? (cs : List Char) : Option ObjectId :=
  if cs.length = 40 then (Hex.number? cs).map fun n => ⟨.ofNat 160 n⟩ else none

/-- Reads exactly forty digits of either case. -/
def parse (s : String) : Except ObjectError ObjectId :=
  match ofChars? s.toList with
  | some id => .ok id
  | none => .error (.invalidId s)

@[simp] theorem length_chars (id : ObjectId) : id.chars.length = 40 := Hex.length_digits 40 _

@[simp] theorem ofChars?_chars (id : ObjectId) : ofChars? id.chars = some id := by
  have h : id.bits.toNat % Nat.pow 16 40 = id.bits.toNat := Nat.mod_eq_of_lt id.bits.isLt
  rw [ofChars?, length_chars, if_pos rfl, chars, Hex.number?_digits, h, Option.map_some]
  simp

@[simp] theorem parse_text (id : ObjectId) : parse id.text = .ok id := by
  rw [parse, text, String.toList_ofList, ofChars?_chars]

/-! ### Hashing -/

/-- What is hashed for an object: its kind, a space, the size of its body in decimal, a zero byte, the body. -/
def framed (kind : ObjectKind) (body : ByteArray) : List UInt8 :=
  (kind.name ++ " " ++ .ofList (Decimal.ofNat body.size)).toUTF8.data.toList ++ 0 :: body.data.toList

/-- The id of an object of the given kind and body. -/
def ofBody (kind : ObjectKind) (body : ByteArray) : ObjectId := ⟨Sha1.digest (framed kind body)⟩

end ObjectId

end PrunedHistory
