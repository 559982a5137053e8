/-! SHA-1

    The 160-bit digest of a byte string: the message is padded to whole blocks of sixteen 32-bit words, every
    block is stretched to eighty words, and eighty rounds fold it into five chaining words, which side by side are the
    digest. Everything is a fold over lists, so a digest of a concrete text can be evaluated inside a proof. -/

namespace PrunedHistory.Sha1

/-- The five chaining words. -/
structure Chaining where
  a : UInt32
  b : UInt32
  c : UInt32
  d : UInt32
  e : UInt32
deriving DecidableEq

/-- The words that every digest starts from. -/
def Chaining.start : Chaining :=
  ⟨0x67452301, 0xEFCDAB89, 0x98BADCFE, 0x10325476, 0xC3D2E1F0⟩

def rotateLeft (x n : UInt32) : UInt32 := (x <<< n) ||| (x >>> (32 - n))

/-! ### Padding -/

/-- The last eight bytes of a padded message: its length in bits, most significant byte first. -/
def lengthBytes (bits : Nat) : List UInt8 :=
  [56, 48, 40, 32, 24, 16, 8, 0].map fun s => (bits >>> s).toUInt8

/-- A one bit, then zeros up to eight bytes short of a whole block, then the length. -/
def pad (message : List UInt8) : List UInt8 :=
  message ++ 0x80 :: (List.replicate ((119 - message.length % 64) % 64) 0
    ++ lengthBytes (8 * message.length))

/-- Four bytes make a word, most significant first; bytes that do not fill a word are left out. -/
def words : List UInt8 → List UInt32
  | w :: x :: y :: z :: rest =>
    ((w.toUInt32 <<< 24) ||| (x.toUInt32 <<< 16) ||| (y.toUInt32 <<< 8) ||| z.toUInt32) :: words rest
  | _ => []

/-! ### One block -/

/-- One more word in front of a schedule kept newest first: the exclusive or of the words 3, 8, 14 and 16 back,
    rotated by one. -/
def extend : List UInt32 → List UInt32
  | schedule@(_ :: _ :: w3 :: _ :: _ :: _ :: _ :: w8 :: _ :: _ :: _ :: _ :: _ :: w14 :: _ :: w16 :: _) =>
    rotateLeft (w3 ^^^ w8 ^^^ w14 ^^^ w16) 1 :: schedule
  | schedule => schedule

/-- The eighty words of a block of sixteen, oldest first. -/
def schedule (block : List UInt32) : List UInt32 :=
  (Nat.repeat extend 64 block.reverse).reverse

/-- The choice function and the constant of round `t`. -/
def roundParts (t : Nat) (b c d : UInt32) : UInt32 × UInt32 :=
  if t < 20 then ((b &&& c) ||| (~~~b &&& d), 0x5A827999)
  else if t < 40 then (b ^^^ c ^^^ d, 0x6ED9EBA1)
  else if t < 60 then ((b &&& c) ||| (b &&& d) ||| (c &&& d), 0x8F1BBCDC)
  else (b ^^^ c ^^^ d, 0xCA62C1D6)

/-- The rounds from `t` on, one for each word. -/
def rounds : Nat → Chaining → List UInt32 → Chaining
  | _, s, [] => s
  | t, s, w :: rest =>
    let (f, k) := roundParts t s.b s.c s.d
    rounds (t + 1) ⟨rotateLeft s.a 5 + f + s.e + k + w, s.a, rotateLeft s.b 30, s.c, s.d⟩ rest

/-- One block: its rounds, added to the words before it. -/
def compress (s : Chaining) (block : List UInt32) : Chaining :=
  let r := rounds 0 s (schedule block)
  ⟨s.a + r.a, s.b + r.b, s.c + r.c, s.d + r.d, s.e + r.e⟩

/-- The blocks of sixteen words, one after the other; `count` of them. -/
def absorb : Nat → Chaining → List UInt32 → Chaining
  | 0, s, _ => s
  | count + 1, s, ws => absorb count (compress s (ws.take 16)) (ws.drop 16)

/-- The digest of a byte string, its first byte the most significant. -/
def digest (message : List UInt8) : BitVec 160 :=
  let ws := words (pad message)
  let s := absorb (ws.length / 16) .start ws
  (s.a.toBitVec ++ s.b.toBitVec ++ s.c.toBitVec ++ s.d.toBitVec ++ s.e.toBitVec : BitVec 160)

end PrunedHistory.Sha1
