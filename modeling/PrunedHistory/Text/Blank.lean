/-! Blank characters

    The characters with the Unicode property White_Space, and texts without the blanks around them. -/

namespace PrunedHistory.Text

/-- The ranges of White_Space, most of them outside ASCII. -/
def isBlank (c : Char) : Bool :=
  let n := c.toNat
  (9 ≤ n && n ≤ 13) || n == 0x20 || n == 0x85 || n == 0xA0 || n == 0x1680 || (0x2000 ≤ n && n ≤ 0x200A)
    || n == 0x2028 || n == 0x2029 || n == 0x202F || n == 0x205F || n == 0x3000

/-- The list without what satisfies the test at its start and at its end. -/
def trimBy {α : Type} (drop : α → Bool) (l : List α) : List α :=
  ((l.dropWhile drop).reverse.dropWhile drop).reverse

def trim (s : String) : String := .ofList (trimBy isBlank s.toList)

/-- A space, tab, line feed, form feed or carriage return. -/
def isBlankByte (b : UInt8) : Bool := b == 32 || b == 9 || b == 10 || b == 12 || b == 13

end PrunedHistory.Text
