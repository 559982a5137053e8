import PrunedHistory.Text.Lines

/-! Writing TOML strings and keys

    A string is written in the first style that can hold it: basic, literal, multi-line basic, multi-line literal, all
    of them without escapes but for tabs, and else with escapes, over several lines if it has line breaks. -/

namespace PrunedHistory.Toml

/-- A control character, the line break and tab among them. -/
def isControl (c : Char) : Bool := c.toNat < 0x20 || c.toNat == 0x7F

/-! ### Escapes -/

/-- The two last hexadecimal digits, in upper case. -/
def hexPair (n : Nat) : List Char := [(Nat.digitChar (n / 16 % 16)).toUpper, (Nat.digitChar (n % 16)).toUpper]

/-- A character as a one-line basic string writes it. -/
def escaped (c : Char) : List Char :=
  match c with
  | '\x08' => ['\\', 'b']
  | '\t' => ['\\', 't']
  | '\n' => ['\\', 'n']
  | '\x0C' => ['\\', 'f']
  | '\r' => ['\\', 'r']
  | '"' => ['\\', '"']
  | '\\' => ['\\', '\\']
  | c => if isControl c then '\\' :: 'u' :: '0' :: '0' :: hexPair c.toNat else [c]

/-- The inside of a multi-line basic string after so many quotes in a row: line breaks stand as they are, and so do
    up to two quotes. -/
def escapedLines (quotes : Nat) : List Char → List Char
  | [] => []
  | c :: cs =>
    if c = '"' then
      if quotes < 2 then '"' :: escapedLines (quotes + 1) cs else '\\' :: '"' :: escapedLines 0 cs
    else if c = '\n' then '\n' :: escapedLines 0 cs
    else escaped c ++ escapedLines 0 cs

/-! ### Styles -/

/-- Basic strings have escapes, literal ones none, and only those of several lines hold line breaks. -/
inductive Style where
  | basic | literal | multiLineBasic | multiLineLiteral
deriving DecidableEq

/-- Whether three times the same mark stands in a row. -/
def hasTriple (mark : Char) : List Char → Bool
  | a :: b :: c :: rest => (a == mark && b == mark && c == mark) || hasTriple mark (b :: c :: rest)
  | _ => false

/-- The first style that can hold a text; a control character needs escapes, so one of the basic styles. -/
def Style.ofString (cs : List Char) : Style :=
  let hasBreak := cs.contains '\n'
  -- Other control characters can only be escaped, whatever else the text has.
  if cs.any fun c => isControl c && c != '\t' && c != '\n' then
    if hasBreak then .multiLineBasic else .basic
  else if !hasBreak && !cs.contains '\\' && !cs.contains '"' then .basic
  else if !hasBreak && !cs.contains '\'' then .literal
  else if !cs.contains '\\' && !hasTriple '"' cs then .multiLineBasic
  else if !hasTriple '\'' cs then .multiLineLiteral
  else if hasBreak then .multiLineBasic else .basic

/-- A quoted key is on one line and has no escapes but for tabs, if that is possible. -/
def Style.ofKey (cs : List Char) : Style :=
  if cs.any fun c => isControl c && c != '\t' then .basic
  else if !cs.contains '"' && !cs.contains '\\' then .basic
  else if !cs.contains '\'' then .literal
  else .basic

def tripled (mark : Char) : List Char := [mark, mark, mark]

/-- A text with line breaks starts on a line of its own. -/
def opening (cs : List Char) : List Char := if cs.contains '\n' then ['\n'] else []

/-- A text between the quotes of a style. -/
def quoted (style : Style) (cs : List Char) : List Char :=
  match style with
  | .basic => '"' :: cs.flatMap escaped ++ ['"']
  | .literal => '\'' :: cs ++ ['\'']
  | .multiLineBasic => tripled '"' ++ opening cs ++ escapedLines 0 cs ++ tripled '"'
  | .multiLineLiteral => tripled '\'' ++ opening cs ++ cs ++ tripled '\''

/-- A string in the style that suits it. -/
def stringText (cs : List Char) : List Char := quoted (.ofString cs) cs

/-- A character of a key that needs no quotes. -/
def isBare (c : Char) : Bool := c.isAlphanum || c == '_' || c == '-'

/-- A key, without quotes if it can do without. -/
def keyText (cs : List Char) : List Char :=
  if !cs.isEmpty && cs.all isBare then cs else quoted (.ofKey cs) cs

/-- One line that gives a key a string. -/
def stringLine (key value : List Char) : List Char :=
  keyText key ++ [' ', '=', ' '] ++ stringText value ++ ['\n']

end PrunedHistory.Toml
