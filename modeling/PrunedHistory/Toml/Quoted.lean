import PrunedHistory.Text.Hex
import PrunedHistory.Toml.Quoting
import PrunedHistory.Toml.Value

/-! Reading TOML strings and keys

    Every reader takes the text that is left and gives what it read and the text after it. -/

namespace PrunedHistory.Toml

/-- What is read at the start of a text, and the text after it. -/
abbrev Reader (α : Type) := List Char → Option (α × List Char)

/-! ### Blanks and line ends -/

/-- A blank does not end a line. -/
def isBlank (c : Char) : Bool := c == ' ' || c == '\t'

def skipBlanks (cs : List Char) : List Char := cs.dropWhile isBlank

/-- The text after a line break, which may be a carriage return and a line feed. -/
def newline? : List Char → Option (List Char)
  | '\n' :: rest => some rest
  | '\r' :: '\n' :: rest => some rest
  | _ => none

/-- A character that may stand in a comment or a literal string: no control character but the tab. -/
def isPlain (c : Char) : Bool := c == '\t' || !isControl c

/-- Blanks, an optional comment, and the end of the line or of the text. -/
def lineEnd? (cs : List Char) : Option (List Char) :=
  let after := match skipBlanks cs with
    | '#' :: rest => rest.dropWhile isPlain
    | rest => rest
  match after with
  | [] => some []
  | rest => newline? rest

/-- The text after blanks and line breaks. -/
def skipBlankLines : List Char → List Char
  | ' ' :: rest => skipBlankLines rest
  | '\t' :: rest => skipBlankLines rest
  | '\n' :: rest => skipBlankLines rest
  | '\r' :: '\n' :: rest => skipBlankLines rest
  | rest => rest

theorem length_skipBlankLines_le (cs : List Char) : (skipBlankLines cs).length ≤ cs.length := by
  fun_induction skipBlankLines cs <;> simp_all <;> omega

/-! ### Escapes -/

/-- The character that hexadecimal digits name by its code point. -/
def scalar? (digits : List Char) : Option Char :=
  (Hex.number? digits).bind fun n => if n.isValidChar then some (.ofNat n) else none

/-- The character that a one-letter escape stands for. -/
def unescaped? : Char → Option Char
  | 'b' => some '\x08'
  | 't' => some '\t'
  | 'n' => some '\n'
  | 'f' => some '\x0C'
  | 'r' => some '\r'
  | '"' => some '"'
  | '\\' => some '\\'
  | _ => none

/-- The character that an escape stands for, read after its backslash. -/
def escape? : Reader Char
  | 'u' :: a :: b :: c :: d :: rest => (scalar? [a, b, c, d]).map (·, rest)
  | 'U' :: a :: b :: c :: d :: e :: f :: g :: h :: rest => (scalar? [a, b, c, d, e, f, g, h]).map (·, rest)
  | c :: rest => (unescaped? c).map (·, rest)
  | [] => none

theorem length_lt_of_escape? {cs rest : List Char} {c : Char} (h : escape? cs = some (c, rest)) :
    rest.length < cs.length := by
  unfold escape? at h
  split at h <;> simp_all only [Option.map_eq_some_iff, Prod.mk.injEq, reduceCtorEq]
  all_goals
    obtain ⟨_, _, _, rfl⟩ := h
    simp
  all_goals omega

/-! ### Strings -/

/-- The inside and the end of a one-line basic string. -/
def basicBody (cs : List Char) : Option (List Char × List Char) :=
  match cs with
  | [] => none
  | '"' :: rest => some ([], rest)
  | '\\' :: rest =>
    match _h : escape? rest with
    | some (c, rest) => (basicBody rest).map fun (text, rest) => (c :: text, rest)
    | none => none
  | c :: rest =>
    if isPlain c then (basicBody rest).map fun (text, rest) => (c :: text, rest) else none
termination_by cs.length
decreasing_by
  · have := length_lt_of_escape? _h
    simp only [List.length_cons]
    omega
  · simp only [List.length_cons]
    omega

/-- The inside and the end of a multi-line basic string. A backslash at the end of a line joins the lines and drops
    the blanks between them; up to two quotes may stand before the three that end the string. -/
def multiLineBasicBody (cs : List Char) : Option (List Char × List Char) :=
  match cs with
  | [] => none
  | '"' :: '"' :: '"' :: '"' :: '"' :: rest => some (['"', '"'], rest)
  | '"' :: '"' :: '"' :: '"' :: rest => some (['"'], rest)
  | '"' :: '"' :: '"' :: rest => some ([], rest)
  | '\\' :: rest =>
    -- A backslash with nothing but blanks up to the break escapes all of the gap.
    if (newline? (skipBlanks rest)).isSome then multiLineBasicBody (skipBlankLines rest)
    else
      match _h : escape? rest with
      | some (c, rest) => (multiLineBasicBody rest).map fun (text, rest) => (c :: text, rest)
      | none => none
  | '\r' :: '\n' :: rest => (multiLineBasicBody rest).map fun (text, rest) => ('\n' :: text, rest)
  | c :: rest =>
    if c == '\n' || isPlain c then (multiLineBasicBody rest).map fun (text, rest) => (c :: text, rest) else none
termination_by cs.length
decreasing_by
  · have := length_skipBlankLines_le rest
    simp only [List.length_cons]
    omega
  · have := length_lt_of_escape? _h
    simp only [List.length_cons]
    omega
  · simp only [List.length_cons]
    omega
  · simp only [List.length_cons]
    omega

/-- The inside and the end of a one-line literal string. -/
def literalBody : List Char → Option (List Char × List Char)
  | [] => none
  | '\'' :: rest => some ([], rest)
  | c :: rest => if isPlain c then (literalBody rest).map fun (text, rest) => (c :: text, rest) else none

/-- The inside and the end of a multi-line literal string. -/
def multiLineLiteralBody : List Char → Option (List Char × List Char)
  | [] => none
  | '\'' :: '\'' :: '\'' :: '\'' :: '\'' :: rest => some (['\'', '\''], rest)
  | '\'' :: '\'' :: '\'' :: '\'' :: rest => some (['\''], rest)
  | '\'' :: '\'' :: '\'' :: rest => some ([], rest)
  | '\r' :: '\n' :: rest => (multiLineLiteralBody rest).map fun (text, rest) => ('\n' :: text, rest)
  | c :: rest =>
    if c == '\n' || isPlain c then (multiLineLiteralBody rest).map fun (text, rest) => (c :: text, rest) else none

/-- The text of a multi-line string less a line break right after the opening. -/
def skipOpening (cs : List Char) : List Char := (newline? cs).getD cs

/-- A string of any style. -/
def string? : Reader (List Char)
  | '"' :: '"' :: '"' :: rest => multiLineBasicBody (skipOpening rest)
  | '"' :: rest => basicBody rest
  | '\'' :: '\'' :: '\'' :: rest => multiLineLiteralBody (skipOpening rest)
  | '\'' :: rest => literalBody rest
  | _ => none

/-! ### Keys -/

/-- A key of one part, bare or quoted on one line. -/
def simpleKey? : Reader (List Char)
  | '"' :: rest => basicBody rest
  | '\'' :: rest => literalBody rest
  | cs =>
    match cs.takeWhile isBare with
    | [] => none
    | key => some (key, cs.dropWhile isBare)

/-- The parts of a key and the text after it, with at most `count` parts. -/
def keyParts? : Nat → Reader (List (List Char))
  | 0, _ => none
  | count + 1, cs => do
    let (key, rest) ← simpleKey? (skipBlanks cs)
    match skipBlanks rest with
    | '.' :: rest => (keyParts? count rest).map fun (keys, rest) => (key :: keys, rest)
    | rest => some ([key], rest)

/-- A key of not too many parts. -/
def key? : Reader (List (List Char)) := keyParts? depthLimit

end PrunedHistory.Toml
