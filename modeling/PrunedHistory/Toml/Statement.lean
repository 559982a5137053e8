import PrunedHistory.Toml.Quoted
import PrunedHistory.Toml.Number
import PrunedHistory.Toml.DateTime
import PrunedHistory.Toml.Nesting

/-! Reading TOML statements

    A document is a list of statements, each on lines of its own: a key with its value, or the head of a table or of an
    element of an array of tables. -/

namespace PrunedHistory.Toml

/-! ### Values of one word -/

/-- A character of a word: a number, a date, a time, or `true`, `false`, `inf` or `nan`. -/
def isWordChar (c : Char) : Bool := c.isAlphanum || c == '+' || c == '-' || c == '_' || c == '.' || c == ':'

/-- What a word means: a date or time before a number, since both start with digits. -/
def wordValue? (word : List Char) : Option Value :=
  if word = ['t', 'r', 'u', 'e'] then some (.boolean true)
  else if word = ['f', 'a', 'l', 's', 'e'] then some (.boolean false)
  else if isDateTime word then some (.dateTime word)
  else if isFloat word then some (.float word)
  else (integer? word).map .integer

/-- A value of one word. A date may be followed by a space and a time. -/
def word? : Reader Value := fun cs =>
  let word := cs.takeWhile isWordChar
  let rest := cs.dropWhile isWordChar
  match isDate word, rest with
  | true, ' ' :: after =>
    match after.takeWhile isWordChar with
    | [] => some (.dateTime word, rest)
    -- A space after a date belongs to the value only if a word follows it.
    | time =>
      if isZonedTime time then some (.dateTime (word ++ ' ' :: time), after.dropWhile isWordChar) else none
  | _, _ => (wordValue? word).map (·, rest)

/-- A value without parts: a string or a word. -/
def atom? : Reader Value := fun cs =>
  match cs with
  | '"' :: _ | '\'' :: _ => (string? cs).map fun (text, rest) => (.string text, rest)
  | _ => word? cs

/-! ### Arrays and inline tables -/

/-- The text after blanks, line breaks and comments. -/
def skipGaps (inComment : Bool) : List Char → List Char
  | [] => []
  | '\n' :: rest => skipGaps false rest
  | '\r' :: '\n' :: rest => skipGaps false rest
  | c :: rest =>
    if inComment then if isPlain c then skipGaps true rest else c :: rest
    else if isBlank c then skipGaps false rest
    else if c = '#' then skipGaps true rest
    else c :: rest

/-- The elements of an array and the text after its closing bracket. -/
def elements? (item? : Reader Value) : Nat → Reader (List Value)
  | 0, _ => none
  | count + 1, cs =>
    match skipGaps false cs with
    | ']' :: rest => some ([], rest)
    | cs => do
      let (item, rest) ← item? cs
      match skipGaps false rest with
      | ',' :: rest => (elements? item? count rest).map fun (items, rest) => (item :: items, rest)
      | ']' :: rest => some ([item], rest)
      | _ => none

/-- A key, an equals sign and a value. -/
def pair? (item? : Reader Value) : Reader (List (List Char) × Value) := fun cs => do
  let (key, rest) ← key? cs
  match rest with
  | '=' :: rest =>
    let (item, rest) ← item? (skipBlanks rest)
    some ((key, item), rest)
  | _ => none

/-- The pairs of a non-empty inline table and the text after its closing brace. -/
def pairs? (item? : Reader Value) : Nat → Reader (List (List (List Char) × Value))
  | 0, _ => none
  | count + 1, cs => do
    let (pair, rest) ← pair? item? cs
    match skipBlanks rest with
    | ',' :: rest => (pairs? item? count rest).map fun (pairs, rest) => (pair :: pairs, rest)
    | '\x7D' :: rest => some ([pair], rest)
    | _ => none

/-- The text between braces; a table that has no entries is read here. -/
def inlineTable? (item? : Reader Value) : Reader Value := fun cs =>
  match skipBlanks cs with
  | '\x7D' :: rest => some (.table [], rest)
  | _ => do
    -- A pair takes up characters, so there are no more pairs than characters.
    let (pairs, rest) ← pairs? item? (cs.length + 1) cs
    some (.table (← tableOfPairs? pairs), rest)

/-- A value in which arrays and inline tables are nested up to so many levels. -/
def value? : Nat → Reader Value
  | 0, cs => atom? cs
  | depth + 1, '[' :: rest =>
    (elements? (value? depth) (rest.length + 1) rest).map fun (items, rest) => (.array items, rest)
  | depth + 1, '\x7B' :: rest => inlineTable? (value? depth) rest
  | _ + 1, cs => atom? cs

/-! ### Statements -/

/-- What follows the head of a table on its line. -/
def afterHead? (closing : List Char) (cs : List Char) : Option (List Char) :=
  if closing.isPrefixOf cs then lineEnd? (cs.drop closing.length) else none

/-- One line with a statement, or with none, at the first character that is not blank. -/
def line? : Reader (Option Statement) := fun cs =>
  match cs with
  | '#' :: _ => (lineEnd? cs).map (none, ·)
  | '\n' :: _ | '\r' :: _ => (newline? cs).map (none, ·)
  | '[' :: '[' :: rest => do
    let (key, rest) ← key? rest
    return (some (.element key), ← afterHead? [']', ']'] rest)
  | '[' :: rest => do
    let (key, rest) ← key? rest
    return (some (.table key), ← afterHead? [']'] rest)
  | cs => do
    let ((key, value), rest) ← pair? (value? depthLimit) cs
    return (some (.assign key value), ← lineEnd? rest)

/-- The statements of a text of at most so many lines. -/
def statements? : Nat → List Char → Option (List Statement)
  | 0, _ => none
  | count + 1, cs =>
    match skipBlanks cs with
    | [] => some []
    | cs => do
      let (statement, rest) ← line? cs
      return statement.toList ++ (← statements? count rest)

/-- The top-level table of a TOML document. A byte order mark may come first. -/
def parse? (text : String) : Option Table := do
  let cs := match text.toList with
    | '\uFEFF' :: cs => cs
    | cs => cs
  tableOfStatements? (← statements? (cs.length + 1) cs)

end PrunedHistory.Toml
