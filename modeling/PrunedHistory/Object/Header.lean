import PrunedHistory.Text.Lines
import PrunedHistory.Object.Error

/-! Headers of stored objects

    A body is a list of headers, an empty line and a message. A header is its key, a space, its value and a line
    break; inside the value every line break is followed by a space, which marks the next line as going on with it. -/

namespace PrunedHistory

/-- A key with its value, which may go over several lines. -/
structure Header where
  key : String
  value : String
deriving DecidableEq

namespace Header

/-- Every line break is followed by a space. -/
def fold : List Char → List Char
  | [] => []
  | c :: cs => if c = '\n' then '\n' :: ' ' :: fold cs else c :: fold cs

/-- The header with its line break. The value is folded, so that its next lines are not taken for headers. -/
def chars (h : Header) : List Char := h.key.toList ++ ' ' :: fold h.value.toList ++ ['\n']

/-- A body from its headers and its message. -/
def bodyChars (headers : List Header) (message : String) : List Char :=
  headers.flatMap chars ++ '\n' :: message.toList

/-! ### Reading -/

/-- Reads one more line; the headers read so far come newest first. -/
def readLine (read : List Header) : List Char → Except Flaw (List Header)
  | ' ' :: more =>
    match read with
    | [] => .error .strayContinuation
    | h :: before => .ok ({ h with value := .ofList (h.value.toList ++ '\n' :: more) } :: before)
  | line =>
    match Text.cut? ' ' line with
    | none => .error .headerWithoutValue
    | some (key, value) => .ok (⟨.ofList key, .ofList value⟩ :: read)

/-- The headers that lines write, in their order. -/
def ofLines (lines : List (List Char)) : Except Flaw (List Header) :=
  (lines.foldlM readLine []).map List.reverse

/-- The header lines and the message of a body: they part at the first empty line, or else the body is non-empty
    header lines with a final break, and the message is empty. -/
def splitBody? (cs : List Char) : Option (List Char × List Char) :=
  match Text.cutAtEmptyLine? cs with
  | some parts => some parts
  | none =>
    match Text.dropFinal? '\n' cs with
    | none | some [] => none
    | some headers => some (headers, [])

/-- The headers and the message of a body. -/
def ofBody (body : ByteArray) : Except Flaw (List Header × String) := do
  let some text := String.fromUTF8? body | throw .notUtf8
  let some (headers, message) := splitBody? text.toList | throw .unterminatedHeaders
  return (← ofLines (Text.splitAt '\n' headers), .ofList message)

/-- The value of the first header, which has to have the given key, and the headers after it. -/
def take (kind : ObjectKind) (key : String) : List Header → Except ObjectError (String × List Header)
  | h :: rest => if h.key = key then .ok (h.value, rest) else .error (.malformed kind (.missingHeader key))
  | [] => .error (.malformed kind (.missingHeader key))

end Header

end PrunedHistory
