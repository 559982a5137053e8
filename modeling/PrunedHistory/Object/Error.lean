import PrunedHistory.Object.Kind

/-! What can be wrong with the text of an object, an id, a kind or a signature -/

namespace PrunedHistory

/-- What is wrong with the layout of an object's body. -/
inductive Flaw where
  | notUtf8
  | unterminatedHeaders
  | strayContinuation
  | headerWithoutValue
  | missingHeader (key : String)
  | headersOutOfOrder
deriving DecidableEq

def Flaw.message : Flaw → String
  | notUtf8 => "not valid UTF-8"
  | unterminatedHeaders => "missing header terminator"
  | strayContinuation => "continuation line without header"
  | headerWithoutValue => "header without value"
  | missingHeader key => "missing " ++ key ++ " header"
  | headersOutOfOrder => "headers out of order"

/-- Why a text is no object, id, kind or signature. -/
inductive ObjectError where
  | invalidId (text : String)
  | unknownKind (text : String)
  | signature (text : String)
  | malformed (kind : ObjectKind) (flaw : Flaw)
deriving DecidableEq

def ObjectError.message : ObjectError → String
  | invalidId text => "invalid object id '" ++ text ++ "'"
  | unknownKind text => "unknown object kind '" ++ text ++ "'"
  | signature text => "malformed signature '" ++ text ++ "'"
  | malformed kind flaw => "malformed " ++ kind.name ++ " object: " ++ flaw.message

/-- The kind a word names. -/
def ObjectKind.parse (word : String) : Except ObjectError ObjectKind :=
  match ofName? word with
  | some kind => .ok kind
  | none => .error (.unknownKind word)

end PrunedHistory
