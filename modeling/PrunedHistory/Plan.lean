import PrunedHistory.Publication.Session
import PrunedHistory.Toml.Statement

/-! Plans

    A plan is a TOML text that lists the branches to publish, in order: tables `[[ref]]` with a name, a policy and an
    optional start. -/

namespace PrunedHistory

/-- What to publish: one request for each branch, in the order of the plan. -/
structure Plan where
  requests : List Request := []
deriving DecidableEq

namespace Plan

/-- Every branch with its full history. -/
def ofBranches (names : List String) : Plan := ⟨names.map fun name => { name, retention := .full }⟩

/-- A session with every entry of the plan registered. -/
def session (p : Plan) : Except PublicationError Session := Session.ofRequests p.requests

/-! ### Writing -/

/-- The table of one branch; a start is written only if there is one. -/
def requestText (r : Request) : List Char :=
  "[[ref]]\n".toList
    ++ Toml.stringLine "name".toList r.name.toList
    ++ Toml.stringLine "policy".toList r.retention.name.toList
    ++ r.start.toList.flatMap fun id => Toml.stringLine "start".toList id.chars

/-- The entries in order, with an empty line between them. -/
def text (p : Plan) : String :=
  .ofList <| match p.requests with
    | [] => "ref = []\n".toList
    | requests => ['\n'].intercalate (requests.map requestText)

/-! ### Reading -/

open Toml (Value)

/-- A name has to be a string. -/
def string? : Value → Option (List Char)
  | .string text => some text
  | _ => none

/-- A policy is its name, or a table of one entry that has the name as its key and is empty. -/
def retention? : Value → Option Retention
  | .string text => Retention.ofName? (.ofList text)
  | .table [(key, .array [])] | .table [(key, .table [])] => Retention.ofName? (.ofList key)
  | _ => none

/-- A start is a string of forty hexadecimal digits. -/
def start? (v : Value) : Option ObjectId := (string? v).bind ObjectId.ofChars?

/-- A start that may be left out. -/
def optionalStart? : Option Value → Option (Option ObjectId)
  | none => some none
  | some v => (start? v).map some

/-- An entry is a table, in which other keys are passed over, or an array of a name, a policy and perhaps a start. -/
def request? : Value → Option Request
  | .table entries => do
    let name ← string? (← entries.lookup "name".toList)
    let retention ← retention? (← entries.lookup "policy".toList)
    let start ← optionalStart? (entries.lookup "start".toList)
    return { name := .ofList name, retention, start }
  | .array (name :: retention :: rest) => do
    let name ← string? name
    let retention ← retention? retention
    let start ← optionalStart? rest.head?
    return { name := .ofList name, retention, start }
  | _ => none

/-- The entries under `ref`, which may be left out; other keys are passed over. -/
def ofTable? (table : Toml.Table) : Option Plan :=
  match table.lookup "ref".toList with
  | none => some {}
  | some (.array items) => (items.mapM request?).map Plan.mk
  | some _ => none

/-- The plan that a text writes; nothing if it is no TOML or no plan. -/
def parse? (text : String) : Option Plan := (Toml.parse? text).bind ofTable?

end Plan

end PrunedHistory
