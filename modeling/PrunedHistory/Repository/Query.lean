import PrunedHistory.Dialogue
import PrunedHistory.Object.Commit
import PrunedHistory.Object.Tag

/-! Reading a repository

    The five questions that a history is read by, and the reasons why an answer can fail. A repository that answers
    each question always alike is a `Repository`; work that reads one is a dialogue over `Query`. -/

namespace PrunedHistory

/-- Why a repository could not be read or written. -/
inductive ReadError where
  | missingObject (id : ObjectId)
  | wrongKind (id : ObjectId) (expected found : ObjectKind)
  | unknownRef (name : String)
  | undecodable (id : ObjectId) (reason : ObjectError)
  /-- A command could not be started. -/
  | notStarted (text : String)
  | notARepository (start : String)
  /-- A command failed or answered out of order. -/
  | failed (text : String)
deriving DecidableEq

namespace ReadError

/-- What happened, without the reason behind it. -/
def headline : ReadError → String
  | missingObject id => "object " ++ id.text ++ " is missing"
  | wrongKind id expected found =>
    "object " ++ id.text ++ " is a " ++ found.name ++ ", expected a " ++ expected.name
  | unknownRef name => "unknown ref '" ++ name ++ "'"
  | undecodable id _ => "failed to decode object " ++ id.text
  | notStarted text => "failed to execute: " ++ text
  | notARepository start => "not a git repository (searched from '" ++ start ++ "')"
  | failed text => text

/-- The reason behind it, if there is one. -/
def reason? : ReadError → Option ObjectError
  | undecodable _ reason => some reason
  | _ => none

end ReadError

/-- A headline with the reason behind it. -/
def withReason (headline : String) : Option ObjectError → String
  | some reason => headline ++ ": " ++ reason.message
  | none => headline

def ReadError.message (e : ReadError) : String := withReason e.headline e.reason?

/-- The questions. -/
inductive Query where
  | commit (id : ObjectId)
  | tag (id : ObjectId)
  /-- Whether a tree is present. -/
  | hasTree (id : ObjectId)
  /-- The id a ref points at. -/
  | resolve (name : String)
  /-- Every tag there is. -/
  | tags

/-- What a question is answered with, if the answer does not fail. -/
abbrev Query.Value : Query → Type
  | commit _ => Commit
  | tag _ => Tag
  | hasTree _ => Bool
  | resolve _ => ObjectId
  | tags => List TagRef

/-- What a question is answered with. -/
abbrev Query.Answer (q : Query) : Type := Except ReadError q.Value

/-- Work that reads a repository. -/
abbrev Reading (α : Type) := Dialogue Query Query.Answer α

/-- A repository that always answers alike. -/
structure Repository where
  commit : ObjectId → Except ReadError Commit
  tag : ObjectId → Except ReadError Tag
  hasTree : ObjectId → Except ReadError Bool
  resolve : String → Except ReadError ObjectId
  tags : Except ReadError (List TagRef)

/-- The answer is a function of the question alone. -/
def Repository.answer (r : Repository) : (q : Query) → q.Answer
  | .commit id => r.commit id
  | .tag id => r.tag id
  | .hasTree id => r.hasTree id
  | .resolve name => r.resolve name
  | .tags => r.tags

/-- The result of work that reads this repository. -/
def Repository.run (r : Repository) (work : Reading α) : α := work.run r.answer

@[simp] theorem Repository.run_done {α : Type} (r : Repository) (a : α) : r.run (.done a) = a := rfl

@[simp] theorem Repository.run_bind {α β : Type} (r : Repository) (work : Reading α) (next : α → Reading β) :
    r.run (work.bind next) = r.run (next (r.run work)) := Dialogue.run_bind ..

theorem Repository.run_question (r : Repository) (q : Query) : r.run (Dialogue.question q) = r.answer q := rfl

end PrunedHistory
