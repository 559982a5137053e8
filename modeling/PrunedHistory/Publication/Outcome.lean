import PrunedHistory.NameMap
import PrunedHistory.Walk

/-! What is asked of a publication and what comes of it -/

namespace PrunedHistory

/-- A branch to publish. -/
structure Request where
  /-- Full ref name, such as `refs/heads/main`. -/
  name : String
  retention : Retention
  /-- Publish from this commit, and not from where the ref points. -/
  start : Option ObjectId := none
deriving DecidableEq

/-- Where a published branch was and is. -/
structure HeadChange where
  retention : Retention
  before : ObjectId
  after : ObjectId
deriving DecidableEq

/-- The branch is where it was. -/
def HeadChange.isUnchanged (h : HeadChange) : Bool := h.before == h.after

/-- Where a tag was and is; a tag whose commit was dropped is nowhere. -/
structure TagChange where
  /-- What the tag's name pointed at: a commit or a tag object. -/
  before : ObjectId
  after : Option ObjectId
  /-- The published commit that the tag leads to. -/
  commit : Option ObjectId
deriving DecidableEq

/-- The tag points at what it pointed at; a dropped tag does not. -/
def TagChange.isUnchanged (t : TagChange) : Bool := t.after == some t.before

/-- What a publication comes to: where heads and tags are afterwards, and the objects that are new. -/
structure Outcome where
  heads : NameMap HeadChange := ∅
  /-- The tags whose commit lies in the published history. -/
  tags : NameMap TagChange := ∅
  /-- New commits, parents first. -/
  commits : List Replacement := []
  /-- New tag objects, innermost first. -/
  tagObjects : List Tag := []
deriving DecidableEq

/-- Why nothing is published, or why there is nothing to ask about. -/
inductive PublicationError where
  | walk (e : WalkError)
  | read (e : ReadError)
  | ledger (e : LedgerError)
  | duplicateHead (name : String)
  | alreadyExecuted
  | notExecuted
  | unknownRef (name : String)
  | cancelled
deriving DecidableEq

/-- What went wrong, without the reason behind it. -/
def PublicationError.headline : PublicationError → String
  | walk e => e.headline
  | read e => e.headline
  | ledger e => e.message
  | duplicateHead name => "branch '" ++ name ++ "' was registered twice"
  | alreadyExecuted => "rewrite has already been executed"
  | notExecuted => "rewrite has not been executed yet"
  | unknownRef name => "'" ++ name ++ "' is not part of this rewrite"
  | cancelled => "rewrite was cancelled"

def PublicationError.reason? : PublicationError → Option ObjectError
  | walk e => e.reason?
  | read e => e.reason?
  | _ => none

def PublicationError.message (e : PublicationError) : String := withReason e.headline e.reason?

/-- Why work on a limited number of rounds has no result. -/
inductive Stop (ε : Type) where
  | failed (e : ε)
  /-- A loop has gone around as often as it may, and it would go on. -/
  | atLimit
deriving DecidableEq

/-- The same, with another account of failures. -/
def Stop.map {ε ε' : Type} (f : ε → ε') : Stop ε → Stop ε'
  | failed e => failed (f e)
  | atLimit => atLimit

/-- What a publication tells while it runs. -/
inductive Event where
  /-- A task of so many units starts. -/
  | started (task : String) (total : Nat)
  /-- So many units of the task are complete. -/
  | advanced (done : Nat)
deriving DecidableEq

end PrunedHistory
