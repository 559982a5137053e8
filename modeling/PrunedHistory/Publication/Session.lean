import PrunedHistory.Publication.Run

/-! Sessions

    Branches are registered, then published once; from then on only that outcome is there to ask about. -/

namespace PrunedHistory

/-- The commit that is published under a new id. -/
def Published.find (p : Published) (id : ObjectId) : Except PublicationError (Option Commit) :=
  match p.commits[id]? with
  | some commit => .ok (some commit)
  | none => .error (.ledger (.notProcessed id))

/-- The registered branches, and what was published, once that is done. -/
structure Session where
  /-- In the order of registration. -/
  requests : List Request := []
  published : Option Published := none

namespace Session

/-- Registers one more branch, under a name that is new. -/
def register (s : Session) (request : Request) : Except PublicationError Session :=
  if s.published.isSome then .error .alreadyExecuted
  else if s.requests.any (·.name == request.name) then .error (.duplicateHead request.name)
  else .ok { s with requests := s.requests ++ [request] }

/-- A session with all the given branches registered. -/
def ofRequests (requests : List Request) : Except PublicationError Session := requests.foldlM register {}

/-- Publishes the registered branches, unless this is done already. -/
def execute (s : Session) (cancelled : List Event → Bool) (limit : Nat) :
    Reading (Session × List Event × Except (Stop PublicationError) Outcome) :=
  if s.published.isSome then .done (s, [], .error (.failed .alreadyExecuted))
  else (Publication.run s.requests cancelled limit).bind fun (events, result) =>
    match result with
    | .error e => .done (s, events, .error e)
    | .ok published => .done ({ s with published := some published }, events, .ok published.outcome)

/-- The outcome there is to ask about. -/
def outcome (s : Session) : Except PublicationError Outcome :=
  match s.published with
  | some published => .ok published.outcome
  | none => .error .notExecuted

/-- Whether a branch, or else a tag, is where it was. -/
def isUnchanged (s : Session) (name : String) : Except PublicationError Bool := do
  let outcome ← s.outcome
  match outcome.heads.get? name, outcome.tags.get? name with
  | some head, _ => return head.isUnchanged
  | none, some tag => return tag.isUnchanged
  | none, none => throw (.unknownRef name)

/-- The published commit of a branch, or else of a tag; a dropped tag has none. -/
def publishedCommit (s : Session) (name : String) : Except PublicationError (Option Commit) := do
  let some published := s.published | throw .notExecuted
  match published.outcome.heads.get? name, published.outcome.tags.get? name with
  | some head, _ => published.find head.after
  | none, some tag =>
    match tag.commit with
    | some id => published.find id
    | none => return none
  | none, none => throw (.unknownRef name)

end Session

end PrunedHistory
