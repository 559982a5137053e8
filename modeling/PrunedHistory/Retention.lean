import PrunedHistory.Object.Commit

/-! Retention

    How much of a branch's history is published. Requested heads are kept whatever the retention. -/

namespace PrunedHistory

/-- The policies there are. -/
inductive Retention where
  /-- Every commit. -/
  | full
  /-- The head and every tagged commit. -/
  | abbreviated
  /-- The head alone, on top of what earlier branches publish. -/
  | latest
deriving DecidableEq, Inhabited

namespace Retention

/-- The word that plans and reports use. -/
def name : Retention → String
  | full => "full"
  | abbreviated => "abbreviated"
  | latest => "latest"

/-- The retention a word names; one has a short form. -/
def ofName? : String → Option Retention
  | "full" => some full
  | "abbreviated" | "abbrev" => some abbreviated
  | "latest" => some latest
  | _ => none

end Retention

/-- Chooses the commits that are kept, from the id, the commit and the ids that will be its parents. -/
abbrev Selection := ObjectId → Commit → List ObjectId → Bool

/-- Keeps the requested heads and what the retention asks for. -/
def Retention.selection (r : Retention) (isHead isTagged : ObjectId → Bool) : Selection := fun id _ _ =>
  isHead id || match r with
    | full => true
    | abbreviated => isTagged id
    | latest => false

end PrunedHistory
