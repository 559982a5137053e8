import PrunedHistory.Git.Checkout
import PrunedHistory.Publication.Outcome

/-! Writing an outcome into a repository

    First all new commits, then all new tag objects, and only when git has stored each of them under its id, the refs:
    heads, then retained tags, in name order. The first call that fails ends it. -/

namespace PrunedHistory.Git.Checkout

/-- One thing to write. -/
inductive Step where
  | commit (new : Replacement)
  | tag (new : Tag)
  | ref (name : String) (id : ObjectId)
deriving DecidableEq

/-- The name that a ref is published under: in the namespace, without a leading `refs/`. -/
def publishedName (space name : String) : String :=
  space ++ if Text.startsWith "refs/" name then .ofList (name.toList.drop 5) else name

/-- All there is to write, in order. -/
def publishSteps (outcome : Outcome) (space : String) : List Step :=
  outcome.commits.map .commit
    ++ outcome.tagObjects.map .tag
    ++ outcome.heads.entries.map (fun (name, head) => .ref (publishedName space name) head.after)
    ++ outcome.tags.entries.filterMap fun (name, tag) =>
        tag.after.map fun id => .ref (publishedName space name) id

/-- An object has to be stored under the id it has. -/
def checkStored (expected : ObjectId) : Except ReadError ObjectId → Except ReadError Unit
  | .error e => .error e
  | .ok stored =>
    if expected = stored then .ok ()
    else .error (.failed ("git stored object " ++ stored.text ++ ", expected " ++ expected.text))

def publishStep (c : Checkout) : Step → Calling (Except ReadError Unit)
  | .commit new => (c.writeCommit new.commit).bind fun stored => .done (checkStored new.id stored)
  | .tag new => (c.writeTag new).bind fun stored => .done (checkStored new.id stored)
  | .ref name id => c.updateRef name id

/-- Takes the steps one after the other up to the first that fails. -/
def takeSteps (c : Checkout) : List Step → Calling (Except ReadError Unit)
  | [] => .done (.ok ())
  | step :: rest => (c.publishStep step).bind fun
    | .error e => .done (.error e)
    | .ok () => c.takeSteps rest

/-- Writes an outcome into the repository, under refs of a namespace. -/
def publish (c : Checkout) (outcome : Outcome) (space : String) : Calling (Except ReadError Unit) :=
  c.takeSteps (publishSteps outcome space)

end PrunedHistory.Git.Checkout
