import Std.Data.TreeSet.Lemmas
import PrunedHistory.Object.Untaken
import PrunedHistory.Repository.Query
import PrunedHistory.Ledger
import PrunedHistory.Retention

/-! The walk of a history

    Settles a head and its ancestors, parents before children: each commit not yet in the ledger is read, its parents
    are settled, and then it is kept or dropped. The path from the head to the commit at work is an explicit stack, so
    its length is not limited by any call stack. A walk that fails leaves the decisions made so far in the ledger. -/

namespace PrunedHistory

/-- Why a walk fails. -/
inductive WalkError where
  | read (e : ReadError)
  | ledger (e : LedgerError)
  /-- A commit is its own ancestor. -/
  | cycle (id : ObjectId)
deriving DecidableEq

/-- What went wrong, without the reason behind it. -/
def WalkError.headline : WalkError → String
  | read e => e.headline
  | ledger e => e.message
  | cycle id => "commit graph contains a cycle through " ++ id.text

/-- Only what is read can fail for a reason behind it. -/
def WalkError.reason? : WalkError → Option ObjectError
  | read e => e.reason?
  | _ => none

def WalkError.message (e : WalkError) : String := withReason e.headline e.reason?

namespace Walk

/-- A commit on the way from the head, with those of its parents that the walk has not come to. -/
structure Frame where
  id : ObjectId
  commit : Commit
  pending : List ObjectId

/-- Reads a commit whose tree has to be present. -/
def load (id : ObjectId) : Reading (Except WalkError Commit) := do
  match ← Dialogue.question (Query.commit id) with
  | .error e => return .error (.read e)
  | .ok commit =>
    match ← Dialogue.question (Query.hasTree commit.tree) with
    | .error e => return .error (.read e)
    | .ok false => return .error (.read (.missingObject commit.tree))
    | .ok true => return .ok commit

/-- What stands for a list of settled parents: their substitutes side by side, each id at its first place only. -/
def newParents (ledger : Ledger) (parents : List ObjectId) : Except LedgerError (List ObjectId) :=
  return (← parents.mapM ledger.substitutes).flatten.eraseDups

/-- Keeps a commit on its new parents, or lets them stand for it. -/
def judge (select : Selection) (id : ObjectId) (commit : Commit) (parents : List ObjectId) : Decision :=
  if select id commit parents then
    let commit := { commit with parents }
    .keep ⟨commit.id, commit⟩
  else .drop parents

/-- Records the decision on a commit whose parents are settled. -/
def settle (select : Selection) (ledger : Ledger) (id : ObjectId) (commit : Commit) : Except LedgerError Ledger := do
  ledger.record id (judge select id commit (← newParents ledger commit.parents))

theorem contains_settle {select : Selection} {ledger ledger' : Ledger} {id : ObjectId} {commit : Commit}
    (h : settle select ledger id commit = .ok ledger') (other : ObjectId) :
    ledger'.contains other = (id == other || ledger.contains other) := by
  unfold settle at h
  cases hp : newParents ledger commit.parents with
  | error e => rw [hp] at h; cases h
  | ok parents => rw [hp] at h; exact Ledger.contains_record h other

/-- Whether a commit is recorded or on the path. -/
def met (ledger : Ledger) (path : Std.TreeSet ObjectId) (id : ObjectId) : Bool :=
  ledger.contains id || path.contains id

theorem met_insert {ledger : Ledger} {path : Std.TreeSet ObjectId} {other : ObjectId} (id : ObjectId)
    (h : met ledger path other) : met ledger (path.insert id) other := by
  simp only [met, Std.TreeSet.contains_insert, Bool.or_eq_true] at h ⊢
  rcases h with h | h <;> simp [h]

theorem untaken_met_insert {ledger : Ledger} {path : Std.TreeSet ObjectId} {id : ObjectId}
    (hl : ledger.contains id = false) (hp : path.contains id = false) :
    ObjectId.untaken (met ledger (path.insert id)) < ObjectId.untaken (met ledger path) :=
  ObjectId.untaken_lt (fun _ h => met_insert id h) id (by simp [met, hl, hp]) (by simp [met])

/-- What was met stays met when a commit goes from the path into the ledger. -/
theorem met_settle {select : Selection} {ledger ledger' : Ledger} {id other : ObjectId} {commit : Commit}
    (h : settle select ledger id commit = .ok ledger') (path : Std.TreeSet ObjectId) (ho : met ledger path other) :
    met ledger' (path.erase id) other := by
  simp only [met, contains_settle h, Std.TreeSet.contains_erase, Bool.or_eq_true] at ho ⊢
  by_cases he : id = other <;> simp_all

theorem untaken_met_settle {select : Selection} {ledger ledger' : Ledger} {id : ObjectId} {commit : Commit}
    (h : settle select ledger id commit = .ok ledger') (path : Std.TreeSet ObjectId) :
    ObjectId.untaken (met ledger' (path.erase id)) ≤ ObjectId.untaken (met ledger path) :=
  ObjectId.untaken_le fun _ ho => met_settle h path ho

/-- Goes on with the frame on top: to its next parent, which is passed over if it is recorded and else put on the
    stack, or, if none is left, to the decision on its commit. -/
def loop (select : Selection) (ledger : Ledger) (path : Std.TreeSet ObjectId) :
    List Frame → Reading (Ledger × Except WalkError Unit)
  | [] => .done (ledger, .ok ())
  | ⟨id, commit, []⟩ :: rest =>
    match _h : settle select ledger id commit with
    | .error e => .done (ledger, .error (.ledger e))
    | .ok ledger' => loop select ledger' (path.erase id) rest
  | ⟨id, commit, parent :: pending⟩ :: rest =>
    if ledger.contains parent then loop select ledger path (⟨id, commit, pending⟩ :: rest)
    -- A commit on the path has not been decided and is met again below itself.
    else if path.contains parent then .done (ledger, .error (.cycle parent))
    else (load parent).bind fun
      | .error e => .done (ledger, .error e)
      | .ok found =>
        loop select ledger (path.insert parent) (⟨parent, found, found.parents⟩ :: ⟨id, commit, pending⟩ :: rest)
-- A commit that is put on the stack is met for the first time, and there are only so many ids. Without a new one the
-- turns shorten the stack or what is pending on it.
termination_by stack =>
  (ObjectId.untaken (met ledger path), (stack.flatMap (·.pending)).length + stack.length)
decreasing_by
  · have := untaken_met_settle _h path
    rcases Nat.lt_or_eq_of_le this with hlt | heq
    · exact .left _ _ hlt
    · rw [heq]; exact .right _ (by simp)
  · exact .right _ (by simp)
  · rename_i hl hp
    exact .left _ _ (untaken_met_insert (eq_false_of_ne_true hl) (eq_false_of_ne_true hp))

/-- Settles a head and its ancestors, and gives what stands for the head. Commits already in the ledger are not
    visited again. -/
def run (select : Selection) (ledger : Ledger) (head : ObjectId) :
    Reading (Ledger × Except WalkError (List ObjectId)) := do
  let (ledger, walked) ←
    if ledger.contains head then pure (ledger, .ok ())
    else (load head).bind fun
      | .error e => .done (ledger, .error e)
      | .ok commit => loop select ledger {head} [⟨head, commit, commit.parents⟩]
  match walked with
  | .error e => return (ledger, .error e)
  | .ok () => return (ledger, (ledger.substitutes head).mapError .ledger)

end Walk

end PrunedHistory
