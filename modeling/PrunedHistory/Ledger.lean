import Std.Data.TreeMap.Lemmas
import PrunedHistory.Object.Commit

/-! The ledger of decisions

    What became of each commit: kept, with the commit that replaces it, or dropped, with the ids that stand in for it.
    The entries are kept in the order of recording, beside an index from commits to their places. A commit is decided
    once; a second decision is refused. -/

namespace PrunedHistory

/-- A commit of the published history, with its id. -/
structure Replacement where
  id : ObjectId
  commit : Commit
deriving DecidableEq

/-- What became of a commit. -/
inductive Decision where
  | keep (replacement : Replacement)
  /-- Descendants use these ids instead. -/
  | drop (substitutes : List ObjectId)
deriving DecidableEq

namespace Decision

/-- What stands wherever the commit was a parent. -/
def substitutes : Decision → List ObjectId
  | keep replacement => [replacement.id]
  | drop substitutes => substitutes

/-- The commit that is published in its place; a dropped one has none. -/
def replacement? : Decision → Option Replacement
  | keep replacement => some replacement
  | drop _ => none

end Decision

/-- Why a ledger refuses a question or a decision. -/
inductive LedgerError where
  | notProcessed (id : ObjectId)
  | alreadyRecorded (id : ObjectId)
  | notKept (id : ObjectId)
deriving DecidableEq

def LedgerError.message : LedgerError → String
  | notProcessed id => "commit " ++ id.text ++ " has not been processed"
  | alreadyRecorded id => "commit " ++ id.text ++ " was already recorded"
  | notKept id => "commit " ++ id.text ++ " was not kept"

/-- A commit with the decision on it. -/
structure Ledger.Entry where
  commit : ObjectId
  decision : Decision
deriving DecidableEq

/-- The decisions so far, and where to find that on a commit. -/
structure Ledger where
  /-- In the order of recording. -/
  entries : Array Ledger.Entry := #[]
  /-- The place of each recorded commit among the entries. -/
  slots : Std.TreeMap ObjectId Nat := ∅

namespace Ledger

def empty : Ledger := {}

/-- Whether a commit is decided. -/
def contains (l : Ledger) (id : ObjectId) : Bool := l.slots.contains id

def size (l : Ledger) : Nat := l.entries.size

/-- The decision on a commit, if there is one. -/
def find? (l : Ledger) (id : ObjectId) : Option Decision :=
  (l.slots[id]?.bind fun slot => l.entries[slot]?).map (·.decision)

/-- The decision on a commit that has to be decided. -/
def decision (l : Ledger) (id : ObjectId) : Except LedgerError Decision :=
  match l.find? id with
  | some d => .ok d
  | none => .error (.notProcessed id)

/-- Whether a commit was kept, if it is decided. -/
def wasKept? (l : Ledger) (id : ObjectId) : Option Bool := (l.find? id).map (·.replacement?.isSome)

/-- Whether a commit was kept, which has to be decided. -/
def isKept (l : Ledger) (id : ObjectId) : Except LedgerError Bool :=
  return (← l.decision id).replacement?.isSome

/-- What stands wherever the commit was a parent. -/
def substitutes (l : Ledger) (id : ObjectId) : Except LedgerError (List ObjectId) :=
  return (← l.decision id).substitutes

/-- The commit that replaces a kept one. -/
def replacement (l : Ledger) (id : ObjectId) : Except LedgerError Replacement := do
  match (← l.decision id).replacement? with
  | some r => .ok r
  | none => .error (.notKept id)

/-- Records the decision on a commit that has none yet. -/
def record (l : Ledger) (id : ObjectId) (d : Decision) : Except LedgerError Ledger :=
  if l.contains id then .error (.alreadyRecorded id)
  else .ok { entries := l.entries.push ⟨id, d⟩, slots := l.slots.insert id l.entries.size }

/-- The kept commits with what replaces them, in the order of recording. -/
def kept (l : Ledger) : List (ObjectId × Replacement) :=
  l.entries.toList.filterMap fun e => e.decision.replacement?.map (e.commit, ·)

theorem contains_record {l l' : Ledger} {id : ObjectId} {d : Decision} (h : l.record id d = .ok l') (other : ObjectId) :
    l'.contains other = (id == other || l.contains other) := by
  unfold record at h
  split at h
  · cases h
  · cases h
    simp only [contains, Std.TreeMap.contains_insert]
    congr 1
    rw [Bool.eq_iff_iff]
    simp

end Ledger

end PrunedHistory
