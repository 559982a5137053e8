import Mathlib.Data.List.Induction
import Mathlib.Data.List.Nodup
import PrunedHistory.Proofs.Ledger.Recording
import PrunedHistory.Proofs.FirstOccurrences
import PrunedHistory.Proofs.Repository.Ancestry

/-! Which decisions stand

    Calls may decide on one commit more than once; every decision on it but the first is refused and changes nothing.
    So a ledger stands for a map that is written once, from commits to the first decisions on them. Main statement: the
    slots count the commits in the order of their first calls, every question is answered from the first decision, and
    no later call changes an answer about a commit that is decided. -/

namespace PrunedHistory.Ledger

open FirstOccurrences

/-- The ledger after one more call to record; if that is refused, the ledger as it was. -/
def attempt (l : Ledger) (call : ObjectId × Decision) : Ledger := (l.record call.1 call.2).toOption.getD l

/-- The ledger after calls to record, from the empty one on. -/
def afterCalls (calls : List (ObjectId × Decision)) : Ledger := calls.foldl attempt {}

/-- The decision of the first call for a commit. -/
def firstDecision? (calls : List (ObjectId × Decision)) (id : ObjectId) : Option Decision := calls.lookup id

/-- The commits that are called for, in the order of their first calls. -/
def decided (calls : List (ObjectId × Decision)) : List ObjectId := (calls.map (·.1)).eraseDups

/-- A commit with what replaces it, if the first decision on it keeps it. -/
def keptAs? (calls : List (ObjectId × Decision)) (id : ObjectId) : Option (ObjectId × Replacement) :=
  ((firstDecision? calls id).bind Decision.replacement?).map (id, ·)

/-- All that a ledger answers about one commit. -/
structure Answers where
  contains : Bool
  wasKept : Option Bool
  isKept : Except LedgerError Bool
  substitutes : Except LedgerError (List ObjectId)
  replacement : Except LedgerError Replacement

def answers (l : Ledger) (id : ObjectId) : Answers :=
  ⟨l.contains id, l.wasKept? id, l.isKept id, l.substitutes id, l.replacement id⟩

/-- The answers about a commit on which this is the decision, if there is one. -/
def Answers.from (id : ObjectId) : Option Decision → Answers
  | none => ⟨false, none, .error (.notProcessed id), .error (.notProcessed id), .error (.notProcessed id)⟩
  | some (.keep new) => ⟨true, some true, .ok true, .ok [new.id], .ok new⟩
  | some (.drop substitutes) => ⟨true, some false, .ok false, .ok substitutes, .error (.notKept id)⟩

variable {l : Ledger} {calls : List (ObjectId × Decision)} {call : ObjectId × Decision} {id : ObjectId}

/-! ### What the entries determine -/

theorem contains_eq_isSome_find? (hl : l.Indexed) (id : ObjectId) : l.contains id = (l.find? id).isSome := by
  rw [Bool.eq_iff_iff, contains_iff_mem_commits hl, mem_commits_iff_find? hl, Option.isSome_iff_exists]

/-- Every question is answered from the one decision that is found. -/
theorem answers_eq (hl : l.Indexed) (id : ObjectId) : l.answers id = .from id (l.find? id) := by
  rw [answers, contains_eq_isSome_find? hl, wasKept?, isKept, substitutes, replacement, decision]
  rcases l.find? id with _ | _ | _ <;> rfl

theorem find?_commit (hl : l.Indexed) {e : Entry} (he : e ∈ l.entries.toList) : l.find? e.commit = some e.decision :=
  (find?_eq_some_iff hl).2 he

theorem entries_eq_filterMap (hl : l.Indexed) :
    l.entries.toList = l.commits.filterMap fun id => (l.find? id).map (⟨id, ·⟩) := by
  rw [commits, List.filterMap_map, eq_comm]
  calc l.entries.toList.filterMap ((fun id => (l.find? id).map (⟨id, ·⟩)) ∘ Entry.commit)
      = l.entries.toList.filterMap some := List.filterMap_congr fun e he => by simp [find?_commit hl he]
    _ = l.entries.toList := List.filterMap_some

theorem kept_eq_filterMap (hl : l.Indexed) :
    l.kept = l.commits.filterMap fun id => ((l.find? id).bind Decision.replacement?).map (id, ·) := by
  rw [kept, commits, List.filterMap_map]
  refine List.filterMap_congr fun e he => ?_
  rw [Function.comp_apply, find?_commit hl he]
  rfl

/-! ### One more call -/

theorem attempt_of_contains (h : l.contains call.1 = true) : l.attempt call = l := by
  rw [attempt, record, if_pos h]
  rfl

theorem record_attempt (call : ObjectId × Decision) (h : l.contains call.1 = false) :
    l.record call.1 call.2 = .ok (l.attempt call) := by
  rw [attempt, record, h]
  rfl

/-- A call decides only on a commit that nothing was decided on. -/
theorem find?_attempt (hl : l.Indexed) :
    (l.attempt call).find? id = (l.find? id).or (if id = call.1 then some call.2 else none) := by
  have hfound := contains_eq_isSome_find? hl call.1
  cases h : l.contains call.1 with
  | true =>
    -- The decision that is there already stands, for this commit and for all others.
    rw [attempt_of_contains h]
    split
    · rename_i hid
      rw [h, ← hid, eq_comm, Option.isSome_iff_exists] at hfound
      obtain ⟨d, hd⟩ := hfound
      rw [hd, Option.some_or]
    · rw [Option.or_none]
  | false =>
    rw [find?_record hl (record_attempt _ h)]
    by_cases hid : call.1 = id
    · rw [h, hid, eq_comm, Option.isSome_eq_false_iff, Option.isNone_iff_eq_none] at hfound
      rw [if_pos hid, if_pos hid.symm, hfound, Option.none_or]
    · rw [if_neg hid, if_neg (Ne.symm hid), Option.or_none]

theorem commits_attempt (hl : l.Indexed) :
    (l.attempt call).commits = if call.1 ∈ l.commits then l.commits else l.commits ++ [call.1] := by
  split
  · rename_i h
    rw [attempt_of_contains ((contains_iff_mem_commits hl).2 h)]
  · rename_i h
    have hnew : l.contains call.1 = false := eq_false_of_ne_true fun hin => h ((contains_iff_mem_commits hl).1 hin)
    rw [commits_record (record_attempt _ hnew)]

theorem indexed_attempt (hl : l.Indexed) : (l.attempt call).Indexed := by
  cases h : l.contains call.1 with
  | true => rwa [attempt_of_contains h]
  | false => exact indexed_record hl (record_attempt _ h)

/-! ### All the calls -/

theorem afterCalls_concat (calls : List (ObjectId × Decision)) (call : ObjectId × Decision) :
    afterCalls (calls ++ [call]) = (afterCalls calls).attempt call := by
  rw [afterCalls, List.foldl_append, List.foldl_cons, List.foldl_nil, ← afterCalls]

theorem firstDecision?_append (calls more : List (ObjectId × Decision)) (id : ObjectId) :
    firstDecision? (calls ++ more) id = (firstDecision? calls id).or (firstDecision? more id) := List.lookup_append

theorem firstDecision?_singleton (call : ObjectId × Decision) (id : ObjectId) :
    firstDecision? [call] id = if id = call.1 then some call.2 else none := by
  rw [firstDecision?, List.lookup_cons, List.lookup_nil]
  by_cases h : id = call.1
  · simp [h]
  · simp [h, beq_eq_false_iff_ne.2 h]

theorem firstDecision?_eq_none_iff : firstDecision? calls id = none ↔ id ∉ calls.map (·.1) := by
  rw [firstDecision?, List.lookup_eq_none_iff, List.mem_map]
  constructor
  · rintro h ⟨call, hcall, rfl⟩
    simpa using h call hcall
  · intro h call hcall
    have hne : id ≠ call.1 := fun hid => h ⟨call, hcall, hid.symm⟩
    simpa using hne

/-- The invariant of a run of calls: index and entries agree, each commit has its first decision, and the commits come
    in the order of their first calls. -/
theorem afterCalls_invariant (calls : List (ObjectId × Decision)) : (afterCalls calls).Indexed ∧
    (∀ id, (afterCalls calls).find? id = firstDecision? calls id) ∧ (afterCalls calls).commits = decided calls := by
  induction calls using List.reverseRecOn with
  | nil => exact ⟨indexed_empty, fun id => by simp [afterCalls, find?, firstDecision?], rfl⟩
  | append_singleton calls call ih =>
    obtain ⟨hl, hfind, hcommits⟩ := ih
    rw [afterCalls_concat]
    refine ⟨indexed_attempt hl, fun id => ?_, ?_⟩
    · rw [find?_attempt hl, hfind, firstDecision?_append, firstDecision?_singleton]
    · rw [commits_attempt hl, hcommits, decided, decided, List.map_append, List.map_singleton, eraseDups_concat]

/-! ### The map that is written once -/

/-- The ledger stands for the map from commits to their first decisions among the calls. -/
structure StandsFor (l : Ledger) (calls : List (ObjectId × Decision)) : Prop where
  /-- The slots count the commits in the order of their first calls. -/
  slot_iff : ∀ (id : ObjectId) (slot : Nat), l.slots[id]? = some slot ↔ (decided calls)[slot]? = some id
  commits_eq : l.commits = decided calls
  entries_eq : l.entries.toList = (decided calls).filterMap fun id => (firstDecision? calls id).map (⟨id, ·⟩)
  answers_eq : ∀ id, l.answers id = .from id (firstDecision? calls id)
  /-- A commit is decided on once. -/
  record_eq : ∀ id d, l.record id d =
    if (firstDecision? calls id).isSome then .error (.alreadyRecorded id) else .ok (afterCalls (calls ++ [(id, d)]))
  kept_eq : l.kept = (decided calls).filterMap (keptAs? calls)
  nodup_kept : (l.kept.map (·.1)).Nodup

theorem slot_iff_commits (hl : l.Indexed) (id : ObjectId) (slot : Nat) :
    l.slots[id]? = some slot ↔ l.commits[slot]? = some id := by
  rw [hl id slot, commits, List.getElem?_map, Array.getElem?_toList]

theorem nodup_kept (hl : l.Indexed) : (l.kept.map (·.1)).Nodup := by
  rw [kept_eq_filterMap hl, List.map_filterMap]
  refine List.Nodup.filterMap (fun id other found hid hother => ?_) (nodup_commits hl)
  simp only [Option.map_map, Option.mem_def, Option.map_eq_some_iff] at hid hother
  obtain ⟨_, _, hid⟩ := hid
  obtain ⟨_, _, hother⟩ := hother
  exact hid.trans hother.symm

theorem standsFor_afterCalls (calls : List (ObjectId × Decision)) : (afterCalls calls).StandsFor calls := by
  obtain ⟨hl, hfind, hcommits⟩ := afterCalls_invariant calls
  refine ⟨fun id slot => ?_, hcommits, ?_, fun id => ?_, fun id d => ?_, ?_, nodup_kept hl⟩
  · rw [slot_iff_commits hl, hcommits]
  · simp only [entries_eq_filterMap hl, hcommits, hfind]
  · rw [answers_eq hl, hfind]
  · have hfound := contains_eq_isSome_find? hl id
    rw [← hfind, ← hfound, afterCalls_concat]
    cases h : (afterCalls calls).contains id with
    | true => rw [record, if_pos h, if_pos rfl]
    | false => exact record_attempt (id, d) h
  · simp only [kept_eq_filterMap hl, hcommits, hfind]
    rfl

theorem afterCalls_append_kept (calls more : List (ObjectId × Decision)) :
    (afterCalls calls).kept <+: (afterCalls (calls ++ more)).kept := by
  have hsame : ∀ id ∈ decided calls, keptAs? (calls ++ more) id = keptAs? calls id := by
    intro id hid
    rw [decided, List.mem_eraseDups] at hid
    obtain ⟨d, hd⟩ := Option.ne_none_iff_exists'.1 fun hnone => firstDecision?_eq_none_iff.1 hnone hid
    rw [keptAs?, keptAs?, firstDecision?_append, hd, Option.some_or]
  have hdecided : decided (calls ++ more)
      = decided calls ++ ((more.map (·.1)).removeAll (calls.map (·.1))).eraseDups := by
    rw [decided, List.map_append, List.eraseDups_append, ← decided]
  rw [(standsFor_afterCalls calls).kept_eq, (standsFor_afterCalls (calls ++ more)).kept_eq, hdecided,
    List.filterMap_append, List.filterMap_congr hsame]
  exact List.prefix_append _ _

/-- After any calls to record on an empty ledger, it stands for the map from commits to their first decisions. A call
    for a commit that is decided changes nothing. Whatever is called later, the answers about a commit stay the same if
    it was decided, or if no later call decides it, and the list of kept commits only grows at its end. -/
theorem first_decisions_stand (calls : List (ObjectId × Decision)) :
    (afterCalls calls).StandsFor calls ∧
    (∀ id d, (firstDecision? calls id).isSome → afterCalls (calls ++ [(id, d)]) = afterCalls calls) ∧
    (∀ more id, (firstDecision? calls id).isSome ∨ id ∉ more.map (·.1) →
      (afterCalls (calls ++ more)).answers id = (afterCalls calls).answers id) ∧
    ∀ more, (afterCalls calls).kept <+: (afterCalls (calls ++ more)).kept := by
  obtain ⟨hl, hfind, -⟩ := afterCalls_invariant calls
  refine ⟨standsFor_afterCalls calls, fun id d hsome => ?_, fun more id h => ?_, afterCalls_append_kept calls⟩
  · rw [afterCalls_concat, attempt_of_contains]
    rwa [contains_eq_isSome_find? hl, hfind]
  · rw [(standsFor_afterCalls _).answers_eq, (standsFor_afterCalls _).answers_eq, firstDecision?_append]
    rcases h with hsome | hnone
    · obtain ⟨d, hd⟩ := Option.isSome_iff_exists.1 hsome
      rw [hd, Option.some_or]
    · rw [firstDecision?_eq_none_iff.2 hnone, Option.or_none]

/-- What replaces the second commit of the calls below. -/
def rewritten : Replacement := ⟨⟨7⟩, Repository.bare [⟨0⟩]⟩

/-- The first commit is dropped, the second one kept, and then the first one shall be kept as well. -/
def contestedCalls : List (ObjectId × Decision) :=
  [(⟨1⟩, .drop [⟨0⟩]), (⟨2⟩, .keep rewritten), (⟨1⟩, .keep rewritten)]

theorem first_decisions_stand_contested :
    (afterCalls contestedCalls).kept = [(⟨2⟩, rewritten)] ∧
    afterCalls (contestedCalls ++ [(⟨2⟩, .drop [])]) = afterCalls contestedCalls ∧
    (afterCalls (contestedCalls ++ [(⟨3⟩, .drop [])])).answers ⟨1⟩
      = ⟨true, some false, .ok false, .ok [⟨0⟩], .error (.notKept ⟨1⟩)⟩ := by
  obtain ⟨hstands, hrefused, hlater, -⟩ := first_decisions_stand contestedCalls
  have hdropped : firstDecision? contestedCalls ⟨1⟩ = some (.drop [⟨0⟩]) := by decide
  refine ⟨?_, hrefused ⟨2⟩ (.drop []) (by decide), ?_⟩
  · rw [hstands.kept_eq]
    decide
  · rw [hlater [(⟨3⟩, .drop [])] ⟨1⟩ (.inl (by decide)), hstands.answers_eq, hdropped]
    rfl

end PrunedHistory.Ledger
