import PrunedHistory.Walk

/-! The walk as a recursion

    What the stack of the walk does, said as a recursion over parents: a commit is read, its parents are visited from
    left to right, and then it is settled. A parent that is recorded is passed over, and one on the path is a cycle.
    The recursion ends because the path grows by a new id at every call, whatever the ledger is. Main statement: the
    loop asks the same questions, ends in the same way and leaves the same ledger. -/

namespace PrunedHistory.Walk

/-- Work that leaves a ledger, also where it fails. -/
abbrev Stage := Reading (Ledger × Except WalkError Unit)

/-- Goes on from the ledger that is left, unless the work failed. -/
def andThen (work : Stage) (next : Ledger → Stage) : Stage :=
  work.bind fun
    | (ledger, .error e) => .done (ledger, .error e)
    | (ledger, .ok ()) => next ledger

/-- The decision on a commit whose parents are settled. -/
def conclude (select : Selection) (ledger : Ledger) (id : ObjectId) (commit : Commit) : Stage :=
  match settle select ledger id commit with
  | .error e => .done (ledger, .error (.ledger e))
  | .ok ledger => .done (ledger, .ok ())

mutual

/-- Settles a commit and its ancestors. The path leads from its child, by which it was met, back to the head. -/
def visit (select : Selection) (path : List ObjectId) (ledger : Ledger) (id : ObjectId) : Stage :=
  if ledger.contains id then .done (ledger, .ok ())
  else (load id).bind fun
    | .error e => .done (ledger, .error e)
    | .ok commit => andThen (visitParents select (id :: path) ledger commit.parents) fun ledger =>
        conclude select ledger id commit
termination_by (ObjectId.untaken (id :: path).contains, 1, 0)

/-- Visits the parents of the commit at which the path starts. -/
def visitParents (select : Selection) (path : List ObjectId) (ledger : Ledger) : List ObjectId → Stage
  | [] => .done (ledger, .ok ())
  | parent :: parents =>
    if ledger.contains parent then visitParents select path ledger parents
    else if path.contains parent then .done (ledger, .error (.cycle parent))
    else andThen (visit select path ledger parent) fun ledger => visitParents select path ledger parents
termination_by parents => (ObjectId.untaken path.contains, 0, parents.length)
decreasing_by
  · exact .right _ (.right _ (by simp))
  · rename_i hp
    refine .left _ _ (ObjectId.untaken_lt (fun other ho => ?_) parent (eq_false_of_ne_true hp) (by simp))
    simp only [List.contains_cons, ho, Bool.or_true]
  · exact .right _ (.right _ (by simp))

end

/-- Settles a head and its ancestors by recursion, and gives what stands for the head. -/
def runRecursively (select : Selection) (ledger : Ledger) (head : ObjectId) :
    Reading (Ledger × Except WalkError (List ObjectId)) :=
  (visit select [] ledger head).bind fun
    | (ledger, .error e) => .done (ledger, .error e)
    | (ledger, .ok ()) => .done (ledger, (ledger.substitutes head).mapError .ledger)

/-- What is left to do for a stack: from the top, the pending parents of each commit and then the commit. -/
def unwind (select : Selection) (ledger : Ledger) : List Frame → Stage
  | [] => .done (ledger, .ok ())
  | ⟨id, commit, pending⟩ :: rest =>
    andThen (visitParents select (id :: rest.map (·.id)) ledger pending) fun ledger =>
      andThen (conclude select ledger id commit) fun ledger => unwind select ledger rest

theorem andThen_done (ledger : Ledger) (next : Ledger → Stage) : andThen (.done (ledger, .ok ())) next = next ledger :=
  rfl

theorem andThen_failed (ledger : Ledger) (e : WalkError) (next : Ledger → Stage) :
    andThen (.done (ledger, .error e)) next = .done (ledger, .error e) := rfl

theorem andThen_finished (work : Stage) : (andThen work fun ledger => .done (ledger, .ok ())) = work := by
  rw [andThen, ← Dialogue.bind_done work, Dialogue.bind_assoc]
  congr 1
  funext ⟨ledger, ended⟩
  cases ended <;> rfl

theorem andThen_andThen (work : Stage) (next after : Ledger → Stage) :
    andThen (andThen work next) after = andThen work fun ledger => andThen (next ledger) after := by
  rw [andThen, andThen, andThen, Dialogue.bind_assoc]
  congr 1
  funext ⟨ledger, ended⟩
  cases ended <;> rfl

/-! ### One turn of the loop -/

variable {select : Selection} {ledger : Ledger} {path : Std.TreeSet ObjectId}

/-- With no parent left, the commit on top is settled and taken off. -/
theorem loop_pop (id : ObjectId) (commit : Commit) (rest : List Frame) :
    loop select ledger path (⟨id, commit, []⟩ :: rest)
      = andThen (conclude select ledger id commit) fun ledger => loop select ledger (path.erase id) rest := by
  rw [loop, conclude]
  split
  · rename_i e hs
    simp only [hs, andThen_failed]
  · rename_i ledger' hs
    simp only [hs, andThen_done]

/-- A parent that is neither recorded nor on the path is put on the stack. -/
theorem loop_push {parent : ObjectId} (hl : ¬ledger.contains parent = true) (hp : ¬path.contains parent = true)
    (id : ObjectId) (commit : Commit) (pending : List ObjectId) (rest : List Frame) :
    loop select ledger path (⟨id, commit, parent :: pending⟩ :: rest)
      = (load parent).bind fun
        | .error e => .done (ledger, .error e)
        | .ok found =>
          loop select ledger (path.insert parent)
            (⟨parent, found, found.parents⟩ :: ⟨id, commit, pending⟩ :: rest) := by
  rw [loop, if_neg hl]
  exact if_neg hp

/-! ### The loop against the recursion -/

/-- The path holds just the commits of a stack, and none of them comes twice. -/
structure Tracks (path : Std.TreeSet ObjectId) (stack : List Frame) : Prop where
  contains_eq : ∀ id, path.contains id = (stack.map (·.id)).contains id
  nodup : (stack.map (·.id)).Nodup

theorem Tracks.pop {f : Frame} {rest : List Frame} (h : Tracks path (f :: rest)) :
    Tracks (path.erase f.id) rest := by
  obtain ⟨hc, hn⟩ := h
  rw [List.map_cons, List.nodup_cons] at hn
  refine ⟨fun id => ?_, hn.2⟩
  rw [Std.TreeSet.contains_erase, hc, List.map_cons, List.contains_cons]
  by_cases hid : f.id = id
  · subst hid
    simpa using hn.1
  · have hne : (compare f.id id != .eq) = true := by simpa using hid
    rw [hne, Bool.true_and, beq_eq_false_iff_ne.2 (Ne.symm hid), Bool.false_or]

theorem Tracks.push {f : Frame} {stack : List Frame} (h : Tracks path stack)
    (hf : path.contains f.id = false) : Tracks (path.insert f.id) (f :: stack) := by
  obtain ⟨hc, hn⟩ := h
  rw [hc] at hf
  refine ⟨fun id => ?_, ?_⟩
  · rw [Std.TreeSet.contains_insert, hc, List.map_cons, List.contains_cons]
    congr 1
    rw [Bool.eq_iff_iff, beq_iff_eq, beq_iff_eq, Std.LawfulEqCmp.compare_eq_iff_eq, eq_comm]
  · rw [List.map_cons, List.nodup_cons]
    exact ⟨by simpa using hf, hn⟩

/-- Simulation: at every turn of the loop, what it has left to do is the recursion over its stack. -/
theorem loop_eq_unwind (select : Selection) (ledger : Ledger) (path : Std.TreeSet ObjectId) (stack : List Frame)
    (h : Tracks path stack) : loop select ledger path stack = unwind select ledger stack := by
  induction ledger, path, stack using loop.induct select with
  | case1 ledger path => rw [loop, unwind]
  | case2 ledger path id commit rest e hs =>
    rw [loop_pop, unwind, visitParents, andThen_done, conclude, hs]
    rfl
  -- The frame is done: its commit leaves the path and is settled.
  | case3 ledger path id commit rest ledger' hs ih =>
    rw [loop_pop, unwind, visitParents, andThen_done, conclude, hs]
    exact ih h.pop
  | case4 ledger path id commit parent pending rest hl ih =>
    rw [loop, if_pos hl, ih ⟨h.contains_eq, h.nodup⟩, unwind, unwind, visitParents, if_pos hl]
  | case5 ledger path id commit parent pending rest hl hp =>
    have hp' : (id :: rest.map (·.id)).contains parent = true := h.contains_eq parent ▸ hp
    rw [loop, if_neg hl, if_pos hp, unwind, visitParents, if_neg hl, if_pos hp', andThen_failed]
  -- The parent comes on the stack with a frame of its own, where the recursion makes a call.
  | case6 ledger path id commit parent pending rest hl hp ih =>
    have hp' : ¬(id :: rest.map (·.id)).contains parent = true := h.contains_eq parent ▸ hp
    have hpush (found : Commit) := ih found
      (Tracks.push (f := ⟨parent, found, found.parents⟩) ⟨h.contains_eq, h.nodup⟩ (eq_false_of_ne_true hp))
    rw [loop_push hl hp, unwind, visitParents, if_neg hl, if_neg hp', visit, if_neg hl, andThen_andThen]
    rw [andThen, Dialogue.bind_assoc]
    congr 1
    funext loaded
    cases loaded with
    | error e => rfl
    | ok found =>
      exact (hpush found).trans (andThen_andThen ..).symm

theorem tracks_empty : Tracks ∅ [] := ⟨fun _ => Std.TreeSet.contains_emptyc, .nil⟩

/-- The loop started at a head that has been read is the recursion over its parents and then the head. -/
theorem loop_head (select : Selection) (ledger : Ledger) (head : ObjectId) (commit : Commit) :
    loop select ledger {head} [⟨head, commit, commit.parents⟩]
      = andThen (visitParents select [head] ledger commit.parents) fun ledger =>
          conclude select ledger head commit := by
  have h : Tracks {head} [⟨head, commit, commit.parents⟩] :=
    tracks_empty.push (f := ⟨head, commit, commit.parents⟩) Std.TreeSet.contains_emptyc
  rw [loop_eq_unwind select ledger {head} _ h, unwind]
  simp only [unwind, andThen_finished, List.map_nil]

/-- The walk is the recursion, question by question, whatever the ledger and the answers are. -/
theorem run_eq_runRecursively (select : Selection) (ledger : Ledger) (head : ObjectId) :
    run select ledger head = runRecursively select ledger head := by
  have hwalk : (if ledger.contains head then .done (ledger, .ok ())
      else (load head).bind fun
        | .error e => .done (ledger, .error e)
        | .ok commit => loop select ledger {head} [⟨head, commit, commit.parents⟩] : Stage)
      = visit select [] ledger head := by
    rw [visit]
    simp only [loop_head]
  rw [run, runRecursively, ← hwalk]
  cases ledger.contains head with
  | true => rfl
  | false =>
    refine congrArg (Dialogue.bind _) (funext fun ⟨ledger, walked⟩ => ?_)
    cases walked <;> rfl

end PrunedHistory.Walk
