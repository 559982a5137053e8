import PrunedHistory.Proofs.Walk.Visits

/-! The turns of a walk

    The walk as a machine: a ledger, a path and a stack, and one turn of the loop at a time. Every turn that does not
    end the walk lowers a count: each commit that can be read and was not met yet counts for itself and for each of
    its parents, each commit on the stack for itself and for each parent that is pending. So where only finitely many
    commits can be read, a bound on the turns is known before the walk starts. -/

namespace PrunedHistory.Walk

structure State where
  ledger : Ledger
  path : Std.TreeSet ObjectId
  stack : List Frame

/-- One turn of the loop: the next state, or how the walk ended. -/
def turn (r : Repository) (select : Selection) : State → State ⊕ (Ledger × Except WalkError Unit)
  | ⟨ledger, _, []⟩ => .inr (ledger, .ok ())
  | ⟨ledger, path, ⟨id, commit, []⟩ :: rest⟩ =>
    match settle select ledger id commit with
    | .error e => .inr (ledger, .error (.ledger e))
    | .ok ledger => .inl ⟨ledger, path.erase id, rest⟩
  | ⟨ledger, path, ⟨id, commit, parent :: pending⟩ :: rest⟩ =>
    if ledger.contains parent then .inl ⟨ledger, path, ⟨id, commit, pending⟩ :: rest⟩
    else if path.contains parent then .inr (ledger, .error (.cycle parent))
    else
      match r.run (load parent) with
      | .error e => .inr (ledger, .error e)
      | .ok found =>
        .inl ⟨ledger, path.insert parent, ⟨parent, found, found.parents⟩ :: ⟨id, commit, pending⟩ :: rest⟩

/-- How the walk ended, if it ends within so many turns. -/
def turns (r : Repository) (select : Selection) : Nat → State → Option (Ledger × Except WalkError Unit)
  | 0, _ => none
  | n + 1, s =>
    match turn r select s with
    | .inl next => turns r select n next
    | .inr ended => some ended

/-- A commit that can be read counts for itself and for each of its parents. -/
def weight (r : Repository) (id : ObjectId) : Nat :=
  match r.commit id with
  | .ok commit => commit.parents.length + 1
  | .error _ => 0

/-- The weight of those of the given commits that are not met. -/
def unmet (r : Repository) (met : ObjectId → Bool) : List ObjectId → Nat
  | [] => 0
  | id :: ids => (if met id then 0 else weight r id) + unmet r met ids

/-- What is left on a stack. -/
def pendingTurns : List Frame → Nat
  | [] => 0
  | f :: rest => f.pending.length + 1 + pendingTurns rest

variable {r : Repository} {select : Selection} {before after : ObjectId → Bool}

theorem unmet_le (h : ∀ id, before id → after id) : ∀ ids : List ObjectId, unmet r after ids ≤ unmet r before ids
  | [] => Nat.le_refl 0
  | id :: ids => by
      have hrest := unmet_le h ids
      rw [unmet, unmet]
      by_cases hb : before id
      · rw [if_pos hb, if_pos (h id hb)]
        omega
      · rw [if_neg hb]
        split <;> omega

/-- Meeting one more commit takes off its weight. -/
theorem unmet_add_weight_le (h : ∀ id, before id → after id) {id : ObjectId} (hb : before id = false)
    (ha : after id = true) : ∀ {ids : List ObjectId}, id ∈ ids → unmet r after ids + weight r id ≤ unmet r before ids
  | other :: ids, hid => by
      rw [unmet, unmet]
      rcases List.mem_cons.1 hid with rfl | hid
      · have hrest := unmet_le (r := r) h ids
        rw [hb, ha]
        simp only [Bool.false_eq_true, ↓reduceIte]
        omega
      · have hrest := unmet_add_weight_le h hb ha hid
        by_cases ho : before other
        · rw [if_pos ho, if_pos (h other ho)]
          omega
        · rw [if_neg ho]
          split <;> omega

theorem weight_of_commit {id : ObjectId} {commit : Commit} (h : r.commit id = .ok commit) :
    weight r id = commit.parents.length + 1 := by
  rw [weight, h]

/-- The turns that a state leaves at most. -/
def State.remaining (r : Repository) (readable : List ObjectId) (s : State) : Nat :=
  unmet r (met s.ledger s.path) readable + pendingTurns s.stack

/-- A turn is one unfolding of the loop. -/
theorem run_loop_eq_turn (r : Repository) (select : Selection) (s : State) :
    r.run (loop select s.ledger s.path s.stack) = match turn r select s with
      | .inl next => r.run (loop select next.ledger next.path next.stack)
      | .inr ended => ended := by
  rcases s with ⟨ledger, path, _ | ⟨⟨id, commit, _ | ⟨parent, pending⟩⟩, rest⟩⟩
  · rw [loop]
    rfl
  · rw [loop_pop, conclude, turn]
    cases hs : settle select ledger id commit with
    | error e => rfl
    | ok ledger' => rfl
  · rw [turn]
    by_cases hl : ledger.contains parent
    · rw [loop, if_pos hl, if_pos hl]
    · by_cases hp : path.contains parent
      · rw [loop, if_neg hl, if_pos hp, if_neg hl, if_pos hp]
        rfl
      · rw [loop_push hl hp, if_neg hl, if_neg hp]
        rw [Repository.run_bind]
        cases r.run (load parent) with
        | error e => rfl
        | ok found => rfl

/-- What the turns end in is what the loop ends in. -/
theorem loop_of_turns {ended : Ledger × Except WalkError Unit} : ∀ {n : Nat} {s : State},
    turns r select n s = some ended → r.run (loop select s.ledger s.path s.stack) = ended
  | n + 1, s, h => by
      rw [run_loop_eq_turn]
      rw [turns] at h
      cases ht : turn r select s with
      | inl next =>
        rw [ht] at h
        exact loop_of_turns h
      | inr ended' =>
        rw [ht] at h
        exact Option.some.inj h

/-- Every turn that does not end the walk lowers the count. -/
theorem remaining_lt_of_turn {readable : List ObjectId} (hread : ∀ id commit, r.commit id = .ok commit → id ∈ readable)
    {s next : State} (h : turn r select s = .inl next) : next.remaining r readable < s.remaining r readable := by
  rcases s with ⟨ledger, path, _ | ⟨⟨id, commit, _ | ⟨parent, pending⟩⟩, rest⟩⟩
  · cases h
  · rw [turn] at h
    cases hs : settle select ledger id commit with
    | error e =>
      rw [hs] at h
      cases h
    | ok ledger' =>
      rw [hs] at h
      obtain rfl := Sum.inl.inj h
      -- A frame goes, and what was met stays met.
      have hmet : unmet r (met ledger' (path.erase id)) readable ≤ unmet r (met ledger path) readable :=
        unmet_le (fun _ ho => met_settle hs path ho) readable
      simp only [State.remaining, pendingTurns]
      omega
  · rw [turn] at h
    split at h
    · obtain rfl := Sum.inl.inj h
      simp only [State.remaining, pendingTurns, List.length_cons]
      omega
    · rename_i hl
      split at h
      · cases h
      · rename_i hp
        rcases loads_or_fails r parent with ⟨found, hrun, hload⟩ | ⟨e, hrun⟩
        · rw [hrun] at h
          obtain rfl := Sum.inl.inj h
          -- The new frame takes as many turns as the weight that the parent loses when it is met.
          have hmet : unmet r (met ledger (path.insert parent)) readable + weight r parent ≤
              unmet r (met ledger path) readable :=
            unmet_add_weight_le (fun _ ho => met_insert parent ho) (by simp [met, hl, hp]) (by simp [met])
              (hread parent found hload.1)
          rw [weight_of_commit hload.1] at hmet
          simp only [State.remaining, pendingTurns, List.length_cons]
          omega
        · rw [hrun] at h
          cases h

/-- With more turns than the count the machine ends. -/
theorem exists_turns {readable : List ObjectId} (hread : ∀ id commit, r.commit id = .ok commit → id ∈ readable) :
    ∀ {n : Nat} {s : State}, s.remaining r readable < n → ∃ ended, turns r select n s = some ended
  | n + 1, s, h => by
      rw [turns]
      cases ht : turn r select s with
      | inl next =>
        have hlt := remaining_lt_of_turn hread ht
        exact exists_turns hread (by omega)
      | inr ended => exact ⟨ended, rfl⟩

theorem run_visit_of_turns {ledger : Ledger} {head : ObjectId} {commit : Commit}
    {ended : Ledger × Except WalkError Unit} {n : Nat} (hnew : ledger.contains head = false)
    (hload : r.Loads head commit)
    (h : turns r select n ⟨ledger, {head}, [⟨head, commit, commit.parents⟩]⟩ = some ended) :
    r.run (visit select [] ledger head) = ended := by
  have hloaded : r.run (load head) = .ok commit := by
    rw [run_load, hload.1]
    simp only [hload.2]
  rw [← loop_of_turns h, loop_head, visit, if_neg (by simp [hnew]), Repository.run_bind, hloaded]

theorem run_of_turns {ledger left : Ledger} {head : ObjectId} {commit : Commit} {n : Nat} (hl : ledger.Indexed)
    (hnew : ledger.contains head = false) (hload : r.Loads head commit)
    (h : turns r select n ⟨ledger, {head}, [⟨head, commit, commit.parents⟩]⟩ = some (left, .ok ())) :
    ∃ xs, r.run (run select ledger head) = (left, .ok xs) := by
  have hsound := (leaves_run r select head hl).sound
  rw [run_eq_visit, run_visit_of_turns hnew hload h] at hsound ⊢
  simp only at hsound ⊢
  cases hs : left.substitutes head with
  | error e =>
    rw [hs] at hsound
    exact absurd rfl (hsound e)
  | ok xs => exact ⟨xs, rfl⟩

/-- From a recorded ledger, a walk over finitely many commits ends within a known number of turns; it asks the same
    questions as the recursion, ends in the same way and leaves the same ledger, and it never fails because of the
    ledger. -/
theorem turns_and_run_eq_recursion (r : Repository) (readable : List ObjectId)
    (hread : ∀ id commit, r.commit id = .ok commit → id ∈ readable) (select : Selection) (ledger : Ledger)
    (hl : ledger.Recorded) (head : ObjectId) :
    (∀ commit, ledger.contains head = false → r.Loads head commit →
      turns r select (unmet r ledger.contains readable + 1) ⟨ledger, {head}, [⟨head, commit, commit.parents⟩]⟩
        = some (r.run (visit select [] ledger head))) ∧
    run select ledger head = runRecursively select ledger head ∧
    ∀ e, (r.run (run select ledger head)).2 ≠ .error (.ledger e) := by
  refine ⟨fun commit hnew hload => ?_, run_eq_runRecursively select ledger head,
    (leaves_run r select head hl.indexed).sound⟩
  -- The head is met from the start, so its weight pays for the first frame.
  have hmet : unmet r (met ledger {head}) readable + weight r head ≤ unmet r ledger.contains readable :=
    unmet_add_weight_le (fun id h => by simp [met, h]) hnew (by simp [met]) (hread head commit hload.1)
  rw [weight_of_commit hload.1] at hmet
  obtain ⟨ended, hended⟩ : ∃ ended, turns r select (unmet r ledger.contains readable + 1)
      ⟨ledger, {head}, [⟨head, commit, commit.parents⟩]⟩ = some ended := by
    refine exists_turns hread ?_
    simp only [State.remaining, pendingTurns]
    omega
  rw [hended, run_visit_of_turns hnew hload hended]

/-- Two commits that are parents of each other. The older one has a missing parent before that, which is passed over
    because it is recorded. -/
def ring : Repository := .ofParents [(⟨1⟩, [⟨2⟩]), (⟨2⟩, [⟨3⟩, ⟨1⟩])]

def missingDropped : Ledger := { entries := #[⟨⟨3⟩, .drop []⟩], slots := (∅ : Std.TreeMap ObjectId Nat).insert ⟨3⟩ 0 }

theorem turns_of_ring :
    missingDropped.Recorded ∧
    (turns ring (fun _ _ _ => true) (unmet ring missingDropped.contains [⟨1⟩, ⟨2⟩] + 1)
      ⟨missingDropped, {⟨1⟩}, [⟨⟨1⟩, Repository.bare [⟨2⟩], [⟨2⟩]⟩]⟩).map (·.2) = some (.error (.cycle ⟨1⟩)) ∧
    (ring.run (visit (fun _ _ _ => true) [] missingDropped ⟨1⟩)).2 = .error (.cycle ⟨1⟩) ∧
    ∀ e, (ring.run (run (fun _ _ _ => true) missingDropped ⟨1⟩)).2 ≠ .error (.ledger e) := by
  have hrecorded : missingDropped.Recorded :=
    .record .empty (Ledger.record_eq_ok_iff.2 ⟨by decide, rfl⟩)
  have hread : ∀ id commit, ring.commit id = .ok commit → id ∈ [⟨1⟩, ⟨2⟩] := fun _ _ =>
    Repository.mem_of_ofParents
  have hends : (turns ring (fun _ _ _ => true) (unmet ring missingDropped.contains [⟨1⟩, ⟨2⟩] + 1)
      ⟨missingDropped, {⟨1⟩}, [⟨⟨1⟩, Repository.bare [⟨2⟩], [⟨2⟩]⟩]⟩).map (·.2) = some (.error (.cycle ⟨1⟩)) := by
    rfl
  obtain ⟨hturns, -, hsound⟩ :=
    turns_and_run_eq_recursion ring [⟨1⟩, ⟨2⟩] hread (fun _ _ _ => true) missingDropped hrecorded ⟨1⟩
  refine ⟨hrecorded, hends, ?_, hsound⟩
  have hvisit := hturns (Repository.bare [⟨2⟩]) (by decide) ⟨rfl, rfl⟩
  rw [Repository.bare] at hends hvisit
  rw [hvisit] at hends
  exact Option.some.inj hends

end PrunedHistory.Walk
