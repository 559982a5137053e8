import PrunedHistory.Proofs.Walk.Growth
import PrunedHistory.Proofs.Walk.Recursion

/-! What visits leave

    Main statement: a walk over a repository, whether or not it ends well, grows the ledger by commits that its head
    reaches, and it never fails with an error of the ledger. The induction is over the calls of the recursion; it goes
    through because no visit settles a commit on the path above it, so that each is still to be recorded when its turn
    comes. -/

namespace PrunedHistory.Walk

variable {r : Repository} {select : Selection} {l l' : Ledger} {id parent : ObjectId} {commit : Commit}

theorem run_load (r : Repository) (id : ObjectId) : r.run (load id) = match r.commit id with
    | .error e => .error (.read e)
    | .ok commit =>
      match r.hasTree commit.tree with
      | .error e => .error (.read e)
      | .ok false => .error (.read (.missingObject commit.tree))
      | .ok true => .ok commit := by
  simp only [Repository.run, load, Dialogue.question, bind, Dialogue.ask_bind, Dialogue.done_bind, Dialogue.run,
    Repository.answer, pure]
  cases r.commit id with
  | error e => rfl
  | ok commit =>
    simp only [Dialogue.run, Repository.answer]
    cases r.hasTree commit.tree with
    | error e => rfl
    | ok present => cases present <;> rfl

/-- Reading a commit gives one that loads, or an error of the repository. -/
theorem loads_or_fails (r : Repository) (id : ObjectId) :
    (∃ commit, r.run (load id) = .ok commit ∧ r.Loads id commit) ∨ ∃ e, r.run (load id) = .error (.read e) := by
  rw [run_load]
  cases hc : r.commit id with
  | error e => exact .inr ⟨e, rfl⟩
  | ok commit =>
    simp only
    cases ht : r.hasTree commit.tree with
    | error e => exact .inr ⟨e, rfl⟩
    | ok present =>
      cases present with
      | false => exact .inr ⟨_, rfl⟩
      | true => exact .inl ⟨commit, rfl, hc, ht⟩

theorem run_andThen (r : Repository) (work : Stage) (next : Ledger → Stage) :
    r.run (andThen work next) = match r.run work with
      | (ledger, .error e) => (ledger, .error e)
      | (ledger, .ok ()) => r.run (next ledger) := by
  rw [andThen, Repository.run_bind]
  rcases r.run work with ⟨ledger, e | _⟩ <;> rfl

/-- How a ledger stands after commits met on a path were visited: whether or not that ended well, only commits that
    the given ones reach were settled, and none that is on the path. -/
structure Leaves (r : Repository) (select : Selection) (path ids : List ObjectId) (l : Ledger)
    (left : Ledger × Except WalkError Unit) : Prop where
  grows : Grows r select l left.1
  aside : ∀ id ∈ path, id ∉ l.commits → id ∉ left.1.commits
  settled : left.2 = .ok () → ∀ id ∈ ids, id ∈ left.1.commits
  reached : ∀ id ∈ left.1.commits, id ∈ l.commits ∨ ∃ start ∈ ids, r.Reaches start id
  sound : ∀ e, left.2 ≠ .error (.ledger e)

variable {path ids parents : List ObjectId} {left : Ledger × Except WalkError Unit}

theorem Leaves.nothing (h : ∀ id ∈ ids, id ∈ l.commits) : Leaves r select path ids l (l, .ok ()) where
  grows := .refl
  aside _ _ h := h
  settled _ := h
  reached _ h := .inl h
  sound _ h := by cases h

theorem Leaves.failed {e : WalkError} (he : ∀ e', e ≠ .ledger e') : Leaves r select path ids l (l, .error e) where
  grows := .refl
  aside _ _ h := h
  settled h := by cases h
  reached _ h := .inl h
  sound e' h := he e' (Except.error.inj h)

theorem Leaves.widen {e : WalkError} {path' ids' : List ObjectId} (h : Leaves r select path ids l (l', .error e))
    (hpath : path' ⊆ path) (hids : ∀ id ∈ ids, ∃ start ∈ ids', r.Reaches start id) :
    Leaves r select path' ids' l (l', .error e) where
  grows := h.grows
  aside id hid := h.aside id (hpath hid)
  settled h := by cases h
  reached id hid := by
    rcases h.reached id hid with hold | ⟨mid, hmid, hreach⟩
    · exact .inl hold
    · obtain ⟨start, hstart, hmid⟩ := hids mid hmid
      exact .inr ⟨start, hstart, hmid.trans hreach⟩
  sound := h.sound

theorem Leaves.cons {first : ObjectId} (h₁ : Leaves r select path [first] l (l', .ok ()))
    (h₂ : Leaves r select path ids l' left) : Leaves r select path (first :: ids) l left where
  grows := h₁.grows.trans h₂.grows
  aside id hid hnew := h₂.aside id hid (h₁.aside id hid hnew)
  settled hok id hid := by
    rcases List.mem_cons.1 hid with rfl | hid
    · exact h₂.grows.commits_subset (h₁.settled rfl id (by simp))
    · exact h₂.settled hok id hid
  reached id hid := by
    rcases h₂.reached id hid with hold | ⟨start, hstart, hreach⟩
    · rcases h₁.reached id hold with hold | ⟨start, hstart, hreach⟩
      · exact .inl hold
      · exact .inr ⟨start, List.mem_cons.2 (.inl (List.mem_singleton.1 hstart)), hreach⟩
    · exact .inr ⟨start, List.mem_cons_of_mem _ hstart, hreach⟩
  sound := h₂.sound

/-- Once its parents are visited a commit can be settled: none of them needed it, so it is still to be recorded. -/
theorem Leaves.exists_settle (h : Leaves r select (id :: path) commit.parents l (l', .ok ())) (hl : l.Indexed)
    (hnew : id ∉ l.commits) : ∃ after, settle select l' id commit = .ok after :=
  Walk.exists_settle (h.grows.indexed hl) (h.aside id (by simp) hnew) (h.settled rfl)

theorem Leaves.conclude (hl : l.Indexed) (hload : r.Loads id commit) (hnew : id ∉ l.commits) (hpath : id ∉ path)
    (h : Leaves r select (id :: path) commit.parents l (l', .ok ())) :
    Leaves r select path [id] l (r.run (conclude select l' id commit)) := by
  obtain ⟨after, hs⟩ := h.exists_settle hl hnew
  have hc := commits_of_settle hs
  have hrun : r.run (Walk.conclude select l' id commit) = (after, .ok ()) := by
    rw [Walk.conclude, hs]
    rfl
  rw [hrun]
  refine ⟨h.grows.tail ⟨id, commit, hload, hs⟩, fun other ho hn => ?_, fun _ other ho => ?_, fun other ho => ?_,
    fun e he => (by cases he)⟩
  · rw [hc, List.mem_append, List.mem_singleton]
    rintro (hold | rfl)
    · exact h.aside other (List.mem_cons_of_mem _ ho) hn hold
    · exact hpath ho
  · rw [hc, List.mem_singleton.1 ho]
    simp
  · rw [hc, List.mem_append, List.mem_singleton] at ho
    rcases ho with ho | rfl
    · -- What a parent reaches, the commit reaches over it.
      rcases h.reached other ho with hold | ⟨parent, hparent, hreach⟩
      · exact .inl hold
      · exact .inr ⟨id, by simp, .head ((hload.parent_iff parent).2 hparent) hreach⟩
    · exact .inr ⟨other, by simp, .refl⟩

/-- A commit that is not recorded is loaded, and after its parents it is settled. -/
theorem run_visit_new (r : Repository) (select : Selection) (path : List ObjectId) (hl : l.Indexed)
    (hnew : id ∉ l.commits) :
    r.run (visit select path l id) = match r.run (load id) with
      | .error e => (l, .error e)
      | .ok commit =>
        match r.run (visitParents select (id :: path) l commit.parents) with
        | (left, .error e) => (left, .error e)
        | (left, .ok ()) => r.run (conclude select left id commit) := by
  have hin : ¬l.contains id = true := mt (Ledger.contains_iff_mem_commits hl).1 hnew
  rw [visit, if_neg hin, Repository.run_bind]
  cases r.run (load id) with
  | error e => rfl
  | ok commit => exact run_andThen ..

/-- A parent that is neither recorded nor on the path is visited before the others. -/
theorem run_visitParents_new (r : Repository) (select : Selection) (parents : List ObjectId) (hl : l.Indexed)
    (hnew : parent ∉ l.commits) (hpath : parent ∉ path) :
    r.run (visitParents select path l (parent :: parents)) = match r.run (visit select path l parent) with
      | (left, .error e) => (left, .error e)
      | (left, .ok ()) => r.run (visitParents select path left parents) := by
  have hin : ¬l.contains parent = true := mt (Ledger.contains_iff_mem_commits hl).1 hnew
  rw [visitParents, if_neg hin, if_neg (by simpa using hpath)]
  exact run_andThen ..

theorem visitParents_recorded (select : Selection) (path parents : List ObjectId) (hl : l.Indexed)
    (hin : parent ∈ l.commits) :
    visitParents select path l (parent :: parents) = visitParents select path l parents := by
  rw [visitParents, if_pos ((Ledger.contains_iff_mem_commits hl).2 hin)]

/-- What visiting leaves, by induction over the calls. -/
theorem leaves_visits (r : Repository) (select : Selection) :
    (∀ path l id, l.Indexed → id ∉ path → Leaves r select path [id] l (r.run (visit select path l id))) ∧
    ∀ path l parents, l.Indexed → Leaves r select path parents l (r.run (visitParents select path l parents)) := by
  refine visit.mutual_induct _ _ ?recorded ?read ?none ?passed ?cycle ?next
  case recorded =>
    intro path l id hin hl _
    rw [visit, if_pos hin]
    exact .nothing (by simpa using (Ledger.contains_iff_mem_commits hl).1 hin)
  case read =>
    intro path l id hin ih hl hpath
    have hnew : id ∉ l.commits := mt (Ledger.contains_iff_mem_commits hl).2 hin
    rw [run_visit_new r select path hl hnew]
    rcases loads_or_fails r id with ⟨commit, hrun, hload⟩ | ⟨e, hrun⟩
    · -- The commit goes on the path, which the visits of its parents leave alone.
      have hparents := ih commit hl
      simp only [hrun]
      rcases hleft : r.run (visitParents select (id :: path) l commit.parents) with ⟨l', e | _⟩
      · rw [hleft] at hparents
        exact hparents.widen (List.subset_cons_self ..) fun parent hparent =>
          ⟨id, by simp, .single ((hload.parent_iff parent).2 hparent)⟩
      · rw [hleft] at hparents
        exact hparents.conclude hl hload hnew hpath
    · simp only [hrun]
      exact .failed fun e' he => by cases he
  case none =>
    intro path l _
    rw [visitParents]
    exact .nothing (by simp)
  case passed =>
    intro path l parent parents hin ih hl
    have hmem := (Ledger.contains_iff_mem_commits hl).1 hin
    rw [visitParents_recorded select path parents hl hmem]
    exact .cons (.nothing (by simpa using hmem)) (ih hl)
  case cycle =>
    intro path l parent parents hin hpath _
    rw [visitParents, if_neg hin, if_pos hpath]
    exact .failed fun e' he => by cases he
  case next =>
    intro path l parent parents hin hpath ih₁ ih₂ hl
    have hpath : parent ∉ path := by simpa using hpath
    have hfirst := ih₁ hl hpath
    rw [run_visitParents_new r select parents hl (mt (Ledger.contains_iff_mem_commits hl).2 hin) hpath]
    rcases hleft : r.run (visit select path l parent) with ⟨l', e | _⟩
    · rw [hleft] at hfirst
      exact hfirst.widen (List.Subset.refl _) fun id hid => ⟨parent, by simp, by rw [List.mem_singleton.1 hid]⟩
    · rw [hleft] at hfirst
      exact hfirst.cons (ih₂ l' (hfirst.grows.indexed hl))

/-- A walk visits its head and looks it up. -/
theorem run_eq_visit (r : Repository) (select : Selection) (l : Ledger) (head : ObjectId) :
    r.run (run select l head) = match r.run (visit select [] l head) with
      | (l', .error e) => (l', .error e)
      | (l', .ok ()) => (l', (l'.substitutes head).mapError .ledger) := by
  rw [run_eq_runRecursively, runRecursively, Repository.run_bind]
  rcases r.run (visit select [] l head) with ⟨l', e | _⟩ <;> rfl

/-- The ledger that a walk leaves is the one that visiting its head leaves. -/
theorem run_ledger (r : Repository) (select : Selection) (l : Ledger) (head : ObjectId) :
    (r.run (run select l head)).1 = (r.run (visit select [] l head)).1 := by
  rw [run_eq_visit]
  rcases r.run (visit select [] l head) with ⟨l', e | _⟩ <;> rfl

/-- How a ledger stands after a walk from a head. -/
structure RunLeaves (r : Repository) (select : Selection) (l : Ledger) (head : ObjectId)
    (left : Ledger × Except WalkError (List ObjectId)) : Prop where
  grows : Grows r select l left.1
  settled : ∀ xs, left.2 = .ok xs → head ∈ left.1.commits ∧ xs = left.1.standIns head
  reached : ∀ id ∈ left.1.commits, id ∈ l.commits ∨ r.Reaches head id
  sound : ∀ e, left.2 ≠ .error (.ledger e)

theorem leaves_run (r : Repository) (select : Selection) (head : ObjectId) (hl : l.Indexed) :
    RunLeaves r select l head (r.run (run select l head)) := by
  have h := (leaves_visits r select).1 [] l head hl (by simp)
  have hreached : ∀ id ∈ (r.run (visit select [] l head)).1.commits, id ∈ l.commits ∨ r.Reaches head id := by
    intro id hid
    rcases h.reached id hid with hold | ⟨start, hstart, hreach⟩
    · exact .inl hold
    · exact .inr (List.mem_singleton.1 hstart ▸ hreach)
  rw [run_eq_visit]
  rcases hleft : r.run (visit select [] l head) with ⟨l', e | _⟩
  · rw [hleft] at h hreached
    refine ⟨h.grows, fun xs hxs => (by cases hxs), hreached, fun e' he => h.sound e' ?_⟩
    cases he
    rfl
  · rw [hleft] at h hreached
    have hhead := h.settled rfl head (by simp)
    obtain ⟨d, hd⟩ := (Ledger.mem_commits_iff_find? (h.grows.indexed hl)).1 hhead
    simp only [substitutes_of_find? hd]
    exact ⟨h.grows, fun xs hxs => ⟨hhead, (Except.ok.inj hxs).symm⟩, hreached, fun e he => (by cases he)⟩

/-- A call that fails has failed in its visits: the head of a visit that succeeds can be looked up. -/
theorem visit_error_of_run {head : ObjectId} {e : WalkError} (hl : l.Indexed)
    (h : r.run (run select l head) = (l', .error e)) :
    r.run (visit select [] l head) = (l', .error e) := by
  have hsound := (leaves_run r select head hl).sound
  rw [h] at hsound
  rw [run_eq_visit] at h
  rcases hv : r.run (visit select [] l head) with ⟨left, e' | _⟩
  · rw [hv] at h
    cases h
    rfl
  · rw [hv] at h
    cases hs : left.substitutes head with
    -- The look-up would fail with an error of the ledger, which no walk ends with.
    | error e' =>
      simp only [hs] at h
      cases h
      exact absurd rfl (hsound e')
    | ok xs =>
      simp only [hs] at h
      cases h

end PrunedHistory.Walk
