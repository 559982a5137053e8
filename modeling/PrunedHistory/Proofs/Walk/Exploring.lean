import PrunedHistory.Proofs.Walk.Visits

/-! What a walk explores

    A walk enters a parent only if it is not recorded, so what it can come to is bounded by the ledger it starts from: a
    cycle behind a recorded commit is never met, and neither is a missing commit there. The induction over the calls is
    done for any relation that has all the edges a walk may follow, and that relation stays fixed while the ledger
    grows. Main statement: a walk succeeds exactly if all it can come to loads and nothing there is its own ancestor,
    and a failure names a defect from there. Ids have a fixed width, so there are only finitely many commits to explore. -/

namespace PrunedHistory

open Relation (ReflTransGen TransGen)

/-- A parent that the ledger does not hold. -/
def Repository.NewParent (r : Repository) (l : Ledger) (child parent : ObjectId) : Prop :=
  r.Parent child parent ∧ l.contains parent = false

/-- A way from the first commit to the second over any number of parents that the ledger does not hold. -/
abbrev Repository.Explores (r : Repository) (l : Ledger) : ObjectId → ObjectId → Prop := ReflTransGen (r.NewParent l)

/-- Why a commit does not load: it cannot be read, its tree cannot be looked for, or its tree is missing. -/
inductive Repository.LoadFails (r : Repository) (id : ObjectId) : ReadError → Prop where
  | commit {e : ReadError} : r.commit id = .error e → LoadFails r id e
  | tree {commit : Commit} {e : ReadError} : r.commit id = .ok commit → r.hasTree commit.tree = .error e →
    LoadFails r id e
  | noTree {commit : Commit} : r.commit id = .ok commit → r.hasTree commit.tree = .ok false →
    LoadFails r id (.missingObject commit.tree)

theorem Repository.LoadFails.not_loads {r : Repository} {id : ObjectId} {e : ReadError} {commit : Commit}
    (h : r.LoadFails id e) : ¬r.Loads id commit := by
  rintro ⟨hcommit, htree⟩
  cases h with
  | commit h => cases h.symm.trans hcommit
  | tree h h' =>
    cases h.symm.trans hcommit
    cases h'.symm.trans htree
  | noTree h h' =>
    cases h.symm.trans hcommit
    cases h'.symm.trans htree

namespace Walk

variable {r : Repository} {select : Selection} {l l' : Ledger} {edge : ObjectId → ObjectId → Prop}
  {start id head : ObjectId} {ids path parents : List ObjectId} {e : WalkError}

theorem loadFails_of_load {reason : ReadError} (h : r.run (load id) = .error (.read reason)) :
    r.LoadFails id reason := by
  rw [run_load] at h
  cases hc : r.commit id with
  | error reason' =>
    rw [hc] at h
    cases h
    exact .commit hc
  | ok commit =>
    rw [hc] at h
    cases ht : r.hasTree commit.tree with
    | error reason' =>
      simp only [ht] at h
      cases h
      exact .tree hc ht
    | ok present =>
      cases present with
      | false =>
        simp only [ht] at h
        cases h
        exact .noTree hc ht
      | true =>
        simp only [ht] at h
        cases h

/-- The relation has every parent edge to a commit that is not recorded. -/
def Follows (r : Repository) (edge : ObjectId → ObjectId → Prop) (l : Ledger) : Prop :=
  ∀ child parent, r.Parent child parent → parent ∉ l.commits → edge child parent

/-- What a walk met when it failed, on ways from the commit. -/
def Met (r : Repository) (edge : ObjectId → ObjectId → Prop) (start : ObjectId) : WalkError → Prop
  | .read e => ∃ id, ReflTransGen edge start id ∧ r.run (load id) = .error (.read e)
  | .cycle id => ReflTransGen edge start id ∧ TransGen edge id id
  | .ledger _ => False

theorem Met.of_reaches (h : Met r edge id e) (hreach : ReflTransGen edge start id) : Met r edge start e := by
  cases e with
  | read e =>
    obtain ⟨met, hmet, hload⟩ := h
    exact ⟨met, hreach.trans hmet, hload⟩
  | cycle met => exact ⟨hreach.trans h.1, h.2⟩
  | ledger e => exact h

/-- How far visits of commits went: what is recorded and what was met lies on ways from those of them that were not
    recorded before. -/
structure Explored (r : Repository) (edge : ObjectId → ObjectId → Prop) (ids : List ObjectId) (l : Ledger)
    (left : Ledger × Except WalkError Unit) : Prop where
  reached : ∀ id ∈ left.1.commits, id ∈ l.commits ∨ ∃ start ∈ ids, start ∉ l.commits ∧ ReflTransGen edge start id
  met : ∀ e, left.2 = .error e → ∃ start ∈ ids, start ∉ l.commits ∧ Met r edge start e

variable {left : Ledger × Except WalkError Unit}

theorem Explored.nothing : Explored r edge ids l (l, .ok ()) where
  reached _ h := .inl h
  met _ h := by cases h

theorem Explored.failed (hid : id ∈ ids) (hnew : id ∉ l.commits) (h : Met r edge id e) :
    Explored r edge ids l (l, .error e) where
  reached _ h := .inl h
  met e' he := by
    cases he
    exact ⟨id, hid, hnew, h⟩

/-- The ways may start further back, where no more was recorded. -/
theorem Explored.of_earlier {ids' : List ObjectId} {earlier : Ledger} (h : Explored r edge ids l left)
    (hold : ∀ id ∈ l.commits, id ∈ earlier.commits ∨
      ∃ start ∈ ids', start ∉ earlier.commits ∧ ReflTransGen edge start id)
    (hids : ∀ id ∈ ids, id ∉ l.commits → ∃ start ∈ ids', start ∉ earlier.commits ∧ ReflTransGen edge start id) :
    Explored r edge ids' earlier left where
  reached id hid := by
    rcases h.reached id hid with hmem | ⟨mid, hmid, hnew, hreach⟩
    · exact hold id hmem
    · obtain ⟨start, hstart, hfresh, hway⟩ := hids mid hmid hnew
      exact .inr ⟨start, hstart, hfresh, hway.trans hreach⟩
  met e he := by
    obtain ⟨mid, hmid, hnew, hmet⟩ := h.met e he
    obtain ⟨start, hstart, hfresh, hway⟩ := hids mid hmid hnew
    exact ⟨start, hstart, hfresh, hmet.of_reaches hway⟩

theorem Explored.widen {ids' : List ObjectId} (h : Explored r edge ids l left) (hids : ids ⊆ ids') :
    Explored r edge ids' l left :=
  h.of_earlier (fun _ hmem => .inl hmem) fun id hid hfresh => ⟨id, hids hid, hfresh, .refl⟩

/-- What the parents of a commit lead to, the commit leads to. -/
theorem Explored.of_parents (h : Explored r edge parents l left) (hnew : id ∉ l.commits)
    (hedge : ∀ p ∈ parents, p ∉ l.commits → edge id p) : Explored r edge [id] l left :=
  h.of_earlier (fun _ hmem => .inl hmem) fun p hp hfresh => ⟨id, by simp, hnew, .single (hedge p hp hfresh)⟩

/-- One commit is visited, and the others from what it leaves. -/
theorem Explored.cons (h₁ : Explored r edge [id] l (l', .ok ())) (hkept : l.commits ⊆ l'.commits)
    (h₂ : Explored r edge ids l' left) : Explored r edge (id :: ids) l left := by
  have hfirst : Explored r edge (id :: ids) l (l', .ok ()) := h₁.widen (by simp)
  exact h₂.of_earlier hfirst.reached fun other ho hfresh =>
    ⟨other, List.mem_cons_of_mem _ ho, fun hmem => hfresh (hkept hmem), .refl⟩

/-- After its parents the commit itself is recorded. -/
theorem Explored.conclude {commit : Commit} {after : Ledger} (h : Explored r edge [id] l (l', .ok ()))
    (hnew : id ∉ l.commits) (hs : settle select l' id commit = .ok after) :
    Explored r edge [id] l (r.run (conclude select l' id commit)) := by
  rw [Walk.conclude, hs]
  refine ⟨fun other ho => ?_, fun e he => by cases he⟩
  change other ∈ after.commits at ho
  rw [commits_of_settle hs, List.mem_append, List.mem_singleton] at ho
  rcases ho with ho | rfl
  · exact h.reached other ho
  · exact .inr ⟨other, by simp, hnew, .refl⟩

theorem Follows.mono (h : Follows r edge l) (hkept : l.commits ⊆ l'.commits) : Follows r edge l' :=
  fun child parent hparent hfresh => h child parent hparent fun hmem => hfresh (hkept hmem)

/-- Every commit on the path leads to the parents that are not recorded. -/
def PathLeadsTo (edge : ObjectId → ObjectId → Prop) (l : Ledger) (path parents : List ObjectId) : Prop :=
  ∀ above ∈ path, ∀ p ∈ parents, p ∉ l.commits → TransGen edge above p

theorem PathLeadsTo.mono {parents' : List ObjectId} (h : PathLeadsTo edge l path parents) (hkept : l.commits ⊆ l'.commits)
    (hparents : parents' ⊆ parents) : PathLeadsTo edge l' path parents' :=
  fun above hmem p hp hfresh => h above hmem p (hparents hp) fun hold => hfresh (hkept hold)

/-- With the commit on the path, all of it leads to the commit's parents. -/
theorem PathLeadsTo.through (h : PathLeadsTo edge l path [id]) (hnew : id ∉ l.commits)
    (hedge : ∀ p ∈ parents, p ∉ l.commits → edge id p) : PathLeadsTo edge l (id :: path) parents := by
  intro above hmem p hp hfresh
  rcases List.mem_cons.1 hmem with rfl | hmem
  · exact .single (hedge p hp hfresh)
  · exact (h above hmem id (by simp) hnew).tail (hedge p hp hfresh)

/-- How far visits go, by induction over the calls. Every commit on the path leads to the one that is visited, which
    closes the cycle where a parent is met on the path. -/
theorem explored_visits (r : Repository) (select : Selection) (edge : ObjectId → ObjectId → Prop) :
    (∀ path l id, l.Indexed → Follows r edge l → id ∉ path → PathLeadsTo edge l path [id] →
      Explored r edge [id] l (r.run (visit select path l id))) ∧
    ∀ path l parents, l.Indexed → Follows r edge l → PathLeadsTo edge l path parents →
      Explored r edge parents l (r.run (visitParents select path l parents)) := by
  refine visit.mutual_induct _ _ ?recorded ?read ?none ?passed ?cycle ?next
  case recorded =>
    intro path l id hin _ _ _ _
    rw [visit, if_pos hin]
    exact .nothing
  case read =>
    intro path l id hin ih hl hfollows hpath habove
    have hnew : id ∉ l.commits := mt (Ledger.contains_iff_mem_commits hl).2 hin
    rw [run_visit_new r select path hl hnew]
    rcases loads_or_fails r id with ⟨commit, hrun, hload⟩ | ⟨e, hrun⟩
    · have hedge : ∀ p ∈ commit.parents, p ∉ l.commits → edge id p := fun p hp hfresh =>
        hfollows id p ((hload.parent_iff p).2 hp) hfresh
      -- With the commit on the path, all of the path leads to its parents.
      have hparents := (ih commit hl hfollows (habove.through hnew hedge)).of_parents hnew hedge
      have hleaves := (leaves_visits r select).2 (id :: path) l commit.parents hl
      simp only [hrun]
      rcases hleft : r.run (visitParents select (id :: path) l commit.parents) with ⟨l', e | _⟩
      · rw [hleft] at hparents
        exact hparents
      · rw [hleft] at hparents hleaves
        obtain ⟨after, hs⟩ := hleaves.exists_settle hl hnew
        exact hparents.conclude hnew hs
    · simp only [hrun]
      exact .failed (by simp) hnew ⟨id, .refl, hrun⟩
  case none =>
    intro path l _ _ _
    rw [visitParents]
    exact .nothing
  case passed =>
    intro path l parent parents hin ih hl hfollows habove
    rw [visitParents_recorded select path parents hl ((Ledger.contains_iff_mem_commits hl).1 hin)]
    exact (ih hl hfollows (habove.mono (List.Subset.refl _) (List.subset_cons_self ..))).widen (List.subset_cons_self ..)
  case cycle =>
    intro path l parent parents hin hpath hl _ habove
    have hnew : parent ∉ l.commits := mt (Ledger.contains_iff_mem_commits hl).2 hin
    rw [visitParents, if_neg hin, if_pos hpath]
    -- The parent is on the path itself, so it leads back to itself.
    exact .failed (by simp) hnew ⟨.refl, habove parent (by simpa using hpath) parent (by simp) hnew⟩
  case next =>
    intro path l parent parents hin hpath ih₁ ih₂ hl hfollows habove
    have hnew : parent ∉ l.commits := mt (Ledger.contains_iff_mem_commits hl).2 hin
    have hpath : parent ∉ path := by simpa using hpath
    have hfirst := ih₁ hl hfollows hpath (habove.mono (List.Subset.refl _) (by simp))
    have hleaves := (leaves_visits r select).1 path l parent hl hpath
    rw [run_visitParents_new r select parents hl hnew hpath]
    rcases hleft : r.run (visit select path l parent) with ⟨l', e | _⟩
    · rw [hleft] at hfirst
      exact hfirst.widen (by simp)
    · rw [hleft] at hfirst hleaves
      -- What is recorded for the first parent only closes ways to the others.
      have hkept := hleaves.grows.commits_subset
      exact hfirst.cons hkept (ih₂ l' (hleaves.grows.indexed hl) (hfollows.mono hkept)
        (habove.mono hkept (List.subset_cons_self ..)))

theorem met_of_run (hl : l.Indexed) (hfollows : Follows r edge l)
    (h : (r.run (run select l head)).2 = .error e) : Met r edge head e := by
  have hvisit := visit_error_of_run hl (Prod.ext rfl h)
  have hexplored := (explored_visits r select edge).1 [] l head hl hfollows (by simp) nofun
  rw [hvisit] at hexplored
  obtain ⟨start, hstart, -, hmet⟩ := hexplored.met e rfl
  rwa [← List.mem_singleton.1 hstart]

theorem reached_of_run (hl : l.Indexed) (hfollows : Follows r edge l)
    (hid : id ∈ (r.run (run select l head)).1.commits) : id ∈ l.commits ∨ ReflTransGen edge head id := by
  have hexplored := (explored_visits r select edge).1 [] l head hl hfollows (by simp) nofun
  rw [run_ledger] at hid
  rcases hexplored.reached id hid with hold | ⟨start, hstart, -, hreach⟩
  · exact .inl hold
  · exact .inr (List.mem_singleton.1 hstart ▸ hreach)

/-! ### What is recorded -/

theorem newParent_iff (hl : l.Indexed) {child parent : ObjectId} :
    r.NewParent l child parent ↔ r.Parent child parent ∧ parent ∉ l.commits := by
  rw [Repository.NewParent, ← Bool.not_eq_true, Ledger.contains_iff_mem_commits hl]

theorem follows_newParent (hl : l.Indexed) : Follows r (r.NewParent l) l := fun _ _ hparent hfresh =>
  (newParent_iff hl).2 ⟨hparent, hfresh⟩

/-- What has come to a ledger since an earlier one: commits that load, with all their parents, and none of them is its
    own ancestor by parents that the earlier one does not hold. -/
structure Fills (r : Repository) (l l' : Ledger) : Prop where
  loads : ∀ id ∈ l'.commits, id ∉ l.commits → ∃ commit, r.Loads id commit
  parents : ∀ id ∈ l'.commits, id ∉ l.commits → ∀ p, r.Parent id p → p ∈ l'.commits
  acyclic : ∀ id ∈ l'.commits, id ∉ l.commits → ¬TransGen (r.NewParent l) id id

theorem Fills.mem_of_explores (h : Fills r l l') (hl : l.Indexed) (hid : id ∈ l'.commits) (hnew : id ∉ l.commits)
    {found : ObjectId} (hway : r.Explores l id found) : found ∈ l'.commits ∧ found ∉ l.commits := by
  induction hway with
  | refl => exact ⟨hid, hnew⟩
  | tail _ hstep ih =>
    obtain ⟨hparent, hfresh⟩ := (newParent_iff hl).1 hstep
    exact ⟨h.parents _ ih.1 ih.2 _ hparent, hfresh⟩

/-- One more commit is recorded after its parents, so no way leads from these back to it. -/
theorem Fills.settles (h : Fills r l l') (hl : l.Indexed) (hl' : l'.Indexed) {after : Ledger}
    (hs : Settles r select l' after) : Fills r l after := by
  obtain ⟨settled, commit, hload, hsettle⟩ := hs
  have hcommits := commits_of_settle hsettle
  obtain ⟨hparents, hrec⟩ := settle_eq_ok_iff.1 hsettle
  have hfresh : settled ∉ l'.commits := by
    rw [← Ledger.contains_iff_mem_commits hl', (Ledger.record_eq_ok_iff.1 hrec).1]
    simp
  have hparent : ∀ p, r.Parent settled p → p ∈ l'.commits := fun p hp =>
    (Ledger.mem_commits_iff_find? hl').2 (hparents p ((hload.parent_iff p).1 hp))
  have hcases : ∀ {id}, id ∈ after.commits → id ∈ l'.commits ∨ id = settled := fun hid => by
    rw [hcommits, List.mem_append, List.mem_singleton] at hid
    exact hid
  refine ⟨fun id hid hnew => ?loads, fun id hid hnew p hp => ?parents, fun id hid hnew hcycle => ?acyclic⟩
  case loads =>
    rcases hcases hid with hold | rfl
    · exact h.loads id hold hnew
    · exact ⟨commit, hload⟩
  case parents =>
    rw [hcommits]
    rcases hcases hid with hold | rfl
    · exact List.mem_append_left _ (h.parents id hold hnew p hp)
    · exact List.mem_append_left _ (hparent p hp)
  case acyclic =>
    rcases hcases hid with hold | rfl
    · exact h.acyclic id hold hnew hcycle
    · -- A way back to the new commit goes over a parent, and all that a parent explores was recorded before it.
      obtain ⟨p, hfirst, hback⟩ := TransGen.head'_iff.1 hcycle
      obtain ⟨hp, hpnew⟩ := (newParent_iff hl).1 hfirst
      exact hfresh (h.mem_of_explores hl (hparent p hp) hpnew hback).1

theorem Grows.fills (h : Grows r select l l') (hl : l.Indexed) : Fills r l l' := by
  induction h with
  | refl =>
    exact ⟨fun _ hid hnew => absurd hid hnew, fun _ hid hnew => absurd hid hnew, fun _ hid hnew => absurd hid hnew⟩
  | tail hgrows hs ih => exact ih.settles hl (Grows.indexed hgrows hl) hs

/-- From a recorded ledger that does not hold the head, a walk ends well exactly if all that it can come to loads and
    none of that is its own ancestor there. Then it has recorded just that. Otherwise it names a commit that is its own
    ancestor there, or fails as the loading of a commit there fails. -/
theorem walk_explores (r : Repository) (select : Selection) (l : Ledger) (hl : l.Recorded) (head : ObjectId)
    (hnew : l.contains head = false) (l' : Ledger) (ended : Except WalkError (List ObjectId))
    (hrun : r.run (run select l head) = (l', ended)) :
    ((∃ xs, ended = .ok xs) ↔ (∀ id, r.Explores l head id → ∃ commit, r.Loads id commit) ∧
      ∀ id, r.Explores l head id → ¬TransGen (r.NewParent l) id id) ∧
    (∀ xs, ended = .ok xs → ∀ id, l'.contains id = true ↔ l.contains id = true ∨ r.Explores l head id) ∧
    (∀ id, ended = .error (.cycle id) → r.Explores l head id ∧ TransGen (r.NewParent l) id id) ∧
    (∀ e, ended = .error (.read e) → ∃ id, r.Explores l head id ∧ r.LoadFails id e) ∧
    ∀ e, ended ≠ .error (.ledger e) := by
  have hindexed := hl.indexed
  have hleaves := leaves_run r select head hindexed
  have hmet : ∀ e, (r.run (run select l head)).2 = .error e → Met r (r.NewParent l) head e := fun e =>
    met_of_run hindexed (follows_newParent hindexed)
  have hreached : ∀ id ∈ (r.run (run select l head)).1.commits, id ∈ l.commits ∨ r.Explores l head id := fun id =>
    reached_of_run hindexed (follows_newParent hindexed)
  rw [hrun] at hleaves hmet hreached
  have hfresh : head ∉ l.commits := by
    rw [← Ledger.contains_iff_mem_commits hindexed, hnew]
    simp
  have hfills := hleaves.grows.fills hindexed
  -- A walk that ends well has recorded its head, and with it all that can be explored from there.
  have hall : ∀ xs, ended = .ok xs → ∀ id, r.Explores l head id → id ∈ l'.commits ∧ id ∉ l.commits :=
    fun xs hok id => hfills.mem_of_explores hindexed (hleaves.settled xs hok).1 hfresh
  refine ⟨⟨?succeeds, ?fails⟩, fun xs hok id => ?records, fun id he => hmet _ he, fun e he => ?reads, ?ledger⟩
  case succeeds =>
    rintro ⟨xs, hok⟩
    exact ⟨fun id hid => hfills.loads id (hall xs hok id hid).1 (hall xs hok id hid).2,
      fun id hid => hfills.acyclic id (hall xs hok id hid).1 (hall xs hok id hid).2⟩
  case fails =>
    rintro ⟨hloads, hacyclic⟩
    rcases ended with e | xs
    · cases e with
      | read e =>
        obtain ⟨id, hid, hload⟩ := hmet _ rfl
        obtain ⟨commit, hcommit⟩ := hloads id hid
        exact absurd hcommit (loadFails_of_load hload).not_loads
      | cycle id => exact absurd (hmet _ rfl).2 (hacyclic id (hmet _ rfl).1)
      | ledger e => exact (hmet _ rfl).elim
    · exact ⟨xs, rfl⟩
  case records =>
    rw [Ledger.contains_iff_mem_commits (hleaves.grows.indexed hindexed), Ledger.contains_iff_mem_commits hindexed]
    constructor
    · exact hreached id
    · rintro (hold | hway)
      · exact hleaves.grows.commits_subset hold
      · exact (hall xs hok id hway).1
  case reads =>
    obtain ⟨id, hid, hload⟩ := hmet _ he
    exact ⟨id, hid, loadFails_of_load hload⟩
  case ledger => exact hleaves.sound

/-- Three commits in a ring. The youngest lists one of its parents twice. -/
def cutRing : Repository := .ofParents [(⟨1⟩, [⟨2⟩, ⟨2⟩, ⟨3⟩]), (⟨2⟩, [⟨3⟩]), (⟨3⟩, [⟨1⟩])]

def oldestDropped : Ledger := { entries := #[⟨⟨3⟩, .drop []⟩], slots := (∅ : Std.TreeMap ObjectId Nat).insert ⟨3⟩ 0 }

/-- The recorded commit cuts the ring, so the walk does not meet a cycle. -/
theorem cutRing_explored :
    cutRing.Descends ⟨1⟩ ⟨1⟩ ∧ oldestDropped.Recorded ∧ oldestDropped.contains ⟨1⟩ = false ∧
    ∃ l' xs, cutRing.run (run (fun _ _ _ => true) oldestDropped ⟨1⟩) = (l', .ok xs) ∧
      ∀ id, l'.contains id = true ↔ oldestDropped.contains id = true ∨ cutRing.Explores oldestDropped ⟨1⟩ id := by
  have hrecorded : oldestDropped.Recorded := .record .empty (Ledger.record_eq_ok_iff.2 ⟨by decide, rfl⟩)
  have hnew : oldestDropped.contains ⟨1⟩ = false := by decide
  have hparent : ∀ {a b : ObjectId} {parents}, cutRing.commit a = .ok (Repository.bare parents) → b ∈ parents →
      cutRing.Parent a b := fun hread hmem => ⟨_, hread, hmem⟩
  have hring : cutRing.Descends ⟨1⟩ ⟨1⟩ :=
    .tail (.single (hparent (b := ⟨3⟩) rfl (by simp))) (hparent rfl (by simp))
  have hedge : ∀ {a b}, cutRing.NewParent oldestDropped a b → (a = ⟨1⟩ ∧ b = ⟨2⟩) ∨ (a = ⟨3⟩ ∧ b = ⟨1⟩) := by
    rintro a b ⟨⟨commit, hread, hb⟩, hfresh⟩
    have hall : ∀ a ∈ [(⟨1⟩ : ObjectId), ⟨2⟩, ⟨3⟩], ∀ commit ∈ (cutRing.commit a).toOption, ∀ b ∈ commit.parents,
        oldestDropped.contains b = false → (a = ⟨1⟩ ∧ b = ⟨2⟩) ∨ (a = ⟨3⟩ ∧ b = ⟨1⟩) := by decide
    exact hall a (Repository.mem_of_ofParents hread) commit (by rw [hread]; rfl) b hb hfresh
  have hexplored : ∀ {id}, cutRing.Explores oldestDropped ⟨1⟩ id → id = ⟨1⟩ ∨ id = ⟨2⟩ := by
    intro id hway
    cases hway with
    | refl => exact .inl rfl
    | tail _ hlast =>
      rcases hedge hlast with ⟨-, rfl⟩ | ⟨-, rfl⟩
      · exact .inr rfl
      · exact .inl rfl
  have hloads : ∀ id, cutRing.Explores oldestDropped ⟨1⟩ id → ∃ commit, cutRing.Loads id commit := by
    intro id hway
    rcases hexplored hway with rfl | rfl <;> exact ⟨_, rfl, rfl⟩
  -- Of the commits that are explored only the second is entered, and it has no way on.
  have hacyclic : ∀ id, cutRing.Explores oldestDropped ⟨1⟩ id → ¬TransGen (cutRing.NewParent oldestDropped) id id := by
    intro id hway hcycle
    obtain ⟨_, hfirst, -⟩ := TransGen.head'_iff.1 hcycle
    obtain ⟨last, hback, hlast⟩ := TransGen.tail'_iff.1 hcycle
    have hlast' := hexplored (hway.trans hback)
    rcases hedge hfirst with ⟨rfl, -⟩ | ⟨rfl, -⟩ <;> rcases hedge hlast with ⟨rfl, hid⟩ | ⟨rfl, hid⟩ <;> simp_all
  rcases hrun : cutRing.run (run (fun _ _ _ => true) oldestDropped ⟨1⟩) with ⟨l', ended⟩
  obtain ⟨hsucceeds, hrecords, -⟩ := walk_explores cutRing _ _ hrecorded ⟨1⟩ hnew l' ended hrun
  obtain ⟨xs, rfl⟩ := hsucceeds.2 ⟨hloads, hacyclic⟩
  exact ⟨hring, hrecorded, hnew, l', xs, rfl, hrecords xs rfl⟩

end Walk

end PrunedHistory
