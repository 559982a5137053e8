import Mathlib.Combinatorics.Enumerative.DoubleCounting
import PrunedHistory.Proofs.Object.Encoding
import PrunedHistory.Proofs.Walk.Expansion

/-! Commits kept under their own ids

    In a repository that finds every commit under its own id, a commit whose whole history is kept, without a repeated
    parent anywhere, is kept as it is. The converse counts. Where the digest does not collide, a commit kept under its
    own id lists the new ids of kept commits as its parents; such a parent is the new id of a kept commit of the same
    history, so its parents again are new ids. So every commit of the history is the new id of a kept one of them.
    There are not more kept ones than commits: all of them are kept. -/

namespace PrunedHistory.Ledger

/-- The commit and all its ancestors are kept, and none of them lists a parent twice. -/
def Intact (r : Repository) (l : Ledger) (head : ObjectId) : Prop :=
  ∀ id, r.Reaches head id → l.wasKept? id = some true ∧ ∀ commit, r.commit id = .ok commit → commit.parents.Nodup

/-- What is hashed about a commit and its ancestors: the commits themselves and what replaces those that are kept. -/
inductive Involved (r : Repository) (l : Ledger) (head : ObjectId) : Commit → Prop where
  | original {id : ObjectId} {commit : Commit} : r.Reaches head id → r.commit id = .ok commit →
    Involved r l head commit
  | replacement {id : ObjectId} {new : Replacement} : r.Reaches head id → l.find? id = some (.keep new) →
    Involved r l head new.commit

variable {r : Repository} {l : Ledger} {id head : ObjectId} {commit : Commit} {new : Replacement}

theorem Sound.keep_eq (h : l.Sound r) (hk : l.find? id = some (.keep new)) (hload : r.Loads id commit) :
    new = commit.onto (l.parentsFor commit) := by
  rcases h.fits id _ commit hk hload with hfits | hfits
  · cases hfits
  · exact Decision.keep.inj hfits

theorem Sound.id_of_keep (h : l.Sound r) (hk : l.find? id = some (.keep new)) : new.commit.id = new.id := by
  obtain ⟨commit, hload⟩ := h.loads id (h.mem_of_find? hk)
  rw [h.keep_eq hk hload]
  rfl

/-- No parent comes twice in a commit that is published. -/
theorem Sound.nodup_parents (h : l.Sound r) (hk : l.find? id = some (.keep new)) : new.commit.parents.Nodup := by
  obtain ⟨commit, hload⟩ := h.loads id (h.mem_of_find? hk)
  rw [h.keep_eq hk hload]
  exact FirstOccurrences.nodup_eraseDups _

/-! ### A whole history is kept as it is -/

/-- It is enough that the recorded commits are found under their own ids. -/
theorem Sound.find?_of_addressed (h : l.Sound r)
    (hr : ∀ id ∈ l.commits, ∀ commit, r.commit id = .ok commit → commit.id = id) :
    ∀ id ∈ l.commits, l.Intact r id → ∀ commit, r.commit id = .ok commit → l.find? id = some (.keep ⟨id, commit⟩) := by
  refine h.ancestral fun id hid commit hload ih hintact found hfound => ?_
  obtain rfl : found = commit := Except.ok.inj (hfound.symm.trans hload.1)
  obtain ⟨hkept, hnodup⟩ := hintact id .refl
  -- The parents are kept under their own ids, which therefore stand for them.
  have hstand : ∀ p ∈ found.parents, l.standIns p = [p] := by
    intro p hp
    have hparent : r.Parent id p := (hload.parent_iff p).2 hp
    obtain ⟨hmem, hkeep⟩ := ih p hp
    obtain ⟨parent, hfoundParent⟩ := h.loads p hmem
    rw [standIns, hkeep (fun a ha => hintact a (.head hparent ha)) parent hfoundParent.1]
    rfl
  have hparents : l.parentsFor found = found.parents := by
    rw [parentsFor, List.flatMap_def, List.map_congr_left hstand, ← List.flatMap_def, List.flatMap_singleton',
      FirstOccurrences.eraseDups_of_nodup (hnodup found hfound)]
  obtain ⟨new, hk⟩ := wasKept?_eq_true_iff.1 hkept
  have hnew := h.keep_eq hk hload
  rw [hparents] at hnew
  -- On the same parents the commit is the same, and so is its id.
  have hself : new = ⟨id, found⟩ := by
    rw [hnew]
    exact congrArg (Replacement.mk · found) (hr id hid found hfound)
  rw [hk, hself]

theorem Sound.find?_of_intact (h : l.Sound r) (hr : r.ContentAddressed) :
    ∀ id ∈ l.commits, l.Intact r id → ∀ commit, r.commit id = .ok commit → l.find? id = some (.keep ⟨id, commit⟩) :=
  h.find?_of_addressed fun id _ => hr id

/-- In a history that is kept as it is, nothing is hashed but its own commits. -/
theorem Sound.involved_of_intact (h : l.Sound r) (hr : r.ContentAddressed) (hhead : head ∈ l.commits)
    (hintact : l.Intact r head) (hc : l.Involved r head commit) :
    ∃ id, r.Reaches head id ∧ r.commit id = .ok commit := by
  cases hc with
  | original hreach hread => exact ⟨_, hreach, hread⟩
  | @replacement id new hreach hkeep =>
    have hid := h.reached_mem hhead hreach
    obtain ⟨found, hload⟩ := h.loads id hid
    have hself := h.find?_of_intact hr id hid (fun a ha => hintact a (hreach.trans ha)) found hload.1
    rw [hkeep] at hself
    cases hself
    exact ⟨id, hreach, hload.1⟩

/-! ### A commit kept under its own id -/

/-- A commit of the history has the parents of the replacement whose id is its own. -/
theorem Sound.parents_of_new (h : l.Sound r) (hr : r.ContentAddressed)
    (hfree : Commit.CollisionFree (l.Involved r head)) {k : ObjectId} (hid : r.Reaches head id)
    (hread : r.commit id = .ok commit) (hk : r.Reaches head k)
    (hkeep : l.find? k = some (.keep new)) (hnew : new.id = id) : commit.parents = new.commit.parents := by
  refine hfree.parents_eq (.original hid hread) (.replacement hk hkeep) ?_
  rw [hr id commit hread, h.id_of_keep hkeep, hnew]

/-- Every commit of the history is the new id of a kept one of them. -/
theorem Sound.exists_newId (h : l.Sound r) (hr : r.ContentAddressed)
    (hfree : Commit.CollisionFree (l.Involved r head)) (hhead : l.NewId head head) {a : ObjectId}
    (ha : r.Reaches head a) : ∃ k, r.Reaches head k ∧ l.NewId k a := by
  induction ha with
  | refl => exact ⟨head, .refl, hhead⟩
  | @tail b p hb hparent ih =>
    obtain ⟨k, hk, new, hkeep, hnew⟩ := ih
    obtain ⟨commit, hread, hp⟩ := hparent
    obtain ⟨original, hload⟩ := h.loads k (h.mem_of_find? hkeep)
    rw [h.parents_of_new hr hfree hb hread hk hkeep hnew, h.keep_eq hkeep hload] at hp
    obtain ⟨k', new', hkeep', hnew', hpass⟩ := (h.mem_parentsFor_iff (h.mem_of_find? hkeep) hload.1).1 hp
    exact ⟨k', hk.trans hpass.reaches, new', hkeep', hnew'⟩

/-- If each member of a finite set is a value of a member with the property, and each has one value, all have it. -/
theorem forall_mem_of_values {α : Type} {s : Finset α} {P : α → Prop} {value : α → α → Prop}
    (hall : ∀ a ∈ s, ∃ k ∈ s, P k ∧ value k a) (hone : ∀ k a b, value k a → value k b → a = b) : ∀ a ∈ s, P a := by
  classical
  have hcard : s.card ≤ (s.filter P).card := by
    refine Finset.card_le_card_of_forall_subsingleton (fun a k => value k a) (fun a ha => ?_) (fun k _ => ?_)
    · obtain ⟨k, hk, hP, hvalue⟩ := hall a ha
      exact ⟨k, Finset.mem_filter.2 ⟨hk, hP⟩, hvalue⟩
    · rintro a ⟨-, ha⟩ b ⟨-, hb⟩
      exact hone k a b ha hb
  have hfilter : s.filter P = s := Finset.eq_of_subset_of_card_le (Finset.filter_subset _ _) hcard
  intro a ha
  rw [← hfilter] at ha
  exact (Finset.mem_filter.1 ha).2

theorem Sound.wasKept?_of_newIds (h : l.Sound r) (hhead : head ∈ l.commits)
    (hall : ∀ a, r.Reaches head a → ∃ k, r.Reaches head k ∧ l.NewId k a) {a : ObjectId} (ha : r.Reaches head a) :
    l.wasKept? a = some true := by
  classical
  have hmem : ∀ {a}, a ∈ l.commits.toFinset.filter (r.Reaches head) ↔ r.Reaches head a := by
    intro a
    rw [Finset.mem_filter, List.mem_toFinset, and_iff_right_of_imp (h.reached_mem hhead)]
  have hone : ∀ k a b, l.NewId k a → l.NewId k b → a = b := fun k a b => NewId.unique
  have hkept : ∀ a ∈ l.commits.toFinset.filter (r.Reaches head), l.wasKept? a = some true := by
    refine forall_mem_of_values (fun a ha => ?_) hone
    obtain ⟨k, hk, new, hkeep, hnew⟩ := hall a (hmem.1 ha)
    exact ⟨k, hmem.2 hk, wasKept?_eq_true_iff.2 ⟨new, hkeep⟩, new, hkeep, hnew⟩
  exact hkept a (hmem.2 ha)

theorem Sound.intact_of_newId (h : l.Sound r) (hr : r.ContentAddressed)
    (hfree : Commit.CollisionFree (l.Involved r head)) (hhead : l.NewId head head) : l.Intact r head := by
  have hmem : head ∈ l.commits := by
    obtain ⟨new, hkeep, -⟩ := hhead
    exact h.mem_of_find? hkeep
  have hall : ∀ a, r.Reaches head a → ∃ k, r.Reaches head k ∧ l.NewId k a := fun a => h.exists_newId hr hfree hhead
  intro a ha
  refine ⟨h.wasKept?_of_newIds hmem hall ha, fun commit hread => ?_⟩
  obtain ⟨k, hk, new, hkeep, hnew⟩ := hall a ha
  rw [h.parents_of_new hr hfree ha hread hk hkeep hnew]
  exact h.nodup_parents hkeep

end PrunedHistory.Ledger
