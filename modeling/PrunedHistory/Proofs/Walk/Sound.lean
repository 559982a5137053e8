import Mathlib.Data.List.Induction
import PrunedHistory.Proofs.Walk.Visits

/-! Ledgers that walks build

    What holds of a ledger at every time between and inside walks, however many there were, whatever they selected and
    whether or not they failed: each recorded commit can be read, its parents are recorded before it, and its decision
    is one of the two that the decisions on its parents leave open. From the order comes the induction over ancestors
    by which the contents of the ledger are described. -/

namespace PrunedHistory

/-- The commit on other parents, with its new id. -/
def Commit.onto (c : Commit) (parents : List ObjectId) : Replacement :=
  let c := { c with parents }
  ⟨c.id, c⟩

/-- A commit is dropped for the parents that the ledger has for it, or kept on them. -/
def Ledger.Fits (l : Ledger) (commit : Commit) (d : Decision) : Prop :=
  d = .drop (l.parentsFor commit) ∨ d = .keep (commit.onto (l.parentsFor commit))

structure Ledger.Sound (r : Repository) (l : Ledger) : Prop where
  indexed : l.Indexed
  loads : ∀ id ∈ l.commits, ∃ commit, r.Loads id commit
  fits : ∀ id d commit, l.find? id = some d → r.Loads id commit → l.Fits commit d
  ordered : ∀ before id after, l.commits = before ++ id :: after → ∀ p, r.Parent id p → p ∈ before

namespace Walk

/-- The ledgers of any number of walks over one repository, each with its own selection. -/
inductive Reached (r : Repository) : Ledger → Prop where
  | empty : Reached r {}
  | run {l : Ledger} (h : Reached r l) (select : Selection) (head : ObjectId) :
    Reached r (r.run (Walk.run select l head)).1

variable {r : Repository} {select : Selection} {l l' : Ledger} {id : ObjectId} {commit : Commit} {d : Decision}

theorem fits_judge (select : Selection) (id : ObjectId) (commit : Commit) (l : Ledger) :
    l.Fits commit (judge select id commit (l.parentsFor commit)) := by
  unfold judge
  split
  · exact .inr rfl
  · exact .inl rfl

theorem standIns_of_extends (h : l.Extends l') {p : ObjectId} (hp : ∃ d, l.find? p = some d) :
    l'.standIns p = l.standIns p := by
  obtain ⟨d, hd⟩ := hp
  rw [Ledger.standIns, Ledger.standIns, hd, h p d hd]

/-- The parents that a commit gets do not change once its own are recorded. -/
theorem parentsFor_of_extends (h : l.Extends l') (hp : ∀ p ∈ commit.parents, ∃ d, l.find? p = some d) :
    l'.parentsFor commit = l.parentsFor commit := by
  rw [Ledger.parentsFor, Ledger.parentsFor, List.flatMap_def, List.flatMap_def,
    List.map_congr_left fun p hmem => standIns_of_extends h (hp p hmem)]

end Walk

namespace Ledger.Sound

open Walk

variable {r : Repository} {select : Selection} {l l' : Ledger} {id p : ObjectId} {commit : Commit} {d : Decision}

theorem empty : Sound r {} where
  indexed := indexed_empty
  loads id h := by simp [commits] at h
  fits _ _ _ h := by
    have hmem := (mem_commits_iff_find? indexed_empty).2 ⟨_, h⟩
    cases hmem
  ordered before id after h := by
    rw [commits] at h
    simp at h

theorem parent_mem (h : l.Sound r) (hid : id ∈ l.commits) (hp : r.Parent id p) : p ∈ l.commits := by
  obtain ⟨before, after, hsplit⟩ := List.append_of_mem hid
  rw [hsplit]
  exact List.mem_append_left _ (h.ordered before id after hsplit p hp)

/-- The recorded commits are closed under reachability. -/
theorem reached_mem (h : l.Sound r) (hid : id ∈ l.commits) (hp : r.Reaches id p) : p ∈ l.commits := by
  induction hp with
  | refl => exact hid
  | tail _ hparent ih => exact h.parent_mem ih hparent

theorem exists_find? (h : l.Sound r) (hid : id ∈ l.commits) : ∃ d, l.find? id = some d :=
  (mem_commits_iff_find? h.indexed).1 hid

theorem mem_of_find? (h : l.Sound r) (hd : l.find? id = some d) : id ∈ l.commits :=
  (mem_commits_iff_find? h.indexed).2 ⟨d, hd⟩

/-- Settling one more commit keeps the ledger sound. -/
theorem settles (h : l.Sound r) (hs : Settles r select l l') : l'.Sound r := by
  have hgrows : Grows r select l l' := .single hs
  have hextends := hgrows.extends h.indexed
  have hl' := hs.indexed h.indexed
  obtain ⟨id, commit, hload, hsettle⟩ := hs
  have hcommits := commits_of_settle hsettle
  obtain ⟨hparents, hrec⟩ := settle_eq_ok_iff.1 hsettle
  have hpersist : l'.parentsFor commit = l.parentsFor commit := parentsFor_of_extends hextends hparents
  refine ⟨hl', ?loads, ?fits, ?ordered⟩
  case loads =>
    intro other ho
    rw [hcommits, List.mem_append, List.mem_singleton] at ho
    rcases ho with ho | rfl
    · exact h.loads other ho
    · exact ⟨commit, hload⟩
  case fits =>
    intro other d found hd hfound
    rw [find?_record h.indexed hrec] at hd
    split at hd
    · rename_i hid
      subst hid
      cases hd
      have hsame : found = commit := by
        have := hfound.1.symm.trans hload.1
        exact Except.ok.inj this
      subst hsame
      rw [Fits, hpersist]
      exact fits_judge select id found l
    · have hfits := h.fits other d found hd hfound
      -- The parents of a commit that was recorded before are recorded too, so the same still stands for them.
      have hall : ∀ p ∈ found.parents, ∃ d, l.find? p = some d := fun p hp =>
        h.exists_find? (h.parent_mem (h.mem_of_find? hd) ((hfound.parent_iff p).2 hp))
      rw [Fits, parentsFor_of_extends hextends hall]
      exact hfits
  case ordered =>
    intro before other after hsplit p hp
    rw [hcommits] at hsplit
    -- The settled commit is the last, behind all its parents; the others are in front of it as before.
    rcases List.eq_nil_or_concat after with rfl | ⟨after, last, rfl⟩
    · obtain ⟨hbefore, hother⟩ := List.append_inj' hsplit rfl
      cases hother
      rw [← hbefore]
      obtain ⟨d, hd⟩ := hparents p ((hload.parent_iff p).1 hp)
      exact h.mem_of_find? hd
    · have hsplit' : l.commits ++ [id] = (before ++ other :: after) ++ [last] := by
        rw [hsplit]
        simp
      exact h.ordered before other after (List.append_inj' hsplit' rfl).1 p hp

theorem grows (h : l.Sound r) (hg : Grows r select l l') : l'.Sound r := by
  induction hg with
  | refl => exact h
  | tail _ hs ih => exact ih.settles hs

theorem of_reached (h : Walk.Reached r l) : l.Sound r := by
  induction h with
  | empty => exact empty
  | run _ select head ih => exact ih.grows (leaves_run r select head ih.indexed).grows

/-- A walk that ends well records what its head reaches, and nothing else. -/
theorem mem_run_iff (h : l.Sound r) {head : ObjectId} {xs : List ObjectId}
    (hwalk : r.run (Walk.run select l head) = (l', .ok xs)) :
    id ∈ l'.commits ↔ id ∈ l.commits ∨ r.Reaches head id := by
  have hleaves := leaves_run r select head h.indexed
  rw [hwalk] at hleaves
  constructor
  · exact hleaves.reached id
  · rintro (hold | hreach)
    · exact hleaves.grows.commits_subset hold
    · exact (h.grows hleaves.grows).reached_mem (hleaves.settled xs rfl).1 hreach

/-- Induction over ancestors: what passes from the parents of a recorded commit to the commit holds of all. -/
theorem ancestral {P : ObjectId → Prop} (h : l.Sound r)
    (step : ∀ id ∈ l.commits, ∀ commit, r.Loads id commit → (∀ p ∈ commit.parents, p ∈ l.commits ∧ P p) → P id) :
    ∀ id ∈ l.commits, P id := by
  -- By induction along the order of recording, in which the parents of a commit come first.
  suffices hinit : ∀ before after, l.commits = before ++ after → ∀ id ∈ before, P id from
    hinit l.commits [] (by simp)
  intro before
  induction before using List.reverseRecOn with
  | nil =>
    intro after _ id hid
    cases hid
  | append_singleton before last ih =>
    intro after hsplit id hid
    rw [List.append_assoc] at hsplit
    have hbefore := ih _ hsplit
    rcases List.mem_append.1 hid with hid | hid
    · exact hbefore id hid
    · obtain rfl := List.mem_singleton.1 hid
      have hmem : id ∈ l.commits := by
        rw [hsplit]
        simp
      obtain ⟨commit, hload⟩ := h.loads id hmem
      refine step id hmem commit hload fun p hp => ?_
      have hp' := h.ordered before id after hsplit p ((hload.parent_iff p).2 hp)
      exact ⟨by rw [hsplit]; exact List.mem_append_left _ hp', hbefore p hp'⟩

end Ledger.Sound

end PrunedHistory
