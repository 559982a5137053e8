import PrunedHistory.Proofs.FirstOccurrences
import PrunedHistory.Proofs.Walk.Sound
import PrunedHistory.Proofs.Walk.Turns

/-! The parents that walks give

    The full expansion of a commit replaces each kept parent by its new id and each dropped one by the expansion of
    its own, and leaves nothing out. What a ledger holds for the commit is that list with each id at its first place
    only: it makes no difference that the ledger reduces it at every commit on the way. So the new parents are just the
    kept commits that are met over dropped ones. -/

namespace PrunedHistory

/-- What stands behind a decision: the parents of the commit that is kept, or the ids that a dropped one leaves. -/
def Decision.parents : Decision → List ObjectId
  | keep new => new.commit.parents
  | drop substitutes => substitutes

namespace Ledger

/-- The equation of the full expansion, at every recorded commit. -/
def IsExpansion (r : Repository) (l : Ledger) (expand : ObjectId → List ObjectId) : Prop :=
  ∀ id ∈ l.commits, ∀ commit, r.commit id = .ok commit →
    expand id = commit.parents.flatMap fun p =>
      match l.find? p with
      | some (.keep new) => [new.id]
      | some (.drop _) => expand p
      | none => []

/-- A way from a commit to an ancestor of it, of one parent or more, on which all commits between them are dropped. -/
inductive PassesTo (r : Repository) (l : Ledger) : ObjectId → ObjectId → Prop where
  | parent {id ancestor : ObjectId} : r.Parent id ancestor → PassesTo r l id ancestor
  | through {id p ancestor : ObjectId} : r.Parent id p → l.wasKept? p = some false → PassesTo r l p ancestor →
    PassesTo r l id ancestor

theorem PassesTo.descends {r : Repository} {l : Ledger} {id ancestor : ObjectId} (h : l.PassesTo r id ancestor) :
    r.Descends id ancestor := by
  induction h with
  | parent hparent => exact .single hparent
  | through hparent _ _ ih => exact .head hparent ih

theorem PassesTo.reaches {r : Repository} {l : Ledger} {id ancestor : ObjectId} (h : l.PassesTo r id ancestor) :
    r.Reaches id ancestor := h.descends.to_reflTransGen

variable {r : Repository} {l : Ledger} {id : ObjectId} {commit : Commit} {d : Decision}
  {expand : ObjectId → List ObjectId}

theorem Fits.parents_eq (h : l.Fits commit d) : d.parents = l.parentsFor commit := by
  rcases h with rfl | rfl <;> rfl

/-! ### An expansion by recursion over the entries -/

/-- The parents of a commit that can be read. -/
def parentsOf (r : Repository) (id : ObjectId) : List ObjectId :=
  match r.commit id with
  | .ok commit => commit.parents
  | .error _ => []

/-- What a commit stands for in the expansion of its children. The entries come newest first: the parents of a commit
    are older than the commit. -/
def share (r : Repository) : List Entry → ObjectId → List ObjectId
  | [], _ => []
  | ⟨commit, .keep new⟩ :: older, id => if commit = id then [new.id] else share r older id
  | ⟨commit, .drop _⟩ :: older, id =>
    if commit = id then (parentsOf r id).flatMap (share r older) else share r older id

/-- The full expansion of a commit. -/
def expansion (r : Repository) (l : Ledger) (id : ObjectId) : List ObjectId :=
  (parentsOf r id).flatMap (share r l.entries.toList.reverse)

theorem share_append {newer older : List Entry} (h : ∀ e ∈ newer, e.commit ≠ id) :
    share r (newer ++ older) id = share r older id := by
  induction newer with
  | nil => rfl
  | cons e newer ih =>
    have he : e.commit ≠ id := h e (by simp)
    have ih := ih fun e' he' => h e' (by simp [he'])
    rcases e with ⟨commit, new | substitutes⟩ <;> rw [List.cons_append, share, if_neg he, ih]

/-- The entries around a recorded commit: neither it nor an ancestor has one after it. -/
theorem Sound.split_entries (h : l.Sound r) (hd : l.find? id = some d) :
    ∃ older newer, l.entries.toList = older ++ ⟨id, d⟩ :: newer ∧ (∀ e ∈ newer, e.commit ≠ id) ∧
      ∀ p, r.Parent id p → p ≠ id ∧ ∀ e ∈ newer, e.commit ≠ p := by
  obtain ⟨older, newer, hsplit⟩ := List.append_of_mem ((find?_eq_some_iff h.indexed).1 hd)
  have hcommits : l.commits = older.map (·.commit) ++ id :: newer.map (·.commit) := by
    rw [commits, hsplit, List.map_append, List.map_cons]
  have hnodup := nodup_commits h.indexed
  rw [hcommits, List.nodup_append, List.nodup_cons] at hnodup
  obtain ⟨-, ⟨hid, -⟩, happart⟩ := hnodup
  refine ⟨older, newer, hsplit, fun e he heq => hid (List.mem_map.2 ⟨e, he, heq⟩), fun p hp => ?_⟩
  have hbefore := h.ordered _ _ _ hcommits p hp
  exact ⟨happart p hbefore id (by simp),
    fun e he heq => happart p hbefore e.commit (by simp [List.mem_map_of_mem he]) heq.symm⟩

theorem isExpansion_expansion (h : l.Sound r) : l.IsExpansion r (expansion r l) := by
  have hshare : ∀ p ∈ l.commits, share r l.entries.toList.reverse p = match l.find? p with
      | some (.keep new) => [new.id]
      | some (.drop _) => expansion r l p
      | none => [] := by
    intro p hp
    obtain ⟨d, hd⟩ := h.exists_find? hp
    obtain ⟨older, newer, hsplit, hself, hparents⟩ := h.split_entries hd
    -- Behind the entry of the parent come those of other commits, over which the look-up passes.
    have hreverse : l.entries.toList.reverse = newer.reverse ++ ⟨p, d⟩ :: older.reverse := by
      rw [hsplit]
      simp
    rw [hreverse, share_append fun e he => hself e (List.mem_reverse.1 he), hd]
    cases d with
    | keep new => rw [share, if_pos rfl]
    | drop substitutes =>
      rw [share, if_pos rfl, expansion, hreverse, List.flatMap_def, List.flatMap_def]
      congr 1
      refine List.map_congr_left fun q hq => ?_
      obtain ⟨commit, hload⟩ := h.loads p hp
      rw [parentsOf, hload.1] at hq
      obtain ⟨hne, hnewer⟩ := hparents q ((hload.parent_iff q).2 hq)
      rw [share_append fun e he => hnewer e (List.mem_reverse.1 he), share, if_neg hne.symm]
  intro id hid commit hread
  rw [expansion, parentsOf, hread, List.flatMap_def, List.flatMap_def]
  congr 1
  refine List.map_congr_left fun p hp => ?_
  exact hshare p (h.parent_mem hid ⟨commit, hread, hp⟩)

/-! ### What the ledger holds -/

/-- The parents that a commit gets are its full expansion, reduced once. -/
theorem Sound.parentsFor_eq (h : l.Sound r) (he : l.IsExpansion r expand) :
    ∀ id ∈ l.commits, ∀ commit, r.commit id = .ok commit → l.parentsFor commit = (expand id).eraseDups := by
  refine h.ancestral fun id hid commit hload ih found hfound => ?_
  obtain rfl : found = commit := Except.ok.inj (hfound.symm.trans hload.1)
  let part (p : ObjectId) : List ObjectId :=
    match l.find? p with
    | some (.keep new) => [new.id]
    | some (.drop _) => expand p
    | none => []
  -- A new id stands alone, and a dropped parent stands for its own expansion, already reduced.
  have hpart : ∀ p ∈ found.parents, l.standIns p = (part p).eraseDups := by
    intro p hp
    obtain ⟨hmem, hexpand⟩ := ih p hp
    obtain ⟨d, hd⟩ := h.exists_find? hmem
    simp only [standIns, part, hd]
    cases d with
    | keep new => rfl
    | drop substitutes =>
      obtain ⟨parent, hparent⟩ := h.loads p hmem
      have hfits := (h.fits p _ parent hd hparent).parents_eq
      exact hfits.trans (hexpand parent hparent.1)
  calc l.parentsFor found
      = (found.parents.flatMap fun p => (part p).eraseDups).eraseDups := by
        rw [parentsFor, List.flatMap_def, List.flatMap_def, List.map_congr_left hpart]
    _ = (found.parents.flatMap part).eraseDups := FirstOccurrences.eraseDups_flatMap_eraseDups _ _
    _ = (expand id).eraseDups := by rw [he id hid found hfound]

theorem Sound.passesTo_of_mem (h : l.Sound r) (he : l.IsExpansion r expand) {x : ObjectId} :
    ∀ id ∈ l.commits, x ∈ expand id → ∃ k new, l.find? k = some (.keep new) ∧ new.id = x ∧ l.PassesTo r id k := by
  refine h.ancestral fun id hid commit hload ih hx => ?_
  rw [he id hid commit hload.1, List.mem_flatMap] at hx
  obtain ⟨p, hp, hx⟩ := hx
  obtain ⟨hmem, hrest⟩ := ih p hp
  have hparent : r.Parent id p := (hload.parent_iff p).2 hp
  obtain ⟨d, hd⟩ := h.exists_find? hmem
  rw [hd] at hx
  cases d with
  | keep new => exact ⟨p, new, hd, (List.mem_singleton.1 hx).symm, .parent hparent⟩
  | drop substitutes =>
    obtain ⟨k, new, hk, hnew, hpass⟩ := hrest hx
    exact ⟨k, new, hk, hnew, .through hparent (wasKept?_eq_false_iff.2 ⟨_, hd⟩) hpass⟩

theorem Sound.mem_of_passesTo (h : l.Sound r) (he : l.IsExpansion r expand) {k : ObjectId} {new : Replacement}
    (hk : l.find? k = some (.keep new)) (hpass : l.PassesTo r id k) (hid : id ∈ l.commits) : new.id ∈ expand id := by
  induction hpass with
  | parent hparent =>
    obtain ⟨commit, hread, hmem⟩ := hparent
    rw [he _ hid commit hread, List.mem_flatMap]
    refine ⟨_, hmem, ?_⟩
    rw [hk]
    simp
  | through hparent hdropped _ ih =>
    -- The dropped parent hands on what it is itself expanded to.
    have hp := ih hk (h.parent_mem hid hparent)
    obtain ⟨substitutes, hd⟩ := wasKept?_eq_false_iff.1 hdropped
    obtain ⟨commit, hread, hmem⟩ := hparent
    rw [he _ hid commit hread, List.mem_flatMap]
    refine ⟨_, hmem, ?_⟩
    rw [hd]
    exact hp

theorem Sound.mem_parentsFor_iff (h : l.Sound r) (hid : id ∈ l.commits) (hread : r.commit id = .ok commit)
    {x : ObjectId} :
    x ∈ l.parentsFor commit ↔ ∃ k new, l.find? k = some (.keep new) ∧ new.id = x ∧ l.PassesTo r id k := by
  have he := isExpansion_expansion h
  rw [h.parentsFor_eq he id hid commit hread, List.mem_eraseDups]
  constructor
  · exact h.passesTo_of_mem he id hid
  · rintro ⟨k, new, hk, rfl, hpass⟩
    exact h.mem_of_passesTo he hk hpass hid

/-- After any walks over one repository, the parents of a kept commit, or what a dropped one leaves, are its full
    expansion reduced to first occurrences: all the kept commits that are met over dropped ones, and no others. -/
theorem parents_eq_expansion (h : Walk.Reached r l) :
    (∃ expand, l.IsExpansion r expand) ∧
      ∀ expand, l.IsExpansion r expand → ∀ id ∈ l.commits, ∃ d, l.find? id = some d ∧
        d.parents = (expand id).eraseDups ∧ d.parents.Nodup ∧
        ∀ x, x ∈ d.parents ↔ ∃ k new, l.find? k = some (.keep new) ∧ new.id = x ∧ l.PassesTo r id k := by
  have hsound := Sound.of_reached h
  refine ⟨⟨_, isExpansion_expansion hsound⟩, fun expand he id hid => ?_⟩
  obtain ⟨d, hd⟩ := hsound.exists_find? hid
  obtain ⟨commit, hload⟩ := hsound.loads id hid
  have hparents := (hsound.fits id d commit hd hload).parents_eq
  refine ⟨d, hd, ?_, ?_, fun x => ?_⟩
  · rw [hparents]
    exact hsound.parentsFor_eq he id hid commit hload.1
  · rw [hparents]
    exact FirstOccurrences.nodup_eraseDups _
  · rw [hparents]
    exact hsound.mem_parentsFor_iff hid hload.1

/-- Two merges of the same two commits, in both orders, and a merge of these merges. -/
def crissCross : Repository :=
  .ofParents [(⟨1⟩, []), (⟨2⟩, [⟨1⟩]), (⟨3⟩, [⟨1⟩, ⟨2⟩]), (⟨4⟩, [⟨2⟩, ⟨1⟩]), (⟨5⟩, [⟨3⟩, ⟨4⟩])]

/-- The merges in the middle are dropped. -/
def crissCrossLedger : Ledger := (crissCross.run (Walk.run (fun id _ _ => id ∉ [⟨3⟩, ⟨4⟩]) {} ⟨5⟩)).1

theorem parents_of_crissCross :
    Walk.Reached crissCross crissCrossLedger ∧
    crissCrossLedger.commits = [⟨1⟩, ⟨2⟩, ⟨3⟩, ⟨4⟩, ⟨5⟩] ∧
    ∃ d, crissCrossLedger.find? ⟨5⟩ = some d ∧ d.parents.Nodup ∧
      ∀ x, x ∈ d.parents ↔
        ∃ k new, crissCrossLedger.find? k = some (.keep new) ∧ new.id = x ∧
          crissCrossLedger.PassesTo crissCross ⟨5⟩ k := by
  have hreached : Walk.Reached crissCross crissCrossLedger := .run .empty _ _
  have hcommits : crissCrossLedger.commits = [⟨1⟩, ⟨2⟩, ⟨3⟩, ⟨4⟩, ⟨5⟩] := by
    have hturns : (Walk.turns crissCross (fun id _ _ => id ∉ [⟨3⟩, ⟨4⟩]) 20
        ⟨{}, {⟨5⟩}, [⟨⟨5⟩, Repository.bare [⟨3⟩, ⟨4⟩], [⟨3⟩, ⟨4⟩]⟩]⟩).map (·.1.commits)
          = some [⟨1⟩, ⟨2⟩, ⟨3⟩, ⟨4⟩, ⟨5⟩] := by
      decide +kernel
    obtain ⟨ended, hended, hcommits⟩ := Option.map_eq_some_iff.1 hturns
    rw [crissCrossLedger, Walk.run_ledger, Walk.run_visit_of_turns (by rfl) ⟨by rfl, rfl⟩ hended]
    exact hcommits
  obtain ⟨⟨expand, hexpand⟩, hall⟩ := parents_eq_expansion hreached
  obtain ⟨d, hd, -, hnodup, hmem⟩ := hall expand hexpand ⟨5⟩ (by simp [hcommits])
  exact ⟨hreached, hcommits, d, hd, hnodup, hmem⟩

end Ledger

end PrunedHistory
