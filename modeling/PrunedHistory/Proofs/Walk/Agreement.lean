import Mathlib.Data.List.Nodup
import PrunedHistory.Proofs.Walk.Sound

/-! Walks and ledgers that agree

    Of a repository a walk sees what its head reaches, and of a selection what it says about these commits. Main
    statements: two walks that see the same ask for the same commits in the same order and leave the same ledger, entry
    for entry, whether or not they end well; and what a ledger holds for a commit hangs on nothing but which of the
    commits up to it are kept. -/

namespace PrunedHistory

namespace Walk

variable {r r' : Repository} {select select' : Selection} {l : Ledger} {id head : ObjectId} {commit : Commit}

/-- The commit is loaded alike from both repositories, and both selections say the same of it. -/
structure SeenAlike (r r' : Repository) (select select' : Selection) (id : ObjectId) : Prop where
  loaded : r'.run (load id) = r.run (load id)
  selected : ∀ commit parents, select' id commit parents = select id commit parents

theorem conclude_alike (h : SeenAlike r r' select select' id) (l : Ledger) (commit : Commit) :
    r'.run (conclude select' l id commit) = r.run (conclude select l id commit) := by
  have hjudge : ∀ parents, judge select' id commit parents = judge select id commit parents := by
    intro parents
    rw [judge, judge, h.selected]
  have hsettle : settle select' l id commit = settle select l id commit := by
    simp only [settle, hjudge]
  rw [conclude, conclude, hsettle]
  cases settle select l id commit <;> rfl

/-- Visits that see the same are the same, by induction over the calls. -/
theorem visits_alike (r r' : Repository) (select select' : Selection) :
    (∀ path l id, (∀ a, r.Reaches id a → SeenAlike r r' select select' a) →
      r'.run (visit select' path l id) = r.run (visit select path l id)) ∧
    ∀ path l parents, (∀ p ∈ parents, ∀ a, r.Reaches p a → SeenAlike r r' select select' a) →
      r'.run (visitParents select' path l parents) = r.run (visitParents select path l parents) := by
  refine visit.mutual_induct _ _ ?recorded ?read ?none ?passed ?cycle ?next
  case recorded =>
    intro path l id hin _
    rw [visit, visit, if_pos hin, if_pos hin]
    rfl
  case read =>
    intro path l id hin ih halike
    have hid := halike id .refl
    rw [visit, visit, if_neg hin, if_neg hin, Repository.run_bind, Repository.run_bind, hid.loaded]
    rcases loads_or_fails r id with ⟨commit, hrun, hload⟩ | ⟨e, hrun⟩
    · -- What the parents reach is reached from here.
      have hparents := ih commit fun p hp a ha => halike a (.head ((hload.parent_iff p).2 hp) ha)
      simp only [hrun, run_andThen, hparents]
      rcases r.run (visitParents select (id :: path) l commit.parents) with ⟨left, e | _⟩
      · rfl
      · exact conclude_alike hid left commit
    · simp only [hrun]
      rfl
  case none =>
    intro path l _
    rw [visitParents, visitParents]
    rfl
  case passed =>
    intro path l parent parents hin ih halike
    rw [visitParents, visitParents, if_pos hin, if_pos hin]
    exact ih fun p hp => halike p (List.mem_cons_of_mem _ hp)
  case cycle =>
    intro path l parent parents hin hpath _
    rw [visitParents, visitParents, if_neg hin, if_neg hin, if_pos hpath, if_pos hpath]
    rfl
  case next =>
    intro path l parent parents hin hpath ih₁ ih₂ halike
    have hfirst := ih₁ (halike parent (by simp))
    rw [visitParents, visitParents, if_neg hin, if_neg hin, if_neg hpath, if_neg hpath, run_andThen, run_andThen, hfirst]
    rcases r.run (visit select path l parent) with ⟨left, e | _⟩
    · rfl
    · exact ih₂ left fun p hp => halike p (List.mem_cons_of_mem _ hp)

/-- Walks that see the same are the same. -/
theorem run_alike (l : Ledger) (h : ∀ a, r.Reaches head a → SeenAlike r r' select select' a) :
    r'.run (run select' l head) = r.run (run select l head) := by
  have hvisit := (visits_alike r r' select select').1 [] l head h
  rw [run_eq_visit, run_eq_visit, hvisit]

end Walk

namespace Ledger

variable {r : Repository} {l l' : Ledger} {id : ObjectId} {commit : Commit} {d d' : Decision}

/-- Of the two decisions that fit a commit, one keeps it and one does not. -/
theorem Fits.unique (h : l.Fits commit d) (h' : l.Fits commit d')
    (hkept : d'.replacement?.isSome = d.replacement?.isSome) : d' = d := by
  rcases h with rfl | rfl <;> rcases h' with rfl | rfl
  · rfl
  · cases hkept
  · cases hkept
  · rfl

/-- Ledgers in which the same commits are kept hold the same for each of them. -/
theorem Sound.find?_eq_of_wasKept? (h : l.Sound r) (h' : l'.Sound r)
    (hkept : ∀ id ∈ l.commits, l'.wasKept? id = l.wasKept? id) : ∀ id ∈ l.commits, l'.find? id = l.find? id := by
  refine h.ancestral fun id hid commit hload ih => ?_
  obtain ⟨d, hd⟩ := h.exists_find? hid
  have hsome := hkept id hid
  rw [wasKept?, wasKept?, hd] at hsome
  obtain ⟨d', hd', hisSome⟩ := Option.map_eq_some_iff.1 hsome
  have hparents : l'.parentsFor commit = l.parentsFor commit := by
    rw [parentsFor, parentsFor, List.flatMap_def, List.flatMap_def]
    congr 2
    refine List.map_congr_left fun p hp => ?_
    rw [standIns, standIns, (ih p hp).2]
  have hfits := h'.fits id d' commit hd' hload
  rw [Fits, hparents] at hfits
  rw [hd, hd', (h.fits id d commit hd hload).unique hfits hisSome]

/-- Ledgers that hold the same have the same entries, each in an order of its own. -/
theorem entries_perm (hl : l.Indexed) (hl' : l'.Indexed) (h : ∀ id, l'.find? id = l.find? id) :
    l'.entries.toList.Perm l.entries.toList := by
  have hnodup : l.entries.toList.Nodup := List.Nodup.of_map Entry.commit (nodup_commits hl)
  have hnodup' : l'.entries.toList.Nodup := List.Nodup.of_map Entry.commit (nodup_commits hl')
  refine (List.perm_ext_iff_of_nodup hnodup' hnodup).2 fun ⟨id, d⟩ => ?_
  rw [← find?_eq_some_iff hl, ← find?_eq_some_iff hl', h]

end Ledger

end PrunedHistory
