import PrunedHistory.Proofs.Walk.Exploring

/-! Why a walk fails

    What a walk explores is part of what its head reaches, whatever is recorded before. So a walk fails at a commit that
    its head reaches: that commit cannot be loaded, or it is its own ancestor. A history that is all there and has no
    cycle is not to blame. -/

namespace PrunedHistory

/-- What a walk from the commit met when it failed. -/
def Repository.Blames (r : Repository) (start : ObjectId) : WalkError → Prop
  | .read e => ∃ id, r.Reaches start id ∧ r.run (Walk.load id) = .error (.read e)
  | .cycle id => r.Reaches start id ∧ r.Descends id id
  | .ledger _ => False

/-- All that the commit reaches can be loaded, and none of it is its own ancestor. -/
structure Repository.Whole (r : Repository) (start : ObjectId) : Prop where
  loads : ∀ id, r.Reaches start id → ∃ commit, r.Loads id commit
  acyclic : ∀ id, r.Reaches start id → ¬r.Descends id id

variable {r : Repository} {select : Selection} {l : Ledger} {start id : ObjectId} {e : WalkError}

theorem Walk.run_load_of_loads {commit : Commit} (h : r.Loads id commit) : r.run (Walk.load id) = .ok commit := by
  rw [run_load, h.1]
  simp only [h.2]

/-- A whole history is not to blame for any failure. -/
theorem Repository.Whole.not_blames (h : r.Whole start) : ¬r.Blames start e := by
  intro hblames
  cases e with
  | read e =>
    obtain ⟨id, hreach, hload⟩ := hblames
    obtain ⟨commit, hloads⟩ := h.loads id hreach
    rw [Walk.run_load_of_loads hloads] at hload
    cases hload
  | cycle id => exact h.acyclic id hblames.1 hblames.2
  | ledger e => exact hblames

/-- In a list of commits that holds all their parents, each with a lower id than its child, every commit is whole. -/
theorem Repository.whole_of_parents (graph : List (ObjectId × List ObjectId))
    (hcommit : r.commit = (ofParents graph).commit) (htree : ∀ id, r.hasTree id = .ok true)
    (hparents : ∀ entry ∈ graph, ∀ p ∈ entry.2, p ∈ graph.map (·.1) ∧ p.bits.toNat < entry.1.bits.toNat)
    (hid : id ∈ graph.map (·.1)) : r.Whole id := by
  have hparent : ∀ {a b}, r.Parent a b → b ∈ graph.map (·.1) ∧ b.bits.toNat < a.bits.toNat := by
    rintro a b ⟨commit, hread, hb⟩
    rw [hcommit, ofParents] at hread
    dsimp only at hread
    split at hread
    · rename_i parents hlookup
      cases hread
      obtain ⟨before, after, rfl, -⟩ := List.lookup_eq_some_iff.1 hlookup
      exact hparents (a, parents) (by simp) b hb
    · cases hread
  refine ⟨fun a ha => ?loads, fun a _ ha => ?acyclic⟩
  case loads =>
    have hmem : a ∈ graph.map (·.1) := by
      induction ha with
      | refl => exact hid
      | tail _ h _ => exact (hparent h).1
    have hread : ∃ commit, r.commit a = .ok commit := by
      rw [hcommit, ofParents]
      dsimp only
      split
      · exact ⟨_, rfl⟩
      · rename_i hnone
        obtain ⟨entry, hentry, rfl⟩ := List.mem_map.1 hmem
        exact absurd (List.lookup_eq_none_iff.1 hnone entry hentry) (by simp)
    obtain ⟨commit, hread⟩ := hread
    exact ⟨commit, hread, htree _⟩
  case acyclic =>
    -- Ids fall on every way down, so none of them leads back.
    have hfalls : ∀ {a b}, r.Descends a b → b.bits.toNat < a.bits.toNat := by
      intro a b h
      induction h with
      | single h => exact (hparent h).2
      | tail _ h ih => exact Nat.lt_trans (hparent h).2 ih
    exact Nat.lt_irrefl _ (hfalls ha)

namespace Walk

/-- A walk fails only where its head reaches a commit that cannot be loaded or is its own ancestor. -/
theorem blames_of_run (hl : l.Indexed) (h : (r.run (run select l start)).2 = .error e) : r.Blames start e := by
  have hmet : Met r r.Parent start e := met_of_run hl (fun _ _ hparent _ => hparent) h
  cases e with
  | read e => exact hmet
  | cycle id => exact hmet
  | ledger e => exact hmet

end Walk

end PrunedHistory
