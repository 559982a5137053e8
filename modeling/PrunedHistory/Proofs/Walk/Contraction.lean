import PrunedHistory.Proofs.Walk.OwnIds

/-! The kept commits as a graph

    The commits that replace kept ones, each with its new parents under its new id, make a graph of their own. Several
    commits may get one new id; the graph is that of the ledger if what stands under the id has the parents of each of
    their replacements. Main statements: such a graph is the source graph contracted to the kept commits, ancestor for
    ancestor in both directions, and it has no cycle. -/

namespace PrunedHistory.Ledger

/-- In the graph, the parents of every new id are those of the commit that it is the new id of. -/
def Draws (l : Ledger) (graph : ObjectId → ObjectId → Prop) : Prop :=
  ∀ k new, l.find? k = some (.keep new) → ∀ y, graph new.id y ↔ y ∈ new.commit.parents

variable {r : Repository} {l : Ledger} {graph : ObjectId → ObjectId → Prop} {id k a x y : ObjectId} {new : Replacement}

/-- No property goes on for ever from commits to ancestors of theirs. -/
theorem Sound.no_descent {P : ObjectId → Prop} (h : l.Sound r) (hP : ∀ a, P a → ∃ b, r.Descends a b ∧ P b) :
    ∀ id ∈ l.commits, ¬P id := by
  suffices hall : ∀ id ∈ l.commits, ∀ a, r.Reaches id a → ¬P a from fun id hid => hall id hid id .refl
  refine h.ancestral fun id hid commit hload ih a hreach ha => ?_
  obtain ⟨b, hdescends, hb⟩ := hP a ha
  obtain ⟨p, hparent, hpb⟩ := Relation.TransGen.head'_iff.1 (hdescends.trans_right hreach)
  exact (ih p ((hload.parent_iff p).1 hparent)).2 b hpb hb

/-- No recorded commit is its own ancestor. -/
theorem Sound.not_descends_self (h : l.Sound r) (hid : id ∈ l.commits) : ¬r.Descends id id :=
  h.no_descent (P := fun a => r.Descends a a) (fun a ha => ⟨a, ha, ha⟩) id hid

/-- The new parents of a kept commit are the new ids of the kept commits that it comes to over dropped ones. -/
theorem Sound.mem_newParents_iff (h : l.Sound r) (hkeep : l.find? k = some (.keep new)) :
    x ∈ new.commit.parents ↔ ∃ a, l.NewId a x ∧ l.PassesTo r k a := by
  obtain ⟨commit, hload⟩ := h.loads k (h.mem_of_find? hkeep)
  have hmem := h.mem_parentsFor_iff (h.mem_of_find? hkeep) hload.1 (x := x)
  rw [h.keep_eq hkeep hload]
  refine hmem.trans ⟨?_, ?_⟩
  · rintro ⟨a, new', hkeep', hnew', hpass⟩
    exact ⟨a, ⟨new', hkeep', hnew'⟩, hpass⟩
  · rintro ⟨a, ⟨new', hkeep', hnew'⟩, hpass⟩
    exact ⟨a, new', hkeep', hnew', hpass⟩

theorem Draws.edge_iff (hg : l.Draws graph) (h : l.Sound r) (hk : l.NewId k x) :
    graph x y ↔ ∃ a, l.NewId a y ∧ l.PassesTo r k a := by
  obtain ⟨new, hkeep, rfl⟩ := hk
  rw [hg k new hkeep y, h.mem_newParents_iff hkeep]

/-- On the way to a kept ancestor, the first kept commit is met over dropped ones, and the graph goes on from it. -/
theorem Draws.exists_passesTo (hg : l.Draws graph) (h : l.Sound r) (ha : l.NewId a y) (hd : r.Descends id a)
    (hid : id ∈ l.commits) : ∃ k x, l.PassesTo r id k ∧ l.NewId k x ∧ Relation.ReflTransGen graph x y := by
  induction hd using Relation.TransGen.head_induction_on with
  | single hparent => exact ⟨a, y, .parent hparent, ha, .refl⟩
  | @head id p hparent _ ih =>
    have hp := h.parent_mem hid hparent
    obtain ⟨k, x, hpass, hk, hway⟩ := ih hp
    obtain ⟨d, hd⟩ := h.exists_find? hp
    cases d with
    | keep new =>
      have hedge : graph new.id x := (hg.edge_iff h ⟨new, hd, rfl⟩).2 ⟨k, hk, hpass⟩
      exact ⟨p, new.id, .parent hparent, ⟨new, hd, rfl⟩, .head hedge hway⟩
    | drop substitutes =>
      exact ⟨k, x, .through hparent (wasKept?_eq_false_iff.2 ⟨_, hd⟩) hpass, hk, hway⟩

/-- A kept ancestor is an ancestor in the graph. -/
theorem Draws.transGen_of_descends (hg : l.Draws graph) (h : l.Sound r) (hk : l.NewId k x) (ha : l.NewId a y)
    (hd : r.Descends k a) : Relation.TransGen graph x y := by
  have hmem : k ∈ l.commits := by
    obtain ⟨new, hkeep, -⟩ := hk
    exact h.mem_of_find? hkeep
  obtain ⟨k', x', hpass, hk', hway⟩ := hg.exists_passesTo h ha hd hmem
  exact .head' ((hg.edge_iff h hk).2 ⟨k', hk', hpass⟩) hway

/-- An ancestor in the graph is the new id of a kept ancestor, of whichever commit it is looked at from. -/
theorem Draws.exists_descends (hg : l.Draws graph) (h : l.Sound r) (hk : l.NewId k x)
    (hway : Relation.TransGen graph x y) : ∃ a, r.Descends k a ∧ l.NewId a y := by
  induction hway with
  | single hedge =>
    obtain ⟨a, ha, hpass⟩ := (hg.edge_iff h hk).1 hedge
    exact ⟨a, hpass.descends, ha⟩
  | tail _ hedge ih =>
    obtain ⟨a, hka, ha⟩ := ih
    obtain ⟨b, hb, hpass⟩ := (hg.edge_iff h ha).1 hedge
    exact ⟨b, hka.trans hpass.descends, hb⟩

/-- A cycle through a new id would come back to it at ever older commits. -/
theorem Draws.acyclic (hg : l.Draws graph) (h : l.Sound r) (hk : l.NewId k x) : ¬Relation.TransGen graph x x := by
  intro hcycle
  have hmem : k ∈ l.commits := by
    obtain ⟨new, hkeep, -⟩ := hk
    exact h.mem_of_find? hkeep
  exact h.no_descent (P := fun a => l.NewId a x) (fun a ha => hg.exists_descends h ha hcycle) k hmem hk

end PrunedHistory.Ledger
