import Mathlib.Logic.Relation
import PrunedHistory.Repository.Query

/-! Ancestry in a repository -/

namespace PrunedHistory.Repository

variable (r : Repository)

/-- The commit can be read and lists the parent. -/
def Parent (child parent : ObjectId) : Prop := ∃ commit, r.commit child = .ok commit ∧ parent ∈ commit.parents

/-- A way from the first commit to the second over any number of parents, or over none. -/
abbrev Reaches : ObjectId → ObjectId → Prop := Relation.ReflTransGen r.Parent

/-- A way from the first commit to the second over one parent or more. -/
abbrev Descends : ObjectId → ObjectId → Prop := Relation.TransGen r.Parent

/-- The commit can be read, and its tree is present. -/
def Loads (id : ObjectId) (commit : Commit) : Prop := r.commit id = .ok commit ∧ r.hasTree commit.tree = .ok true

/-- Every commit is found under its own id. -/
def ContentAddressed : Prop := ∀ id commit, r.commit id = .ok commit → commit.id = id

variable {r} {id : ObjectId} {commit : Commit}

theorem Loads.parent_iff (h : r.Loads id commit) (parent : ObjectId) :
    r.Parent id parent ↔ parent ∈ commit.parents := by
  constructor
  · rintro ⟨other, ho, hp⟩
    rw [h.1] at ho
    cases ho
    exact hp
  · exact fun hp => ⟨commit, h.1, hp⟩

/-- Ids among which are the parents of each of them hold whatever one of them reaches. -/
theorem mem_of_reaches (ids : List ObjectId) {start : ObjectId}
    (hclosed : ∀ a ∈ ids, ∀ commit ∈ (r.commit a).toOption, ∀ p ∈ commit.parents, p ∈ ids) (hstart : start ∈ ids)
    (h : r.Reaches start id) : id ∈ ids := by
  induction h with
  | refl => exact hstart
  | @tail a p _ hparent ih =>
    obtain ⟨commit, hread, hp⟩ := hparent
    exact hclosed a ih commit (by rw [hread]; rfl) p hp

/-! ### Small repositories -/

/-- A commit of which nothing but the parents tells it from another. -/
def bare (parents : List ObjectId) : Commit where
  tree := ⟨0⟩
  parents
  author := ⟨"a", "b", 0, 0, false, false⟩
  committer := ⟨"a", "b", 0, 0, false, false⟩
  message := ""

/-- Commits by chosen ids, all with their trees; any other commit is missing. -/
def ofParents (graph : List (ObjectId × List ObjectId)) : Repository where
  commit id :=
    match graph.lookup id with
    | some parents => .ok (bare parents)
    | none => .error (.missingObject id)
  tag id := .error (.missingObject id)
  hasTree _ := .ok true
  resolve name := .error (.unknownRef name)
  tags := .ok []

theorem mem_of_ofParents {graph : List (ObjectId × List ObjectId)} (h : (ofParents graph).commit id = .ok commit) :
    id ∈ graph.map (·.1) := by
  simp only [ofParents] at h
  cases hl : graph.lookup id with
  | none =>
    rw [hl] at h
    cases h
  | some parents =>
    obtain ⟨before, after, rfl, -⟩ := List.lookup_eq_some_iff.1 hl
    simp

end PrunedHistory.Repository
