import PrunedHistory.Proofs.Repository.Ancestry
import PrunedHistory.Repository.Store

/-! Stores address their commits by content

    An object is filed under its own id, also where that id was taken before, so in a store that is built by storing
    objects and setting refs, every commit is found under its own id. -/

namespace PrunedHistory.Store

/-- Every store that is built from the empty one. -/
inductive Built : Store → Prop where
  | empty : Built .empty
  | insertCommit {s : Store} (h : Built s) (c : Commit) : Built (s.insertCommit c)
  | insertTag {s : Store} (h : Built s) (t : Tag) : Built (s.insertTag t)
  | insertTree {s : Store} (h : Built s) (body : ByteArray) : Built (s.insertTree body)
  | setRef {s : Store} (h : Built s) (name : String) (id : ObjectId) : Built (s.setRef name id)

variable {s : Store} {id : ObjectId} {c : Commit}

theorem commit_eq_ok_iff : s.commit id = .ok c ↔ s.objects[id]? = some (.commit c) := by
  rw [commit]
  rcases s.objects[id]? with _ | (found | _ | _) <;> simp

theorem stored_of_read (h : s.repository.commit id = .ok c) : s.objects[id]? = some (.commit c) := commit_eq_ok_iff.1 h

theorem loads (hc : s.repository.commit id = .ok c) (ht : s.hasTree c.tree = true) : s.repository.Loads id c :=
  ⟨hc, congrArg Except.ok ht⟩

/-- One more object under some id: an object that is found is that one, or was found before. -/
theorem stored_of_insert {objects : Std.TreeMap ObjectId Stored} {key : ObjectId} {stored found : Stored}
    (h : (objects.insert key stored)[id]? = some found) : (key = id ∧ stored = found) ∨ objects[id]? = some found := by
  rw [Std.TreeMap.getElem?_insert] at h
  split at h
  · rename_i hkey
    exact .inl ⟨Std.LawfulEqOrd.eq_of_compare hkey, Option.some.inj h⟩
  · exact .inr h

theorem commit_of_insert {stored : Stored} {key : ObjectId} {refs : NameMap ObjectId}
    (h : commit { objects := s.objects.insert key stored, refs } id = .ok c) :
    (key = id ∧ stored = .commit c) ∨ s.commit id = .ok c := by
  rw [commit_eq_ok_iff] at h ⊢
  exact stored_of_insert h

theorem Built.contentAddressed (h : Built s) : s.repository.ContentAddressed := by
  induction h with
  | empty =>
    intro id c hc
    rw [repository, commit_eq_ok_iff] at hc
    simp [Store.empty] at hc
  | insertCommit _ c' ih =>
    intro id c hc
    rcases commit_of_insert hc with ⟨rfl, hstored⟩ | hold
    · cases hstored
      rfl
    · exact ih id c hold
  | insertTag _ t ih =>
    intro id c hc
    rcases commit_of_insert hc with ⟨-, hstored⟩ | hold
    · cases hstored
    · exact ih id c hold
  | insertTree _ body ih =>
    intro id c hc
    rcases commit_of_insert hc with ⟨-, hstored⟩ | hold
    · cases hstored
    · exact ih id c hold
  | setRef _ name target ih => exact ih

end PrunedHistory.Store
