import PrunedHistory.Proofs.Ledger.Recording
import PrunedHistory.Proofs.Repository.Ancestry
import PrunedHistory.Walk

/-! How a ledger grows

    Whatever a walk does to the ledger is a row of single steps: a commit that can be read with its tree, is not
    recorded and has all its parents recorded gets its decision. So what is recorded stays, at its place and as it is,
    and every decision that comes to it is the judgement of the selection. -/

namespace PrunedHistory

/-- What stands for a recorded commit as a parent; nothing for one that is not recorded. -/
def Ledger.standIns (l : Ledger) (id : ObjectId) : List ObjectId := ((l.find? id).map (·.substitutes)).getD []

/-- The parents that a commit gets: what stands for its own, side by side, each id at its first place only. -/
def Ledger.parentsFor (l : Ledger) (commit : Commit) : List ObjectId := (commit.parents.flatMap l.standIns).eraseDups

/-- Every decision of the first ledger is in the second. -/
def Ledger.Extends (l l' : Ledger) : Prop := ∀ id d, l.find? id = some d → l'.find? id = some d

theorem Ledger.Extends.wasKept?_eq {l l' : Ledger} (h : l.Extends l') {id : ObjectId} {d : Decision}
    (hd : l.find? id = some d) : l'.wasKept? id = l.wasKept? id := by
  rw [wasKept?, wasKept?, hd, h id d hd]

namespace Walk

variable {r : Repository} {select : Selection} {l l' : Ledger} {id other : ObjectId} {commit : Commit} {d : Decision}

/-! ### Settling one commit -/

theorem substitutes_of_find? (h : l.find? id = some d) : l.substitutes id = .ok (l.standIns id) := by
  rw [Ledger.substitutes, Ledger.decision, Ledger.standIns, h]
  rfl

theorem substitutes_of_find?_none (h : l.find? id = none) : l.substitutes id = .error (.notProcessed id) := by
  rw [Ledger.substitutes, Ledger.decision, h]
  rfl

theorem mapM_substitutes : ∀ {ids : List ObjectId}, (∀ id ∈ ids, ∃ d, l.find? id = some d) →
    ids.mapM l.substitutes = .ok (ids.map l.standIns)
  | [], _ => rfl
  | id :: ids, h => by
      obtain ⟨d, hd⟩ := h id (by simp)
      rw [List.mapM_cons, substitutes_of_find? hd, mapM_substitutes fun other ho => h other (by simp [ho])]
      rfl

theorem find?_of_mapM_substitutes : ∀ {ids : List ObjectId} {xss : List (List ObjectId)},
    ids.mapM l.substitutes = .ok xss → ∀ id ∈ ids, ∃ d, l.find? id = some d
  | first :: ids, xss, h, id, hid => by
      rw [List.mapM_cons] at h
      cases hf : l.find? first with
      | none =>
        rw [substitutes_of_find?_none hf] at h
        cases h
      | some d =>
        rw [substitutes_of_find? hf] at h
        rcases List.mem_cons.1 hid with rfl | hid
        · exact ⟨d, hf⟩
        · cases hm : ids.mapM l.substitutes with
          | error e =>
            rw [hm] at h
            cases h
          | ok yss => exact find?_of_mapM_substitutes hm id hid

/-- The new parents are there exactly if every parent is recorded. -/
theorem newParents_eq_ok_iff {xs : List ObjectId} : newParents l commit.parents = .ok xs ↔
    (∀ p ∈ commit.parents, ∃ d, l.find? p = some d) ∧ xs = l.parentsFor commit := by
  unfold newParents Ledger.parentsFor
  constructor
  · intro h
    cases hm : commit.parents.mapM l.substitutes with
    | error e =>
      rw [hm] at h
      cases h
    | ok xss =>
      -- The look-ups succeed only together, so each parent is recorded.
      have hall := find?_of_mapM_substitutes hm
      rw [mapM_substitutes hall] at h
      cases h
      exact ⟨hall, by rw [List.flatMap_def]⟩
  · rintro ⟨hall, rfl⟩
    rw [mapM_substitutes hall, List.flatMap_def]
    rfl

theorem settle_eq_ok_iff : settle select l id commit = .ok l' ↔
    (∀ p ∈ commit.parents, ∃ d, l.find? p = some d) ∧
      l.record id (judge select id commit (l.parentsFor commit)) = .ok l' := by
  unfold settle
  constructor
  · intro h
    cases hp : newParents l commit.parents with
    | error e =>
      rw [hp] at h
      cases h
    | ok parents =>
      obtain ⟨hall, rfl⟩ := newParents_eq_ok_iff.1 hp
      rw [hp] at h
      exact ⟨hall, h⟩
  · rintro ⟨hall, h⟩
    rw [newParents_eq_ok_iff.2 ⟨hall, rfl⟩]
    exact h

/-- A commit can be settled if it is not recorded and all its parents are. -/
theorem exists_settle (hl : l.Indexed) (hid : id ∉ l.commits) (hp : ∀ p ∈ commit.parents, p ∈ l.commits) :
    ∃ l', settle select l id commit = .ok l' := by
  have hall : ∀ p ∈ commit.parents, ∃ d, l.find? p = some d := fun p hmem =>
    (Ledger.mem_commits_iff_find? hl).1 (hp p hmem)
  have hnew : l.contains id = false := by
    rw [← Bool.not_eq_true, Ledger.contains_iff_mem_commits hl]
    exact hid
  have hrec := Ledger.record_eq_ok_iff (d := judge select id commit (l.parentsFor commit)) |>.2 ⟨hnew, rfl⟩
  exact ⟨_, settle_eq_ok_iff.2 ⟨hall, hrec⟩⟩

theorem commits_of_settle (h : settle select l id commit = .ok l') : l'.commits = l.commits ++ [id] := by
  obtain ⟨-, hrec⟩ := settle_eq_ok_iff.1 h
  exact Ledger.commits_record hrec

/-! ### Growing -/

/-- One commit, read with its tree, is settled. -/
def Settles (r : Repository) (select : Selection) (l l' : Ledger) : Prop :=
  ∃ id commit, r.Loads id commit ∧ settle select l id commit = .ok l'

/-- Any number of commits are settled, one after the other. -/
abbrev Grows (r : Repository) (select : Selection) : Ledger → Ledger → Prop :=
  Relation.ReflTransGen (Settles r select)

theorem Settles.indexed (h : Settles r select l l') (hl : l.Indexed) : l'.Indexed := by
  obtain ⟨id, commit, -, hs⟩ := h
  obtain ⟨-, hrec⟩ := settle_eq_ok_iff.1 hs
  exact Ledger.indexed_record hl hrec

theorem Grows.indexed (h : Grows r select l l') (hl : l.Indexed) : l'.Indexed := by
  induction h with
  | refl => exact hl
  | tail _ hs ih => exact hs.indexed ih

theorem Settles.keeps_entries (h : Settles r select l l') : l.entries.toList <+: l'.entries.toList := by
  obtain ⟨id, commit, -, hs⟩ := h
  obtain ⟨-, hrec⟩ := settle_eq_ok_iff.1 hs
  obtain ⟨-, rfl⟩ := Ledger.record_eq_ok_iff.1 hrec
  rw [Array.toList_push]
  exact List.prefix_append ..

/-- What is recorded stays, at its place. -/
theorem Grows.keeps_entries (h : Grows r select l l') : l.entries.toList <+: l'.entries.toList := by
  induction h with
  | refl => exact List.prefix_rfl
  | tail _ hs ih => exact ih.trans hs.keeps_entries

theorem Grows.extends (h : Grows r select l l') (hl : l.Indexed) : l.Extends l' := fun _ _ hd =>
  (Ledger.find?_eq_some_iff (h.indexed hl)).2 (h.keeps_entries.subset ((Ledger.find?_eq_some_iff hl).1 hd))

theorem Grows.commits_subset (h : Grows r select l l') : l.commits ⊆ l'.commits :=
  (h.keeps_entries.map _).subset

theorem isSome_replacement?_judge (select : Selection) (id : ObjectId) (commit : Commit) (parents : List ObjectId) :
    (judge select id commit parents).replacement?.isSome = select id commit parents := by
  rw [judge]
  cases select id commit parents <;> rfl

/-- A decision that was not there is the judgement of the selection. -/
theorem Grows.judged (h : Grows r select l l') (hl : l.Indexed) (hd : l'.find? id = some d) :
    l.find? id = some d ∨ ∃ commit parents, d = judge select id commit parents := by
  induction h with
  | refl => exact .inl hd
  | tail hg hs ih =>
    obtain ⟨settled, commit, -, hsettle⟩ := hs
    obtain ⟨-, hrec⟩ := settle_eq_ok_iff.1 hsettle
    rw [Ledger.find?_record (Grows.indexed hg hl) hrec] at hd
    split at hd
    · rename_i hid
      subst hid
      exact .inr ⟨commit, _, (Option.some.inj hd).symm⟩
    · exact ih hd

/-- A commit that comes to the ledger is kept if it is selected. -/
theorem Grows.wasKept?_of_new (h : Grows r select l l') (hl : l.Indexed) (hold : id ∉ l.commits)
    (hid : id ∈ l'.commits) : ∃ commit parents, l'.wasKept? id = some (select id commit parents) := by
  obtain ⟨d, hd⟩ := (Ledger.mem_commits_iff_find? (h.indexed hl)).1 hid
  rcases h.judged hl hd with hd' | ⟨commit, parents, rfl⟩
  · exact absurd ((Ledger.mem_commits_iff_find? hl).2 ⟨d, hd'⟩) hold
  · exact ⟨commit, parents, by rw [Ledger.wasKept?, hd, Option.map_some, isSome_replacement?_judge]⟩

end Walk

end PrunedHistory
