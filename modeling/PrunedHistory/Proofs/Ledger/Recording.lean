import PrunedHistory.Ledger

/-! The ledger as a write-once map

    A ledger that recording has built keeps its index and its entries in step: the slot of a commit is the place of
    its only entry. So `find?` answers from that entry, and one more entry changes no other answer. -/

namespace PrunedHistory.Ledger

/-- The recorded commits, in the order of recording. -/
def commits (l : Ledger) : List ObjectId := l.entries.toList.map (·.commit)

/-- Every ledger that recording builds. -/
inductive Recorded : Ledger → Prop where
  | empty : Recorded {}
  | record {l l' : Ledger} {id : ObjectId} {d : Decision} : Recorded l → l.record id d = .ok l' → Recorded l'

/-- A commit is indexed at a slot exactly if the entry there is its own. -/
def Indexed (l : Ledger) : Prop :=
  ∀ id slot, l.slots[id]? = some slot ↔ (l.entries[slot]?).map Entry.commit = some id

/-- The first commit is kept, and the second id is its new one. -/
def NewId (l : Ledger) (k id : ObjectId) : Prop := ∃ new, l.find? k = some (.keep new) ∧ new.id = id

/-- The commit is kept under another id. -/
structure Moves (l : Ledger) (k : ObjectId) (new : Replacement) : Prop where
  kept : l.find? k = some (.keep new)
  moved : new.id ≠ k

variable {l l' : Ledger} {id other : ObjectId} {d : Decision}

theorem NewId.unique {k : ObjectId} (h : l.NewId k id) (h' : l.NewId k other) : id = other := by
  obtain ⟨new, hkeep, rfl⟩ := h
  obtain ⟨new', hkeep', rfl⟩ := h'
  rw [hkeep] at hkeep'
  cases hkeep'
  rfl

theorem record_eq_ok_iff : l.record id d = .ok l' ↔
    l.contains id = false ∧ l' = { entries := l.entries.push ⟨id, d⟩, slots := l.slots.insert id l.entries.size } := by
  unfold record
  cases h : l.contains id
  · simp [eq_comm]
  · simp

theorem indexed_empty : Indexed {} := by
  intro id slot
  simp

theorem contains_empty : contains {} id = false := Std.TreeMap.contains_emptyc

theorem indexed_record (hl : l.Indexed) (h : l.record id d = .ok l') : l'.Indexed := by
  obtain ⟨hnew, rfl⟩ := record_eq_ok_iff.1 h
  have hfree : l.slots[id]? = none := Std.TreeMap.getElem?_eq_none_of_contains_eq_false hnew
  intro other slot
  rw [Std.TreeMap.getElem?_insert, Array.getElem?_push]
  -- The last place belongs to the new commit alone, and every other commit has the place that it had.
  by_cases hid : id = other
  · subst hid
    by_cases hslot : slot = l.entries.size
    · simp [hslot]
    · have hnone : (l.entries[slot]?).map (·.commit) ≠ some id := fun he => by
        rw [(hl id slot).2 he] at hfree
        cases hfree
      simpa [hslot, eq_comm] using hnone
  · have hc : compare id other ≠ .eq := fun he => hid (Std.LawfulEqOrd.eq_of_compare he)
    by_cases hslot : slot = l.entries.size
    · subst hslot
      simpa [hc, hid] using fun he => by simpa using (hl other l.entries.size).1 he
    · simpa [hc, hslot] using hl other slot

theorem Recorded.indexed (h : Recorded l) : l.Indexed := by
  induction h with
  | empty => exact indexed_empty
  | record _ hr ih => exact indexed_record ih hr

/-! ### Look-up -/

theorem find?_eq_some_iff (hl : l.Indexed) : l.find? id = some d ↔ ⟨id, d⟩ ∈ l.entries.toList := by
  rw [Array.mem_toList_iff, Array.mem_iff_getElem?]
  simp only [find?, Option.map_eq_some_iff, Option.bind_eq_some_iff]
  constructor
  · rintro ⟨e, ⟨slot, hs, he⟩, rfl⟩
    have hc := (hl id slot).1 hs
    rw [he] at hc
    cases hc
    exact ⟨slot, he⟩
  · rintro ⟨slot, he⟩
    exact ⟨⟨id, d⟩, ⟨slot, (hl id slot).2 (by rw [he]; rfl), he⟩, rfl⟩

theorem mem_commits_iff_find? (hl : l.Indexed) : id ∈ l.commits ↔ ∃ d, l.find? id = some d := by
  simp only [commits, List.mem_map, find?_eq_some_iff hl]
  constructor
  · rintro ⟨e, he, rfl⟩
    exact ⟨e.decision, he⟩
  · rintro ⟨d, hd⟩
    exact ⟨⟨id, d⟩, hd, rfl⟩

theorem contains_iff_mem_commits (hl : l.Indexed) : l.contains id = true ↔ id ∈ l.commits := by
  rw [contains, Std.TreeMap.contains_iff_mem, Std.TreeMap.mem_iff_isSome_getElem?, Option.isSome_iff_exists]
  simp only [hl id, commits, List.mem_map, Array.mem_toList_iff, Array.mem_iff_getElem?, Option.map_eq_some_iff]
  constructor
  · rintro ⟨slot, e, he, hid⟩
    exact ⟨e, ⟨slot, he⟩, hid⟩
  · rintro ⟨e, ⟨slot, he⟩, hid⟩
    exact ⟨slot, e, he, hid⟩

theorem nodup_commits (hl : l.Indexed) : l.commits.Nodup := by
  rw [commits, List.Nodup, List.pairwise_iff_getElem]
  intro i j hi hj hij he
  have hslot : ∀ k (hk : k < (l.entries.toList.map (·.commit)).length),
      l.slots[(l.entries.toList.map (·.commit))[k]]? = some k := by
    intro k hk
    rw [hl]
    simp only [List.length_map, Array.length_toList] at hk
    simp [hk]
  have hk := hslot i hi
  rw [he, hslot j hj] at hk
  exact absurd (Option.some.inj hk) (by omega)

theorem wasKept?_eq_true_iff : l.wasKept? id = some true ↔ ∃ new, l.find? id = some (.keep new) := by
  rw [wasKept?]
  rcases l.find? id with _ | _ | _ <;> simp [Decision.replacement?]

theorem wasKept?_eq_false_iff : l.wasKept? id = some false ↔ ∃ substitutes, l.find? id = some (.drop substitutes) := by
  rw [wasKept?]
  rcases l.find? id with _ | _ | _ <;> simp [Decision.replacement?]

theorem mem_kept_iff (hl : l.Indexed) {new : Replacement} : (id, new) ∈ l.kept ↔ l.find? id = some (.keep new) := by
  rw [kept, List.mem_filterMap, find?_eq_some_iff hl]
  constructor
  · rintro ⟨⟨commit, found | substitutes⟩, he, hpair⟩
    · cases hpair
      exact he
    · cases hpair
  · intro he
    exact ⟨_, he, rfl⟩

/-! ### One more entry -/

theorem commits_record (h : l.record id d = .ok l') : l'.commits = l.commits ++ [id] := by
  obtain ⟨-, rfl⟩ := record_eq_ok_iff.1 h
  simp [commits]

theorem find?_record (hl : l.Indexed) (h : l.record id d = .ok l') :
    l'.find? other = if id = other then some d else l.find? other := by
  have hl' := indexed_record hl h
  obtain ⟨hnew, rfl⟩ := record_eq_ok_iff.1 h
  ext found
  rw [find?_eq_some_iff hl']
  split
  · rename_i hid
    subst hid
    -- No older entry could be taken for the new one.
    have hfresh : ∀ d', ⟨id, d'⟩ ∉ l.entries.toList := fun d' hd => by
      have hmem : id ∈ l.commits := List.mem_map.2 ⟨_, hd, rfl⟩
      rw [(contains_iff_mem_commits hl).2 hmem] at hnew
      cases hnew
    simp only [Array.toList_push, List.mem_append, hfresh, List.mem_singleton, false_or, Option.some.injEq]
    constructor
    · rintro ⟨⟩
      rfl
    · rintro rfl
      rfl
  · rename_i hid
    rw [find?_eq_some_iff hl]
    simp only [Array.toList_push, List.mem_append, List.mem_singleton, Ledger.Entry.mk.injEq, or_iff_left_iff_imp]
    rintro ⟨rfl, -⟩
    exact absurd rfl hid

end PrunedHistory.Ledger
