import Mathlib.Data.List.Sort
import PrunedHistory.NameMap

/-! Name maps filled one entry after the other

    A later entry goes over an earlier one of the same name, so a name is found with the value of one of its entries,
    and with a given value if all its entries have that one. Maps are equal if they answer alike, so entries of distinct
    names may come in any order. -/

namespace PrunedHistory.NameMap

variable {α β : Type} {m : NameMap α} {name : String} {value : α} {entries : List (String × α)}

def insertAll (m : NameMap α) (entries : List (String × α)) : NameMap α :=
  entries.foldl (fun m entry => m.insert entry.1 entry.2) m

@[simp] theorem get?_empty (name : String) : (∅ : NameMap α).get? name = none := rfl

@[simp] theorem insertAll_nil (m : NameMap α) : m.insertAll [] = m := rfl

@[simp] theorem insertAll_cons (m : NameMap α) (entry : String × α) (entries : List (String × α)) :
    m.insertAll (entry :: entries) = (m.insert entry.1 entry.2).insertAll entries := rfl

theorem insertAll_append (m : NameMap α) (entries more : List (String × α)) :
    m.insertAll (entries ++ more) = (m.insertAll entries).insertAll more := List.foldl_append

theorem mem_or_of_get?_insertAll : ∀ {entries : List (String × α)} {m : NameMap α},
    (m.insertAll entries).get? name = some value → (name, value) ∈ entries ∨ m.get? name = some value
  | [], _, h => .inr h
  | (key, held) :: entries, m, h => by
      rw [insertAll_cons] at h
      rcases mem_or_of_get?_insertAll h with hmem | hget
      · exact .inl (List.mem_cons_of_mem _ hmem)
      · rw [get?_insert] at hget
        split at hget
        · rename_i hname
          obtain rfl := Option.some.inj hget
          exact .inl (by simp [hname])
        · exact .inr hget

theorem mem_of_get?_insertAll (h : ((∅ : NameMap α).insertAll entries).get? name = some value) :
    (name, value) ∈ entries := by
  rcases mem_or_of_get?_insertAll h with hmem | hget
  · exact hmem
  · cases hget

/-- A name is found with its value if no other entry of that name has another value. -/
theorem get?_insertAll : ∀ {entries : List (String × α)} {m : NameMap α},
    ((name, value) ∈ entries ∨ m.get? name = some value) → (∀ other, (name, other) ∈ entries → other = value) →
    (m.insertAll entries).get? name = some value
  | [], m, h, _ => by
      rcases h with hmem | hget
      · cases hmem
      · exact hget
  | (key, held) :: entries, m, h, hall => by
      rw [insertAll_cons]
      refine get?_insertAll ?_ fun other hother => hall other (List.mem_cons_of_mem _ hother)
      -- The first entry may be the one looked for; a later one under the name holds the same value.
      rw [get?_insert]
      split
      · rename_i hname
        subst hname
        exact .inr (congrArg some (hall held (by simp)))
      · rename_i hname
        rcases h with hmem | hget
        · rcases List.mem_cons.1 hmem with heq | hmem
          · exact absurd (Prod.mk.inj heq).1 hname
          · exact .inl hmem
        · exact .inr hget

/-- A name with an entry is found. -/
theorem exists_get?_insertAll : ∀ {entries : List (String × α)} {m : NameMap α},
    ((∃ value, (name, value) ∈ entries) ∨ ∃ value, m.get? name = some value) →
    ∃ value, (m.insertAll entries).get? name = some value
  | [], _, h => h.resolve_left (by simp)
  | (key, held) :: entries, m, h => by
      rw [insertAll_cons]
      refine exists_get?_insertAll ?_
      simp only [get?_insert]
      by_cases hname : name = key
      · exact .inr ⟨held, if_pos hname⟩
      · simp only [if_neg hname]
        rcases h with ⟨value, hmem⟩ | hget
        · rcases List.mem_cons.1 hmem with heq | hmem
          · exact absurd (Prod.mk.inj heq).1 hname
          · exact .inl ⟨value, hmem⟩
        · exact .inr hget

/-- A name without an entry is found as before. -/
theorem get?_insertAll_of_not_mem (h : ∀ value, (name, value) ∉ entries) :
    (m.insertAll entries).get? name = m.get? name := by
  ext value
  exact ⟨fun hget => (mem_or_of_get?_insertAll hget).resolve_left (h value),
    fun hget => get?_insertAll (.inr hget) fun other hother => absurd hother (h other)⟩

/-- Changing every value on the way in is changing what is found. -/
theorem get?_insertAll_map (f : α → β) : ∀ (entries : List (String × α)) {m : NameMap α} {n : NameMap β},
    (∀ name, n.get? name = (m.get? name).map f) →
    ∀ name, (n.insertAll (entries.map fun entry => (entry.1, f entry.2))).get? name
      = ((m.insertAll entries).get? name).map f
  | [], m, n, h, name => h name
  | (key, held) :: entries, m, n, h, name => by
      rw [List.map_cons, insertAll_cons, insertAll_cons]
      refine get?_insertAll_map f entries (fun other => ?_) name
      rw [get?_insert, get?_insert]
      split
      · rfl
      · exact h other

/-- What is found under a name is its entry. -/
theorem mem_entries_iff : (name, value) ∈ m.entries ↔ m.get? name = some value := by
  obtain ⟨entries, hsorted⟩ := m
  simp only [get?]
  induction entries with
  | nil => simp
  | cons entry rest ih =>
    obtain ⟨key, held⟩ := entry
    obtain ⟨hlt, hrest⟩ := List.pairwise_cons.1 hsorted
    rw [lookup_pair_cons, List.mem_cons, ih hrest]
    split
    · rename_i hname
      subst hname
      constructor
      · rintro (heq | hget)
        · cases heq
          rfl
        · -- The names behind the first are greater, so none of them is the same.
          exact absurd (hlt _ ((ih hrest).2 hget)) (String.lt_irrefl name)
      · rintro ⟨⟩
        exact .inl rfl
    · rename_i hname
      refine or_iff_right fun heq => hname ?_
      cases heq
      rfl

/-- Maps that answer alike are equal: both list the same entries, in name order. -/
theorem ext_get? {m n : NameMap α} (h : ∀ name, m.get? name = n.get? name) : m = n := by
  have hirrefl : Std.Irrefl fun a b : String × α => a.1 < b.1 := ⟨fun a => String.lt_irrefl a.1⟩
  have hantisymm : Std.Antisymm fun a b : String × α => a.1 < b.1 :=
    ⟨fun a b hab hba => absurd (String.lt_trans hab hba) (String.lt_irrefl a.1)⟩
  refine ext (m.sorted.eq_of_mem_iff n.sorted fun (name, value) => ?_)
  rw [mem_entries_iff, mem_entries_iff, h]

/-- Where no name comes twice, what is found under a name is its entry. -/
theorem get?_insertAll_iff (hnames : (entries.map (·.1)).Nodup) :
    ((∅ : NameMap α).insertAll entries).get? name = some value ↔ (name, value) ∈ entries := by
  refine ⟨mem_of_get?_insertAll, fun hmem => get?_insertAll (.inl hmem) fun other hother => ?_⟩
  have hsame := List.inj_on_of_nodup_map hnames hother hmem rfl
  exact (Prod.mk.inj hsame).2

/-- Entries in name order are the whole map. -/
theorem entries_insertAll (hsorted : entries.Pairwise fun a b => a.1 < b.1) :
    ((∅ : NameMap α).insertAll entries).entries = entries := by
  have hnames : (entries.map (·.1)).Nodup := by
    rw [List.Nodup, List.pairwise_map]
    exact hsorted.imp fun hlt => String.ne_of_lt hlt
  have hmap : (∅ : NameMap α).insertAll entries = ⟨entries, hsorted⟩ := by
    refine ext_get? fun name => ?_
    ext value
    rw [get?_insertAll_iff hnames, ← mem_entries_iff]
  rw [hmap]

theorem insertAll_perm {more : List (String × α)} (hnames : (entries.map (·.1)).Nodup) (hperm : entries.Perm more) :
    (∅ : NameMap α).insertAll entries = (∅ : NameMap α).insertAll more := by
  have hnames' : (more.map (·.1)).Nodup := (hperm.map _).nodup_iff.1 hnames
  refine ext_get? fun name => ?_
  ext value
  rw [get?_insertAll_iff hnames, get?_insertAll_iff hnames', hperm.mem_iff]

end PrunedHistory.NameMap
