/-! Maps in name order

    A finite map from names, kept as a list that is strictly sorted by name. Names compare by code points, which for
    their UTF-8 bytes is the same order. The list is unique: two maps with the same values are equal. -/

namespace PrunedHistory

/-- Strictly increasing names, each with its value. -/
structure NameMap (α : Type) where
  entries : List (String × α)
  sorted : entries.Pairwise fun a b => a.1 < b.1

namespace NameMap

variable {α : Type}

def empty : NameMap α := ⟨[], .nil⟩

instance : EmptyCollection (NameMap α) := ⟨empty⟩

instance : Inhabited (NameMap α) := ⟨empty⟩

@[ext] theorem ext {m n : NameMap α} (h : m.entries = n.entries) : m = n := by
  cases m; cases n; simp_all

instance [DecidableEq α] : DecidableEq (NameMap α) := fun m n =>
  decidable_of_iff (m.entries = n.entries) ⟨ext, fun h => h ▸ rfl⟩

/-- Puts a value in its place, in front of the first greater name, over an equal one. -/
def insertInto (name : String) (value : α) : List (String × α) → List (String × α)
  | [] => [(name, value)]
  | entry :: rest =>
    if name < entry.1 then (name, value) :: entry :: rest
    else if entry.1 < name then entry :: insertInto name value rest
    else (name, value) :: rest

theorem mem_insertInto {name : String} {value : α} {entry : String × α} :
    ∀ {l : List (String × α)}, entry ∈ insertInto name value l → entry = (name, value) ∨ entry ∈ l
  | [], h => by simpa [insertInto] using h
  | e :: rest, h => by
      unfold insertInto at h
      split at h
      · simpa using h
      split at h
      · rcases List.mem_cons.1 h with rfl | h
        · simp
        · rcases mem_insertInto h with h | h <;> simp [h]
      · rcases List.mem_cons.1 h with h | h <;> simp [h]

theorem sorted_insertInto {name : String} {value : α} :
    ∀ {l : List (String × α)}, l.Pairwise (fun a b => a.1 < b.1) →
      (insertInto name value l).Pairwise fun a b => a.1 < b.1
  | [], _ => by simp [insertInto]
  | e :: rest, h => by
      have ⟨hlt, hrest⟩ := List.pairwise_cons.1 h
      unfold insertInto
      split
      · rename_i hn
        exact List.pairwise_cons.2 ⟨fun x hx => by
          rcases List.mem_cons.1 hx with rfl | hx
          · exact hn
          · exact String.lt_trans hn (hlt x hx), h⟩
      split
      · rename_i hn
        exact List.pairwise_cons.2 ⟨fun x hx => by
          rcases mem_insertInto hx with rfl | hx
          · exact hn
          · exact hlt x hx, sorted_insertInto hrest⟩
      · rename_i h₁ h₂
        have : e.1 = name := String.le_antisymm (String.not_lt.1 h₁) (String.not_lt.1 h₂)
        exact List.pairwise_cons.2 ⟨fun x hx => this ▸ hlt x hx, hrest⟩

/-- Gives a name a value, in place of the one it had. -/
def insert (m : NameMap α) (name : String) (value : α) : NameMap α :=
  ⟨insertInto name value m.entries, sorted_insertInto m.sorted⟩

def get? (m : NameMap α) (name : String) : Option α := m.entries.lookup name

/-- The names there are, in order. -/
def names (m : NameMap α) : List String := m.entries.map (·.1)

theorem lookup_pair_cons (name key : String) (held : α) (rest : List (String × α)) :
    ((key, held) :: rest).lookup name = if name = key then some held else rest.lookup name := by
  rw [List.lookup_cons]
  by_cases h : name = key
  · simp [h]
  · simp [h, beq_eq_false_iff_ne.2 h]

theorem lookup_insertInto (name other : String) (value : α) : ∀ l : List (String × α),
    (insertInto name value l).lookup other = if other = name then some value else l.lookup other
  | [] => lookup_pair_cons other name value []
  | (key, held) :: rest => by
      have ih := lookup_insertInto name other value rest
      unfold insertInto
      split
      · rw [lookup_pair_cons]
      split
      · rename_i hlt
        rw [lookup_pair_cons, lookup_pair_cons, ih]
        by_cases he : other = key
        · have hn : other ≠ name := fun h => String.lt_irrefl key (by rw [← he, h] at hlt ⊢; exact hlt)
          rw [if_pos he, if_neg hn, if_pos he]
        · rw [if_neg he, if_neg he]
      · rename_i h₁ h₂
        have he : key = name := String.le_antisymm (String.not_lt.1 h₁) (String.not_lt.1 h₂)
        rw [lookup_pair_cons, lookup_pair_cons, he]
        split <;> rfl

@[simp] theorem get?_insert (m : NameMap α) (name other : String) (value : α) :
    (m.insert name value).get? other = if other = name then some value else m.get? other :=
  lookup_insertInto name other value m.entries

end NameMap

end PrunedHistory
