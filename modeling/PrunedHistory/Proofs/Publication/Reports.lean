import PrunedHistory.Publication.Report
import PrunedHistory.Proofs.Object.Encoding
import PrunedHistory.Proofs.Plans

/-! Reports read back

    A report has one table for the heads and one for the tags, each with exactly the names of the outcome, whatever
    characters these have, and each name with what the outcome says about it. So two outcomes with the same report have
    the same heads and the same tags. -/

namespace PrunedHistory

open Toml (Fields IsBareKey Members Section Value Writes)

theorem Retention.name_injective {r other : Retention} (h : r.name = other.name) : r = other := by
  have hread := congrArg ofName? h
  rw [ofName?_name, ofName?_name] at hread
  exact Option.some.inj hread

theorem ObjectId.chars_inj {id other : ObjectId} : id.chars = other.chars ↔ id = other :=
  ⟨chars_injective, congrArg chars⟩

/-! ### What is written about a head and about a tag -/

namespace HeadChange

variable {h other : HeadChange}

def fields (h : HeadChange) : Fields :=
  [("policy".toList, h.retention.name.toList), ("original".toList, h.before.chars),
    ("rewritten".toList, h.after.chars)]

theorem keys_nodup (h : HeadChange) : (h.fields.map (·.1)).Nodup := by
  simp [fields]

theorem fields_injective (heq : h.fields = other.fields) : h = other := by
  obtain ⟨retention, before, after⟩ := h
  simp only [fields, List.cons.injEq, Prod.mk.injEq, true_and, and_true, String.toList_inj, ObjectId.chars_inj] at heq
  obtain ⟨hretention, rfl, rfl⟩ := heq
  rw [Retention.name_injective hretention]

end HeadChange

namespace TagChange

variable {t other : TagChange}

/-- The ids of what is nowhere are left out. -/
def fields (t : TagChange) : Fields :=
  ("original".toList, t.before.chars)
    :: (t.after.toList.map fun id => ("rewritten".toList, id.chars))
    ++ t.commit.toList.map fun id => ("commit".toList, id.chars)

theorem keys_nodup (t : TagChange) : (t.fields.map (·.1)).Nodup := by
  cases hafter : t.after <;> cases hcommit : t.commit <;> simp [fields, hafter, hcommit]

theorem fields_injective (heq : t.fields = other.fields) : t = other := by
  obtain ⟨before, after, commit⟩ := t
  obtain ⟨before', after', commit'⟩ := other
  cases after <;> cases after' <;> cases commit <;> cases commit' <;> simp_all [fields, ObjectId.chars_inj]

end TagChange

/-! ### Groups -/

namespace NameMap

variable {α : Type} {fields : α → Fields}

/-- The tables that a group has for the names of a map. -/
def members (fields : α → Fields) (m : NameMap α) : Members :=
  m.entries.map fun (name, a) => (name.toList, fields a)

theorem members_distinct (hkeys : ∀ a, ((fields a).map (·.1)).Nodup) (m : NameMap α) :
    (m.members fields).Distinct where
  names := by
    have hne : m.entries.Pairwise fun a b => a.1.toList ≠ b.1.toList :=
      m.sorted.imp fun hlt heq => String.ne_of_lt hlt (String.toList_inj.1 heq)
    rw [members, List.map_map, List.Nodup, List.pairwise_map]
    exact hne
  keys := by
    intro member hmember
    obtain ⟨⟨name, a⟩, -, rfl⟩ := List.mem_map.1 hmember
    exact hkeys a

theorem members_injective (hfields : ∀ {a b}, fields a = fields b → a = b) {m n : NameMap α}
    (h : m.members fields = n.members fields) : m = n := by
  refine ext (List.map_injective_iff.2 ?_ h)
  rintro ⟨name, a⟩ ⟨name', b⟩ heq
  obtain ⟨hname, heq⟩ := Prod.mk.inj heq
  rw [String.toList_inj.1 hname, hfields heq]

end NameMap

namespace Outcome

section groups

variable {α : Type} {group : String} {text : String → α → List Char} {fields : α → Fields}

theorem writes_member (hgroup : IsBareKey group.toList)
    (htext : ∀ name a, text name a = tableHead group name ++ (fields a).text) (name : String) (a : α) :
    Writes (text name a) (Section.statements ⟨false, [group.toList, name.toList], fields a⟩) := by
  have hhead : Toml.Spells (tableHead group name)
      (some (Section.head ⟨false, [group.toList, name.toList], fields a⟩)) :=
    Toml.spells_member hgroup name.toList
  rw [htext]
  exact Toml.writes_section hhead

/-- A group is written section by section. -/
theorem forall₂_writes_groupTexts (hgroup : IsBareKey group.toList)
    (htext : ∀ name a, text name a = tableHead group name ++ (fields a).text) (m : NameMap α) :
    List.Forall₂ Writes (groupTexts group text m)
      (((m.members fields).sections group.toList).map Section.statements) := by
  obtain ⟨entries, hsorted⟩ := m
  -- An empty group is written as a bare table header, so that the key is there when the report is read back.
  match entries with
  | [] => exact .cons (Toml.spells_table hgroup).writes .nil
  | entry :: entries =>
    have hwrites : ∀ entries : List (String × α), List.Forall₂ Writes (entries.map fun (name, a) => text name a)
        ((entries.map fun (name, a) => (⟨false, [group.toList, name.toList], fields a⟩ : Section)).map
          Section.statements) := by
      intro entries
      rw [List.map_map, List.forall₂_map_left_iff, List.forall₂_map_right_iff, List.forall₂_same]
      exact fun entry _ => writes_member hgroup htext entry.1 entry.2
    have hsections : Members.sections group.toList (NameMap.members fields ⟨entry :: entries, hsorted⟩)
        = (entry :: entries).map fun (name, a) => ⟨false, [group.toList, name.toList], fields a⟩ := by
      rw [NameMap.members, List.map_cons, Members.sections, List.map_cons, List.map_cons, List.map_map]
      rfl
    rw [hsections]
    exact hwrites (entry :: entries)

end groups

theorem headText_eq (name : String) (h : HeadChange) : headText name h = tableHead "heads" name ++ h.fields.text := by
  unfold headText HeadChange.fields idLine Fields.text
  simp only [List.flatMap_cons, List.flatMap_nil, List.append_nil, List.append_assoc]

theorem tagText_eq (name : String) (t : TagChange) : tagText name t = tableHead "tags" name ++ t.fields.text := by
  unfold tagText TagChange.fields Fields.text
  simp only [List.cons_append, List.flatMap_cons, List.flatMap_append, List.flatMap_map, List.append_assoc]
  rfl

/-- The two tables of a report: each name of the outcome with its strings, and nothing else. -/
def table (o : Outcome) : Toml.Table :=
  [("heads".toList, .table (o.heads.entries.map fun (name, h) => (name.toList, h.fields.table))),
    ("tags".toList, .table (o.tags.entries.map fun (name, t) => (name.toList, t.fields.table)))]

theorem table_eq_members (o : Outcome) : o.table
    = [("heads".toList, (o.heads.members HeadChange.fields).table),
      ("tags".toList, (o.tags.members TagChange.fields).table)] := by
  rw [table, Members.table, Members.table, NameMap.members, NameMap.members, List.map_map, List.map_map]
  rfl

theorem parse?_report (o : Outcome) : Toml.parse? o.report = some o.table := by
  have hheads : IsBareKey "heads".toList := ⟨by simp, by simp [Toml.isBare]⟩
  have htags : IsBareKey "tags".toList := ⟨by simp, by simp [Toml.isBare]⟩
  have hne : "tags".toList ≠ "heads".toList := by simp
  have hgroups : List.Forall₂ Writes (groupTexts "heads" headText o.heads ++ groupTexts "tags" tagText o.tags)
      (((o.heads.members HeadChange.fields).sections "heads".toList).map Section.statements
        ++ ((o.tags.members TagChange.fields).sections "tags".toList).map Section.statements) :=
    List.rel_append (forall₂_writes_groupTexts hheads headText_eq o.heads)
      (forall₂_writes_groupTexts htags tagText_eq o.tags)
  have hwrites := Writes.intercalate hgroups
  rw [← List.map_append, ← List.flatMap_def] at hwrites
  have htable := Toml.tableOfStatements?_groups hne (o.heads.members_distinct HeadChange.keys_nodup)
    (o.tags.members_distinct TagChange.keys_nodup)
  rw [← table_eq_members] at htable
  exact (Toml.parse?_of_writes hwrites).trans htable

theorem eq_of_table_eq {o other : Outcome} (h : o.table = other.table) :
    o.heads = other.heads ∧ o.tags = other.tags := by
  simp only [table_eq_members, List.cons.injEq, Prod.mk.injEq, true_and, and_true] at h
  exact ⟨NameMap.members_injective HeadChange.fields_injective (Members.table_injective h.1),
    NameMap.members_injective TagChange.fields_injective (Members.table_injective h.2)⟩

/-- A report is a document with the tables of its outcome, so that it tells heads and tags apart. -/
theorem reports_show_outcomes (o other : Outcome) : Toml.parse? o.report = some o.table ∧
    (o.report = other.report ↔ o.heads = other.heads ∧ o.tags = other.tags) := by
  refine ⟨parse?_report o, fun h => ?_, fun ⟨hheads, htags⟩ => ?_⟩
  · have hread := congrArg Toml.parse? h
    rw [parse?_report, parse?_report] at hread
    exact eq_of_table_eq (Option.some.inj hread)
  · rw [report, report, hheads, htags]

end Outcome

end PrunedHistory
