import PrunedHistory.Proofs.Toml.Statements

/-! Tables of strings

    A document of sections, each with strings under distinct keys. The sections either are the elements of one array,
    or the members of a group. Main statements: the elements of an array come out in order, and a group has exactly its
    members, each with exactly its strings. -/

namespace PrunedHistory.Toml

open Node

/-! ### Changing an entry -/

section change

variable {key : List Char} {f : Option Node → Option Node} {entries : Entries}

theorem change_new (h : key ∉ entries.map (·.1)) :
    change key f entries = (f none).map fun node => entries ++ [(key, node)] := by
  induction entries with
  | nil => rfl
  | cons entry entries ih =>
    obtain ⟨hne, hentries⟩ := not_or.1 (mt List.mem_cons.2 h)
    rw [change, if_neg (Ne.symm hne), ih hentries, Option.map_map]
    rfl

theorem change_last (h : key ∉ entries.map (·.1)) (node : Node) :
    change key f (entries ++ [(key, node)]) = (f (some node)).map fun node => entries ++ [(key, node)] := by
  induction entries with
  | nil => rw [List.nil_append, change, if_pos rfl]; rfl
  | cons entry entries ih =>
    obtain ⟨hne, hentries⟩ := not_or.1 (mt List.mem_cons.2 h)
    rw [List.cons_append, change, if_neg (Ne.symm hne), ih hentries, Option.map_map]
    rfl

end change

/-! ### Strings under distinct keys -/

/-- Keys of one part, each with its string. -/
abbrev Fields := List (List Char × List Char)

namespace Fields

def pairs (fields : Fields) : List (List (List Char) × Value) :=
  fields.map fun (key, value) => ([key], .string value)

/-- Each string on a line of its own. -/
def text (fields : Fields) : List Char := fields.flatMap fun (key, value) => stringLine key value

def leaves (fields : Fields) : Entries := fields.map fun (key, value) => (key, .leaf (.string value))

/-- The finished table. -/
def table (fields : Fields) : Value := .table (fields.map fun (key, value) => (key, .string value))

theorem entryValues_leaves : ∀ fields : Fields,
    entryValues fields.leaves = fields.map fun (key, value) => (key, .string value)
  | [] => rfl
  | (key, value) :: fields => congrArg ((key, Value.string value) :: ·) (entryValues_leaves fields)

/-- Each key is new, so that its string goes to the end. -/
theorem assignAll_pairs : ∀ (fields : Fields) (entries : Entries),
    (entries.map (·.1) ++ fields.map (·.1)).Nodup → assignAll entries fields.pairs = some (entries ++ fields.leaves)
  | [], entries, _ => by rw [leaves, List.map_nil, List.append_nil]; rfl
  | (key, value) :: fields, entries, h => by
      have hnew : key ∉ entries.map (·.1) := by
        intro hkey
        exact (List.nodup_append.1 h).2.2 key hkey key (by simp) rfl
      -- A key that is not there yet is added at the end.
      have hassign : assign entries [key] (.string value) = some (entries ++ [(key, .leaf (.string value))]) :=
        change_new hnew
      have hothers := assignAll_pairs fields (entries ++ [(key, .leaf (.string value))]) (by simpa using h)
      calc assignAll entries (pairs ((key, value) :: fields))
        _ = (assign entries [key] (.string value)).bind fun entries => assignAll entries (pairs fields) := rfl
        _ = some (entries ++ leaves ((key, value) :: fields)) := by
          rw [hassign, Option.bind_some, hothers, List.append_assoc]
          rfl

theorem assignAll_nil_pairs {fields : Fields} (h : (fields.map (·.1)).Nodup) :
    assignAll [] fields.pairs = some fields.leaves :=
  assignAll_pairs fields [] h

theorem table_injective {fields other : Fields} (h : fields.table = other.table) : fields = other := by
  refine List.map_injective_iff.2 ?_ (Value.table.inj h)
  rintro ⟨key, value⟩ ⟨key', value'⟩ heq
  cases heq
  rfl

end Fields

/-! ### Sections -/

/-- The head of a table or an element, and its strings. -/
structure Section where
  isElement : Bool
  key : List (List Char)
  fields : Fields

namespace Section

def head (s : Section) : Statement := if s.isElement then .element s.key else .table s.key

def statements (s : Section) : List Statement :=
  s.head :: s.fields.pairs.map fun (key, value) => .assign key value

def add (root : Entries) (s : Section) : Option Entries := addSection s.isElement s.key s.fields.pairs root

end Section

theorem takePairs_flatMap_statements (pairs : List (List (List Char) × Value)) (sections : List Section) :
    takePairs (pairs.map (fun (key, value) => .assign key value) ++ sections.flatMap Section.statements)
      = (pairs, sections.flatMap Section.statements) := by
  induction pairs with
  | nil =>
    cases sections with
    | nil => rfl
    | cons s sections =>
      rw [List.map_nil, List.nil_append, List.flatMap_cons, Section.statements, Section.head]
      split <;> rfl
  | cons pair pairs ih => rw [List.map_cons, List.cons_append, takePairs, ih]

theorem addSections_assigns (pairs : List (List (List Char) × Value)) (root : Entries) (rest : List Statement) :
    addSections root (pairs.map (fun (key, value) => .assign key value) ++ rest) = addSections root rest := by
  induction pairs with
  | nil => rfl
  | cons pair pairs ih => rw [List.map_cons, List.cons_append, addSections, ih]

/-- The sections are added one after the other. -/
theorem addSections_flatMap : ∀ (sections : List Section) (root : Entries),
    addSections root (sections.flatMap Section.statements) = sections.foldlM Section.add root
  | [], _ => rfl
  | s :: sections, root => by
      have hothers : ∀ root, addSections root (s.fields.pairs.map (fun (key, value) => .assign key value)
          ++ sections.flatMap Section.statements) = sections.foldlM Section.add root := by
        intro root
        rw [addSections_assigns, addSections_flatMap]
      rw [List.flatMap_cons, Section.statements, List.cons_append, List.foldlM_cons, Section.head, Section.add]
      cases hs : s.isElement with
      | false =>
        rw [if_neg Bool.false_ne_true, addSections, takePairs_flatMap_statements]
        exact congrArg _ (funext hothers)
      | true =>
        rw [if_pos rfl, addSections, takePairs_flatMap_statements]
        exact congrArg _ (funext hothers)

theorem tableOfStatements?_sections (sections : List Section) :
    tableOfStatements? (sections.flatMap Section.statements) = (sections.foldlM Section.add []).map entryValues := by
  have htake := takePairs_flatMap_statements [] sections
  rw [List.map_nil, List.nil_append] at htake
  rw [tableOfStatements?, htake]
  simp only [addSections_flatMap, Option.bind_eq_bind, Option.pure_def, assignAll, List.foldlM_nil, Option.bind_some,
    Option.map_eq_bind]
  rfl

/-- The strings of a section, each on its line. -/
theorem writes_section {line : List Char} {s : Section} (hhead : Spells line (some s.head)) :
    Writes (line ++ s.fields.text) s.statements := by
  refine .line hhead ?_
  rw [Fields.pairs, List.map_map]
  exact Writes.flatMap (fun (key, value) => spells_stringLine key value) s.fields

variable {group : List Char} {root : Entries} {fields : Fields}

/-! ### Elements of an array -/

theorem add_element_new (hgroup : group ∉ root.map (·.1)) (hfields : (fields.map (·.1)).Nodup) :
    Section.add root ⟨true, [group], fields⟩ = some (root ++ [(group, .tables [fields.leaves])]) := by
  refine (change_new hgroup).trans ?_
  simp [Fields.assignAll_nil_pairs hfields]

theorem add_element (hgroup : group ∉ root.map (·.1)) (hfields : (fields.map (·.1)).Nodup) (elements : List Entries) :
    Section.add (root ++ [(group, .tables elements)]) ⟨true, [group], fields⟩
      = some (root ++ [(group, .tables (elements ++ [fields.leaves]))]) := by
  refine (change_last hgroup _).trans ?_
  simp [Fields.assignAll_nil_pairs hfields]

theorem foldlM_elements (hgroup : group ∉ root.map (·.1)) : ∀ {items : List Fields},
    (∀ fields ∈ items, (fields.map (·.1)).Nodup) → ∀ elements : List Entries,
      (items.map fun fields => ⟨true, [group], fields⟩).foldlM Section.add (root ++ [(group, .tables elements)])
        = some (root ++ [(group, .tables (elements ++ items.map Fields.leaves))])
  | [], _, elements => by simp
  | fields :: items, h, elements => by
      obtain ⟨hfields, hitems⟩ := List.forall_mem_cons.1 h
      have hothers := foldlM_elements hgroup hitems (elements ++ [fields.leaves])
      rw [List.map_cons, List.foldlM_cons, add_element hgroup hfields, Option.bind_eq_bind, Option.bind_some, hothers,
        List.append_assoc]
      rfl

theorem tableValues_map_leaves : ∀ items : List Fields,
    tableValues (items.map Fields.leaves) = items.map Fields.table
  | [] => rfl
  | fields :: items => by
      rw [List.map_cons, tableValues, Fields.entryValues_leaves, tableValues_map_leaves items]
      rfl

/-- An array has its elements in order. -/
theorem tableOfStatements?_elements (group : List Char) {first : Fields} {items : List Fields}
    (h : ∀ fields ∈ first :: items, (fields.map (·.1)).Nodup) :
    tableOfStatements? (((first :: items).map fun fields => ⟨true, [group], fields⟩).flatMap Section.statements)
      = some [(group, .array ((first :: items).map Fields.table))] := by
  have hgroup : group ∉ ([] : Entries).map (·.1) := List.not_mem_nil
  obtain ⟨hfirst, hitems⟩ := List.forall_mem_cons.1 h
  rw [tableOfStatements?_sections, List.map_cons, List.foldlM_cons, add_element_new hgroup hfirst, Option.bind_eq_bind,
    Option.bind_some, foldlM_elements hgroup hitems, Option.map_some]
  exact congrArg (fun values => some [(group, Value.array values)]) (tableValues_map_leaves (first :: items))

/-! ### Members of a group -/

variable {name : List Char}

theorem add_member_new (hgroup : group ∉ root.map (·.1)) (hfields : (fields.map (·.1)).Nodup) :
    Section.add root ⟨false, [group, name], fields⟩
      = some (root ++ [(group, .table true false [(name, .table false false fields.leaves)])]) := by
  refine (change_new hgroup).trans ?_
  simp [descend, change, Fields.assignAll_nil_pairs hfields]

theorem add_member (hgroup : group ∉ root.map (·.1)) (hfields : (fields.map (·.1)).Nodup) {members : Entries}
    (hname : name ∉ members.map (·.1)) :
    Section.add (root ++ [(group, .table true false members)]) ⟨false, [group, name], fields⟩
      = some (root ++ [(group, .table true false (members ++ [(name, .table false false fields.leaves)]))]) := by
  refine (change_last hgroup _).trans ?_
  simp [descend, change_new hname, Fields.assignAll_nil_pairs hfields]

theorem add_bare (hgroup : group ∉ root.map (·.1)) :
    Section.add root ⟨false, [group], []⟩ = some (root ++ [(group, .table false false [])]) :=
  change_new hgroup

/-- Names of members, each with its strings. -/
abbrev Members := List (List Char × Fields)

namespace Members

/-- Every name stands once, and so does every key of a member. -/
structure Distinct (members : Members) : Prop where
  names : (members.map (·.1)).Nodup
  keys : ∀ member ∈ members, (member.2.map (·.1)).Nodup

/-- A group without members has a head of its own. -/
def sections (group : List Char) (members : Members) : List Section :=
  match members with
  | [] => [⟨false, [group], []⟩]
  | member :: members => (member :: members).map fun (name, fields) => ⟨false, [group, name], fields⟩

def tables (members : Members) : Entries :=
  members.map fun (name, fields) => (name, .table false false fields.leaves)

/-- The finished table of a group. -/
def table (members : Members) : Value := .table (members.map fun (name, fields) => (name, fields.table))

theorem entryValues_tables : ∀ members : Members,
    entryValues members.tables = members.map fun (name, fields) => (name, fields.table)
  | [] => rfl
  | (name, fields) :: members => by
      have hfields : value (.table false false fields.leaves) = fields.table := by
        rw [value, Fields.entryValues_leaves]
        rfl
      rw [tables, List.map_cons, entryValues, hfields]
      exact congrArg ((name, fields.table) :: ·) (entryValues_tables members)

theorem table_injective {members other : Members} (h : members.table = other.table) : members = other := by
  refine List.map_injective_iff.2 ?_ (Value.table.inj h)
  rintro ⟨name, fields⟩ ⟨name', fields'⟩ heq
  obtain ⟨rfl, htable⟩ := Prod.mk.inj heq
  rw [Fields.table_injective htable]

end Members

/-- Each name is new, so that its table goes to the end of the group. -/
theorem foldlM_members (hgroup : group ∉ root.map (·.1)) : ∀ (members : Members) (before : Entries),
    (before.map (·.1) ++ members.map (·.1)).Nodup → (∀ member ∈ members, (member.2.map (·.1)).Nodup) →
      (members.map fun (name, fields) => ⟨false, [group, name], fields⟩).foldlM Section.add
          (root ++ [(group, .table true false before)])
        = some (root ++ [(group, .table true false (before ++ members.tables))])
  | [], before, _, _ => by simp [Members.tables]
  | (name, fields) :: members, before, hnames, hkeys => by
      obtain ⟨hfields, hmembers⟩ := List.forall_mem_cons.1 hkeys
      have hname : name ∉ before.map (·.1) := by
        intro hmem
        exact (List.nodup_append.1 hnames).2.2 name hmem name (by simp) rfl
      have hothers := foldlM_members hgroup members (before ++ [(name, .table false false fields.leaves)])
        (by simpa using hnames) hmembers
      rw [List.map_cons, List.foldlM_cons, add_member hgroup hfields hname, Option.bind_eq_bind, Option.bind_some,
        hothers, List.append_assoc]
      rfl

/-- A group has exactly its members. -/
theorem foldlM_sections (hgroup : group ∉ root.map (·.1)) {members : Members} (h : members.Distinct) :
    ∃ node, (members.sections group).foldlM Section.add root = some (root ++ [(group, node)]) ∧
      node.value = members.table := by
  match members with
  | [] => exact ⟨.table false false [], by simp [Members.sections, add_bare hgroup], rfl⟩
  -- The first member opens the group's table, and the others are entered into it.
  | (name, fields) :: members =>
    obtain ⟨hfields, hmembers⟩ := List.forall_mem_cons.1 h.keys
    have hothers := foldlM_members hgroup members [(name, .table false false fields.leaves)] h.names hmembers
    refine ⟨.table true false (Members.tables ((name, fields) :: members)), ?_, ?_⟩
    · rw [Members.sections, List.map_cons, List.foldlM_cons, add_member_new hgroup hfields, Option.bind_eq_bind,
        Option.bind_some, hothers]
      rfl
    · rw [value, Members.entryValues_tables]
      rfl

/-- Two groups, one after the other. -/
theorem tableOfStatements?_groups {other : List Char} (hne : other ≠ group) {members others : Members}
    (hmembers : members.Distinct) (hothers : others.Distinct) :
    tableOfStatements? ((members.sections group ++ others.sections other).flatMap Section.statements)
      = some [(group, members.table), (other, others.table)] := by
  have hfirst : group ∉ ([] : Entries).map (·.1) := List.not_mem_nil
  obtain ⟨node, hfold, hnode⟩ := foldlM_sections hfirst hmembers
  have hsecond : other ∉ ([(group, node)] : Entries).map (·.1) := by simpa using hne
  obtain ⟨node', hfold', hnode'⟩ := foldlM_sections hsecond hothers
  rw [tableOfStatements?_sections, List.foldlM_append, hfold, Option.bind_eq_bind, Option.bind_some, List.nil_append,
    hfold', Option.map_some, ← hnode, ← hnode']
  rfl

end PrunedHistory.Toml
