import Mathlib.Data.List.Induction
import PrunedHistory.Proofs.Repository.Filing
import PrunedHistory.Proofs.Repository.NameRuns
import PrunedHistory.Proofs.Text.ByteOrder

/-! What a store answers from

    A store is changed by storing objects and by setting refs. An object takes the place of what was under its id, and a
    ref that is set again points elsewhere, so only the last change of an id or of a name counts. Main statement: after
    any changes, every look-up answers from the last change of what it asks for, and both listings go through the refs
    in the order of their bytes. -/

namespace PrunedHistory.Store

open Text (bytes startsWith)

/-- One change of a store. -/
inductive Change where
  | commit (c : Commit)
  | tag (t : Tag)
  /-- The tree of the given body. -/
  | tree (body : ByteArray)
  | ref (name : String) (id : ObjectId)

namespace Change

def apply (s : Store) : Change → Store
  | commit c => s.insertCommit c
  | tag t => s.insertTag t
  | tree body => s.insertTree body
  | ref name id => s.setRef name id

/-- The object that the change puts under the id. -/
def stored? (id : ObjectId) : Change → Option Stored
  | commit c => if c.id = id then some (.commit c) else none
  | tag t => if t.id = id then some (.tag t) else none
  | tree body => if ObjectId.ofBody .tree body = id then some .tree else none
  | ref _ _ => none

/-- The id that the change sets the ref to. -/
def target? (name : String) : Change → Option ObjectId
  | ref set id => if name = set then some id else none
  | _ => none

end Change

/-- The store after the changes, from the empty one on. -/
def after (changes : List Change) : Store := changes.foldl Change.apply .empty

/-- The object that was stored last under the id. -/
def lastStored? (changes : List Change) (id : ObjectId) : Option Stored := changes.reverse.findSome? (Change.stored? id)

/-- The id that the ref was set to last. -/
def lastTarget? (changes : List Change) (name : String) : Option ObjectId :=
  changes.reverse.findSome? (Change.target? name)

/-- The tag that a ref to the object stands for; a tree has none. -/
def tagFor? (entry : String × ObjectId) : Option Stored → Option TagRef
  | some (.tag _) => some (.annotated entry.1 entry.2)
  | some (.commit _) => some (.lightweight entry.1 entry.2)
  | some .tree | none => none

/-- Every answer of the store is due to the last changes. -/
structure Reflects (s : Store) (changes : List Change) : Prop where
  id_of_commit : ∀ id c, s.commit id = .ok c → c.id = id
  id_of_tag : ∀ id t, s.tag id = .ok t → t.id = id
  commit_eq : ∀ id, s.commit id =
    match lastStored? changes id with
    | some (.commit c) => .ok c
    | some other => .error (.wrongKind id .commit other.kind)
    | none => .error (.missingObject id)
  tag_eq : ∀ id, s.tag id =
    match lastStored? changes id with
    | some (.tag t) => .ok t
    | some other => .error (.wrongKind id .tag other.kind)
    | none => .error (.missingObject id)
  hasTree_eq : ∀ id, s.hasTree id = (lastStored? changes id == some .tree)
  resolve_eq : ∀ name, s.resolve name =
    match lastTarget? changes name with
    | some id => .ok id
    | none => .error (.unknownRef name)
  mem_branches_iff : ∀ name, name ∈ s.branches ↔
    startsWith "refs/heads/" name = true ∧ (lastTarget? changes name).isSome
  branches_increase : s.branches.Pairwise fun a b => bytes a < bytes b
  mem_refs_iff : ∀ name id, (name, id) ∈ s.refs.entries ↔ lastTarget? changes name = some id
  refs_increase : s.refs.entries.Pairwise fun a b => bytes a.1 < bytes b.1
  /-- The run of refs that is gone through holds all that are under the prefix. -/
  tagEntries_eq : s.tagEntries = s.refs.entries.filter (startsWith "refs/tags/" ·.1)
  /-- Of these, the first one whose object is missing is named, if there is one. -/
  tags_eq : s.tags =
    let tagged := s.refs.entries.filter (startsWith "refs/tags/" ·.1)
    match tagged.find? fun entry => (lastStored? changes entry.2).isNone with
    | some entry => .error (.missingObject entry.2)
    | none => .ok (tagged.filterMap fun entry => tagFor? entry (lastStored? changes entry.2))

variable {s : Store}

/-! ### One change -/

theorem getElem?_insert (objects : Std.TreeMap ObjectId Stored) (key id : ObjectId) (stored : Stored) :
    (objects.insert key stored)[id]? = (if key = id then some stored else none).or objects[id]? := by
  rw [Std.TreeMap.getElem?_insert]
  by_cases h : key = id
  · rw [if_pos h, if_pos (Std.LawfulEqCmp.compare_eq_iff_eq.2 h), Option.some_or]
  · rw [if_neg h, if_neg fun he => h (Std.LawfulEqCmp.compare_eq_iff_eq.1 he), Option.none_or]

theorem objects_apply (s : Store) (change : Change) (id : ObjectId) :
    (change.apply s).objects[id]? = (change.stored? id).or s.objects[id]? := by
  cases change with
  | commit c => exact getElem?_insert s.objects c.id id (.commit c)
  | tag t => exact getElem?_insert s.objects t.id id (.tag t)
  | tree body => exact getElem?_insert s.objects (.ofBody .tree body) id .tree
  | ref name target => rfl

theorem refs_apply (s : Store) (change : Change) (name : String) :
    (change.apply s).refs.get? name = (change.target? name).or (s.refs.get? name) := by
  cases change with
  | ref set id =>
    rw [Change.apply, setRef, NameMap.get?_insert, Change.target?]
    split <;> rfl
  | commit c | tag t | tree body => rfl

theorem Built.apply (h : Built s) (change : Change) : Built (change.apply s) := by
  cases change with
  | commit c => exact h.insertCommit c
  | tag t => exact h.insertTag t
  | tree body => exact h.insertTree body
  | ref name id => exact h.setRef name id

/-! ### All the changes -/

theorem after_concat (changes : List Change) (change : Change) :
    after (changes ++ [change]) = change.apply (after changes) := by
  rw [after, List.foldl_append, List.foldl_cons, List.foldl_nil, ← after]

theorem built_after (changes : List Change) : Built (after changes) := by
  induction changes using List.reverseRecOn with
  | nil => exact .empty
  | append_singleton changes change ih =>
    rw [after_concat]
    exact ih.apply change

theorem findSome?_reverse_concat {α β : Type} (f : α → Option β) (xs : List α) (x : α) :
    (xs ++ [x]).reverse.findSome? f = (f x).or (xs.reverse.findSome? f) := by
  rw [List.reverse_concat, List.findSome?_cons]
  cases f x <;> rfl

/-- The object under an id is the one that was stored there last. -/
theorem objects_after (changes : List Change) (id : ObjectId) :
    (after changes).objects[id]? = lastStored? changes id := by
  induction changes using List.reverseRecOn with
  | nil => exact Std.TreeMap.getElem?_emptyc
  | append_singleton changes change ih =>
    rw [after_concat, objects_apply, ih, lastStored?, lastStored?, findSome?_reverse_concat]

/-- A ref points where it was set to last. -/
theorem refs_after (changes : List Change) (name : String) :
    (after changes).refs.get? name = lastTarget? changes name := by
  induction changes using List.reverseRecOn with
  | nil => rfl
  | append_singleton changes change ih =>
    rw [after_concat, refs_apply, ih, lastTarget?, lastTarget?, findSome?_reverse_concat]

/-! ### Listings -/

theorem mem_branches_iff {name : String} :
    name ∈ s.branches ↔ startsWith "refs/heads/" name = true ∧ (s.refs.get? name).isSome := by
  rw [branches, NameMap.names, List.mem_filter, List.mem_map, Option.isSome_iff_exists, and_comm]
  refine and_congr_right fun _ => ⟨?_, ?_⟩
  · rintro ⟨⟨_, id⟩, hentry, rfl⟩
    exact ⟨id, NameMap.mem_entries_iff.1 hentry⟩
  · rintro ⟨id, hget⟩
    exact ⟨(name, id), NameMap.mem_entries_iff.2 hget, rfl⟩

theorem refs_increase (s : Store) : s.refs.entries.Pairwise fun a b => bytes a.1 < bytes b.1 :=
  s.refs.sorted.imp Text.bytes_lt_of_lt

theorem branches_increase (s : Store) : s.branches.Pairwise fun a b => bytes a < bytes b := by
  have hnames : s.refs.names.Pairwise fun a b => bytes a < bytes b := List.pairwise_map.2 s.refs_increase
  exact hnames.sublist List.filter_sublist

theorem tagRef?_eq (s : Store) (entry : String × ObjectId) : s.tagRef? entry.1 entry.2 =
    if s.objects[entry.2]?.isNone then .error (.missingObject entry.2)
    else .ok (tagFor? entry s.objects[entry.2]?) := by
  rw [tagRef?]
  rcases s.objects[entry.2]? with _ | _ | _ | _ <;> rfl

/-- Going through refs ends at the first one whose object is missing. -/
theorem mapM_tagRef? (s : Store) : ∀ entries : List (String × ObjectId),
    entries.mapM (fun (name, id) => s.tagRef? name id) =
      match entries.find? fun entry => s.objects[entry.2]?.isNone with
      | some entry => .error (.missingObject entry.2)
      | none => .ok (entries.map fun entry => tagFor? entry s.objects[entry.2]?)
  | [] => rfl
  | entry :: rest => by
      have hfirst := s.tagRef?_eq entry
      rw [List.mapM_cons, mapM_tagRef? s rest, List.find?_cons, List.map_cons]
      dsimp only
      rw [hfirst]
      cases s.objects[entry.2]?.isNone with
      | true => rfl
      | false => cases rest.find? fun entry => s.objects[entry.2]?.isNone <;> rfl

theorem tags_eq (s : Store) : s.tags =
    let tagged := s.refs.entries.filter (startsWith "refs/tags/" ·.1)
    match tagged.find? fun entry => s.objects[entry.2]?.isNone with
    | some entry => .error (.missingObject entry.2)
    | none => .ok (tagged.filterMap fun entry => tagFor? entry s.objects[entry.2]?) := by
  rw [tags, mapM_tagRef?, tagEntries_eq]
  dsimp only
  cases (s.refs.entries.filter (startsWith "refs/tags/" ·.1)).find? fun entry => s.objects[entry.2]?.isNone with
  | some entry => rfl
  | none => exact congrArg Except.ok (List.filterMap_map ..)

/-- After any changes, every look-up answers from the last change of what it asks for. An object is found under its own
    id only. The branches and the tags are the refs under their prefixes, in the order of bytes; listing the tags fails
    exactly if one of them points at an object that is missing, and names the first of these objects. -/
theorem last_changes_are_reflected (changes : List Change) : (after changes).Reflects changes := by
  have hbuilt := built_after changes
  constructor
  case id_of_commit => exact hbuilt.contentAddressed
  case id_of_tag => exact fun id t ht => hbuilt.id_of_tag ht
  case commit_eq =>
    intro id
    rw [← objects_after]
    rfl
  case tag_eq =>
    intro id
    rw [← objects_after]
    rfl
  case hasTree_eq =>
    intro id
    rw [hasTree, objects_after]
  case resolve_eq =>
    intro name
    rw [← refs_after]
    rfl
  case mem_branches_iff =>
    intro name
    rw [mem_branches_iff, refs_after]
  case branches_increase => exact branches_increase _
  case mem_refs_iff =>
    intro name id
    rw [NameMap.mem_entries_iff, refs_after]
  case refs_increase => exact refs_increase _
  case tagEntries_eq => exact tagEntries_eq _
  case tags_eq =>
    rw [tags_eq]
    simp only [objects_after]

example : (after [.ref "refs/tags/b" ⟨1⟩, .ref "refs/tags0" ⟨2⟩, .ref "refs/tags/a" ⟨3⟩, .ref "refs/tags/a" ⟨4⟩]).tags
    = .error (.missingObject ⟨4⟩) := rfl

end PrunedHistory.Store
