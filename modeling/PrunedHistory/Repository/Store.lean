import Std.Data.TreeMap.Lemmas
import PrunedHistory.NameMap
import PrunedHistory.Repository.Query

/-! A repository in memory

    Objects by id and refs by name. An object is filed under its own id, so what a look-up finds has the id that was
    asked for. -/

namespace PrunedHistory

/-- A stored object; of a tree only its presence counts. -/
inductive Stored where
  | commit (c : Commit)
  | tag (t : Tag)
  | tree
deriving DecidableEq

def Stored.kind : Stored → ObjectKind
  | commit _ => .commit
  | tag _ => .tag
  | tree => .tree

/-- Objects and refs. -/
structure Store where
  objects : Std.TreeMap ObjectId Stored := ∅
  refs : NameMap ObjectId := ∅

namespace Store

def empty : Store := {}

/-- Files a commit under its own id. -/
def insertCommit (s : Store) (c : Commit) : Store := { s with objects := s.objects.insert c.id (.commit c) }

def insertTag (s : Store) (t : Tag) : Store := { s with objects := s.objects.insert t.id (.tag t) }

/-- Stores the tree of the given body. -/
def insertTree (s : Store) (body : ByteArray) : Store :=
  { s with objects := s.objects.insert (.ofBody .tree body) .tree }

/-- Creates or moves a ref. -/
def setRef (s : Store) (name : String) (id : ObjectId) : Store := { s with refs := s.refs.insert name id }

/-! ### Reading -/

/-- A commit by its id; an object of another kind is told apart from a missing one. -/
def commit (s : Store) (id : ObjectId) : Except ReadError Commit :=
  match s.objects[id]? with
  | some (.commit c) => .ok c
  | some other => .error (.wrongKind id .commit other.kind)
  | none => .error (.missingObject id)

def tag (s : Store) (id : ObjectId) : Except ReadError Tag :=
  match s.objects[id]? with
  | some (.tag t) => .ok t
  | some other => .error (.wrongKind id .tag other.kind)
  | none => .error (.missingObject id)

/-- Whether a tree is filed under the id; other kinds do not count. -/
def hasTree (s : Store) (id : ObjectId) : Bool := s.objects[id]? == some .tree

def resolve (s : Store) (name : String) : Except ReadError ObjectId :=
  match s.refs.get? name with
  | some id => .ok id
  | none => .error (.unknownRef name)

/-- The names of all refs under `refs/heads/`. -/
def branches (s : Store) : List String := s.refs.names.filter (Text.startsWith "refs/heads/")

/-- The tag that a ref lists, if it points at a commit or a tag object; a tree is passed over. -/
def tagRef? (s : Store) (name : String) (id : ObjectId) : Except ReadError (Option TagRef) :=
  match s.objects[id]? with
  | some (.tag _) => .ok (some (.annotated name id))
  | some (.commit _) => .ok (some (.lightweight name id))
  | some .tree => .ok none
  | none => .error (.missingObject id)

/-- The refs under `refs/tags/`: in name order they are one run, which starts at the first name not below that
    prefix. -/
def tagEntries (s : Store) : List (String × ObjectId) :=
  (s.refs.entries.dropWhile (·.1 < "refs/tags/")).takeWhile (Text.startsWith "refs/tags/" ·.1)

/-- All tags in name order. The first ref on a missing object fails the listing. -/
def tags (s : Store) : Except ReadError (List TagRef) :=
  return (← s.tagEntries.mapM fun (name, id) => s.tagRef? name id).filterMap fun t => t

/-- The store as something to be read: it is always there, so a look-up fails only for what it does not hold. -/
def repository (s : Store) : Repository where
  commit := s.commit
  tag := s.tag
  hasTree id := .ok (s.hasTree id)
  resolve := s.resolve
  tags := s.tags

end Store

end PrunedHistory
