import Std.Data.TreeMap.Lemmas
import PrunedHistory.NameMap
import PrunedHistory.Git.Command
import PrunedHistory.Object.Id
import PrunedHistory.Text.Lines

/-! Git as a function of its tables

    What git answers when all it has is a table of objects by id and a table of refs by name: reads are answered from
    the tables, a stored object is filed under its id, and a ref moves only to an object that is there. Names are listed
    in the order of their bytes. -/

namespace PrunedHistory.Git

/-- An object as it is stored, whether or not its body can be parsed. -/
structure StoredObject where
  kind : ObjectKind
  body : ByteArray

/-- Objects by id and refs by name. -/
structure Tables where
  objects : Std.TreeMap ObjectId StoredObject := ∅
  refs : NameMap ObjectId := ∅

def Reply.success (output : String) : Reply := ⟨0, output.toUTF8⟩

/-- A run that fails has no output. -/
def Reply.failure (status : Nat) : Reply := ⟨status, .empty⟩

namespace Tables

/-- Stores an object under its id. -/
def insert (t : Tables) (kind : ObjectKind) (body : ByteArray) : Tables :=
  { t with objects := t.objects.insert (.ofBody kind body) ⟨kind, body⟩ }

def setRef (t : Tables) (name : String) (id : ObjectId) : Tables := { t with refs := t.refs.insert name id }

/-- The object that a word names by its id. -/
def object? (t : Tables) (word : String) : Option StoredObject :=
  (ObjectId.ofChars? word.toList).bind (t.objects[·]?)

/-- The refs whose names start as given, in name order. -/
def refsUnder (t : Tables) (start : String) : List (String × ObjectId) :=
  t.refs.entries.filter (Text.startsWith start ·.1)

/-- The line of a ref in a listing of names. -/
def nameLine (name : String) : String := name ++ "\n"

/-- The line of a ref in a listing of ids, kinds and names. -/
def refLine? (t : Tables) (name : String) (id : ObjectId) : Option String :=
  t.objects[id]?.map fun o => id.text ++ " " ++ o.kind.name ++ " " ++ name ++ "\n"

/-- A reply if there is something to tell, or else a failure. -/
def onlyIf {α : Type} (status : Nat) (found : Option α) (reply : α → Reply) : Reply :=
  match found with
  | some a => reply a
  | none => .failure status

/-- The reply to arguments and an input, and the tables afterwards. -/
def respond (t : Tables) (args : List String) (input : ByteArray) : Reply × Tables :=
  match args with
  | ["rev-parse", "--git-dir"] => (.success ".git\n", t)
  | ["rev-parse", "--verify", "--quiet", name] =>
    (onlyIf 1 (t.refs.get? name) fun id => .success (id.text ++ "\n"), t)
  | ["for-each-ref", "--format=%(refname)", start] =>
    (.success (String.join ((t.refsUnder start).map fun (name, _) => nameLine name)), t)
  | ["for-each-ref", "--format=%(objectname) %(objecttype) %(refname)", start] =>
    (onlyIf 128 ((t.refsUnder start).mapM fun (name, id) => t.refLine? name id) fun lines =>
      .success (String.join lines), t)
  | ["cat-file", "-t", word] => (onlyIf 128 (t.object? word) fun o => .success (o.kind.name ++ "\n"), t)
  | ["cat-file", kind, word] =>
    (onlyIf 128 ((t.object? word).filter (·.kind.name == kind)) fun o => ⟨0, o.body⟩, t)
  | ["hash-object", "-t", kind, "-w", "--stdin"] =>
    match ObjectKind.ofName? kind with
    | some kind => (.success ((ObjectId.ofBody kind input).text ++ "\n"), t.insert kind input)
    | none => (.failure 128, t)
  | ["update-ref", name, word] =>
    match ObjectId.ofChars? word.toList with
    | some id => if t.objects.contains id then (.success "", t.setRef name id) else (.failure 128, t)
    | none => (.failure 128, t)
  | _ => (.failure 129, t)

end Tables

end PrunedHistory.Git
