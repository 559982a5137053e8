import PrunedHistory.Object.Id
import PrunedHistory.Object.Signature
import PrunedHistory.Object.Header

/-! Tags

    A tag object names another object and its kind; the object may be a tag again. A listed tag is a name that points
    at a tag object or straight at a commit. -/

namespace PrunedHistory

/-- A tag object. -/
structure Tag where
  /-- The tagged object. -/
  object : ObjectId
  kind : ObjectKind
  name : String
  tagger : Option Signature := none
  extra : List Header := []
  message : String
deriving DecidableEq

namespace Tag

/-- The same tag on another object. -/
def retarget (t : Tag) (object : ObjectId) : Tag := { t with object }

/-- The headers in the order in which git writes them; the tagger may be missing. -/
def headers (t : Tag) : List Header :=
  ⟨"object", t.object.text⟩ :: ⟨"type", t.kind.name⟩ :: ⟨"tag", t.name⟩ ::
    (t.tagger.toList.map fun s => ⟨"tagger", s.text⟩) ++ t.extra

def text (t : Tag) : String := .ofList (Header.bodyChars t.headers t.message)

/-- The bytes that are stored and hashed. -/
def body (t : Tag) : ByteArray := t.text.toUTF8

/-- The digest of the body, of which the tagged id is a part. -/
def id (t : Tag) : ObjectId := .ofBody .tag t.body

/-! ### Reading -/

/-- The tagger, if the next header is one, and the headers after it. -/
def takeTagger : List Header → Except ObjectError (Option Signature × List Header)
  | h :: rest => if h.key = "tagger" then (Signature.parse h.value).map (some ·, rest) else .ok (none, h :: rest)
  | [] => .ok (none, [])

/-- Takes the headers in their order. Other than in a commit, no key is barred from coming again. -/
def ofHeaders (headers : List Header) (message : String) : Except ObjectError Tag := do
  let (object, rest) ← Header.take .tag "object" headers
  let object ← ObjectId.parse object
  let (kind, rest) ← Header.take .tag "type" rest
  let kind ← ObjectKind.parse kind
  let (name, rest) ← Header.take .tag "tag" rest
  let (tagger, extra) ← takeTagger rest
  return { object, kind, name, tagger, extra, message }

/-- Reads a body; what fails is told as a malformed tag. -/
def parse (body : ByteArray) : Except ObjectError Tag :=
  match Header.ofBody body with
  | .error flaw => .error (.malformed .tag flaw)
  | .ok (headers, message) => ofHeaders headers message

end Tag

/-- A tag as a repository lists it, by its full name. -/
inductive TagRef where
  /-- The name points straight at a commit. -/
  | lightweight (name : String) (target : ObjectId)
  /-- The name points at a tag object. -/
  | annotated (name : String) (id : ObjectId)
deriving DecidableEq

namespace TagRef

/-- The full name, whatever it points at. -/
def name : TagRef → String
  | lightweight name _ | annotated name _ => name

/-- The id the name itself points at. -/
def id : TagRef → ObjectId
  | lightweight _ target => target
  | annotated _ id => id

end TagRef

end PrunedHistory
