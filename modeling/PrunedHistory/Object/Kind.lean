/-! Kinds of stored objects -/

namespace PrunedHistory

/-- What git stores. Blobs are never read here; they can only be what a tag is on. -/
inductive ObjectKind where
  | commit | tree | blob | tag
deriving DecidableEq, Inhabited

namespace ObjectKind

/-- The word that names the kind in object headers and commands. -/
def name : ObjectKind → String
  | commit => "commit"
  | tree => "tree"
  | blob => "blob"
  | tag => "tag"

/-- The kind that a word names, which is lower-case. -/
def ofName? : String → Option ObjectKind
  | "commit" => some commit
  | "tree" => some tree
  | "blob" => some blob
  | "tag" => some tag
  | _ => none

end ObjectKind

end PrunedHistory
