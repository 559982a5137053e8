import PrunedHistory.Object.Id
import PrunedHistory.Object.Signature
import PrunedHistory.Object.Header

/-! Commits

    A commit names a tree, its parents, an author and a committer, and carries any further headers and a message. Its
    body is the text that is hashed for its id, so a commit that is read and written unchanged keeps its id. -/

namespace PrunedHistory

/-- A commit as its body has it. -/
structure Commit where
  /-- The snapshot the commit records; never looked into. -/
  tree : ObjectId
  parents : List ObjectId
  author : Signature
  committer : Signature
  /-- The headers after the committer, in order. -/
  extra : List Header := []
  message : String
deriving DecidableEq

namespace Commit

/-- The headers in the order in which git writes them; only those after the committer are free. -/
def headers (c : Commit) : List Header :=
  ⟨"tree", c.tree.text⟩ :: c.parents.map (⟨"parent", ·.text⟩) ++
    ⟨"author", c.author.text⟩ :: ⟨"committer", c.committer.text⟩ :: c.extra

def text (c : Commit) : String := .ofList (Header.bodyChars c.headers c.message)

/-- The bytes that are stored and hashed. -/
def body (c : Commit) : ByteArray := c.text.toUTF8

/-- The digest of the body, so that commits of one body have one id. -/
def id (c : Commit) : ObjectId := .ofBody .commit c.body

/-! ### Reading -/

/-- The keys that must not come again after the committer. -/
def leading : List String := ["tree", "parent", "author", "committer"]

/-- Takes the headers in their order. After the committer none of the four leading keys may come again. -/
def ofHeaders (headers : List Header) (message : String) : Except ObjectError Commit := do
  let (tree, rest) ← Header.take .commit "tree" headers
  let tree ← ObjectId.parse tree
  let parents ← (rest.takeWhile (·.key = "parent")).mapM (ObjectId.parse ·.value)
  let (author, rest) ← Header.take .commit "author" (rest.dropWhile (·.key = "parent"))
  let author ← Signature.parse author
  let (committer, extra) ← Header.take .commit "committer" rest
  let committer ← Signature.parse committer
  if extra.any (leading.contains ·.key) then throw (.malformed .commit .headersOutOfOrder)
  return { tree, parents, author, committer, extra, message }

/-- Reads a body; what fails is told as a malformed commit. -/
def parse (body : ByteArray) : Except ObjectError Commit :=
  match Header.ofBody body with
  | .error flaw => .error (.malformed .commit flaw)
  | .ok (headers, message) => ofHeaders headers message

end Commit

end PrunedHistory
