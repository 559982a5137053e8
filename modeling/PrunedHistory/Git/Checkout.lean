import PrunedHistory.Git.Command
import PrunedHistory.Repository.Query
import PrunedHistory.Text.Blank
import PrunedHistory.Text.Utf8

/-! A repository on disk, read and written by git

    Every question about a history is one or two calls of git, and so is every object or ref that is written. -/

namespace PrunedHistory.Git

/-- A repository, by the directory that git runs in. -/
structure Checkout where
  root : String
deriving DecidableEq

namespace Checkout

/-- A path seen from a directory. An absolute path stands for itself. -/
def join (directory path : String) : String :=
  if Text.startsWith "/" path || directory.isEmpty then path
  else if directory.toList.getLast? == some '/' then directory ++ path
  else directory ++ "/" ++ path

/-- Runs git in a directory; a start that fails is told with the name of the subcommand. -/
def run (directory : String) (args : List String) (input : Option ByteArray := none) :
    Calling (Except ReadError Reply) :=
  (Dialogue.question ⟨directory, args, input⟩).bind fun answer =>
    .done (answer.mapError fun text => .notStarted ("git " ++ args.headD "" ++ ": " ++ text))

/-- The output as text of a run that has to succeed. -/
def output (c : Checkout) (args : List String) : Calling (Except ReadError String) :=
  (run c.root args).bind fun
    | .error e => .done (.error e)
    | .ok reply =>
      .done (if reply.succeeded then .ok (Text.ofBytes reply.output)
        else .error (.failed ("git " ++ " ".intercalate args)))

/-- The repository that a directory lies in. -/
def discover (start : String) : Calling (Except ReadError Checkout) :=
  (run start ["rev-parse", "--git-dir"]).bind fun
    | .error e => .done (.error e)
    | .ok reply =>
      .done (if reply.succeeded then .ok ⟨join start (Text.trim (Text.ofBytes reply.output))⟩
        else .error (.notARepository start))

/-! ### Reading -/

/-- The full names of all local branches. -/
def branches (c : Checkout) : Calling (Except ReadError (List String)) :=
  (c.output ["for-each-ref", "--format=%(refname)", "refs/heads/"]).bind fun found =>
    .done (found.map fun text => (Text.lines text.toList).map .ofList)

/-- Why an object could not be read as one of a kind: it is of another kind, or it is missing. -/
def absence (c : Checkout) (expected : ObjectKind) (id : ObjectId) : Calling ReadError :=
  (c.output ["cat-file", "-t", id.text]).bind fun found =>
    .done <| match found.toOption.bind fun word => ObjectKind.ofName? (Text.trim word) with
      | some kind => .wrongKind id expected kind
      | none => .missingObject id

/-- The body of an object of a kind. -/
def body (c : Checkout) (kind : ObjectKind) (id : ObjectId) : Calling (Except ReadError ByteArray) :=
  (run c.root ["cat-file", kind.name, id.text]).bind fun
    | .error e => .done (.error e)
    | .ok reply =>
      if reply.succeeded then .done (.ok reply.output)
      -- Git refuses a missing object and one of another kind alike, so it is asked once more.
      else (c.absence kind id).bind fun e => .done (.error e)

/-- A commit by its id: the body is fetched and parsed. -/
def commit (c : Checkout) (id : ObjectId) : Calling (Except ReadError Commit) :=
  (c.body .commit id).bind fun found => .done do (Commit.parse (← found)).mapError (.undecodable id)

/-- A tag object by its id. -/
def tag (c : Checkout) (id : ObjectId) : Calling (Except ReadError Tag) :=
  (c.body .tag id).bind fun found => .done do (Tag.parse (← found)).mapError (.undecodable id)

/-- Whether an object is there and is a tree. -/
def hasTree (c : Checkout) (id : ObjectId) : Calling (Except ReadError Bool) :=
  (run c.root ["cat-file", "-t", id.text]).bind fun found =>
    .done (found.map fun reply =>
      reply.succeeded && Text.trimBy Text.isBlankByte reply.output.data.toList == "tree".toUTF8.data.toList)

/-- The id of a ref. Whatever fails, the ref is unknown. -/
def resolve (c : Checkout) (name : String) : Calling (Except ReadError ObjectId) :=
  (c.output ["rev-parse", "--verify", "--quiet", name]).bind fun found =>
    .done <| match found.toOption.bind fun text => (ObjectId.parse (Text.trim text)).toOption with
      | some id => .ok id
      | none => .error (.unknownRef name)

/-- One line of the listing of tags: an id, a kind and a name. Tags of trees and blobs are passed over. -/
def tagOfLine (line : List Char) : Except ReadError (Option TagRef) :=
  match Text.cut? ' ' line with
  | none => .error (.failed ("unexpected for-each-ref line '" ++ .ofList line ++ "'"))
  | some (id, rest) =>
    match Text.cut? ' ' rest with
    | none => .error (.failed ("unexpected for-each-ref line '" ++ .ofList line ++ "'"))
    | some (kind, name) =>
      match ObjectId.ofChars? id with
      | none => .error (.failed ("unexpected object name '" ++ .ofList id ++ "'"))
      | some id =>
        .ok <| match ObjectKind.ofName? (.ofList kind) with
          | some .commit => some (.lightweight (.ofList name) id)
          | some .tag => some (.annotated (.ofList name) id)
          | _ => none

/-- The tags of a listing; empty lines are passed over. -/
def tagsOfListing (text : String) : Except ReadError (List TagRef) :=
  return (← ((Text.lines text.toList).filter (!·.isEmpty)).mapM tagOfLine).filterMap fun t => t

/-- The tags, by one call that lists ids, kinds and names. -/
def tags (c : Checkout) : Calling (Except ReadError (List TagRef)) :=
  (c.output ["for-each-ref", "--format=%(objectname) %(objecttype) %(refname)", "refs/tags/"]).bind fun found =>
    .done (found.bind tagsOfListing)

/-- The calls that answer a question. -/
def answer (c : Checkout) : (q : Query) → Calling q.Answer
  | .commit id => c.commit id
  | .tag id => c.tag id
  | .hasTree id => c.hasTree id
  | .resolve name => c.resolve name
  | .tags => c.tags

/-- Work that reads a repository, done on this one. -/
def read (c : Checkout) (work : Reading α) : Calling α := work.interpret c.answer

/-! ### Writing -/

/-- Stores an object and gives the id that git tells. -/
def store (c : Checkout) (kind : ObjectKind) (body : ByteArray) : Calling (Except ReadError ObjectId) :=
  (run c.root ["hash-object", "-t", kind.name, "-w", "--stdin"] (some body)).bind fun
    | .error e => .done (.error e)
    | .ok reply =>
      .done <|
        if reply.succeeded then
          let word := Text.trim (Text.ofBytes reply.output)
          (ObjectId.parse word).mapError fun _ => .failed ("git hash-object returned '" ++ word ++ "'")
        else .error (.failed ("git hash-object -t " ++ kind.name))

def writeCommit (c : Checkout) (commit : Commit) : Calling (Except ReadError ObjectId) := c.store .commit commit.body

def writeTag (c : Checkout) (tag : Tag) : Calling (Except ReadError ObjectId) := c.store .tag tag.body

/-- Points a ref at an object; the ref may be new. -/
def updateRef (c : Checkout) (name : String) (id : ObjectId) : Calling (Except ReadError Unit) :=
  (c.output ["update-ref", name, id.text]).bind fun found => .done (found.map fun _ => ())

end Checkout

end PrunedHistory.Git
