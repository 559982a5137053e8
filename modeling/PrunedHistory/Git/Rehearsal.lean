import PrunedHistory.Git.Tables
import PrunedHistory.Text.Lines

/-! Rehearsals

    A git that is only played: prepared replies to chosen arguments, tables for all else, and a log of the calls. The
    working directory has a few directories and files of its own, and a program starts only in a directory there is. -/

namespace PrunedHistory.Git

/-- The parts of a path below the working directory. -/
abbrev Place := List String

/-- A played git with what it has been asked. -/
structure Rehearsal where
  tables : Tables := {}
  /-- Replies that are given whatever the tables hold; the first with the arguments of the call counts. -/
  prepared : List (List String × Reply) := []
  /-- The texts of the files of the working directory. -/
  files : List (Place × String) := []
  /-- The calls so far, newest first. -/
  log : List Call := []

/-- Why a path leads nowhere. -/
inductive PathError where
  | missing
  | notADirectory
  | nameTooLong
  | holdsNul
deriving DecidableEq

/-- The words of the operating system. -/
def PathError.message : PathError → String
  | missing => "No such file or directory (os error 2)"
  | notADirectory => "Not a directory (os error 20)"
  | nameTooLong => "File name too long (os error 36)"
  | holdsNul => "nul byte found in provided data"

namespace Rehearsal

/-- The directories there are: the working directory, a repository in it and one below it. -/
def directories : List Place := [[], [".git"], ["repo"], ["repo", ".git"]]

/-- The most bytes of one part of a path. -/
def nameLimit : Nat := 255

/-- The most bytes of a path. -/
def pathLimit : Nat := 4095

/-- Goes from one place to the next part of a path; only a directory can be gone on from. -/
def enter (r : Rehearsal) (place : Place) (part : String) : Except PathError Place :=
  if directories.contains place then
    if part = "" ∨ part = "." then .ok place
    else if part = ".." then if place = [] then .error .missing else .ok place.dropLast
    else if nameLimit < part.utf8ByteSize then .error .nameTooLong
    else
      let next := place ++ [part]
      if directories.contains next ∨ r.files.any (·.1 = next) then .ok next else .error .missing
  else .error .notADirectory

/-- The place a path leads to. The empty path and absolute paths lead nowhere. -/
def locate (r : Rehearsal) (path : String) : Except PathError Place :=
  if path.toList.contains '\x00' then .error .holdsNul
  else if pathLimit < path.utf8ByteSize then .error .nameTooLong
  else if path.isEmpty ∨ Text.startsWith "/" path then .error .missing
  else ((Text.splitAt '/' path.toList).map String.ofList).foldlM r.enter []

/-- The text of a file. -/
def fileText (r : Rehearsal) (path : String) : Option String :=
  (r.locate path).toOption.bind (r.files.lookup ·)

/-- Whether a program can be started for a call. -/
def start (r : Rehearsal) (call : Call) : Except PathError Unit := do
  if call.args.any (·.toList.contains '\x00') then throw .holdsNul
  if directories.contains (← r.locate call.directory) then return () else throw .notADirectory

/-- The answer to a call, which is logged if the program starts. -/
def respond (r : Rehearsal) (call : Call) : Answer call × Rehearsal :=
  match r.start call with
  | .error e => (.error e.message, r)
  | .ok () =>
    let r := { r with log := call :: r.log }
    match r.prepared.lookup call.args with
    | some reply => (.ok reply, r)
    | none =>
      let (reply, tables) := r.tables.respond call.args (call.input.getD .empty)
      (.ok reply, { r with tables })

/-- The calls so far, in order. -/
def calls (r : Rehearsal) : List Call := r.log.reverse

/-- Plays all the calls of some work. -/
def play {α : Type} (r : Rehearsal) (work : Calling α) : α × Rehearsal := work.serve respond r

end Rehearsal

end PrunedHistory.Git
