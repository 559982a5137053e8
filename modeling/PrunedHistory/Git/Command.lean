import PrunedHistory.Dialogue

/-! Calls of the git command

    Work that uses a repository on disk asks for runs of the `git` program. A run has a directory, arguments and perhaps
    an input; it cannot be started, or it ends with a status and an output. -/

namespace PrunedHistory.Git

/-- One run of the program that is asked for. -/
structure Call where
  directory : String
  args : List String
  input : Option ByteArray := none

/-- How a run ended. -/
structure Reply where
  status : Nat
  output : ByteArray

def Reply.succeeded (r : Reply) : Bool := r.status == 0

/-- A reply, or why the program could not be started. -/
abbrev Answer (_ : Call) : Type := Except String Reply

/-- Work that runs git. -/
abbrev Calling (α : Type) := Dialogue Call Answer α

end PrunedHistory.Git
