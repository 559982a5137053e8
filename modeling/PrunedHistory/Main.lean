import PrunedHistory.CommandLine
import PrunedHistory.Git.Relay

/-! The program on standard streams

    The report goes to standard output. No other program is started from here: the calls of git go to standard error,
    and their answers are read from standard input. What is told about a failure is the last line of standard error. -/

namespace PrunedHistory

open Git (Call Answer AnswerHead Calling)

/-- Reads so many bytes, or all there are, in at most `tries` steps. -/
def readBytes (input : IO.FS.Stream) (size : Nat) : Nat → ByteArray → IO ByteArray
  | 0, got => return got
  | tries + 1, got => do
    if size ≤ got.size then return got
    let more ← input.read (.ofNat (size - got.size))
    if more.isEmpty then return got
    readBytes input size tries (got ++ more)

/-- Sends a call away and waits for its answer. -/
def askGit (call : Call) : IO (Answer call) := do
  let calls ← IO.getStderr
  calls.write call.frame
  calls.flush
  let answers ← IO.getStdin
  let line := (← answers.getLine).toList
  match AnswerHead.ofLine? ((Text.dropFinal? '\n' line).getD line) with
  | none => return .error "no answer"
  | some (.notStarted reason) => return .error reason
  | some (.ended status size) => return .ok ⟨status, ← readBytes answers size size .empty⟩

/-- Does work with every call sent away. -/
def relay {α : Type} : Calling α → IO α
  | .done a => return a
  | .ask call next => do
    let answer ← askGit call
    relay (next answer)

/-- The text of the one file that the arguments name, if it can be read. -/
def planText (args : List String) : IO (Option String) :=
  match Command.ofArguments? args with
  | some (.publish plan _ _ _) => try return some (← IO.FS.readFile plan) catch _ => return none
  | _ => return none

/-- Runs the program and gives its exit code. Of one tag it may read as many tag objects as there are ids: unless the
    answers of git change, they repeat by then, and have no end. -/
def runProgram (args : List String) : IO UInt32 := do
  let text ← planText args
  let some exit ← relay (program (fun _ => text) args ObjectId.count) | throw (.userError "a tag has no end")
  IO.print exit.output
  exit.message.forM IO.eprintln
  return exit.code.toUInt32

end PrunedHistory

def main (args : List String) : IO UInt32 := PrunedHistory.runProgram args
