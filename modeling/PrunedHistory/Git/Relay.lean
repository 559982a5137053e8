import PrunedHistory.Git.Command
import PrunedHistory.Text.Decimal
import PrunedHistory.Text.Lines

/-! Calls that someone else runs

    A call of git as bytes to send away, and the head of the answer that comes back. A call is one line of sizes in
    bytes, of the directory, of each argument and, behind a plus sign, of the input if there is one; then all of these
    follow with nothing between them. An answer is one line with the status and the size of the output, and then the
    output, or one line with an exclamation mark and the reason why nothing was run. -/

namespace PrunedHistory.Git

namespace Call

/-- The directory and the arguments. -/
def parts (c : Call) : List ByteArray := c.directory.toUTF8 :: c.args.map (·.toUTF8)

/-- The line of sizes. -/
def sizes (c : Call) : List Char :=
  [' '].intercalate (c.parts.map fun part => Decimal.ofNat part.size)
    ++ (c.input.toList.flatMap fun input => ' ' :: '+' :: ' ' :: Decimal.ofNat input.size) ++ ['\n']

/-- All bytes of a call: the line of sizes, and then the parts. -/
def frame (c : Call) : ByteArray :=
  c.parts.foldl (· ++ ·) (String.ofList c.sizes).toUTF8 ++ c.input.getD .empty

end Call

/-- The first line of an answer. -/
inductive AnswerHead where
  | notStarted (reason : String)
  | ended (status size : Nat)
deriving DecidableEq

/-- Reads the first line of an answer. -/
def AnswerHead.ofLine? : List Char → Option AnswerHead
  | '!' :: reason => some (.notStarted (.ofList reason))
  | line => do
    let (status, size) ← Text.cut? ' ' line
    return .ended (← Decimal.nat? status) (← Decimal.nat? size)

end PrunedHistory.Git
