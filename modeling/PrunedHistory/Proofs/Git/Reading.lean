import PrunedHistory.Git.Checkout
import PrunedHistory.Proofs.Git.Behaviour

/-! Calls that only read

    Finding a repository and answering a question about it are calls of a few subcommands, whatever git answers. -/

namespace PrunedHistory.Git

open Dialogue (Asks)

/-- The call only reads. -/
def Call.Reads (call : Call) : Prop := call.args.head? ∈ ["rev-parse", "cat-file", "for-each-ref"].map some

namespace Checkout

variable {P : Call → Prop} {c : Checkout} {args : List String}

theorem asks_run {directory : String} {input : Option ByteArray} (h : P ⟨directory, args, input⟩) :
    (run directory args input).Asks P :=
  (Dialogue.asks_question.2 h).bind fun _ => Dialogue.asks_done _

theorem asks_output (h : P ⟨c.root, args, none⟩) : (c.output args).Asks P := by
  refine (asks_run h).bind fun found => ?_
  cases found <;> exact Dialogue.asks_done _

theorem discover_reads (start : String) : (discover start).Asks Call.Reads := by
  refine (asks_run (by simp [Call.Reads])).bind fun found => ?_
  cases found <;> exact Dialogue.asks_done _

theorem branches_reads (c : Checkout) : c.branches.Asks Call.Reads :=
  (asks_output (by simp [Call.Reads])).bind fun _ => Dialogue.asks_done _

theorem body_reads (c : Checkout) (kind : ObjectKind) (id : ObjectId) : (c.body kind id).Asks Call.Reads := by
  refine (asks_run (by simp [Call.Reads])).bind fun found => ?_
  cases found with
  | error e => exact Dialogue.asks_done _
  | ok reply =>
    have habsence : (c.absence kind id).Asks Call.Reads :=
      (asks_output (by simp [Call.Reads])).bind fun _ => Dialogue.asks_done _
    dsimp only
    split
    · exact Dialogue.asks_done _
    · exact habsence.bind fun _ => Dialogue.asks_done _

theorem answer_reads (c : Checkout) (q : Query) : (c.answer q).Asks Call.Reads := by
  cases q with
  | commit id => exact (c.body_reads .commit id).bind fun _ => Dialogue.asks_done _
  | tag id => exact (c.body_reads .tag id).bind fun _ => Dialogue.asks_done _
  | hasTree id => exact (asks_run (by simp [Call.Reads])).bind fun _ => Dialogue.asks_done _
  | resolve name => exact (asks_output (by simp [Call.Reads])).bind fun _ => Dialogue.asks_done _
  | tags => exact (asks_output (by simp [Call.Reads])).bind fun _ => Dialogue.asks_done _

theorem read_reads {α : Type} (c : Checkout) (work : Reading α) : (c.read work).Asks Call.Reads :=
  Dialogue.asks_interpret c.answer_reads work

end Checkout

end PrunedHistory.Git
