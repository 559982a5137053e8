import PrunedHistory.Git.Command
import PrunedHistory.Proofs.Dialogues

/-! Every way git may behave

    What git answers may depend on all the calls before. Work adds its calls to them, and two behaviours that answer
    alike as long as only calls of some sort were made cannot be told apart by work that makes no other calls. -/

namespace PrunedHistory.Git

open Dialogue (Asks)

/-- What git answers to a call after the calls before it. -/
abbrev Behaviour := List Call → (call : Call) → Answer call

namespace Behaviour

variable {α β : Type} {git other : Behaviour} {work : Calling α} {before : List Call} {P : Call → Prop}

/-- The result of some work, and all the calls with those before it. -/
def play (git : Behaviour) (work : Calling α) (before : List Call) : α × List Call :=
  work.serve (fun calls call => (git calls call, calls ++ [call])) before

@[simp] theorem play_done (git : Behaviour) (a : α) (before : List Call) :
    git.play (.done a) before = (a, before) := rfl

theorem play_ask (git : Behaviour) (call : Call) (next : Answer call → Calling α) (before : List Call) :
    git.play (.ask call next) before = git.play (next (git before call)) (before ++ [call]) := rfl

@[simp] theorem play_bind (git : Behaviour) (work : Calling α) (next : α → Calling β) (before : List Call) :
    git.play (work.bind next) before = git.play (next (git.play work before).1) (git.play work before).2 :=
  Dialogue.serve_bind ..

/-- Where a failure of its first part ends it, work that succeeds does so in both parts. -/
theorem exists_of_play_bind {ε ε' : Type} {work : Calling (Except ε α)} {next : Except ε α → Calling (Except ε' β)}
    {b : β} {after : List Call} (h : git.play (work.bind next) before = (.ok b, after))
    (hfails : ∀ e, ∃ e', next (.error e) = .done (.error e')) :
    ∃ a calls, git.play work before = (.ok a, calls) ∧ git.play (next (.ok a)) calls = (.ok b, after) := by
  rw [play_bind] at h
  rcases hwork : git.play work before with ⟨e | a, calls⟩
  · obtain ⟨e', he⟩ := hfails e
    rw [hwork, he] at h
    cases h
  · rw [hwork] at h
    exact ⟨a, calls, rfl, h⟩

/-- The calls before stay, and the others are as the work makes them. -/
theorem exists_play (git : Behaviour) : ∀ {work : Calling α}, work.Asks P → ∀ before,
    ∃ made, (git.play work before).2 = before ++ made ∧ ∀ call ∈ made, P call
  | .done a, _, before => ⟨[], (List.append_nil before).symm, by simp⟩
  | .ask call next, ⟨hcall, hnext⟩, before => by
      obtain ⟨made, hmade, hall⟩ := exists_play git (hnext (git before call)) (before ++ [call])
      refine ⟨call :: made, ?_, List.forall_mem_cons.2 ⟨hcall, hall⟩⟩
      rw [play_ask, hmade, List.append_assoc, List.singleton_append]

theorem forall_mem_play (hwork : work.Asks P) (hbefore : ∀ call ∈ before, P call) :
    ∀ call ∈ (git.play work before).2, P call := by
  obtain ⟨made, hmade, hall⟩ := exists_play git hwork before
  rw [hmade]
  exact List.forall_mem_append.2 ⟨hbefore, hall⟩

end Behaviour

end PrunedHistory.Git
