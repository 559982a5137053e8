import PrunedHistory.CommandLine
import PrunedHistory.Proofs.Git.EndlessTags

/-! How the program ends

    The program itself knows no limit: it goes on over tag objects for as long as git names more of them. So it exits if
    it does within some limit, and then it does the same within every greater one. Main statement: it exits in one way at
    most. -/

namespace PrunedHistory

open Dialogue (Continues)
open Git (Behaviour Checkout)

/-- Whatever the plan file holds and git answers, the program exits like this after these calls. -/
def Exits (git : Behaviour) (fileText : String → Option String) (args : List String) (exit : Exit)
    (calls : List Git.Call) : Prop :=
  ∃ limit, git.play (program fileText args limit) [] = (some exit, calls)

variable {git : Behaviour} {fileText : String → Option String} {args : List String} {limit more : Nat}

namespace Command

theorem publishOn_continues (hle : limit ≤ more) (checkout : Checkout) (plan : Plan) :
    Continues (· = .error .atLimit) (publishOn checkout plan limit) (publishOn checkout plan more) := by
  rw [publishOn, publishOn]
  cases plan.session with
  | error e => exact .refl _
  | ok session =>
    refine (session.execute_continues hle fun _ => false).interpret.bind ?_ fun _ => .refl _
    rintro ⟨after, events, _⟩ rfl
    exact ⟨_, rfl, rfl⟩

theorem run_continues (hle : limit ≤ more) (fileText : String → Option String) : ∀ command : Command,
    Continues (· = .error .atLimit) (command.run fileText limit) (command.run fileText more)
  | init repository => .refl _
  | publish path repository space write => by
      rw [run, run]
      cases loadPlan fileText path with
      | error e => exact .refl _
      | ok plan =>
        refine .after _ fun found => ?_
        cases found with
        | error e => exact .refl _
        | ok checkout =>
          refine (publishOn_continues hle checkout plan).bind ?_ fun _ => .refl _
          rintro _ rfl
          exact ⟨_, rfl, rfl⟩

end Command

theorem program_continues (hle : limit ≤ more) (fileText : String → Option String) (args : List String) :
    Continues (· = none) (program fileText args limit) (program fileText args more) := by
  rw [program, program]
  cases Command.ofArguments? args with
  | none => exact .refl _
  | some command =>
    refine (Command.run_continues hle fileText command).bind ?_ fun _ => .refl _
    rintro _ rfl
    exact ⟨_, rfl, rfl⟩

/-- A run that exits within a limit is the same within every greater one. -/
theorem play_program_of_le {exit : Exit} {calls : List Git.Call}
    (h : git.play (program fileText args limit) [] = (some exit, calls)) (hle : limit ≤ more) :
    git.play (program fileText args more) [] = (some exit, calls) := by
  refine ((program_continues hle fileText args).serve_eq fun hstops => ?_).trans h
  have hexit := congrArg Prod.fst h
  exact nomatch hstops.symm.trans hexit

/-- The program exits in one way at most, after the same calls: the greater limit answers for both. -/
theorem Exits.unique {exit exit' : Exit} {calls calls' : List Git.Call} (h : Exits git fileText args exit calls)
    (h' : Exits git fileText args exit' calls') : exit = exit' ∧ calls = calls' := by
  obtain ⟨limit, hplayed⟩ := h
  obtain ⟨limit', hplayed'⟩ := h'
  have hboth := (play_program_of_le hplayed (Nat.le_max_left limit limit')).symm.trans
    (play_program_of_le hplayed' (Nat.le_max_right limit limit'))
  obtain ⟨hexit, hcalls⟩ := Prod.mk.inj hboth
  exact ⟨Option.some.inj hexit, hcalls⟩

namespace Command

variable {command : Command} {exit : Exit} {calls : List Git.Call}

theorem play_program (hargs : ofArguments? args = some command) :
    git.play (program fileText args limit) []
      = (match (git.play (command.run fileText limit) []).1 with
          | .ok output => some { code := 0, output }
          | .error (.failed e) => some { code := 1, message := some ("Error: " ++ e.headline) }
          | .error .atLimit => none,
        (git.play (command.run fileText limit) []).2) := by
  simp only [program, hargs, Behaviour.play_bind]
  rcases (git.play (command.run fileText limit) []).1 with (e | _) | output <;> rfl

/-- An exit is with 0 and what the command prints, or with 1 and what it fails with. -/
theorem exits_iff (hargs : ofArguments? args = some command) : Exits git fileText args exit calls ↔ ∃ limit,
    (∃ output, git.play (command.run fileText limit) [] = (.ok output, calls) ∧ exit = { code := 0, output }) ∨
      ∃ e, git.play (command.run fileText limit) [] = (.error (.failed e), calls) ∧
        exit = { code := 1, message := some ("Error: " ++ e.headline) } := by
  refine exists_congr fun limit => ?_
  rw [play_program hargs]
  rcases git.play (command.run fileText limit) [] with ⟨(e | _) | output, made⟩
  · constructor
    · rintro ⟨⟩
      exact .inr ⟨e, rfl, rfl⟩
    · rintro (⟨_, ⟨⟩, -⟩ | ⟨_, ⟨⟩, rfl⟩)
      rfl
  · simp
  · constructor
    · rintro ⟨⟩
      exact .inl ⟨output, rfl, rfl⟩
    · rintro (⟨_, ⟨⟩, rfl⟩ | ⟨_, ⟨⟩, -⟩)
      rfl

end Command

end PrunedHistory
