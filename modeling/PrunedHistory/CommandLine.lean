import PrunedHistory.Git.Publish
import PrunedHistory.Plan
import PrunedHistory.Publication.Report

/-! The command line

    One command prints a plan for every branch of a repository; the other publishes by a plan, prints the report, and
    with `--write` also writes the outcome into the repository. What is printed comes last, so a run that fails prints
    nothing. -/

namespace PrunedHistory

/-- What the program can be asked to do. -/
inductive Command where
  /-- Print a plan for every branch. -/
  | init (repository : String)
  /-- Publish by the plan in a file, and perhaps write the outcome to refs in a namespace. -/
  | publish (plan repository space : String) (write : Bool)
deriving DecidableEq

namespace Command

/-! ### Reading arguments -/

/-- The arguments after a subcommand. -/
structure Given where
  repository : Option String := none
  space : Option String := none
  write : Bool := false
  operands : List String := []

/-- A flag for more log output, with one letter for each step. -/
def isVerbosity (arg : String) : Bool :=
  arg == "--verbose" || match arg.toList with
    | '-' :: 'v' :: more => more.all (· == 'v')
    | _ => false

/-- An argument that is meant as an option. -/
def isOption (arg : String) : Bool :=
  match arg.toList with
  | '-' :: _ :: _ => true
  | _ => false

/-- The value after an option's name and an equals sign. -/
def attached? (option arg : String) : Option String :=
  if Text.startsWith (option ++ "=") arg then some (.ofList (arg.toList.drop (option.length + 1))) else none

/-- Gives an option its value, once. -/
def Given.set (g : Given) (option value : String) : Option Given :=
  match option with
  | "--repo" => if g.repository.isSome then none else some { g with repository := some value }
  | "--namespace" => if g.space.isSome then none else some { g with space := some value }
  | _ => none

/-- Reads the arguments after a subcommand that takes the given options with values, and perhaps `--write`. After `--`
    come operands only. -/
def Given.read (options : List String) (takesWrite : Bool) (g : Given) : List String → Option Given
  | [] => some g
  | arg :: rest =>
    if arg = "--" then some { g with operands := g.operands ++ rest }
    else if isVerbosity arg then g.read options takesWrite rest
    else if arg = "--write" ∧ takesWrite then
      if g.write then none else { g with write := true }.read options takesWrite rest
    else if options.contains arg then
      match rest with
      | [] => none
      | value :: rest =>
        -- What looks like an option is never the value of another.
        if isOption value then none else (g.set arg value).bind fun g => g.read options takesWrite rest
    else
      match options.findSome? fun option => (attached? option arg).map (option, ·) with
      | some (option, value) => (g.set option value).bind fun g => g.read options takesWrite rest
      | none =>
        if isOption arg then none else { g with operands := g.operands ++ [arg] }.read options takesWrite rest

/-- A path is not empty. -/
def path? (path : String) : Option String := if path.isEmpty then none else some path

/-- The command that arguments give; nothing if they give none. -/
def ofArguments? : List String → Option Command
  | [] => none
  | arg :: rest =>
    if isVerbosity arg then ofArguments? rest
    else if arg = "init" then do
      let g ← Given.read ["--repo"] false {} rest
      let repository ← path? (g.repository.getD ".")
      match g.operands with
      | [] => some (.init repository)
      | _ => none
    else if arg = "rewrite" then do
      let g ← Given.read ["--repo", "--namespace"] true {} rest
      let repository ← path? (g.repository.getD ".")
      match g.operands with
      | [plan] => some (.publish (← path? plan) repository (g.space.getD "refs/published/") g.write)
      | _ => none
    else none

/-! ### Running -/

/-- Why a command fails: its plan cannot be read, the repository cannot be read or written, or nothing can be published. -/
inductive Failure where
  | planUnreadable (path : String)
  | planMalformed
  | read (e : ReadError)
  | publication (e : PublicationError)
deriving DecidableEq

/-- The one line that is told about a failure. -/
def Failure.headline : Failure → String
  | planUnreadable path => "failed to read plan '" ++ path ++ "'"
  | planMalformed => "failed to parse plan"
  | read e => e.headline
  | publication e => e.headline

open Git (Calling Checkout)

/-- The plan in a file. -/
def loadPlan (fileText : String → Option String) (path : String) : Except Failure Plan :=
  match fileText path with
  | none => .error (.planUnreadable path)
  | some text =>
    match Plan.parse? text with
    | none => .error .planMalformed
    | some plan => .ok plan

/-- Publishes by a plan on a repository that was found. -/
def publishOn (checkout : Checkout) (plan : Plan) (limit : Nat) : Calling (Except (Stop Failure) Outcome) :=
  match plan.session with
  | .error e => .done (.error (.failed (.publication e)))
  | .ok session =>
    (checkout.read (session.execute (fun _ => false) limit)).bind fun (_, _, result) =>
      .done (result.mapError (.map .publication))

/-- Runs a command and gives the text it prints. -/
def run (fileText : String → Option String) (limit : Nat) : Command → Calling (Except (Stop Failure) String)
  | init repository =>
    (Checkout.discover repository).bind fun
      | .error e => .done (.error (.failed (.read e)))
      | .ok checkout => checkout.branches.bind fun
        | .error e => .done (.error (.failed (.read e)))
        | .ok names => .done (.ok (Plan.ofBranches names).text)
  | publish path repository space write =>
    match loadPlan fileText path with
    | .error e => .done (.error (.failed e))
    | .ok plan =>
      (Checkout.discover repository).bind fun
        | .error e => .done (.error (.failed (.read e)))
        | .ok checkout => (publishOn checkout plan limit).bind fun
          | .error e => .done (.error e)
          | .ok outcome =>
            if write then
              (checkout.publish outcome space).bind fun
                | .error e => .done (.error (.failed (.read e)))
                | .ok () => .done (.ok outcome.report)
            else .done (.ok outcome.report)

end Command

/-- How a run of the program ends: the code, the text printed, and what is told about a failure. -/
structure Exit where
  code : Nat
  output : String := ""
  message : Option String := none
deriving DecidableEq

/-- The program: 0 if the command succeeds, 1 if it fails, 2 if the arguments give none. It does not end within the limit
    if git names tag objects on tag objects without end. -/
def program (fileText : String → Option String) (args : List String) (limit : Nat) : Git.Calling (Option Exit) :=
  match Command.ofArguments? args with
  | none => .done (some { code := 2 })
  | some command => (command.run fileText limit).bind fun
    | .ok output => .done (some { code := 0, output })
    | .error (.failed e) => .done (some { code := 1, message := some ("Error: " ++ e.headline) })
    | .error .atLimit => .done none

end PrunedHistory
