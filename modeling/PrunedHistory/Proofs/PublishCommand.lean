import PrunedHistory.Proofs.Exits
import PrunedHistory.Proofs.Git.Publishing
import PrunedHistory.Proofs.Publication.Comparison

/-! The command that publishes

    Its stages come one after the other, and each of them may fail: the plan is read and parsed, the repository is
    found, the entries are registered, the branches are published, and with `--write` the outcome is written. Main
    statement: whatever git answers, nothing is written before all other stages have succeeded, the report is printed
    exactly if no stage fails, and it is the same with `--write` and without. There is one way not to exit at all, which
    is that git leads from a tag over tag objects without end. -/

namespace PrunedHistory

namespace Git

/-- The call stores an object or moves a ref. -/
def Call.Writes (call : Call) : Prop := call.Stores ∨ call.MovesRef

theorem Call.Reads.not_writes {call : Call} (h : call.Reads) : ¬call.Writes := by
  rintro (hwrites | hwrites) <;> rw [Call.Reads, hwrites] at h <;> simp at h

end Git

open Git (Behaviour Calling Checkout)

namespace Command

/-! ### The stages before the writing -/

/-- Everything that the command does before it writes. -/
def prepare (fileText : String → Option String) (path repository : String) (limit : Nat) :
    Calling (Except (Stop Failure) (Checkout × Outcome)) :=
  match loadPlan fileText path with
  | .error e => .done (.error (.failed e))
  | .ok plan =>
    (Checkout.discover repository).bind fun
      | .error e => .done (.error (.failed (.read e)))
      | .ok checkout => (publishOn checkout plan limit).bind fun result => .done (result.map (checkout, ·))

/-- What the command does with an outcome. -/
def conclude (checkout : Checkout) (outcome : Outcome) (space : String) (write : Bool) :
    Calling (Except (Stop Failure) String) :=
  if write then
    (checkout.publish outcome space).bind fun
      | .error e => .done (.error (.failed (.read e)))
      | .ok () => .done (.ok outcome.report)
  else .done (.ok outcome.report)

variable {fileText : String → Option String} {git other : Behaviour} {path repository space : String} {write : Bool}
  {checkout : Checkout} {outcome : Outcome} {calls ready : List Git.Call} {args : List String} {limit : Nat}

theorem run_publish : (Command.publish path repository space write).run fileText limit
    = (prepare fileText path repository limit).bind fun
        | .error e => .done (.error e)
        | .ok (checkout, outcome) => conclude checkout outcome space write := by
  rw [run, prepare]
  cases loadPlan fileText path with
  | error e => rfl
  | ok plan =>
    simp only [Dialogue.bind_assoc]
    congr 1
    funext found
    cases found with
    | error e => rfl
    | ok checkout =>
      simp only [Dialogue.bind_assoc]
      congr 1
      funext result
      cases result <;> rfl

theorem publishOn_reads (checkout : Checkout) (plan : Plan) (limit : Nat) :
    (publishOn checkout plan limit).Asks Git.Call.Reads := by
  rw [publishOn]
  cases plan.session with
  | error e => exact Dialogue.asks_done _
  | ok session => exact (checkout.read_reads _).bind fun _ => Dialogue.asks_done _

theorem prepare_reads (fileText : String → Option String) (path repository : String) (limit : Nat) :
    (prepare fileText path repository limit).Asks Git.Call.Reads := by
  rw [prepare]
  cases loadPlan fileText path with
  | error e => exact Dialogue.asks_done _
  | ok plan =>
    refine (Checkout.discover_reads repository).bind fun found => ?_
    cases found with
    | error e => exact Dialogue.asks_done _
    | ok checkout => exact (publishOn_reads checkout plan limit).bind fun _ => Dialogue.asks_done _

/-- Every stage before the writing succeeds: the plan is read from its file and parsed, the repository is found, every
    entry is registered and the branches are published, within some limit. The calls are all that were made until
    then. -/
inductive Prepared (fileText : String → Option String) (git : Behaviour) (path repository : String) :
    Checkout → Outcome → List Git.Call → Prop
  | intro {text : String} {plan : Plan} {checkout : Checkout} {calls ready : List Git.Call} {session after : Session}
      {events : List Event} {outcome : Outcome} {limit : Nat}
      (read : fileText path = some text)
      (parsed : Plan.parse? text = some plan)
      (found : git.play (Checkout.discover repository) [] = (.ok checkout, calls))
      (registered : plan.session = .ok session)
      (executed : git.play (checkout.read (session.execute (fun _ => false) limit)) calls
        = ((after, events, .ok outcome), ready)) :
      Prepared fileText git path repository checkout outcome ready

theorem loadPlan_eq_ok_iff {plan : Plan} :
    loadPlan fileText path = .ok plan ↔ ∃ text, fileText path = some text ∧ Plan.parse? text = some plan := by
  rw [loadPlan]
  cases fileText path with
  | none => simp
  | some text =>
    simp only [Option.some.injEq, exists_eq_left']
    cases Plan.parse? text <;> simp

theorem publishOn_eq_ok_iff {plan : Plan} :
    git.play (publishOn checkout plan limit) calls = (.ok outcome, ready) ↔
      ∃ session after events, plan.session = .ok session ∧
        git.play (checkout.read (session.execute (fun _ => false) limit)) calls
          = ((after, events, .ok outcome), ready) := by
  rw [publishOn]
  cases plan.session with
  | error e => simp
  | ok session =>
    simp only [Behaviour.play_bind, Except.ok.injEq, exists_and_left, exists_eq_left']
    generalize git.play (checkout.read (session.execute (fun _ => false) limit)) calls = played
    obtain ⟨⟨after, events, e | result⟩, made⟩ := played <;> simp [Except.mapError]

theorem prepared_iff : Prepared fileText git path repository checkout outcome ready ↔
    ∃ limit, git.play (prepare fileText path repository limit) [] = (.ok (checkout, outcome), ready) := by
  constructor
  · rintro @⟨_, _, _, _, _, _, _, _, _, limit, hread, hparsed, hfound, hregistered, hexecuted⟩
    have hplan := loadPlan_eq_ok_iff.2 ⟨_, hread, hparsed⟩
    have hpublished := publishOn_eq_ok_iff.2 ⟨_, _, _, hregistered, hexecuted⟩
    refine ⟨limit, ?_⟩
    simp only [prepare, hplan, Behaviour.play_bind, hfound, hpublished]
    rfl
  · rintro ⟨limit, h⟩
    rw [prepare] at h
    cases hplan : loadPlan fileText path with
    | error e => simp [hplan] at h
    | ok plan =>
      obtain ⟨text, hread, hparsed⟩ := loadPlan_eq_ok_iff.1 hplan
      simp only [hplan] at h
      obtain ⟨found, calls, hfound, h⟩ := Behaviour.exists_of_play_bind h fun e => ⟨_, rfl⟩
      obtain ⟨published, made, hpublished, h⟩ := Behaviour.exists_of_play_bind h fun e => ⟨_, rfl⟩
      cases h
      obtain ⟨session, after, events, hregistered, hexecuted⟩ := publishOn_eq_ok_iff.1 hpublished
      exact ⟨hread, hparsed, hfound, hregistered, hexecuted⟩

theorem reads_of_mem_prepare (fileText : String → Option String) (git : Behaviour) (path repository : String)
    (limit : Nat) : ∀ call ∈ (git.play (prepare fileText path repository limit) []).2, call.Reads :=
  Behaviour.forall_mem_play (prepare_reads fileText path repository limit) (by simp)

theorem Prepared.reads (h : Prepared fileText git path repository checkout outcome ready) :
    ∀ call ∈ ready, call.Reads := by
  obtain ⟨limit, hplayed⟩ := prepared_iff.1 h
  have hcalls := reads_of_mem_prepare fileText git path repository limit
  rwa [hplayed] at hcalls

/-- Every stage succeeds; writing is one of them only if it is asked for. -/
def Succeeds (fileText : String → Option String) (git : Behaviour) (path repository space : String) (write : Bool)
    (outcome : Outcome) : Prop :=
  ∃ checkout ready, Prepared fileText git path repository checkout outcome ready ∧
    (write = true → (git.play (checkout.publish outcome space) ready).1 = .ok ())

theorem conclude_eq_ok_iff {output : String} :
    (git.play (conclude checkout outcome space write) ready).1 = .ok output ↔
      (write = true → (git.play (checkout.publish outcome space) ready).1 = .ok ()) ∧ outcome.report = output := by
  cases write with
  | false => simp [conclude]
  | true =>
    rw [conclude, if_pos rfl, Behaviour.play_bind]
    cases (git.play (checkout.publish outcome space) ready).1 <;> simp

/-- What is done with the outcome has an end. -/
theorem conclude_ne_atLimit (git : Behaviour) (checkout : Checkout) (outcome : Outcome) (space : String) (write : Bool)
    (ready : List Git.Call) : (git.play (conclude checkout outcome space write) ready).1 ≠ .error .atLimit := by
  cases write with
  | false => exact nofun
  | true =>
    rw [conclude, if_pos rfl, Behaviour.play_bind]
    cases (git.play (checkout.publish outcome space) ready).1 <;> exact nofun

theorem play_run_of_prepare
    (h : git.play (prepare fileText path repository limit) [] = (.ok (checkout, outcome), ready)) :
    git.play ((Command.publish path repository space write).run fileText limit) []
      = git.play (conclude checkout outcome space write) ready := by
  rw [run_publish, Behaviour.play_bind, h]

/-- A run gets to the writing, or it stops after reads only. -/
theorem run_cases (fileText : String → Option String) (git : Behaviour) (path repository space : String)
    (write : Bool) (limit : Nat) :
    (∃ checkout outcome ready, Prepared fileText git path repository checkout outcome ready ∧
      git.play ((Command.publish path repository space write).run fileText limit) []
        = git.play (conclude checkout outcome space write) ready) ∨
    (∃ stop calls, git.play (prepare fileText path repository limit) [] = (.error stop, calls) ∧
      git.play ((Command.publish path repository space write).run fileText limit) [] = (.error stop, calls) ∧
      ∀ call ∈ calls, call.Reads) := by
  have hreads := reads_of_mem_prepare fileText git path repository limit
  rcases hplayed : git.play (prepare fileText path repository limit) [] with ⟨stop | ⟨checkout, outcome⟩, calls⟩
  · rw [hplayed] at hreads
    refine .inr ⟨stop, calls, rfl, ?_, hreads⟩
    rw [run_publish, Behaviour.play_bind, hplayed]
    rfl
  · exact .inl ⟨checkout, outcome, calls, prepared_iff.2 ⟨limit, hplayed⟩, play_run_of_prepare hplayed⟩

/-- The report is printed exactly if every stage succeeds. -/
theorem exists_run_eq_ok_iff {output : String} :
    (∃ limit, (git.play ((Command.publish path repository space write).run fileText limit) []).1 = .ok output) ↔
      ∃ outcome, Succeeds fileText git path repository space write outcome ∧ outcome.report = output := by
  constructor
  · rintro ⟨limit, h⟩
    rcases run_cases fileText git path repository space write limit with
      ⟨checkout, outcome, ready, hprepared, hrun⟩ | ⟨stop, calls, -, hrun, -⟩
    · rw [hrun, conclude_eq_ok_iff] at h
      exact ⟨outcome, ⟨checkout, ready, hprepared, h.1⟩, h.2⟩
    · rw [hrun] at h
      cases h
  · rintro ⟨outcome, ⟨checkout, ready, hprepared, hwritten⟩, hreport⟩
    obtain ⟨limit, hplayed⟩ := prepared_iff.1 hprepared
    refine ⟨limit, ?_⟩
    rw [play_run_of_prepare hplayed]
    exact conclude_eq_ok_iff.2 ⟨hwritten, hreport⟩

/-- The program exits with 0 exactly where every stage succeeds, and prints the report. -/
theorem exists_exits_iff (hargs : ofArguments? args = some (.publish path repository space write)) {output : String} :
    (∃ calls, Exits git fileText args { code := 0, output } calls) ↔
      ∃ outcome, Succeeds fileText git path repository space write outcome ∧ outcome.report = output := by
  rw [← exists_run_eq_ok_iff]
  constructor
  · rintro ⟨calls, hexits⟩
    obtain ⟨limit, ⟨printed, hrun, hexit⟩ | ⟨e, -, hexit⟩⟩ := (exits_iff hargs).1 hexits
    · cases hexit
      exact ⟨limit, congrArg Prod.fst hrun⟩
    · cases hexit
  · rintro ⟨limit, hrun⟩
    exact ⟨_, (exits_iff hargs).2 ⟨limit, .inl ⟨output, Prod.ext hrun rfl, rfl⟩⟩⟩

section

variable {σ : Type} {installation : Git.Installation σ} {s : σ}

/-- The stages before the writing come to what they are on the tables, which stay as they are. -/
theorem exists_prepared {text : String} {plan : Plan} {session : Session} (hreads : installation.ReadsTables checkout)
    (hfound : (installation.serve (Checkout.discover repository) s).1 = .ok checkout)
    (hread : fileText path = some text) (hparsed : Plan.parse? text = some plan)
    (hregistered : plan.session = .ok session)
    (houtcome : ((installation.tables s).repository.run (session.execute (fun _ => false) limit)).2.2 = .ok outcome) :
    ∃ ready, Prepared fileText (installation.behaviour s) path repository checkout outcome ready ∧
      installation.tables (installation.afterAll s ready) = installation.tables s := by
  have hstart : installation.afterAll s [] = s := rfl
  obtain ⟨calls, hdiscover, hcalls⟩ := Git.Installation.exists_play_behaviour (Checkout.discover repository) hstart
  obtain ⟨ready, hexecute, hready⟩ := Git.Installation.exists_play_behaviour
    (checkout.read (session.execute (fun _ => false) limit)) hcalls
  have hkept := hreads.tables_serve (Checkout.discover_reads repository) s
  obtain ⟨hplayed, hkept'⟩ := hreads.tells_read (session.execute (fun _ => false) limit)
    (installation.serve (Checkout.discover repository) s).2
  rw [hfound] at hdiscover
  rw [hplayed, hkept] at hexecute
  dsimp only at hexecute
  generalize (installation.tables s).repository.run (session.execute (fun _ => false) limit) = played at houtcome hexecute
  obtain ⟨after, events, result⟩ := played
  obtain rfl : result = .ok outcome := houtcome
  refine ⟨ready, .intro hread hparsed hdiscover hregistered hexecute, ?_⟩
  rw [hready, hkept', hkept]

/-- Once the stages are over, the outcome is written as it is written into the tables. -/
theorem succeeds_of_readyAll (hwrites : installation.WritesTables checkout)
    (hprepared : Prepared fileText (installation.behaviour s) path repository checkout outcome ready)
    (hready : (installation.tables (installation.afterAll s ready)).ReadyAll (Checkout.publishSteps outcome space)) :
    Succeeds fileText (installation.behaviour s) path repository space write outcome := by
  obtain ⟨hwritten, -⟩ := Git.serve_ready_steps hwrites hready
  obtain ⟨made, hpublished, -⟩ := Git.Installation.exists_play_behaviour (checkout.publish outcome space)
    (rfl : installation.afterAll s ready = _)
  refine ⟨checkout, ready, hprepared, fun _ => ?_⟩
  rw [hpublished]
  exact hwritten

end

/-! ### Outcomes with nothing new -/

/-- Where the outcome has no new objects, the command exits without having stored any, whatever git answers. -/
theorem exists_exit_of_prepared (hargs : ofArguments? args = some (.publish path repository space write))
    (h : Prepared fileText git path repository checkout outcome ready) (hcommits : outcome.commits = [])
    (htags : outcome.tagObjects = []) :
    ∃ exit calls, Exits git fileText args exit calls ∧ ∀ call ∈ calls, ¬call.Stores := by
  obtain ⟨limit, hplayed⟩ := prepared_iff.1 h
  have hstores : ∀ call ∈ (git.play (conclude checkout outcome space write) ready).2, ¬call.Stores := by
    have hearlier : ∀ call ∈ ready, ¬call.Stores := fun call hcall hstores =>
      (h.reads call hcall).not_writes (.inl hstores)
    cases write with
    | false => exact hearlier
    -- Only the references are left to be moved, and moving one stores nothing.
    | true =>
      obtain ⟨made, hmade, hlater⟩ := Git.exists_play_publish git checkout space ready hcommits htags
      have hcalls : (git.play (conclude checkout outcome space true) ready).2 = ready ++ made := by
        rw [conclude, if_pos rfl, Behaviour.play_bind, ← hmade]
        cases (git.play (checkout.publish outcome space) ready).1 <;> rfl
      rw [hcalls]
      exact List.forall_mem_append.2 ⟨hearlier, hlater⟩
  rw [← play_run_of_prepare hplayed] at hstores
  have hends := conclude_ne_atLimit git checkout outcome space write ready
  rw [← play_run_of_prepare hplayed] at hends
  rcases hrun : git.play ((Command.publish path repository space write).run fileText limit) []
    with ⟨(e | _) | output, calls⟩
  · rw [hrun] at hstores
    exact ⟨_, calls, (exits_iff hargs).2 ⟨limit, .inr ⟨e, hrun, rfl⟩⟩, hstores⟩
  · rw [hrun] at hends
    exact absurd rfl hends
  · rw [hrun] at hstores
    exact ⟨_, calls, (exits_iff hargs).2 ⟨limit, .inl ⟨output, hrun, rfl⟩⟩, hstores⟩

/-! ### A release by the command -/

open Git (releaseTables exists_release_outcome releaseTables_files ofTables_writesTables)

theorem discover_ofTables (t : Git.Tables) :
    Git.Installation.ofTables.serve (Checkout.discover ".") t = (.ok ⟨"./.git"⟩, t) := by
  have hanswer : Git.Installation.ofTables.answer ⟨"."⟩ t ["rev-parse", "--git-dir"] = .ok (.success ".git\n") := rfl
  have hafter : Git.Installation.ofTables.after ⟨"."⟩ t ["rev-parse", "--git-dir"] = t := rfl
  have htrim : Text.trim ".git\n" = ".git" := by decide
  have hjoin : Checkout.join "." ".git" = "./.git" := by decide
  have hsucceeded : (Git.Reply.success ".git\n").succeeded = true := rfl
  rw [Checkout.discover, Git.Installation.serve_bind, Git.Installation.serve_run _ ⟨"."⟩, hanswer, hafter]
  simp only [Except.mapError, hsucceeded, if_true, Git.Installation.serve_done, Git.ofBytes_success, htrim, hjoin]

end Command

end PrunedHistory
