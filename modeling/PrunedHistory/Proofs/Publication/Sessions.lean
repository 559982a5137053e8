import PrunedHistory.Plan
import PrunedHistory.Proofs.Publication.Comparison

/-! Sessions call by call

    A session is called to register requests, to publish them, and to answer questions, in any order and any number of
    times. Up to the first publication that succeeds it is the fresh session with the requests that it has accepted,
    so nothing that failed has left a trace; from then on it is what that publication made of it. A call to publish
    comes with its limit, and one that is stopped there counts among those that failed. Both are shown of one call, then
    of any number of calls. Main statement: this, with all the answers, and what becomes of the entries of a
    plan. -/

namespace PrunedHistory

inductive Call where
  | register (request : Request)
  | execute (cancelled : List Event → Bool) (limit : Nat)
  | outcome
  | isUnchanged (name : String)
  | publishedCommit (name : String)

inductive Answer where
  | registered (result : Except PublicationError Unit)
  | executed (events : List Event) (result : Except (Stop PublicationError) Outcome)
  | outcome (result : Except PublicationError Outcome)
  | isUnchanged (result : Except PublicationError Bool)
  | publishedCommit (result : Except PublicationError (Option Commit))

/-- The call has published what was registered. -/
def Answer.Publishes : Answer → Prop
  | executed _ (.ok _) => True
  | _ => False

/-- The call was a registration or a publication, and it failed. -/
def Answer.Fails : Answer → Prop
  | registered (.error _) | executed _ (.error _) => True
  | _ => False

/-- What is answered to every call once this is published. -/
def Published.answer (p : Published) : Call → Answer
  | .register _ => .registered (.error .alreadyExecuted)
  | .execute _ _ => .executed [] (.error (.failed .alreadyExecuted))
  | .outcome => .outcome (.ok p.outcome)
  | .isUnchanged name => .isUnchanged (({ published := some p } : Session).isUnchanged name)
  | .publishedCommit name => .publishedCommit (({ published := some p } : Session).publishedCommit name)

namespace Session

/-- The session after a call, and its answer. -/
def perform (r : Repository) (s : Session) : Call → Session × Answer
  | .register q =>
    match s.register q with
    | .ok registered => (registered, .registered (.ok ()))
    | .error e => (s, .registered (.error e))
  | .execute cancelled limit =>
    let (executed, events, result) := r.run (s.execute cancelled limit)
    (executed, .executed events result)
  | .outcome => (s, .outcome s.outcome)
  | .isUnchanged name => (s, .isUnchanged (s.isUnchanged name))
  | .publishedCommit name => (s, .publishedCommit (s.publishedCommit name))

/-- The session after some calls. -/
def after (r : Repository) (s : Session) : List Call → Session
  | [] => s
  | call :: rest => after r (s.perform r call).1 rest

/-- The calls, each with its answer. -/
def history (r : Repository) (s : Session) : List Call → List (Call × Answer)
  | [] => []
  | call :: rest => (call, (s.perform r call).2) :: history r (s.perform r call).1 rest

/-- The requests whose registration succeeded, in the order of the calls. -/
def accepted (steps : List (Call × Answer)) : List Request :=
  steps.filterMap fun
    | (.register q, .registered (.ok ())) => some q
    | _ => none

variable {r : Repository} {s : Session} {requests : List Request} {published : Published}

theorem after_append (r : Repository) : ∀ (calls more : List Call) (s : Session),
    after r s (calls ++ more) = after r (after r s calls) more
  | [], _, _ => rfl
  | call :: calls, more, s => after_append r calls more (s.perform r call).1

theorem history_append (r : Repository) : ∀ (calls more : List Call) (s : Session),
    history r s (calls ++ more) = history r s calls ++ history r (after r s calls) more
  | [], _, _ => rfl
  | call :: calls, more, s => congrArg ((call, (s.perform r call).2) :: ·) (history_append r calls more _)

/-! ### Open sessions -/

theorem ofRequests_append (more : List Request) (h : ofRequests requests = .ok s) :
    ofRequests (requests ++ more) = more.foldlM register s := by
  rw [ofRequests, List.foldlM_append, ← ofRequests, h]
  rfl

/-- A call that does not publish leaves the fresh session with one more request, if it has registered one. -/
theorem ofRequests_perform (h : ofRequests requests = .ok s) (call : Call)
    (hanswer : ¬(s.perform r call).2.Publishes) :
    ofRequests (requests ++ accepted [(call, (s.perform r call).2)]) = .ok (s.perform r call).1 := by
  rw [ofRequests_append _ h]
  cases call with
  | register q =>
    rw [perform]
    cases hq : s.register q with
    | error e => rfl
    | ok registered => simpa [accepted] using hq
  | execute cancelled limit =>
    rw [perform] at hanswer ⊢
    rcases Publication.run_execute_cases r s cancelled limit with ⟨events, e, hrun⟩ | ⟨published, events, hrun⟩
    · rw [hrun]
      rfl
    · rw [hrun] at hanswer
      exact absurd trivial hanswer
  | outcome | isUnchanged name | publishedCommit name => rfl

theorem ofRequests_after : ∀ (calls : List Call) {s : Session} {requests : List Request},
    ofRequests requests = .ok s → (∀ step ∈ history r s calls, ¬step.2.Publishes) →
    ofRequests (requests ++ accepted (history r s calls)) = .ok (after r s calls)
  | [], s, requests, h, _ => by
      rw [history, accepted, List.filterMap_nil, List.append_nil]
      exact h
  | call :: calls, s, requests, h, hanswers => by
      rw [history, List.forall_mem_cons] at hanswers
      have hfirst := ofRequests_perform h call hanswers.1
      have hrest := ofRequests_after calls hfirst hanswers.2
      rw [List.append_assoc, accepted, accepted, ← List.filterMap_append] at hrest
      exact hrest

/-- Nothing that fails leaves a trace. -/
theorem perform_of_fails (r : Repository) (s : Session) (call : Call) (h : (s.perform r call).2.Fails) :
    (s.perform r call).1 = s := by
  cases call with
  | register q =>
    rw [perform] at h ⊢
    cases hq : s.register q with
    | error e => rfl
    | ok registered =>
      rw [hq] at h
      cases h
  | execute cancelled limit =>
    rw [perform] at h ⊢
    rcases Publication.run_execute_cases r s cancelled limit with ⟨events, e, hrun⟩ | ⟨published, events, hrun⟩
    · rw [hrun]
    · rw [hrun] at h
      cases h
  | outcome | isUnchanged name | publishedCommit name => rfl

/-! ### Closed sessions -/

theorem perform_of_published (h : s.published = some published) (call : Call) :
    s.perform r call = (s, published.answer call) := by
  cases call with
  | register q =>
    rw [perform, register, h]
    rfl
  | execute cancelled limit =>
    rw [perform, Publication.run_execute_again h]
    rfl
  | outcome =>
    rw [perform, outcome, h]
    rfl
  | isUnchanged name =>
    rw [perform, isUnchanged, outcome, h]
    rfl
  | publishedCommit name =>
    rw [perform, publishedCommit, h]
    rfl

theorem after_of_published (h : s.published = some published) : ∀ calls : List Call, after r s calls = s
  | [] => rfl
  | call :: calls => by
      rw [after, perform_of_published h]
      exact after_of_published h calls

theorem history_of_published (h : s.published = some published) : ∀ calls : List Call,
    history r s calls = calls.map fun call => (call, published.answer call)
  | [] => rfl
  | call :: calls => by
      rw [history, perform_of_published h, List.map_cons]
      exact congrArg _ (history_of_published h calls)

/-! ### Names that come twice -/

/-- In a list where a value comes twice, there is a first element whose value came before. -/
theorem exists_first_repeated {α β : Type} (f : α → β) {xs : List α} (h : ¬(xs.map f).Nodup) :
    ∃ before x rest, xs = before ++ x :: rest ∧ (before.map f).Nodup ∧ f x ∈ before.map f := by
  induction xs using List.reverseRecOn with
  | nil => exact absurd .nil h
  | append_singleton xs x ih =>
    by_cases hnodup : (xs.map f).Nodup
    · refine ⟨xs, x, [], rfl, hnodup, ?_⟩
      by_contra hnew
      refine h ?_
      rw [List.map_append, List.map_singleton, ← List.concat_eq_append]
      exact hnodup.concat hnew
    · obtain ⟨before, y, rest, rfl, hbefore, hy⟩ := ih hnodup
      exact ⟨before, y, rest ++ [x], by simp, hbefore, hy⟩

/-- The first name that came before stops the registration. -/
theorem ofRequests_repeated {before rest : List Request} {q : Request} (hbefore : (before.map (·.name)).Nodup)
    (hq : q.name ∈ before.map (·.name)) : ofRequests (before ++ q :: rest) = .error (.duplicateHead q.name) := by
  have hfresh : ofRequests before = .ok { requests := before } := ofRequests_eq_ok_iff.2 ⟨hbefore, rfl⟩
  have htaken : before.any (·.name == q.name) = true := by
    simpa using hq
  rw [ofRequests_append _ hfresh, List.foldlM_cons, register, if_neg (by simp), if_pos htaken]
  rfl

/-! ### All calls -/

/-- Nothing is published, and the session is the fresh one with the given requests. -/
structure IsOpen (s : Session) (requests : List Request) : Prop where
  fresh : ofRequests requests = .ok s
  registered : s.requests = requests
  distinct : (requests.map (·.name)).Nodup
  outcome : s.outcome = .error .notExecuted
  isUnchanged : ∀ name, s.isUnchanged name = .error .notExecuted
  publishedCommit : ∀ name, s.publishedCommit name = .error .notExecuted

theorem isOpen_of_ofRequests (h : ofRequests requests = .ok s) : s.IsOpen requests := by
  obtain ⟨hnames, rfl⟩ := ofRequests_eq_ok_iff.1 h
  exact ⟨h, rfl, hnames, rfl, fun _ => rfl, fun _ => rfl⟩

/-- What holds of a fresh session after some calls, and of one call more. -/
structure PublishesOnce (r : Repository) (calls : List Call) : Prop where
  /-- As long as no publication has succeeded, only the accepted requests are there. -/
  opened : (∀ step ∈ history r {} calls, ¬step.2.Publishes) → (after r {} calls).IsOpen (accepted (history r {} calls))
  /-- A registration or a publication that fails leaves the session as it was. -/
  traceless : ∀ call, ((after r {} calls).perform r call).2.Fails →
    ((after r {} calls).perform r call).1 = after r {} calls
  /-- A publication that succeeds is the last: all later calls are answered from it, and none changes the session. -/
  closed : ∀ cancelled limit closed events outcome,
    (after r {} calls).perform r (.execute cancelled limit) = (closed, .executed events (.ok outcome)) →
      ∃ published, published.outcome = outcome ∧ closed = { after r {} calls with published := some published } ∧
        ∀ later, after r {} (calls ++ .execute cancelled limit :: later) = closed ∧
          history r {} (calls ++ .execute cancelled limit :: later) = history r {} calls ++
            (.execute cancelled limit, .executed events (.ok outcome)) :: later.map fun call => (call, published.answer call)

/-- However a session is called, it is published once or not at all, and nothing that fails leaves a trace. The entries
    of a plan are registered if their names are distinct; if not, the first name that came before is refused. -/
theorem published_once_or_not_at_all (r : Repository) :
    (∀ calls, PublishesOnce r calls) ∧
    ∀ plan : Plan,
      (∀ s, plan.session = .ok s ↔ (plan.requests.map (·.name)).Nodup ∧ s = { requests := plan.requests }) ∧
      (¬(plan.requests.map (·.name)).Nodup → ∃ before q rest, plan.requests = before ++ q :: rest ∧
        (before.map (·.name)).Nodup ∧ q.name ∈ before.map (·.name) ∧
        plan.session = .error (.duplicateHead q.name)) := by
  refine ⟨fun calls => ⟨fun hanswers => ?opened, fun call => perform_of_fails r _ call, ?closed⟩,
    fun plan => ⟨fun s => ofRequests_eq_ok_iff, fun hnames => ?repeated⟩⟩
  case opened =>
    have hnothing : ofRequests [] = .ok {} := rfl
    exact isOpen_of_ofRequests (ofRequests_after calls hnothing hanswers)
  case closed =>
    intro cancelled limit closed events outcome hperform
    -- An answer with an outcome comes from the call that published; every later call finds it published.
    have hclosed : ∃ published, published.outcome = outcome ∧
        closed = { after r {} calls with published := some published } := by
      rw [perform] at hperform
      rcases Publication.run_execute_cases r (after r {} calls) cancelled limit with
        ⟨events', e, hrun⟩ | ⟨published, events', hrun⟩
      · rw [hrun] at hperform
        cases hperform
      · rw [hrun] at hperform
        cases hperform
        exact ⟨published, rfl, rfl⟩
    obtain ⟨published, houtcome, hclosed⟩ := hclosed
    have hpublished : closed.published = some published := by rw [hclosed]
    refine ⟨published, houtcome, hclosed, fun later => ?_⟩
    rw [after_append, history_append, after, history, hperform, after_of_published hpublished,
      history_of_published hpublished]
    exact ⟨rfl, rfl⟩
  case repeated =>
    obtain ⟨before, q, rest, hsplit, hbefore, hq⟩ := exists_first_repeated Request.name hnames
    refine ⟨before, q, rest, hsplit, hbefore, hq, ?_⟩
    rw [Plan.session, hsplit, ofRequests_repeated hbefore hq]

open Publication (fork forkLeft forkRight)

/-- Two branches are registered, one of them twice, with a publication in between that is cancelled. -/
def forkCalls : List Call :=
  [.register forkLeft, .register forkLeft, .execute (fun _ => true) 1, .isUnchanged "refs/heads/left",
    .register forkRight]

theorem fork_published_once :
    after fork {} forkCalls = { requests := [forkLeft, forkRight] } ∧
    ∃ events outcome,
      (history fork {} (forkCalls ++ .execute (fun _ => false) 1 ::
          [.register forkLeft, .execute (fun _ => false) 1, .outcome])).map (·.2) =
        [.registered (.ok ()), .registered (.error (.duplicateHead "refs/heads/left")),
          .executed [] (.error (.failed .cancelled)), .isUnchanged (.error .notExecuted), .registered (.ok ()),
          .executed events (.ok outcome),
          .registered (.error .alreadyExecuted), .executed [] (.error (.failed .alreadyExecuted)), .outcome (.ok outcome)] := by
  obtain ⟨hall, -⟩ := published_once_or_not_at_all fork
  have hanswers : (history fork {} forkCalls).map (·.2) = [.registered (.ok ()),
      .registered (.error (.duplicateHead "refs/heads/left")), .executed [] (.error (.failed .cancelled)),
      .isUnchanged (.error .notExecuted), .registered (.ok ())] := by
    rfl
  -- None of the first five answers is an outcome, so the session is still open with both requests.
  have hunpublished : ∀ step ∈ history fork {} forkCalls, ¬step.2.Publishes := by
    intro step hstep
    have hanswer : step.2 ∈ (history fork {} forkCalls).map (·.2) := List.mem_map_of_mem hstep
    rw [hanswers] at hanswer
    simp only [List.mem_cons, List.not_mem_nil, or_false] at hanswer
    rcases hanswer with h | h | h | h | h <;> rw [h] <;> exact fun h => h
  have hopen : (after fork {} forkCalls).IsOpen [forkLeft, forkRight] := (hall forkCalls).opened hunpublished
  obtain ⟨-, hafter⟩ := ofRequests_eq_ok_iff.1 hopen.fresh
  obtain ⟨progress, hwalks⟩ := Publication.exists_walks_of_fork 1 [forkLeft, forkRight] [⟨3⟩, ⟨4⟩] rfl (by decide)
  have hnew : ({ requests := [forkLeft, forkRight] } : Session).published = none := rfl
  have hperform : ∃ closed events outcome, (after fork {} forkCalls).perform fork (.execute (fun _ => false) 1)
      = (closed, .executed events (.ok outcome)) := by
    rw [hafter, perform, Publication.run_execute hnew, hwalks]
    exact ⟨_, _, _, rfl⟩
  obtain ⟨closed, events, outcome, hperform⟩ := hperform
  obtain ⟨published, houtcome, -, hlater⟩ := (hall forkCalls).closed _ _ _ _ _ hperform
  refine ⟨hafter, events, outcome, ?_⟩
  rw [(hlater _).2, List.map_append, hanswers, ← houtcome]
  rfl

end Session

end PrunedHistory
