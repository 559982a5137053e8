import PrunedHistory.Git.Publish
import PrunedHistory.Proofs.Git.Behaviour
import PrunedHistory.Proofs.Object.Spelling

/-! Writing in order

    An outcome is written by one call for each object and then one for each ref. Whatever git answers, each call waits
    until the one before it is accepted. Main statement: the calls are the first ones of a fixed list, the writing
    succeeds exactly if all of the list is run and accepted, and no ref moves before all objects are stored under their
    ids. -/

namespace PrunedHistory.Git

/-- The call stores an object. -/
def Call.Stores (call : Call) : Prop := call.args.head? = some "hash-object"

/-- The call moves a ref. -/
def Call.MovesRef (call : Call) : Prop := call.args.head? = some "update-ref"

/-- A call that writes, and the id that git has to print, if it has to print one. -/
structure Errand where
  call : Call
  printed : Option ObjectId := none

/-- The run succeeded and printed the id; letter case and blanks around it do not count. -/
def Errand.Accepts (e : Errand) (answer : Except String Reply) : Prop :=
  ∃ reply, answer = .ok reply ∧ reply.succeeded = true ∧
    ∀ id ∈ e.printed, id.Spells (Text.trim (Text.ofBytes reply.output))

/-- Run one after the other, all errands are accepted. -/
def Behaviour.AcceptsAll (git : Behaviour) : List Call → List Errand → Prop
  | _, [] => True
  | before, e :: rest => e.Accepts (git before e.call) ∧ git.AcceptsAll (before ++ [e.call]) rest

/-- Errands are run in order while they are accepted, and the result tells whether all of them were. -/
structure Behaviour.RunsInOrder (git : Behaviour) (before : List Call) (errands run : List Errand)
    (result : Except ReadError Unit) : Prop where
  listed : run <+: errands
  /-- All but the last are accepted, and that one too where another was to come. -/
  accepted : git.AcceptsAll before run.dropLast
  /-- It is only a refusal that ends the run early. -/
  stopped : run ≠ errands → ¬git.AcceptsAll before run
  result_eq_ok_iff : result = .ok () ↔ run = errands ∧ git.AcceptsAll before run

namespace Checkout

def storeCall (c : Checkout) (kind : ObjectKind) (body : ByteArray) : Call :=
  ⟨c.root, ["hash-object", "-t", kind.name, "-w", "--stdin"], some body⟩

def refCall (c : Checkout) (name : String) (id : ObjectId) : Call := ⟨c.root, ["update-ref", name, id.text], none⟩

/-- The errands that store the new objects: commits, then tag objects. -/
def storing (c : Checkout) (outcome : Outcome) : List Errand :=
  outcome.commits.map (fun new => ⟨c.storeCall .commit new.commit.body, some new.id⟩)
    ++ outcome.tagObjects.map fun tag => ⟨c.storeCall .tag tag.body, some tag.id⟩

/-- The errands that move the refs: heads, then retained tags, in name order. -/
def pointing (c : Checkout) (outcome : Outcome) (space : String) : List Errand :=
  outcome.heads.entries.map (fun (name, head) => ⟨c.refCall (publishedName space name) head.after, none⟩)
    ++ outcome.tags.entries.filterMap fun (name, tag) =>
        tag.after.map fun id => ⟨c.refCall (publishedName space name) id, none⟩

/-- What a step has to do. -/
def Step.errand (c : Checkout) : Step → Errand
  | .commit new => ⟨c.storeCall .commit new.commit.body, some new.id⟩
  | .tag new => ⟨c.storeCall .tag new.body, some new.id⟩
  | .ref name id => ⟨c.refCall name id, none⟩

end Checkout

open Checkout (Step publishedName publishSteps checkStored)

variable {git : Behaviour} {c : Checkout} {outcome : Outcome} {space : String} {before : List Call}

/-! ### Lists of errands -/

namespace Behaviour

theorem acceptsAll_append {more : List Errand} : ∀ {errands : List Errand} {before : List Call},
    git.AcceptsAll before (errands ++ more) ↔
      git.AcceptsAll before errands ∧ git.AcceptsAll (before ++ errands.map (·.call)) more
  | [], before => by simp [AcceptsAll]
  | e :: errands, before => by
      rw [List.cons_append, AcceptsAll, AcceptsAll, acceptsAll_append, and_assoc, List.map_cons, List.append_assoc,
        List.singleton_append]

theorem AcceptsAll.of_prefix {errands all : List Errand} (h : git.AcceptsAll before all) (hleads : errands <+: all) :
    git.AcceptsAll before errands := by
  obtain ⟨more, rfl⟩ := hleads
  exact (acceptsAll_append.1 h).1

theorem RunsInOrder.nil : git.RunsInOrder before [] [] (.ok ()) :=
  ⟨List.prefix_rfl, trivial, fun hne => absurd rfl hne, iff_of_true rfl ⟨rfl, trivial⟩⟩

/-- Where the first errand is refused, no other is run. -/
theorem RunsInOrder.refused {e : Errand} {rest : List Errand} {result : Except ReadError Unit}
    (he : ¬e.Accepts (git before e.call)) (hresult : result ≠ .ok ()) :
    git.RunsInOrder before (e :: rest) [e] result :=
  ⟨⟨rest, rfl⟩, trivial, fun _ hall => he hall.1, iff_of_false hresult fun h => he h.2.1⟩

theorem RunsInOrder.cons {e : Errand} {rest run : List Errand} {result : Except ReadError Unit}
    (he : e.Accepts (git before e.call)) (h : git.RunsInOrder (before ++ [e.call]) rest run result) :
    git.RunsInOrder before (e :: rest) (e :: run) result := by
  refine ⟨List.cons_prefix_cons.2 ⟨rfl, h.listed⟩, ?_, fun hne hall => ?_, ?_⟩
  · cases run with
    | nil => trivial
    | cons next more => exact ⟨he, h.accepted⟩
  · exact h.stopped (fun hrun => hne (congrArg _ hrun)) hall.2
  · rw [h.result_eq_ok_iff, AcceptsAll, List.cons.injEq]
    exact ⟨fun ⟨hrun, hall⟩ => ⟨⟨rfl, hrun⟩, he, hall⟩, fun ⟨⟨_, hrun⟩, _, hall⟩ => ⟨hrun, hall⟩⟩

/-- A run that gets beyond the first errands has all of these accepted. -/
theorem RunsInOrder.acceptsAll_of_beyond {first rest run : List Errand} {result : Except ReadError Unit}
    (h : git.RunsInOrder before (first ++ rest) run result) (hbeyond : ¬run <+: first) :
    first <+: run ∧ git.AcceptsAll before first := by
  have hfirst : first <+: run :=
    (List.prefix_or_prefix_of_prefix h.listed (List.prefix_append first rest)).resolve_left hbeyond
  refine ⟨hfirst, h.accepted.of_prefix ?_⟩
  obtain ⟨more, rfl⟩ := hfirst
  cases more with
  | nil => exact absurd (by simp) hbeyond
  | cons e more => simp

end Behaviour

/-! ### One step -/

theorem checkStored_eq_ok_iff {expected : ObjectId} {stored : Except ReadError ObjectId} :
    checkStored expected stored = .ok () ↔ stored = .ok expected := by
  cases stored with
  | error e => simp [checkStored]
  | ok id =>
    rw [checkStored, Except.ok.injEq, eq_comm (a := id)]
    split <;> simp_all

section

variable {σ : Type} (respond : σ → (call : Call) → Answer call × σ)

@[simp] theorem serve_run (directory : String) (args : List String) (input : Option ByteArray) (s : σ) :
    (Checkout.run directory args input).serve respond s
      = ((respond s ⟨directory, args, input⟩).1.mapError
          fun text => .notStarted ("git " ++ args.headD "" ++ ": " ++ text),
        (respond s ⟨directory, args, input⟩).2) := rfl

/-- Storing is one call; it gives an id exactly if the call succeeds and prints that id. -/
theorem serve_store (c : Checkout) (kind : ObjectKind) (body : ByteArray) (s : σ) :
    ((c.store kind body).serve respond s).2 = (respond s (c.storeCall kind body)).2 ∧
      ∀ id, ((c.store kind body).serve respond s).1 = .ok id ↔
        Errand.Accepts ⟨c.storeCall kind body, some id⟩ (respond s (c.storeCall kind body)).1 := by
  rw [Checkout.store, Dialogue.serve_bind, serve_run]
  dsimp only
  rw [← Checkout.storeCall]
  cases (respond s (c.storeCall kind body)).1 with
  | error text =>
    delta Except.mapError
    exact ⟨rfl, fun id => by simp [Dialogue.serve, Errand.Accepts]⟩
  | ok reply =>
    delta Except.mapError
    simp only [Dialogue.serve, Errand.Accepts, Except.ok.injEq, exists_eq_left', Option.mem_def,
      Option.some.injEq, forall_eq', true_and]
    -- An answer is an id only when the command succeeded and printed one.
    intro id
    by_cases hreply : reply.succeeded = true
    · rw [if_pos hreply, ← ObjectId.parse_eq_ok_iff, and_iff_right hreply]
      cases ObjectId.parse (Text.trim (Text.ofBytes reply.output)) <;> simp
    · rw [if_neg hreply]
      exact iff_of_false (by simp) fun h => hreply h.1

/-- Moving a ref is one call, and succeeds if the call does. -/
theorem serve_updateRef (c : Checkout) (name : String) (id : ObjectId) (s : σ) :
    ((c.updateRef name id).serve respond s).2 = (respond s (c.refCall name id)).2 ∧
      (((c.updateRef name id).serve respond s).1 = .ok () ↔
        Errand.Accepts ⟨c.refCall name id, none⟩ (respond s (c.refCall name id)).1) := by
  rw [Checkout.updateRef, Checkout.output, Dialogue.serve_bind, Dialogue.serve_bind, serve_run]
  dsimp only
  rw [← Checkout.refCall]
  cases (respond s (c.refCall name id)).1 with
  | error text =>
    delta Except.mapError
    exact ⟨rfl, by simp [Dialogue.serve, Except.map, Errand.Accepts]⟩
  | ok reply =>
    delta Except.mapError
    simp only [Dialogue.serve, Errand.Accepts, Except.ok.injEq, exists_eq_left', Option.mem_def,
      reduceCtorEq, false_implies, implies_true, and_true, true_and]
    by_cases hreply : reply.succeeded = true <;> simp [hreply, Except.map]

/-- Taking a step is one call, and succeeds if its errand is accepted. -/
theorem serve_publishStep (c : Checkout) (step : Step) (s : σ) :
    ((c.publishStep step).serve respond s).2 = (respond s (step.errand c).call).2 ∧
      (((c.publishStep step).serve respond s).1 = .ok () ↔
        (step.errand c).Accepts (respond s (step.errand c).call).1) := by
  cases step with
  | commit new =>
    obtain ⟨hstate, hid⟩ := serve_store respond c .commit new.commit.body s
    rw [Checkout.publishStep, Checkout.writeCommit, Dialogue.serve_bind, Dialogue.serve, checkStored_eq_ok_iff]
    exact ⟨hstate, hid new.id⟩
  | tag new =>
    obtain ⟨hstate, hid⟩ := serve_store respond c .tag new.body s
    rw [Checkout.publishStep, Checkout.writeTag, Dialogue.serve_bind, Dialogue.serve, checkStored_eq_ok_iff]
    exact ⟨hstate, hid new.id⟩
  | ref name id => exact serve_updateRef respond c name id s

end

theorem play_publishStep (git : Behaviour) (c : Checkout) (step : Step) (before : List Call) :
    (git.play (c.publishStep step) before).2 = before ++ [(step.errand c).call] ∧
      ((git.play (c.publishStep step) before).1 = .ok () ↔
        (step.errand c).Accepts (git before (step.errand c).call)) :=
  serve_publishStep _ c step before

/-! ### All steps -/

theorem takeSteps_runsInOrder (git : Behaviour) (c : Checkout) : ∀ (steps : List Step) (before : List Call),
    ∃ run, (git.play (c.takeSteps steps) before).2 = before ++ run.map (·.call) ∧
      git.RunsInOrder before (steps.map (·.errand c)) run (git.play (c.takeSteps steps) before).1
  | [], before => ⟨[], by simp [Checkout.takeSteps], .nil⟩
  | step :: rest, before => by
      obtain ⟨hcalls, hok⟩ := play_publishStep git c step before
      rw [Checkout.takeSteps, Behaviour.play_bind, hcalls, List.map_cons]
      cases hresult : (git.play (c.publishStep step) before).1 with
      | error e =>
        rw [hresult] at hok
        exact ⟨[step.errand c], rfl, .refused (fun haccepts => nomatch hok.2 haccepts) nofun⟩
      | ok u =>
        obtain ⟨run, hrun, hinorder⟩ := takeSteps_runsInOrder git c rest (before ++ [(step.errand c).call])
        refine ⟨step.errand c :: run, ?_, .cons (hok.1 hresult) hinorder⟩
        rw [hrun, List.append_assoc, List.map_cons, List.singleton_append]

theorem map_errand_publishSteps (c : Checkout) (outcome : Outcome) (space : String) :
    (publishSteps outcome space).map (·.errand c) = c.storing outcome ++ c.pointing outcome space := by
  simp only [publishSteps, Checkout.storing, Checkout.pointing, List.map_append, List.map_map, List.map_filterMap,
    Option.map_map, List.append_assoc]
  rfl

theorem not_movesRef_of_mem_storing {e : Errand} (h : e ∈ c.storing outcome) : ¬e.call.MovesRef := by
  simp only [Checkout.storing, List.mem_append, List.mem_map] at h
  rcases h with ⟨new, -, rfl⟩ | ⟨tag, -, rfl⟩ <;> simp [Call.MovesRef, Checkout.storeCall]

theorem exists_ref_of_mem_pointing {e : Errand} (h : e ∈ c.pointing outcome space) :
    ∃ name id, e.call = c.refCall (publishedName space name) id ∧
      ((∃ head, (name, head) ∈ outcome.heads.entries ∧ head.after = id) ∨
        ∃ tag, (name, tag) ∈ outcome.tags.entries ∧ tag.after = some id) := by
  simp only [Checkout.pointing, List.mem_append, List.mem_map, List.mem_filterMap, Option.map_eq_some_iff,
    Prod.exists] at h
  rcases h with ⟨name, head, hmem, rfl⟩ | ⟨name, tag, hmem, id, hid, rfl⟩
  · exact ⟨name, head.after, rfl, .inl ⟨head, hmem, rfl⟩⟩
  · exact ⟨name, id, rfl, .inr ⟨tag, hmem, hid⟩⟩

/-- An outcome with no new objects is published without a call that stores one. -/
theorem exists_play_publish (git : Behaviour) (c : Checkout) (space : String) (before : List Call)
    (hcommits : outcome.commits = []) (htags : outcome.tagObjects = []) :
    ∃ made, (git.play (c.publish outcome space) before).2 = before ++ made ∧ ∀ call ∈ made, ¬call.Stores := by
  obtain ⟨run, hcalls, hinorder⟩ := takeSteps_runsInOrder git c (publishSteps outcome space) before
  have hstoring : c.storing outcome = [] := by
    rw [Checkout.storing, hcommits, htags]
    rfl
  rw [map_errand_publishSteps, hstoring, List.nil_append] at hinorder
  refine ⟨run.map Errand.call, hcalls, List.forall_mem_map.2 fun e he => ?_⟩
  obtain ⟨name, id, hcall, -⟩ := exists_ref_of_mem_pointing (hinorder.listed.subset he)
  rw [hcall]
  simp [Call.Stores, Checkout.refCall]

/-- Whatever git answers, publishing runs the errands of the new objects and then those of the refs, each once the one
    before it is accepted, stops only at one that is refused, and succeeds exactly if all are run and accepted. So no
    ref moves before every object is stored under its id, and the refs that move are those of heads and of tags that
    are retained. -/
theorem publish_runs_in_order (git : Behaviour) (c : Checkout) (outcome : Outcome) (space : String)
    (before : List Call) :
    ∃ run : List Errand,
      (git.play (c.publish outcome space) before).2 = before ++ run.map (·.call) ∧
      git.RunsInOrder before (c.storing outcome ++ c.pointing outcome space) run
        (git.play (c.publish outcome space) before).1 ∧
      ∀ e ∈ run, e.call.MovesRef →
        (c.storing outcome <+: run ∧ git.AcceptsAll before (c.storing outcome)) ∧
        ∃ name id, e.call = c.refCall (publishedName space name) id ∧
          ((∃ head, (name, head) ∈ outcome.heads.entries ∧ head.after = id) ∨
            ∃ tag, (name, tag) ∈ outcome.tags.entries ∧ tag.after = some id) := by
  obtain ⟨run, hcalls, hinorder⟩ := takeSteps_runsInOrder git c (publishSteps outcome space) before
  rw [map_errand_publishSteps] at hinorder
  refine ⟨run, hcalls, hinorder, fun e he hmoves => ⟨?_, ?_⟩⟩
  · -- The call that moves a reference stands beyond those that store, so each of these was accepted.
    refine hinorder.acceptsAll_of_beyond fun hleads => ?_
    exact not_movesRef_of_mem_storing (hleads.subset he) hmoves
  · rcases List.mem_append.1 (hinorder.listed.subset he) with hstores | hpoints
    · exact absurd hmoves (not_movesRef_of_mem_storing hstores)
    · exact exists_ref_of_mem_pointing hpoints

end PrunedHistory.Git
