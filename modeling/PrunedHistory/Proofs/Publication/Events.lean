import PrunedHistory.Proofs.Publication.Success

/-! What a publication tells

    Every branch tells that it is begun and that it is done, and in between only its walk can fail. So what is told
    shows how many walks succeeded, and a sink that asks for an end after so many tasks is heard just before the next
    one. The induction is over the branches that are left; it carries that those before them told two events each.
    Main statement: the events are a beginning of the whole list, and how long it is says how the publication ended. -/

namespace PrunedHistory

def Event.isStart : Event → Bool
  | started _ _ => true
  | advanced _ => false

namespace Repository

/-- The tag objects from an id inwards lead to a tree or a blob. -/
inductive EndsAside (r : Repository) : ObjectId → Prop where
  | last {id : ObjectId} {tag : Tag} : r.tag id = .ok tag → tag.kind = .tree ∨ tag.kind = .blob → EndsAside r id
  | next {id : ObjectId} {tag : Tag} : r.tag id = .ok tag → tag.kind = .tag → EndsAside r tag.object → EndsAside r id

/-- A listed tag that is no tag of a commit, though it can be read to its end. -/
def PassesOver (r : Repository) : TagRef → Prop
  | .lightweight _ _ => False
  | .annotated _ id => r.EndsAside id

open Classical in
/-- How many listed tags are left without those that are passed over. -/
noncomputable def tagCount (r : Repository) : Nat :=
  match r.tags with
  | .ok refs => refs.countP fun tag => ¬r.PassesOver tag
  | .error _ => 0

variable {r : Repository} {id commit : ObjectId} {chain : List Tag}

theorem EndsAside.not_leadsTo (h : r.EndsAside id) : ¬r.LeadsTo id chain commit := by
  intro hleads
  induction h generalizing chain with
  | last ht hkind =>
    cases hleads with
    | last ht' hkind' | next ht' hkind' _ =>
      obtain rfl := Except.ok.inj (ht.symm.trans ht')
      simp [hkind'] at hkind
  | next ht hkind _ ih =>
    cases hleads with
    | last ht' hkind' =>
      obtain rfl := Except.ok.inj (ht.symm.trans ht')
      exact absurd (hkind.symm.trans hkind') (by decide)
    | next ht' _ hinner =>
      obtain rfl := Except.ok.inj (ht.symm.trans ht')
      exact ih hinner

/-- Tag objects that can be read to their end lead aside or to a commit. -/
theorem Unwraps.endsAside_or_leadsTo (h : r.Unwraps id) :
    r.EndsAside id ∨ ∃ chain commit, r.LeadsTo id chain commit := by
  induction h with
  | @last id tag ht hkind =>
    cases hend : tag.kind with
    | commit => exact .inr ⟨_, _, .last ht hend⟩
    | tree => exact .inl (.last ht (.inl hend))
    | blob => exact .inl (.last ht (.inr hend))
    | tag => exact absurd hend hkind
  | next ht hkind _ ih =>
    rcases ih with haside | ⟨chain, commit, hleads⟩
    · exact .inl (.next ht hkind haside)
    · exact .inr ⟨_, _, .next ht hkind hleads⟩

end Repository

namespace PeeledTag

variable {r : Repository} {limit : Nat} {tag : TagRef} {peeled : Option PeeledTag}

/-- What is passed over gives nothing when it is peeled. -/
theorem ofRef_eq_none_iff (h : r.run (ofRef limit tag) = .ok peeled) : peeled = none ↔ r.PassesOver tag := by
  -- Peeling ended, so the chain can be read to its end.
  have hunwraps : r.UnwrapsRef tag := by
    have hends := ofRef_ends r limit tag
    rw [h] at hends
    cases hends
    assumption
  have hpeels := ofRef_ok_iff h
  cases tag with
  | lightweight name target =>
    refine iff_of_false (fun hnone => ?_) id
    rw [hnone] at hpeels
    cases (hpeels ⟨.lightweight name target, [], target⟩).2 ⟨rfl, .lightweight⟩
  | annotated name id =>
    constructor
    · rintro rfl
      rcases Repository.Unwraps.endsAside_or_leadsTo hunwraps with haside | ⟨chain, commit, hleads⟩
      · exact haside
      · cases (hpeels ⟨.annotated name id, chain, commit⟩).2 ⟨rfl, .annotated hleads⟩
    · intro haside
      rcases peeled with _ | ⟨tag, chain, commit⟩
      · rfl
      · obtain ⟨rfl, hway⟩ := (hpeels _).1 rfl
        cases hway with
        | annotated hleads => exact absurd hleads haside.not_leadsTo

open Classical in
theorem length_ofRefs : ∀ {refs : List TagRef} {tags : List PeeledTag}, r.run (ofRefs limit refs) = .ok tags →
    tags.length = refs.countP fun tag => ¬r.PassesOver tag
  | [], tags, h => by
      cases h
      rfl
  | tag :: rest, tags, h => by
      rw [ofRefs, Repository.run_bind] at h
      cases hfirst : r.run (ofRef limit tag) with
      | error e =>
        rw [hfirst] at h
        cases h
      | ok first =>
        simp only [hfirst, Repository.run_bind, Repository.run_done] at h
        cases hrest : r.run (ofRefs limit rest) with
        | error e =>
          rw [hrest] at h
          cases h
        | ok others =>
          rw [hrest] at h
          cases h
          rw [List.length_append, length_ofRefs hrest, List.countP_cons, ← ofRef_eq_none_iff hfirst, Nat.add_comm]
          cases first <;> simp

end PeeledTag

namespace Publication

/-- Asks for an end once so many tasks are started. -/
def cancelAfter (count : Nat) (events : List Event) : Bool := count ≤ events.countP Event.isStart

/-- What a branch tells that is done. -/
def branchEvents (q : Request) : List Event := [.started ("Rewriting " ++ q.name) 1, .advanced 1]

/-- What a publication tells that succeeds, with so many tags to retarget. -/
def allEvents (requests : List Request) (tagCount : Nat) : List Event :=
  requests.flatMap branchEvents ++ tagEvents tagCount

/-- The walk of one more branch, on the ledger of the walks before. -/
def walkBranch (r : Repository) (isHead isTagged : ObjectId → Bool) (l : Ledger) (q : Request) :
    Except WalkError Ledger :=
  match r.run (Walk.run (q.retention.selection isHead isTagged) l (r.start q)) with
  | (_, .error e) => .error e
  | (ledger, .ok _) => .ok ledger

open Classical in
/-- Whether a commit is a head of one of the requests. -/
noncomputable def headOf (r : Repository) (requests : List Request) (id : ObjectId) : Bool :=
  decide (∃ q ∈ requests, r.head q = .ok id)

open Classical in
/-- Whether a listed tag leads to a commit. -/
noncomputable def taggedIn (r : Repository) (id : ObjectId) : Bool := decide (r.IsTagged id)

/-- The ledger of the first walks, or the error of the first one that fails. -/
noncomputable def afterWalks (r : Repository) (requests : List Request) (count : Nat) : Except WalkError Ledger :=
  (requests.take count).foldlM (walkBranch r (headOf r requests) (taggedIn r)) {}

variable {r : Repository} {limit : Nat} {isHead isTagged : ObjectId → Bool} {requests : List Request}
  {tags : List PeeledTag}

theorem length_peeledTags (h : r.run (peeledTags limit) = .ok tags) : tags.length = r.tagCount := by
  rw [peeledTags, Repository.run_bind, Repository.run_question, Repository.answer] at h
  rw [Repository.tagCount]
  cases hrefs : r.tags with
  | error e =>
    rw [hrefs] at h
    cases h
  | ok refs =>
    rw [hrefs] at h
    exact PeeledTag.length_ofRefs h

/-! ### Walk after walk -/

section

variable {before : List Request} {q : Request} {l : Ledger} {i j : Nat} {e : WalkError}

/-- The walk of one more branch is that on the ledger of those before. -/
theorem foldlM_walkBranch_concat (h : before.foldlM (walkBranch r isHead isTagged) {} = .ok l) :
    (before ++ [q]).foldlM (walkBranch r isHead isTagged) {} = walkBranch r isHead isTagged l q := by
  rw [List.foldlM_append, h]
  simp only [List.foldlM_cons, List.foldlM_nil, bind_pure]
  rfl

/-- After a walk that fails, none succeeds. -/
theorem afterWalks_of_error (h : afterWalks r requests i = .error e) (hij : i ≤ j) :
    afterWalks r requests j = .error e := by
  obtain ⟨more, rfl⟩ := Nat.exists_eq_add_of_le hij
  rw [afterWalks] at h ⊢
  rw [List.take_add, List.foldlM_append, h]
  rfl

theorem lt_of_afterWalks (hok : afterWalks r requests i = .ok l) (herror : afterWalks r requests j = .error e) :
    i < j := by
  by_contra hle
  cases hok.symm.trans (afterWalks_of_error herror (Nat.le_of_not_lt hle))

/-- There is no walk after the last one. -/
theorem afterWalks_of_length_le (h : requests.length ≤ i) :
    afterWalks r requests i = afterWalks r requests requests.length := by
  rw [afterWalks, afterWalks, List.take_of_length_le h, List.take_length]

/-- The walks before the one at this place succeed, and this one fails. -/
def FailsAt (r : Repository) (requests : List Request) (i : Nat) (e : WalkError) : Prop :=
  (∃ l, afterWalks r requests i = .ok l) ∧ afterWalks r requests (i + 1) = .error e

/-- The walks up to one that fails are all that succeed. -/
theorem FailsAt.le (h : FailsAt r requests i e) (hok : afterWalks r requests j = .ok l) : j ≤ i :=
  Nat.le_of_lt_succ (lt_of_afterWalks hok h.2)

theorem FailsAt.lt_length (h : FailsAt r requests i e) : i < requests.length := by
  by_contra hle
  obtain ⟨l, hok⟩ := h.1
  have hlast := afterWalks_of_length_le (r := r) (Nat.le_of_not_lt hle)
  have hnext := afterWalks_of_length_le (r := r) (Nat.le_succ_of_le (Nat.le_of_not_lt hle))
  cases hok.symm.trans (hlast.trans (hnext.symm.trans h.2))

/-- Only one walk fails, and for one reason. -/
theorem FailsAt.unique {e' : WalkError} (h : FailsAt r requests i e) (h' : FailsAt r requests j e') :
    i = j ∧ e = e' := by
  obtain ⟨l, hok⟩ := h.1
  obtain ⟨l', hok'⟩ := h'.1
  obtain rfl : i = j := Nat.le_antisymm (h'.le hok) (h.le hok')
  exact ⟨rfl, Except.error.inj (h.2.symm.trans h'.2)⟩

theorem countP_branchEvents : ∀ done : List Request, (done.flatMap branchEvents).countP Event.isStart = done.length
  | [] => rfl
  | q :: done => by
      rw [List.flatMap_cons, List.countP_append, countP_branchEvents done, List.length_cons, Nat.add_comm]
      rfl

theorem length_branchEvents : ∀ done : List Request, (done.flatMap branchEvents).length = 2 * done.length
  | [] => rfl
  | q :: done => by
      rw [List.flatMap_cons, List.length_append, length_branchEvents done, List.length_cons, Nat.mul_succ, Nat.add_comm]
      rfl

end

/-! ### Branch after branch -/

/-- The branches of the requests are done, and they have told so. -/
structure Told (r : Repository) (isHead isTagged : ObjectId → Bool) (requests : List Request) (progress : Progress) :
    Prop where
  done : Done r isHead isTagged requests progress
  walked : requests.foldlM (walkBranch r isHead isTagged) {} = .ok progress.ledger
  events : progress.events = requests.flatMap branchEvents

/-- How branches end that are cancelled at the given number of tasks. -/
inductive BranchesTell (r : Repository) (isHead isTagged : ObjectId → Bool) (count : Nat) (requests : List Request) :
    Progress × Except PublicationError Unit → Prop where
  | done {left : Progress} : requests.length ≤ count → Told r isHead isTagged requests left →
    BranchesTell r isHead isTagged count requests (left, .ok ())
  | cancelled {before after : List Request} {left : Progress} : requests = before ++ after → before.length = count →
    after ≠ [] → Told r isHead isTagged before left →
    BranchesTell r isHead isTagged count requests (left, .error .cancelled)
  | failed {before after : List Request} {q : Request} {progress left : Progress} {e : WalkError} :
    requests = before ++ q :: after → before.length < count → Told r isHead isTagged before progress →
    walkBranch r isHead isTagged progress.ledger q = .error e →
    left.events = before.flatMap branchEvents ++ [.started ("Rewriting " ++ q.name) 1] →
    BranchesTell r isHead isTagged count requests (left, .error (.walk e))

section

variable {progress : Progress} {q : Request} {before : List Request}

/-- A branch that is done tells so, and nothing else. -/
theorem events_of_branch {job : Request × ObjectId} {next : Progress}
    (h : branch r isHead isTagged progress job = (next, .ok ())) :
    next.events = progress.events ++ branchEvents job.1 := by
  rw [Publication.branch] at h
  split at h
  · cases h
  · split at h
    · cases h
    · cases h
      rw [List.append_assoc]
      rfl

theorem told_nothing : Told r isHead isTagged [] {} where
  done := done_nothing
  walked := rfl
  events := rfl

/-- A branch that is begun tells that it is done, or its walk fails. -/
theorem Told.branch (h : Told r isHead isTagged before progress) (hq : r.head q = .ok (r.start q))
    (his : isHead (r.start q) = true) :
    (∃ next, branch r isHead isTagged progress (q, r.start q) = (next, .ok ()) ∧
      Told r isHead isTagged (before ++ [q]) next) ∨
    ∃ left e, branch r isHead isTagged progress (q, r.start q) = (left, .error (.walk e)) ∧
      walkBranch r isHead isTagged progress.ledger q = .error e ∧
      left.events = before.flatMap branchEvents ++ [.started ("Rewriting " ++ q.name) 1] := by
  have hsound := h.done.settled.sound
  -- The walks up to this branch come to the ledger it starts from.
  have hconcat : (before ++ [q]).foldlM (walkBranch r isHead isTagged) {}
      = walkBranch r isHead isTagged progress.ledger q := foldlM_walkBranch_concat h.walked
  have hleaves := Walk.leaves_run r (q.retention.selection isHead isTagged) (r.start q) hsound.indexed
  rw [Publication.branch, walkBranch]
  rw [walkBranch] at hconcat
  rcases hwalk : r.run (Walk.run (q.retention.selection isHead isTagged) progress.ledger (r.start q)) with ⟨l, e | xs⟩
  · refine .inr ⟨_, e, rfl, rfl, ?_⟩
    rw [h.events]
  · rw [hwalk] at hleaves hconcat
    have hsettled := h.done.settled.walk hq hwalk
    obtain ⟨new, hnew⟩ := hsettled.exists_replacement (by simp) hq his
    simp only [replacement_of_find? hnew]
    refine .inl ⟨_, rfl, h.done.branch hsettled (hleaves.grows.extends hsound.indexed) hnew _, hconcat, ?_⟩
    rw [h.events, List.flatMap_append, List.flatMap_singleton, List.append_assoc]
    rfl

/-- The branches that are left end in one of the three ways. -/
theorem branches_tell {count : Nat} : ∀ {rest before : List Request} {progress : Progress},
    Told r isHead isTagged before progress → before.length ≤ count →
    (∀ q ∈ rest, r.head q = .ok (r.start q) ∧ isHead (r.start q) = true) →
    BranchesTell r isHead isTagged count (before ++ rest)
      (r.run (branches (cancelAfter count) isHead isTagged progress (r.jobs rest)))
  | [], before, progress, h, hcount, _ => by
      rw [List.append_nil]
      exact .done hcount h
  | q :: rest, before, progress, h, hcount, hrest => by
      obtain ⟨hq, his⟩ := hrest q List.mem_cons_self
      -- Only the branches that are done have told of a start, so the sink counts just them.
      have hasks : cancelAfter count progress.events = decide (count ≤ before.length) := by
        rw [cancelAfter, h.events, countP_branchEvents]
      change BranchesTell r isHead isTagged count (before ++ q :: rest)
        (r.run (branches (cancelAfter count) isHead isTagged progress ((q, r.start q) :: r.jobs rest)))
      rw [run_branches_cons, hasks]
      by_cases hend : count ≤ before.length
      · rw [decide_eq_true hend, if_pos rfl]
        exact .cancelled rfl (Nat.le_antisymm hcount hend) (by simp) h
      · rw [decide_eq_false hend, if_neg (by simp)]
        have hroom : before.length < count := Nat.lt_of_not_le hend
        rcases h.branch hq his with ⟨next, hbranch, hnext⟩ | ⟨left, e, hbranch, hwalk, hevents⟩
        · rw [hbranch]
          have hlater := branches_tell hnext (by simpa using Nat.succ_le_of_lt hroom) fun q' hq' =>
            hrest q' (List.mem_cons_of_mem _ hq')
          rwa [List.append_assoc] at hlater
        · rw [hbranch]
          exact .failed rfl hroom h hwalk hevents

/-- Branches that do not outnumber the tasks that are left do not notice the sink. -/
theorem branches_unnoticed {count : Nat} : ∀ {jobs : List (Request × ObjectId)} {progress : Progress},
    progress.events.countP Event.isStart + jobs.length ≤ count →
    r.run (branches (cancelAfter count) isHead isTagged progress jobs)
      = r.run (branches (fun _ => false) isHead isTagged progress jobs)
  | [], _, _ => rfl
  | job :: jobs, progress, h => by
      rw [List.length_cons] at h
      have hasks : cancelAfter count progress.events = false := decide_eq_false (by omega)
      rw [run_branches_cons, run_branches_cons, hasks]
      rcases hbranch : branch r isHead isTagged progress job with ⟨next, e | _⟩
      · rfl
      · refine branches_unnoticed ?_
        rw [events_of_branch hbranch, List.countP_append]
        change _ + 1 + _ ≤ _
        omega

end

/-! ### The whole publication -/

/-- Every request can be resolved and every tag can be peeled. -/
structure Ready (r : Repository) (requests : List Request) : Prop where
  resolves : ∀ q ∈ requests, ∃ head, r.head q = .ok head
  unwraps : r.UnwrapsTags

variable {heads : List ObjectId} {count : Nat}

theorem member_heads_eq (h : requests.map r.head = heads.map .ok) : member heads = headOf r requests := by
  funext id
  have hmem : .ok id ∈ requests.map r.head ↔ id ∈ heads := by
    rw [h]
    simp
  rw [Bool.eq_iff_iff, member_iff, ← hmem, List.mem_map, headOf, decide_eq_true_iff]

theorem member_commits_eq (h : r.run (peeledTags limit) = .ok tags) : member (tags.map (·.commit)) = taggedIn r := by
  funext id
  rw [Bool.eq_iff_iff, member_commits_iff h]
  simp [taggedIn]

theorem Ready.head (h : Ready r requests) : ∀ q ∈ requests, r.head q = .ok (r.start q) := by
  intro q hq
  obtain ⟨head, hhead⟩ := h.resolves q hq
  rw [Repository.start, hhead]
  rfl

/-- How a publication begins, whoever asks for an end: it fails for what is not ready, it is stopped by a tag, or it comes
    as far as its branches. -/
inductive Begins (r : Repository) (requests : List Request) (limit : Nat) : Prop where
  | failed {reason : ReadError} : ¬Ready r requests →
    (∀ cancelled, r.run (walks requests cancelled limit) = ({}, .error (.failed (.read reason)))) → Begins r requests limit
  | stopped : (∀ cancelled, r.run (walks requests cancelled limit) = ({}, .error .atLimit)) → Begins r requests limit
  | branches {tags : List PeeledTag} : Ready r requests → tags.length = r.tagCount →
    (∀ cancelled left, r.run (branches cancelled (headOf r requests) (taggedIn r) {} (r.jobs requests)) = left →
      r.run (walks requests cancelled limit) = (left.1, (left.2.map fun () => tags).mapError .failed)) →
    Begins r requests limit

theorem begins (r : Repository) (requests : List Request) (limit : Nat) : Begins r requests limit := by
  cases hstarts : requests.mapM r.head with
  | error reason =>
    refine @Begins.failed r requests limit reason (fun hready => ?_) fun cancelled => ?_
    · obtain ⟨q, hq, hfails⟩ := error_of_mapM hstarts
      obtain ⟨head, hhead⟩ := hready.resolves q hq
      cases hfails.symm.trans hhead
    · rw [walks, Repository.run_bind, run_starts, hstarts]
      rfl
  | ok heads =>
    have hheads := map_of_mapM hstarts
    -- Once the requests are resolved, how the peeling ends decides whether a branch is walked at all.
    have hstops : ∀ stop, r.run (peeledTags limit) = .error stop →
        ∀ cancelled, r.run (walks requests cancelled limit) = ({}, .error stop) := by
      intro stop hpeeled cancelled
      rw [walks, Repository.run_bind, run_starts, hstarts]
      simp only [mapError_ok, Repository.run_bind, hpeeled]
      rfl
    rcases hpeeled : r.run (peeledTags limit), peeledTags_ends r limit with ⟨_, ⟨tags, hunwraps⟩ | hblames | hnests⟩
    · have hready : Ready r requests := ⟨fun q hq => ⟨_, head_of_resolved hheads q hq⟩, hunwraps⟩
      refine .branches hready (length_peeledTags hpeeled) fun cancelled left hleft => ?_
      rw [← member_heads_eq hheads, ← member_commits_eq hpeeled, ← zip_heads hheads] at hleft
      exact run_walks hheads hpeeled hleft
    · exact .failed (fun hready => hready.unwraps.not_blames hblames) (hstops _ hpeeled)
    · exact .stopped (hstops _ hpeeled)

/-- The branches of what is ready end in one of the three ways. -/
theorem Ready.branches_tell (h : Ready r requests) (count : Nat) : BranchesTell r (headOf r requests) (taggedIn r) count
    requests (r.run (branches (cancelAfter count) (headOf r requests) (taggedIn r) {} (r.jobs requests))) :=
  Publication.branches_tell told_nothing (Nat.zero_le count) fun q hq => by
    refine ⟨h.head q hq, ?_⟩
    simp only [headOf, decide_eq_true_eq]
    exact ⟨q, hq, h.head q hq⟩

/-- Branches that are done have walked as the first walks of all requests do. -/
theorem Told.afterWalks {before after : List Request} {progress : Progress}
    (h : Told r (headOf r requests) (taggedIn r) before progress) (hsplit : requests = before ++ after) :
    afterWalks r requests before.length = .ok progress.ledger := by
  have htake : requests.take before.length = before := by rw [hsplit, List.take_left]
  rw [Publication.afterWalks, htake, h.walked]

/-- A walk that fails after the branches that are done is the one at the next place. -/
theorem Told.failsAt {before after : List Request} {progress : Progress} {q : Request} {e : WalkError}
    (h : Told r (headOf r requests) (taggedIn r) before progress) (hsplit : requests = before ++ q :: after)
    (hwalk : walkBranch r (headOf r requests) (taggedIn r) progress.ledger q = .error e) :
    FailsAt r requests before.length e := by
  refine ⟨⟨_, h.afterWalks hsplit⟩, ?_⟩
  have htake : requests.take (before.length + 1) = before ++ [q] := by
    rw [hsplit, List.take_length_add_append]
    rfl
  rw [Publication.afterWalks, htake, foldlM_walkBranch_concat h.walked, hwalk]

/-- What a publication tells, and how it ends, with a sink that asks for an end once so many tasks are started. -/
structure Tells (r : Repository) (requests : List Request) (count : Nat) (events : List Event)
    (result : Except (Stop PublicationError) Outcome) : Prop where
  begins : events <+: allEvents requests r.tagCount
  whole : events = allEvents requests r.tagCount ↔ ∃ outcome, result = .ok outcome
  succeeds : (∃ outcome, result = .ok outcome) ↔
    requests.length ≤ count ∧ Ready r requests ∧ ∃ l, afterWalks r requests requests.length = .ok l
  cancelled : result = .error (.failed .cancelled) ↔
    count < requests.length ∧ Ready r requests ∧ ∃ l, afterWalks r requests count = .ok l
  heard : result = .error (.failed .cancelled) → events = (allEvents requests r.tagCount).take (2 * count)
  silent : ¬Ready r requests → events = []
  fails : ∀ e, result = .error (.failed (.walk e)) ↔ Ready r requests ∧ ∃ i < count, FailsAt r requests i e
  begun : Ready r requests → ∀ i < count, ∀ e, FailsAt r requests i e →
    events = (allEvents requests r.tagCount).take (2 * i + 1)

variable {tagCount : Nat} {l : Ledger} {i : Nat} {e : WalkError}

theorem length_allEvents : (allEvents requests tagCount).length = 2 * requests.length + (tagCount + 1) := by
  rw [allEvents, List.length_append, length_branchEvents, tagEvents, List.length_cons, List.length_map,
    List.length_range]

/-- What is told up to the last branch is not the whole. -/
theorem take_allEvents_ne (h : i ≤ 2 * requests.length) :
    (allEvents requests tagCount).take i ≠ allEvents requests tagCount := by
  intro htake
  have hlength := congrArg List.length htake
  rw [List.length_take, length_allEvents] at hlength
  omega

theorem take_allEvents {before after : List Request} : (allEvents (before ++ after) tagCount).take (2 * before.length)
    = before.flatMap branchEvents := by
  rw [allEvents, List.flatMap_append, List.append_assoc, ← length_branchEvents, List.take_left]

theorem take_allEvents_succ {before after : List Request} {q : Request} :
    (allEvents (before ++ q :: after) tagCount).take (2 * before.length + 1)
      = before.flatMap branchEvents ++ [.started ("Rewriting " ++ q.name) 1] := by
  rw [List.take_add, take_allEvents, allEvents, List.flatMap_append, List.append_assoc, ← length_branchEvents,
    List.drop_left]
  rfl

theorem tells_of_not_ready {reason : ReadError} (h : ¬Ready r requests) :
    Tells r requests count [] (.error (.failed (.read reason))) where
  begins := List.nil_prefix
  whole := iff_of_false (take_allEvents_ne (Nat.zero_le _)) (by simp)
  succeeds := iff_of_false (by simp) fun hsucceeds => h hsucceeds.2.1
  cancelled := iff_of_false (by simp) fun hends => h hends.2.1
  heard he := by cases he
  silent _ := rfl
  fails e' := iff_of_false (by simp) fun hfails => h hfails.1
  begun hready := absurd hready h

theorem tells_of_done {outcome : Outcome} (h : Ready r requests) (hcount : requests.length ≤ count)
    (hwalks : afterWalks r requests requests.length = .ok l) :
    Tells r requests count (allEvents requests r.tagCount) (.ok outcome) where
  begins := List.prefix_rfl
  whole := iff_of_true rfl ⟨outcome, rfl⟩
  succeeds := iff_of_true ⟨outcome, rfl⟩ ⟨hcount, h, l, hwalks⟩
  cancelled := iff_of_false (by simp) fun hends => absurd hcount (Nat.not_le_of_lt hends.1)
  heard he := by cases he
  silent hready := absurd h hready
  fails e := iff_of_false (by simp) fun ⟨_, _, _, hfails⟩ =>
    absurd (hfails.le hwalks) (Nat.not_le_of_lt hfails.lt_length)
  begun _ _ _ _ hfails := absurd (hfails.le hwalks) (Nat.not_le_of_lt hfails.lt_length)

theorem tells_of_cancelled (h : Ready r requests) (hcount : count < requests.length)
    (hwalks : afterWalks r requests count = .ok l) :
    Tells r requests count ((allEvents requests r.tagCount).take (2 * count)) (.error (.failed .cancelled)) where
  begins := List.take_prefix _ _
  whole := iff_of_false (take_allEvents_ne (Nat.mul_le_mul_left 2 hcount.le)) (by simp)
  succeeds := iff_of_false (by simp) fun hsucceeds => absurd hsucceeds.1 (Nat.not_le_of_lt hcount)
  cancelled := iff_of_true rfl ⟨hcount, h, l, hwalks⟩
  heard _ := rfl
  silent hready := absurd h hready
  fails e := iff_of_false (by simp) fun ⟨_, _, hi, hfails⟩ => absurd (hfails.le hwalks) (Nat.not_le_of_lt hi)
  begun _ _ hi _ hfails := absurd (hfails.le hwalks) (Nat.not_le_of_lt hi)

theorem tells_of_failed (h : Ready r requests) (hi : i < count) (hfails : FailsAt r requests i e) :
    Tells r requests count ((allEvents requests r.tagCount).take (2 * i + 1)) (.error (.failed (.walk e))) where
  begins := List.take_prefix _ _
  whole := by
    have hlength := hfails.lt_length
    exact iff_of_false (take_allEvents_ne (by omega)) (by simp)
  succeeds := iff_of_false (by simp) fun ⟨_, _, _, hwalks⟩ =>
    absurd (hfails.le hwalks) (Nat.not_le_of_lt hfails.lt_length)
  cancelled := iff_of_false (by simp) fun ⟨_, _, _, hwalks⟩ => absurd (hfails.le hwalks) (Nat.not_le_of_lt hi)
  heard he := by cases he
  silent hready := absurd h hready
  fails e' := by
    constructor
    · intro he
      cases he
      exact ⟨h, i, hi, hfails⟩
    · rintro ⟨-, j, -, hfails'⟩
      rw [(hfails.unique hfails').2]
  begun _ j _ e' hfails' := by rw [(hfails.unique hfails').1]

variable {s : Session}

/-- The sink is not noticed that asks for an end after no fewer tasks than there are requests. -/
theorem execute_unnoticed (hs : s.published = none) (hcount : s.requests.length ≤ count) (limit : Nat) :
    r.run (s.execute (cancelAfter count) limit) = r.run (s.execute (fun _ => false) limit) := by
  have hwalks : r.run (walks s.requests (cancelAfter count) limit) = r.run (walks s.requests (fun _ => false) limit) := by
    cases begins r s.requests limit with
    | failed _ hwalks | stopped hwalks => rw [hwalks, hwalks]
    | branches _ _ hwalks =>
      have hroom : ([] : List Event).countP Event.isStart + (r.jobs s.requests).length ≤ count := by
        rwa [List.countP_nil, Nat.zero_add, Repository.jobs, List.length_map]
      rw [hwalks _ _ (branches_unnoticed hroom), hwalks _ _ rfl]
  rw [run_execute hs, run_execute hs, hwalks]

/-- A publication that is not stopped by a tag tells how it ends. -/
theorem tells_of_execute (hs : s.published = none)
    (hends : (r.run (s.execute (cancelAfter count) limit)).2.2 ≠ .error .atLimit) :
    Tells r s.requests count (r.run (s.execute (cancelAfter count) limit)).2.1
      (r.run (s.execute (cancelAfter count) limit)).2.2 := by
  rw [run_execute hs] at hends ⊢
  cases begins r s.requests limit with
  | failed hready hwalks =>
    rw [hwalks]
    exact tells_of_not_ready hready
  | stopped hwalks =>
    rw [hwalks] at hends
    exact absurd rfl hends
  | branches hready htags hwalks =>
    have htell := hready.branches_tell count
    rw [hwalks _ _ rfl]
    rcases hleft : r.run (branches (cancelAfter count) (headOf r s.requests) (taggedIn r) {} (r.jobs s.requests))
      with ⟨left, ended⟩
    rw [hleft] at htell
    cases htell with
    | done hcount htold =>
      change Tells r s.requests count (left.events ++ tagEvents _) _
      rw [htold.events, htags]
      exact tells_of_done hready hcount (htold.afterWalks (List.append_nil _).symm)
    | @cancelled before after _ hsplit hcount hafter htold =>
      change Tells r s.requests count left.events _
      rw [htold.events, ← take_allEvents, ← hsplit, hcount]
      -- So many branches are done as there were starts before the end was asked for, and at least one is left.
      refine tells_of_cancelled hready ?_ (hcount ▸ htold.afterWalks hsplit)
      rw [hsplit, List.length_append, hcount]
      exact Nat.lt_add_of_pos_right (List.length_pos_iff.2 hafter)
    | @failed before after q progress _ e hsplit hroom htold hwalk hevents =>
      change Tells r s.requests count left.events _
      rw [hevents, ← take_allEvents_succ, ← hsplit]
      exact tells_of_failed hready hroom (htold.failsAt hsplit hwalk)

/-- Where a tag stops a publication, nothing has been told. -/
theorem execute_atLimit (hs : s.published = none)
    (hstops : (r.run (s.execute (cancelAfter count) limit)).2.2 = .error .atLimit) :
    r.run (s.execute (cancelAfter count) limit) = (s, [], .error .atLimit) ∧ r.NestsTags limit := by
  obtain ⟨-, hnothing⟩ := execute_fails hs hstops
  rw [run_execute hs] at hstops ⊢
  cases begins r s.requests limit with
  | failed _ hwalks =>
    rw [hwalks] at hstops
    cases hstops
  | stopped hwalks =>
    rw [hwalks]
    cases hnothing with
    | atLimit hnests => exact ⟨rfl, hnests⟩
  | branches _ _ hwalks =>
    rw [hwalks _ _ rfl] at hstops
    rcases hleft : r.run (branches (cancelAfter count) (headOf r s.requests) (taggedIn r) {} (r.jobs s.requests))
      with ⟨left, e | _⟩ <;> rw [hleft] at hstops <;> cases hstops

/-- What a publication tells is a beginning of the two events of every branch in the order of the requests and those of
    the tag pass, and it is the whole of them exactly if the publication succeeds. Nothing is told if a request cannot
    be resolved or a tag cannot be peeled; the branches whose walks succeed tell two events each, and one whose walk
    fails tells that it is begun. A sink that asks for an end once so many tasks are started is heard exactly if there
    are more requests and so many walks succeed; with no more requests the publication is the one that nobody asks to
    end. A publication that is stopped by a tag has told nothing; where no tag object is wrapped in itself, the number
    of ids is limit enough that none is. -/
theorem execute_tells (r : Repository) (s : Session) (count : Nat) (hs : s.published = none) :
    (∀ limit, (r.run (s.execute (cancelAfter count) limit)).2.2 ≠ .error .atLimit →
      Tells r s.requests count (r.run (s.execute (cancelAfter count) limit)).2.1
        (r.run (s.execute (cancelAfter count) limit)).2.2) ∧
    (∀ limit, (r.run (s.execute (cancelAfter count) limit)).2.2 = .error .atLimit →
      r.run (s.execute (cancelAfter count) limit) = (s, [], .error .atLimit)) ∧
    (r.TagsEnd → ∀ limit, ObjectId.count ≤ limit →
      (r.run (s.execute (cancelAfter count) limit)).2.2 ≠ .error .atLimit) ∧
    (s.requests.length ≤ count → ∀ limit,
      r.run (s.execute (cancelAfter count) limit) = r.run (s.execute (fun _ => false) limit)) := by
  refine ⟨fun limit hends => tells_of_execute hs hends, fun limit hstops => (execute_atLimit hs hstops).1,
    fun hends limit hlimit hstops => ?_, execute_unnoticed hs⟩
  exact hends.not_nests ((execute_atLimit hs hstops).2.mono hlimit)

/-- A branch of the fork whose head is not there. -/
def forkLost : Request := { name := "refs/heads/lost", retention := .full, start := some ⟨9⟩ }

theorem tagsEnd_fork : fork.TagsEnd := by
  intro id hcycle
  obtain ⟨inner, ⟨tag, htag, -⟩, -⟩ := Relation.TransGen.head'_iff.1 hcycle
  cases htag

theorem tells_of_fork :
    (fork.run (({ requests := [forkLeft, forkRight] } : Session).execute (cancelAfter 1) ObjectId.count)).2
      = ([.started "Rewriting refs/heads/left" 1, .advanced 1], .error (.failed .cancelled)) ∧
    (∃ outcome, (fork.run
        (({ requests := [forkLeft, forkRight] } : Session).execute (cancelAfter 2) ObjectId.count)).2
      = ([.started "Rewriting refs/heads/left" 1, .advanced 1, .started "Rewriting refs/heads/right" 1, .advanced 1,
          .started "Retargeting tags" 1, .advanced 1], .ok outcome)) ∧
    (fork.run (({ requests := [forkLost, forkLeft] } : Session).execute (cancelAfter 1) ObjectId.count)).2
      = ([.started "Rewriting refs/heads/lost" 1], .error (.failed (.walk (.read (.missingObject ⟨9⟩))))) := by
  have htags : fork.tagCount = 1 := by simp [Repository.tagCount, fork, Repository.PassesOver]
  have htells (requests : List Request) (count : Nat) : Tells fork requests count
      (fork.run (({ requests } : Session).execute (cancelAfter count) ObjectId.count)).2.1
      (fork.run (({ requests } : Session).execute (cancelAfter count) ObjectId.count)).2.2 := by
    obtain ⟨htells, -, hends, -⟩ := execute_tells fork { requests } count rfl
    exact htells _ (hends tagsEnd_fork _ le_rfl)
  obtain ⟨progress, hwalks⟩ := exists_walks_of_fork ObjectId.count [forkLeft, forkRight] [⟨3⟩, ⟨4⟩] rfl (by decide)
  have hoften := execute_of_walks (s := { requests := [forkLeft, forkRight] }) rfl hwalks
  rw [← (execute_tells fork { requests := [forkLeft, forkRight] } 2 rfl).2.2.2 (by simp)] at hoften
  have htold := htells [forkLeft, forkRight] 2
  have hsucceeds := htold.succeeds.1 ⟨_, hoften⟩
  obtain ⟨-, hready, l, hboth⟩ := hsucceeds
  refine ⟨?cancelled, ?whole, ?broken⟩
  case cancelled =>
    have hfirst : ∃ l, afterWalks fork [forkLeft, forkRight] 1 = .ok l := by
      cases hfirst : afterWalks fork [forkLeft, forkRight] 1 with
      | ok l => exact ⟨l, rfl⟩
      | error e => cases hboth.symm.trans (afterWalks_of_error hfirst (by simp))
    have htold := htells [forkLeft, forkRight] 1
    have hend := htold.cancelled.2 ⟨by simp, hready, hfirst⟩
    have hevents := htold.heard hend
    rw [htags] at hevents
    exact Prod.ext hevents hend
  case whole =>
    have hevents := htold.whole.2 ⟨_, hoften⟩
    rw [htags] at hevents
    exact ⟨_, Prod.ext hevents hoften⟩
  case broken =>
    have htold := htells [forkLost, forkLeft] 1
    have hready : Ready fork [forkLost, forkLeft] :=
      ⟨by simp [forkLost, forkLeft, Repository.head], hready.unwraps⟩
    have hfails : FailsAt fork [forkLost, forkLeft] 0 (.read (.missingObject ⟨9⟩)) := by
      have hwalk : walkBranch fork (headOf fork [forkLost, forkLeft]) (taggedIn fork) {} forkLost
          = .error (.read (.missingObject ⟨9⟩)) := rfl
      have htold : Told fork (headOf fork [forkLost, forkLeft]) (taggedIn fork) [] {} := told_nothing
      exact htold.failsAt rfl hwalk
    have hevents := htold.begun hready 0 (by simp) _ hfails
    rw [htags] at hevents
    exact Prod.ext hevents ((htold.fails _).2 ⟨hready, 0, by simp, hfails⟩)

end Publication

end PrunedHistory
