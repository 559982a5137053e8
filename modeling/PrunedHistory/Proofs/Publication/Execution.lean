import PrunedHistory.Proofs.Publication.Branches
import PrunedHistory.Proofs.Walk.Turns
import PrunedHistory.Publication.Session

/-! What a publication decides

    All requests are resolved and all tags peeled, then the branches are walked. Main statement: which commits a
    publication that succeeds records and keeps, said without the ledger, and that none fails because of it. -/

namespace PrunedHistory.Publication

variable {r : Repository} {q : Request} {head : ObjectId} {requests : List Request} {l : Ledger} {limit : Nat}

/-- Why the walks of a publication come to nothing: they end early, or a tag has more tag objects than the limit. -/
inductive ComesToNothing (r : Repository) (cancelled : List Event → Bool) (limit : Nat) (requests : List Request) :
    Stop PublicationError → Prop where
  | failed {e : PublicationError} : EndsEarly r cancelled requests e → ComesToNothing r cancelled limit requests (.failed e)
  | atLimit : r.NestsTags limit → ComesToNothing r cancelled limit requests .atLimit

/-- With its requests resolved and its tags peeled, a publication comes as far as its branches. -/
theorem run_walks {heads : List ObjectId} {tags : List PeeledTag} {left : Progress × Except PublicationError Unit}
    {cancelled : List Event → Bool} (hheads : requests.map r.head = heads.map .ok)
    (hpeeled : r.run (peeledTags limit) = .ok tags)
    (hbranches : r.run (branches cancelled (member heads) (member (tags.map (·.commit))) {} (requests.zip heads)) = left) :
    r.run (walks requests cancelled limit) = (left.1, (left.2.map fun () => tags).mapError .failed) := by
  rw [walks, Repository.run_bind, run_starts, mapM_of_map hheads]
  simp only [mapError_ok, Repository.run_bind, hpeeled, hbranches]
  rfl

theorem head_of_job {heads : List ObjectId} (hheads : requests.map r.head = heads.map .ok) :
    ∀ job ∈ requests.zip heads, r.head job.1 = .ok job.2 ∧ member heads job.2 = true := fun job hjob =>
  ⟨mem_zip_of_map_head hheads job hjob, member_iff.2 (List.of_mem_zip hjob).2⟩

theorem map_fst_jobs {heads : List ObjectId} (hheads : requests.map r.head = heads.map .ok) :
    (requests.zip heads).map (·.1) = requests := by
  have hlength := congrArg List.length hheads
  rw [List.length_map, List.length_map] at hlength
  exact List.map_fst_zip (Nat.le_of_eq hlength)

/-- The walks of a publication come to their ends, or to nothing. -/
theorem walks_end {cancelled : List Event → Bool} {progress : Progress}
    {result : Except (Stop PublicationError) (List PeeledTag)}
    (h : r.run (walks requests cancelled limit) = (progress, result)) :
    (∃ heads tags, result = .ok tags ∧ requests.map r.head = heads.map .ok ∧ r.run (peeledTags limit) = .ok tags ∧
      Done r (member heads) (member (tags.map (·.commit))) requests progress) ∨
    ∃ stop, result = .error stop ∧ ComesToNothing r cancelled limit requests stop := by
  cases hstarts : requests.mapM r.head with
  | error reason =>
    obtain ⟨q, hq, hhead⟩ := error_of_mapM hstarts
    rw [walks, Repository.run_bind, run_starts, hstarts] at h
    cases h
    exact .inr ⟨_, rfl, .failed (.inr (.start hq hhead))⟩
  | ok heads =>
    have hheads := map_of_mapM hstarts
    have hstopped : ∀ stop, r.run (peeledTags limit) = .error stop → result = .error stop := by
      intro stop hpeeled
      rw [walks, Repository.run_bind, run_starts, hstarts] at h
      simp only [mapError_ok, Repository.run_bind, hpeeled] at h
      cases h
      rfl
    -- Tags are peeled before any branch is walked, so nothing is recorded where that fails.
    rcases hpeeled : r.run (peeledTags limit), peeledTags_ends r limit with ⟨_, ⟨tags, -⟩ | hblames | hnests⟩
    · rcases hbranches : r.run (branches cancelled (member heads) (member (tags.map (·.commit))) {}
        (requests.zip heads)) with ⟨left, walked⟩
      rw [run_walks hheads hpeeled hbranches] at h
      cases h
      have hend := branches_end done_nothing (head_of_job hheads) hbranches
      rw [List.nil_append, map_fst_jobs hheads] at hend
      rcases hend with ⟨rfl, hdone⟩ | ⟨e, rfl, hearly⟩
      · exact .inl ⟨heads, tags, rfl, hheads, rfl, hdone⟩
      · exact .inr ⟨_, rfl, .failed hearly⟩
    · exact .inr ⟨_, hstopped _ hpeeled, .failed (.inr (.tags hblames))⟩
    · exact .inr ⟨_, hstopped _ hpeeled, .atLimit hnests⟩

/-- Walks that come to their ends have resolved all requests, peeled all tags and done all branches. -/
theorem exists_done_of_walks {cancelled : List Event → Bool} {progress : Progress} {tags : List PeeledTag}
    (h : r.run (walks requests cancelled limit) = (progress, .ok tags)) :
    ∃ heads, requests.map r.head = heads.map .ok ∧ r.run (peeledTags limit) = .ok tags ∧
      Done r (member heads) (member (tags.map (·.commit))) requests progress := by
  rcases walks_end h with ⟨heads, tags', htags, hheads, hpeeled, hdone⟩ | ⟨stop, hstop, -⟩
  · cases htags
    exact ⟨heads, hheads, hpeeled, hdone⟩
  · cases hstop

theorem walks_reached (r : Repository) (requests : List Request) (cancelled : List Event → Bool) (limit : Nat) :
    Walk.Reached r (r.run (walks requests cancelled limit)).1.ledger := by
  rw [walks, Repository.run_bind]
  cases r.run (starts requests) with
  | error e => exact .empty
  | ok heads =>
    simp only [Repository.run_bind]
    cases r.run (peeledTags limit) with
    | error stop => exact .empty
    | ok tags =>
      simp only [Repository.run_bind]
      exact branches_reached cancelled .empty

/-- A publication of one branch comes as far as the walk of its head. Where that walk is given by its turns, what it
    leaves can be computed. -/
theorem walks_of_turns {β : Type} (f : Ledger → β) {found : β} {tags : List PeeledTag} {commit : Commit} {n : Nat}
    (hhead : r.head q = .ok head) (hpeeled : r.run (peeledTags limit) = .ok tags) (hload : r.Loads head commit)
    (hturns : (Walk.turns r (q.retention.selection (member [head]) (member (tags.map (·.commit)))) n
      ⟨{}, {head}, [⟨head, commit, commit.parents⟩]⟩).map (fun ended => (f ended.1, ended.2.toOption))
        = some (found, some ())) :
    ∃ progress, r.run (walks [q] (fun _ => false) limit) = (progress, .ok tags) ∧
      Settled r (member [head]) (member (tags.map (·.commit))) [q] progress.ledger ∧ f progress.ledger = found := by
  obtain ⟨⟨l, ended⟩, hended, hpair⟩ := Option.map_eq_some_iff.1 hturns
  obtain ⟨hfound, hwalked⟩ : f l = found ∧ ended.toOption = some () := Prod.mk.inj hpair
  obtain rfl := ok_of_toOption hwalked
  obtain ⟨xs, hwalk⟩ := Walk.run_of_turns Ledger.indexed_empty Ledger.contains_empty hload hended
  have hsettled := (settled_nothing (r := r)).walk hhead hwalk
  obtain ⟨new, hnew⟩ := hsettled.exists_replacement (by simp) hhead (member_iff.2 (by simp))
  have hbranches : ∃ progress, r.run (branches (fun _ => false) (member [head]) (member (tags.map (·.commit))) {}
      [(q, head)]) = (progress, .ok ()) ∧ progress.ledger = l := by
    rw [branches, if_neg (by simp), Repository.run_bind, hwalk]
    simp only [replacement_of_find? hnew]
    exact ⟨_, rfl, rfl⟩
  obtain ⟨progress, hrun, rfl⟩ := hbranches
  exact ⟨progress, run_walks (by rw [List.map_singleton, hhead, List.map_singleton]) hpeeled hrun, hsettled, hfound⟩

variable {s : Session} {cancelled : List Event → Bool}

/-- A session is published once. -/
theorem run_execute_again {published : Published} (hs : s.published = some published) :
    r.run (s.execute cancelled limit) = (s, [], .error (.failed .alreadyExecuted)) := by
  rw [Session.execute, hs]
  rfl

/-- A session to be published takes in what its walks come to, or, where they fail, stays as it is. -/
theorem run_execute (hs : s.published = none) :
    r.run (s.execute cancelled limit) = match r.run (walks s.requests cancelled limit) with
      | (progress, .error e) => (s, progress.events, .error e)
      | (progress, .ok tags) => ({ s with published := some (progress.publish tags) },
          progress.events ++ tagEvents tags.length, .ok (progress.publish tags).outcome) := by
  rw [Session.execute, hs, if_neg (by simp), run, Repository.run_bind, Repository.run_bind]
  rcases r.run (walks s.requests cancelled limit) with ⟨progress, e | tags⟩ <;> rfl

/-- A session that is called to publish stays as it is, or takes in what is published. -/
theorem run_execute_cases (r : Repository) (s : Session) (cancelled : List Event → Bool) (limit : Nat) :
    (∃ events stop, r.run (s.execute cancelled limit) = (s, events, .error stop)) ∨
      ∃ published events, r.run (s.execute cancelled limit)
        = ({ s with published := some published }, events, .ok published.outcome) := by
  cases hs : s.published with
  | some published => exact .inl ⟨_, _, run_execute_again hs⟩
  | none =>
    rw [run_execute hs]
    rcases r.run (walks s.requests cancelled limit) with ⟨progress, e | tags⟩
    · exact .inl ⟨_, _, rfl⟩
    · exact .inr ⟨_, _, rfl⟩

/-- What was registered stays registered. -/
theorem requests_of_execute (r : Repository) (s : Session) (cancelled : List Event → Bool) (limit : Nat) :
    (r.run (s.execute cancelled limit)).1.requests = s.requests := by
  rcases run_execute_cases r s cancelled limit with ⟨events, e, h⟩ | ⟨published, events, h⟩
  · rw [h]
  · rw [h]

theorem execute_of_walks {progress : Progress} {tags : List PeeledTag}
    (hs : s.published = none) (h : r.run (walks s.requests cancelled limit) = (progress, .ok tags)) :
    (r.run (s.execute cancelled limit)).2.2 = .ok (progress.publish tags).outcome := by
  rw [run_execute hs, h]

/-- A publication that succeeds comes of walks that end well, and leaves what they come to in the session. -/
theorem published_of_execute {outcome : Outcome} (h : (r.run (s.execute cancelled limit)).2.2 = .ok outcome) :
    ∃ progress tags, r.run (walks s.requests cancelled limit) = (progress, .ok tags) ∧
      outcome = (progress.publish tags).outcome ∧
      (r.run (s.execute cancelled limit)).1.published = some (progress.publish tags) := by
  cases hs : s.published with
  | some published =>
    rw [run_execute_again hs] at h
    cases h
  | none =>
    rw [run_execute hs] at h ⊢
    rcases hwalks : r.run (walks s.requests cancelled limit) with ⟨progress, e | tags⟩
    · rw [hwalks] at h
      cases h
    · rw [hwalks] at h
      cases h
      exact ⟨progress, tags, rfl, rfl, rfl⟩

theorem execute_ok_cases {outcome : Outcome} (h : (r.run (s.execute cancelled limit)).2.2 = .ok outcome) :
    ∃ progress tags, r.run (walks s.requests cancelled limit) = (progress, .ok tags) ∧
      outcome = (progress.publish tags).outcome := by
  obtain ⟨progress, tags, hwalks, houtcome, -⟩ := published_of_execute h
  exact ⟨progress, tags, hwalks, houtcome⟩

theorem execute_error : ∀ e, (r.run (s.execute cancelled limit)).2.2 = .error (.failed e) → ¬e.IsLedger := by
  intro e h
  cases hs : s.published with
  | some published =>
    rw [run_execute_again hs] at h
    cases h
    exact fun h => h
  | none =>
    rw [run_execute hs] at h
    rcases hwalks : r.run (walks s.requests cancelled limit) with ⟨progress, result⟩
    rw [hwalks] at h
    rcases walks_end hwalks with ⟨heads, tags, rfl, -⟩ | ⟨stop, rfl, hstop⟩
    · cases h
    · cases h
      cases hstop with
      | failed hearly => exact hearly.not_isLedger

/-- No publication fails because of its ledger. One that succeeds has recorded just the commits that its heads reach,
    each once. It keeps its heads, and of the other commits what the first request that reaches them asks for: all of
    them if it is full, the tagged ones if it is abbreviated. -/
theorem execute_keeps_as_first_requested (r : Repository) (s : Session) (cancelled : List Event → Bool) (limit : Nat) :
    (∀ e, (r.run (s.execute cancelled limit)).2.2 = .error (.failed e) → ¬e.IsLedger) ∧
    ∀ outcome, (r.run (s.execute cancelled limit)).2.2 = .ok outcome →
      ∃ progress tags, r.run (walks s.requests cancelled limit) = (progress, .ok tags) ∧
        outcome = (progress.publish tags).outcome ∧
        progress.ledger.commits.Nodup ∧
        (∀ c, c ∈ progress.ledger.commits ↔ ∃ q ∈ s.requests, r.Covers q c) ∧
        (∀ c ∈ progress.ledger.commits, progress.ledger.wasKept? c = some true ↔
          (∃ q ∈ s.requests, r.head q = .ok c) ∨
          ∃ q, r.FirstCovers s.requests q c ∧ (q.retention = .full ∨ (q.retention = .abbreviated ∧ r.IsTagged c))) ∧
        ∀ q ∈ s.requests, ∃ c, r.head q = .ok c ∧ progress.ledger.wasKept? c = some true := by
  refine ⟨execute_error, fun outcome houtcome => ?_⟩
  obtain ⟨progress, tags, hwalks, hpublish⟩ := execute_ok_cases houtcome
  obtain ⟨heads, hheads, hpeeled, hdone⟩ := exists_done_of_walks hwalks
  have hsettled := hdone.settled
  -- A commit is among the heads just if some request resolves to it.
  have his : ∀ c, member heads c = true ↔ ∃ q ∈ s.requests, r.head q = .ok c := by
    intro c
    have hmem : .ok c ∈ s.requests.map r.head ↔ c ∈ heads := by
      rw [hheads]
      simp
    rw [member_iff, ← hmem, List.mem_map]
  have hkept : ∀ c ∈ progress.ledger.commits, progress.ledger.wasKept? c = some true ↔
      (∃ q ∈ s.requests, r.head q = .ok c) ∨
      ∃ q, r.FirstCovers s.requests q c ∧ (q.retention = .full ∨ (q.retention = .abbreviated ∧ r.IsTagged c)) := by
    intro c hc
    simp only [hsettled.kept_iff c hc, his, member_commits_iff hpeeled]
  refine ⟨progress, tags, hwalks, hpublish, Ledger.nodup_commits hsettled.sound.indexed, hsettled.mem_iff, hkept, ?_⟩
  intro q hq
  obtain ⟨head, hhead⟩ : ∃ head, r.head q = .ok head := by
    have hmem : r.head q ∈ heads.map .ok := hheads ▸ List.mem_map_of_mem hq
    obtain ⟨head, -, hhead⟩ := List.mem_map.1 hmem
    exact ⟨head, hhead.symm⟩
  have hmem : head ∈ progress.ledger.commits := (hsettled.mem_iff head).2 ⟨q, hq, head, hhead, .refl⟩
  exact ⟨head, hhead, (hkept head hmem).2 (.inl ⟨q, hq, hhead⟩)⟩

/-- A line of four commits, of which the second is tagged. -/
def taggedLine : Repository :=
  { Repository.ofParents [(⟨1⟩, []), (⟨2⟩, [⟨1⟩]), (⟨3⟩, [⟨2⟩]), (⟨4⟩, [⟨3⟩])] with
    tags := .ok [.lightweight "refs/tags/v1" ⟨2⟩] }

def taggedLineSession : Session where
  requests := [{ name := "refs/heads/main", retention := .abbreviated, start := some ⟨4⟩ }]

/-- All three commits lie on the way down from the head. -/
theorem covers_taggedLine {n : ObjectId} (hn : n ∈ [(⟨4⟩ : ObjectId), ⟨3⟩, ⟨2⟩]) :
    taggedLine.Covers ⟨"refs/heads/main", .abbreviated, some ⟨4⟩⟩ n := by
  have hparent : ∀ n p : ObjectId, taggedLine.commit n = .ok (Repository.bare [p]) → taggedLine.Parent n p :=
    fun n p h => ⟨_, h, by simp [Repository.bare]⟩
  have hthree : taggedLine.Reaches ⟨4⟩ ⟨3⟩ := .single (hparent _ _ rfl)
  have htwo : taggedLine.Reaches ⟨4⟩ ⟨2⟩ := hthree.tail (hparent _ _ rfl)
  simp only [List.mem_cons, List.not_mem_nil, or_false] at hn
  rcases hn with rfl | rfl | rfl
  · exact ⟨⟨4⟩, rfl, .refl⟩
  · exact ⟨⟨4⟩, rfl, hthree⟩
  · exact ⟨⟨4⟩, rfl, htwo⟩

theorem not_isTagged_taggedLine : ¬taggedLine.IsTagged ⟨3⟩ := by
  rintro ⟨refs, hrefs, tag, htag, chain, hpeels⟩
  cases hrefs
  obtain rfl := List.mem_singleton.1 htag
  cases hpeels

theorem execute_of_taggedLine :
    ∃ outcome progress tags, (taggedLine.run (taggedLineSession.execute (fun _ => false) 1)).2.2 = .ok outcome ∧
      taggedLine.run (walks taggedLineSession.requests (fun _ => false) 1) = (progress, .ok tags) ∧
      progress.ledger.wasKept? ⟨4⟩ = some true ∧ progress.ledger.wasKept? ⟨2⟩ = some true ∧
      progress.ledger.wasKept? ⟨3⟩ ≠ some true := by
  have hturns : (Walk.turns taggedLine (Retention.abbreviated.selection (member [⟨4⟩]) (member [⟨2⟩])) 20
      ⟨{}, {⟨4⟩}, [⟨⟨4⟩, Repository.bare [⟨3⟩], [⟨3⟩]⟩]⟩).map (fun ended => ((), ended.2.toOption))
        = some ((), some ()) := by
    rfl
  have hhead : taggedLine.head ⟨"refs/heads/main", .abbreviated, some ⟨4⟩⟩ = .ok ⟨4⟩ := rfl
  have hpeeled : taggedLine.run (peeledTags 1) = .ok [⟨.lightweight "refs/tags/v1" ⟨2⟩, [], ⟨2⟩⟩] := rfl
  obtain ⟨progress, hrun, -⟩ := walks_of_turns (fun _ => ()) hhead hpeeled ⟨by rfl, rfl⟩ hturns
  have houtcome := execute_of_walks (s := taggedLineSession) rfl hrun
  obtain ⟨-, hall⟩ := execute_keeps_as_first_requested taggedLine taggedLineSession (fun _ => false) 1
  obtain ⟨progress', tags, hwalks, -, -, hmem, hkept, hheads⟩ := hall _ houtcome
  have hrecorded : ∀ n ∈ [(⟨4⟩ : ObjectId), ⟨3⟩, ⟨2⟩], n ∈ progress'.ledger.commits := fun n hn =>
    (hmem n).2 ⟨_, List.mem_cons_self, covers_taggedLine hn⟩
  refine ⟨_, progress', tags, houtcome, hwalks, ?head, ?tagged, ?between⟩
  case head =>
    exact (hkept _ (hrecorded _ (by simp))).2 (.inl ⟨_, List.mem_cons_self, rfl⟩)
  case tagged =>
    refine (hkept _ (hrecorded _ (by simp))).2
      (.inr ⟨_, ⟨[], [], rfl, covers_taggedLine (by simp), by simp⟩, .inr ⟨rfl, ?_⟩⟩)
    exact ⟨_, rfl, _, List.mem_cons_self, [], .lightweight⟩
  case between =>
    rw [ne_eq, hkept _ (hrecorded _ (by simp))]
    rintro (⟨q, hq, hhead⟩ | ⟨q, ⟨before, after, hsplit, -⟩, hkeeps⟩)
    · obtain rfl := List.mem_singleton.1 hq
      cases hhead
    · -- The one request is abbreviated, and the one tag is on another commit.
      have hq : q ∈ taggedLineSession.requests := by
        rw [hsplit]
        simp
      obtain rfl := List.mem_singleton.1 hq
      rcases hkeeps with hfull | ⟨-, htagged⟩
      · cases hfull
      · exact not_isTagged_taggedLine htagged

end PrunedHistory.Publication
