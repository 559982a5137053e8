import PrunedHistory.Proofs.Git.BranchListing
import PrunedHistory.Proofs.Plans
import PrunedHistory.Proofs.PublishCommand
import PrunedHistory.Proofs.Publication.Republishing
import PrunedHistory.Proofs.Publication.Success

/-! The plan for every branch

    One command prints a plan that lists every branch in full; the other may be given that plan as it is. Each stage in
    between gives back what it was given: names are read from their lines and from their quotes, starts are resolved to
    the ids in the tables, commits keep their ids. Main statement: in a repository whose objects and refs can be read
    back, publishing by the plan that was printed succeeds and changes nothing. -/

namespace PrunedHistory

open Git (Checkout Installation Tables)

namespace Git.Tables

variable {t : Tables} {name : String} {id : ObjectId} {outcome : Outcome}

/-- The plan that is printed for the tables. -/
def plan (t : Tables) : Plan := .ofBranches (t.branches.map (·.1))

/-- Objects lie under their ids, refs can be listed and tags peeled, and every commit that a branch reaches can be read
    with its tree, is written as it was, repeats no parent and is not its own ancestor. -/
structure Plain (t : Tables) : Prop where
  filed : ∀ (id : ObjectId) o, t.objects[id]? = some o → .ofBody o.kind o.body = id
  lines : t.NamesAreLines
  present : ∀ entry ∈ t.refsUnder "refs/tags/", t.objects.contains entry.2 = true
  unwraps : ∀ refs, t.repository.tags = .ok refs → ∀ tag ∈ refs, t.repository.UnwrapsRef tag
  reads : ∀ branch ∈ t.branches, ∀ id, t.repository.Reaches branch.2 id → ∃ commit, t.repository.Loads id commit ∧
    t.objects[id]? = some ⟨.commit, commit.body⟩ ∧ commit.parents.Nodup
  acyclic : ∀ branch ∈ t.branches, ∀ id, t.repository.Reaches branch.2 id → ¬t.repository.Descends id id

/-- What the plan publishes is what is there: every branch in full with its head where it was, no tag of theirs moved,
    and nothing new. -/
structure PublishesAsIs (t : Tables) (outcome : Outcome) : Prop where
  published : ∀ limit, ObjectId.count ≤ limit →
    (t.repository.run (Session.execute { requests := t.plan.requests } (fun _ => false) limit)).2.2 = .ok outcome
  heads : outcome.heads.entries = t.branches.map fun (name, id) => (name, ⟨.full, id, id⟩)
  unchanged : outcome.Unchanged t.repository t.plan.requests

/-! ### The requests of the plan -/

theorem plan_requests (t : Tables) :
    t.plan.requests = t.branches.map fun (name, _) => { name, retention := .full } := by
  rw [plan, Plan.ofBranches, List.map_map]
  rfl

theorem full_of_mem_plan {q : Request} (hq : q ∈ t.plan.requests) : q.retention = .full := by
  rw [plan_requests] at hq
  obtain ⟨branch, -, rfl⟩ := List.mem_map.1 hq
  rfl

theorem plan_session (t : Tables) : t.plan.session = .ok { requests := t.plan.requests } := by
  refine Session.ofRequests_eq_ok_iff.2 ⟨?_, rfl⟩
  rw [plan_requests, List.map_map]
  exact t.refsUnder_names_nodup "refs/heads/"

theorem plan_parsed (t : Tables) : Plan.parse? t.plan.text = some t.plan := by
  rw [Plan.parse?, Plan.parse?_toml_text, Option.bind_some, Plan.ofTable?_elements]

theorem head_of_branch (h : (name, id) ∈ t.branches) :
    t.repository.head { name, retention := .full } = .ok id := by
  have hget : t.refs.get? name = some id := (mem_refsUnder_iff.1 h).1
  simp only [Repository.head, repository, hget]

theorem map_head_plan (t : Tables) : t.plan.requests.map t.repository.head = (t.branches.map (·.2)).map .ok := by
  rw [plan_requests, List.map_map, List.map_map]
  exact List.map_congr_left fun branch hbranch => head_of_branch hbranch

theorem exists_branch_of_covers {q : Request} (hq : q ∈ t.plan.requests) (hcovers : t.repository.Covers q id) :
    ∃ branch ∈ t.branches, t.repository.Reaches branch.2 id := by
  rw [plan_requests] at hq
  obtain ⟨branch, hbranch, rfl⟩ := List.mem_map.1 hq
  exact ⟨branch, hbranch, (Repository.covers_iff_of_head (head_of_branch hbranch)).1 hcovers⟩

/-! ### Publishing in full -/

namespace Plain

variable (h : t.Plain)

include h

theorem unwrapsTags : t.repository.UnwrapsTags := by
  have htags := repository_tags_eq fun entry hentry =>
    ⟨h.present entry hentry, h.lines entry.1 entry.2 (mem_refsUnder_iff.1 hentry).1⟩
  exact ⟨_, htags, h.unwraps _ htags⟩

theorem publishable : t.repository.Publishable t.plan.requests := by
  refine Repository.publishable_of_whole (fun q hq => ?_) h.unwrapsTags
  rw [plan_requests] at hq
  obtain ⟨branch, hbranch, rfl⟩ := List.mem_map.1 hq
  refine ⟨branch.2, head_of_branch hbranch, fun id hreach => ?_, h.acyclic branch hbranch⟩
  obtain ⟨commit, hload, -⟩ := h.reads branch hbranch id hreach
  exact ⟨commit, hload⟩

/-- Every commit of the branches is written as it was, with each parent once. -/
theorem commit_of_covers {q : Request} (hq : q ∈ t.plan.requests) (hcovers : t.repository.Covers q id)
    {commit : Commit} (hread : t.repository.commit id = .ok commit) : commit.id = id ∧ commit.parents.Nodup := by
  obtain ⟨branch, hbranch, hreach⟩ := exists_branch_of_covers hq hcovers
  obtain ⟨found, hload, hstored, hnodup⟩ := h.reads branch hbranch id hreach
  obtain rfl := Except.ok.inj (hload.1.symm.trans hread)
  have hid := h.filed id _ hstored
  exact ⟨hid, hnodup⟩

/-- The publication succeeds, and keeps every commit under its own id. -/
theorem exists_publishesAsIs : ∃ outcome, t.PublishesAsIs outcome := by
  obtain ⟨outcome, houtcome⟩ := (Publication.execute_succeeds_iff (s := { requests := t.plan.requests }) rfl
    (fun _ => rfl) (Nat.le_refl ObjectId.count)).2 h.publishable
  have hpublished : ∀ limit, ObjectId.count ≤ limit →
      (t.repository.run (Session.execute { requests := t.plan.requests } (fun _ => false) limit)).2.2 = .ok outcome := by
    intro limit hle
    rw [Session.run_execute_of_le hle (by rw [houtcome]; exact nofun), houtcome]
  obtain ⟨progress, tags, hwalks, rfl⟩ := Publication.execute_ok_cases houtcome
  obtain ⟨heads, hheads, hpeeled, hdone, hentries⟩ := Publication.walks_ok_cases hwalks
  -- Every commit is kept, has no parent twice and is written back as it was read: none gets a new id.
  have huntouched : progress.ledger.Untouched := hdone.settled.untouched_of_addressed
    (fun q hq id hcovers commit hread => (h.commit_of_covers hq hcovers hread).1) (fun q hq => full_of_mem_plan hq)
    fun q hq id hcovers commit hread => (h.commit_of_covers hq hcovers hread).2
  refine ⟨_, hpublished, ?heads, hdone.unchanged hpeeled huntouched⟩
  case heads =>
    obtain rfl : t.branches.map (·.2) = heads := by
      rw [map_head_plan, List.map_inj_right fun _ _ => Except.ok.inj] at hheads
      exact hheads
    have hjobs : (t.plan.requests.zip (t.branches.map (·.2))).map (Publication.headEntry progress.ledger)
        = t.branches.map fun (name, id) => (name, ⟨.full, id, id⟩) := by
      rw [plan_requests, List.zip_map', List.map_map]
      refine List.map_congr_left fun branch _ => ?_
      simp only [Function.comp_apply, Publication.headEntry, huntouched.after_eq]
    have hsorted : (t.branches.map fun (name, id) => (name, (⟨.full, id, id⟩ : HeadChange))).Pairwise
        fun a b => a.1 < b.1 :=
      List.pairwise_map.2 (t.refsUnder_sorted "refs/heads/")
    change progress.heads.entries = _
    rw [hentries, hjobs, NameMap.entries_insertAll hsorted]

end Plain

/-- Objects that lie under their ids do not collide, and nothing is hashed besides them. -/
theorem collisionFree_of_filed (hfiled : ∀ (id : ObjectId) o, t.objects[id]? = some o → .ofBody o.kind o.body = id)
    (hnothing : outcome.newObjects = []) : ObjectId.CollisionFree (t.Hashed outcome) := by
  -- Nothing is new, so all that is hashed is stored under its digest, and one id holds one object.
  have hstored : ∀ {kind body}, t.Hashed outcome kind body →
      t.objects[ObjectId.ofBody kind body]? = some ⟨kind, body⟩ := by
    rintro kind body (⟨id, hfound⟩ | hnew)
    · have hid := hfiled id _ hfound
      dsimp only at hid
      rw [hid]
      exact hfound
    · rw [hnothing] at hnew
      cases hnew
  intro kind body other body' hbody hbody' hdigest
  have hid : ObjectId.ofBody kind body = .ofBody other body' := congrArg ObjectId.mk hdigest
  have hfound := hstored hbody
  rw [hid, hstored hbody'] at hfound
  cases hfound
  rfl

/-- All that is written is refs, to objects that are there. -/
theorem PublishesAsIs.readyAll (h : t.PublishesAsIs outcome)
    (hfiled : ∀ (id : ObjectId) o, t.objects[id]? = some o → .ofBody o.kind o.body = id) (space : String) :
    t.ReadyAll (Checkout.publishSteps outcome space) := by
  have hnothing : outcome.newObjects = [] := by
    rw [Outcome.newObjects, h.unchanged.commits, h.unchanged.tagObjects]
    rfl
  exact readyAll_of_outcome (h.published ObjectId.count (Nat.le_refl _)) hfiled (collisionFree_of_filed hfiled hnothing) space

end Git.Tables

/-! ### The two commands -/

namespace Command

variable {σ : Type} {git : Installation σ} {s : σ} {checkout : Checkout} {repository path space : String}
  {write : Bool} {fileText : String → Option String} {args : List String} {outcome : Outcome}

theorem init_reads (fileText : String → Option String) (limit : Nat) (repository : String) :
    ((Command.init repository).run fileText limit).Asks Git.Call.Reads := by
  refine (Checkout.discover_reads repository).bind fun found => ?_
  cases found with
  | error e => exact Dialogue.asks_done _
  | ok checkout =>
    refine checkout.branches_reads.bind fun found => ?_
    cases found <;> exact Dialogue.asks_done _

theorem serve_init (hreads : git.ReadsTables checkout) (hlists : git.ListsBranches checkout)
    (hfound : (git.serve (Checkout.discover repository) s).1 = .ok checkout)
    (hlines : (git.tables s).NamesAreLines) (fileText : String → Option String) (limit : Nat) :
    (git.serve ((Command.init repository).run fileText limit) s).1 = .ok (git.tables s).plan.text := by
  have hkept := hreads.tables_serve (Checkout.discover_reads repository) s
  rw [← hkept] at hlines
  obtain ⟨hbranches, -⟩ := hreads.tells_branches hlists hlines
  rw [hkept] at hbranches
  rw [run, Installation.serve_bind, hfound, Installation.serve_bind, hbranches]
  rfl

/-- The plan is printed after reads only, which leave the repository as it is. -/
theorem exits_init (hreads : git.ReadsTables checkout) (hlists : git.ListsBranches checkout)
    (hfound : (git.serve (Checkout.discover repository) s).1 = .ok checkout)
    (hlines : (git.tables s).NamesAreLines) (hargs : ofArguments? args = some (.init repository))
    (fileText : String → Option String) :
    ∃ calls, Exits (git.behaviour s) fileText args { code := 0, output := (git.tables s).plan.text } calls ∧
      (∀ call ∈ calls, call.Reads) ∧ git.tables (git.afterAll s calls) = git.tables s := by
  have hrun := init_reads fileText 0 repository
  have hstart : git.afterAll s [] = s := rfl
  obtain ⟨calls, hplayed, hafter⟩ :=
    Installation.exists_play_behaviour ((Command.init repository).run fileText 0) hstart
  have hcalls : ∀ call ∈ ((git.behaviour s).play ((Command.init repository).run fileText 0) []).2, call.Reads :=
    Git.Behaviour.forall_mem_play hrun (by simp)
  rw [serve_init hreads hlists hfound hlines] at hplayed
  rw [hplayed] at hcalls
  refine ⟨calls, (exits_iff hargs).2 ⟨0, .inl ⟨_, hplayed, rfl⟩⟩, hcalls, ?_⟩
  rw [hafter, hreads.tables_serve hrun]

/-- By the plan, the program exits without having stored an object, and where writes are accepted the report is
    printed. -/
theorem exits_publish (hreads : git.ReadsTables checkout)
    (hfound : (git.serve (Checkout.discover repository) s).1 = .ok checkout)
    (hfiled : ∀ (id : ObjectId) o, (git.tables s).objects[id]? = some o → .ofBody o.kind o.body = id)
    (houtcome : (git.tables s).PublishesAsIs outcome) (hread : fileText path = some (git.tables s).plan.text)
    (hargs : ofArguments? args = some (.publish path repository space write)) :
    ∃ exit calls, Exits (git.behaviour s) fileText args exit calls ∧ (∀ call ∈ calls, ¬call.Stores) ∧
      ((write = true → git.WritesTables checkout) → exit = { code := 0, output := outcome.report }) := by
  obtain ⟨ready, hprepared, hkept⟩ := exists_prepared hreads hfound hread (Tables.plan_parsed _) (Tables.plan_session _)
    (houtcome.published ObjectId.count (Nat.le_refl _))
  obtain ⟨exit, calls, hexits, hstores⟩ :=
    exists_exit_of_prepared hargs hprepared houtcome.unchanged.commits houtcome.unchanged.tagObjects
  refine ⟨exit, calls, hexits, hstores, fun hwrites => ?printed⟩
  case printed =>
    have hsucceeds : Succeeds fileText (git.behaviour s) path repository space write outcome := by
      -- Without `--write` the report is printed right away, and no call is left to make.
      cases write with
      | false => exact ⟨checkout, ready, hprepared, nofun⟩
      | true =>
        have hready := houtcome.readyAll hfiled space
        rw [← hkept] at hready
        exact succeeds_of_readyAll (hwrites rfl) hprepared hready
    obtain ⟨calls', hprinted⟩ := (exists_exits_iff hargs).2 ⟨outcome, hsucceeds, rfl⟩
    exact (hexits.unique hprinted).1

/-- In a plain repository, the plan for every branch is printed after reads only and read back as it is, and as long as
    the repository is what it was, publishing by it succeeds with every head and every tag of the branches where it was,
    no new commit and no new tag object. It stores nothing, with `--write` either. -/
theorem default_plan_changes_nothing (hreads : git.ReadsTables checkout) (hlists : git.ListsBranches checkout)
    (hfound : ∀ s, (git.serve (Checkout.discover repository) s).1 = .ok checkout) (hplain : (git.tables s).Plain)
    (hargs : ofArguments? args = some (.init repository)) :
    (∀ fileText, ∃ calls,
      Exits (git.behaviour s) fileText args { code := 0, output := (git.tables s).plan.text } calls ∧
      (∀ call ∈ calls, call.Reads) ∧ git.tables (git.afterAll s calls) = git.tables s) ∧
    Plan.parse? (git.tables s).plan.text = some (git.tables s).plan ∧
    ∃ outcome, (git.tables s).PublishesAsIs outcome ∧
      ∀ s' fileText args' path space write, git.tables s' = git.tables s →
        fileText path = some (git.tables s).plan.text →
        ofArguments? args' = some (.publish path repository space write) →
        ∃ exit calls, Exits (git.behaviour s') fileText args' exit calls ∧ (∀ call ∈ calls, ¬call.Stores) ∧
          ((write = true → git.WritesTables checkout) → exit = { code := 0, output := outcome.report }) := by
  obtain ⟨outcome, houtcome⟩ := hplain.exists_publishesAsIs
  refine ⟨fun fileText => exits_init hreads hlists (hfound s) hplain.lines hargs fileText, Tables.plan_parsed _, outcome,
    houtcome, fun s' fileText args' path space write hsame hread hargs' => ?_⟩
  rw [← hsame] at hread houtcome
  exact exits_publish hreads (hfound s') (hsame ▸ hplain.filed) houtcome hread hargs'

end Command

/-! ### The plan of a release -/

open Git (releaseTables releaseTables_mirrors releaseTables_files releaseStore_readsBack releaseStore_refsListed
  ofTables_writesTables)
open Publication (releasedCommit releaseRequest releaseStore_computed exists_release_walks stored_of_releaseStore
  ok_of_toOption publishable_of_walks)

theorem releaseTables_branches : releaseTables.branches = [("refs/heads/main", releasedCommit.id)] := by
  rfl

theorem releaseTables_plain : releaseTables.Plain := by
  have hrepository := releaseTables_mirrors.repository_eq releaseStore_readsBack releaseStore_refsListed
  -- The branch was walked before, so its history is whole.
  obtain ⟨progress, hwalks, -⟩ := exists_release_walks
  rw [← hrepository] at hwalks
  have hpublishable := publishable_of_walks hwalks
  have hhead : releaseTables.repository.head releaseRequest = .ok releasedCommit.id := by
    rw [hrepository]
    exact ok_of_toOption releaseStore_computed.2.2.2.2.2.1
  have hwhole := hpublishable.whole (List.mem_singleton.2 rfl) hhead
  have hbranch : ∀ branch ∈ releaseTables.branches, branch.2 = releasedCommit.id := by
    intro branch hmem
    rw [releaseTables_branches, List.mem_singleton] at hmem
    rw [hmem]
  refine ⟨fun id o hfound => (releaseTables_files hfound).2, fun name id hget => ?lines, fun entry hentry => ?present,
    fun refs hrefs tag htag => ?unwraps, fun branch hmem id hreach => ?reads, fun branch hmem id hreach => ?acyclic⟩
  case lines => exact (releaseStore_refsListed name id (releaseTables_mirrors.refs ▸ hget)).2
  case present =>
    have hget := (Tables.mem_refsUnder_iff.1 hentry).1
    rw [releaseTables_mirrors.refs] at hget
    rw [releaseTables_mirrors.contains_eq]
    exact (releaseStore_refsListed _ _ hget).1
  case unwraps =>
    obtain ⟨found, hfound, hunwraps⟩ := hpublishable.tags
    obtain rfl := Except.ok.inj (hfound.symm.trans hrefs)
    exact hunwraps tag htag
  case reads =>
    rw [hbranch branch hmem] at hreach
    obtain ⟨commit, hload⟩ := hwhole.loads id hreach
    have hread := hload.1
    rw [hrepository] at hread
    refine ⟨commit, hload, releaseTables_mirrors.object_of_read hread, ?_⟩
    rcases stored_of_releaseStore (Store.stored_of_read hread) with ⟨h, -⟩ | h | h | h
    · exact nomatch h
    · rw [Stored.commit.inj h]
      exact .nil
    · rw [Stored.commit.inj h]
      exact List.nodup_singleton _
    · exact nomatch h
  case acyclic =>
    rw [hbranch branch hmem] at hreach
    exact hwhole.acyclic id hreach

namespace Command

/-- The release has a plan with its one branch, and published by it the branch stays. -/
theorem release_plan_changes_nothing :
    (∃ calls, Exits (Installation.ofTables.behaviour releaseTables) (fun _ => none) ["init"]
      { code := 0, output := releaseTables.plan.text } calls) ∧
    ∃ outcome : Outcome,
      outcome.heads.entries = [("refs/heads/main", ⟨.full, releasedCommit.id, releasedCommit.id⟩)] ∧
      ∃ calls, Exits (Installation.ofTables.behaviour releaseTables) (fun _ => some releaseTables.plan.text)
        ["rewrite", "plan.toml", "--write"] { code := 0, output := outcome.report } calls ∧
        ∀ call ∈ calls, ¬call.Stores := by
  have hfound : ∀ s, (Installation.ofTables.serve (Checkout.discover ".") s).1 = .ok ⟨"./.git"⟩ := by
    intro s
    rw [discover_ofTables]
  have hplain : (Installation.ofTables.tables releaseTables).Plain := by
    rw [Installation.tables_ofTables]
    exact releaseTables_plain
  have hinit : ofArguments? ["init"] = some (.init ".") := by decide
  have hwrite : ofArguments? ["rewrite", "plan.toml", "--write"]
      = some (.publish "plan.toml" "." "refs/published/" true) := by decide
  obtain ⟨hprints, -, outcome, houtcome, hpublishes⟩ := default_plan_changes_nothing
    (Installation.ofTables_readsTables _) (Installation.ofTables_listsBranches _) hfound hplain hinit
  rw [Installation.tables_ofTables] at hprints houtcome
  obtain ⟨calls, hprinted, -⟩ := hprints fun _ => none
  obtain ⟨exit, made, hexits, hstores, hexit⟩ :=
    hpublishes releaseTables (fun _ => some releaseTables.plan.text) _ _ _ _ rfl rfl hwrite
  obtain rfl := hexit fun _ => ofTables_writesTables _
  refine ⟨⟨calls, hprinted⟩, outcome, ?_, made, hexits, hstores⟩
  rw [houtcome.heads, releaseTables_branches]
  rfl

end Command

end PrunedHistory
