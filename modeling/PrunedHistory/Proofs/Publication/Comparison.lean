import PrunedHistory.Proofs.Publication.Heads
import PrunedHistory.Proofs.Publication.Writing
import PrunedHistory.Proofs.Walk.Agreement

/-! Two publications side by side

    What one publication does is known from another one if both meet the same at every turn. Here are the turns that
    are compared: the registration of requests, one branch after the other, and the pass over the tags. Main statements:
    branches that see the same histories, heads and tags do the same, entry for entry; a publication that is not
    cancelled does what one does that nobody asks; and the pass over the tags asks nothing of the ledger but what it
    holds for their commits. -/

namespace PrunedHistory

/-! ### Registration -/

namespace Session

variable {requests : List Request} {s : Session}

theorem register_eq_ok_iff {s₀ : Session} {q : Request} (hnew : s₀.published = none) :
    s₀.register q = .ok s ↔ q.name ∉ s₀.requests.map (·.name) ∧ s = { s₀ with requests := s₀.requests ++ [q] } := by
  have hany : s₀.requests.any (·.name == q.name) = true ↔ q.name ∈ s₀.requests.map (·.name) := by
    simp
  rw [register, hnew, if_neg (by simp)]
  by_cases hname : q.name ∈ s₀.requests.map (·.name)
  · rw [if_pos (hany.2 hname)]
    simp [hname]
  · rw [if_neg fun h => hname (hany.1 h)]
    simp [hname, eq_comm]

theorem foldlM_register_eq_ok_iff : ∀ (rest : List Request) {s₀ : Session}, s₀.published = none →
    (s₀.requests.map (·.name)).Nodup →
    (rest.foldlM register s₀ = .ok s ↔
      ((s₀.requests ++ rest).map (·.name)).Nodup ∧ s = { s₀ with requests := s₀.requests ++ rest })
  | [], s₀, _, hnames => by
      simp [hnames, pure, Except.pure, eq_comm]
  | q :: rest, s₀, hnew, hnames => by
      rw [List.foldlM_cons]
      by_cases hname : q.name ∈ s₀.requests.map (·.name)
      · -- A name that is taken is refused, and it would come twice in the whole list.
        have hrefused : ¬((s₀.requests ++ q :: rest).map (·.name)).Nodup := by
          rw [List.map_append, List.map_cons, List.nodup_append]
          exact fun h => h.2.2 _ hname _ List.mem_cons_self rfl
        cases hq : s₀.register q with
        | error e => exact ⟨fun h => (by cases h), fun h => absurd h.1 hrefused⟩
        | ok s₁ => exact absurd hname ((register_eq_ok_iff hnew).1 hq).1
      · have hq := (register_eq_ok_iff (s := { s₀ with requests := s₀.requests ++ [q] }) hnew).2 ⟨hname, rfl⟩
        have hnames' : ((s₀.requests ++ [q]).map (·.name)).Nodup := by
          rw [List.map_append, List.nodup_append]
          refine ⟨hnames, by simp, fun a ha b hb => ?_⟩
          rintro rfl
          rw [List.map_singleton, List.mem_singleton] at hb
          exact hname (hb ▸ ha)
        have hnew' : { s₀ with requests := s₀.requests ++ [q] }.published = none := hnew
        have hrest := foldlM_register_eq_ok_iff rest hnew' hnames'
        rw [hq]
        simpa [bind, Except.bind] using hrest

/-- Requests can be registered exactly if no name comes twice. -/
theorem ofRequests_eq_ok_iff : ofRequests requests = .ok s ↔ (requests.map (·.name)).Nodup ∧ s = { requests } := by
  have hnew : ({} : Session).published = none := rfl
  have h := foldlM_register_eq_ok_iff (s := s) requests hnew .nil
  rwa [List.nil_append] at h

end Session

/-! ### Starts -/

/-- A recorded commit starts a whole history. -/
theorem Ledger.Sound.whole {r : Repository} {l : Ledger} {id : ObjectId} (h : l.Sound r) (hid : id ∈ l.commits) :
    r.Whole id where
  loads _ ha := h.loads _ (h.reached_mem hid ha)
  acyclic _ ha := h.not_descends_self (h.reached_mem hid ha)

/-- The commit that a request starts from; no commit in particular if it cannot be resolved. -/
def Repository.start (r : Repository) (q : Request) : ObjectId := ((r.head q).toOption).getD ⟨0⟩

/-- The requests with the commits they start from. -/
def Repository.jobs (r : Repository) (requests : List Request) : List (Request × ObjectId) :=
  requests.map fun q => (q, r.start q)

namespace Publication

variable {r r' : Repository} {isHead isHead' isTagged isTagged' : ObjectId → Bool} {requests : List Request}
  {progress left : Progress} {cancelled : List Event → Bool} {tags : List PeeledTag} {heads : List ObjectId}
  {l l' : Ledger} {more : List (Request × ObjectId)} {job : Request × ObjectId}

/-- The starts of resolved requests can be looked up one by one. -/
theorem heads_eq_map_start (h : requests.map r.head = heads.map .ok) : heads = requests.map r.start := by
  have hstart := congrArg (List.map fun found : Except ReadError ObjectId => found.toOption.getD ⟨0⟩) h
  rw [List.map_map, List.map_map] at hstart
  exact (List.map_id heads).symm.trans hstart.symm

theorem map_head_of_start (h : ∀ q ∈ requests, r.head q = .ok (r.start q)) :
    requests.map r.head = (requests.map r.start).map .ok := by
  rw [List.map_map]
  exact List.map_congr_left h

theorem head_of_resolved (h : requests.map r.head = heads.map .ok) : ∀ q ∈ requests, r.head q = .ok (r.start q) := by
  rw [heads_eq_map_start h, List.map_map] at h
  exact List.map_inj_left.1 h

theorem zip_heads (h : requests.map r.head = heads.map .ok) : requests.zip heads = r.jobs requests := by
  have hzip := List.zip_map' (f := id) (g := r.start) (l := requests)
  rwa [List.map_id, ← heads_eq_map_start h] at hzip

theorem map_fst_jobs_start (r : Repository) (requests : List Request) : (r.jobs requests).map (·.1) = requests := by
  rw [Repository.jobs, List.map_map]
  exact List.map_id requests

theorem jobs_append (r : Repository) (requests more : List Request) :
    r.jobs (requests ++ more) = r.jobs requests ++ r.jobs more := List.map_append

theorem mem_jobs_iff {job : Request × ObjectId} : job ∈ r.jobs requests ↔ job.1 ∈ requests ∧ job.2 = r.start job.1 := by
  rw [Repository.jobs, List.mem_map]
  constructor
  · rintro ⟨q, hq, rfl⟩
    exact ⟨hq, rfl⟩
  · rintro ⟨hq, hstart⟩
    exact ⟨job.1, hq, by rw [← hstart]⟩

/-! ### One branch after the other -/

/-- How far a branch comes once it is begun. -/
def branch (r : Repository) (isHead isTagged : ObjectId → Bool) (progress : Progress) :
    Request × ObjectId → Progress × Except PublicationError Unit
  | (request, start) =>
    let events := progress.events ++ [.started ("Rewriting " ++ request.name) 1]
    match r.run (Walk.run (request.retention.selection isHead isTagged) progress.ledger start) with
    | (ledger, .error e) => ({ progress with ledger, events }, .error (.walk e))
    | (ledger, .ok _) =>
      match ledger.replacement start with
      | .error e => ({ progress with ledger, events }, .error (.ledger e))
      | .ok new =>
        ({ ledger
           heads := progress.heads.insert request.name ⟨request.retention, start, new.id⟩
           events := events ++ [.advanced 1] }, .ok ())

theorem run_branches_cons (r : Repository) (cancelled : List Event → Bool) (isHead isTagged : ObjectId → Bool)
    (progress : Progress) (job : Request × ObjectId) (rest : List (Request × ObjectId)) :
    r.run (branches cancelled isHead isTagged progress (job :: rest)) =
      if cancelled progress.events then (progress, .error .cancelled)
      else match branch r isHead isTagged progress job with
        | (next, .error e) => (next, .error e)
        | (next, .ok ()) => r.run (branches cancelled isHead isTagged next rest) := by
  obtain ⟨request, start⟩ := job
  rw [branches, branch]
  split
  · rfl
  · rw [Repository.run_bind]
    rcases r.run (Walk.run (request.retention.selection isHead isTagged) progress.ledger start) with ⟨ledger, e | xs⟩
    · rfl
    · dsimp only
      cases ledger.replacement start <;> rfl

/-- A branch that is asked for and does not fail is begun, done, and followed by the others. -/
theorem branches_cons_eq_ok_iff {rest : List (Request × ObjectId)} :
    r.run (branches cancelled isHead isTagged progress (job :: rest)) = (left, .ok ()) ↔
      cancelled progress.events = false ∧ ∃ next, branch r isHead isTagged progress job = (next, .ok ()) ∧
        r.run (branches cancelled isHead isTagged next rest) = (left, .ok ()) := by
  rw [run_branches_cons]
  cases cancelled progress.events with
  | true => simp
  | false => rcases branch r isHead isTagged progress job with ⟨next, e | _⟩ <;> simp

/-- Branches in two parts are done if the first part is and then the second. -/
theorem branches_append_eq_ok_iff : ∀ {jobs : List (Request × ObjectId)} {progress : Progress},
    r.run (branches cancelled isHead isTagged progress (jobs ++ more)) = (left, .ok ()) ↔
      ∃ next, r.run (branches cancelled isHead isTagged progress jobs) = (next, .ok ()) ∧
        r.run (branches cancelled isHead isTagged next more) = (left, .ok ())
  | [], progress => by
      rw [List.nil_append, branches, Repository.run_done]
      simp
  | job :: jobs, progress => by
      rw [List.cons_append, branches_cons_eq_ok_iff]
      simp only [branches_cons_eq_ok_iff, branches_append_eq_ok_iff]
      constructor
      · rintro ⟨hbegun, next, hbranch, middle, hjobs, hmore⟩
        exact ⟨middle, ⟨hbegun, next, hbranch, hjobs⟩, hmore⟩
      · rintro ⟨middle, ⟨hbegun, next, hbranch, hjobs⟩, hmore⟩
        exact ⟨hbegun, next, hbranch, middle, hjobs, hmore⟩

/-- Branches that are all done are done as well if nobody asks for an end. -/
theorem branches_uncancelled : ∀ {jobs : List (Request × ObjectId)} {progress : Progress},
    r.run (branches cancelled isHead isTagged progress jobs) = (left, .ok ()) →
    r.run (branches (fun _ => false) isHead isTagged progress jobs) = (left, .ok ())
  | [], _, h => h
  | job :: jobs, progress, h => by
      obtain ⟨-, next, hbranch, hrest⟩ := branches_cons_eq_ok_iff.1 h
      exact branches_cons_eq_ok_iff.2 ⟨rfl, next, hbranch, branches_uncancelled hrest⟩

/-- What is recorded stays, at its place, while a branch is done. -/
theorem branch_keeps_entries (hl : progress.ledger.Indexed)
    (h : branch r isHead isTagged progress job = (left, .ok ())) :
    left.ledger.Indexed ∧ progress.ledger.entries.toList <+: left.ledger.entries.toList := by
  obtain ⟨request, start⟩ := job
  have hgrows := (Walk.leaves_run r (request.retention.selection isHead isTagged) start hl).grows
  rw [branch] at h
  rcases hwalk : r.run (Walk.run (request.retention.selection isHead isTagged) progress.ledger start)
    with ⟨ledger, e | xs⟩
  · rw [hwalk] at h
    cases h
  · rw [hwalk] at h hgrows
    dsimp only at h
    split at h
    · cases h
    · cases h
      exact ⟨hgrows.indexed hl, hgrows.keeps_entries⟩

theorem branches_keep_entries : ∀ {jobs : List (Request × ObjectId)} {progress : Progress}, progress.ledger.Indexed →
    r.run (branches cancelled isHead isTagged progress jobs) = (left, .ok ()) →
    progress.ledger.entries.toList <+: left.ledger.entries.toList
  | [], progress, _, h => by
      rw [branches, Repository.run_done] at h
      obtain ⟨rfl, -⟩ := Prod.mk.inj h
      exact List.prefix_rfl
  | job :: jobs, progress, hl, h => by
      obtain ⟨-, next, hbranch, hrest⟩ := branches_cons_eq_ok_iff.1 h
      obtain ⟨hnext, hentries⟩ := branch_keeps_entries hl hbranch
      exact hentries.trans (branches_keep_entries hnext hrest)

/-! ### Branches that see the same -/

/-- The commit is loaded alike from both repositories, and is a head and a tagged commit to both or to none. -/
structure MetAlike (r r' : Repository) (isHead isTagged isHead' isTagged' : ObjectId → Bool) (id : ObjectId) :
    Prop where
  loaded : r'.run (Walk.load id) = r.run (Walk.load id)
  head : isHead' id = isHead id
  tagged : isTagged' id = isTagged id

theorem MetAlike.seenAlike {id : ObjectId} (h : MetAlike r r' isHead isTagged isHead' isTagged' id)
    (retention : Retention) :
    Walk.SeenAlike r r' (retention.selection isHead isTagged) (retention.selection isHead' isTagged') id where
  loaded := h.loaded
  selected _ _ := by simp only [Retention.selection, h.head, h.tagged]

theorem branch_alike (progress : Progress)
    (h : ∀ a, r.Reaches job.2 a → MetAlike r r' isHead isTagged isHead' isTagged' a) :
    branch r' isHead' isTagged' progress job = branch r isHead isTagged progress job := by
  obtain ⟨request, start⟩ := job
  rw [branch, branch, Walk.run_alike progress.ledger fun a ha => (h a ha).seenAlike request.retention]

/-- Branches that see the same are the same. -/
theorem branches_alike (cancelled : List Event → Bool) : ∀ {jobs : List (Request × ObjectId)} (progress : Progress),
    (∀ job ∈ jobs, ∀ a, r.Reaches job.2 a → MetAlike r r' isHead isTagged isHead' isTagged' a) →
    r'.run (branches cancelled isHead' isTagged' progress jobs)
      = r.run (branches cancelled isHead isTagged progress jobs)
  | [], _, _ => by
      rw [branches, branches]
      rfl
  | job :: jobs, progress, h => by
      have hrest (next : Progress) : r'.run (branches cancelled isHead' isTagged' next jobs)
          = r.run (branches cancelled isHead isTagged next jobs) :=
        branches_alike cancelled next fun job hjob => h job (List.mem_cons_of_mem _ hjob)
      rw [run_branches_cons, run_branches_cons, branch_alike progress (h job List.mem_cons_self)]
      simp only [hrest]

/-! ### The pass over the tags -/

/-- The pass asks of the ledger only what it holds for the commits of the tags. -/
theorem ofTags_alike (h : ∀ p ∈ tags, l'.find? p.commit = l.find? p.commit) :
    TagPass.ofTags l' tags = TagPass.ofTags l tags := by
  refine List.foldl_ext _ _ _ fun pass p hp => ?_
  rw [TagPass.step, TagPass.step, h p hp]

/-- Tags outside the ledger may be left out. -/
theorem ofTags_filter {shown : PeeledTag → Bool} (h : ∀ p ∈ tags, shown p = false → l.find? p.commit = none) :
    TagPass.ofTags l (tags.filter shown) = TagPass.ofTags l tags := by
  rw [TagPass.ofTags, TagPass.ofTags, List.foldl_filter]
  refine List.foldl_ext _ _ _ fun pass p hp => ?_
  cases hshown : shown p with
  | true => rfl
  | false =>
    rw [TagPass.step, h p hp hshown]
    rfl

/-! ### A small repository with two branches -/

/-- Two branches that part at a tagged commit, over one more commit. -/
def forkParents : List (ObjectId × List ObjectId) := [(⟨1⟩, []), (⟨2⟩, [⟨1⟩]), (⟨3⟩, [⟨2⟩]), (⟨4⟩, [⟨2⟩])]

def fork : Repository :=
  { Repository.ofParents forkParents with tags := .ok [.lightweight "refs/tags/v1" ⟨2⟩] }

def forkLeft : Request := { name := "refs/heads/left", retention := .abbreviated, start := some ⟨3⟩ }

def forkRight : Request := { name := "refs/heads/right", retention := .abbreviated, start := some ⟨4⟩ }

theorem exists_walks_of_fork (limit : Nat) (requests : List Request) (heads : List ObjectId)
    (hheads : requests.map fork.head = heads.map .ok)
    (hmem : ∀ head ∈ heads, head ∈ forkParents.map (·.1)) :
    ∃ progress, fork.run (walks requests (fun _ => false) limit)
      = (progress, .ok [⟨.lightweight "refs/tags/v1" ⟨2⟩, [], ⟨2⟩⟩]) := by
  refine exists_walks_of_whole (fun _ => rfl) hheads rfl fun head hhead => ?_
  exact Repository.whole_of_parents forkParents rfl (fun _ => rfl) (by decide) (hmem head hhead)

end Publication

end PrunedHistory
