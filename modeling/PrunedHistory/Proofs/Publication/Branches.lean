import PrunedHistory.Proofs.Publication.Publishable
import PrunedHistory.Proofs.Walk.Sound

/-! What one branch after the other decides

    The branches are walked on one ledger, and a commit is decided by the first walk that comes to it. The ledger is
    closed under parents at every time, so after some requests it holds just what they cover, and the walk that decides
    a commit is that of the first request that covers it. Main statement: the branches are all done in this sense, or
    they are cancelled, or what one of them met is to blame. -/

namespace PrunedHistory

variable {r : Repository} {isHead isTagged : ObjectId → Bool} {q : Request} {id head : ObjectId}

theorem Retention.selection_iff (retention : Retention) (isHead isTagged : ObjectId → Bool) (commit : Commit)
    (parents : List ObjectId) : retention.selection isHead isTagged id commit parents = true ↔
      isHead id = true ∨ retention = .full ∨ (retention = .abbreviated ∧ isTagged id = true) := by
  simp only [selection, Bool.or_eq_true]
  cases retention <;> simp

namespace Publication

/-- What the ledger holds after the walks of some requests. -/
structure Settled (r : Repository) (isHead isTagged : ObjectId → Bool) (requests : List Request) (l : Ledger) :
    Prop where
  sound : l.Sound r
  mem_iff : ∀ id, id ∈ l.commits ↔ ∃ q ∈ requests, r.Covers q id
  kept_iff : ∀ id ∈ l.commits, l.wasKept? id = some true ↔ isHead id = true ∨
    ∃ q, r.FirstCovers requests q id ∧ (q.retention = .full ∨ (q.retention = .abbreviated ∧ isTagged id = true))

variable {requests : List Request} {l l' : Ledger}

theorem settled_nothing : Settled r isHead isTagged [] {} where
  sound := .empty
  mem_iff id := by simp [Ledger.commits]
  kept_iff id h := by simp [Ledger.commits] at h

/-- A walk decides what its head reaches and no earlier head does. -/
theorem Settled.walk (h : Settled r isHead isTagged requests l) (hq : r.head q = .ok head) {xs : List ObjectId}
    (hwalk : r.run (Walk.run (q.retention.selection isHead isTagged) l head) = (l', .ok xs)) :
    Settled r isHead isTagged (requests ++ [q]) l' := by
  have hleaves := Walk.leaves_run r (q.retention.selection isHead isTagged) head h.sound.indexed
  rw [hwalk] at hleaves
  refine ⟨h.sound.grows hleaves.grows, fun id => ?mem, fun id hid => ?kept⟩
  case mem =>
    rw [h.sound.mem_run_iff hwalk, h.mem_iff]
    simp only [List.mem_append, List.mem_singleton, or_and_right, exists_or, exists_eq_left,
      Repository.covers_iff_of_head hq]
  case kept =>
    by_cases hold : id ∈ l.commits
    · -- An earlier branch has decided on it, and decisions stay.
      obtain ⟨d, hd⟩ := h.sound.exists_find? hold
      rw [(hleaves.grows.extends h.sound.indexed).wasKept?_eq hd, h.kept_iff id hold]
      simp only [Repository.firstCovers_concat_of_covered ((h.mem_iff id).1 hold)]
    · -- No earlier branch comes to it, so the decision is that of this one.
      have hnone : ∀ b ∈ requests, ¬r.Covers b id := fun b hb hcovers => hold ((h.mem_iff id).2 ⟨b, hb, hcovers⟩)
      have hcovers : r.Covers q id := ⟨head, hq, ((h.sound.mem_run_iff hwalk).1 hid).resolve_left hold⟩
      obtain ⟨commit, parents, hkept⟩ := hleaves.grows.wasKept?_of_new h.sound.indexed hold hid
      rw [hkept, Option.some.injEq, Retention.selection_iff]
      simp only [Repository.firstCovers_concat_of_uncovered hnone, hcovers, and_true, exists_eq_left]

theorem replacement_of_find? {new : Replacement} (h : l.find? id = some (.keep new)) : l.replacement id = .ok new := by
  rw [Ledger.replacement, Ledger.decision, h]
  rfl

/-- A requested head is kept by whatever walk comes to it. -/
theorem Settled.exists_replacement (h : Settled r isHead isTagged requests l) (hq : q ∈ requests)
    (hhead : r.head q = .ok head) (his : isHead head = true) : ∃ new, l.find? head = some (.keep new) := by
  have hmem : head ∈ l.commits := (h.mem_iff head).2 ⟨q, hq, head, hhead, .refl⟩
  exact Ledger.wasKept?_eq_true_iff.1 ((h.kept_iff head hmem).2 (.inl his))

/-- Full requests keep everything. -/
theorem Settled.wasKept?_of_full (h : Settled r isHead isTagged requests l)
    (hfull : ∀ q ∈ requests, q.retention = .full) (hid : id ∈ l.commits) : l.wasKept? id = some true := by
  obtain ⟨q, hfirst⟩ := Repository.exists_firstCovers ((h.mem_iff id).1 hid)
  exact (h.kept_iff id hid).2 (.inr ⟨q, hfirst, .inl (hfull q hfirst.mem)⟩)

/-- The branches done so far, and where their heads are now. -/
structure Done (r : Repository) (isHead isTagged : ObjectId → Bool) (requests : List Request) (progress : Progress) :
    Prop where
  settled : Settled r isHead isTagged requests progress.ledger
  named : ∀ q ∈ requests, ∃ change, progress.heads.get? q.name = some change
  moved : ∀ name change, progress.heads.get? name = some change → progress.ledger.NewId change.before change.after

theorem done_nothing : Done r isHead isTagged [] {} where
  settled := settled_nothing
  named q h := by cases h
  moved name change h := by cases h

variable {progress : Progress}

theorem Done.branch (h : Done r isHead isTagged requests progress)
    (hsettled : Settled r isHead isTagged (requests ++ [q]) l) (hextends : progress.ledger.Extends l)
    {new : Replacement} (hnew : l.find? head = some (.keep new)) (events : List Event) :
    Done r isHead isTagged (requests ++ [q])
      { ledger := l, heads := progress.heads.insert q.name ⟨q.retention, head, new.id⟩, events } where
  settled := hsettled
  named b hb := by
    simp only [NameMap.get?_insert]
    by_cases hname : b.name = q.name
    · exact ⟨_, if_pos hname⟩
    · rw [if_neg hname]
      rcases List.mem_append.1 hb with hb | hb
      · exact h.named b hb
      · rw [List.mem_singleton.1 hb] at hname
        exact absurd rfl hname
  moved name change hchange := by
    simp only [NameMap.get?_insert] at hchange
    split at hchange
    · obtain rfl := Option.some.inj hchange
      exact ⟨new, hnew, rfl⟩
    · obtain ⟨old, hold, hid⟩ := h.moved name change hchange
      exact ⟨old, hextends _ _ hold, hid⟩

/-- How a branch fails: it is not begun, or its walk fails. -/
def BranchFails (r : Repository) (cancelled : List Event → Bool) (isHead isTagged : ObjectId → Bool)
    (progress : Progress) (job : Request × ObjectId) (e : PublicationError) : Prop :=
  (cancelled progress.events = true ∧ e = .cancelled) ∨
    ∃ e', (r.run (Walk.run (job.1.retention.selection isHead isTagged) progress.ledger job.2)).2 = .error e' ∧ e = .walk e'

/-- One branch fails, or it is done and its head is entered. -/
theorem branches_step (cancelled : List Event → Bool) (h : Done r isHead isTagged requests progress)
    (hq : r.head q = .ok head) (his : isHead head = true) (rest : List (Request × ObjectId)) :
    (∃ left e, r.run (branches cancelled isHead isTagged progress ((q, head) :: rest)) = (left, .error e) ∧
      BranchFails r cancelled isHead isTagged progress (q, head) e) ∨
    ∃ next new, r.run (branches cancelled isHead isTagged progress ((q, head) :: rest))
        = r.run (branches cancelled isHead isTagged next rest) ∧
      Done r isHead isTagged (requests ++ [q]) next ∧ progress.ledger.Extends next.ledger ∧
      next.ledger.find? head = some (.keep new) ∧
      next.heads = progress.heads.insert q.name ⟨q.retention, head, new.id⟩ := by
  rw [branches]
  split
  · rename_i hcancelled
    exact .inl ⟨_, _, rfl, .inl ⟨hcancelled, rfl⟩⟩
  · rw [Repository.run_bind]
    have hleaves := Walk.leaves_run r (q.retention.selection isHead isTagged) head h.settled.sound.indexed
    rcases hwalk : r.run (Walk.run (q.retention.selection isHead isTagged) progress.ledger head) with ⟨l, e | xs⟩
    · exact .inl ⟨_, _, rfl, .inr ⟨e, by rw [hwalk], rfl⟩⟩
    · rw [hwalk] at hleaves
      have hsettled := h.settled.walk hq hwalk
      have hextends := hleaves.grows.extends h.settled.sound.indexed
      -- The head is one of those that are kept whatever the retention, so it can be looked up.
      obtain ⟨new, hnew⟩ := hsettled.exists_replacement (by simp) hq his
      simp only [replacement_of_find? hnew]
      exact .inr ⟨_, new, rfl, h.branch hsettled hextends hnew _, hextends, hnew, rfl⟩

/-- Why a publication ends early: it is cancelled, or it met what is to blame. -/
def EndsEarly (r : Repository) (cancelled : List Event → Bool) (requests : List Request) (e : PublicationError) : Prop :=
  (e = .cancelled ∧ ∃ events, cancelled events = true) ∨ r.BlamesRequests requests e

variable {cancelled : List Event → Bool} {e : PublicationError}

theorem EndsEarly.blames (h : EndsEarly r cancelled requests e) (hnever : ∀ events, cancelled events = false) :
    r.BlamesRequests requests e := by
  rcases h with ⟨-, events, hcancelled⟩ | hblames
  · rw [hnever] at hcancelled
    cases hcancelled
  · exact hblames

theorem EndsEarly.not_isLedger (h : EndsEarly r cancelled requests e) : ¬e.IsLedger := by
  rcases h with ⟨rfl, -⟩ | hblames
  · exact fun h => h
  · exact hblames.not_isLedger

/-- All branches are done, or they end early. -/
theorem branches_end : ∀ {jobs : List (Request × ObjectId)} {requests : List Request} {progress left : Progress}
    {result : Except PublicationError Unit}, Done r isHead isTagged requests progress →
    (∀ job ∈ jobs, r.head job.1 = .ok job.2 ∧ isHead job.2 = true) →
    r.run (branches cancelled isHead isTagged progress jobs) = (left, result) →
      (result = .ok () ∧ Done r isHead isTagged (requests ++ jobs.map (·.1)) left) ∨
        ∃ e, result = .error e ∧ EndsEarly r cancelled (requests ++ jobs.map (·.1)) e
  | [], requests, progress, left, result, h, _, hrun => by
      rw [branches, Repository.run_done] at hrun
      obtain ⟨rfl, rfl⟩ := Prod.mk.inj hrun
      rw [List.map_nil, List.append_nil]
      exact .inl ⟨rfl, h⟩
  | (q, head) :: rest, requests, progress, left, result, h, hjobs, hrun => by
      obtain ⟨hq, his⟩ := hjobs (q, head) (by simp)
      rcases branches_step cancelled h hq his rest with ⟨failed, e, hstep, hfails⟩ | ⟨next, new, hstep, hbranch, -⟩
      · obtain ⟨-, rfl⟩ := Prod.mk.inj (hstep.symm.trans hrun)
        refine .inr ⟨e, rfl, ?_⟩
        rcases hfails with ⟨hcancelled, rfl⟩ | ⟨reason, hwalk, rfl⟩
        · exact .inl ⟨rfl, _, hcancelled⟩
        · have hblames : r.Blames head reason := Walk.blames_of_run h.settled.sound.indexed hwalk
          exact .inr (.branch (by simp) hq hblames)
      · -- The other branches go on from where this one ended.
        have hlater : ∀ job ∈ rest, r.head job.1 = .ok job.2 ∧ isHead job.2 = true := fun job hjob =>
          hjobs job (List.mem_cons_of_mem _ hjob)
        have hrest := branches_end hbranch hlater (hstep.symm.trans hrun)
        rwa [List.append_assoc] at hrest

/-- Branches that come to their end are all done. -/
theorem Done.branches {jobs : List (Request × ObjectId)} {left : Progress} (h : Done r isHead isTagged requests progress)
    (hjobs : ∀ job ∈ jobs, r.head job.1 = .ok job.2 ∧ isHead job.2 = true)
    (hrun : r.run (branches cancelled isHead isTagged progress jobs) = (left, .ok ())) :
    Done r isHead isTagged (requests ++ jobs.map (·.1)) left := by
  rcases branches_end h hjobs hrun with ⟨-, hdone⟩ | ⟨e, hfailed, -⟩
  · exact hdone
  · cases hfailed

/-- The ledger is never touched but by walks. -/
theorem branches_reached (cancelled : List Event → Bool) : ∀ {jobs : List (Request × ObjectId)} {progress : Progress},
    Walk.Reached r progress.ledger →
    Walk.Reached r (r.run (branches cancelled isHead isTagged progress jobs)).1.ledger
  | [], _, h => h
  | (request, start) :: rest, progress, h => by
      have hwalk := Walk.Reached.run h (request.retention.selection isHead isTagged) start
      rw [branches]
      split
      · exact h
      · rw [Repository.run_bind]
        rcases hrun : r.run (Walk.run (request.retention.selection isHead isTagged) progress.ledger start)
          with ⟨ledger, e | xs⟩
        · rw [hrun] at hwalk
          exact hwalk
        · rw [hrun] at hwalk
          dsimp only
          cases ledger.replacement start with
          | error e => exact hwalk
          | ok new => exact branches_reached cancelled hwalk

end Publication

end PrunedHistory
