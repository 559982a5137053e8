import PrunedHistory.Proofs.NameMaps
import PrunedHistory.Proofs.Publication.Execution

/-! What becomes of the heads

    Every branch that is done enters its head under the name of its request; what it enters does not change when more
    is recorded. So the heads of a publication are read off the requests and the ledger it ends with. Main statements:
    the heads are these entries in the order of the requests, and a publication of whole histories succeeds unless it
    is cancelled. -/

namespace PrunedHistory

/-- Where a commit is afterwards; one that is not kept stays. -/
def Ledger.after (l : Ledger) (id : ObjectId) : ObjectId :=
  match l.find? id with
  | some (.keep new) => new.id
  | _ => id

theorem Ledger.NewId.after_eq {l : Ledger} {k id : ObjectId} (h : l.NewId k id) : l.after k = id := by
  obtain ⟨new, hkeep, rfl⟩ := h
  rw [after, hkeep]

namespace Publication

variable {r : Repository} {isHead isTagged : ObjectId → Bool} {requests : List Request} {progress left : Progress}
  {cancelled : List Event → Bool} {limit : Nat} {tags : List PeeledTag} {heads : List ObjectId}

/-- What a branch enters among the heads. -/
def headEntry (l : Ledger) (job : Request × ObjectId) : String × HeadChange :=
  (job.1.name, ⟨job.1.retention, job.2, l.after job.2⟩)

theorem heads_of_branches : ∀ {jobs : List (Request × ObjectId)} {requests : List Request} {progress : Progress},
    Done r isHead isTagged requests progress → (∀ job ∈ jobs, r.head job.1 = .ok job.2 ∧ isHead job.2 = true) →
    r.run (branches cancelled isHead isTagged progress jobs) = (left, .ok ()) →
    progress.ledger.Extends left.ledger ∧ left.heads = progress.heads.insertAll (jobs.map (headEntry left.ledger))
  | [], requests, progress, _, _, hrun => by
      rw [branches, Repository.run_done] at hrun
      obtain ⟨rfl, -⟩ := Prod.mk.inj hrun
      exact ⟨fun _ _ hd => hd, rfl⟩
  | (q, head) :: rest, requests, progress, h, hjobs, hrun => by
      obtain ⟨hq, his⟩ := hjobs (q, head) (by simp)
      rcases branches_step cancelled h hq his rest with
        ⟨failed, e, hstep, -⟩ | ⟨next, new, hstep, hnext, hextends, hnew, hheads⟩
      · rw [hstep] at hrun
        cases hrun
      · rw [hstep] at hrun
        have hlater : ∀ job ∈ rest, r.head job.1 = .ok job.2 ∧ isHead job.2 = true := fun job hjob =>
          hjobs job (List.mem_cons_of_mem _ hjob)
        obtain ⟨hrest, hleft⟩ := heads_of_branches hnext hlater hrun
        -- Later branches add to the ledger and change nothing in it, so the head is still replaced by the same commit.
        have hafter : left.ledger.after head = new.id := Ledger.NewId.after_eq ⟨new, hrest _ _ hnew, rfl⟩
        refine ⟨fun id d hd => hrest id d (hextends id d hd), ?_⟩
        rw [hleft, hheads, List.map_cons, NameMap.insertAll_cons, headEntry, hafter]

/-- A publication of whole histories, with all its tags peeled, is not ended early. -/
theorem exists_walks_of_whole (hnever : ∀ events, cancelled events = false)
    (hheads : requests.map r.head = heads.map .ok) (hpeeled : r.run (peeledTags limit) = .ok tags)
    (hwhole : ∀ head ∈ heads, r.Whole head) :
    ∃ progress, r.run (walks requests cancelled limit) = (progress, .ok tags) := by
  have hpublishable : r.Publishable requests := by
    refine Repository.publishable_of_whole (fun q hq => ?_) (unwrapsTags_of_peeledTags hpeeled)
    have hmem : r.head q ∈ heads.map .ok := hheads ▸ List.mem_map_of_mem hq
    obtain ⟨head, hhead, heq⟩ := List.mem_map.1 hmem
    exact ⟨head, heq.symm, hwhole head hhead⟩
  rcases hbranches : r.run (branches cancelled (member heads) (member (tags.map (·.commit))) {} (requests.zip heads))
    with ⟨left, walked⟩
  rw [run_walks hheads hpeeled hbranches]
  have hend := branches_end done_nothing (head_of_job hheads) hbranches
  rw [List.nil_append, map_fst_jobs hheads] at hend
  rcases hend with ⟨rfl, -⟩ | ⟨e, -, hearly⟩
  · exact ⟨left, rfl⟩
  · -- No one cancels, so an early end would have to blame something that cannot be read.
    exact absurd (hearly.blames hnever) hpublishable.not_blames

/-- Walks that end well are the branches of resolved requests, with all tags peeled. -/
theorem branches_of_walks (h : r.run (walks requests cancelled limit) = (progress, .ok tags)) :
    ∃ heads, requests.map r.head = heads.map .ok ∧ r.run (peeledTags limit) = .ok tags ∧
      r.run (branches cancelled (member heads) (member (tags.map (·.commit))) {} (requests.zip heads))
        = (progress, .ok ()) := by
  obtain ⟨heads, hheads, hpeeled, -⟩ := exists_done_of_walks h
  rcases hbranches : r.run (branches cancelled (member heads) (member (tags.map (·.commit))) {} (requests.zip heads))
    with ⟨left, walked⟩
  have hrun := (run_walks hheads hpeeled hbranches).symm.trans h
  cases walked with
  | error e => cases hrun
  | ok _ =>
    obtain rfl : left = progress := (Prod.mk.inj hrun).1
    exact ⟨heads, hheads, hpeeled, hbranches⟩

/-- The walks of a publication that succeeds: where they started, what they did, and what they entered. -/
theorem walks_ok_cases (h : r.run (walks requests cancelled limit) = (progress, .ok tags)) :
    ∃ heads, requests.map r.head = heads.map .ok ∧ r.run (peeledTags limit) = .ok tags ∧
      Done r (member heads) (member (tags.map (·.commit))) requests progress ∧
      progress.heads = (∅ : NameMap HeadChange).insertAll ((requests.zip heads).map (headEntry progress.ledger)) := by
  obtain ⟨heads, hheads, hpeeled, hbranches⟩ := branches_of_walks h
  have hnothing : Done r (member heads) (member (tags.map (·.commit))) [] {} := done_nothing
  have hdone := hnothing.branches (head_of_job hheads) hbranches
  rw [List.nil_append, map_fst_jobs hheads] at hdone
  exact ⟨heads, hheads, hpeeled, hdone, (heads_of_branches hnothing (head_of_job hheads) hbranches).2⟩

end Publication

end PrunedHistory
