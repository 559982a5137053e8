import PrunedHistory.Proofs.Publication.Execution
import PrunedHistory.Proofs.Repository.Addressing
import PrunedHistory.Proofs.Walk.OwnIds

/-! Publications that change nothing

    If every commit is kept under its own id, then no head and no tag moves and nothing new is listed. A publication
    of full branches keeps every commit, so what it changes hangs on repeated parents alone. Main statement: a commit
    keeps its id exactly if its whole history is kept without a repeated parent, and full branches are published
    unchanged exactly if no commit of theirs repeats a parent. -/

namespace PrunedHistory

namespace Ledger

/-- Every recorded commit is kept under its own id. -/
def Untouched (l : Ledger) : Prop := ∀ id d, l.find? id = some d → ∃ new, d = .keep new ∧ new.id = id

variable {l : Ledger} {id k : ObjectId}

theorem Untouched.eq_of_newId (h : l.Untouched) (hk : l.NewId k id) : k = id := by
  obtain ⟨new, hkeep, rfl⟩ := hk
  obtain ⟨new', hd, hid⟩ := h k _ hkeep
  cases hd
  exact hid.symm

/-- A ledger of histories that are kept as they are. -/
theorem Sound.untouched_of_addressed {r : Repository} (h : l.Sound r)
    (hr : ∀ id ∈ l.commits, ∀ commit, r.commit id = .ok commit → commit.id = id)
    (hintact : ∀ id ∈ l.commits, l.Intact r id) : l.Untouched := by
  intro id d hd
  have hid := h.mem_of_find? hd
  obtain ⟨commit, hload⟩ := h.loads id hid
  have hkeep := h.find?_of_addressed hr id hid (hintact id hid) commit hload.1
  rw [hd] at hkeep
  exact ⟨_, Option.some.inj hkeep, rfl⟩

end Ledger

/-! ### Tags -/

namespace TagPass

/-- What the pass has come to if nothing moves: the tags of recorded commits are there, and where they were. -/
structure Idle (l : Ledger) (seen : List PeeledTag) (pass : TagPass) : Prop where
  objects : pass.objects = []
  unchanged : ∀ name change, pass.changes.get? name = some change → change.isUnchanged = true
  named : ∀ p ∈ seen, ∀ d, l.find? p.commit = some d → ∃ change, pass.changes.get? p.tag.name = some change

variable {l : Ledger} {seen : List PeeledTag} {pass : TagPass}

theorem idle_nothing : Idle l [] {} where
  objects := rfl
  unchanged name change h := by cases h
  named p h := by cases h

theorem Idle.step (h : Idle l seen pass) (hl : l.Untouched) (p : PeeledTag) :
    Idle l (seen ++ [p]) (step l pass p) := by
  unfold TagPass.step
  cases hd : l.find? p.commit with
  | none =>
    refine ⟨h.objects, h.unchanged, fun p' hp' d hd' => ?_⟩
    rcases List.mem_append.1 hp' with hp' | hp'
    · exact h.named p' hp' d hd'
    · rw [List.mem_singleton.1 hp', hd] at hd'
      cases hd'
  | some d =>
    obtain ⟨new, rfl, hnew⟩ := hl _ d hd
    simp only [hnew, if_true]
    -- A reached commit stays under an untouched ledger: the tag is entered, and nothing is built for it.
    refine ⟨h.objects, fun name change hchange => ?_, fun p' hp' d hd' => ?_⟩
    · rw [NameMap.get?_insert] at hchange
      split at hchange
      · obtain rfl := Option.some.inj hchange
        simp [TagChange.isUnchanged, PeeledTag.position]
      · exact h.unchanged name change hchange
    · rw [NameMap.get?_insert]
      split
      · exact ⟨_, rfl⟩
      · rename_i hname
        rcases List.mem_append.1 hp' with hp' | hp'
        · exact h.named p' hp' d hd'
        · rw [List.mem_singleton.1 hp'] at hname
          exact absurd rfl hname

theorem idle_ofTags (hl : l.Untouched) (tags : List PeeledTag) : Idle l tags (ofTags l tags) := by
  suffices hfold : ∀ (rest seen : List PeeledTag) (pass : TagPass), Idle l seen pass →
      Idle l (seen ++ rest) (rest.foldl (TagPass.step l) pass) from hfold tags [] {} idle_nothing
  intro rest
  induction rest with
  | nil =>
    intro seen pass h
    rw [List.append_nil]
    exact h
  | cons p rest ih =>
    intro seen pass h
    have hrest := ih (seen ++ [p]) (TagPass.step l pass p) (h.step hl p)
    rw [List.append_assoc] at hrest
    exact hrest

end TagPass

/-! ### Outcomes -/

/-- Every requested head and every tag of the published history is where it was, and nothing new is listed. -/
structure Outcome.Unchanged (r : Repository) (requests : List Request) (o : Outcome) : Prop where
  heads : ∀ q ∈ requests, ∃ change, o.heads.get? q.name = some change ∧ change.isUnchanged = true
  tags : ∀ refs, r.tags = .ok refs → ∀ tag ∈ refs, ∀ chain id, r.Peels tag chain id → (∃ q ∈ requests, r.Covers q id) →
    ∃ change, o.tags.get? tag.name = some change ∧ change.isUnchanged = true
  commits : o.commits = []
  tagObjects : o.tagObjects = []

/-- No commit of the requested histories lists a parent twice. -/
def Repository.Unrepeated (r : Repository) (requests : List Request) : Prop :=
  ∀ q ∈ requests, ∀ id, r.Covers q id → ∀ commit, r.commit id = .ok commit → commit.parents.Nodup

namespace Publication

variable {r : Repository} {isHead isTagged : ObjectId → Bool} {requests : List Request} {progress : Progress}
  {limit : Nat} {tags : List PeeledTag}

theorem Done.unchanged (h : Done r isHead isTagged requests progress) (hpeeled : r.run (peeledTags limit) = .ok tags)
    (hl : progress.ledger.Untouched) : (progress.publish tags).outcome.Unchanged r requests := by
  have hidle := TagPass.idle_ofTags hl tags
  refine ⟨fun q hq => ?heads, fun refs hrefs tag htag chain id hpeels hcovers => ?tags, ?commits, hidle.objects⟩
  case heads =>
    obtain ⟨change, hchange⟩ := h.named q hq
    refine ⟨change, hchange, ?_⟩
    rw [HeadChange.isUnchanged, hl.eq_of_newId (h.moved q.name change hchange)]
    simp
  case tags =>
    have hmem : ⟨tag, chain, id⟩ ∈ tags := (mem_peeledTags_iff hpeeled _).2 ⟨⟨refs, hrefs, htag⟩, hpeels⟩
    obtain ⟨d, hd⟩ := h.settled.sound.exists_find? ((h.settled.mem_iff id).2 hcovers)
    obtain ⟨change, hchange⟩ := hidle.named _ hmem d hd
    exact ⟨change, hchange, hidle.unchanged _ _ hchange⟩
  case commits =>
    rw [Progress.publish, List.map_eq_nil_iff, List.filter_eq_nil_iff]
    rintro ⟨id, new⟩ hkept
    -- A kept commit has its own id, so the filter for new commits lets none through.
    have hkeep := (Ledger.mem_kept_iff h.settled.sound.indexed).1 hkept
    have hid := hl.eq_of_newId ⟨new, hkeep, rfl⟩
    simp [← hid]

/-- With no new commits listed, no kept commit has got a new id. -/
theorem newId_of_no_commits (h : Done r isHead isTagged requests progress)
    (hcommits : (progress.publish tags).outcome.commits = []) {id : ObjectId} {new : Replacement}
    (hkeep : progress.ledger.find? id = some (.keep new)) : new.id = id := by
  rw [Progress.publish, List.map_eq_nil_iff, List.filter_eq_nil_iff] at hcommits
  have hid := hcommits _ ((Ledger.mem_kept_iff h.settled.sound.indexed).2 hkeep)
  simpa using hid

/-- Full requests keep whole histories. -/
theorem Settled.intact {l : Ledger} {id : ObjectId} (h : Settled r isHead isTagged requests l)
    (hfull : ∀ q ∈ requests, q.retention = .full) (hunrepeated : r.Unrepeated requests) (hid : id ∈ l.commits) :
    l.Intact r id := by
  intro a ha
  have hmem := h.sound.reached_mem hid ha
  obtain ⟨q, hq, hcovers⟩ := (h.mem_iff a).1 hmem
  exact ⟨h.wasKept?_of_full hfull hmem, hunrepeated q hq a hcovers⟩

/-- In full branches without a repeated parent every commit keeps its id. -/
theorem Settled.untouched_of_addressed {l : Ledger} (h : Settled r isHead isTagged requests l)
    (hr : ∀ q ∈ requests, ∀ id, r.Covers q id → ∀ commit, r.commit id = .ok commit → commit.id = id)
    (hfull : ∀ q ∈ requests, q.retention = .full) (hunrepeated : r.Unrepeated requests) : l.Untouched := by
  refine h.sound.untouched_of_addressed (fun id hid => ?_) fun _ => h.intact hfull hunrepeated
  obtain ⟨q, hq, hcovers⟩ := (h.mem_iff id).1 hid
  exact hr q hq id hcovers

theorem Settled.untouched {l : Ledger} (h : Settled r isHead isTagged requests l) (hr : r.ContentAddressed)
    (hfull : ∀ q ∈ requests, q.retention = .full) (hunrepeated : r.Unrepeated requests) : l.Untouched :=
  h.untouched_of_addressed (fun _ _ id _ => hr id) hfull hunrepeated

/-- In a repository that finds every commit under its own id, whatever walks there were, a commit whose whole history
    is kept without a repeated parent is kept as it is, and where the digest does not collide, none else is kept under
    its own id. So a publication of full branches changes nothing exactly if no commit of theirs repeats a parent. -/
theorem own_ids_and_full_publications (r : Repository) (hr : r.ContentAddressed) :
    (∀ l, Walk.Reached r l → ∀ c ∈ l.commits, ∀ commit, r.commit c = .ok commit →
      (l.Intact r c → l.find? c = some (.keep ⟨c, commit⟩)) ∧
      (Commit.CollisionFree (l.Involved r c) → l.NewId c c → l.Intact r c)) ∧
    ∀ (s : Session) (cancelled : List Event → Bool) (limit : Nat) (outcome : Outcome),
      (r.run (s.execute cancelled limit)).2.2 = .ok outcome → (∀ q ∈ s.requests, q.retention = .full) →
      (r.Unrepeated s.requests → outcome.Unchanged r s.requests) ∧
      ((∀ q ∈ s.requests, ∀ head, r.head q = .ok head →
          Commit.CollisionFree ((r.run (walks s.requests cancelled limit)).1.ledger.Involved r head)) →
        outcome.Unchanged r s.requests → r.Unrepeated s.requests) := by
  refine ⟨fun l hl c hc commit hread => ?walks, fun s cancelled limit outcome houtcome hfull => ?publication⟩
  case walks =>
    have hsound := Ledger.Sound.of_reached hl
    exact ⟨fun hintact => hsound.find?_of_intact hr c hc hintact commit hread, hsound.intact_of_newId hr⟩
  case publication =>
    obtain ⟨progress, tags, hwalks, rfl⟩ := execute_ok_cases houtcome
    obtain ⟨heads, -, hpeeled, hdone⟩ := exists_done_of_walks hwalks
    rw [hwalks]
    refine ⟨fun hunrepeated => hdone.unchanged hpeeled (hdone.settled.untouched hr hfull hunrepeated), ?_⟩
    -- Under `Full` the head itself is kept; listed nowhere, it kept its id, and so did all below it.
    rintro hfree hunchanged q hq c ⟨head, hhead, hreach⟩
    have hmem : head ∈ progress.ledger.commits := (hdone.settled.mem_iff head).2 ⟨q, hq, head, hhead, .refl⟩
    obtain ⟨new, hkeep⟩ := Ledger.wasKept?_eq_true_iff.1 (hdone.settled.wasKept?_of_full hfull hmem)
    have hnew : new.id = head := newId_of_no_commits hdone hunchanged.commits hkeep
    have hintact := hdone.settled.sound.intact_of_newId hr (hfree q hq head hhead) ⟨new, hkeep, hnew⟩
    exact (hintact c hreach).2

def rootCommit : Commit := { Repository.bare [] with tree := .ofBody .tree ⟨#[]⟩ }

def childCommit : Commit := { rootCommit with parents := [rootCommit.id] }

/-- A tagged commit and its child, at the tip of a branch. -/
def pairStore : Store :=
  ((((Store.empty.insertTree ⟨#[]⟩).insertCommit rootCommit).insertCommit childCommit).setRef "refs/tags/v1"
    rootCommit.id).setRef "refs/heads/main" childCommit.id

def pairRequest : Request := { name := "refs/heads/main", retention := .full }

def pairSession : Session where
  requests := [pairRequest]

theorem built_pairStore : pairStore.Built :=
  ((((Store.Built.empty.insertTree _).insertCommit _).insertCommit _).setRef _ _).setRef _ _

theorem pairStore_computed :
    rootCommit.id ≠ childCommit.id ∧
    pairStore.hasTree childCommit.tree = true ∧
    (pairStore.repository.commit rootCommit.id).toOption = some rootCommit ∧
    (pairStore.repository.commit childCommit.id).toOption = some childCommit ∧
    (pairStore.repository.run (peeledTags 0)).toOption
      = some [⟨.lightweight "refs/tags/v1" rootCommit.id, [], rootCommit.id⟩] ∧
    (pairStore.repository.head pairRequest).toOption = some childCommit.id ∧
    (Walk.turns pairStore.repository (Retention.full.selection (member [childCommit.id]) (member [rootCommit.id])) 20
      ⟨{}, {childCommit.id}, [⟨childCommit.id, childCommit, childCommit.parents⟩]⟩).map
        (fun ended => (ended.1.commits, ended.2.toOption)) = some ([rootCommit.id, childCommit.id], some ()) := by
  decide +kernel

theorem pairStore_head : pairStore.repository.head pairRequest = .ok childCommit.id :=
  ok_of_toOption pairStore_computed.2.2.2.2.2.1

/-- The walk of the branch records both commits. -/
theorem exists_pair_walks :
    ∃ progress tags, pairStore.repository.run (walks pairSession.requests (fun _ => false) 0) = (progress, .ok tags) ∧
      Settled pairStore.repository (member [childCommit.id]) (member [rootCommit.id]) pairSession.requests
        progress.ledger ∧
      progress.ledger.commits = [rootCommit.id, childCommit.id] := by
  obtain ⟨-, htree, -, hchild, hpeeled, -, hturns⟩ := pairStore_computed
  have hload : pairStore.repository.Loads childCommit.id childCommit := Store.loads (ok_of_toOption hchild) htree
  obtain ⟨progress, hrun, hsettled, hcommits⟩ :=
    walks_of_turns Ledger.commits pairStore_head (ok_of_toOption hpeeled) hload hturns
  exact ⟨progress, _, hrun, hsettled, hcommits⟩

/-- The history has two commits. -/
theorem eq_of_reached_pair {id : ObjectId} {commit : Commit} (hreach : pairStore.repository.Reaches childCommit.id id)
    (hread : pairStore.repository.commit id = .ok commit) : commit = rootCommit ∨ commit = childCommit := by
  obtain ⟨-, -, hroot, hchild, -⟩ := pairStore_computed
  obtain ⟨progress, tags, -, hsettled, hcommits⟩ := exists_pair_walks
  have hmem : childCommit.id ∈ progress.ledger.commits := by
    rw [hcommits]
    simp
  have hid := hsettled.sound.reached_mem hmem hreach
  simp only [hcommits, List.mem_cons, List.not_mem_nil, or_false] at hid
  rcases hid with rfl | rfl
  · exact .inl (Except.ok.inj (hread.symm.trans (ok_of_toOption hroot)))
  · exact .inr (Except.ok.inj (hread.symm.trans (ok_of_toOption hchild)))

/-- Neither of the two repeats a parent. -/
theorem unrepeated_pair : pairStore.repository.Unrepeated pairSession.requests := by
  intro q hq id hcovers commit hread
  rw [List.mem_singleton.1 hq, Repository.covers_iff_of_head pairStore_head] at hcovers
  rcases eq_of_reached_pair hcovers hread with rfl | rfl
  · exact .nil
  · exact List.nodup_singleton _

/-- Neither is changed, so there are two digests in all, and they differ. -/
theorem collisionFree_pair {l : Ledger} (hl : l.Sound pairStore.repository) (hmem : childCommit.id ∈ l.commits)
    (hintact : l.Intact pairStore.repository childCommit.id) :
    Commit.CollisionFree (l.Involved pairStore.repository childCommit.id) := by
  have hr : pairStore.repository.ContentAddressed := built_pairStore.contentAddressed
  intro c d hc hd hdigest
  obtain ⟨id, hid, hc⟩ := hl.involved_of_intact hr hmem hintact hc
  obtain ⟨id', hid', hd⟩ := hl.involved_of_intact hr hmem hintact hd
  rcases eq_of_reached_pair hid hc with rfl | rfl <;> rcases eq_of_reached_pair hid' hd with rfl | rfl
  · rfl
  · exact absurd (congrArg ObjectId.mk hdigest) pairStore_computed.1
  · exact absurd (congrArg ObjectId.mk hdigest.symm) pairStore_computed.1
  · rfl

theorem execute_of_pairStore :
    pairStore.repository.ContentAddressed ∧
    ∃ progress tags outcome,
      pairStore.repository.run (walks pairSession.requests (fun _ => false) 0) = (progress, .ok tags) ∧
      (pairStore.repository.run (pairSession.execute (fun _ => false) 0)).2.2 = .ok outcome ∧
      Walk.Reached pairStore.repository progress.ledger ∧
      Commit.CollisionFree (progress.ledger.Involved pairStore.repository childCommit.id) ∧
      progress.ledger.find? childCommit.id = some (.keep ⟨childCommit.id, childCommit⟩) ∧
      progress.ledger.Intact pairStore.repository childCommit.id ∧
      outcome.Unchanged pairStore.repository pairSession.requests ∧
      pairStore.repository.Unrepeated pairSession.requests := by
  have hr : pairStore.repository.ContentAddressed := built_pairStore.contentAddressed
  have hchild := ok_of_toOption pairStore_computed.2.2.2.1
  obtain ⟨progress, tags, hrun, hsettled, hcommits⟩ := exists_pair_walks
  have houtcome := execute_of_walks (s := pairSession) rfl hrun
  have hmem : childCommit.id ∈ progress.ledger.commits := by
    rw [hcommits]
    simp
  have hfull : ∀ q ∈ pairSession.requests, q.retention = .full := by
    intro q hq
    rw [List.mem_singleton.1 hq]
    rfl
  have hintact := hsettled.intact hfull unrepeated_pair hmem
  have hfree := collisionFree_pair hsettled.sound hmem hintact
  have hreached := walks_reached pairStore.repository pairSession.requests (fun _ => false) 0
  rw [hrun] at hreached
  obtain ⟨hwalks, hpublications⟩ := own_ids_and_full_publications pairStore.repository hr
  obtain ⟨hforward, hconverse⟩ := hwalks progress.ledger hreached childCommit.id hmem childCommit hchild
  have hkeep := hforward hintact
  obtain ⟨hunchanged, hback⟩ := hpublications pairSession (fun _ => false) 0 _ houtcome hfull
  refine ⟨hr, progress, _, _, hrun, houtcome, hreached, hfree, hkeep, hconverse hfree ⟨_, hkeep, rfl⟩,
    hunchanged unrepeated_pair, hback (fun q hq head hq' => ?_) (hunchanged unrepeated_pair)⟩
  rw [List.mem_singleton.1 hq] at hq'
  obtain rfl := Except.ok.inj (pairStore_head.symm.trans hq')
  rw [hrun]
  exact hfree

end Publication

end PrunedHistory
