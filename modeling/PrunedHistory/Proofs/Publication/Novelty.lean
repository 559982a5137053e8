import PrunedHistory.Proofs.Publication.Idempotence

/-! Whether what is listed is new

    A kept commit is listed as new if its id is not its own. Nothing is compared with the other commits, though: when
    its ancestors are dropped, a commit may become what another one becomes, or one that was there before. Main
    statement: the listed commits are new, each is listed once and in front of those that are on it, exactly if no
    commit moves to where another one moves or where a commit is. -/

namespace PrunedHistory

/-- No two commits move to one id, and none moves to the id of a commit that was there before. -/
structure Ledger.MovesApart (l : Ledger) (r : Repository) : Prop where
  apart : ∀ k k' new new', l.Moves k new → l.Moves k' new' → new.id = new'.id → k = k'
  fresh : ∀ k new commit, l.Moves k new → r.commit new.id ≠ .ok commit

/-- The listed commits are just those that were not there before, each of them once, and parents come first. -/
structure Outcome.ListsNew (r : Repository) (o : Outcome) : Prop where
  once : (o.commits.map (·.id)).Nodup
  fresh : ∀ new ∈ o.commits, ∀ commit, r.commit new.id ≠ .ok commit
  ordered : ∀ before new after, o.commits = before ++ new :: after → ∀ p ∈ new.commit.parents, p ∉ after.map (·.id)

namespace Ledger

variable {l : Ledger} {new : Replacement} {e : Entry}

theorem new?_eq_some_iff (hl : l.Indexed) (he : e ∈ l.entries.toList) : e.new? = some new ↔ l.Moves e.commit new := by
  rw [Entry.new?_eq_some_iff]
  constructor
  · rintro ⟨hself, hmoved⟩
    exact ⟨(find?_eq_some_iff hl).2 (hself ▸ he), hmoved⟩
  · rintro ⟨hkept, hmoved⟩
    have hdecision := ((find?_eq_some_iff hl).2 he).symm.trans hkept
    obtain ⟨commit, decision⟩ := e
    obtain rfl := Option.some.inj hdecision
    exact ⟨rfl, hmoved⟩

theorem mem_new_iff (hl : l.Indexed) : new ∈ l.entries.toList.filterMap Entry.new? ↔ ∃ k, l.Moves k new := by
  rw [List.mem_filterMap]
  constructor
  · rintro ⟨e, he, hnew⟩
    exact ⟨e.commit, (new?_eq_some_iff hl he).1 hnew⟩
  · rintro ⟨k, hmoves⟩
    have he := (find?_eq_some_iff hl).1 hmoves.kept
    exact ⟨_, he, (new?_eq_some_iff hl he).2 hmoves⟩

/-- The new ids come once exactly if no two commits move to one of them. -/
theorem nodup_new_iff (hl : l.Indexed) : ((l.entries.toList.filterMap Entry.new?).map (·.id)).Nodup ↔
    ∀ k k' new new', l.Moves k new → l.Moves k' new' → new.id = new'.id → k = k' := by
  have hnodup : l.entries.toList.Nodup := (nodup_commits hl).of_map _
  rw [List.Nodup, List.pairwise_map, List.pairwise_filterMap]
  constructor
  · -- Two entries list one id only if they are of two commits.
    intro hpairs k k' new new' hmoves hmoves' hid
    have he := (find?_eq_some_iff hl).1 hmoves.kept
    have he' := (find?_eq_some_iff hl).1 hmoves'.kept
    by_contra hne
    have hentries : (⟨k, .keep new⟩ : Entry) ≠ ⟨k', .keep new'⟩ := fun h => hne (Entry.mk.inj h).1
    have hsymm : Std.Symm fun e e' : Entry => ∀ b, e.new? = some b → ∀ b', e'.new? = some b' → b.id ≠ b'.id :=
      ⟨fun e e' h b hb b' hb' hbb' => h b' hb' b hb hbb'.symm⟩
    exact hpairs.forall he he' hentries _ ((new?_eq_some_iff hl he).2 hmoves) _
      ((new?_eq_some_iff hl he').2 hmoves') hid
  · intro hone
    refine hnodup.pairwise_of_forall_ne fun e he e' he' hne new hnew new' hnew' hid => hne ?_
    have hmoves := (new?_eq_some_iff hl he).1 hnew
    have hmoves' := (new?_eq_some_iff hl he').1 hnew'
    have hcommit := hone _ _ _ _ hmoves hmoves' hid
    exact List.inj_on_of_nodup_map (nodup_commits hl) he he' hcommit

end Ledger

namespace Publication

open Ledger (Entry)

variable {r : Repository} {progress : Progress} {tags : List PeeledTag} {new : Replacement}

/-- A parent that is listed behind its commit was there before, or it is listed in front, too. -/
theorem listed_behind (h : progress.ledger.Sound r) {before after : List Replacement}
    (hsplit : (progress.publish tags).outcome.commits = before ++ new :: after) {p : ObjectId}
    (hp : p ∈ new.commit.parents) (hbehind : p ∈ after.map (·.id)) :
    (∃ listed ∈ (progress.publish tags).outcome.commits, ∃ commit, r.commit listed.id = .ok commit) ∨
      ¬((progress.publish tags).outcome.commits.map (·.id)).Nodup := by
  obtain ⟨listed, hlisted, rfl⟩ := List.mem_map.1 hbehind
  rcases parents_of_listed h hsplit hp with hpresent | hfront
  · refine .inl ⟨listed, ?_, hpresent⟩
    rw [hsplit]
    exact List.mem_append_right _ (List.mem_cons_of_mem _ hlisted)
  · refine .inr fun hnodup => ?_
    rw [hsplit, List.map_append, List.nodup_append, List.map_cons] at hnodup
    exact hnodup.2.2 _ hfront _ (List.mem_cons_of_mem _ hbehind) rfl

theorem mem_commits_publish_iff (h : progress.ledger.Sound r) :
    new ∈ (progress.publish tags).outcome.commits ↔ ∃ k, progress.ledger.Moves k new := by
  rw [commits_publish, Ledger.mem_new_iff h.indexed]

theorem listsNew_iff (h : progress.ledger.Sound r) :
    (progress.publish tags).outcome.ListsNew r ↔ progress.ledger.MovesApart r := by
  have honce := Ledger.nodup_new_iff h.indexed
  rw [← commits_publish progress tags] at honce
  have hmem {new : Replacement} : new ∈ (progress.publish tags).outcome.commits ↔ ∃ k, progress.ledger.Moves k new :=
    mem_commits_publish_iff h
  constructor
  · rintro ⟨hnodup, hfresh, -⟩
    exact ⟨honce.1 hnodup, fun k new commit hmoves => hfresh new (hmem.2 ⟨k, hmoves⟩) commit⟩
  · rintro ⟨hapart, hfresh⟩
    have hnodup := honce.2 hapart
    have hfresh : ∀ new ∈ (progress.publish tags).outcome.commits, ∀ commit, r.commit new.id ≠ .ok commit := by
      intro new hnew commit
      obtain ⟨k, hmoves⟩ := hmem.1 hnew
      exact hfresh k new commit hmoves
    refine ⟨hnodup, hfresh, fun before new after hsplit p hp hbehind => ?_⟩
    -- A parent that stands behind is either there from before or listed in front as well.
    rcases listed_behind h hsplit hp hbehind with ⟨listed, hlisted, commit, hcommit⟩ | hrepeated
    · exact hfresh listed hlisted commit hcommit
    · exact hrepeated hnodup

/-- The listed commits of a publication that succeeds are the new commits of those that move, in the order in which
    these are recorded. They are new, come once and have their parents in front of them exactly if no commit moves to
    where another one moves or where a commit was. In any case a parent is there before or listed in front. -/
theorem listed_commits_are_new_iff (r : Repository) (s : Session) (cancelled : List Event → Bool)
    (limit : Nat) (outcome : Outcome) (houtcome : (r.run (s.execute cancelled limit)).2.2 = .ok outcome) :
    ∃ progress tags, r.run (walks s.requests cancelled limit) = (progress, .ok tags) ∧
      outcome.commits = progress.ledger.entries.toList.filterMap Entry.new? ∧
      (∀ new, new ∈ outcome.commits ↔ ∃ k, progress.ledger.Moves k new) ∧
      (outcome.ListsNew r ↔ progress.ledger.MovesApart r) ∧
      ∀ before new after, outcome.commits = before ++ new :: after → ∀ p ∈ new.commit.parents,
        (∃ commit, r.commit p = .ok commit) ∨ p ∈ before.map (·.id) := by
  obtain ⟨progress, tags, hwalks, rfl⟩ := execute_ok_cases houtcome
  obtain ⟨heads, -, -, hdone⟩ := exists_done_of_walks hwalks
  have hsound := hdone.settled.sound
  exact ⟨progress, tags, hwalks, commits_publish progress tags, fun new => mem_commits_publish_iff hsound,
    listsNew_iff hsound, fun before new after hsplit p hp => parents_of_listed hsound hsplit hp⟩

/-- The one commit that is listed stands alone, as no commit did before. -/
theorem new_commits_of_releaseStore :
    ∃ outcome progress, (releaseStore.repository.run (releaseSession.execute (fun _ => false) 1)).2.2 = .ok outcome ∧
      releaseStore.repository.run (walks releaseSession.requests (fun _ => false) 1)
        = (progress, .ok [peeledReleaseTag]) ∧
      progress.ledger.Moves releasedCommit.id ⟨loneCommit.id, loneCommit⟩ ∧
      progress.ledger.MovesApart releaseStore.repository ∧ outcome.ListsNew releaseStore.repository := by
  obtain ⟨progress, hrun, hentries, -⟩ := exists_release_walks
  have houtcome := execute_of_walks (s := releaseSession) rfl hrun
  obtain ⟨_, -, -, hdone, -⟩ := walks_ok_cases hrun
  have hindexed := hdone.settled.sound.indexed
  obtain ⟨progress', tags, hwalks, hcommits, hmem, hiff, -⟩ :=
    listed_commits_are_new_iff releaseStore.repository releaseSession _ 1 _ houtcome
  obtain ⟨rfl, -⟩ := Prod.mk.inj (hrun.symm.trans hwalks)
  have hkept : ∀ k new, progress.ledger.find? k = some (.keep new) ↔
      k = releasedCommit.id ∧ new = ⟨loneCommit.id, loneCommit⟩ := by
    intro k new
    rw [Ledger.find?_eq_some_iff hindexed, hentries]
    simp [releaseEntries]
  have hroot : rootCommit.id ≠ loneCommit.id := by
    have hdigests := releaseStore_computed.1
    simp only [releaseHashed, List.map_cons, List.map_nil, List.nodup_cons, List.mem_cons, not_or] at hdigests
    exact fun hid => hdigests.2.1.2.1 (Commit.digest_eq_of_id hid)
  have hapart : progress.ledger.MovesApart releaseStore.repository := by
    refine ⟨fun k k' new new' hmoves hmoves' _ => ?_, fun k new commit hmoves hread => ?_⟩
    · rw [((hkept k new).1 hmoves.kept).1, ((hkept k' new').1 hmoves'.kept).1]
    · obtain ⟨-, rfl⟩ := (hkept k new).1 hmoves.kept
      have hid : commit.id = loneCommit.id := built_releaseStore.contentAddressed _ _ hread
      -- Two commits are stored, and neither has the id of the new one.
      rcases stored_of_releaseStore (Store.stored_of_read hread) with ⟨h, -⟩ | h | h | h <;> cases h
      · exact hroot hid
      · exact lone_ne_released hid.symm
  exact ⟨_, progress, houtcome, hrun, ⟨(hkept _ _).2 ⟨rfl, rfl⟩, lone_ne_released⟩, hapart, hiff.2 hapart⟩

/-! ### A store where commits become the same -/

/-- A commit on a root, the same commit without a parent, and the same commit on top of that one. -/
def leftCommit : Commit := { rootCommit with parents := [rootCommit.id], message := "release" }

def bareCommit : Commit := { leftCommit with parents := [] }

def rightCommit : Commit := { leftCommit with parents := [bareCommit.id] }

def nextCommit : Commit := { rootCommit with parents := [leftCommit.id], message := "next" }

def meetingCommit : Commit := { rootCommit with parents := [nextCommit.id, rightCommit.id], message := "tip" }

/-- Two lines that meet at the tip of a branch, with a tag on every commit that has a parent. -/
def meetingStore : Store :=
  (([rootCommit, leftCommit, bareCommit, rightCommit, nextCommit, meetingCommit].foldl Store.insertCommit
    (Store.empty.insertTree ⟨#[]⟩)).setRef "refs/heads/main" meetingCommit.id).setRef "refs/tags/left" leftCommit.id
      |>.setRef "refs/tags/next" nextCommit.id |>.setRef "refs/tags/right" rightCommit.id

def meetingRequest : Request := { name := "refs/heads/main", retention := .abbreviated }

def meetingSession : Session where
  requests := [meetingRequest]

def meetingTags : List PeeledTag :=
  [⟨.lightweight "refs/tags/left" leftCommit.id, [], leftCommit.id⟩,
    ⟨.lightweight "refs/tags/next" nextCommit.id, [], nextCommit.id⟩,
    ⟨.lightweight "refs/tags/right" rightCommit.id, [], rightCommit.id⟩]

/-- What becomes of the others once the left and the right commit have become the one without a parent. -/
def nextAfter : Commit := { nextCommit with parents := [bareCommit.id] }

def meetingAfter : Commit := { meetingCommit with parents := [nextAfter.id, bareCommit.id] }

def meetingListed : List Replacement :=
  [⟨bareCommit.id, bareCommit⟩, ⟨nextAfter.id, nextAfter⟩, ⟨bareCommit.id, bareCommit⟩,
    ⟨meetingAfter.id, meetingAfter⟩]

theorem built_meetingStore : meetingStore.Built := by
  have hcommits : ∀ (commits : List Commit) (s : Store), s.Built → (commits.foldl Store.insertCommit s).Built := by
    intro commits
    induction commits with
    | nil => exact fun s hs => hs
    | cons c commits ih => exact fun s hs => ih _ (hs.insertCommit c)
  exact ((((hcommits _ _ (Store.Built.empty.insertTree _)).setRef _ _).setRef _ _).setRef _ _).setRef _ _

theorem meetingStore_computed :
    meetingStore.hasTree meetingCommit.tree = true ∧
    (meetingStore.repository.commit meetingCommit.id).toOption = some meetingCommit ∧
    (meetingStore.repository.commit bareCommit.id).toOption = some bareCommit ∧
    meetingStore.repository.tags.toOption = some (meetingTags.map (·.tag)) ∧
    (meetingStore.repository.head meetingRequest).toOption = some meetingCommit.id ∧
    (Walk.turns meetingStore.repository (Retention.abbreviated.selection (member [meetingCommit.id])
      (member (meetingTags.map (·.commit)))) 20
      ⟨{}, {meetingCommit.id}, [⟨meetingCommit.id, meetingCommit, meetingCommit.parents⟩]⟩).map
        (fun ended => (ended.1.entries.toList.filterMap Entry.new?, ended.2.toOption))
        = some (meetingListed, some ()) := by
  decide +kernel

theorem meetingStore_peeled : meetingStore.repository.run (peeledTags 0) = .ok meetingTags := by
  have htags := ok_of_toOption meetingStore_computed.2.2.2.1
  rw [peeledTags, Repository.run_bind, Repository.run_question, Repository.answer, htags]
  refine PeeledTag.run_ofRefs_of_peels fun p hp => ?_
  simp only [meetingTags, List.mem_cons, List.not_mem_nil, or_false] at hp
  rcases hp with rfl | rfl | rfl
  all_goals exact ⟨.lightweight, Nat.zero_le _⟩

/-- The left and the right commit both become one that was there before. It is listed for each of them, the second time
    behind a commit that is on it. -/
theorem commit_listed_again_by_meetingStore :
    meetingStore.Built ∧
    ∃ outcome, (meetingStore.repository.run (meetingSession.execute (fun _ => false) 0)).2.2 = .ok outcome ∧
      ¬(outcome.commits.map (·.id)).Nodup ∧
      (∃ new ∈ outcome.commits, ∃ commit, meetingStore.repository.commit new.id = .ok commit) ∧
      ∃ before new after, outcome.commits = before ++ new :: after ∧
        ∃ p ∈ new.commit.parents, p ∈ after.map (·.id) := by
  obtain ⟨htree, hcommit, hbare, -, hhead, hturns⟩ := meetingStore_computed
  have hload : meetingStore.repository.Loads meetingCommit.id meetingCommit :=
    Store.loads (ok_of_toOption hcommit) htree
  obtain ⟨progress, hrun, -, hlisted⟩ := walks_of_turns (fun l => l.entries.toList.filterMap Entry.new?)
    (ok_of_toOption hhead) meetingStore_peeled hload hturns
  have hcommits : (progress.publish meetingTags).outcome.commits = meetingListed :=
    (commits_publish progress meetingTags).trans hlisted
  refine ⟨built_meetingStore, _, execute_of_walks (s := meetingSession) rfl hrun, ?_, ?_, ?_⟩
  · rw [hcommits]
    exact fun hnodup => (List.nodup_cons.1 hnodup).1 (by simp)
  · have hmem : (⟨bareCommit.id, bareCommit⟩ : Replacement) ∈ (progress.publish meetingTags).outcome.commits := by
      rw [hcommits]
      exact List.mem_cons_self
    exact ⟨_, hmem, bareCommit, ok_of_toOption hbare⟩
  · exact ⟨[⟨bareCommit.id, bareCommit⟩], ⟨nextAfter.id, nextAfter⟩, _, hcommits, bareCommit.id,
      List.mem_cons_self, List.mem_cons_self⟩

end Publication

end PrunedHistory
