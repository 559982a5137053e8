import PrunedHistory.Proofs.Object.CommitGrammar
import PrunedHistory.Proofs.Publication.Idempotence

/-! Asking for what was published

    A published commit is looked up by its new id, and several originals may have got one. A commit that can be read
    back from its text is known by its body, so where the digest does not collide, all of them became one commit and it
    does not matter which was filed last. Main statement: what a session answers for the name of a head or of a tag is
    the commit of the source on its new parents, for a dropped tag it is nothing, and no other name is known. -/

namespace PrunedHistory

/-- What is hashed about the recorded commits: the commits themselves and what replaces those that are kept. -/
inductive Ledger.Hashes (r : Repository) (l : Ledger) : Commit → Prop where
  | original {id : ObjectId} {commit : Commit} : id ∈ l.commits → r.commit id = .ok commit → Hashes r l commit
  | replacement {commit : Commit} : l.Replaces commit → Hashes r l commit

/-- Every commit that is read could be read back from its own text. -/
def Repository.ReadsBack (r : Repository) : Prop :=
  ∀ id commit, r.commit id = .ok commit → Commit.parse commit.body = .ok commit

/-- The commit is the one that is read under the id, but for its parents. -/
def Repository.IsOn (r : Repository) (id : ObjectId) (source commit : Commit) : Prop :=
  r.commit id = .ok source ∧ commit = { source with parents := commit.parents }

/-- What a session answers after its publication. -/
structure Session.Answers (r : Repository) (s : Session) (l : Ledger) (o : Outcome) : Prop where
  named : ∀ name, (∃ change, o.heads.get? name = some change) ↔ ∃ q ∈ s.requests, q.name = name
  tagged : ∀ name, (∃ change, o.tags.get? name = some change) ↔
    ∃ refs tag chain id, r.tags = .ok refs ∧ tag ∈ refs ∧ tag.name = name ∧ r.Peels tag chain id ∧ id ∈ l.commits
  head : ∀ name change, o.heads.get? name = some change →
    (∃ q ∈ s.requests, q.name = name ∧ r.head q = .ok change.before) ∧
    ∃ source commit, s.publishedCommit name = .ok (some commit) ∧ commit.id = change.after ∧
      r.IsOn change.before source commit ∧ s.isUnchanged name = .ok (decide (commit.parents = source.parents))
  tag : ∀ name change, o.heads.get? name = none → o.tags.get? name = some change →
    ∃ refs tag chain id, r.tags = .ok refs ∧ tag ∈ refs ∧ tag.name = name ∧ change.before = tag.id ∧
      r.Peels tag chain id ∧ (change.after = none ↔ l.wasKept? id = some false) ∧
      (s.publishedCommit name = .ok none ↔ change.after = none) ∧
      (change.after ≠ none → ∃ source commit, s.publishedCommit name = .ok (some commit) ∧
        change.commit = some commit.id ∧ r.IsOn id source commit) ∧
      s.isUnchanged name = .ok (change.after == some tag.id)
  other : ∀ name, o.heads.get? name = none → o.tags.get? name = none →
    s.publishedCommit name = .error (.unknownRef name) ∧ s.isUnchanged name = .error (.unknownRef name)

namespace Ledger.Sound

variable {r : Repository} {l : Ledger} {k id : ObjectId} {new : Replacement} {commit source : Commit}

/-- A kept commit is published as it is in the source, but for its parents. -/
theorem exists_isOn (h : l.Sound r) (hkeep : l.find? k = some (.keep new)) :
    ∃ source, r.IsOn k source new.commit := by
  obtain ⟨source, hload⟩ := h.loads k (h.mem_of_find? hkeep)
  refine ⟨source, hload.1, ?_⟩
  rw [h.keep_eq hkeep hload]
  rfl

/-- What is published can be read back from its text. -/
theorem wellFormed (h : l.Sound r) (hread : r.ReadsBack) (hkeep : l.find? k = some (.keep new)) :
    new.commit.WellFormed := by
  obtain ⟨source, hsource, heq⟩ := h.exists_isOn hkeep
  obtain ⟨hauthor, hcommitter, hkeys⟩ := Commit.parse_body_iff.1 (hread k source hsource)
  rw [heq]
  exact ⟨hauthor, hcommitter, hkeys⟩

/-- A kept commit keeps its id exactly if it keeps its parents. -/
theorem id_eq_iff (h : l.Sound r) (hr : r.ContentAddressed) (hfree : Commit.CollisionFree (l.Hashes r))
    (hkeep : l.find? k = some (.keep new)) (hon : r.IsOn k source new.commit) :
    k = new.id ↔ new.commit.parents = source.parents := by
  obtain ⟨hsource, heq⟩ := hon
  have hid := h.id_of_keep hkeep
  constructor
  · intro hstays
    refine hfree.parents_eq (.replacement ⟨k, new, hkeep, rfl⟩) (.original (h.mem_of_find? hkeep) hsource) ?_
    rw [hid, ← hstays, hr k source hsource]
  · intro hparents
    have hsame : new.commit = source := by
      rw [heq, hparents]
    rw [← hid, hsame, hr k source hsource]

end Ledger.Sound

namespace Publication

variable {r : Repository} {progress : Progress} {tags : List PeeledTag} {k : ObjectId} {new : Replacement}
  {s : Session} {published : Published} {name : String} {head : HeadChange} {change : TagChange} {commit : Commit}
  {l : Ledger} {id after target : ObjectId}

/-- Whichever commit was filed last under a new id, it is the one that was published for each of its originals. -/
theorem filed_of_keep (h : progress.ledger.Sound r) (hread : r.ReadsBack)
    (hfree : Commit.CollisionFree progress.ledger.Replaces)
    (hkeep : progress.ledger.find? k = some (.keep new)) :
    (progress.publish tags).commits[new.id]? = some new.commit := by
  obtain ⟨commit, hfiled⟩ : ∃ commit, (progress.publish tags).commits[new.id]? = some commit :=
    (exists_published_iff h.indexed).2 ⟨k, new, hkeep, rfl⟩
  obtain ⟨k', last, hlast, hid, rfl⟩ := exists_kept_of_published h.indexed hfiled
  have hbody : last.commit.body = new.commit.body := by
    refine hfree.body_eq ⟨k', last, hlast, rfl⟩ ⟨k, new, hkeep, rfl⟩ ?_
    rw [h.id_of_keep hlast, h.id_of_keep hkeep, hid]
  rw [hfiled, (h.wellFormed hread hlast).eq_of_body (h.wellFormed hread hkeep) hbody]

/-! ### The answers of a published session -/

section

variable (hs : s.published = some published)

include hs

theorem publishedCommit_eq (name : String) : s.publishedCommit name =
    match published.outcome.heads.get? name, published.outcome.tags.get? name with
    | some head, _ => published.find head.after
    | none, some tag =>
      match tag.commit with
      | some id => published.find id
      | none => .ok none
    | none, none => .error (.unknownRef name) := by
  rw [Session.publishedCommit, hs]
  rfl

theorem isUnchanged_eq (name : String) : s.isUnchanged name =
    match published.outcome.heads.get? name, published.outcome.tags.get? name with
    | some head, _ => .ok head.isUnchanged
    | none, some tag => .ok tag.isUnchanged
    | none, none => .error (.unknownRef name) := by
  rw [Session.isUnchanged, Session.outcome, hs]
  rfl

theorem answers_of_head (hhead : published.outcome.heads.get? name = some head)
    (hfiled : published.commits[head.after]? = some commit) :
    s.publishedCommit name = .ok (some commit) ∧ s.isUnchanged name = .ok head.isUnchanged := by
  have hfind : published.find head.after = .ok (some commit) := by
    rw [Published.find, hfiled]
  rw [publishedCommit_eq hs, isUnchanged_eq hs, hhead]
  exact ⟨hfind, rfl⟩

theorem answers_of_dropped (hhead : published.outcome.heads.get? name = none)
    (htag : published.outcome.tags.get? name = some ⟨id, none, none⟩) :
    s.publishedCommit name = .ok none ∧ s.isUnchanged name = .ok false := by
  rw [publishedCommit_eq hs, isUnchanged_eq hs, hhead, htag]
  exact ⟨rfl, rfl⟩

theorem answers_of_retained (hhead : published.outcome.heads.get? name = none)
    (htag : published.outcome.tags.get? name = some ⟨id, some after, some target⟩)
    (hfiled : published.commits[target]? = some commit) :
    s.publishedCommit name = .ok (some commit) ∧ s.isUnchanged name = .ok (some after == some id) := by
  have hfind : published.find target = .ok (some commit) := by
    rw [Published.find, hfiled]
  rw [publishedCommit_eq hs, isUnchanged_eq hs, hhead, htag]
  exact ⟨hfind, rfl⟩

end

/-- The head that is entered under a name is that of a request of this name. -/
theorem exists_request_of_change {requests : List Request} {heads : List ObjectId} {entries : NameMap HeadChange}
    (hheads : requests.map r.head = heads.map .ok)
    (hentries : entries = (∅ : NameMap HeadChange).insertAll ((requests.zip heads).map (headEntry l)))
    (hchange : entries.get? name = some head) : ∃ q ∈ requests, q.name = name ∧ r.head q = .ok head.before := by
  rw [hentries] at hchange
  obtain ⟨⟨q, id⟩, hjob, hentry⟩ := List.mem_map.1 (NameMap.mem_of_get?_insertAll hchange)
  obtain ⟨rfl, rfl⟩ := Prod.mk.inj hentry
  exact ⟨q, (List.of_mem_zip hjob).1, rfl, mem_zip_of_map_head hheads _ hjob⟩

/-- The tags that have a change are those whose commits are recorded. -/
theorem exists_tag_change_iff {limit : Nat} (h : progress.ledger.Sound r)
    (hpeeled : r.run (peeledTags limit) = .ok tags) (name : String) :
    (∃ change, (progress.publish tags).outcome.tags.get? name = some change) ↔
      ∃ refs tag chain id, r.tags = .ok refs ∧ tag ∈ refs ∧ tag.name = name ∧ r.Peels tag chain id ∧
        id ∈ progress.ledger.commits := by
  refine TagPass.exists_change_iff.trans ⟨?_, ?_⟩
  · rintro ⟨p, hp, hname, d, hd⟩
    obtain ⟨⟨refs, hrefs, hlisted⟩, hpeels⟩ := (mem_peeledTags_iff hpeeled p).1 hp
    exact ⟨refs, p.tag, p.chain, p.commit, hrefs, hlisted, hname, hpeels, h.mem_of_find? hd⟩
  · rintro ⟨refs, tag, chain, id, hrefs, hlisted, hname, hpeels, hid⟩
    have hp := (mem_peeledTags_iff hpeeled ⟨tag, chain, id⟩).2 ⟨⟨refs, hrefs, hlisted⟩, hpeels⟩
    exact ⟨_, hp, hname, h.exists_find? hid⟩

/-- What is answered for a tag: nothing if its commit was dropped, and else what its commit became. -/
theorem answers_of_tag {p : PeeledTag} (h : progress.ledger.Sound r)
    (hs : s.published = some (progress.publish tags))
    (hfiled : ∀ k new, progress.ledger.find? k = some (.keep new) →
      (progress.publish tags).commits[new.id]? = some new.commit)
    (hhead : (progress.publish tags).outcome.heads.get? name = none)
    (htag : (progress.publish tags).outcome.tags.get? name = some change)
    (hchange : p.change? progress.ledger = some change) :
    change.before = p.tag.id ∧ (change.after = none ↔ progress.ledger.wasKept? p.commit = some false) ∧
      (s.publishedCommit name = .ok none ↔ change.after = none) ∧
      (change.after ≠ none → ∃ source commit, s.publishedCommit name = .ok (some commit) ∧
        change.commit = some commit.id ∧ r.IsOn p.commit source commit) ∧
      s.isUnchanged name = .ok (change.after == some p.tag.id) := by
  rcases PeeledTag.change?_cases hchange with ⟨substitutes, hdrop, rfl⟩ | ⟨new, hkeep, rfl⟩
  · obtain ⟨hcommit, hunchanged⟩ := answers_of_dropped hs hhead htag
    have hdropped := Ledger.wasKept?_eq_false_iff.2 ⟨substitutes, hdrop⟩
    exact ⟨rfl, iff_of_true rfl hdropped, iff_of_true hcommit rfl, fun h => absurd rfl h, hunchanged⟩
  · obtain ⟨hcommit, hunchanged⟩ := answers_of_retained hs hhead htag (hfiled _ new hkeep)
    obtain ⟨source, hon⟩ := h.exists_isOn hkeep
    have hkept : progress.ledger.wasKept? p.commit ≠ some false := by
      rw [Ledger.wasKept?_eq_true_iff.2 ⟨new, hkeep⟩]
      decide
    refine ⟨rfl, iff_of_false (by simp) hkept, iff_of_false ?_ (by simp), fun _ => ?_, hunchanged⟩
    · rw [hcommit]
      simp
    · exact ⟨source, new.commit, hcommit, congrArg some (h.id_of_keep hkeep).symm, hon⟩

/-- After a publication that succeeds, the queries answer from the source. Of every head there is a commit under the
    head's new id, which is the one that the head was at, on its new parents, and the head is unchanged just if these
    are the old ones. Of every other tag there is none if it was dropped, and if not, the commit that the tag peels to,
    on its new parents. No other name is known, and the commit that replaces a kept one is always found. -/
theorem queries_answer_from_the_source (r : Repository) (hr : r.ContentAddressed) (hread : r.ReadsBack) (s : Session)
    (cancelled : List Event → Bool) (limit : Nat) (outcome : Outcome)
    (houtcome : (r.run (s.execute cancelled limit)).2.2 = .ok outcome)
    (hfree : Commit.CollisionFree ((r.run (walks s.requests cancelled limit)).1.ledger.Hashes r)) :
    ∃ progress tags published, r.run (walks s.requests cancelled limit) = (progress, .ok tags) ∧
      (r.run (s.execute cancelled limit)).1.published = some published ∧ published.outcome = outcome ∧
      (r.run (s.execute cancelled limit)).1.Answers r progress.ledger outcome ∧
      ∀ k new, progress.ledger.find? k = some (.keep new) → published.commits[new.id]? = some new.commit := by
  obtain ⟨progress, tags, hwalks, rfl, hpublished⟩ := published_of_execute houtcome
  obtain ⟨heads, hheads, hpeeled, hdone, hentries⟩ := walks_ok_cases hwalks
  rw [hwalks] at hfree
  have hsound := hdone.settled.sound
  -- Replacements of one id are the same commit, so the last that is filed under it does for all.
  have hfiled : ∀ k new, progress.ledger.find? k = some (.keep new) →
      (progress.publish tags).commits[new.id]? = some new.commit := fun k new hkeep =>
    filed_of_keep hsound hread (fun c d hc hd => hfree c d (.replacement hc) (.replacement hd)) hkeep
  refine ⟨progress, tags, _, hwalks, hpublished, rfl, ⟨fun name => ?named, fun name => ?tagged,
    fun name change hchange => ?head, fun name change hhead hchange => ?tag, fun name hhead htag => ?other⟩, hfiled⟩
  case named =>
    rw [requests_of_execute]
    constructor
    · rintro ⟨change, hchange⟩
      obtain ⟨q, hq, hname, -⟩ := exists_request_of_change hheads hentries hchange
      exact ⟨q, hq, hname⟩
    · rintro ⟨q, hq, rfl⟩
      exact hdone.named q hq
  case tagged => exact exists_tag_change_iff hsound hpeeled name
  case head =>
    obtain ⟨new, hkeep, hafter⟩ := hdone.moved name change hchange
    obtain ⟨source, hon⟩ := hsound.exists_isOn hkeep
    obtain ⟨hcommit, hunchanged⟩ := answers_of_head hpublished hchange (hafter ▸ hfiled _ new hkeep)
    -- A kept commit has its own id just if its parents are what they were.
    have hsame : change.isUnchanged = decide (new.commit.parents = source.parents) := by
      rw [HeadChange.isUnchanged, ← hafter, Bool.eq_iff_iff, beq_iff_eq, decide_eq_true_iff]
      exact hsound.id_eq_iff hr hfree hkeep hon
    rw [requests_of_execute]
    exact ⟨exists_request_of_change hheads hentries hchange, source, new.commit, hcommit,
      (hsound.id_of_keep hkeep).trans hafter, hon, hsame ▸ hunchanged⟩
  case tag =>
    obtain ⟨p, hp, rfl, hp'⟩ := TagPass.exists_tag_of_change hchange
    obtain ⟨⟨refs, hrefs, hlisted⟩, hpeels⟩ := (mem_peeledTags_iff hpeeled p).1 hp
    obtain ⟨hbefore, hanswers⟩ := answers_of_tag hsound hpublished hfiled hhead hchange hp'
    exact ⟨refs, p.tag, p.chain, p.commit, hrefs, hlisted, rfl, hbefore, hpeels, hanswers⟩
  case other =>
    rw [publishedCommit_eq hpublished, isUnchanged_eq hpublished, hhead, htag]
    exact ⟨rfl, rfl⟩

theorem releaseStore_commits {id : ObjectId} (h : releaseStore.repository.commit id = .ok commit) :
    commit = rootCommit ∨ commit = releasedCommit := by
  rcases stored_of_releaseStore (Store.stored_of_read h) with ⟨h, -⟩ | h | h | h <;> cases h
  · exact .inl rfl
  · exact .inr rfl

theorem releaseStore_commits_readBack : releaseStore.repository.ReadsBack := by
  intro id commit h
  rcases releaseStore_commits h with rfl | rfl
  · exact Commit.parse_body_iff.2 (by decide)
  · exact Commit.parse_body_iff.2 (by decide)

/-- Three commits are hashed in all, and their digests differ. -/
theorem commitsFree_release (hl : l.Indexed) (hentries : l.entries.toList = releaseEntries) :
    Commit.CollisionFree (l.Hashes releaseStore.repository) := by
  have hmem : ∀ c, l.Hashes releaseStore.repository c → (ObjectKind.commit, c.body) ∈ releaseHashed := by
    rintro c (⟨-, hread⟩ | ⟨k, new, hkeep, rfl⟩)
    · rcases releaseStore_commits hread with rfl | rfl <;> simp [releaseHashed]
    · obtain rfl := eq_of_keep_release hl hentries hkeep
      simp [releaseHashed]
  exact fun c d hc hd => collisionFree_releaseHashed _ _ _ _ (hmem c hc) (hmem d hd)

/-- The branch and the tag lead to the commit that lost its root. -/
theorem queries_of_releaseStore :
    ∃ outcome progress published,
      (releaseStore.repository.run (releaseSession.execute (fun _ => false) 1)).2.2 = .ok outcome ∧
      releaseStore.repository.run (walks releaseSession.requests (fun _ => false) 1)
        = (progress, .ok [peeledReleaseTag]) ∧
      releaseStore.repository.ContentAddressed ∧ releaseStore.repository.ReadsBack ∧
      Commit.CollisionFree (progress.ledger.Hashes releaseStore.repository) ∧
      (releaseStore.repository.run (releaseSession.execute (fun _ => false) 1)).1.published = some published ∧
      (releaseStore.repository.run (releaseSession.execute (fun _ => false) 1)).1.Answers releaseStore.repository
        progress.ledger outcome ∧
      published.commits[loneCommit.id]? = some loneCommit := by
  obtain ⟨progress, hrun, hentries, -⟩ := exists_release_walks
  have houtcome := execute_of_walks (s := releaseSession) rfl hrun
  obtain ⟨_, -, -, hdone, -⟩ := walks_ok_cases hrun
  have hindexed := hdone.settled.sound.indexed
  have hfree : Commit.CollisionFree (progress.ledger.Hashes releaseStore.repository) :=
    commitsFree_release hindexed hentries
  obtain ⟨progress', tags, published, hwalks, hpublished, -, hanswers, hfiled⟩ :=
    queries_answer_from_the_source releaseStore.repository built_releaseStore.contentAddressed
      releaseStore_commits_readBack releaseSession _ 1 _ houtcome (by rw [hrun]; exact hfree)
  obtain ⟨rfl, -⟩ := Prod.mk.inj (hrun.symm.trans hwalks)
  have hkeep : progress.ledger.find? releasedCommit.id = some (.keep ⟨loneCommit.id, loneCommit⟩) := by
    rw [Ledger.find?_eq_some_iff hindexed, hentries]
    exact List.mem_cons_of_mem _ List.mem_cons_self
  exact ⟨_, progress, published, houtcome, hrun, built_releaseStore.contentAddressed, releaseStore_commits_readBack,
    hfree, hpublished, hanswers, hfiled _ _ hkeep⟩

end Publication

end PrunedHistory
