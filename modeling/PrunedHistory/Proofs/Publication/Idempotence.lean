import PrunedHistory.Proofs.Publication.PublishedStore
import PrunedHistory.Proofs.Publication.Republishing

/-! Publishing is idempotent

    The store that a publication leaves carries that publication: requests that name their heads find them where they
    are afterwards, and the refs under the tag prefix are just the retained tags, also those that were requested by a
    tag's name. Main statement: publishing the same requests from that store succeeds, moves no head and no tag, and
    lists nothing new. -/

namespace PrunedHistory

namespace Store.Publishes

open Publication

variable {s : Store} {bodies : ObjectId → ByteArray} {limit : Nat} {requests : List Request} {progress : Progress}
  {tags : List PeeledTag} {heads : List ObjectId} {q : Request} {name : String} {id head : ObjectId} {change : HeadChange}

theorem head_eq_ok_iff (hstart : q.start = none) : s.repository.head q = .ok id ↔ s.refs.get? q.name = some id := by
  rw [Repository.head, hstart]
  change s.resolve q.name = .ok id ↔ _
  rw [resolve]
  cases s.refs.get? q.name <;> simp

section

variable (h : s.Publishes bodies limit requests heads progress tags)

include h

/-- A head is entered for the ref of its name. -/
theorem exists_head_of_change (hchange : progress.heads.get? name = some change) :
    ∃ head ∈ heads, ∃ q ∈ requests, s.repository.head q = .ok head ∧ s.refs.get? name = some head ∧
      change.after = progress.ledger.after head := by
  rw [h.entries] at hchange
  obtain ⟨⟨q, head⟩, hjob, hentry⟩ := List.mem_map.1 (NameMap.mem_of_get?_insertAll hchange)
  obtain ⟨rfl, rfl⟩ := Prod.mk.inj hentry
  have hq := (List.of_mem_zip hjob).1
  have hhead := mem_zip_of_map_head h.resolved _ hjob
  exact ⟨head, (List.of_mem_zip hjob).2, q, hq, hhead, (head_eq_ok_iff (h.named q hq)).1 hhead, rfl⟩

/-- The commit that a head is entered for is kept and can be read. -/
theorem exists_keep_of_change (hchange : progress.heads.get? name = some change) :
    ∃ head c new, s.refs.get? name = some head ∧ s.commit head = .ok c ∧
      progress.ledger.find? head = some (.keep new) ∧ change.after = new.id := by
  obtain ⟨head, hmem, q, hq, hhead, hget, hafter⟩ := h.exists_head_of_change hchange
  obtain ⟨new, hkeep⟩ := h.done.settled.exists_replacement hq hhead (member_iff.2 hmem)
  obtain ⟨c, hload⟩ := h.sound.loads head (h.sound.mem_of_find? hkeep)
  exact ⟨head, c, new, hget, hload.1, hkeep, hafter.trans (Ledger.NewId.after_eq ⟨new, hkeep, rfl⟩)⟩

/-- A head under the tag prefix is a tag on a kept commit, too. -/
theorem exists_tag_of_change (hchange : progress.heads.get? name = some change)
    (hunder : Text.startsWith "refs/tags/" name = true) :
    ∃ p ∈ tags, ∃ new, p.tag.name = name ∧ progress.ledger.find? p.commit = some (.keep new) ∧
      p.position new.id = change.after := by
  obtain ⟨head, c, new, hget, hc, hkeep, hafter⟩ := h.exists_keep_of_change hchange
  have hlists : s.ListsTag (.lightweight name head) := by
    refine ⟨hget, hunder, ?_⟩
    rw [TagRef.name, TagRef.id, tagRef?, commit_eq_ok_iff.1 hc]
  have hp : ⟨.lightweight name head, [], head⟩ ∈ tags := (mem_peeledTags_iff_lists h.peeled).2 ⟨hlists, .lightweight⟩
  exact ⟨_, hp, new, rfl, hkeep, by rw [PeeledTag.position_lightweight, hafter]⟩

/-- Where a head and a tag have one name, they are at one place afterwards. -/
theorem tag_agrees (hchange : progress.heads.get? name = some change) {tag : TagChange}
    (htag : (progress.publish tags).outcome.tags.get? name = some tag) : tag.after = some change.after := by
  obtain ⟨p, hp, rfl, hp'⟩ := TagPass.exists_tag_of_change htag
  have hlists := ((mem_peeledTags_iff_lists h.peeled).1 hp).1
  obtain ⟨p', hp'', new, hname, hkeep, hposition⟩ := h.exists_tag_of_change hchange hlists.2.1
  obtain rfl := eq_of_tag_name h.peeled hp'' hp hname
  rw [PeeledTag.change?_of_keep hkeep, hposition] at hp'
  cases hp'
  rfl

/-- The refs of the store that is left are the heads and the retained tags. -/
theorem get?_refs_iff : (s.publish (progress.publish tags).outcome).refs.get? name = some id ↔
    (∃ change, progress.heads.get? name = some change ∧ change.after = id) ∨
      ∃ change, (progress.publish tags).outcome.tags.get? name = some change ∧ change.after = some id := by
  refine get?_refs_publish_iff fun name head tag id hhead htag hafter => ?_
  rw [h.tag_agrees hhead htag] at hafter
  exact (Option.some.inj hafter).symm

/-- A tag that is listed there is where one of the tags is that are retained. -/
theorem exists_retained {tag : TagRef} (hlists : (s.publish (progress.publish tags).outcome).ListsTag tag) :
    ∃ p ∈ tags, ∃ new, p.tag.name = tag.name ∧ progress.ledger.find? p.commit = some (.keep new) ∧
      p.position new.id = tag.id := by
  rcases h.get?_refs_iff.1 hlists.1 with ⟨change, hchange, hafter⟩ | ⟨change, hchange, hafter⟩
  · obtain ⟨p, hp, new, hname, hkeep, hposition⟩ := h.exists_tag_of_change hchange hlists.2.1
    exact ⟨p, hp, new, hname, hkeep, hposition.trans hafter⟩
  · obtain ⟨p, hp, hname, hp'⟩ := TagPass.exists_tag_of_change hchange
    obtain ⟨new, hkeep, rfl⟩ := PeeledTag.exists_keep_of_change? hp' hafter
    exact ⟨p, hp, new, hname, hkeep, Option.some.inj hafter⟩

/-- A retained tag is listed there under its name, and leads to its published commit. -/
theorem exists_listed {p : PeeledTag} {new : Replacement} (hp : p ∈ tags)
    (hkeep : progress.ledger.find? p.commit = some (.keep new)) :
    ∃ tag chain, (s.publish (progress.publish tags).outcome).ListsTag tag ∧
      (s.publish (progress.publish tags).outcome).repository.Peels tag chain new.id ∧
      tag.name = p.tag.name ∧ tag.id = p.position new.id := by
  obtain ⟨tag, chain, href, hpeels, -⟩ := h.exists_tagRef hp hkeep
  obtain ⟨hname, hid⟩ := eq_of_tagRef? href
  have hunder := ((mem_peeledTags_iff_lists h.peeled).1 hp).1.2.1
  have hchange := TagPass.get?_changes_of_tag (fun p hp q hq => eq_of_tag_name h.peeled hp hq) hp
    (PeeledTag.change?_of_keep hkeep)
  have hget := h.get?_refs_iff.2 (.inr ⟨_, hchange, rfl⟩)
  rw [← hname, ← hid] at hget href
  exact ⟨tag, chain, ⟨hget, hname ▸ hunder, href⟩, hpeels, hname, hid⟩

/-- All tags that are listed there can be peeled. -/
theorem exists_peeledTags_publish :
    ∃ tags', (s.publish (progress.publish tags).outcome).repository.run (peeledTags limit) = .ok tags' := by
  obtain ⟨refs, hrefs⟩ : ∃ refs, (s.publish (progress.publish tags).outcome).tags = .ok refs := by
    refine exists_tags fun name id hget hunder => ?_
    -- Every ref of the second store is a head or a retained tag of the outcome, and what it points at is stored there.
    rcases h.get?_refs_iff.1 hget with ⟨change, hchange, rfl⟩ | ⟨change, hchange, hafter⟩
    · obtain ⟨head, c, new, -, -, hkeep, hafter⟩ := h.exists_keep_of_change hchange
      obtain ⟨c, hc, -⟩ := h.exists_commit hkeep
      rw [hafter]
      exact contains_of_isSome (commit_eq_ok_iff.1 hc)
    · obtain ⟨p, hp, -, hp'⟩ := TagPass.exists_tag_of_change hchange
      obtain ⟨new, hkeep, rfl⟩ := PeeledTag.exists_keep_of_change? hp' hafter
      obtain rfl := Option.some.inj hafter
      obtain ⟨tag, chain, href, -⟩ := h.exists_tagRef hp hkeep
      rw [tagRef?] at href
      split at href
      · rename_i hstored
        exact contains_of_isSome hstored
      · rename_i hstored
        exact contains_of_isSome hstored
      · cases href
      · cases href
  refine exists_peeledTags hrefs fun tag htag => ?_
  have hlists := (mem_tags_iff hrefs).1 htag
  obtain ⟨p, hp, new, hname, hkeep, hposition⟩ := h.exists_retained hlists
  obtain ⟨found, chain, href, hpeels, hlimit⟩ := h.exists_tagRef hp hkeep
  rw [hname, hposition, hlists.2.2] at href
  cases href
  exact ⟨chain, new.id, hpeels, hlimit⟩

/-- The store that is left carries the publication. -/
theorem carries {tags' : List PeeledTag}
    (hpeeled' : (s.publish (progress.publish tags).outcome).repository.run (peeledTags limit) = .ok tags') :
    s.repository.Carries (s.publish (progress.publish tags).outcome).repository limit requests heads progress.ledger
      tags tags' where
  resolved := h.resolved
  settled := h.done.settled
  addressed := h.files.contentAddressed
  loads k new hkeep := h.loads hkeep
  moved q hq head hhead := by
    obtain ⟨change, hchange⟩ := h.done.named q hq
    obtain ⟨head', -, q', -, -, hget, hafter⟩ := h.exists_head_of_change hchange
    -- The request resolves by its name, and the name points at what replaces the head.
    rw [(head_eq_ok_iff (h.named q hq)).1 hhead] at hget
    cases hget
    exact (head_eq_ok_iff (h.named q hq)).2 (h.get?_refs_iff.2 (.inl ⟨change, hchange, hafter⟩))
  peeled := hpeeled'
  retained p hp new hkeep := by
    obtain ⟨tag, chain, hlists, hpeels, hname, hid⟩ := h.exists_listed hp hkeep
    refine ⟨⟨tag, chain, new.id⟩, (mem_peeledTags_iff_lists hpeeled').2 ⟨hlists, hpeels⟩, hname, ?_⟩
    rw [PeeledTag.change?_of_keep hkeep, hid]
  listed p' hp' := by
    obtain ⟨hlists, hpeels⟩ := (mem_peeledTags_iff_lists hpeeled').1 hp'
    obtain ⟨p, hp, new, hname, hkeep, hposition⟩ := h.exists_retained hlists
    obtain ⟨found, chain, href, hpeels', -⟩ := h.exists_tagRef hp hkeep
    rw [hname, hposition, hlists.2.2] at href
    -- The ref was written for a tag of the first publication, so the second one lists that tag at its new place.
    obtain rfl := Option.some.inj (Except.ok.inj href)
    refine ⟨p, hp, hname.symm, ?_⟩
    rw [PeeledTag.change?_of_keep hkeep, hposition, (hpeels.unique hpeels').2]

end

end Store.Publishes

namespace Publication

/-- Publishing is idempotent. From the store that a publication leaves, where the refs are just the heads and the
    retained tags, the same requests are published again: no head and no tag moves, nothing new is listed, and the tags
    that are reported are those that were retained. The requests name their heads, and the digest does not collide on
    what is hashed in the first publication. -/
theorem publishing_is_idempotent (s : Store) (hs : s.Built) (bodies : ObjectId → ByteArray) (hbodies : s.TreesAre bodies)
    (session : Session) (hstart : ∀ q ∈ session.requests, q.start = none) (cancelled : List Event → Bool) (limit : Nat)
    (outcome : Outcome) (houtcome : (s.repository.run (session.execute cancelled limit)).2.2 = .ok outcome)
    (hfree : ∀ progress tags, s.repository.run (walks session.requests cancelled limit) = (progress, .ok tags) →
      ObjectId.CollisionFree (s.Involved bodies progress.ledger tags)) :
    (∀ name id, (s.publish outcome).refs.get? name = some id ↔
      (∃ change, outcome.heads.get? name = some change ∧ change.after = id) ∨
        ∃ change, outcome.tags.get? name = some change ∧ change.after = some id) ∧
    ∃ again, ((s.publish outcome).repository.run
        (Session.execute { requests := session.requests } (fun _ => false) limit)).2.2 = .ok again ∧
      again.Repeats outcome := by
  obtain ⟨progress, tags, hwalks, rfl⟩ := execute_ok_cases houtcome
  obtain ⟨heads, hheads, hpeeled, hdone, hentries⟩ := walks_ok_cases hwalks
  have h : s.Publishes bodies limit session.requests heads progress tags :=
    ⟨hs, hbodies, hstart, hheads, hpeeled, hdone, hentries, hfree progress tags hwalks⟩
  refine ⟨fun name id => h.get?_refs_iff, ?_⟩
  obtain ⟨tags', hpeeled'⟩ := h.exists_peeledTags_publish
  obtain ⟨again, hagain, hrepeats⟩ := (h.carries hpeeled').repeats hentries
    (fun p hp q hq => eq_of_tag_name hpeeled hp hq) fun p hp q hq => eq_of_tag_name hpeeled' hp hq
  exact ⟨_, execute_of_walks rfl hagain, hrepeats⟩

/-- A commit on a root, the tip of a branch, with a tag object on it. -/
def releasedCommit : Commit := { rootCommit with parents := [rootCommit.id], message := "release" }

def releaseTag : Tag where
  object := releasedCommit.id
  kind := .commit
  name := "v1"
  message := ""

def releaseStore : Store :=
  (((((Store.empty.insertTree ⟨#[]⟩).insertCommit rootCommit).insertCommit releasedCommit).insertTag releaseTag).setRef
    "refs/tags/v1" releaseTag.id).setRef "refs/heads/main" releasedCommit.id

def releaseRequest : Request := { name := "refs/heads/main", retention := .latest }

def releaseSession : Session where
  requests := [releaseRequest]

/-- The released commit without its root, and the tag on it. -/
def loneCommit : Commit := { releasedCommit with parents := [] }

def loneTag : Tag := releaseTag.retarget loneCommit.id

def peeledReleaseTag : PeeledTag where
  tag := .annotated "refs/tags/v1" releaseTag.id
  chain := [releaseTag]
  commit := releasedCommit.id

def releaseEntries : List Ledger.Entry :=
  [⟨rootCommit.id, .drop []⟩, ⟨releasedCommit.id, .keep ⟨loneCommit.id, loneCommit⟩⟩]

def releaseHashed : List (ObjectKind × ByteArray) :=
  [(.tree, ⟨#[]⟩), (.commit, rootCommit.body), (.commit, releasedCommit.body), (.commit, loneCommit.body),
    (.tag, releaseTag.body), (.tag, loneTag.body)]

theorem built_releaseStore : releaseStore.Built :=
  (((((Store.Built.empty.insertTree _).insertCommit _).insertCommit _).insertTag _).setRef _ _).setRef _ _

theorem releaseStore_computed :
    (releaseHashed.map fun hashed => Sha1.digest (ObjectId.framed hashed.1 hashed.2)).Nodup ∧
    releaseStore.hasTree releasedCommit.tree = true ∧
    (releaseStore.repository.commit releasedCommit.id).toOption = some releasedCommit ∧
    (releaseStore.repository.tag releaseTag.id).toOption = some releaseTag ∧
    releaseStore.repository.tags.toOption = some ([peeledReleaseTag].map (·.tag)) ∧
    (releaseStore.repository.head releaseRequest).toOption = some releasedCommit.id ∧
    (Walk.turns releaseStore.repository (Retention.latest.selection (member [releasedCommit.id])
      (member [releasedCommit.id])) 20
      ⟨{}, {releasedCommit.id}, [⟨releasedCommit.id, releasedCommit, releasedCommit.parents⟩]⟩).map
        (fun ended => ((ended.1.entries.toList, (TagPass.ofTags ended.1 [peeledReleaseTag]).objects), ended.2.toOption))
        = some ((releaseEntries, [loneTag]), some ()) := by
  decide +kernel

/-- The walk of the branch drops the root and keeps the commit on it alone. -/
theorem exists_release_walks :
    ∃ progress, releaseStore.repository.run (walks releaseSession.requests (fun _ => false) 1)
        = (progress, .ok [peeledReleaseTag]) ∧
      progress.ledger.entries.toList = releaseEntries ∧
      (TagPass.ofTags progress.ledger [peeledReleaseTag]).objects = [loneTag] := by
  obtain ⟨-, htree, hcommit, htag, htags, hhead, hturns⟩ := releaseStore_computed
  have hpeeled : releaseStore.repository.run (peeledTags 1) = .ok [peeledReleaseTag] := by
    rw [peeledTags, Repository.run_bind, Repository.run_question, Repository.answer, ok_of_toOption htags]
    refine PeeledTag.run_ofRefs_of_peels fun p hp => ?_
    obtain rfl := List.mem_singleton.1 hp
    exact ⟨.annotated (.last (ok_of_toOption htag) (by rfl)), Nat.le_refl 1⟩
  obtain ⟨progress, hrun, -, hfound⟩ :=
    walks_of_turns (fun l => (l.entries.toList, (TagPass.ofTags l [peeledReleaseTag]).objects)) (ok_of_toOption hhead)
      hpeeled (Store.loads (ok_of_toOption hcommit) htree) hturns
  obtain ⟨hentries, hobjects⟩ := Prod.mk.inj hfound
  exact ⟨progress, hrun, hentries, hobjects⟩

theorem stored_of_releaseStore {id : ObjectId} {stored : Stored} (h : releaseStore.objects[id]? = some stored) :
    (stored = .tree ∧ id = .ofBody .tree ⟨#[]⟩) ∨ stored = .commit rootCommit ∨ stored = .commit releasedCommit ∨
      stored = .tag releaseTag := by
  rcases Store.stored_of_insert h with ⟨-, rfl⟩ | h
  · exact .inr (.inr (.inr rfl))
  rcases Store.stored_of_insert h with ⟨-, rfl⟩ | h
  · exact .inr (.inr (.inl rfl))
  rcases Store.stored_of_insert h with ⟨-, rfl⟩ | h
  · exact .inr (.inl rfl)
  rcases Store.stored_of_insert h with ⟨rfl, rfl⟩ | h
  · exact .inl ⟨rfl, rfl⟩
  · simp [Store.empty] at h

theorem eq_of_keep_release {l : Ledger} (hl : l.Indexed) (hentries : l.entries.toList = releaseEntries) {id : ObjectId}
    {new : Replacement} (h : l.find? id = some (.keep new)) : new = ⟨loneCommit.id, loneCommit⟩ := by
  have hmem := (Ledger.find?_eq_some_iff hl).1 h
  simp only [hentries, releaseEntries, List.mem_cons, List.not_mem_nil, or_false, Ledger.Entry.mk.injEq,
    Decision.keep.injEq, reduceCtorEq, and_false, false_or] at hmem
  exact hmem.2

/-- What is built again is built on the lone commit. -/
theorem mem_rebuild_of_release {l : Ledger} (hl : l.Indexed) (hentries : l.entries.toList = releaseEntries)
    {p : PeeledTag} {t : Tag} (ht : t ∈ p.rebuilt l) : t ∈ p.rebuild loneCommit.id := by
  rw [PeeledTag.rebuilt] at ht
  split at ht
  · rename_i new hkeep
    obtain rfl := eq_of_keep_release hl hentries hkeep
    split at ht
    · cases ht
    · exact ht
  · cases ht

/-- Six objects are hashed in all, and their digests differ. -/
theorem collisionFree_releaseHashed : ObjectId.CollisionFree fun kind body => (kind, body) ∈ releaseHashed := by
  intro kind body other body' hbody hbody' hdigest
  have hsame := List.inj_on_of_nodup_map releaseStore_computed.1 hbody hbody' hdigest
  obtain ⟨rfl, rfl⟩ := Prod.mk.inj hsame
  rfl

theorem lone_ne_released : loneCommit.id ≠ releasedCommit.id := by
  have hdigests := releaseStore_computed.1
  simp only [releaseHashed, List.map_cons, List.map_nil, List.nodup_cons, List.mem_cons, not_or] at hdigests
  exact fun hid => hdigests.2.2.1.1 (Commit.digest_eq_of_id hid.symm)

theorem collisionFree_release {l : Ledger} (hl : l.Indexed) (hentries : l.entries.toList = releaseEntries) :
    ObjectId.CollisionFree (releaseStore.Involved (fun _ => ⟨#[]⟩) l [peeledReleaseTag]) := by
  refine collisionFree_releaseHashed.mono ?_
  rintro kind body (⟨hcommit | htag | htree⟩ | ⟨k, new, hkeep, rfl⟩ | ⟨hp, ht⟩)
  · rcases stored_of_releaseStore (Store.commit_eq_ok_iff.1 hcommit) with ⟨h, -⟩ | h | h | h <;> cases h <;>
      simp [releaseHashed]
  · rcases stored_of_releaseStore (Store.tag_eq_ok_iff.1 htag) with ⟨h, -⟩ | h | h | h <;> cases h
    simp [releaseHashed]
  · simp [releaseHashed]
  · obtain rfl := eq_of_keep_release hl hentries hkeep
    simp [releaseHashed]
  · obtain rfl := List.mem_singleton.1 hp
    obtain rfl := List.mem_singleton.1 (mem_rebuild_of_release hl hentries ht)
    simp [releaseHashed, loneTag]

theorem treesAre_release : releaseStore.TreesAre fun _ => ⟨#[]⟩ := by
  intro id hid
  rcases stored_of_releaseStore (Store.hasTree_iff.1 hid) with ⟨-, rfl⟩ | h | h | h
  · rfl
  all_goals cases h

/-- The branch loses its root and its tag is built again; after that, nothing is left to do. -/
theorem idempotence_of_releaseStore :
    ∃ outcome again, (releaseStore.repository.run (releaseSession.execute (fun _ => false) 1)).2.2 = .ok outcome ∧
      outcome.tagObjects = [loneTag] ∧
      ((releaseStore.publish outcome).repository.run
        (Session.execute { requests := releaseSession.requests } (fun _ => false) 1)).2.2 = .ok again ∧
      again.Repeats outcome ∧ (releaseStore.publish outcome).refs.get? "refs/heads/main" = some loneCommit.id := by
  obtain ⟨progress, hrun, hentries, hobjects⟩ := exists_release_walks
  have houtcome := execute_of_walks (s := releaseSession) rfl hrun
  obtain ⟨heads, -, -, hdone, -⟩ := walks_ok_cases hrun
  have hindexed := hdone.settled.sound.indexed
  have hstart : ∀ q ∈ releaseSession.requests, q.start = none := by
    intro q hq
    rw [List.mem_singleton.1 hq]
    rfl
  obtain ⟨hrefs, again, hagain, hrepeats⟩ := publishing_is_idempotent releaseStore built_releaseStore _ treesAre_release
    releaseSession hstart (fun _ => false) 1 _ houtcome fun progress' tags hwalks => by
      obtain ⟨rfl, htags⟩ := Prod.mk.inj (hrun.symm.trans hwalks)
      obtain rfl := Except.ok.inj htags
      exact collisionFree_release hindexed hentries
  obtain ⟨change, hchange⟩ := hdone.named releaseRequest List.mem_cons_self
  obtain ⟨new, hkeep, hafter⟩ := hdone.moved _ change hchange
  obtain rfl := eq_of_keep_release hindexed hentries hkeep
  exact ⟨_, again, houtcome, hobjects, hagain, hrepeats, (hrefs _ _).2 (.inl ⟨change, hchange, hafter.symm⟩)⟩

end Publication

end PrunedHistory
