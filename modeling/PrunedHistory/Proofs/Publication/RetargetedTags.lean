import PrunedHistory.Proofs.Publication.Idempotence
import PrunedHistory.Proofs.Publication.RebuiltChains

/-! Where the tags are afterwards

    A tag of a covered commit is dropped with it or leads to its published commit, over as many tag objects as before,
    which are encoded as before but for their targets. Of the new tag objects each is listed once, in front of those
    that are on it, whichever tags lead over it. Main statement: this holds of every publication that succeeds, if
    every tag is listed once, every tag object is found under its own id, and the digest does not collide on the tag
    objects that are read and built. It does not hold where a tag object is filed under the id that it is going to get
    on the new commit. -/

namespace PrunedHistory

/-- The same name on another object. -/
def TagRef.movedTo (tag : TagRef) (id : ObjectId) : TagRef :=
  match tag with
  | .lightweight name _ => .lightweight name id
  | .annotated name _ => .annotated name id

/-- What becomes of a tag: it is dropped with its commit, or it leads to the kept commit. -/
structure Outcome.Retargets (r : Repository) (o : Outcome) (l : Ledger) (p : PeeledTag) (change : TagChange) :
    Prop where
  before : change.before = p.tag.id
  decided :
    (∃ substitutes, l.find? p.commit = some (.drop substitutes) ∧ change.after = none ∧ change.commit = none) ∨
    ∃ new after chain, l.find? p.commit = some (.keep new) ∧ change.after = some after ∧ change.commit = some new.id ∧
      (after = p.tag.id ↔ new.id = p.commit) ∧
      (r.withTags o.tagObjects).Peels (p.tag.movedTo after) chain new.id ∧ List.Forall₂ Tag.EncodedLike p.chain chain

/-- The new tag objects are listed once each, the ones further in first, and one for all the chains that lead over the
    same tag object; for a tag whose commit keeps its id there is none. -/
structure Outcome.BuildsOnce (r : Repository) (o : Outcome) (l : Ledger) (tags : List PeeledTag) : Prop where
  ids : (o.tagObjects.map Tag.id).Nodup
  ahead : ∀ (i j : Nat) (t u : Tag), o.tagObjects[i]? = some t → o.tagObjects[j]? = some u → u.kind = .tag →
    u.object = t.id → i < j
  again : ∃ again : Tag → Tag, ∀ p ∈ tags, ∀ new, p.Moves l new → ∀ change after,
    o.tags.get? p.tag.name = some change → change.after = some after →
      (r.withTags o.tagObjects).Peels (p.tag.movedTo after) (p.chain.map again) new.id ∧
      ∀ t ∈ p.chain, again t ∈ o.tagObjects ∧ t.EncodedLike (again t)
  idle : ∀ before p after new, tags = before ++ p :: after → l.find? p.commit = some (.keep new) → new.id = p.commit →
    (TagPass.ofTags l (before ++ after)).objects = o.tagObjects

variable {r : Repository} {l : Ledger} {tags : List PeeledTag} {p : PeeledTag} {pass : TagPass} {change : TagChange}
  {new : Replacement} {again : Tag → Tag} {o : Outcome}

/-- What a tag object is on stands in front of it. -/
theorem Grounded.lt_of_object {commits : List ObjectId} {objects : List Tag} (h : Grounded commits objects)
    (hids : (objects.map Tag.id).Nodup) {i j : Nat} {t u : Tag} (ht : objects[i]? = some t) (hu : objects[j]? = some u)
    (hkind : u.kind = .tag) (hobject : u.object = t.id) : i < j := by
  obtain ⟨hj, rfl⟩ := List.getElem?_eq_some_iff.1 hu
  have hsplit : objects = objects.take j ++ objects[j] :: objects.drop (j + 1) := by
    rw [← List.drop_eq_getElem_cons hj, List.take_append_drop]
  rcases h _ _ _ hsplit with ⟨hcommit, -⟩ | ⟨-, hfront⟩
  · exact absurd (hkind.symm.trans hcommit) (by decide)
  · obtain ⟨front, hmem, hfront⟩ := List.mem_map.1 hfront
    obtain ⟨k, hk, rfl⟩ := List.mem_take_iff_getElem.1 hmem
    obtain ⟨hkj, hkl⟩ := Nat.lt_min.1 hk
    -- Ids come once, so the tag object that stands in front is the given one.
    have hki : k = i := by
      have hlength : k < (objects.map Tag.id).length := by rwa [List.length_map]
      refine (List.getElem?_inj hlength hids).1 ?_
      rw [List.getElem?_map, List.getElem?_map, ht, List.getElem?_eq_getElem hkl, Option.map_some, Option.map_some,
        hfront, hobject]
    exact hki ▸ hkj

namespace PeeledTag

/-- A tag whose commit moves leads to the new commit over the new tag objects. -/
theorem Moves.peels {objects : List Tag} (h : p.Moves l new) (hp : p ∈ tags) (hpeels : r.Peels p.tag p.chain p.commit)
    (hagain : BuiltOf again objects l tags) :
    (r.withTags objects).Peels (p.tag.movedTo (p.position new.id)) (p.chain.map again) new.id ∧
      ∀ t ∈ p.chain, again t ∈ objects ∧ t.EncodedLike (again t) := by
  have hbuilt := hagain p hp new h
  rw [position_eq, if_neg h.moved]
  obtain ⟨tag, chain, commit⟩ := p
  change r.Peels tag chain commit at hpeels
  cases hpeels with
  | lightweight => exact ⟨.lightweight, by simp⟩
  | annotated hleads =>
    obtain ⟨hway, hlike⟩ := leadsTo_map_again hleads hbuilt
    exact ⟨.annotated hway, hlike⟩

section

variable (hlists : TagPass.Lists (tags.flatMap (·.rebuilt l)) pass) (hapart : r.TagsApart l tags)

include hapart

theorem position_eq_iff (hp : p ∈ tags) (hpeels : r.Peels p.tag p.chain p.commit)
    (hkeep : l.find? p.commit = some (.keep new)) : p.position new.id = p.tag.id ↔ new.id = p.commit := by
  rw [position_eq]
  by_cases hstays : new.id = p.commit
  · rw [if_pos hstays, eq_self, true_iff]
    exact hstays
  · rw [if_neg hstays]
    refine iff_of_false (fun hid => ?_) hstays
    have hmoves : p.Moves l new := ⟨hkeep, hstays⟩
    obtain ⟨tag, chain, commit⟩ := p
    change r.Peels tag chain commit at hpeels
    cases hpeels with
    | lightweight => exact hstays hid
    | annotated hleads => exact hmoves.rebuiltId_ne hapart hp hleads hid

include hlists

/-- A tag whose commit is kept leads to where that is, over tag objects like its own. -/
theorem exists_peels (hp : p ∈ tags) (hpeels : r.Peels p.tag p.chain p.commit)
    (hkeep : l.find? p.commit = some (.keep new)) (hagain : BuiltOf again pass.objects l tags) :
    ∃ chain, (r.withTags pass.objects).Peels (p.tag.movedTo (p.position new.id)) chain new.id ∧
      List.Forall₂ Tag.EncodedLike p.chain chain := by
  -- A commit that stays keeps its tag objects, and one that moves has them rebuilt.
  by_cases hstays : new.id = p.commit
  · rw [position_eq, if_pos hstays, hstays]
    have hway (id : ObjectId) (h : r.LeadsTo id p.chain p.commit) := exists_chain_of_stay hlists hapart hp h
    obtain ⟨tag, chain, commit⟩ := p
    change r.Peels tag chain commit at hpeels
    cases hpeels with
    | lightweight => exact ⟨[], .lightweight, .nil⟩
    | annotated hleads =>
      obtain ⟨chain', hleads', hall⟩ := hway _ hleads
      exact ⟨chain', .annotated hleads', hall⟩
  · obtain ⟨hway, hlike⟩ := Moves.peels ⟨hkeep, hstays⟩ hp hpeels hagain
    refine ⟨_, hway, ?_⟩
    rw [List.forall₂_map_right_iff, List.forall₂_same]
    exact fun t ht => (hlike t ht).2

theorem retargets (hobjects : o.tagObjects = pass.objects) (hp : p ∈ tags) (hpeels : r.Peels p.tag p.chain p.commit)
    (hagain : BuiltOf again pass.objects l tags) (hchange : p.change? l = some change) : o.Retargets r l p change := by
  rcases change?_cases hchange with ⟨substitutes, hdrop, rfl⟩ | ⟨new, hkeep, rfl⟩
  · exact ⟨rfl, .inl ⟨substitutes, hdrop, rfl, rfl⟩⟩
  · obtain ⟨chain, hway, hall⟩ := exists_peels hlists hapart hp hpeels hkeep hagain
    rw [← hobjects] at hway
    exact ⟨rfl, .inr ⟨new, _, chain, hkeep, rfl, rfl, position_eq_iff hapart hp hpeels hkeep, hway, hall⟩⟩

end

end PeeledTag

namespace Publication

variable {isHead isTagged : ObjectId → Bool} {requests : List Request} {progress : Progress}

/-- A peeled tag is among the tags of the outcome just if its commit is covered. -/
theorem Settled.exists_change_iff (h : Settled r isHead isTagged requests l)
    (honce : ∀ p ∈ tags, ∀ q ∈ tags, p.tag.name = q.tag.name → p = q) (hp : p ∈ tags) :
    (∃ change, (TagPass.ofTags l tags).changes.get? p.tag.name = some change) ↔ ∃ q ∈ requests, r.Covers q p.commit := by
  rw [TagPass.get?_changes_eq honce hp, PeeledTag.exists_change?_iff, ← h.mem_iff]
  exact ⟨fun ⟨_, hd⟩ => h.sound.mem_of_find? hd, h.sound.exists_find?⟩

/-- The new tag objects of an outcome are built once. -/
theorem buildsOnce (h : progress.ledger.Sound r) (hpeels : ∀ p ∈ tags, r.Peels p.tag p.chain p.commit)
    (honce : ∀ p ∈ tags, ∀ q ∈ tags, p.tag.name = q.tag.name → p = q)
    (hagain : PeeledTag.BuiltOf again (TagPass.ofTags progress.ledger tags).objects progress.ledger tags) :
    (progress.publish tags).outcome.BuildsOnce r progress.ledger tags := by
  have hlists := TagPass.lists_ofTags progress.ledger tags
  refine ⟨hlists.nodup, fun i j t u ht hu hkind hobject => ?ahead,
    ⟨again, fun p hp new hmoves change after hchange hafter => ?again⟩,
    fun before p after new hsplit hkeep hstays => ?idle⟩
  case ahead =>
    have hgrounded : Grounded ((progress.publish tags).outcome.commits.map (·.id))
        (progress.publish tags).outcome.tagObjects := hlists.grounded _ (grounded_rebuilt h hpeels)
    exact hgrounded.lt_of_object hlists.nodup ht hu hkind hobject
  case again =>
    have hown : p.change? progress.ledger = some change := (TagPass.get?_changes_eq honce hp).symm.trans hchange
    rw [PeeledTag.change?_of_keep hmoves.kept] at hown
    obtain rfl := Option.some.inj hown
    obtain rfl := Option.some.inj hafter
    exact hmoves.peels hp (hpeels p hp) hagain
  case idle =>
    -- A commit that stays adds no tag object, so the pass lists the same with and without the tag.
    have hnothing : p.rebuilt progress.ledger = [] := by
      rw [PeeledTag.rebuilt, hkeep]
      exact if_pos hstays
    have hsame := TagPass.objects_ofTags_of_idle hnothing before after
    rw [← hsplit] at hsame
    exact hsame.symm

/-- The tags of a publication that succeeds are those of the covered commits, provided that every tag is listed once,
    that tag objects are found under their own ids, and that the digest does not collide on those that are read and
    built. Each tag is dropped with its commit, or it leads to the kept commit over tag objects like its own, and it is
    where it was just if its commit is. The new tag objects are built once. -/
theorem tags_follow_their_commits (r : Repository) (hr : r.TagsAddressed) (s : Session) (cancelled : List Event → Bool)
    (limit : Nat) (refs : List TagRef) (outcome : Outcome) (hrefs : r.tags = .ok refs)
    (hlisted : (refs.map TagRef.name).Nodup)
    (houtcome : (r.run (s.execute cancelled limit)).2.2 = .ok outcome)
    (hfree : ∀ progress tags, r.run (walks s.requests cancelled limit) = (progress, .ok tags) →
      ObjectId.CollisionFree (TagPass.Hashes progress.ledger tags)) :
    ∃ progress tags, r.run (walks s.requests cancelled limit) = (progress, .ok tags) ∧
      outcome = (progress.publish tags).outcome ∧
      (∀ name change, outcome.tags.get? name = some change → ∃ tag ∈ refs, tag.name = name) ∧
      (∀ tag ∈ refs, (∃ change, outcome.tags.get? tag.name = some change) ↔
        ∃ chain commit, r.Peels tag chain commit ∧ ∃ q ∈ s.requests, r.Covers q commit) ∧
      (∀ tag ∈ refs, ∀ chain commit change, r.Peels tag chain commit → outcome.tags.get? tag.name = some change →
        outcome.Retargets r progress.ledger ⟨tag, chain, commit⟩ change) ∧
      outcome.BuildsOnce r progress.ledger tags := by
  obtain ⟨progress, tags, hwalks, rfl⟩ := execute_ok_cases houtcome
  obtain ⟨_, -, hpeeled, hdone, -⟩ := walks_ok_cases hwalks
  have hlists := TagPass.lists_ofTags progress.ledger tags
  have hapart : r.TagsApart progress.ledger tags := hr.tagsApart (hfree progress tags hwalks)
  have honce := eq_of_listed_once hrefs hlisted hpeeled
  have hmem : ∀ p, p ∈ tags ↔ p.tag ∈ refs ∧ r.Peels p.tag p.chain p.commit := fun p =>
    mem_peeledTags_iff_of_tags hrefs hpeeled
  have hpeels : ∀ p ∈ tags, r.Peels p.tag p.chain p.commit := fun p hp => ((hmem p).1 hp).2
  obtain ⟨again, hagain⟩ := PeeledTag.exists_again hlists hapart hpeels
  refine ⟨progress, tags, hwalks, rfl, fun name change hchange => ?named, fun tag htag => ⟨?covered, ?there⟩,
    fun tag htag chain commit change hway hchange => ?retargets, buildsOnce hdone.settled.sound hpeels honce hagain⟩
  case named =>
    obtain ⟨p, hp, hname, -⟩ := TagPass.exists_tag_of_change hchange
    exact ⟨p.tag, ((hmem p).1 hp).1, hname⟩
  case covered =>
    rintro ⟨change, hchange⟩
    obtain ⟨p, hp, hname, -⟩ := TagPass.exists_tag_of_change hchange
    obtain rfl : p.tag = tag := List.inj_on_of_nodup_map hlisted ((hmem p).1 hp).1 htag hname
    exact ⟨p.chain, p.commit, hpeels p hp, (hdone.settled.exists_change_iff honce hp).1 ⟨change, hchange⟩⟩
  case there =>
    rintro ⟨chain, commit, hway, hcovered⟩
    exact (hdone.settled.exists_change_iff honce ((hmem ⟨tag, chain, commit⟩).2 ⟨htag, hway⟩)).2 hcovered
  case retargets =>
    have hp := (hmem ⟨tag, chain, commit⟩).2 ⟨htag, hway⟩
    exact PeeledTag.retargets hlists hapart rfl hp hway hagain ((TagPass.get?_changes_eq honce hp).symm.trans hchange)

/-! ### A tag object under another id -/

/-- The repository of the release, with the tag object filed under the id that it gets on the lone commit. -/
def misfiledRelease : Repository :=
  { releaseStore.repository with
    tag := fun id => if id = loneTag.id then .ok releaseTag else .error (.missingObject id)
    tags := .ok [.annotated "refs/tags/v1" loneTag.id] }

def misfiledTag : PeeledTag where
  tag := .annotated "refs/tags/v1" loneTag.id
  chain := [releaseTag]
  commit := releasedCommit.id

theorem misfiledRelease_computed :
    (misfiledRelease.head releaseRequest).toOption = some releasedCommit.id ∧
    (Walk.turns misfiledRelease (Retention.latest.selection (member [releasedCommit.id])
      (member [releasedCommit.id])) 20
      ⟨{}, {releasedCommit.id}, [⟨releasedCommit.id, releasedCommit, releasedCommit.parents⟩]⟩).map
        (fun ended => ((ended.1.entries.toList, (TagPass.ofTags ended.1 [misfiledTag]).objects), ended.2.toOption))
        = some ((releaseEntries, [loneTag]), some ()) := by
  decide +kernel

theorem misfiledRelease_peeled : misfiledRelease.run (peeledTags 1) = .ok [misfiledTag] := by
  have htag : misfiledRelease.tag loneTag.id = .ok releaseTag := by simp [misfiledRelease]
  have hpeels : ∀ p ∈ [misfiledTag], misfiledRelease.Peels p.tag p.chain p.commit ∧ p.chain.length ≤ 1 := by
    intro p hp
    obtain rfl := List.mem_singleton.1 hp
    exact ⟨.annotated (.last htag (by rfl)), Nat.le_refl 1⟩
  rw [peeledTags, Repository.run_bind, Repository.run_question]
  exact (PeeledTag.run_ofRefs_of_peels hpeels :)

theorem misfiledRelease_loads : misfiledRelease.Loads releasedCommit.id releasedCommit := by
  obtain ⟨-, htree, hcommit, -⟩ := releaseStore_computed
  have hstored : releaseStore.repository.Loads releasedCommit.id releasedCommit :=
    Store.loads (ok_of_toOption hcommit) htree
  rw [Repository.Loads, misfiledRelease]
  dsimp only
  exact hstored

theorem collisionFree_misfiled {l : Ledger} (hl : l.Indexed) (hentries : l.entries.toList = releaseEntries) :
    ObjectId.CollisionFree (TagPass.Hashes l [misfiledTag]) := by
  refine collisionFree_releaseHashed.mono ?_
  rintro kind body (⟨hp, ht⟩ | ⟨hp, ht⟩)
  · obtain rfl := List.mem_singleton.1 hp
    obtain rfl := List.mem_singleton.1 ht
    simp [releaseHashed]
  · obtain rfl := List.mem_singleton.1 hp
    obtain rfl := List.mem_singleton.1 (mem_rebuild_of_release hl hentries ht)
    simp [releaseHashed, loneTag]

/-- The tag object on the new commit has the id under which the old one was filed. -/
theorem change_of_misfiled {progress : Progress}
    (hkeep : progress.ledger.find? misfiledTag.commit = some (.keep ⟨loneCommit.id, loneCommit⟩)) :
    (progress.publish [misfiledTag]).outcome.tags.get? "refs/tags/v1"
      = some ⟨loneTag.id, some loneTag.id, some loneCommit.id⟩ := by
  have hstays : misfiledTag.position loneCommit.id = misfiledTag.tag.id := by
    exact (PeeledTag.position_eq misfiledTag loneCommit.id).trans (if_neg lone_ne_released)
  have hown := PeeledTag.change?_of_keep hkeep
  rw [hstays] at hown
  refine TagPass.get?_changes_of_tag (p := misfiledTag) (fun p hp q hq _ => ?_) List.mem_cons_self hown
  rw [List.mem_singleton.1 hp, List.mem_singleton.1 hq]

/-- The tag stays where it was, although its commit moves and the tag object on the new commit is built. No digest
    collides. -/
theorem misfiled_tag_stays :
    ∃ refs outcome progress tags change, misfiledRelease.tags = .ok refs ∧ (refs.map TagRef.name).Nodup ∧
      (misfiledRelease.run (releaseSession.execute (fun _ => false) 1)).2.2 = .ok outcome ∧
      misfiledRelease.run (walks releaseSession.requests (fun _ => false) 1) = (progress, .ok tags) ∧
      ObjectId.CollisionFree (fun kind body => (kind, body) ∈ releaseHashed) ∧
      ObjectId.CollisionFree (TagPass.Hashes progress.ledger tags) ∧
      outcome.tags.get? "refs/tags/v1" = some change ∧ change.after = some change.before ∧
      change.commit = some loneCommit.id ∧ loneCommit.id ≠ releasedCommit.id ∧ outcome.tagObjects = [loneTag] ∧
      ¬outcome.Retargets misfiledRelease progress.ledger misfiledTag change := by
  obtain ⟨hhead, hturns⟩ := misfiledRelease_computed
  obtain ⟨progress, hrun, hsettled, hfound⟩ :=
    walks_of_turns (fun l => (l.entries.toList, (TagPass.ofTags l [misfiledTag]).objects)) (ok_of_toOption hhead)
      misfiledRelease_peeled misfiledRelease_loads hturns
  obtain ⟨hentries, hobjects⟩ := Prod.mk.inj hfound
  have hindexed := hsettled.sound.indexed
  have hkeep : progress.ledger.find? misfiledTag.commit = some (.keep ⟨loneCommit.id, loneCommit⟩) := by
    rw [Ledger.find?_eq_some_iff hindexed, hentries]
    exact List.mem_cons_of_mem _ List.mem_cons_self
  refine ⟨_, _, progress, _, _, rfl, by decide, execute_of_walks (s := releaseSession) rfl hrun, hrun,
    collisionFree_releaseHashed, collisionFree_misfiled hindexed hentries, change_of_misfiled hkeep, rfl, rfl,
    lone_ne_released, hobjects, ?_⟩
  rintro ⟨-, ⟨_, -, hafter, -⟩ | ⟨new, after, _, hnew, hafter, -, hmoved, -⟩⟩
  · cases hafter
  · -- The new id would have to be the old one, as the tag is where it was.
    obtain rfl := Option.some.inj hafter
    rw [hkeep] at hnew
    cases hnew
    exact lone_ne_released (hmoved.1 rfl)

/-! ### A tag object on another one -/

/-- A tag object on that of the release. -/
def signedTag : Tag := { object := releaseTag.id, kind := .tag, name := "signed", message := "" }

/-- The store with both tag objects under names of their own. -/
def signedStore : Store := (releaseStore.insertTag signedTag).setRef "refs/tags/v1-signed" signedTag.id

def loneSignedTag : Tag := signedTag.retarget loneTag.id

def peeledSignedTag : PeeledTag where
  tag := .annotated "refs/tags/v1-signed" signedTag.id
  chain := [signedTag, releaseTag]
  commit := releasedCommit.id

def signedTags : List Tag := [releaseTag, signedTag, loneTag, loneSignedTag]

theorem signedStore_computed :
    (signedTags.map Tag.id).Nodup ∧ signedStore.hasTree releasedCommit.tree = true ∧
    (signedStore.repository.commit releasedCommit.id).toOption = some releasedCommit ∧
    (signedStore.repository.tag releaseTag.id).toOption = some releaseTag ∧
    (signedStore.repository.tag signedTag.id).toOption = some signedTag ∧
    signedStore.repository.tags.toOption = some ([peeledReleaseTag, peeledSignedTag].map (·.tag)) ∧
    (signedStore.repository.head releaseRequest).toOption = some releasedCommit.id ∧
    (Walk.turns signedStore.repository (Retention.latest.selection (member [releasedCommit.id])
      (member [releasedCommit.id, releasedCommit.id])) 20
      ⟨{}, {releasedCommit.id}, [⟨releasedCommit.id, releasedCommit, releasedCommit.parents⟩]⟩).map
        (fun ended => ((ended.1.entries.toList, (TagPass.ofTags ended.1 [peeledReleaseTag, peeledSignedTag]).objects),
          ended.2.toOption)) = some ((releaseEntries, [loneTag, loneSignedTag]), some ()) := by
  decide +kernel

theorem built_signedStore : signedStore.Built := (built_releaseStore.insertTag _).setRef _ _

/-- Four tag objects are met in all, and their ids differ. -/
theorem collisionFree_signed {l : Ledger} (hl : l.Indexed) (hentries : l.entries.toList = releaseEntries) :
    ObjectId.CollisionFree (TagPass.Hashes l [peeledReleaseTag, peeledSignedTag]) := by
  have hfree : ObjectId.CollisionFree fun kind body => kind = .tag ∧ body ∈ signedTags.map Tag.body := by
    rintro kind body other body' ⟨rfl, hbody⟩ ⟨rfl, hbody'⟩ hdigest
    obtain ⟨t, ht, rfl⟩ := List.mem_map.1 hbody
    obtain ⟨t', ht', rfl⟩ := List.mem_map.1 hbody'
    have hid : t.id = t'.id := congrArg ObjectId.mk hdigest
    rw [List.inj_on_of_nodup_map signedStore_computed.1 ht ht' hid]
  have hread : ∀ p ∈ [peeledReleaseTag, peeledSignedTag], p.chain ⊆ signedTags := by
    intro p hp
    rcases List.mem_pair.1 hp with rfl | rfl <;> simp [peeledReleaseTag, peeledSignedTag, signedTags]
  have hbuilt : ∀ p ∈ [peeledReleaseTag, peeledSignedTag], p.rebuild loneCommit.id ⊆ signedTags := by
    intro p hp
    have hlone : [loneTag, loneSignedTag] ⊆ signedTags :=
      fun t ht => List.mem_cons_of_mem _ (List.mem_cons_of_mem _ ht)
    rcases List.mem_pair.1 hp with rfl | rfl
    · exact List.Subset.trans (List.cons_subset_cons _ (List.nil_subset _)) hlone
    · exact hlone
  refine hfree.mono ?_
  rintro kind body (⟨hp, ht⟩ | ⟨hp, ht⟩)
  · exact ⟨rfl, List.mem_map_of_mem (hread _ hp ht)⟩
  · exact ⟨rfl, List.mem_map_of_mem (hbuilt _ hp (mem_rebuild_of_release hl hentries ht))⟩

theorem signedStore_peeled : signedStore.repository.run (peeledTags 2) = .ok [peeledReleaseTag, peeledSignedTag] := by
  obtain ⟨-, -, -, hrelease, hsigned, htags, -⟩ := signedStore_computed
  have hinner : signedStore.repository.LeadsTo releaseTag.id [releaseTag] releaseTag.object :=
    .last (ok_of_toOption hrelease) (by rfl)
  have houter : signedStore.repository.LeadsTo signedTag.id [signedTag, releaseTag] releaseTag.object :=
    .next (ok_of_toOption hsigned) (by rfl) hinner
  rw [peeledTags, Repository.run_bind, Repository.run_question, Repository.answer, ok_of_toOption htags]
  refine PeeledTag.run_ofRefs_of_peels fun p hp => ?_
  rcases List.mem_pair.1 hp with rfl | rfl
  · exact ⟨.annotated hinner, Nat.le_succ 1⟩
  · exact ⟨.annotated houter, Nat.le_refl 2⟩

/-- The branch loses its root, and both tag objects are built again, the shared one once. -/
theorem tags_of_signedStore :
    ∃ refs outcome, signedStore.repository.TagsAddressed ∧ signedStore.repository.tags = .ok refs ∧
      (refs.map TagRef.name).Nodup ∧
      (signedStore.repository.run (releaseSession.execute (fun _ => false) 2)).2.2 = .ok outcome ∧
      (∀ progress tags,
        signedStore.repository.run (walks releaseSession.requests (fun _ => false) 2) = (progress, .ok tags) →
          ObjectId.CollisionFree (TagPass.Hashes progress.ledger tags)) ∧
      outcome.tagObjects = [loneTag, loneSignedTag] ∧
      ∃ progress tags change,
        signedStore.repository.run (walks releaseSession.requests (fun _ => false) 2) = (progress, .ok tags) ∧
        outcome.tags.get? "refs/tags/v1-signed" = some change ∧
        outcome.Retargets signedStore.repository progress.ledger peeledSignedTag change ∧
        outcome.BuildsOnce signedStore.repository progress.ledger tags := by
  obtain ⟨-, htree, hcommit, -, -, htags, hhead, hturns⟩ := signedStore_computed
  have htags := ok_of_toOption htags
  have hhead := ok_of_toOption hhead
  obtain ⟨progress, hrun, hsettled, hfound⟩ := walks_of_turns
    (fun l => (l.entries.toList, (TagPass.ofTags l [peeledReleaseTag, peeledSignedTag]).objects)) hhead
      signedStore_peeled (Store.loads (ok_of_toOption hcommit) htree) hturns
  obtain ⟨hentries, hobjects⟩ := Prod.mk.inj hfound
  have houtcome := execute_of_walks (s := releaseSession) rfl hrun
  have hnames : (([peeledReleaseTag, peeledSignedTag].map (·.tag)).map TagRef.name).Nodup := by decide
  have haddressed : signedStore.repository.TagsAddressed := fun _ _ htag => built_signedStore.id_of_tag htag
  have hfree : ∀ progress tags,
      signedStore.repository.run (walks releaseSession.requests (fun _ => false) 2) = (progress, .ok tags) →
        ObjectId.CollisionFree (TagPass.Hashes progress.ledger tags) := by
    intro progress' tags hwalks
    obtain ⟨rfl, htags⟩ := Prod.mk.inj (hrun.symm.trans hwalks)
    obtain rfl := Except.ok.inj htags
    exact collisionFree_signed hsettled.sound.indexed hentries
  obtain ⟨progress', tags, hwalks, -, -, hthere, hretargets, hbuilds⟩ :=
    tags_follow_their_commits signedStore.repository haddressed releaseSession _ 2 _ _ htags hnames houtcome hfree
  have hpeeled : peeledSignedTag ∈ [peeledReleaseTag, peeledSignedTag] := List.mem_cons_of_mem _ List.mem_cons_self
  have hpeels := ((mem_peeledTags_iff signedStore_peeled peeledSignedTag).1 hpeeled).2
  have hlisted := List.mem_map_of_mem (f := fun p : PeeledTag => p.tag) hpeeled
  obtain ⟨change, hchange⟩ := (hthere _ hlisted).2
    ⟨_, _, hpeels, releaseRequest, List.mem_cons_self, releasedCommit.id, hhead, .refl⟩
  exact ⟨_, _, haddressed, htags, hnames, houtcome, hfree, hobjects, progress', tags, change, hwalks, hchange,
    hretargets _ hlisted _ _ change hpeels hchange, hbuilds⟩

end Publication

end PrunedHistory
