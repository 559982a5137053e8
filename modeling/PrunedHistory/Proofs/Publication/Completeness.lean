import PrunedHistory.Proofs.Object.CommitGrammar
import PrunedHistory.Proofs.Object.TagGrammar
import PrunedHistory.Proofs.Publication.Writing

/-! Whole histories behind what is published

    The recorded commits and the new ones are closed under parents, and every new tag object is on a new commit or on
    another new tag object. So where a repository keeps what it had and takes in what is new, nothing is missing behind
    a ref of the outcome. Main statement: every head has its whole history there, and every retained tag leads to a
    commit that has. -/

namespace PrunedHistory

namespace Repository

/-- The commit and all its ancestors can be loaded. -/
def HasHistory (r : Repository) (id : ObjectId) : Prop := ∀ x, r.Reaches id x → ∃ commit, r.Loads x commit

/-- The id is that of a commit, or tag objects lead from it to one, and the commit has its whole history there. -/
def LeadsToHistory (r : Repository) (id : ObjectId) : Prop :=
  r.HasHistory id ∨ ∃ chain commit, r.LeadsTo id chain commit ∧ r.HasHistory commit

/-- The second repository has all that is in the first one, and all that is new. -/
structure Takes (r r' : Repository) (o : Outcome) : Prop where
  commit : ∀ id c, r.commit id = .ok c → r'.commit id = .ok c
  tag : ∀ id t, r.tag id = .ok t → r'.tag id = .ok t
  tree : ∀ id, r.hasTree id = .ok true → r'.hasTree id = .ok true
  newCommit : ∀ new ∈ o.commits, r'.commit new.id = .ok new.commit
  newTag : ∀ t ∈ o.tagObjects, r'.tag t.id = .ok t

/-- Every commit and every tag object that can be read is well-formed. -/
structure ReadsWellFormed (r : Repository) : Prop where
  commit : ∀ id c, r.commit id = .ok c → c.WellFormed
  tag : ∀ id t, r.tag id = .ok t → t.WellFormed

variable {r r' : Repository} {o : Outcome} {id commit : ObjectId} {chain : List Tag}

theorem Takes.loads {c : Commit} (h : r.Takes r' o) (hload : r.Loads id c) : r'.Loads id c :=
  ⟨h.commit id c hload.1, h.tree c.tree hload.2⟩

theorem Takes.leadsTo (h : r.Takes r' o) (hleads : r.LeadsTo id chain commit) : r'.LeadsTo id chain commit := by
  induction hleads with
  | last htag hkind => exact .last (h.tag _ _ htag) hkind
  | next htag hkind _ ih => exact .next (h.tag _ _ htag) hkind ih

theorem LeadsTo.ne_nil (h : r.LeadsTo id chain commit) : chain ≠ [] := by
  cases h <;> simp

/-- All tag objects on a way can be read. -/
theorem LeadsTo.exists_id {t : Tag} (h : r.LeadsTo id chain commit) (ht : t ∈ chain) : ∃ x, r.tag x = .ok t := by
  induction h with
  | @last id tag htag _ =>
    obtain rfl := List.mem_singleton.1 ht
    exact ⟨id, htag⟩
  | @next id commit tag chain htag _ _ ih =>
    rcases List.mem_cons.1 ht with rfl | ht
    · exact ⟨id, htag⟩
    · exact ih ht

theorem Peels.exists_id {tag : TagRef} {t : Tag} (h : r.Peels tag chain commit) (ht : t ∈ chain) :
    ∃ x, r.tag x = .ok t := by
  cases h with
  | lightweight => cases ht
  | annotated hleads => exact hleads.exists_id ht

/-- Tag objects that are grounded on commits lead to these. -/
theorem exists_leadsTo_of_grounded {commits : List ObjectId} : ∀ {tags : List Tag}, Grounded commits tags →
    (∀ t ∈ tags, r.tag t.id = .ok t) →
      ∀ id ∈ tags.map Tag.id, ∃ chain, ∃ commit ∈ commits, r.LeadsTo id chain commit := by
  intro tags
  induction tags using List.reverseRecOn with
  | nil =>
    intro _ _ id hid
    cases hid
  | append_singleton tags t ih =>
    intro hgrounded hread id hid
    obtain ⟨hfront, hfounded⟩ := hgrounded.of_concat
    have ih := ih hfront fun u hu => hread u (List.mem_append_left _ hu)
    rw [List.map_append, List.map_singleton, List.mem_append, List.mem_singleton] at hid
    rcases hid with hid | rfl
    · exact ih id hid
    · have ht := hread t (List.mem_append_right _ List.mem_cons_self)
      -- The last tag object is on a commit, or on one in front of it that leads to a commit already.
      rcases hfounded with ⟨hkind, hcommit⟩ | ⟨hkind, hinner⟩
      · exact ⟨[t], t.object, hcommit, .last ht hkind⟩
      · obtain ⟨chain, commit, hcommit, hleads⟩ := ih t.object hinner
        exact ⟨t :: chain, commit, hcommit, .next ht hkind hleads⟩

end Repository

/-- What is built again for a tag are tag objects of its chain, put on other targets. -/
theorem PeeledTag.exists_of_mem_rebuilt {l : Ledger} {p : PeeledTag} {t : Tag} (h : t ∈ p.rebuilt l) :
    ∃ u inner, u :: inner <:+ p.chain ∧ ∃ target, t = u.retarget target := by
  rw [rebuilt] at h
  split at h
  · split at h
    · cases h
    · obtain ⟨u, inner, hsuffix, rfl⟩ := mem_retargetInwards_iff.1 h
      exact ⟨u, inner, hsuffix, _, rfl⟩
  · cases h

namespace Publication

variable {r r' : Repository} {progress : Progress} {tags : List PeeledTag} {x : ObjectId} {new : Replacement}

/-- The id is that of a recorded commit or of a new one. -/
def Known (progress : Progress) (tags : List PeeledTag) (x : ObjectId) : Prop :=
  x ∈ progress.ledger.commits ∨ x ∈ (progress.publish tags).outcome.commits.map (·.id)

theorem known_of_newId (h : progress.ledger.Sound r) {k : ObjectId} (hk : progress.ledger.NewId k x) :
    Known progress tags x := by
  obtain ⟨new, hkeep, rfl⟩ := hk
  by_cases hmoved : new.id = k
  · exact .inl (hmoved ▸ h.mem_of_find? hkeep)
  · exact .inr (List.mem_map_of_mem (listed_of_moved h hkeep hmoved))

/-- Where a chain that is built again ends, there is a tag object that is built for it. -/
theorem rebuiltId_mem {p : PeeledTag} (hp : p ∈ tags) (hkeep : progress.ledger.find? p.commit = some (.keep new))
    (hmoved : new.id ≠ p.commit) (hchain : p.chain ≠ []) :
    PeeledTag.rebuiltId new.id p.chain ∈ (tags.flatMap (·.rebuilt progress.ledger)).map Tag.id := by
  obtain ⟨t, inner, hcons⟩ := List.exists_cons_of_ne_nil hchain
  have ht : t.retarget (PeeledTag.rebuiltId new.id inner) ∈ p.rebuilt progress.ledger := by
    rw [PeeledTag.rebuilt_of_keep hkeep hmoved]
    exact PeeledTag.mem_retargetInwards_iff.2 ⟨t, inner, hcons ▸ List.suffix_rfl, rfl⟩
  rw [hcons]
  exact List.mem_map_of_mem (List.mem_flatMap.2 ⟨p, hp, ht⟩)

theorem exists_keep_of_listed (h : progress.ledger.Sound r) (hnew : new ∈ (progress.publish tags).outcome.commits) :
    ∃ k, progress.ledger.find? k = some (.keep new) := by
  obtain ⟨e, he, hself, -⟩ := exists_entry_of_new hnew
  exact ⟨e.commit, (Ledger.find?_eq_some_iff h.indexed).2 (hself ▸ he)⟩

variable (h : progress.ledger.Sound r) (htakes : r.Takes r' (progress.publish tags).outcome)

include h htakes

theorem loads_of_listed (hnew : new ∈ (progress.publish tags).outcome.commits) : r'.Loads new.id new.commit := by
  obtain ⟨k, hkeep⟩ := exists_keep_of_listed h hnew
  obtain ⟨commit, hload⟩ := h.loads k (h.mem_of_find? hkeep)
  have htree : new.commit.tree = commit.tree := by
    rw [h.keep_eq hkeep hload]
    rfl
  exact ⟨htakes.newCommit new hnew, htakes.tree _ (htree ▸ hload.2)⟩

theorem exists_loads_of_known (hx : Known progress tags x) : ∃ commit, r'.Loads x commit := by
  rcases hx with hx | hx
  · obtain ⟨commit, hload⟩ := h.loads x hx
    exact ⟨commit, htakes.loads hload⟩
  · obtain ⟨new, hnew, rfl⟩ := List.mem_map.1 hx
    exact ⟨new.commit, loads_of_listed h htakes hnew⟩

/-- Parents of recorded commits are recorded, and those of new commits are the new ids of kept ones. -/
theorem known_parent {p : ObjectId} (hx : Known progress tags x) (hp : r'.Parent x p) : Known progress tags p := by
  rcases hx with hx | hx
  · obtain ⟨commit, hload⟩ := h.loads x hx
    exact .inl (h.parent_mem hx ((hload.parent_iff p).2 (((htakes.loads hload).parent_iff p).1 hp)))
  · obtain ⟨new, hnew, rfl⟩ := List.mem_map.1 hx
    obtain ⟨k, hkeep⟩ := exists_keep_of_listed h hnew
    obtain ⟨a, ha, -⟩ := (h.mem_newParents_iff hkeep).1 (((loads_of_listed h htakes hnew).parent_iff p).1 hp)
    exact known_of_newId h ha

theorem hasHistory_of_known (hx : Known progress tags x) : r'.HasHistory x := by
  intro y hreach
  refine exists_loads_of_known h htakes ?_
  induction hreach with
  | refl => exact hx
  | tail _ hparent ih => exact known_parent h htakes ih hparent

/-- Where a retained tag is afterwards, it leads to a commit with its whole history. -/
theorem leadsToHistory_of_tag (hpeels : ∀ p ∈ tags, r.Peels p.tag p.chain p.commit) {p : PeeledTag} (hp : p ∈ tags)
    (hkeep : progress.ledger.find? p.commit = some (.keep new)) : r'.LeadsToHistory (p.position new.id) := by
  have hway := hpeels p hp
  obtain ⟨tag, chain, target⟩ := p
  change r.Peels tag chain target at hway
  cases hway with
  | lightweight =>
    rw [PeeledTag.position_lightweight]
    exact .inl (hasHistory_of_known h htakes (known_of_newId h ⟨new, hkeep, rfl⟩))
  | annotated hleads =>
    rw [PeeledTag.position_eq]
    split
    · -- The commit keeps its id, so the tag stays where it is.
      exact .inr ⟨chain, target, htakes.leadsTo hleads, hasHistory_of_known h htakes (.inl (h.mem_of_find? hkeep))⟩
    · rename_i hmoved
      have hlists := TagPass.lists_ofTags progress.ledger tags
      -- The outermost new tag object is listed, and the new tag objects lead to commits that are published.
      have hlisted : PeeledTag.rebuiltId new.id chain ∈ (progress.publish tags).outcome.tagObjects.map Tag.id :=
        hlists.ids (rebuiltId_mem hp hkeep hmoved hleads.ne_nil)
      obtain ⟨chain', commit, hcommit, hleads'⟩ := Repository.exists_leadsTo_of_grounded
        (hlists.grounded _ (grounded_rebuilt h hpeels)) htakes.newTag _ hlisted
      exact .inr ⟨chain', commit, hleads', hasHistory_of_known h htakes (.inr hcommit)⟩

omit h htakes

/-- New commits are told by their own ids, and what is new is as well-formed as what was read. -/
theorem wellFormed_of_listed (h : progress.ledger.Sound r) (hpeels : ∀ p ∈ tags, r.Peels p.tag p.chain p.commit)
    (hread : r.ReadsWellFormed) :
    (∀ new ∈ (progress.publish tags).outcome.commits, new.commit.id = new.id ∧ new.commit.WellFormed) ∧
      ∀ t ∈ (progress.publish tags).outcome.tagObjects, t.WellFormed := by
  refine ⟨fun new hnew => ?commits, fun t ht => ?tags⟩
  case commits =>
    obtain ⟨k, hkeep⟩ := exists_keep_of_listed h hnew
    obtain ⟨commit, hload⟩ := h.loads k (h.mem_of_find? hkeep)
    obtain ⟨hauthor, hcommitter, hkeys⟩ := hread.commit k commit hload.1
    refine ⟨h.id_of_keep hkeep, ?_⟩
    -- Only the parents are new, and how a commit is spelled does not depend on them.
    rw [h.keep_eq hkeep hload]
    exact ⟨hauthor, hcommitter, hkeys⟩
  case tags =>
    obtain ⟨p, hp, hbuilt⟩ := List.mem_flatMap.1 ((TagPass.lists_ofTags progress.ledger tags).seen_of_mem t ht)
    obtain ⟨u, inner, hsuffix, target, rfl⟩ := PeeledTag.exists_of_mem_rebuilt hbuilt
    obtain ⟨x, hu⟩ := (hpeels p hp).exists_id (hsuffix.subset List.mem_cons_self)
    -- A new tag object is an old one but for its target.
    obtain ⟨htagger, hkeys, huntaken⟩ := hread.tag x u hu
    exact ⟨htagger, hkeys, huntaken⟩

/-! ### The outcome as a whole -/

variable {s : Session} {cancelled : List Event → Bool} {limit : Nat} {outcome : Outcome}

theorem exists_done (houtcome : (r.run (s.execute cancelled limit)).2.2 = .ok outcome) :
    ∃ progress tags heads, outcome = (progress.publish tags).outcome ∧ (∀ p ∈ tags, r.Peels p.tag p.chain p.commit) ∧
      Done r (member heads) (member (tags.map (·.commit))) s.requests progress := by
  obtain ⟨progress, tags, hwalks, rfl⟩ := execute_ok_cases houtcome
  obtain ⟨heads, -, hpeeled, hdone⟩ := exists_done_of_walks hwalks
  exact ⟨progress, tags, heads, rfl, fun p hp => ((mem_peeledTags_iff hpeeled p).1 hp).2, hdone⟩

theorem new_objects_wellFormed (houtcome : (r.run (s.execute cancelled limit)).2.2 = .ok outcome)
    (hread : r.ReadsWellFormed) :
    (∀ new ∈ outcome.commits, new.commit.id = new.id ∧ new.commit.WellFormed) ∧
      ∀ t ∈ outcome.tagObjects, t.WellFormed := by
  obtain ⟨progress, tags, heads, rfl, hpeels, hdone⟩ := exists_done houtcome
  exact wellFormed_of_listed hdone.settled.sound hpeels hread

/-- Where all that is new is taken in, every head has its whole history, and every retained tag leads to a commit that
    has. -/
theorem refs_lead_to_histories (houtcome : (r.run (s.execute cancelled limit)).2.2 = .ok outcome)
    (htakes : r.Takes r' outcome) :
    (∀ name change, outcome.heads.get? name = some change → r'.HasHistory change.after) ∧
      ∀ name change id, outcome.tags.get? name = some change → change.after = some id → r'.LeadsToHistory id := by
  obtain ⟨progress, tags, heads, rfl, hpeels, hdone⟩ := exists_done houtcome
  have hsound := hdone.settled.sound
  refine ⟨fun name change hchange =>
    hasHistory_of_known hsound htakes (known_of_newId hsound (hdone.moved name change hchange)),
    fun name change id hchange hafter => ?_⟩
  obtain ⟨p, hp, -, hp'⟩ := TagPass.exists_tag_of_change hchange
  obtain ⟨new, hkeep, rfl⟩ := PeeledTag.exists_keep_of_change? hp' hafter
  obtain rfl := Option.some.inj hafter
  exact leadsToHistory_of_tag hsound htakes hpeels hp hkeep

end Publication

end PrunedHistory
