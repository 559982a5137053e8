import PrunedHistory.Proofs.Publication.Contraction
import PrunedHistory.Proofs.Publication.Heads
import PrunedHistory.Proofs.Publication.ListedTags
import PrunedHistory.Proofs.Publication.Retargeting
import PrunedHistory.Proofs.Publication.Writing

/-! The store that a publication leaves

    What is new is stored beside what was there, and the refs are just the heads and the retained tags, where they are
    afterwards. Storing may put an object in the place of another under the same id; where the digest does not collide,
    that changes nothing that is looked at. Main statements: every published commit can be loaded from the store, and
    every retained tag leads there to its published commit. -/

namespace PrunedHistory

/-- The refs of an outcome: the retained tags and the heads. -/
def Outcome.refs (o : Outcome) : List (String × ObjectId) :=
  (o.tags.entries.filterMap fun (name, change) => change.after.map (name, ·)) ++
    o.heads.entries.map fun (name, change) => (name, change.after)

namespace Store

/-- The store with all that is new, and with the refs of the outcome only. -/
def publish (s : Store) (o : Outcome) : Store where
  objects := ((s.insertCommits (o.commits.map (·.commit))).insertTags o.tagObjects).objects
  refs := (∅ : NameMap ObjectId).insertAll o.refs

/-- What is hashed in a publication from the store: what the store holds, the commits that replace kept ones, and the
    tag objects that are built again. -/
inductive Involved (s : Store) (bodies : ObjectId → ByteArray) (l : Ledger) (tags : List PeeledTag) :
    ObjectKind → ByteArray → Prop where
  | stored {kind : ObjectKind} {body : ByteArray} : s.Holds bodies kind body → Involved s bodies l tags kind body
  | replacement {c : Commit} : l.Replaces c → Involved s bodies l tags .commit c.body
  | rebuilt {p : PeeledTag} {t : Tag} : p ∈ tags → t ∈ p.rebuilt l → Involved s bodies l tags .tag t.body

open Publication in
/-- The requests name their heads and are published from the store, with no collision among what is hashed. -/
structure Publishes (s : Store) (bodies : ObjectId → ByteArray) (limit : Nat) (requests : List Request)
    (heads : List ObjectId) (progress : Progress) (tags : List PeeledTag) : Prop where
  built : s.Built
  trees : s.TreesAre bodies
  named : ∀ q ∈ requests, q.start = none
  resolved : requests.map s.repository.head = heads.map .ok
  peeled : s.repository.run (peeledTags limit) = .ok tags
  done : Done s.repository (member heads) (member (tags.map (·.commit))) requests progress
  entries : progress.heads = (∅ : NameMap HeadChange).insertAll ((requests.zip heads).map (headEntry progress.ledger))
  free : ObjectId.CollisionFree (s.Involved bodies progress.ledger tags)

variable {o : Outcome} {name : String} {id : ObjectId}

theorem mem_refs_iff : (name, id) ∈ o.refs ↔ (∃ change, o.heads.get? name = some change ∧ change.after = id) ∨
    ∃ change, o.tags.get? name = some change ∧ change.after = some id := by
  rw [Outcome.refs, List.mem_append, or_comm]
  refine or_congr ?_ ?_
  · simp only [List.mem_map, Prod.exists, Prod.mk.injEq, NameMap.mem_entries_iff]
    constructor
    · rintro ⟨_, change, hget, rfl, rfl⟩
      exact ⟨change, hget, rfl⟩
    · rintro ⟨change, hget, rfl⟩
      exact ⟨name, change, hget, rfl, rfl⟩
  · simp only [List.mem_filterMap, Prod.exists, Option.map_eq_some_iff, Prod.mk.injEq, NameMap.mem_entries_iff]
    constructor
    · rintro ⟨_, change, hget, _, hafter, rfl, rfl⟩
      exact ⟨change, hget, hafter⟩
    · rintro ⟨change, hget, hafter⟩
      exact ⟨name, change, hget, id, hafter, rfl, rfl⟩

/-- Where heads and tags of one name agree, the refs are the heads and the retained tags. -/
theorem get?_refs_publish_iff {s : Store} (hagree : ∀ name head tag id, o.heads.get? name = some head →
    o.tags.get? name = some tag → tag.after = some id → id = head.after) :
    (s.publish o).refs.get? name = some id ↔ (∃ change, o.heads.get? name = some change ∧ change.after = id) ∨
      ∃ change, o.tags.get? name = some change ∧ change.after = some id := by
  rw [← mem_refs_iff]
  refine ⟨NameMap.mem_of_get?_insertAll, fun hmem => NameMap.get?_insertAll (.inl hmem) fun other hother => ?_⟩
  rw [mem_refs_iff] at hmem hother
  -- A ref is written twice only by a head and a tag of one name, and these agree.
  rcases hmem with ⟨head, hhead, rfl⟩ | ⟨tag, htag, hafter⟩ <;>
    rcases hother with ⟨head', hhead', rfl⟩ | ⟨tag', htag', hafter'⟩
  · rw [hhead] at hhead'
    cases hhead'
    rfl
  · exact hagree _ _ _ _ hhead htag' hafter'
  · exact (hagree _ _ _ _ hhead' htag hafter).symm
  · rw [htag] at htag'
    cases htag'
    exact Option.some.inj (hafter'.symm.trans hafter)

namespace Publishes

open Publication

variable {s : Store} {bodies : ObjectId → ByteArray} {limit : Nat} {requests : List Request} {heads : List ObjectId}
  {progress : Progress} {tags : List PeeledTag} {k : ObjectId} {new : Replacement} {p : PeeledTag} {t : Tag}

/-- What was stored is still there. -/
theorem contains_of_stored (hold : s.objects.contains id = true) : (s.publish o).objects.contains id = true :=
  contains_insertTags (.inl (contains_insertCommits (.inl hold)))

theorem contains_of_isSome {stored : Stored} (h : s.objects[id]? = some stored) : s.objects.contains id = true := by
  rw [Std.TreeMap.contains_iff_mem, Std.TreeMap.mem_iff_isSome_getElem?, h]
  rfl

variable (h : s.Publishes bodies limit requests heads progress tags)

include h

theorem sound : progress.ledger.Sound s.repository :=
  h.done.settled.sound

/-- The store that is left files all objects by what was hashed. -/
theorem files : (s.publish (progress.publish tags).outcome).Files (s.Involved bodies progress.ledger tags) := by
  have hold : s.Files (s.Involved bodies progress.ledger tags) :=
    (h.built.files_holds h.trees).mono fun _ _ => .stored
  refine files_insertTags (files_insertCommits hold fun c hc => ?_) fun t ht => ?_
  · obtain ⟨new, hnew, rfl⟩ := List.mem_map.1 hc
    obtain ⟨e, he, hself, -⟩ := exists_entry_of_new hnew
    exact .replacement ⟨e.commit, new, (Ledger.find?_eq_some_iff h.sound.indexed).2 (hself ▸ he), rfl⟩
  · obtain ⟨p, hp, hrebuilt⟩ := List.mem_flatMap.1 ((TagPass.lists_ofTags progress.ledger tags).seen_of_mem t ht)
    exact .rebuilt hp hrebuilt

/-- Under each new id there is a commit like the one that is published. -/
theorem exists_commit (hkeep : progress.ledger.find? k = some (.keep new)) :
    ∃ c, (s.publish (progress.publish tags).outcome).commit new.id = .ok c ∧ c.body = new.commit.body := by
  have hpresent : (s.publish (progress.publish tags).outcome).objects.contains new.commit.id = true := by
    rw [h.sound.id_of_keep hkeep]
    by_cases hmoved : new.id = k
    · obtain ⟨c, hload⟩ := h.sound.loads k (h.sound.mem_of_find? hkeep)
      exact contains_of_stored (contains_of_isSome (hmoved ▸ commit_eq_ok_iff.1 hload.1))
    · have hlisted : new ∈ (progress.publish tags).outcome.commits := listed_of_moved h.sound hkeep hmoved
      rw [← h.sound.id_of_keep hkeep]
      exact contains_insertTags (.inl (contains_insertCommits (.inr (List.mem_map_of_mem (List.mem_map_of_mem hlisted)))))
  have hc := h.files.exists_commit h.free hpresent (.replacement ⟨k, new, hkeep, rfl⟩)
  rwa [h.sound.id_of_keep hkeep] at hc

/-- Every published commit can be loaded, and has its new parents. -/
theorem loads (hkeep : progress.ledger.find? k = some (.keep new)) :
    ∃ c, (s.publish (progress.publish tags).outcome).repository.Loads new.id c ∧ c.parents = new.commit.parents := by
  obtain ⟨c, hc, hbody⟩ := h.exists_commit hkeep
  obtain ⟨original, hload⟩ := h.sound.loads k (h.sound.mem_of_find? hkeep)
  have htree : c.tree = original.tree := by
    rw [Commit.tree_of_body hbody, h.sound.keep_eq hkeep hload]
    rfl
  have hold : s.hasTree original.tree = true := Except.ok.inj hload.2
  have hid := h.trees original.tree hold
  have hpresent := contains_of_stored (o := (progress.publish tags).outcome) (contains_of_isSome (hasTree_iff.1 hold))
  rw [← hid] at hpresent
  have hnew := h.files.hasTree_of_hashed h.free hpresent (.stored (.tree hold))
  rw [hid, ← htree] at hnew
  exact ⟨c, Store.loads hc hnew, Commit.parents_of_body hbody⟩

/-! ### Tags -/

/-- A tag object that is there under its id when all is stored is on the same object as the one that was hashed. -/
theorem hasTag (hpresent : (s.publish (progress.publish tags).outcome).objects.contains t.id = true)
    (hhashed : s.Involved bodies progress.ledger tags .tag t.body) :
    (s.publish (progress.publish tags).outcome).repository.HasTag t.id t := by
  obtain ⟨found, hfound, hbody⟩ := h.files.exists_tag h.free hpresent hhashed
  exact ⟨found, hfound, Tag.target_of_body hbody⟩

theorem hasTag_of_stored (ht : s.tag id = .ok t) :
    (s.publish (progress.publish tags).outcome).repository.HasTag id t := by
  have hid := h.built.files.id_of_tag ht
  have hpresent := contains_of_stored (o := (progress.publish tags).outcome) (contains_of_isSome (tag_eq_ok_iff.1 ht))
  rw [← hid] at hpresent ⊢
  exact h.hasTag hpresent (.stored (.tag ht))

theorem hasTag_of_rebuilt (hp : p ∈ tags) (ht : t ∈ p.rebuilt progress.ledger) :
    (s.publish (progress.publish tags).outcome).repository.HasTag t.id t := by
  refine h.hasTag (contains_insertTags (.inr ?_)) (.rebuilt hp ht)
  exact (TagPass.lists_ofTags progress.ledger tags).ids (List.mem_map_of_mem (List.mem_flatMap.2 ⟨p, hp, ht⟩))

/-- Where a retained tag with tag objects is afterwards, there is a way to its published commit, as long as before. -/
theorem exists_leadsTo (hp : p ∈ tags) (hkeep : progress.ledger.find? p.commit = some (.keep new))
    (hleads : s.repository.LeadsTo p.tag.id p.chain p.commit) :
    ∃ chain, (s.publish (progress.publish tags).outcome).repository.LeadsTo (p.position new.id) chain new.id ∧
      chain.length = p.chain.length := by
  rw [PeeledTag.position_eq]
  split
  · rename_i hmoved
    rw [hmoved]
    exact hleads.exists_leadsTo fun id t ht => h.hasTag_of_stored ht
  · rename_i hmoved
    refine PeeledTag.exists_leadsTo_rebuild hleads fun t ht => h.hasTag_of_rebuilt hp ?_
    rwa [PeeledTag.rebuilt_of_keep hkeep hmoved]

/-- Where a retained tag is afterwards, its name lists a tag that leads to its published commit. -/
theorem exists_tagRef (hp : p ∈ tags) (hkeep : progress.ledger.find? p.commit = some (.keep new)) :
    ∃ tag chain, (s.publish (progress.publish tags).outcome).tagRef? p.tag.name (p.position new.id) = .ok (some tag) ∧
      (s.publish (progress.publish tags).outcome).repository.Peels tag chain new.id ∧ chain.length ≤ limit := by
  have hlimit := length_le_of_peeledTags h.peeled p hp
  have hpeels := ((mem_peeledTags_iff_lists h.peeled).1 hp).2
  obtain ⟨tag, chain, target⟩ := p
  change s.repository.Peels tag chain target at hpeels
  cases hpeels with
  | @lightweight name target =>
    obtain ⟨c, hc, -⟩ := h.exists_commit hkeep
    refine ⟨.lightweight name new.id, [], ?_, .lightweight, hlimit⟩
    rw [PeeledTag.position_lightweight, tagRef?, commit_eq_ok_iff.1 hc]
    rfl
  | @annotated name id _ _ hleads =>
    obtain ⟨chain', hway, hlength⟩ := h.exists_leadsTo hp hkeep hleads
    -- The name points at the outermost tag object, so the listing takes the tag for an annotated one.
    obtain ⟨found, hfound⟩ := hway.exists_tag
    refine ⟨.annotated name _, chain', ?_, .annotated hway, hlength.trans_le hlimit⟩
    rw [tagRef?, tag_eq_ok_iff.1 hfound]
    rfl

end Publishes

end Store

end PrunedHistory
