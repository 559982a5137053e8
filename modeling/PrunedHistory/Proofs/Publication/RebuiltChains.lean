import PrunedHistory.Proofs.Ledger.Recording
import PrunedHistory.Proofs.Object.Framing
import PrunedHistory.Proofs.Publication.ListedTags
import PrunedHistory.Proofs.Publication.Retargeting

/-! Ways over new tag objects

    Each new tag object is listed once, at its first place, but a tag goes by ids; so whatever is on its way has to be
    found among the new tag objects, or else in the repository. It is found, and encoded as it should be, if no two of
    the tag objects that are read and built have one id. For this the digest must not collide on them, and what is read
    must be filed under its own id; a repository that files a tag object under another one's id can bring the new one
    there. Then a chain that is built again leads to the new commit, as long as it was and with nothing but the targets
    replaced, and it ends at its old id only if nothing has moved. A tag object that is in several chains has the same
    ones further in each time, so it is built again into one. -/

namespace PrunedHistory

/-- The repository with new tag objects, which are found first. -/
def Repository.withTags (r : Repository) (objects : List Tag) : Repository :=
  { r with
    tag := fun id =>
      match objects.find? (·.id == id) with
      | some t => .ok t
      | none => r.tag id }

/-- The second tag object is encoded as the first one would be on the object of the second. -/
def Tag.EncodedLike (t u : Tag) : Prop := u.body = (t.retarget u.object).body

/-- The tag objects that a publication deals with, encoded, by their ids: those on the ways of its tags, and those that
    are built again. -/
inductive Repository.DealsWith (r : Repository) (l : Ledger) (tags : List PeeledTag) : ObjectId → ByteArray → Prop where
  | read {p : PeeledTag} {t : Tag} {id : ObjectId} : p ∈ tags → t ∈ p.chain → r.tag id = .ok t →
    DealsWith r l tags id t.body
  | built {p : PeeledTag} {t : Tag} : p ∈ tags → t ∈ p.rebuilt l → DealsWith r l tags t.id t.body

/-- No id is that of two of these tag objects, be they read or built. -/
def Repository.TagsApart (r : Repository) (l : Ledger) (tags : List PeeledTag) : Prop :=
  ∀ id body body', r.DealsWith l tags id body → r.DealsWith l tags id body' → body = body'

/-- Every tag object is found under its own id. -/
def Repository.TagsAddressed (r : Repository) : Prop := ∀ id t, r.tag id = .ok t → t.id = id

/-- What is hashed about tag objects: those on the ways of the tags, and those that are built again. -/
inductive TagPass.Hashes (l : Ledger) (tags : List PeeledTag) : ObjectKind → ByteArray → Prop where
  | read {p : PeeledTag} {t : Tag} : p ∈ tags → t ∈ p.chain → Hashes l tags .tag t.body
  | built {p : PeeledTag} {t : Tag} : p ∈ tags → t ∈ p.rebuilt l → Hashes l tags .tag t.body

variable {r : Repository} {l : Ledger} {tags : List PeeledTag} {p : PeeledTag} {pass : TagPass} {t : Tag}
  {chain inner inner' : List Tag} {id id' commit target : ObjectId} {new : Replacement}

/-- Tag objects that are filed under their own ids are apart where the digest does not collide. -/
theorem Repository.TagsAddressed.tagsApart (h : r.TagsAddressed) (hfree : ObjectId.CollisionFree (TagPass.Hashes l tags)) :
    r.TagsApart l tags := by
  have hdigest : ∀ id body, r.DealsWith l tags id body →
      TagPass.Hashes l tags .tag body ∧ ObjectId.ofBody .tag body = id := by
    rintro id body (⟨hp, ht, htag⟩ | ⟨hp, ht⟩)
    · exact ⟨.read hp ht, h _ _ htag⟩
    · exact ⟨.built hp ht, rfl⟩
  intro id body body' hbody hbody'
  obtain ⟨hhashed, hid⟩ := hdigest id body hbody
  obtain ⟨hhashed', hid'⟩ := hdigest id body' hbody'
  exact (hfree.eq_of_ofBody hhashed hhashed' (hid.trans hid'.symm)).2

namespace Tag

theorem encodedLike_of_body {u : Tag} (h : u.body = t.body) : t.EncodedLike u := by
  obtain ⟨hobject, -⟩ := target_of_body h
  rw [EncodedLike, hobject]
  exact h

theorem encodedLike_of_retarget {u : Tag} (h : u.body = (t.retarget target).body) :
    u.object = target ∧ u.kind = t.kind ∧ t.EncodedLike u := by
  obtain ⟨hobject, hkind⟩ := target_of_body h
  refine ⟨hobject, hkind, ?_⟩
  rw [EncodedLike, hobject]
  exact h

end Tag

namespace Repository

/-! ### What is found under an id -/

theorem withTags_tag_of_find? {objects : List Tag} (h : objects.find? (·.id == id) = some t) :
    (r.withTags objects).tag id = .ok t := by
  rw [withTags]
  simp only [h]

/-- What is found first is one of the tag objects that were built. -/
theorem built_of_find? (hlists : TagPass.Lists (tags.flatMap (·.rebuilt l)) pass)
    (h : pass.objects.find? (·.id == id) = some t) : t ∈ pass.objects ∧ r.DealsWith l tags id t.body := by
  have hmem := List.mem_of_find?_eq_some h
  obtain ⟨p, hp, ht⟩ := List.mem_flatMap.1 (hlists.seen_of_mem t hmem)
  have hid : t.id = id := by simpa using List.find?_some h
  exact ⟨hmem, hid ▸ .built hp ht⟩

/-- A tag object that was built is found under its id, as it is encoded. -/
theorem exists_find?_of_built (hlists : TagPass.Lists (tags.flatMap (·.rebuilt l)) pass) (hapart : r.TagsApart l tags)
    (hp : p ∈ tags) (ht : t ∈ p.rebuilt l) :
    ∃ found ∈ pass.objects, pass.objects.find? (·.id == t.id) = some found ∧ found.body = t.body := by
  have hid := hlists.ids (List.mem_map_of_mem (List.mem_flatMap.2 ⟨p, hp, ht⟩))
  obtain ⟨listed, hlisted, hsame⟩ := List.mem_map.1 hid
  have hsome : (pass.objects.find? (·.id == t.id)).isSome = true :=
    List.find?_isSome.2 ⟨listed, hlisted, beq_iff_eq.2 hsame⟩
  obtain ⟨found, hfound⟩ := Option.isSome_iff_exists.1 hsome
  obtain ⟨hmem, hdeals⟩ := built_of_find? (r := r) hlists hfound
  exact ⟨found, hmem, hfound, hapart _ _ _ hdeals (.built hp ht)⟩

/-- A tag object that was read is found under its id as before, or one that is encoded alike. -/
theorem exists_tag_of_read (hlists : TagPass.Lists (tags.flatMap (·.rebuilt l)) pass) (hapart : r.TagsApart l tags)
    (hp : p ∈ tags) (ht : t ∈ p.chain) (htag : r.tag id = .ok t) :
    ∃ found, (r.withTags pass.objects).tag id = .ok found ∧ found.body = t.body := by
  cases hfind : pass.objects.find? (·.id == id) with
  | none =>
    refine ⟨t, ?_, rfl⟩
    rw [withTags]
    simp only [hfind, htag]
  | some found =>
    obtain ⟨-, hdeals⟩ := built_of_find? (r := r) hlists hfind
    exact ⟨found, withTags_tag_of_find? hfind, hapart _ _ _ hdeals (.read hp ht htag)⟩

/-! ### Parts of a way -/

namespace LeadsTo

/-- From a tag object on, the way goes on over the same tag objects to the same commit. -/
theorem inner_unique (h : r.LeadsTo id (t :: inner) commit) (h' : r.LeadsTo id' (t :: inner') target) :
    inner = inner' ∧ commit = target := by
  cases h with
  | last _ hkind =>
    cases h' with
    | last _ _ => exact ⟨rfl, rfl⟩
    | next _ hkind' _ => exact absurd (hkind.symm.trans hkind') (by decide)
  | next _ hkind hrest =>
    cases h' with
    | last _ hkind' => exact absurd (hkind.symm.trans hkind') (by decide)
    | next _ _ hrest' => exact hrest.unique hrest'

/-- The inner part of a way is a way itself. -/
theorem of_suffix (h : r.LeadsTo id chain commit) (hsuffix : t :: inner <:+ chain) :
    ∃ id, r.LeadsTo id (t :: inner) commit := by
  induction h with
  | last ht hkind =>
    rcases List.suffix_cons_iff.1 hsuffix with heq | hsuffix
    · rw [heq]
      exact ⟨_, .last ht hkind⟩
    · simp at hsuffix
  | next ht hkind hrest ih =>
    rcases List.suffix_cons_iff.1 hsuffix with heq | hsuffix
    · rw [heq]
      exact ⟨_, .next ht hkind hrest⟩
    · exact ih hsuffix

/-- A chain that is built again keeps its id only on its old commit, by induction over the way inwards. -/
theorem eq_of_rebuiltId (h : r.LeadsTo id chain commit)
    (hsame : ∀ id t inner, r.tag id = .ok t → t :: inner <:+ chain →
      (t.retarget (PeeledTag.rebuiltId target inner)).id = id →
      (t.retarget (PeeledTag.rebuiltId target inner)).body = t.body)
    (hid : PeeledTag.rebuiltId target chain = id) : target = commit := by
  induction h with
  | @last id t ht _ => exact (Tag.target_of_body (hsame id t [] ht List.suffix_rfl hid)).1
  | @next id commit t chain ht _ _ ih =>
    have hinner : PeeledTag.rebuiltId target chain = t.object :=
      (Tag.target_of_body (hsame id t chain ht List.suffix_rfl hid)).1
    exact ih (fun id u inner hu hsuffix => hsame id u inner hu (hsuffix.trans (List.suffix_cons ..))) hinner

end LeadsTo

end Repository

/-! ### Chains afterwards -/

namespace PeeledTag

/-- The commit of the tag is kept under another id. -/
abbrev Moves (l : Ledger) (p : PeeledTag) (new : Replacement) : Prop := l.Moves p.commit new

theorem Moves.mem_rebuilt (h : p.Moves l new) (hsuffix : t :: inner <:+ p.chain) :
    t.retarget (rebuiltId new.id inner) ∈ p.rebuilt l := by
  rw [rebuilt_of_keep h.kept h.moved]
  exact mem_retargetInwards_iff.2 ⟨t, inner, hsuffix, rfl⟩

/-- Where the chains that are built again go over a tag object, they go over the same new one. -/
def BuiltOf (again : Tag → Tag) (objects : List Tag) (l : Ledger) (tags : List PeeledTag) : Prop :=
  ∀ p ∈ tags, ∀ new, p.Moves l new → ∀ t inner, t :: inner <:+ p.chain →
    objects.find? (·.id == (t.retarget (rebuiltId new.id inner)).id) = some (again t) ∧
    again t ∈ objects ∧ (again t).body = (t.retarget (rebuiltId new.id inner)).body

section

variable (hlists : TagPass.Lists (tags.flatMap (·.rebuilt l)) pass) (hapart : r.TagsApart l tags)

include hlists hapart

/-- Where its commit stays, a tag is on its old way, over tag objects that are encoded as they were. -/
theorem exists_chain_of_stay (hp : p ∈ tags) (h : r.LeadsTo id p.chain commit) :
    ∃ chain, (r.withTags pass.objects).LeadsTo id chain commit ∧ List.Forall₂ Tag.EncodedLike p.chain chain := by
  refine h.carried (fun id _ => id) Tag.EncodedLike fun id t inner ht hsuffix => ?_
  obtain ⟨found, hfound, hbody⟩ := Repository.exists_tag_of_read hlists hapart hp (hsuffix.subset List.mem_cons_self) ht
  obtain ⟨hobject, hkind⟩ := Tag.target_of_body hbody
  exact ⟨found, hfound, hobject, hkind, Tag.encodedLike_of_body hbody⟩

omit hlists in
/-- Where its commit moves, a tag with tag objects moves too. -/
theorem Moves.rebuiltId_ne (h : p.Moves l new) (hp : p ∈ tags) (hleads : r.LeadsTo id p.chain p.commit) :
    rebuiltId new.id p.chain ≠ id := by
  intro hid
  refine h.moved (hleads.eq_of_rebuiltId (fun id t inner ht hsuffix hsame => ?_) hid)
  exact hapart id _ _ (hsame ▸ .built hp (h.mem_rebuilt hsuffix)) (.read hp (hsuffix.subset List.mem_cons_self) ht)

/-- What becomes of a tag object hangs on the chain further in and on the commit, which are the same in every chain. -/
theorem exists_again (hpeels : ∀ p ∈ tags, r.Peels p.tag p.chain p.commit) :
    ∃ again : Tag → Tag, BuiltOf again pass.objects l tags := by
  have hleads : ∀ p ∈ tags, ∀ t inner, t :: inner <:+ p.chain → ∃ id, r.LeadsTo id (t :: inner) p.commit := by
    rintro ⟨tag, chain, commit⟩ hp t inner hsuffix
    have hway := hpeels _ hp
    change r.Peels tag chain commit at hway
    cases hway with
    | lightweight => simp at hsuffix
    | annotated hleads => exact hleads.of_suffix hsuffix
  have hone : ∀ t, ∃ u, ∀ p ∈ tags, ∀ new, p.Moves l new → ∀ inner, t :: inner <:+ p.chain →
      pass.objects.find? (·.id == (t.retarget (rebuiltId new.id inner)).id) = some u ∧ u ∈ pass.objects ∧
      u.body = (t.retarget (rebuiltId new.id inner)).body := by
    intro t
    by_cases hmet : ∃ p ∈ tags, ∃ new, p.Moves l new ∧ ∃ inner, t :: inner <:+ p.chain
    · -- What one of the chains has for the tag object, all of them have.
      obtain ⟨p, hp, new, hmoves, inner, hsuffix⟩ := hmet
      obtain ⟨found, hmem, hfind, hbody⟩ :=
        Repository.exists_find?_of_built hlists hapart hp (hmoves.mem_rebuilt hsuffix)
      refine ⟨found, fun p' hp' new' hmoves' inner' hsuffix' => ?_⟩
      obtain ⟨id, hway⟩ := hleads p hp t inner hsuffix
      obtain ⟨id', hway'⟩ := hleads p' hp' t inner' hsuffix'
      -- A tag object leads on in one way, so below it both chains agree and end at the same commit.
      obtain ⟨rfl, hcommit⟩ := hway.inner_unique hway'
      have hkept := hmoves.kept
      rw [hcommit, hmoves'.kept, Option.some.injEq, Decision.keep.injEq] at hkept
      rw [hkept]
      exact ⟨hfind, hmem, hbody⟩
    · exact ⟨t, fun p hp new hmoves inner hsuffix => absurd ⟨p, hp, new, hmoves, inner, hsuffix⟩ hmet⟩
  choose again hagain using hone
  exact ⟨again, fun p hp new hmoves t inner hsuffix => hagain t p hp new hmoves inner hsuffix⟩

end

/-- A chain that is built again leads to the new commit, tag object by tag object. -/
theorem leadsTo_map_again {again : Tag → Tag} {objects : List Tag} (h : r.LeadsTo id chain commit)
    (hagain : ∀ t inner, t :: inner <:+ chain →
      objects.find? (·.id == (t.retarget (rebuiltId target inner)).id) = some (again t) ∧
      again t ∈ objects ∧ (again t).body = (t.retarget (rebuiltId target inner)).body) :
    (r.withTags objects).LeadsTo (rebuiltId target chain) (chain.map again) target ∧
      ∀ t ∈ chain, again t ∈ objects ∧ t.EncodedLike (again t) := by
  constructor
  · have hcarried : ∃ chain', (r.withTags objects).LeadsTo (rebuiltId target chain) chain' target ∧
        List.Forall₂ (fun t u => again t = u) chain chain' := by
      -- The objects found under the new ids form some chain there; `hmap` below says which.
      refine h.carried (fun _ chain => rebuiltId target chain) _ fun id t inner _ hsuffix => ?_
      obtain ⟨hfind, -, hbody⟩ := hagain t inner hsuffix
      obtain ⟨hobject, hkind, -⟩ := Tag.encodedLike_of_retarget hbody
      exact ⟨again t, Repository.withTags_tag_of_find? hfind, hobject, hkind, rfl⟩
    obtain ⟨chain', hleads, hall⟩ := hcarried
    have hmap : chain.map again = chain' := by
      rwa [← List.forall₂_eq_eq_eq, List.forall₂_map_left_iff]
    rwa [hmap]
  · intro t ht
    obtain ⟨before, inner, rfl⟩ := List.append_of_mem ht
    obtain ⟨-, hmem, hbody⟩ := hagain t inner (List.suffix_append ..)
    exact ⟨hmem, (Tag.encodedLike_of_retarget hbody).2.2⟩

end PeeledTag

end PrunedHistory
