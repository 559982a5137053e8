import Mathlib.Data.Fintype.Card
import Mathlib.Logic.Relation
import PrunedHistory.Proofs.Publication.Peeling

/-! Why peeling fails, and where it does not end

    From a listed tag object, peeling reads one tag object after the other, down to the first that tags no further one.
    It fails at a tag object on this way that cannot be read, and it stops at its limit where so many tag objects are
    wrapped around one another. There are only so many ids, so tag objects that are wrapped without end lead back to one
    of themselves. Main statements: how peeling ends on every limit, and where it ends on none; on some limit the tags
    are peeled exactly if they can be listed and each of them can be read to its end, and as many as there are ids are
    always enough. -/

namespace PrunedHistory

/-- There are only so many ids, so a longer sequence repeats one. -/
theorem ObjectId.exists_repeated (f : Nat → ObjectId) : ∃ i j, i < j ∧ j ≤ count ∧ f i = f j := by
  have hmaps : ∀ n ∈ Finset.range (count + 1), (f n).bits.toFin ∈ (Finset.univ : Finset (Fin count)) :=
    fun _ _ => Finset.mem_univ _
  have hcard : (Finset.univ : Finset (Fin count)).card < (Finset.range (count + 1)).card := by
    rw [Finset.card_univ, Fintype.card_fin, Finset.card_range]
    exact Nat.lt_succ_self count
  obtain ⟨i, hi, j, hj, hne, heq⟩ := Finset.exists_ne_map_eq_of_card_lt_of_maps_to hcard hmaps
  have hsame : f i = f j := congrArg ObjectId.mk (BitVec.toFin_inj.1 heq)
  rw [Finset.mem_range, Nat.lt_succ_iff] at hi hj
  rcases Nat.lt_or_gt_of_ne hne with hlt | hlt
  · exact ⟨i, j, hlt, hj, hsame⟩
  · exact ⟨j, i, hlt, hi, hsame.symm⟩

namespace Repository

/-- The tag object under the outer id tags what should be one more tag object, under the inner id. -/
def Wraps (r : Repository) (outer inner : ObjectId) : Prop :=
  ∃ tag, r.tag outer = .ok tag ∧ tag.kind = .tag ∧ tag.object = inner

/-- So many tag objects are wrapped around one another, from the id inwards. -/
def Nests (r : Repository) : Nat → ObjectId → Prop
  | 0, _ => True
  | n + 1, id => ∃ inner, r.Wraps id inner ∧ Nests r n inner

/-- No tag object is wrapped in itself, straight or through others. -/
def TagsEnd (r : Repository) : Prop := ∀ id, ¬Relation.TransGen r.Wraps id id

/-- The tag objects from an id inwards can all be read, down to the first that tags no further one. -/
inductive Unwraps (r : Repository) : ObjectId → Prop where
  | last {id : ObjectId} {tag : Tag} : r.tag id = .ok tag → tag.kind ≠ .tag → Unwraps r id
  | next {id : ObjectId} {tag : Tag} : r.tag id = .ok tag → tag.kind = .tag → Unwraps r tag.object → Unwraps r id

/-- A listed tag can be read to its end. A lightweight one is at its end already. -/
def UnwrapsRef (r : Repository) : TagRef → Prop
  | .lightweight _ _ => True
  | .annotated _ id => r.Unwraps id

/-- Peeling from the id inwards meets a tag object that cannot be read, for this reason. -/
def BlamesTag (r : Repository) (id : ObjectId) (reason : ReadError) : Prop :=
  ∃ met, Relation.ReflTransGen r.Wraps id met ∧ r.tag met = .error reason

/-- What peeling met when it failed: the tags cannot be listed, or one of them is to blame. -/
def BlamesTags (r : Repository) (reason : ReadError) : Prop :=
  r.tags = .error reason ∨ ∃ refs, r.tags = .ok refs ∧ ∃ name id, .annotated name id ∈ refs ∧ r.BlamesTag id reason

/-- From a listed tag, so many tag objects are wrapped around one another. -/
def NestsTags (r : Repository) (n : Nat) : Prop :=
  ∃ refs, r.tags = .ok refs ∧ ∃ name id, .annotated name id ∈ refs ∧ r.Nests n id

/-- The tags can be listed, and each of them can be read to its end. -/
def UnwrapsTags (r : Repository) : Prop := ∃ refs, r.tags = .ok refs ∧ ∀ tag ∈ refs, r.UnwrapsRef tag

variable {r : Repository} {n : Nat} {id inner outer met : ObjectId} {tag : Tag} {reason : ReadError}

theorem wraps_iff (ht : r.tag outer = .ok tag) : r.Wraps outer id ↔ tag.kind = .tag ∧ tag.object = id := by
  constructor
  · rintro ⟨found, hfound, hkind, hobject⟩
    obtain rfl := Except.ok.inj (ht.symm.trans hfound)
    exact ⟨hkind, hobject⟩
  · rintro ⟨hkind, hobject⟩
    exact ⟨tag, ht, hkind, hobject⟩

theorem BlamesTag.of_wraps (h : r.BlamesTag id reason) (hwraps : r.Wraps outer id) : r.BlamesTag outer reason := by
  obtain ⟨met, hmet, hread⟩ := h
  exact ⟨met, hmet.head hwraps, hread⟩

/-- All that is met on a way that can be read to its end can be read to its end. -/
theorem Unwraps.of_reaches (h : r.Unwraps id) (hmet : Relation.ReflTransGen r.Wraps id met) : r.Unwraps met := by
  induction hmet with
  | refl => exact h
  | tail _ hwraps ih =>
    cases ih with
    | last ht hkind => exact absurd ((wraps_iff ht).1 hwraps).1 hkind
    | next ht _ hinner =>
      obtain ⟨-, rfl⟩ := (wraps_iff ht).1 hwraps
      exact hinner

/-- A way that has an end does not lead back. -/
theorem Unwraps.acyclic (h : r.Unwraps id) : ¬Relation.TransGen r.Wraps id id := by
  induction h with
  | last ht hkind =>
    intro hcycle
    obtain ⟨inner, hwraps, -⟩ := Relation.TransGen.head'_iff.1 hcycle
    exact hkind ((wraps_iff ht).1 hwraps).1
  | next ht _ _ ih =>
    intro hcycle
    obtain ⟨inner, hwraps, hback⟩ := Relation.TransGen.head'_iff.1 hcycle
    obtain ⟨-, rfl⟩ := (wraps_iff ht).1 hwraps
    exact ih (.tail' hback hwraps)

/-- A way that can be read to its end is not to blame for any failure. -/
theorem Unwraps.not_blames (h : r.Unwraps id) : ¬r.BlamesTag id reason := by
  rintro ⟨met, hmet, hread⟩
  cases h.of_reaches hmet with
  | last ht _ | next ht _ _ =>
    rw [ht] at hread
    cases hread

theorem UnwrapsTags.not_blames (h : r.UnwrapsTags) : ¬r.BlamesTags reason := by
  obtain ⟨refs, hrefs, hunwraps⟩ := h
  rintro (hread | ⟨refs', hrefs', name, id, hmem, hblames⟩)
  · rw [hrefs] at hread
    cases hread
  · obtain rfl := Except.ok.inj (hrefs.symm.trans hrefs')
    have hid : r.Unwraps id := hunwraps _ hmem
    exact hid.not_blames hblames

/-! ### Tag objects without end -/

/-- What is wrapped in itself nests to every depth. -/
theorem nests_of_cycle : ∀ (n : Nat) {id : ObjectId}, Relation.TransGen r.Wraps id id → r.Nests n id
  | 0, _, _ => trivial
  | n + 1, id, hcycle => by
      obtain ⟨inner, hwraps, hback⟩ := Relation.TransGen.head'_iff.1 hcycle
      exact ⟨inner, hwraps, nests_of_cycle n (.tail' hback hwraps)⟩

theorem nests_of_reaches (hmet : Relation.ReflTransGen r.Wraps id met) (h : ∀ n, r.Nests n met) : ∀ n, r.Nests n id := by
  induction hmet using Relation.ReflTransGen.head_induction_on with
  | refl => exact h
  | head hwraps _ ih =>
    intro n
    cases n with
    | zero => trivial
    | succ n => exact ⟨_, hwraps, ih n⟩

/-- The id that stands so many tag objects further inwards. -/
def inwards (r : Repository) (id : ObjectId) : Nat → ObjectId
  | 0 => id
  | n + 1 => match r.tag (r.inwards id n) with
    | .ok tag => tag.object
    | .error _ => r.inwards id n

theorem wraps_inwards (h : r.Wraps (r.inwards id n) inner) : r.inwards id (n + 1) = inner := by
  obtain ⟨tag, ht, -, rfl⟩ := h
  rw [inwards, ht]

/-- What nests so deep from an id nests one less from the next one. -/
theorem Nests.inwards_wraps : ∀ {n k : Nat}, r.Nests n (r.inwards id k) → ∀ {i : Nat}, k ≤ i → i < k + n →
    r.Wraps (r.inwards id i) (r.inwards id (i + 1))
  | 0, k, _, i, hle, hlt => absurd hlt (Nat.not_lt.2 hle)
  | n + 1, k, ⟨inner, hwraps, hinner⟩, i, hle, hlt => by
      have hnext := wraps_inwards hwraps
      rcases Nat.eq_or_lt_of_le hle with rfl | hlater
      · rwa [hnext]
      · rw [← hnext] at hinner
        exact inwards_wraps hinner hlater (by omega)

theorem reaches_inwards {i j : Nat} (hle : i ≤ j)
    (h : ∀ k, k < j → r.Wraps (r.inwards id k) (r.inwards id (k + 1))) :
    Relation.ReflTransGen r.Wraps (r.inwards id i) (r.inwards id j) := by
  induction j, hle using Nat.le_induction with
  | base => exact .refl
  | succ j _ ih => exact (ih fun k hk => h k (Nat.lt_succ_of_lt hk)).tail (h j (Nat.lt_succ_self j))

/-- Tag objects that are wrapped as often as there are ids lead back to one of themselves. -/
theorem Nests.exists_cycle (h : r.Nests ObjectId.count id) :
    ∃ met, Relation.ReflTransGen r.Wraps id met ∧ Relation.TransGen r.Wraps met met := by
  obtain ⟨i, j, hlt, hle, heq⟩ := ObjectId.exists_repeated (r.inwards id)
  have hwraps : ∀ k, k < j → r.Wraps (r.inwards id k) (r.inwards id (k + 1)) := fun k hk =>
    inwards_wraps h (Nat.zero_le k) (by omega)
  refine ⟨r.inwards id i, reaches_inwards (Nat.zero_le i) fun k hk => hwraps k (hk.trans hlt), ?_⟩
  have hback := reaches_inwards hlt hwraps
  rw [← heq] at hback
  exact .head' (hwraps i hlt) hback

theorem Nests.mono : ∀ {n m : Nat} {id : ObjectId}, m ≤ n → r.Nests n id → r.Nests m id
  | _, 0, _, _, _ => trivial
  | _ + 1, _ + 1, _, hle, ⟨inner, hwraps, hinner⟩ => ⟨inner, hwraps, hinner.mono (Nat.le_of_succ_le_succ hle)⟩

theorem NestsTags.mono {m : Nat} (hle : m ≤ n) (h : r.NestsTags n) : r.NestsTags m := by
  obtain ⟨refs, hrefs, name, id, hmem, hnests⟩ := h
  exact ⟨refs, hrefs, name, id, hmem, hnests.mono hle⟩

/-- A way that has an end is not as deep as there are ids. -/
theorem UnwrapsTags.not_nests (h : r.UnwrapsTags) : ¬r.NestsTags ObjectId.count := by
  rintro ⟨refs, hrefs, name, id, hmem, hnests⟩
  obtain ⟨refs', hrefs', hunwraps⟩ := h
  obtain rfl := Except.ok.inj (hrefs'.symm.trans hrefs)
  obtain ⟨met, hmet, hcycle⟩ := hnests.exists_cycle
  have hid : r.Unwraps id := hunwraps _ hmem
  exact (hid.of_reaches hmet).acyclic hcycle

/-- Without tag objects that lead back to themselves, none are wrapped so deep. -/
theorem TagsEnd.not_nests (h : r.TagsEnd) : ¬r.NestsTags ObjectId.count := by
  rintro ⟨-, -, -, id, -, hnests⟩
  obtain ⟨met, -, hcycle⟩ := hnests.exists_cycle
  exact h met hcycle

end Repository

/-- How peeling ends: with what is to be found, at what cannot be read, or at its limit. -/
inductive PeelingEnds {α : Type} (found : Prop) (blames : ReadError → Prop) (nests : Prop) :
    Except (Stop PublicationError) α → Prop where
  | ok (a : α) : found → PeelingEnds found blames nests (.ok a)
  | failed {reason : ReadError} : blames reason → PeelingEnds found blames nests (.error (.failed (.read reason)))
  | atLimit : nests → PeelingEnds found blames nests (.error .atLimit)

namespace PeelingEnds

variable {α β : Type} {found found' nests nests' : Prop} {blames blames' : ReadError → Prop}
  {result : Except (Stop PublicationError) α}

theorem imp (h : PeelingEnds found blames nests result) (hfound : found → found')
    (hblames : ∀ reason, blames reason → blames' reason) (hnests : nests → nests') :
    PeelingEnds found' blames' nests' result := by
  cases h with
  | ok a h => exact .ok a (hfound h)
  | failed h => exact .failed (hblames _ h)
  | atLimit h => exact .atLimit (hnests h)

/-- What comes of it ends alike. -/
theorem map (f : α → β) (h : PeelingEnds found blames nests result) :
    PeelingEnds found blames nests (result.map f) := by
  cases h with
  | ok a h => exact .ok (f a) h
  | failed h => exact .failed h
  | atLimit h => exact .atLimit h

end PeelingEnds

namespace PeeledTag

variable {r : Repository} {limit : Nat} {id : ObjectId}

theorem follow_ends (r : Repository) : ∀ (limit : Nat) (id : ObjectId),
    PeelingEnds (r.Unwraps id) (r.BlamesTag id) (r.Nests limit id) (r.run (follow limit id))
  | 0, _ => .atLimit trivial
  | limit + 1, id => by
      rw [run_follow_succ]
      cases ht : r.tag id with
      | error reason => exact .failed ⟨id, .refl, ht⟩
      | ok tag =>
        cases hkind : tag.kind with
        | commit | tree | blob =>
          simp only [hkind]
          exact .ok _ (.last ht (by simp [hkind]))
        | tag =>
          have hwraps : r.Wraps id tag.object := ⟨tag, ht, hkind, rfl⟩
          simp only [hkind]
          refine ((follow_ends r limit tag.object).imp ?found ?blames ?nests).map _
          case found => exact .next ht hkind
          case blames => exact fun _ h => h.of_wraps hwraps
          case nests => exact fun h => ⟨tag.object, hwraps, h⟩

theorem run_follow_of_nests : ∀ {limit : Nat} {id : ObjectId}, r.Nests limit id →
    r.run (follow limit id) = .error .atLimit
  | 0, _, _ => rfl
  | limit + 1, id, ⟨_, ⟨tag, ht, hkind, rfl⟩, hinner⟩ => by
      rw [run_follow_succ, ht]
      simp only [hkind, run_follow_of_nests hinner]
      rfl

/-- Peeling a tag object does not end exactly if it leads to one that leads back to itself. -/
theorem follow_endless_iff : (∀ limit, r.run (follow limit id) = .error .atLimit) ↔
    ∃ met, Relation.ReflTransGen r.Wraps id met ∧ Relation.TransGen r.Wraps met met := by
  constructor
  · intro h
    have hends := follow_ends r ObjectId.count id
    rw [h] at hends
    cases hends with
    | atLimit hnests => exact hnests.exists_cycle
  · rintro ⟨met, hmet, hcycle⟩ limit
    have hforever : ∀ n, r.Nests n id := Repository.nests_of_reaches hmet fun n => Repository.nests_of_cycle n hcycle
    exact run_follow_of_nests (hforever limit)

/-- A way to a commit is followed to its end, if the limit allows for it. -/
theorem run_follow_of_leadsTo {chain : List Tag} {commit : ObjectId} (h : r.LeadsTo id chain commit) :
    ∀ {limit : Nat}, chain.length ≤ limit → r.run (follow limit id) = .ok (some (chain, commit)) := by
  induction h with
  | @last id tag ht hkind =>
    rintro (_ | limit) hlimit
    · cases hlimit
    · rw [run_follow_succ, ht]
      simp only [hkind]
  | @next id commit tag chain ht hkind _ ih =>
    rintro (_ | limit) hlimit
    · cases hlimit
    · rw [run_follow_succ, ht]
      simp only [hkind, ih (Nat.le_of_succ_le_succ hlimit)]
      rfl

/-- A listed tag that leads to a commit is peeled. -/
theorem run_ofRef_of_peels {tag : TagRef} {chain : List Tag} {commit : ObjectId} (h : r.Peels tag chain commit)
    (hlimit : chain.length ≤ limit) : r.run (ofRef limit tag) = .ok (some ⟨tag, chain, commit⟩) := by
  cases h with
  | lightweight => rfl
  | annotated hleads =>
    rw [ofRef, Repository.run_bind, run_follow_of_leadsTo hleads hlimit]
    rfl

/-- Listed tags that all lead to commits are all peeled. -/
theorem run_ofRefs_of_peels : ∀ {peeled : List PeeledTag},
    (∀ p ∈ peeled, r.Peels p.tag p.chain p.commit ∧ p.chain.length ≤ limit) →
    r.run (ofRefs limit (peeled.map (·.tag))) = .ok peeled
  | [], _ => rfl
  | first :: rest, h => by
      obtain ⟨hpeels, hlimit⟩ := h first List.mem_cons_self
      rw [List.map_cons, ofRefs, Repository.run_bind, run_ofRef_of_peels hpeels hlimit]
      simp only [Repository.run_bind, Repository.run_done]
      rw [run_ofRefs_of_peels fun p hp => h p (List.mem_cons_of_mem first hp)]
      rfl

theorem ofRef_ends (r : Repository) (limit : Nat) : ∀ tag : TagRef,
    PeelingEnds (r.UnwrapsRef tag) (fun reason => ∃ name id, tag = .annotated name id ∧ r.BlamesTag id reason)
      (∃ name id, tag = .annotated name id ∧ r.Nests limit id) (r.run (ofRef limit tag))
  | .lightweight _ _ => .ok _ trivial
  | .annotated name id => by
      rw [ofRef, Repository.run_bind, Repository.run_done]
      exact ((follow_ends r limit id).imp (fun h => h) (fun _ h => ⟨name, id, rfl, h⟩) fun h => ⟨name, id, rfl, h⟩).map _

theorem ofRefs_ends (r : Repository) (limit : Nat) : ∀ refs : List TagRef,
    PeelingEnds (∀ tag ∈ refs, r.UnwrapsRef tag)
      (fun reason => ∃ name id, .annotated name id ∈ refs ∧ r.BlamesTag id reason)
      (∃ name id, .annotated name id ∈ refs ∧ r.Nests limit id) (r.run (ofRefs limit refs))
  | [] => .ok _ (by simp)
  | tag :: rest => by
      have hrest := ofRefs_ends r limit rest
      rw [ofRefs, Repository.run_bind]
      rcases hfirst : r.run (ofRef limit tag), ofRef_ends r limit tag with ⟨_, ⟨first, htag⟩ | hblames | hnests⟩
      · simp only [Repository.run_bind, Repository.run_done]
        refine (hrest.imp (fun h => List.forall_mem_cons.2 ⟨htag, h⟩) ?_ ?_).map _
        · rintro reason ⟨name, id, hmem, hblames⟩
          exact ⟨name, id, List.mem_cons_of_mem _ hmem, hblames⟩
        · rintro ⟨name, id, hmem, hnests⟩
          exact ⟨name, id, List.mem_cons_of_mem _ hmem, hnests⟩
      · -- The first tag that cannot be peeled ends the pass, and those after it are not asked about.
        obtain ⟨name, id, rfl, hblames⟩ := hblames
        exact .failed ⟨name, id, List.mem_cons_self, hblames⟩
      · obtain ⟨name, id, rfl, hnests⟩ := hnests
        exact .atLimit ⟨name, id, List.mem_cons_self, hnests⟩

end PeeledTag

namespace Publication

variable {r : Repository} {limit : Nat}

/-- All tags are read to their ends, or one is to blame, or the limit does not allow for one. -/
theorem peeledTags_ends (r : Repository) (limit : Nat) :
    PeelingEnds r.UnwrapsTags r.BlamesTags (r.NestsTags limit) (r.run (peeledTags limit)) := by
  rw [peeledTags, Repository.run_bind, Repository.run_question, Repository.answer]
  cases hrefs : r.tags with
  | error reason => exact .failed (.inl hrefs)
  | ok refs =>
    exact (PeeledTag.ofRefs_ends r limit refs).imp (fun h => ⟨refs, hrefs, h⟩) (fun _ h => .inr ⟨refs, hrefs, h⟩)
      fun h => ⟨refs, hrefs, h⟩

/-- Tags that are peeled can be listed, and each of them can be read to its end. -/
theorem unwrapsTags_of_peeledTags {tags : List PeeledTag} (h : r.run (peeledTags limit) = .ok tags) :
    r.UnwrapsTags := by
  have hends := peeledTags_ends r limit
  rw [h] at hends
  cases hends
  assumption

/-- Tags that can be listed, and read to their ends, are peeled if as many tag objects may be read as there are ids. -/
theorem exists_peeledTags_iff (hlimit : ObjectId.count ≤ limit) :
    (∃ tags, r.run (peeledTags limit) = .ok tags) ↔ r.UnwrapsTags := by
  constructor
  · rintro ⟨tags, htags⟩
    exact unwrapsTags_of_peeledTags htags
  · intro hunwraps
    rcases hrun : r.run (peeledTags limit), peeledTags_ends r limit with ⟨_, ⟨tags, -⟩ | hblames | hnests⟩
    · exact ⟨tags, rfl⟩
    · exact absurd hblames hunwraps.not_blames
    · exact absurd (hnests.mono hlimit) hunwraps.not_nests

end Publication

end PrunedHistory
