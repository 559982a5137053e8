import PrunedHistory.Proofs.Publication.Comparison
import PrunedHistory.Proofs.Publication.Limits

/-! What a publication depends on

    Tags are peeled wherever they lead, and all of them are there to be asked for in every walk; but a walk asks only
    about commits that its head reaches, and the pass over the tags passes over those whose commits are not recorded.
    So two repositories that show the same from the requested heads on are published alike, whatever else there is in
    either of them. Recorded commits carry the proof: both ledgers are sound, so that what is covered has been loaded
    from both repositories. Main statement: an outcome depends only on the history that it publishes. -/

namespace PrunedHistory

variable {r r' : Repository} {requests : List Request} {tags : List PeeledTag} {q : Request} {id head : ObjectId}

open scoped Classical in
/-- The peeled tags whose commits the requests cover, in their order. -/
noncomputable def Repository.shown (r : Repository) (requests : List Request) (tags : List PeeledTag) :
    List PeeledTag :=
  tags.filter fun p => ∃ q ∈ requests, r.Covers q p.commit

/-- From the requests on, both repositories show the same: heads, commits, and tags with their ways. -/
structure Repository.ShowAlike (r r' : Repository) (requests : List Request) : Prop where
  heads : ∀ q ∈ requests, r'.head q = r.head q
  commits : ∀ q ∈ requests, ∀ id, r.Covers q id → r'.commit id = r.commit id
  tags : ∀ {limit limit' : Nat} {tags tags' : List PeeledTag}, r.run (Publication.peeledTags limit) = .ok tags →
    r'.run (Publication.peeledTags limit') = .ok tags' → r'.shown requests tags' = r.shown requests tags

namespace Repository

theorem mem_shown_iff {p : PeeledTag} :
    p ∈ r.shown requests tags ↔ p ∈ tags ∧ ∃ q ∈ requests, r.Covers q p.commit := by
  simp only [shown, List.mem_filter, decide_eq_true_eq]

/-- What is covered in one repository is covered in the other, by induction over the way from the head. -/
theorem ShowAlike.covers (h : r.ShowAlike r' requests) (hq : q ∈ requests) (hcovers : r.Covers q id) :
    r'.Covers q id := by
  obtain ⟨head, hhead, hreach⟩ := hcovers
  refine ⟨head, (h.heads q hq).trans hhead, ?_⟩
  induction hreach with
  | refl => exact .refl
  | @tail a b hreach hparent ih =>
    obtain ⟨commit, hread, hb⟩ := hparent
    exact ih.tail ⟨commit, (h.commits q hq a ⟨head, hhead, hreach⟩).trans hread, hb⟩

end Repository

namespace Publication

variable {isHead isTagged : ObjectId → Bool} {l : Ledger} {progress progress' : Progress} {tags' : List PeeledTag}
  {limit limit' : Nat} {cancelled cancelled' : List Event → Bool}

/-- The pass over the tags sees only the tags that are shown. -/
theorem Settled.ofTags_shown (h : Settled r isHead isTagged requests l) (tags : List PeeledTag) :
    TagPass.ofTags l (r.shown requests tags) = TagPass.ofTags l tags := by
  refine ofTags_filter fun p _ hhidden => ?_
  rw [decide_eq_false_iff_not, ← h.mem_iff] at hhidden
  rw [Option.eq_none_iff_forall_ne_some]
  exact fun d hd => hhidden (h.sound.mem_of_find? hd)

/-- A covered commit is tagged in both repositories or in none. -/
theorem isTagged_alike (h : r.ShowAlike r' requests) (hpeeled : r.run (peeledTags limit) = .ok tags)
    (hpeeled' : r'.run (peeledTags limit') = .ok tags') (hq : q ∈ requests) (hcovers : r.Covers q id) :
    member (tags'.map (·.commit)) id = member (tags.map (·.commit)) id := by
  have hshown := h.tags hpeeled hpeeled'
  have hmem : ∀ p : PeeledTag, p.commit = id → (p ∈ tags' ↔ p ∈ tags) := by
    rintro p rfl
    have hiff : p ∈ r.shown requests tags ↔ p ∈ tags := by
      rw [Repository.mem_shown_iff, and_iff_left ⟨q, hq, hcovers⟩]
    have hiff' : p ∈ r'.shown requests tags' ↔ p ∈ tags' := by
      rw [Repository.mem_shown_iff, and_iff_left ⟨q, hq, h.covers hq hcovers⟩]
    rw [← hiff', hshown, hiff]
  rw [Bool.eq_iff_iff, member_iff, member_iff, List.mem_map, List.mem_map]
  exact exists_congr fun p => and_congr_left (hmem p)

/-- Walks of repositories that show the same come to the same, and meet all commits in both. -/
theorem walks_alike (h : r.ShowAlike r' requests) (hwalks : r.run (walks requests cancelled limit) = (progress, .ok tags))
    (hwalks' : r'.run (walks requests cancelled' limit') = (progress', .ok tags')) : progress' = progress := by
  obtain ⟨heads, hheads, hpeeled, hbranches⟩ := branches_of_walks hwalks
  obtain ⟨heads', hheads', hpeeled', hbranches'⟩ := branches_of_walks hwalks'
  obtain ⟨_, -, -, hdone, -⟩ := walks_ok_cases hwalks
  obtain ⟨_, -, -, hdone', -⟩ := walks_ok_cases hwalks'
  obtain rfl : heads' = heads := by
    rw [List.map_congr_left h.heads, hheads] at hheads'
    exact (List.map_injective_iff.2 (fun _ _ => Except.ok.inj) hheads').symm
  -- Both publications have walked what a branch covers, so every commit there loads on both sides, and it is the same.
  have hmet : ∀ job ∈ requests.zip heads', ∀ a, r.Reaches job.2 a → MetAlike r r' (member heads')
      (member (tags.map (·.commit))) (member heads') (member (tags'.map (·.commit))) a := by
    intro job hjob a ha
    have hq : job.1 ∈ requests := (List.of_mem_zip hjob).1
    have hcovers : r.Covers job.1 a := ⟨job.2, mem_zip_of_map_head hheads job hjob, ha⟩
    refine ⟨?loaded, rfl, isTagged_alike h hpeeled hpeeled' hq hcovers⟩
    case loaded =>
      obtain ⟨commit, hload⟩ := hdone.settled.sound.loads a ((hdone.settled.mem_iff a).2 ⟨_, hq, hcovers⟩)
      obtain ⟨commit', hload'⟩ :=
        hdone'.settled.sound.loads a ((hdone'.settled.mem_iff a).2 ⟨_, hq, h.covers hq hcovers⟩)
      obtain rfl : commit' = commit :=
        Except.ok.inj (hload'.1.symm.trans ((h.commits _ hq a hcovers).trans hload.1))
      rw [Walk.run_load_of_loads hload, Walk.run_load_of_loads hload']
  have halike := branches_alike (fun _ => false) {} hmet
  rw [branches_uncancelled hbranches, branches_uncancelled hbranches'] at halike
  exact (Prod.mk.inj halike).1

/-- An outcome depends only on the history that it publishes: where the requested heads, the commits that they reach
    and the tags of these commits are the same in two repositories, so are the heads, the tags, the new commits and the
    new tag objects. -/
theorem outcome_depends_on_shown_history (r r' : Repository) (s : Session) (cancelled cancelled' : List Event → Bool)
    (limit limit' : Nat) (outcome outcome' : Outcome) (halike : r.ShowAlike r' s.requests)
    (houtcome : (r.run (s.execute cancelled limit)).2.2 = .ok outcome)
    (houtcome' : (r'.run (s.execute cancelled' limit')).2.2 = .ok outcome') : outcome' = outcome := by
  obtain ⟨progress, tags, hwalks, rfl⟩ := execute_ok_cases houtcome
  obtain ⟨progress', tags', hwalks', rfl⟩ := execute_ok_cases houtcome'
  obtain rfl := walks_alike halike hwalks hwalks'
  obtain ⟨_, -, hpeeled, hdone, -⟩ := walks_ok_cases hwalks
  obtain ⟨_, -, hpeeled', hdone', -⟩ := walks_ok_cases hwalks'
  have hpass : TagPass.ofTags progress'.ledger tags' = TagPass.ofTags progress'.ledger tags := by
    rw [← hdone.settled.ofTags_shown tags, ← hdone'.settled.ofTags_shown tags', halike.tags hpeeled hpeeled']
  rw [Progress.publish, Progress.publish, hpass]

/-- A line of three commits, of which the second is tagged. -/
def trunkParents : List (ObjectId × List ObjectId) := [(⟨1⟩, []), (⟨2⟩, [⟨1⟩]), (⟨3⟩, [⟨2⟩])]

def trunkTags : List PeeledTag := [⟨.lightweight "refs/tags/v1" ⟨2⟩, [], ⟨2⟩⟩]

def trunk : Repository :=
  { Repository.ofParents trunkParents with tags := .ok (trunkTags.map (·.tag)) }

/-- The same line with a branch beside it and a commit apart, each of them tagged too. -/
def wideParents : List (ObjectId × List ObjectId) := trunkParents ++ [(⟨4⟩, [⟨2⟩]), (⟨5⟩, [])]

def wideTags : List PeeledTag :=
  [⟨.annotated "refs/tags/beside" ⟨9⟩, [{ nestedTag with object := ⟨4⟩ }], ⟨4⟩⟩,
    ⟨.lightweight "refs/tags/v1" ⟨2⟩, [], ⟨2⟩⟩,
    ⟨.lightweight "refs/tags/apart" ⟨5⟩, [], ⟨5⟩⟩]

def wide : Repository :=
  { Repository.ofParents wideParents with
    tag _ := .ok { nestedTag with object := ⟨4⟩ }
    tags := .ok (wideTags.map (·.tag)) }

def trunkRequest : Request := { name := "refs/heads/main", retention := .abbreviated, start := some ⟨3⟩ }

theorem trunk_peeled : trunk.run (peeledTags 1) = .ok trunkTags := rfl

theorem wide_peeled : wide.run (peeledTags 1) = .ok wideTags := by
  have htags : wide.tags = .ok (wideTags.map (·.tag)) := rfl
  rw [peeledTags, Repository.run_bind, Repository.run_question, Repository.answer, htags]
  refine PeeledTag.run_ofRefs_of_peels fun p hp => ?_
  simp only [wideTags, List.mem_cons, List.not_mem_nil, or_false] at hp
  rcases hp with rfl | rfl | rfl
  · exact ⟨.annotated (.last rfl rfl), Nat.le_refl 1⟩
  · exact ⟨.lightweight, Nat.zero_le 1⟩
  · exact ⟨.lightweight, Nat.zero_le 1⟩

theorem mem_of_trunk_reaches (h : trunk.Reaches ⟨3⟩ id) : id ∈ [(⟨1⟩ : ObjectId), ⟨2⟩, ⟨3⟩] :=
  Repository.mem_of_reaches _ (by decide) (by decide) h

theorem mem_of_wide_reaches (h : wide.Reaches ⟨3⟩ id) : id ∈ [(⟨1⟩ : ObjectId), ⟨2⟩, ⟨3⟩] :=
  Repository.mem_of_reaches _ (by decide) (by decide) h

/-- Of the three tags, only the one on the line is shown. -/
theorem wide_shown : wide.shown [trunkRequest] wideTags = trunk.shown [trunkRequest] trunkTags := by
  have hline : trunk.Parent ⟨3⟩ ⟨2⟩ := ⟨_, rfl, List.mem_cons_self⟩
  have hline' : wide.Parent ⟨3⟩ ⟨2⟩ := ⟨_, rfl, List.mem_cons_self⟩
  have hon : ∃ q ∈ [trunkRequest], trunk.Covers q ⟨2⟩ := ⟨_, List.mem_cons_self, ⟨3⟩, rfl, .single hline⟩
  have hon' : ∃ q ∈ [trunkRequest], wide.Covers q ⟨2⟩ := ⟨_, List.mem_cons_self, ⟨3⟩, rfl, .single hline'⟩
  -- The branch covers three commits on the wide side, and its other tags are on none of these.
  have hoff : ∀ a ∉ [(⟨1⟩ : ObjectId), ⟨2⟩, ⟨3⟩], ¬∃ q ∈ [trunkRequest], wide.Covers q a := by
    rintro a ha ⟨q, hq, hcovers⟩
    obtain rfl := List.mem_singleton.1 hq
    exact ha (mem_of_wide_reaches ((Repository.covers_iff_of_head rfl).1 hcovers))
  have hbeside := hoff ⟨4⟩ (by decide)
  have hapart := hoff ⟨5⟩ (by decide)
  rw [Repository.shown, Repository.shown, wideTags, trunkTags,
    List.filter_cons_of_neg (by simpa only [decide_eq_true_eq] using hbeside),
    List.filter_cons_of_pos (by simpa only [decide_eq_true_eq] using hon'),
    List.filter_cons_of_neg (by simpa only [decide_eq_true_eq] using hapart),
    List.filter_cons_of_pos (by simpa only [decide_eq_true_eq] using hon)]
  rfl

theorem trunk_showAlike_wide : trunk.ShowAlike wide [trunkRequest] where
  heads q hq := by
    obtain rfl := List.mem_singleton.1 hq
    rfl
  commits q hq id hcovers := by
    obtain rfl := List.mem_singleton.1 hq
    have hsame : ∀ n ∈ [(⟨1⟩ : ObjectId), ⟨2⟩, ⟨3⟩], wide.commit n = trunk.commit n := by decide
    exact hsame id (mem_of_trunk_reaches ((Repository.covers_iff_of_head rfl).1 hcovers))
  tags htags htags' := by
    rw [peeledTags_unique htags trunk_peeled, peeledTags_unique htags' wide_peeled, wide_shown]

theorem outcomes_of_trunk_and_wide :
    ∃ outcome outcome', (trunk.run (Session.execute { requests := [trunkRequest] } (fun _ => false) 1)).2.2 = .ok outcome ∧
      (wide.run (Session.execute { requests := [trunkRequest] } (fun _ => false) 1)).2.2 = .ok outcome' ∧
      trunk.ShowAlike wide [trunkRequest] ∧ (∃ change, outcome.heads.get? "refs/heads/main" = some change) ∧
      outcome' = outcome := by
  have hwhole : ∀ head ∈ [(⟨3⟩ : ObjectId)], trunk.Whole head ∧ wide.Whole head := by
    intro head hhead
    obtain rfl := List.mem_singleton.1 hhead
    exact ⟨Repository.whole_of_parents trunkParents rfl (fun _ => rfl) (by decide) (by decide),
      Repository.whole_of_parents wideParents rfl (fun _ => rfl) (by decide) (by decide)⟩
  have hheads : [trunkRequest].map trunk.head = [⟨3⟩].map .ok := rfl
  have hheads' : [trunkRequest].map wide.head = [⟨3⟩].map .ok := rfl
  obtain ⟨progress, hwalks⟩ := exists_walks_of_whole (fun _ => rfl) hheads trunk_peeled
    fun head hhead => (hwhole head hhead).1
  obtain ⟨progress', hwalks'⟩ := exists_walks_of_whole (fun _ => rfl) hheads' wide_peeled
    fun head hhead => (hwhole head hhead).2
  obtain ⟨_, -, -, hdone, -⟩ := walks_ok_cases hwalks
  have houtcome := execute_of_walks (s := { requests := [trunkRequest] }) rfl hwalks
  have houtcome' := execute_of_walks (s := { requests := [trunkRequest] }) rfl hwalks'
  exact ⟨_, _, houtcome, houtcome', trunk_showAlike_wide, hdone.named trunkRequest (by simp),
    outcome_depends_on_shown_history trunk wide { requests := [trunkRequest] } _ _ _ _ _ _ trunk_showAlike_wide houtcome
      houtcome'⟩

end Publication

end PrunedHistory
