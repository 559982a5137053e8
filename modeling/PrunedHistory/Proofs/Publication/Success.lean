import PrunedHistory.Proofs.Publication.Comparison

/-! When a publication succeeds

    An earlier branch spares a later one the commits they share, but it has walked these itself; so a defect anywhere
    is met by some walk, and every failure is due to a defect. A tag that has no end is none of these: it is met before
    the first walk, and on every limit the publication is stopped there. Main statement: a publication that is not
    cancelled succeeds exactly if all that it reads can be read and no commit is its own ancestor; if not, the session
    stays as it was, with an error unless a tag has no end. -/

namespace PrunedHistory

namespace Publication

variable {r : Repository} {requests : List Request} {progress : Progress} {cancelled : List Event → Bool}
  {limit : Nat} {tags : List PeeledTag} {s : Session} {stop : Stop PublicationError}

/-- Walks that end well have recorded whole histories. -/
theorem publishable_of_walks (h : r.run (walks requests cancelled limit) = (progress, .ok tags)) :
    r.Publishable requests := by
  obtain ⟨heads, hheads, hpeeled, hdone, -⟩ := walks_ok_cases h
  refine Repository.publishable_of_whole (fun q hq => ?_) (unwrapsTags_of_peeledTags hpeeled)
  have hhead := head_of_resolved hheads q hq
  -- Whichever branch recorded the head, it went through all that the head reaches.
  exact ⟨_, hhead, hdone.settled.sound.whole ((hdone.settled.mem_iff _).2 ⟨q, hq, _, hhead, .refl⟩)⟩

/-- A publication that comes to nothing leaves the session as it was. -/
theorem execute_fails (hnew : s.published = none) (h : (r.run (s.execute cancelled limit)).2.2 = .error stop) :
    (r.run (s.execute cancelled limit)).1 = s ∧ ComesToNothing r cancelled limit s.requests stop := by
  rw [run_execute hnew] at h ⊢
  rcases hwalks : r.run (walks s.requests cancelled limit) with ⟨progress, result⟩
  rcases walks_end hwalks with ⟨heads, tags, rfl, -⟩ | ⟨stop', rfl, hstop⟩
  · rw [hwalks] at h
    cases h
  · rw [hwalks] at h
    cases h
    exact ⟨rfl, hstop⟩

theorem publishable_of_execute {outcome : Outcome} (h : (r.run (s.execute cancelled limit)).2.2 = .ok outcome) :
    r.Publishable s.requests := by
  obtain ⟨progress, tags, hwalks, -⟩ := execute_ok_cases h
  exact publishable_of_walks hwalks

theorem execute_succeeds_iff (hnew : s.published = none) (hnever : ∀ events, cancelled events = false)
    (hlimit : ObjectId.count ≤ limit) :
    (∃ outcome, (r.run (s.execute cancelled limit)).2.2 = .ok outcome) ↔ r.Publishable s.requests := by
  constructor
  · rintro ⟨outcome, houtcome⟩
    exact publishable_of_execute houtcome
  · intro hpublishable
    cases hresult : (r.run (s.execute cancelled limit)).2.2 with
    | ok outcome => exact ⟨outcome, rfl⟩
    | error stop =>
      obtain ⟨-, hstop⟩ := execute_fails hnew hresult
      cases hstop with
      | failed hearly => exact absurd (hearly.blames hnever) hpublishable.not_blames
      | atLimit hnests => exact absurd (hnests.mono hlimit) hpublishable.tags.not_nests

/-- A publication that is neither done nor cancelled succeeds on some limit exactly if its requests can be published,
    and then it does on every limit that is not below the number of ids. If they cannot, the session stays as it was on
    every limit; unless a tag has more tag objects than the limit, there is an error that tells of what was met, and
    where no tag object is wrapped in itself, the number of ids is limit enough for that. Another session with the same
    names and starts succeeds or fails with it, whatever its order and its retentions. -/
theorem succeeds_iff_publishable (r : Repository) (s : Session) (cancelled : List Event → Bool)
    (hnew : s.published = none) (hnever : ∀ events, cancelled events = false) :
    (∀ limit, ObjectId.count ≤ limit →
      ((∃ outcome, (r.run (s.execute cancelled limit)).2.2 = .ok outcome) ↔ r.Publishable s.requests)) ∧
    (¬r.Publishable s.requests → ∀ limit, (r.run (s.execute cancelled limit)).1 = s ∧
      ((∃ e, (r.run (s.execute cancelled limit)).2.2 = .error (.failed e) ∧ r.BlamesRequests s.requests e) ∨
        ((r.run (s.execute cancelled limit)).2.2 = .error .atLimit ∧ r.NestsTags limit))) ∧
    (r.TagsEnd → ∀ limit, ObjectId.count ≤ limit → (r.run (s.execute cancelled limit)).2.2 ≠ .error .atLimit) ∧
    ∀ (s' : Session) (cancelled' : List Event → Bool), s'.published = none →
      (∀ events, cancelled' events = false) →
      (s'.requests.map fun q => (q.name, q.start)).Perm (s.requests.map fun q => (q.name, q.start)) →
      ∀ limit, ObjectId.count ≤ limit →
        ((∃ outcome, (r.run (s'.execute cancelled' limit)).2.2 = .ok outcome) ↔
          ∃ outcome, (r.run (s.execute cancelled limit)).2.2 = .ok outcome) := by
  refine ⟨fun limit hlimit => execute_succeeds_iff hnew hnever hlimit, fun hnot limit => ?fails,
    fun hends limit hlimit hresult => ?ends, fun s' cancelled' hnew' hnever' hperm limit hlimit => ?same⟩
  case fails =>
    -- A success would make the requests publishable; a failure says by its kind what it blames.
    cases hresult : (r.run (s.execute cancelled limit)).2.2 with
    | ok outcome => exact absurd (publishable_of_execute hresult) hnot
    | error stop =>
      obtain ⟨hstays, hstop⟩ := execute_fails hnew hresult
      refine ⟨hstays, ?_⟩
      cases hstop with
      | failed hearly => exact .inl ⟨_, rfl, hearly.blames hnever⟩
      | atLimit hnests => exact .inr ⟨rfl, hnests⟩
  case ends =>
    obtain ⟨-, hstop⟩ := execute_fails hnew hresult
    cases hstop with
    | atLimit hnests => exact hends.not_nests (hnests.mono hlimit)
  case same =>
    rw [execute_succeeds_iff hnew' hnever' hlimit, execute_succeeds_iff hnew hnever hlimit,
      Repository.publishable_iff_of_perm hperm]

/-! ### A small repository with a tag that leads to no commit -/

def diamondParents : List (ObjectId × List ObjectId) :=
  [(⟨1⟩, []), (⟨2⟩, [⟨1⟩]), (⟨3⟩, [⟨1⟩]), (⟨4⟩, [⟨2⟩, ⟨3⟩])]

/-- A history that parts and meets again, and a tag on a tag on a tree. -/
def diamond : Repository :=
  { Repository.ofParents diamondParents with
    resolve := fun name => if name = "refs/heads/side" then .ok ⟨3⟩ else .error (.unknownRef name)
    tags := .ok [.annotated "refs/tags/files" ⟨10⟩]
    tag := fun id =>
      if id = ⟨10⟩ then .ok { object := ⟨11⟩, kind := .tag, name := "files", message := "" }
      else if id = ⟨11⟩ then .ok { object := ⟨0⟩, kind := .tree, name := "files", message := "" }
      else .error (.missingObject id) }

def diamondMain (retention : Retention) : Request := { name := "refs/heads/main", retention, start := some ⟨4⟩ }

def diamondSide (retention : Retention) : Request := { name := "refs/heads/side", retention }

/-- A branch that starts where there is no commit. -/
def diamondLost : Request := { name := "refs/heads/lost", retention := .full, start := some ⟨9⟩ }

/-- The tag on the tag is the only one that wraps another. -/
theorem tagsEnd_diamond : diamond.TagsEnd := by
  -- Only the tag object ⟨10⟩ wraps another, and the one it wraps is about a commit.
  have hwraps : ∀ {outer inner : ObjectId}, diamond.Wraps outer inner → outer = ⟨10⟩ ∧ inner = ⟨11⟩ := by
    rintro outer inner ⟨tag, htag, hkind, rfl⟩
    simp only [diamond] at htag
    split at htag
    · rename_i houter
      cases htag
      exact ⟨houter, rfl⟩
    · split at htag
      · cases htag
        cases hkind
      · cases htag
  intro id hcycle
  obtain ⟨inner, hfirst, hback⟩ := Relation.TransGen.head'_iff.1 hcycle
  obtain ⟨rfl, rfl⟩ := hwraps hfirst
  obtain ⟨next, hnext, -⟩ := (Relation.ReflTransGen.cases_head hback).resolve_left (by decide)
  exact absurd (hwraps hnext).1 (by decide)

theorem diamond_publishes :
    (∃ outcome, (diamond.run (({ requests := [diamondSide .latest, diamondMain .full] } : Session).execute
      (fun _ => false) ObjectId.count)).2.2 = .ok outcome) ∧
    (∃ outcome, (diamond.run (({ requests := [diamondMain .abbreviated, diamondSide .full] } : Session).execute
      (fun _ => false) ObjectId.count)).2.2 = .ok outcome) ∧
    diamond.TagsEnd ∧
    ∃ e, (diamond.run (({ requests := [diamondMain .full, diamondLost] } : Session).execute
      (fun _ => false) ObjectId.count)).2.2 = .error (.failed e) := by
  have hwhole : ∀ id ∈ diamondParents.map (·.1), diamond.Whole id := fun id hid =>
    Repository.whole_of_parents diamondParents rfl (fun _ => rfl) (by decide) hid
  have htags : diamond.UnwrapsTags := by
    refine ⟨_, rfl, fun tag htag => ?_⟩
    obtain rfl := List.mem_singleton.1 htag
    have hinner : diamond.Unwraps ⟨11⟩ := .last rfl (by decide)
    exact .next rfl rfl hinner
  have hpublishable : diamond.Publishable [diamondSide .latest, diamondMain .full] := by
    refine Repository.publishable_of_whole (fun q hq => ?_) htags
    rcases List.mem_pair.1 hq with rfl | rfl
    · exact ⟨⟨3⟩, rfl, hwhole _ (by decide)⟩
    · exact ⟨⟨4⟩, rfl, hwhole _ (by decide)⟩
  -- The lost branch starts at a commit the repository cannot show.
  have hlost : ¬diamond.Publishable [diamondMain .full, diamondLost] := by
    intro h
    obtain ⟨commit, hread, -⟩ := h.loads diamondLost (by simp) ⟨9⟩ ⟨⟨9⟩, rfl, .refl⟩
    cases hread
  obtain ⟨hiff, -, -, hsame⟩ := succeeds_iff_publishable diamond
    { requests := [diamondSide .latest, diamondMain .full] } (fun _ => false) rfl fun _ => rfl
  obtain ⟨-, hfails, hends, -⟩ := succeeds_iff_publishable diamond { requests := [diamondMain .full, diamondLost] }
    (fun _ => false) rfl fun _ => rfl
  have hfirst := (hiff ObjectId.count le_rfl).2 hpublishable
  refine ⟨hfirst, (hsame { requests := [diamondMain .abbreviated, diamondSide .full] } _ rfl (fun _ => rfl)
    (.swap ..) ObjectId.count le_rfl).2 hfirst, tagsEnd_diamond, ?_⟩
  rcases (hfails hlost ObjectId.count).2 with ⟨e, he, -⟩ | ⟨hlimit, -⟩
  · exact ⟨e, he⟩
  · exact absurd hlimit (hends tagsEnd_diamond ObjectId.count le_rfl)

end Publication

end PrunedHistory
