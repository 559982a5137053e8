import PrunedHistory.Proofs.Publication.Execution
import PrunedHistory.Proofs.Walk.Contraction

/-! What is published is a contraction

    A publication files the commits it keeps by their new ids, and one replaces another under an id that both have.
    Main statement: where the digest does not collide, this makes no difference to the graph, which is the source graph
    contracted to the kept commits. -/

namespace PrunedHistory

/-- The commit that is published under the first id lists the second as a parent. -/
def Published.Parent (p : Published) (child parent : ObjectId) : Prop :=
  ∃ commit, p.commits[child]? = some commit ∧ parent ∈ commit.parents

/-- The commits that replace kept ones. -/
def Ledger.Replaces (l : Ledger) (commit : Commit) : Prop :=
  ∃ k new, l.find? k = some (.keep new) ∧ new.commit = commit

namespace Publication

variable {r : Repository} {l : Ledger} {progress : Progress} {tags : List PeeledTag} {x : ObjectId} {commit : Commit}

theorem mem_of_filed : ∀ {kept : List (ObjectId × Replacement)} {commits : Std.TreeMap ObjectId Commit},
    (kept.foldl (fun commits (_, new) => commits.insert new.id new.commit) commits)[x]? = some commit →
    commits[x]? = some commit ∨ ∃ k new, (k, new) ∈ kept ∧ new.id = x ∧ new.commit = commit
  | [], _, h => .inl h
  | (k, new) :: kept, commits, h => by
      rw [List.foldl_cons] at h
      rcases mem_of_filed h with h | ⟨k', new', hmem, hx⟩
      · rw [Std.TreeMap.getElem?_insert] at h
        split at h
        · rename_i hid
          exact .inr ⟨k, new, by simp, Std.LawfulEqOrd.eq_of_compare hid, Option.some.inj h⟩
        · exact .inl h
      · exact .inr ⟨k', new', List.mem_cons_of_mem _ hmem, hx⟩

theorem exists_filed : ∀ {kept : List (ObjectId × Replacement)} {commits : Std.TreeMap ObjectId Commit},
    ((∃ commit, commits[x]? = some commit) ∨ ∃ k new, (k, new) ∈ kept ∧ new.id = x) →
    ∃ commit, (kept.foldl (fun commits (_, new) => commits.insert new.id new.commit) commits)[x]? = some commit
  | [], _, h => by
      rcases h with h | ⟨k, new, hmem, -⟩
      · exact h
      · cases hmem
  | (k, new) :: kept, commits, h => by
      rw [List.foldl_cons]
      refine exists_filed ?_
      by_cases hx : new.id = x
      · subst hx
        exact .inl ⟨new.commit, Std.TreeMap.getElem?_insert_self⟩
      · -- Another id is filed, so what is looked for was there before or comes later.
        have hne : compare new.id x ≠ .eq := fun hc => hx (Std.LawfulEqOrd.eq_of_compare hc)
        rw [Std.TreeMap.getElem?_insert, if_neg hne]
        rcases h with h | ⟨k', new', hmem, hx'⟩
        · exact .inl h
        · rcases List.mem_cons.1 hmem with heq | hmem
          · cases heq
            exact absurd hx' hx
          · exact .inr ⟨k', new', hmem, hx'⟩

theorem exists_kept_of_published (hl : progress.ledger.Indexed) (h : (progress.publish tags).commits[x]? = some commit) :
    ∃ k new, progress.ledger.find? k = some (.keep new) ∧ new.id = x ∧ new.commit = commit := by
  rcases mem_of_filed h with h | ⟨k, new, hmem, hx, hcommit⟩
  · rw [Std.TreeMap.getElem?_emptyc] at h
    cases h
  · exact ⟨k, new, (Ledger.mem_kept_iff hl).1 hmem, hx, hcommit⟩

/-- What is published under an id is published for each commit that has the id as its new one. -/
theorem exists_published_iff (hl : progress.ledger.Indexed) :
    (∃ commit, (progress.publish tags).commits[x]? = some commit) ↔ ∃ k, progress.ledger.NewId k x := by
  constructor
  · rintro ⟨commit, hcommit⟩
    obtain ⟨k, new, hkeep, hx, -⟩ := exists_kept_of_published hl hcommit
    exact ⟨k, new, hkeep, hx⟩
  · rintro ⟨k, new, hkeep, hx⟩
    exact exists_filed (.inr ⟨k, new, (Ledger.mem_kept_iff hl).2 hkeep, hx⟩)

/-- Whichever commit was filed last under a new id, its parents are those of the others. -/
theorem draws_published (h : progress.ledger.Sound r) (hfree : Commit.CollisionFree progress.ledger.Replaces) :
    progress.ledger.Draws (progress.publish tags).Parent := by
  intro k new hkeep y
  have hparents : ∀ commit, (progress.publish tags).commits[new.id]? = some commit →
      commit.parents = new.commit.parents := by
    intro commit hcommit
    obtain ⟨k', new', hkeep', hid, rfl⟩ := exists_kept_of_published h.indexed hcommit
    -- Two replacements of one id have one body, and so the same parents.
    refine hfree.parents_eq ⟨k', new', hkeep', rfl⟩ ⟨k, new, hkeep, rfl⟩ ?_
    rw [h.id_of_keep hkeep', h.id_of_keep hkeep, hid]
  constructor
  · rintro ⟨commit, hcommit, hy⟩
    rwa [hparents commit hcommit] at hy
  · intro hy
    obtain ⟨commit, hcommit⟩ : ∃ commit, (progress.publish tags).commits[new.id]? = some commit :=
      (exists_published_iff h.indexed).2 ⟨k, new, hkeep, rfl⟩
    exact ⟨commit, hcommit, (hparents commit hcommit).symm ▸ hy⟩

/-- Where the digest does not collide, the published graph is the source graph contracted to the kept commits: it holds
    their new ids, a kept ancestor becomes an ancestor, and every ancestor of a new id is the new id of a kept ancestor
    of each commit that has that new id. There is no cycle. -/
theorem published_graph_contracts (r : Repository) (s : Session) (cancelled : List Event → Bool) (limit : Nat)
    (outcome : Outcome) (houtcome : (r.run (s.execute cancelled limit)).2.2 = .ok outcome)
    (hfree : Commit.CollisionFree (r.run (walks s.requests cancelled limit)).1.ledger.Replaces) :
    ∃ progress tags published, r.run (walks s.requests cancelled limit) = (progress, .ok tags) ∧
      (r.run (s.execute cancelled limit)).1.published = some published ∧ published.outcome = outcome ∧
      (∀ x, (∃ commit, published.commits[x]? = some commit) ↔ ∃ k, progress.ledger.NewId k x) ∧
      progress.ledger.Draws published.Parent ∧
      (∀ k a x y, progress.ledger.NewId k x → progress.ledger.NewId a y → r.Descends k a →
        Relation.TransGen published.Parent x y) ∧
      (∀ k x y, progress.ledger.NewId k x → Relation.TransGen published.Parent x y →
        ∃ a, a ≠ k ∧ r.Descends k a ∧ progress.ledger.NewId a y) ∧
      ∀ x, ¬Relation.TransGen published.Parent x x := by
  obtain ⟨progress, tags, hwalks, rfl, hpublished⟩ := published_of_execute houtcome
  obtain ⟨heads, -, -, hdone⟩ := exists_done_of_walks hwalks
  rw [hwalks] at hfree
  have hsound := hdone.settled.sound
  have hdraws : progress.ledger.Draws (progress.publish tags).Parent := draws_published hsound hfree
  refine ⟨progress, tags, _, hwalks, hpublished, rfl, fun x => exists_published_iff hsound.indexed, hdraws,
    fun k a x y hk ha hd => hdraws.transGen_of_descends hsound hk ha hd, fun k x y hk hway => ?ancestor,
    fun x hcycle => ?cycle⟩
  case ancestor =>
    obtain ⟨a, hdescends, ha⟩ := hdraws.exists_descends hsound hk hway
    refine ⟨a, ?_, hdescends, ha⟩
    -- A commit that were its own ancestor could not have been recorded after its parents.
    rintro rfl
    obtain ⟨new, hkeep, -⟩ := ha
    exact hsound.not_descends_self (hsound.mem_of_find? hkeep) hdescends
  case cycle =>
    obtain ⟨y, ⟨commit, hcommit, -⟩, -⟩ := Relation.TransGen.head'_iff.1 hcycle
    obtain ⟨k, hk⟩ := (exists_published_iff hsound.indexed).1 ⟨commit, hcommit⟩
    exact hdraws.acyclic hsound hk hcycle

/-- Two tagged commits, merged at the tip. They differ in their parents alone, and the one that has a parent loses
    it. -/
def twins : Repository :=
  { Repository.ofParents [(⟨1⟩, []), (⟨2⟩, [⟨1⟩]), (⟨3⟩, []), (⟨4⟩, [⟨2⟩, ⟨3⟩])] with
    tags := .ok [.lightweight "refs/tags/a" ⟨2⟩, .lightweight "refs/tags/b" ⟨3⟩] }

def twinsRequest : Request := { name := "refs/heads/main", retention := .abbreviated, start := some ⟨4⟩ }

def twinsSession : Session where
  requests := [twinsRequest]

/-- What both of the twins become. -/
def twin : Commit := Repository.bare []

/-- What their merge becomes. -/
def mergedTwins : Commit := Repository.bare [twin.id]

def twinsEntries : List Ledger.Entry :=
  [⟨⟨1⟩, .drop []⟩, ⟨⟨2⟩, .keep ⟨twin.id, twin⟩⟩, ⟨⟨3⟩, .keep ⟨twin.id, twin⟩⟩,
    ⟨⟨4⟩, .keep ⟨mergedTwins.id, mergedTwins⟩⟩]

theorem twins_computed :
    twin.id ≠ mergedTwins.id ∧
    (Walk.turns twins (Retention.abbreviated.selection (member [⟨4⟩]) (member [⟨2⟩, ⟨3⟩])) 20
      ⟨{}, {⟨4⟩}, [⟨⟨4⟩, Repository.bare [⟨2⟩, ⟨3⟩], [⟨2⟩, ⟨3⟩]⟩]⟩).map
        (fun ended => (ended.1.entries.toList, ended.2.toOption)) = some (twinsEntries, some ()) := by
  decide +kernel

theorem contraction_of_twins :
    ∃ outcome progress tags published,
      (twins.run (twinsSession.execute (fun _ => false) 0)).2.2 = .ok outcome ∧
      twins.run (walks twinsSession.requests (fun _ => false) 0) = (progress, .ok tags) ∧
      Commit.CollisionFree progress.ledger.Replaces ∧
      progress.ledger.NewId ⟨2⟩ twin.id ∧ progress.ledger.NewId ⟨3⟩ twin.id ∧
      progress.ledger.NewId ⟨4⟩ mergedTwins.id ∧
      (twins.run (twinsSession.execute (fun _ => false) 0)).1.published = some published ∧
      Relation.TransGen published.Parent mergedTwins.id twin.id ∧
      ¬Relation.TransGen published.Parent twin.id twin.id := by
  obtain ⟨hne, hturns⟩ := twins_computed
  have hhead : twins.head twinsRequest = .ok ⟨4⟩ := rfl
  have hpeeled : twins.run (peeledTags 0) = .ok [⟨.lightweight "refs/tags/a" ⟨2⟩, [], ⟨2⟩⟩,
    ⟨.lightweight "refs/tags/b" ⟨3⟩, [], ⟨3⟩⟩] := rfl
  obtain ⟨progress, hrun, hsettled, hentries⟩ :=
    walks_of_turns (fun l => l.entries.toList) hhead hpeeled ⟨by rfl, rfl⟩ hturns
  have hrun : twins.run (walks twinsSession.requests (fun _ => false) 0) = (progress, .ok _) := hrun
  have houtcome := execute_of_walks (s := twinsSession) rfl hrun
  have hfind (id : ObjectId) (new : Replacement) (h : ⟨id, .keep new⟩ ∈ twinsEntries) :
      progress.ledger.find? id = some (.keep new) := (Ledger.find?_eq_some_iff hsettled.sound.indexed).2 (hentries ▸ h)
  have hkept : ∀ commit, progress.ledger.Replaces commit → commit = twin ∨ commit = mergedTwins := by
    rintro commit ⟨k, new, hkeep, rfl⟩
    have hmem := (Ledger.find?_eq_some_iff hsettled.sound.indexed).1 hkeep
    simp only [hentries, twinsEntries, List.mem_cons, List.not_mem_nil, or_false, Ledger.Entry.mk.injEq, Decision.keep.injEq,
      reduceCtorEq, and_false, false_or] at hmem
    rcases hmem with ⟨-, rfl⟩ | ⟨-, rfl⟩ | ⟨-, rfl⟩
    · exact .inl rfl
    · exact .inl rfl
    · exact .inr rfl
  -- The two commits that replace others have different digests.
  have hfree : Commit.CollisionFree progress.ledger.Replaces := by
    intro c d hc hd hdigest
    rcases hkept c hc with rfl | rfl <;> rcases hkept d hd with rfl | rfl
    · rfl
    · exact absurd (congrArg ObjectId.mk hdigest) hne
    · exact absurd (congrArg ObjectId.mk hdigest.symm) hne
    · rfl
  obtain ⟨progress', tags, published, hwalks, hpublished, -, -, -, hforward, -, hacyclic⟩ :=
    published_graph_contracts twins twinsSession (fun _ => false) 0 _ houtcome (by rw [hrun]; exact hfree)
  obtain ⟨rfl, -⟩ := Prod.mk.inj (hrun.symm.trans hwalks)
  have htwo : progress.ledger.NewId ⟨2⟩ twin.id := ⟨_, hfind ⟨2⟩ ⟨twin.id, twin⟩ (by simp [twinsEntries]), rfl⟩
  have hthree : progress.ledger.NewId ⟨3⟩ twin.id := ⟨_, hfind ⟨3⟩ ⟨twin.id, twin⟩ (by simp [twinsEntries]), rfl⟩
  have hfour : progress.ledger.NewId ⟨4⟩ mergedTwins.id :=
    ⟨_, hfind ⟨4⟩ ⟨mergedTwins.id, mergedTwins⟩ (by simp [twinsEntries]), rfl⟩
  have hparent : twins.Parent ⟨4⟩ ⟨2⟩ := ⟨Repository.bare [⟨2⟩, ⟨3⟩], rfl, by simp [Repository.bare]⟩
  exact ⟨_, progress, _, published, houtcome, hrun, hfree, htwo, hthree, hfour, hpublished,
    hforward _ _ _ _ hfour htwo (.single hparent), hacyclic twin.id⟩

end Publication

end PrunedHistory
