import PrunedHistory.Proofs.Walk.Failures
import PrunedHistory.Proofs.Walk.Slots

/-! Walks that are taken up again

    A walk that fails leaves the commits that it had settled, each with its whole ancestry. A second walk passes over
    these and over nothing else that the first one came to: the commits on the way down to the failure are not
    recorded, so it enters them again in the same order. Main statement: over a repository that loads whatever the first
    one did, a walk from what the failed one left ends as the walk from the start does, with the same ledger. -/

namespace PrunedHistory.Walk

variable {r r' : Repository} {select : Selection} {l : Ledger} {id parent : ObjectId} {path parents : List ObjectId}
  {e : WalkError}

/-- Settling a commit asks nothing of a repository. -/
theorem run_conclude (r r' : Repository) (select : Selection) (l : Ledger) (id : ObjectId) (commit : Commit) :
    r'.run (conclude select l id commit) = r.run (conclude select l id commit) := by
  rw [conclude]
  cases settle select l id commit <;> rfl

/-! ### Taking up what failed -/

/-- How the same work goes over another repository: where it ended well it ends so again, and where it failed it comes
    to the same from what was left and from the start. -/
structure Resumes (l : Ledger) (left : Ledger × Except WalkError Unit)
    (again : Ledger → Ledger × Except WalkError Unit) : Prop where
  done : left.2 = .ok () → again l = left
  failed : ∀ e, left.2 = .error e → again left.1 = again l

/-- The visit of a commit is taken up again over the second repository. -/
abbrev VisitResumes (r r' : Repository) (select : Selection) (path : List ObjectId) (l : Ledger) (id : ObjectId) : Prop :=
  Resumes l (r.run (visit select path l id)) fun l => r'.run (visit select path l id)

abbrev ParentsResume (r r' : Repository) (select : Selection) (path : List ObjectId) (l : Ledger)
    (parents : List ObjectId) : Prop :=
  Resumes l (r.run (visitParents select path l parents)) fun l => r'.run (visitParents select path l parents)

variable {again : Ledger → Ledger × Except WalkError Unit}

theorem Resumes.nothing (h : again l = (l, .ok ())) : Resumes l (l, .ok ()) again where
  done _ := h
  failed _ he := by cases he

/-- Work that fails before anything is settled leaves what it started from. -/
theorem Resumes.at_once : Resumes l (l, .error e) again where
  done h := by cases h
  failed _ _ := rfl

/-- A commit that loads alike is taken up again if its parents are. Where one of these fails, the commit is not settled,
    so that it is entered again; once all of them are visited it cannot fail any more. -/
theorem VisitResumes.of_parents {commit : Commit} (hl : l.Indexed) (hnew : id ∉ l.commits)
    (hload : r.run (load id) = .ok commit) (hload' : r'.run (load id) = .ok commit)
    (hparents : ParentsResume r r' select (id :: path) l commit.parents) : VisitResumes r r' select path l id := by
  have hleaves := (leaves_visits r select).2 (id :: path) l commit.parents hl
  rw [VisitResumes, run_visit_new r select path hl hnew, hload]
  dsimp only
  rcases hleft : r.run (visitParents select (id :: path) l commit.parents) with ⟨left, e | _⟩
  · rw [ParentsResume, hleft] at hparents
    rw [hleft] at hleaves
    -- The commit was still to be settled when a parent failed, so the second visit enters it as the first did.
    have haside : id ∉ left.commits := hleaves.aside id (by simp) hnew
    refine ⟨nofun, fun _ _ => ?_⟩
    simp only [run_visit_new r' select path (hleaves.grows.indexed hl) haside, run_visit_new r' select path hl hnew,
      hload', hparents.failed e rfl]
  · rw [ParentsResume, hleft] at hparents
    rw [hleft] at hleaves
    obtain ⟨after, hs⟩ := hleaves.exists_settle hl hnew
    refine ⟨fun _ => ?_, fun e he => ?_⟩
    · simp only [run_visit_new r' select path hl hnew, hload', hparents.done rfl]
      exact run_conclude ..
    · -- Once its parents are visited, the commit can be settled.
      simp only [conclude, hs, Repository.run_done] at he
      cases he

/-- A recorded parent is passed over, at the start and ever after. -/
theorem ParentsResume.passed (hl : l.Indexed) (hin : parent ∈ l.commits)
    (h : ParentsResume r r' select path l parents) : ParentsResume r r' select path l (parent :: parents) := by
  have hleaves := (leaves_visits r select).2 path l parents hl
  rw [ParentsResume, visitParents_recorded select path parents hl hin]
  refine ⟨fun hok => ?_, fun e he => ?_⟩
  · rw [visitParents_recorded select path parents hl hin, h.done hok]
  · rw [visitParents_recorded select path parents hl hin, visitParents_recorded select path parents
      (hleaves.grows.indexed hl) (hleaves.grows.commits_subset hin), h.failed e he]

/-- The first parent is visited, and the others from what it leaves. Where one of these fails, the first is settled and
    is passed over. -/
theorem ParentsResume.cons (hl : l.Indexed) (hnew : parent ∉ l.commits) (hpath : parent ∉ path)
    (hfirst : VisitResumes r r' select path l parent)
    (hrest : ∀ left, left.Indexed → ParentsResume r r' select path left parents) :
    ParentsResume r r' select path l (parent :: parents) := by
  have hleaves := (leaves_visits r select).1 path l parent hl hpath
  rw [ParentsResume, run_visitParents_new r select parents hl hnew hpath]
  rcases hleft : r.run (visit select path l parent) with ⟨left, e | _⟩
  · rw [VisitResumes, hleft] at hfirst
    rw [hleft] at hleaves
    have haside : parent ∉ left.commits := not_mem_of_visit_error hl hleft
    refine ⟨nofun, fun _ _ => ?_⟩
    simp only [run_visitParents_new r' select parents (hleaves.grows.indexed hl) haside hpath,
      run_visitParents_new r' select parents hl hnew hpath, hfirst.failed e rfl]
  · rw [VisitResumes, hleft] at hfirst
    rw [hleft] at hleaves
    have hl' := hleaves.grows.indexed hl
    have hmore := (leaves_visits r select).2 path left parents hl'
    have hsettled : parent ∈ left.commits := hleaves.settled rfl parent (by simp)
    -- The first parent ends as it did, so the second repository goes on with the others from the same ledger.
    have hstart : r'.run (visitParents select path l (parent :: parents))
        = r'.run (visitParents select path left parents) := by
      rw [run_visitParents_new r' select parents hl hnew hpath, hfirst.done rfl]
    refine ⟨fun hok => ?_, fun e he => ?_⟩
    · rw [hstart, (hrest left hl').done hok]
    · rw [hstart, visitParents_recorded select path parents (hmore.grows.indexed hl')
        (hmore.grows.commits_subset hsettled), (hrest left hl').failed e he]

/-- Visits are taken up again, by induction over the calls. What had been settled when one of them failed is what the
    visits before it settle, and these end alike over both repositories. -/
theorem visits_resume (select : Selection) (hloads : ∀ id commit, r.Loads id commit → r'.Loads id commit) :
    (∀ path l id, l.Indexed → id ∉ path → VisitResumes r r' select path l id) ∧
    ∀ path l parents, l.Indexed → ParentsResume r r' select path l parents := by
  refine visit.mutual_induct _ _ ?recorded ?read ?none ?passed ?cycle ?next
  case recorded =>
    intro path l id hin _ _
    rw [VisitResumes, visit, if_pos hin]
    refine .nothing ?_
    rw [visit, if_pos hin]
    rfl
  case read =>
    intro path l id hin ih hl hpath
    have hnew : id ∉ l.commits := mt (Ledger.contains_iff_mem_commits hl).2 hin
    rcases loads_or_fails r id with ⟨commit, hrun, hload⟩ | ⟨e, hrun⟩
    · exact .of_parents hl hnew hrun (run_load_of_loads (hloads id commit hload)) (ih commit hl)
    · rw [VisitResumes, run_visit_new r select path hl hnew, hrun]
      exact .at_once
  case none =>
    intro path l _
    rw [ParentsResume, visitParents]
    refine .nothing ?_
    rw [visitParents]
    rfl
  case passed =>
    intro path l parent parents hin ih hl
    exact .passed hl ((Ledger.contains_iff_mem_commits hl).1 hin) (ih hl)
  case cycle =>
    intro path l parent parents hin hpath _
    rw [ParentsResume, visitParents, if_neg hin, if_pos hpath]
    exact .at_once
  case next =>
    intro path l parent parents hin hpath ih₁ ih₂ hl
    have hpath : parent ∉ path := by simpa using hpath
    exact .cons hl (mt (Ledger.contains_iff_mem_commits hl).2 hin) hpath (ih₁ hl hpath) ih₂

/-- A walk that failed can be taken up again: over a repository that loads whatever the first one loads, and loads it
    alike, a walk from the ledger that was left ends as the walk from the first ledger does and leaves the same entries
    in the same order. Over the same repository it fails with the same error and records nothing more. -/
theorem failed_walk_resumes (r r' : Repository) (hloads : ∀ id commit, r.Loads id commit → r'.Loads id commit)
    (select : Selection) (l : Ledger) (hl : l.Recorded) (head : ObjectId) (left : Ledger) (e : WalkError)
    (hrun : r.run (run select l head) = (left, .error e)) :
    r'.run (run select left head) = r'.run (run select l head) ∧
    r.run (run select left head) = (left, .error e) := by
  have hresumed : ∀ {r' : Repository}, (∀ id commit, r.Loads id commit → r'.Loads id commit) →
      r'.run (run select left head) = r'.run (run select l head) := by
    intro r' hloads
    have hvisit := (visits_resume select hloads).1 [] l head hl.indexed (by simp)
    rw [VisitResumes, visit_error_of_run hl.indexed hrun] at hvisit
    rw [run_eq_visit, run_eq_visit, hvisit.failed e rfl]
  exact ⟨hresumed hloads, (hresumed fun _ _ hload => hload).trans hrun⟩

/-- The torn history with what was missing. -/
def mendedTorn : Repository := .ofParents [(⟨1⟩, []), (⟨2⟩, [⟨1⟩, ⟨9⟩]), (⟨9⟩, [⟨1⟩])]

/-- The call that failed is repeated: over the mended history it goes on with the missing parent, and over the torn one
    it fails as before. -/
theorem torn_walk_resumes :
    torn.run (run (fun _ _ _ => true) {} ⟨2⟩) = (tornLedger, .error (.read (.missingObject ⟨9⟩))) ∧
    (∀ id commit, torn.Loads id commit → mendedTorn.Loads id commit) ∧
    torn.run (run (fun _ _ _ => true) tornLedger ⟨2⟩) = (tornLedger, .error (.read (.missingObject ⟨9⟩))) ∧
    ∃ left xs, mendedTorn.run (run (fun _ _ _ => true) tornLedger ⟨2⟩) = (left, .ok xs) ∧
      left.commits = [⟨1⟩, ⟨9⟩, ⟨2⟩] := by
  have hturns : (turns torn (fun _ _ _ => true) 5
      ⟨{}, {⟨2⟩}, [⟨⟨2⟩, Repository.bare [⟨1⟩, ⟨9⟩], [⟨1⟩, ⟨9⟩]⟩]⟩).map (·.2)
        = some (.error (.read (.missingObject ⟨9⟩))) := by
    rfl
  obtain ⟨⟨left, ended⟩, hturns, rfl⟩ := Option.map_eq_some_iff.1 hturns
  have hrun : torn.run (run (fun _ _ _ => true) {} ⟨2⟩) = (tornLedger, .error (.read (.missingObject ⟨9⟩))) := by
    have hfails : (torn.run (run (fun _ _ _ => true) {} ⟨2⟩)).2 = .error (.read (.missingObject ⟨9⟩)) := by
      rw [run_eq_visit, run_visit_of_turns Ledger.contains_empty ⟨by rfl, rfl⟩ hturns]
    exact Prod.ext rfl hfails
  have hloads : ∀ id commit, torn.Loads id commit → mendedTorn.Loads id commit := by
    rintro id commit ⟨hread, -⟩
    refine ⟨?_, rfl⟩
    have hall : ∀ id ∈ [(⟨1⟩ : ObjectId), ⟨2⟩], mendedTorn.commit id = torn.commit id := by
      intro id hid
      rcases List.mem_pair.1 hid with rfl | rfl <;> rfl
    rw [hall id (Repository.mem_of_ofParents hread), hread]
  have hmended : (turns mendedTorn (fun _ _ _ => true) 10
      ⟨{}, {⟨2⟩}, [⟨⟨2⟩, Repository.bare [⟨1⟩, ⟨9⟩], [⟨1⟩, ⟨9⟩]⟩]⟩).map (fun ended => (ended.1.commits, ended.2))
        = some ([⟨1⟩, ⟨9⟩, ⟨2⟩], .ok ()) := by
    rfl
  obtain ⟨⟨whole, ended⟩, hmended, hpair⟩ := Option.map_eq_some_iff.1 hmended
  obtain ⟨hcommits, rfl⟩ := Prod.mk.inj hpair
  obtain ⟨xs, hwhole⟩ := run_of_turns Ledger.indexed_empty Ledger.contains_empty ⟨by rfl, rfl⟩ hmended
  obtain ⟨hresumed, hrepeated⟩ := failed_walk_resumes torn mendedTorn hloads _ {} .empty _ _ _ hrun
  exact ⟨hrun, hloads, hrepeated, whole, xs, hresumed.trans hwhole, hcommits⟩

end PrunedHistory.Walk
