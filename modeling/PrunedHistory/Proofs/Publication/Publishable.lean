import PrunedHistory.Proofs.Publication.Requests
import PrunedHistory.Proofs.Publication.Unwrapping
import PrunedHistory.Proofs.Walk.Failures

/-! What a publication reads

    A publication reads the starts of its requests, the tags with the tag objects behind them, and every commit that a
    start reaches. Here is what has to hold of these for it to succeed, and what is to blame for a failure; the two
    exclude each other. -/

namespace PrunedHistory

/-- All that a publication of the requests reads can be read, and none of the commits is its own ancestor. -/
structure Repository.Publishable (r : Repository) (requests : List Request) : Prop where
  resolves : ∀ q ∈ requests, q.start = none → ∃ id, r.resolve q.name = .ok id
  tags : r.UnwrapsTags
  loads : ∀ q ∈ requests, ∀ id, r.Covers q id → ∃ commit, r.Loads id commit
  acyclic : ∀ q ∈ requests, ∀ id, r.Covers q id → ¬r.Descends id id

/-- What a publication of the requests met when it failed: a name that does not resolve, or what is to blame among the
    tags or in the history of a branch. -/
inductive Repository.BlamesRequests (r : Repository) (requests : List Request) : PublicationError → Prop where
  | start {q : Request} {reason : ReadError} : q ∈ requests → r.head q = .error reason →
    BlamesRequests r requests (.read reason)
  | tags {reason : ReadError} : r.BlamesTags reason → BlamesRequests r requests (.read reason)
  | branch {q : Request} {head : ObjectId} {reason : WalkError} : q ∈ requests → r.head q = .ok head →
    r.Blames head reason → BlamesRequests r requests (.walk reason)

namespace Repository

variable {r : Repository} {requests others : List Request} {q : Request} {head : ObjectId} {e : PublicationError}

/-- Only a request without a start has to be resolved. -/
theorem exists_head_iff : (∃ head, r.head q = .ok head) ↔ (q.start = none → ∃ id, r.resolve q.name = .ok id) := by
  rw [Repository.head]
  cases q.start <;> simp

theorem Publishable.whole (h : r.Publishable requests) (hq : q ∈ requests) (hhead : r.head q = .ok head) :
    r.Whole head where
  loads id hid := h.loads q hq id ⟨head, hhead, hid⟩
  acyclic id hid := h.acyclic q hq id ⟨head, hhead, hid⟩

theorem publishable_of_whole (hheads : ∀ q ∈ requests, ∃ head, r.head q = .ok head ∧ r.Whole head)
    (htags : r.UnwrapsTags) : r.Publishable requests := by
  -- The head of a request is the one whose history is whole.
  have hcovers : ∀ q ∈ requests, ∀ id, r.Covers q id → ∃ head, r.Whole head ∧ r.Reaches head id := by
    rintro q hq id ⟨head, hhead, hreach⟩
    obtain ⟨head', hhead', hwhole⟩ := hheads q hq
    obtain rfl := Except.ok.inj (hhead'.symm.trans hhead)
    exact ⟨head', hwhole, hreach⟩
  refine ⟨fun q hq => ?resolves, htags, fun q hq id hid => ?loads, fun q hq id hid => ?acyclic⟩
  case resolves =>
    obtain ⟨head, hhead, -⟩ := hheads q hq
    exact exists_head_iff.1 ⟨head, hhead⟩
  case loads =>
    obtain ⟨head, hwhole, hreach⟩ := hcovers q hq id hid
    exact hwhole.loads id hreach
  case acyclic =>
    obtain ⟨head, hwhole, hreach⟩ := hcovers q hq id hid
    exact hwhole.acyclic id hreach

theorem Publishable.not_blames (h : r.Publishable requests) : ¬r.BlamesRequests requests e := by
  intro hblames
  cases hblames with
  | start hq hhead =>
    obtain ⟨head, hhead'⟩ := exists_head_iff.2 (h.resolves _ hq)
    rw [hhead] at hhead'
    cases hhead'
  | tags hblames => exact h.tags.not_blames hblames
  | branch hq hhead hblames => exact (h.whole hq hhead).not_blames hblames

theorem BlamesRequests.not_isLedger (h : r.BlamesRequests requests e) : ¬e.IsLedger := by
  cases h with
  | start _ _ | tags _ => exact fun h => h
  | @branch q head reason _ _ hblames =>
    cases reason with
    | ledger _ => exact hblames.elim
    | read _ | cycle _ => exact fun h => h

/-- Neither the order of the requests nor their retentions make a difference. -/
theorem Publishable.of_same_starts (h : r.Publishable requests)
    (hsame : ∀ q ∈ others, ∃ q' ∈ requests, (q.name, q.start) = (q'.name, q'.start)) : r.Publishable others := by
  -- How a request is resolved depends on its name and start alone.
  have hlike : ∀ q ∈ others, ∃ q' ∈ requests, q.name = q'.name ∧ q.start = q'.start ∧ r.head q = r.head q' := by
    intro q hq
    obtain ⟨q', hq', heq⟩ := hsame q hq
    obtain ⟨hname, hstart⟩ := Prod.mk.inj heq
    exact ⟨q', hq', hname, hstart, by rw [Repository.head, Repository.head, hname, hstart]⟩
  refine ⟨fun q hq hstart => ?resolves, h.tags, fun q hq id hid => ?loads, fun q hq id hid => ?acyclic⟩
  case resolves =>
    obtain ⟨q', hq', hname, hstart', -⟩ := hlike q hq
    exact hname ▸ h.resolves q' hq' (hstart'.symm.trans hstart)
  case loads =>
    obtain ⟨q', hq', -, -, hhead⟩ := hlike q hq
    exact h.loads q' hq' id (by rwa [Covers, ← hhead])
  case acyclic =>
    obtain ⟨q', hq', -, -, hhead⟩ := hlike q hq
    exact h.acyclic q' hq' id (by rwa [Covers, ← hhead])

theorem publishable_iff_of_perm
    (hperm : (others.map fun q => (q.name, q.start)).Perm (requests.map fun q => (q.name, q.start))) :
    r.Publishable others ↔ r.Publishable requests := by
  have hsame : ∀ {requests others : List Request},
      (others.map fun q => (q.name, q.start)).Perm (requests.map fun q => (q.name, q.start)) →
      ∀ q ∈ others, ∃ q' ∈ requests, (q.name, q.start) = (q'.name, q'.start) := by
    intro requests others hperm q hq
    obtain ⟨q', hq', heq⟩ := List.mem_map.1 (hperm.subset (List.mem_map_of_mem hq))
    exact ⟨q', hq', heq.symm⟩
  exact ⟨fun h => h.of_same_starts (hsame hperm.symm), fun h => h.of_same_starts (hsame hperm)⟩

end Repository

end PrunedHistory
