import PrunedHistory.Proofs.Dialogues
import PrunedHistory.Publication.Session

/-! Limits

    A limit decides nothing but where a run is stopped. The work on a greater limit asks the same questions and goes on
    only where the work on the smaller one stops, by induction on the smaller limit for one tag and then through all
    that is built on it. Main statements: a publication that is not stopped is the same on every greater limit, and any
    two that are not stopped are one. -/

namespace PrunedHistory

open Dialogue (Continues)

variable {limit more : Nat}

namespace PeeledTag

theorem follow_continues : ∀ {limit more : Nat}, limit ≤ more → ∀ id,
    Continues (· = .error .atLimit) (follow limit id) (follow more id)
  | 0, _, _, _ => .stopped rfl
  | limit + 1, more + 1, hle, id => by
      rw [follow, follow]
      refine .after _ fun answer => ?_
      cases answer with
      | error e => exact .refl _
      | ok tag =>
        dsimp only
        cases tag.kind with
        | commit | tree | blob => exact .refl _
        | tag =>
          -- Either the rest is stopped, and so is the whole, or both read the same on.
          refine (follow_continues (Nat.le_of_succ_le_succ hle) tag.object).bind ?_ fun found => .refl _
          rintro _ rfl
          exact ⟨_, rfl, rfl⟩

theorem ofRef_continues (hle : limit ≤ more) : ∀ tag : TagRef,
    Continues (· = .error .atLimit) (ofRef limit tag) (ofRef more tag)
  | .lightweight _ _ => .refl _
  | .annotated _ id => by
      refine (follow_continues hle id).bind ?_ fun found => .refl _
      rintro _ rfl
      exact ⟨_, rfl, rfl⟩

theorem ofRefs_continues (hle : limit ≤ more) : ∀ refs : List TagRef,
    Continues (· = .error .atLimit) (ofRefs limit refs) (ofRefs more refs)
  | [] => .refl _
  | tag :: rest => by
      refine (ofRef_continues hle tag).bind ?_ fun first => ?_
      · rintro _ rfl
        exact ⟨_, rfl, rfl⟩
      · cases first with
        | error stop => exact .refl _
        | ok peeled =>
          refine (ofRefs_continues hle rest).bind ?_ fun others => .refl _
          rintro _ rfl
          exact ⟨_, rfl, rfl⟩

end PeeledTag

namespace Publication

variable {r : Repository} {requests : List Request} {cancelled : List Event → Bool}

theorem peeledTags_continues (hle : limit ≤ more) :
    Continues (· = .error .atLimit) (peeledTags limit) (peeledTags more) := by
  refine .after _ fun answer => ?_
  cases answer with
  | error e => exact .refl _
  | ok refs => exact PeeledTag.ofRefs_continues hle refs

theorem walks_continues (hle : limit ≤ more) (requests : List Request) (cancelled : List Event → Bool) :
    Continues (·.2 = .error .atLimit) (walks requests cancelled limit) (walks requests cancelled more) := by
  refine .after _ fun heads => ?_
  cases heads with
  | error e => exact .refl _
  | ok heads =>
    refine (peeledTags_continues hle).bind ?_ fun tags => .refl _
    rintro _ rfl
    exact ⟨_, rfl, rfl⟩

theorem run_continues (hle : limit ≤ more) (requests : List Request) (cancelled : List Event → Bool) :
    Continues (·.2 = .error .atLimit) (run requests cancelled limit) (run requests cancelled more) := by
  refine (walks_continues hle requests cancelled).bind ?_ fun left => .refl _
  rintro ⟨progress, _⟩ rfl
  exact ⟨_, rfl, rfl⟩

end Publication

namespace Session

variable {r : Repository} {s : Session} {cancelled : List Event → Bool}

theorem execute_continues (hle : limit ≤ more) (s : Session) (cancelled : List Event → Bool) :
    Continues (·.2.2 = .error .atLimit) (s.execute cancelled limit) (s.execute cancelled more) := by
  rw [execute, execute]
  split
  · exact .refl _
  · refine (Publication.run_continues hle s.requests cancelled).bind ?_ fun left => .refl _
    rintro ⟨events, _⟩ rfl
    exact ⟨_, rfl, rfl⟩

/-- A publication that is not stopped is the same on every greater limit. -/
theorem run_execute_of_le (hle : limit ≤ more) (hends : (r.run (s.execute cancelled limit)).2.2 ≠ .error .atLimit) :
    r.run (s.execute cancelled more) = r.run (s.execute cancelled limit) :=
  (execute_continues hle s cancelled).run_eq hends

end Session

namespace Publication

variable {r : Repository} {tags tags' : List PeeledTag}

/-- Tags that are peeled on two limits are the same. -/
theorem peeledTags_unique {limit limit' : Nat} (h : r.run (peeledTags limit) = .ok tags)
    (h' : r.run (peeledTags limit') = .ok tags') : tags = tags' := by
  have hunique : ∀ {limit limit' : Nat} {tags tags' : List PeeledTag}, limit ≤ limit' →
      r.run (peeledTags limit) = .ok tags → r.run (peeledTags limit') = .ok tags' → tags = tags' := by
    intro limit limit' tags tags' hle h h'
    have hends : r.run (peeledTags limit) ≠ .error .atLimit := by
      rw [h]
      exact fun he => nomatch he
    have hsame : r.run (peeledTags limit') = r.run (peeledTags limit) := (peeledTags_continues hle).run_eq hends
    rw [h, h'] at hsame
    exact (Except.ok.inj hsame).symm
  rcases Nat.le_total limit limit' with hle | hle
  · exact hunique hle h h'
  · exact (hunique hle h' h).symm

end Publication

end PrunedHistory
