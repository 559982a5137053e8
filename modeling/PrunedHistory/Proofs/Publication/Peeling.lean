import Mathlib.Data.List.Forall2
import PrunedHistory.Publication.Run

/-! Where tags lead

    A listed tag leads to a commit straight or through tag objects, each of which has the next one as its object. Main
    statement: if peeling succeeds, it gives just the listed tags that lead to commits, each with its way. -/

namespace PrunedHistory

/-- The tag objects from an id inwards, and the commit that the innermost one tags. -/
inductive Repository.LeadsTo (r : Repository) : ObjectId → List Tag → ObjectId → Prop where
  | last {id : ObjectId} {tag : Tag} : r.tag id = .ok tag → tag.kind = .commit → LeadsTo r id [tag] tag.object
  | next {id commit : ObjectId} {tag : Tag} {chain : List Tag} : r.tag id = .ok tag → tag.kind = .tag →
    LeadsTo r tag.object chain commit → LeadsTo r id (tag :: chain) commit

/-- From one id there is one way only. -/
theorem Repository.LeadsTo.unique {r : Repository} {id commit target : ObjectId} {chain other : List Tag}
    (h : r.LeadsTo id chain commit) (h' : r.LeadsTo id other target) : chain = other ∧ commit = target := by
  induction h generalizing other target with
  | @last id tag ht hk =>
    cases h' with
    | last ht' _ =>
      obtain rfl := Except.ok.inj (ht.symm.trans ht')
      exact ⟨rfl, rfl⟩
    | next ht' hk' _ =>
      obtain rfl := Except.ok.inj (ht.symm.trans ht')
      rw [hk] at hk'
      cases hk'
  | @next id commit tag chain ht hk _ ih =>
    cases h' with
    | last ht' hk' =>
      obtain rfl := Except.ok.inj (ht.symm.trans ht')
      rw [hk] at hk'
      cases hk'
    | next ht' _ hrest =>
      obtain rfl := Except.ok.inj (ht.symm.trans ht')
      obtain ⟨rfl, rfl⟩ := ih hrest
      exact ⟨rfl, rfl⟩

/-- Under the id there is a tag object on the same object as the given one, of the same kind. -/
def Repository.HasTag (r : Repository) (id : ObjectId) (tag : Tag) : Prop :=
  ∃ found, r.tag id = .ok found ∧ found.object = tag.object ∧ found.kind = tag.kind

theorem Repository.LeadsTo.exists_tag {r : Repository} {id commit : ObjectId} {chain : List Tag}
    (h : r.LeadsTo id chain commit) : ∃ tag, r.tag id = .ok tag := by
  cases h with
  | last ht _ | next ht _ _ => exact ⟨_, ht⟩

/-- A way is carried over to other places, if at the place of each of its tag objects there is one like it that is on
    the next place. -/
theorem Repository.LeadsTo.carried {r r' : Repository} {id commit : ObjectId} {chain : List Tag}
    (place : ObjectId → List Tag → ObjectId) (Like : Tag → Tag → Prop) (h : r.LeadsTo id chain commit)
    (hlike : ∀ id t inner, r.tag id = .ok t → t :: inner <:+ chain → ∃ found,
      r'.tag (place id (t :: inner)) = .ok found ∧ found.object = place t.object inner ∧ found.kind = t.kind ∧
      Like t found) :
    ∃ chain', r'.LeadsTo (place id chain) chain' (place commit []) ∧ List.Forall₂ Like chain chain' := by
  induction h with
  | @last id t ht hkind =>
    obtain ⟨found, hfound, hobject, hkind', hlike⟩ := hlike id t [] ht List.suffix_rfl
    rw [← hobject]
    exact ⟨[found], .last hfound (hkind'.trans hkind), .cons hlike .nil⟩
  | @next id commit t chain ht hkind _ ih =>
    obtain ⟨found, hfound, hobject, hkind', hfirst⟩ := hlike id t chain ht List.suffix_rfl
    -- What holds of the inner part of a chain was asked of the whole chain, of which it is a suffix.
    obtain ⟨chain', hrest, hall⟩ := ih fun id u inner hu hsuffix =>
      hlike id u inner hu (hsuffix.trans (List.suffix_cons ..))
    rw [← hobject] at hrest
    exact ⟨found :: chain', .next hfound (hkind'.trans hkind) hrest, .cons hfirst hall⟩

/-- Where there are such tag objects under the same ids, there is a way of the same length to the same commit. -/
theorem Repository.LeadsTo.exists_leadsTo {r r' : Repository} {id commit : ObjectId} {chain : List Tag}
    (htags : ∀ id tag, r.tag id = .ok tag → r'.HasTag id tag) (h : r.LeadsTo id chain commit) :
    ∃ chain', r'.LeadsTo id chain' commit ∧ chain'.length = chain.length := by
  obtain ⟨chain', hleads, hlike⟩ := h.carried (fun id _ => id) (fun _ _ => True) fun id t inner ht _ => by
    obtain ⟨found, hfound, hobject, hkind⟩ := htags id t ht
    exact ⟨found, hfound, hobject, hkind, trivial⟩
  exact ⟨chain', hleads, hlike.length_eq.symm⟩

/-- The way from a listed tag to its commit. -/
inductive Repository.Peels (r : Repository) : TagRef → List Tag → ObjectId → Prop where
  | lightweight {name : String} {target : ObjectId} : Peels r (.lightweight name target) [] target
  | annotated {name : String} {id commit : ObjectId} {chain : List Tag} : r.LeadsTo id chain commit →
    Peels r (.annotated name id) chain commit

/-- The error is one of the ledger, met in a walk or after it. -/
def PublicationError.IsLedger : PublicationError → Prop
  | .ledger _ | .walk (.ledger _) => True
  | _ => False

namespace PeeledTag

variable {r : Repository} {limit : Nat} {id commit : ObjectId} {chain : List Tag}

theorem run_follow_zero (r : Repository) (id : ObjectId) : r.run (follow 0 id) = .error .atLimit := rfl

theorem run_follow_succ (r : Repository) (limit : Nat) (id : ObjectId) :
    r.run (follow (limit + 1) id) =
      match r.tag id with
      | .error e => .error (.failed (.read e))
      | .ok tag =>
        match tag.kind with
        | .commit => .ok (some ([tag], tag.object))
        | .tag => (r.run (follow limit tag.object)).map (Option.map fun (chain, commit) => (tag :: chain, commit))
        | _ => .ok none := by
  rw [follow, Repository.run_bind, Repository.run_question, Repository.answer]
  cases r.tag id with
  | error e => rfl
  | ok tag =>
    simp only
    cases tag.kind with
    | commit => rfl
    | tree => rfl
    | blob => rfl
    | tag => rw [Repository.run_bind, Repository.run_done]

/-- What one tag object adds to a peeling that succeeds. -/
theorem follow_ok_cases {found : Option (List Tag × ObjectId)} (h : r.run (follow limit id) = .ok found) :
    ∃ rest tag, limit = rest + 1 ∧ r.tag id = .ok tag ∧
      ((tag.kind = .commit ∧ found = some ([tag], tag.object)) ∨
       (tag.kind = .tag ∧ ∃ inner, r.run (follow rest tag.object) = .ok inner ∧
          found = inner.map fun (chain, commit) => (tag :: chain, commit)) ∨
       (tag.kind ≠ .commit ∧ tag.kind ≠ .tag ∧ found = none)) := by
  cases limit with
  | zero =>
    rw [run_follow_zero] at h
    cases h
  | succ rest =>
    rw [run_follow_succ] at h
    cases ht : r.tag id with
    | error e =>
      rw [ht] at h
      cases h
    | ok tag =>
      rw [ht] at h
      refine ⟨rest, tag, rfl, rfl, ?_⟩
      cases hk : tag.kind with
      | commit =>
        simp only [hk, Except.ok.injEq] at h
        exact .inl ⟨rfl, h.symm⟩
      | tag =>
        cases hi : r.run (follow rest tag.object) with
        | error e =>
          simp only [hk, hi] at h
          cases h
        | ok inner =>
          simp only [hk, hi] at h
          exact .inr (.inl ⟨rfl, inner, rfl, (Except.ok.inj h).symm⟩)
      -- Other kinds end the chain, and there is no commit.
      | tree | blob =>
        simp only [hk, Except.ok.injEq] at h
        exact .inr (.inr ⟨by simp, by simp, h.symm⟩)

/-- What is followed is a way to a commit, and not longer than the limit. -/
theorem leadsTo_of_follow : ∀ {chain : List Tag} {limit : Nat} {id : ObjectId},
    r.run (follow limit id) = .ok (some (chain, commit)) → r.LeadsTo id chain commit ∧ chain.length ≤ limit
  | [], limit, id, h => by
      obtain ⟨rest, tag, -, -, ⟨-, hfound⟩ | ⟨-, inner, -, hfound⟩ | ⟨-, -, hfound⟩⟩ := follow_ok_cases h
      · cases hfound
      · cases inner <;> cases hfound
      · cases hfound
  | first :: rest, limit, id, h => by
      obtain ⟨less, tag, rfl, ht, ⟨hk, hfound⟩ | ⟨hk, inner, hinner, hfound⟩ | ⟨-, -, hfound⟩⟩ := follow_ok_cases h
      · cases hfound
        exact ⟨.last ht hk, Nat.le_add_left 1 less⟩
      · rcases inner with _ | ⟨chain, target⟩
        · cases hfound
        · cases hfound
          obtain ⟨hleads, hlength⟩ := leadsTo_of_follow hinner
          exact ⟨.next ht hk hleads, Nat.succ_le_succ hlength⟩
      · cases hfound

/-- The way is unique, so a peeling that succeeds finds it. -/
theorem follow_of_leadsTo (h : r.LeadsTo id chain commit) : ∀ {limit : Nat} {found : Option (List Tag × ObjectId)},
    r.run (follow limit id) = .ok found → found = some (chain, commit) := by
  induction h with
  | @last id tag ht hk =>
    intro limit found hfound
    obtain ⟨rest, tag', -, ht', hcases⟩ := follow_ok_cases hfound
    obtain rfl : tag = tag' := Except.ok.inj (ht.symm.trans ht')
    rcases hcases with ⟨-, hfound⟩ | ⟨hk', -⟩ | ⟨hk', -⟩
    · exact hfound
    · rw [hk] at hk'
      cases hk'
    · exact absurd hk hk'
  | @next id commit tag chain ht hk _ ih =>
    intro limit found hfound
    obtain ⟨rest, tag', -, ht', hcases⟩ := follow_ok_cases hfound
    obtain rfl : tag = tag' := Except.ok.inj (ht.symm.trans ht')
    rcases hcases with ⟨hk', -⟩ | ⟨-, inner, hinner, hfound⟩ | ⟨-, hk', -⟩
    · rw [hk] at hk'
      cases hk'
    · rw [hfound, ih hinner]
      rfl
    · exact absurd hk hk'

theorem ofRef_ok_iff {tag : TagRef} {peeled : Option PeeledTag} (h : r.run (ofRef limit tag) = .ok peeled) (p : PeeledTag) :
    peeled = some p ↔ p.tag = tag ∧ r.Peels p.tag p.chain p.commit := by
  cases tag with
  | lightweight name target =>
    rw [ofRef] at h
    cases h
    constructor
    · rintro ⟨⟩
      exact ⟨rfl, .lightweight⟩
    · rcases p with ⟨tag, chain, commit⟩
      rintro ⟨rfl, hpeels⟩
      change r.Peels (.lightweight name target) chain commit at hpeels
      cases hpeels
      rfl
  | annotated name id =>
    rw [ofRef, Repository.run_bind, Repository.run_done] at h
    cases hf : r.run (follow limit id) with
    | error e =>
      rw [hf] at h
      cases h
    | ok found =>
      rw [hf] at h
      cases h
      constructor
      · intro hp
        rcases found with _ | ⟨chain, commit⟩
        · cases hp
        · cases hp
          exact ⟨rfl, .annotated (leadsTo_of_follow hf).1⟩
      · rcases p with ⟨tag, chain, commit⟩
        rintro ⟨rfl, hpeels⟩
        change r.Peels (.annotated name id) chain commit at hpeels
        cases hpeels with
        | annotated hleads =>
          -- There is one way only, so following gave this one.
          rw [follow_of_leadsTo hleads hf]
          rfl

theorem length_le_of_ofRef {tag : TagRef} {p : PeeledTag} (h : r.run (ofRef limit tag) = .ok (some p)) :
    p.chain.length ≤ limit := by
  cases tag with
  | lightweight name target =>
    rw [ofRef] at h
    cases h
    exact Nat.zero_le limit
  | annotated name id =>
    rw [ofRef, Repository.run_bind, Repository.run_done] at h
    cases hf : r.run (follow limit id) with
    | error e =>
      rw [hf] at h
      cases h
    | ok found =>
      rw [hf] at h
      rcases found with _ | ⟨chain, commit⟩
      · cases h
      · cases h
        exact (leadsTo_of_follow hf).2

/-- Peeling gives just the listed tags that lead to commits. -/
theorem mem_ofRefs_iff : ∀ {refs : List TagRef} {peeled : List PeeledTag}, r.run (ofRefs limit refs) = .ok peeled →
    ∀ p, p ∈ peeled ↔ p.tag ∈ refs ∧ r.Peels p.tag p.chain p.commit
  | [], peeled, h, p => by
      cases h
      simp
  | tag :: rest, peeled, h, p => by
      rw [ofRefs, Repository.run_bind] at h
      cases hf : r.run (ofRef limit tag) with
      | error e =>
        rw [hf] at h
        cases h
      | ok first =>
        simp only [hf, Repository.run_bind, Repository.run_done] at h
        cases hr : r.run (ofRefs limit rest) with
        | error e =>
          rw [hr] at h
          cases h
        | ok others =>
          rw [hr] at h
          cases h
          rw [List.mem_append, mem_ofRefs_iff hr p, List.mem_cons, Option.mem_toList, ofRef_ok_iff hf p, or_and_right]

theorem length_le_of_ofRefs : ∀ {refs : List TagRef} {peeled : List PeeledTag},
    r.run (ofRefs limit refs) = .ok peeled → ∀ p ∈ peeled, p.chain.length ≤ limit
  | [], peeled, h, p, hp => by
      cases h
      cases hp
  | tag :: rest, peeled, h, p, hp => by
      rw [ofRefs, Repository.run_bind] at h
      cases hf : r.run (ofRef limit tag) with
      | error e =>
        rw [hf] at h
        cases h
      | ok first =>
        simp only [hf, Repository.run_bind, Repository.run_done] at h
        cases hr : r.run (ofRefs limit rest) with
        | error e =>
          rw [hr] at h
          cases h
        | ok others =>
          rw [hr] at h
          cases h
          rcases List.mem_append.1 hp with hp | hp
          · obtain rfl := Option.mem_toList.1 hp
            exact length_le_of_ofRef hf
          · exact length_le_of_ofRefs hr p hp

end PeeledTag

/-- A listed tag leads to the commit. -/
def Repository.IsTagged (r : Repository) (id : ObjectId) : Prop :=
  ∃ refs, r.tags = .ok refs ∧ ∃ tag ∈ refs, ∃ chain, r.Peels tag chain id

namespace Publication

variable {r : Repository} {limit : Nat} {tags : List PeeledTag}

theorem mem_peeledTags_iff (h : r.run (peeledTags limit) = .ok tags) (p : PeeledTag) :
    p ∈ tags ↔ (∃ refs, r.tags = .ok refs ∧ p.tag ∈ refs) ∧ r.Peels p.tag p.chain p.commit := by
  rw [peeledTags, Repository.run_bind, Repository.run_question, Repository.answer] at h
  cases ht : r.tags with
  | error e =>
    rw [ht] at h
    cases h
  | ok refs =>
    rw [ht] at h
    rw [PeeledTag.mem_ofRefs_iff h p]
    simp

/-- No way is longer than the limit. -/
theorem length_le_of_peeledTags (h : r.run (peeledTags limit) = .ok tags) : ∀ p ∈ tags, p.chain.length ≤ limit := by
  rw [peeledTags, Repository.run_bind, Repository.run_question, Repository.answer] at h
  cases ht : r.tags with
  | error e =>
    rw [ht] at h
    cases h
  | ok refs =>
    rw [ht] at h
    exact PeeledTag.length_le_of_ofRefs h

theorem member_iff {ids : List ObjectId} {id : ObjectId} : member ids id = true ↔ id ∈ ids := by
  rw [member, Std.TreeSet.contains_ofList]
  simp

theorem member_commits_iff (h : r.run (peeledTags limit) = .ok tags) (id : ObjectId) :
    member (tags.map (·.commit)) id = true ↔ r.IsTagged id := by
  rw [member_iff, List.mem_map]
  constructor
  · rintro ⟨p, hp, rfl⟩
    obtain ⟨⟨refs, hrefs, hmem⟩, hpeels⟩ := (mem_peeledTags_iff h p).1 hp
    exact ⟨refs, hrefs, p.tag, hmem, p.chain, hpeels⟩
  · rintro ⟨refs, hrefs, tag, hmem, chain, hpeels⟩
    exact ⟨⟨tag, chain, id⟩, (mem_peeledTags_iff h _).2 ⟨⟨refs, hrefs, hmem⟩, hpeels⟩, rfl⟩

end Publication

end PrunedHistory
