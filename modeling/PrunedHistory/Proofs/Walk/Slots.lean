import PrunedHistory.Proofs.Walk.OwnIds

/-! The slots of a ledger after any calls

    A call that fails leaves what it had settled by then, at an arbitrary depth of the walk, and the next call goes on
    from there, maybe with another selection. Main statement: after every call the slots are in the order of ancestry,
    each entry is what its commit and its parents' entries make of it, no earlier entry has moved, and a call that
    failed has not recorded its head. -/

namespace PrunedHistory

namespace Walk

variable {r : Repository} {select : Selection} {l l' : Ledger} {path : List ObjectId} {head : ObjectId} {e : WalkError}

/-- A visit that fails has not recorded its commit: that would have been its last step. -/
theorem not_mem_of_visit_error (hl : l.Indexed)
    (h : r.run (visit select path l head) = (l', .error e)) : head ∉ l'.commits := by
  by_cases hin : head ∈ l.commits
  · rw [visit, if_pos ((Ledger.contains_iff_mem_commits hl).2 hin)] at h
    cases h
  · rw [run_visit_new r select path hl hin] at h
    rcases loads_or_fails r head with ⟨commit, hrun, hload⟩ | ⟨e', hrun⟩
    · have hleaves := (leaves_visits r select).2 (head :: path) l commit.parents hl
      simp only [hrun] at h
      rcases hleft : r.run (visitParents select (head :: path) l commit.parents) with ⟨left, e' | _⟩
      · rw [hleft] at h hleaves
        cases h
        -- A parent failed, and the visits of parents leave the path alone.
        exact hleaves.aside head (by simp) hin
      · rw [hleft] at h hleaves
        obtain ⟨after, hs⟩ := hleaves.exists_settle hl hin
        simp only [conclude, hs] at h
        cases h
    · rw [hrun] at h
      cases h
      exact hin

theorem contains_of_run_error (hl : l.Indexed) (h : r.run (run select l head) = (l', .error e)) :
    l'.contains head = false := by
  have hgrows := (leaves_run r select head hl).grows
  rw [h] at hgrows
  rw [← Bool.not_eq_true, Ledger.contains_iff_mem_commits (hgrows.indexed hl)]
  exact not_mem_of_visit_error hl (visit_error_of_run hl h)

end Walk

namespace Ledger

/-- Every entry has the slot that its commit is indexed at and stands after those of the commit's parents. A kept
    commit differs from its replacement in parents alone; what a dropped one leaves repeats nothing. -/
structure InOrder (r : Repository) (l : Ledger) : Prop where
  slot_iff : ∀ (id : ObjectId) (slot : Nat), l.slots[id]? = some slot ↔ ∃ d, l.entries[slot]? = some ⟨id, d⟩
  loads : ∀ (slot : Nat) id d, l.entries[slot]? = some ⟨id, d⟩ → ∃ commit, r.Loads id commit ∧
    ∀ p ∈ commit.parents, ∃ earlier < slot, l.slots[p]? = some earlier
  kept : ∀ (slot : Nat) id new commit, l.entries[slot]? = some ⟨id, .keep new⟩ → r.commit id = .ok commit →
    { new.commit with parents := commit.parents } = commit ∧ new.id = new.commit.id ∧
      l.substitutes id = .ok [new.id]
  dropped : ∀ (slot : Nat) id xs, l.entries[slot]? = some ⟨id, .drop xs⟩ → l.substitutes id = .ok xs ∧ xs.Nodup

variable {r : Repository} {l l' : Ledger} {id p : ObjectId} {slot : Nat} {d : Decision}

theorem slot_iff (hl : l.Indexed) : l.slots[id]? = some slot ↔ ∃ d, l.entries[slot]? = some ⟨id, d⟩ := by
  rw [hl id slot, Option.map_eq_some_iff]
  constructor
  · rintro ⟨⟨_, d⟩, he, rfl⟩
    exact ⟨d, he⟩
  · rintro ⟨d, he⟩
    exact ⟨⟨id, d⟩, he, rfl⟩

theorem find?_of_entry (hl : l.Indexed) (h : l.entries[slot]? = some ⟨id, d⟩) : l.find? id = some d :=
  (find?_eq_some_iff hl).2 (Array.mem_toList_iff.2 (Array.mem_iff_getElem?.2 ⟨slot, h⟩))

theorem substitutes_of_entry (hl : l.Indexed) (h : l.entries[slot]? = some ⟨id, d⟩) :
    l.substitutes id = .ok d.substitutes := by
  have hfind := find?_of_entry hl h
  rw [Walk.substitutes_of_find? hfind, standIns, hfind]
  rfl

/-- The parents of the commit at a slot have earlier ones. -/
theorem Sound.earlier_slot (h : l.Sound r) (he : l.entries[slot]? = some ⟨id, d⟩) (hp : r.Parent id p) :
    ∃ earlier < slot, l.slots[p]? = some earlier := by
  have hcommit : l.commits[slot]? = some id := by
    rw [commits, List.getElem?_map, Array.getElem?_toList, he]
    rfl
  obtain ⟨hlt, hid⟩ := List.getElem?_eq_some_iff.1 hcommit
  have hsplit : l.commits = l.commits.take slot ++ id :: l.commits.drop (slot + 1) := by
    rw [← hid, ← List.drop_eq_getElem_cons hlt, List.take_append_drop]
  obtain ⟨earlier, hearlier⟩ := List.mem_iff_getElem?.1 (h.ordered _ _ _ hsplit p hp)
  rw [List.getElem?_take] at hearlier
  split at hearlier
  · rename_i hbefore
    rw [commits, List.getElem?_map, Array.getElem?_toList] at hearlier
    exact ⟨earlier, hbefore, (h.indexed p earlier).2 hearlier⟩
  · cases hearlier

theorem Sound.inOrder (h : l.Sound r) : l.InOrder r where
  slot_iff _ _ := slot_iff h.indexed
  loads slot id d he := by
    obtain ⟨commit, hload⟩ := h.loads id (h.mem_of_find? (find?_of_entry h.indexed he))
    exact ⟨commit, hload, fun p hp => h.earlier_slot he ((hload.parent_iff p).2 hp)⟩
  kept slot id new commit he hread := by
    have hfind := find?_of_entry h.indexed he
    obtain ⟨found, hload⟩ := h.loads id (h.mem_of_find? hfind)
    obtain rfl : found = commit := Except.ok.inj (hload.1.symm.trans hread)
    refine ⟨?_, (h.id_of_keep hfind).symm, substitutes_of_entry h.indexed he⟩
    -- The replacement is the commit on other parents, so all else in it is as it was read.
    rw [h.keep_eq hfind hload]
    rfl
  dropped slot id xs he := by
    have hfind := find?_of_entry h.indexed he
    obtain ⟨commit, hload⟩ := h.loads id (h.mem_of_find? hfind)
    have hxs : xs = l.parentsFor commit := (h.fits id _ commit hfind hload).parents_eq
    refine ⟨substitutes_of_entry h.indexed he, ?_⟩
    rw [hxs]
    exact FirstOccurrences.nodup_eraseDups _

end Ledger

namespace Walk

variable {r : Repository} {select : Selection} {l l' : Ledger} {head : ObjectId}

theorem Grows.entry (h : Grows r select l l') {slot : Nat} {e : Ledger.Entry} (he : l.entries[slot]? = some e) :
    l'.entries[slot]? = some e := by
  obtain ⟨newer, hnewer⟩ := h.keeps_entries
  rw [← Array.getElem?_toList] at he ⊢
  obtain ⟨hslot, -⟩ := List.getElem?_eq_some_iff.1 he
  rw [← hnewer, List.getElem?_append_left hslot, he]

/-- After any calls over one repository, whether or not they succeeded, the ledger is in order. One more call moves and
    changes no entry; where it fails, its head is not recorded, and with every commit its whole ancestry is. -/
theorem calls_leave_order (r : Repository) (l : Ledger) (h : Reached r l) :
    l.InOrder r ∧ ∀ select head l' ended, r.run (run select l head) = (l', ended) →
      l'.InOrder r ∧
      (∀ (slot : Nat) e, l.entries[slot]? = some e → l'.entries[slot]? = some e) ∧
      (∀ (id : ObjectId) (slot : Nat), l.slots[id]? = some slot → l'.slots[id]? = some slot) ∧
      ∀ e, ended = .error e → l'.contains head = false ∧
        ∀ id a, l'.contains id = true → r.Reaches id a → l'.contains a = true := by
  have hsound := Ledger.Sound.of_reached h
  refine ⟨hsound.inOrder, fun select head l' ended hrun => ?_⟩
  have hgrows := (leaves_run r select head hsound.indexed).grows
  rw [hrun] at hgrows
  have hafter : l'.Sound r := hsound.grows hgrows
  refine ⟨hafter.inOrder, fun slot e he => hgrows.entry he, fun id slot hslot => ?slots, ?failed⟩
  case slots =>
    obtain ⟨d, hd⟩ := (Ledger.slot_iff hsound.indexed).1 hslot
    exact (Ledger.slot_iff hafter.indexed).2 ⟨d, hgrows.entry hd⟩
  case failed =>
    rintro e rfl
    refine ⟨contains_of_run_error hsound.indexed hrun, fun id a hid ha => ?_⟩
    rw [Ledger.contains_iff_mem_commits hafter.indexed] at hid ⊢
    -- Whatever was settled before the failure was settled after all its parents.
    exact hafter.reached_mem hid ha

/-- A commit whose second parent is missing. -/
def torn : Repository := .ofParents [(⟨1⟩, []), (⟨2⟩, [⟨1⟩, ⟨9⟩])]

/-- What the call leaves that fails at the missing parent. -/
def tornLedger : Ledger := (torn.run (run (fun _ _ _ => true) {} ⟨2⟩)).1

/-- The first parent is settled before the call fails. A second call, which would drop it, fails as well, and the
    first parent stays kept. -/
theorem order_after_torn :
    Reached torn tornLedger ∧ tornLedger.commits = [⟨1⟩] ∧
    ∃ l' e, torn.run (run (fun _ _ _ => false) tornLedger ⟨2⟩) = (l', .error e) ∧ l'.InOrder torn ∧
      (∀ (slot : Nat) e, tornLedger.entries[slot]? = some e → l'.entries[slot]? = some e) ∧
      l'.contains ⟨2⟩ = false := by
  have hreached : Reached torn tornLedger := .run .empty _ _
  have hcommits : tornLedger.commits = [⟨1⟩] := by
    have hturns : (turns torn (fun _ _ _ => true) 5
        ⟨{}, {⟨2⟩}, [⟨⟨2⟩, Repository.bare [⟨1⟩, ⟨9⟩], [⟨1⟩, ⟨9⟩]⟩]⟩).map (·.1.commits) = some [⟨1⟩] := by
      rfl
    obtain ⟨ended, hended, hcommits⟩ := Option.map_eq_some_iff.1 hturns
    rw [tornLedger, run_ledger, run_visit_of_turns (by rfl) ⟨by rfl, rfl⟩ hended]
    exact hcommits
  have hsound := Ledger.Sound.of_reached hreached
  have hleaves := leaves_run torn (fun _ _ _ => false) ⟨2⟩ hsound.indexed
  obtain ⟨-, hcall⟩ := calls_leave_order torn tornLedger hreached
  rcases hrun : torn.run (run (fun _ _ _ => false) tornLedger ⟨2⟩) with ⟨l', e | xs⟩
  · obtain ⟨horder, hentries, -, hfailed⟩ := hcall _ _ _ _ hrun
    exact ⟨hreached, hcommits, l', e, rfl, horder, hentries, (hfailed e rfl).1⟩
  · -- Had the call succeeded, the missing parent would be recorded.
    rw [hrun] at hleaves
    have hparent : torn.Parent ⟨2⟩ ⟨9⟩ := ⟨Repository.bare [⟨1⟩, ⟨9⟩], rfl, by simp [Repository.bare]⟩
    have hafter := hsound.grows hleaves.grows
    obtain ⟨commit, hload⟩ := hafter.loads _ (hafter.parent_mem (hleaves.settled xs rfl).1 hparent)
    have hmissing : torn.commit ⟨9⟩ = .error (.missingObject ⟨9⟩) := rfl
    have hread := hmissing.symm.trans hload.1
    cases hread

end Walk

end PrunedHistory
