import PrunedHistory.Object.Id

/-! Ids not yet taken

    There are finitely many ids, so a search that takes a new one at every step ends. `untaken` counts what is left. -/

namespace PrunedHistory.ObjectId

/-- How many of the first `bound` numbers are ids that are not taken. -/
def untakenBelow (taken : ObjectId → Bool) (bound : Nat) : Nat :=
  (List.range bound).countP fun n => !taken ⟨.ofNat 160 n⟩

/-- How many ids are not taken. -/
def untaken (taken : ObjectId → Bool) : Nat := untakenBelow taken (Nat.pow 2 160)

theorem untakenBelow_le {taken taken' : ObjectId → Bool} (h : ∀ id, taken id → taken' id) (bound : Nat) :
    untakenBelow taken' bound ≤ untakenBelow taken bound := by
  refine List.countP_mono_left fun n _ hn => ?_
  have := h ⟨.ofNat 160 n⟩
  cases ht : taken ⟨.ofNat 160 n⟩ <;> simp_all

theorem untakenBelow_lt {taken taken' : ObjectId → Bool} (h : ∀ id, taken id → taken' id) {n : Nat}
    (hn : taken ⟨.ofNat 160 n⟩ = false) (hn' : taken' ⟨.ofNat 160 n⟩ = true) :
    ∀ {bound : Nat}, n < bound → untakenBelow taken' bound < untakenBelow taken bound
  | bound + 1, hlt => by
      simp only [untakenBelow, List.range_succ, List.countP_append, List.countP_singleton]
      rcases Nat.lt_succ_iff_lt_or_eq.1 hlt with hlt | rfl
      · have := untakenBelow_lt h hn hn' hlt
        have hb := h ⟨.ofNat 160 bound⟩
        simp only [untakenBelow] at this
        cases ht : taken ⟨.ofNat 160 bound⟩ <;> cases ht' : taken' ⟨.ofNat 160 bound⟩ <;> simp_all
        omega
      · have := untakenBelow_le h n
        simp only [untakenBelow] at this
        simp only [hn, hn']
        simp
        omega

theorem untaken_le {taken taken' : ObjectId → Bool} (h : ∀ id, taken id → taken' id) :
    untaken taken' ≤ untaken taken := untakenBelow_le h _

/-- One more taken id leaves fewer. -/
theorem untaken_lt {taken taken' : ObjectId → Bool} (h : ∀ id, taken id → taken' id) (id : ObjectId)
    (hid : taken id = false) (hid' : taken' id = true) : untaken taken' < untaken taken := by
  have e : (⟨.ofNat 160 id.bits.toNat⟩ : ObjectId) = id := by cases id; simp
  exact untakenBelow_lt h (n := id.bits.toNat) (by rw [e]; exact hid) (by rw [e]; exact hid') id.bits.isLt

end PrunedHistory.ObjectId
