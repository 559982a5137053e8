/-! Lists reduced to first occurrences

    `List.eraseDups` keeps each element at its first place. Reducing parts of a list beforehand does not change what
    the whole is reduced to. -/

namespace PrunedHistory.FirstOccurrences

variable {α β : Type} [BEq α] [LawfulBEq α]

theorem eraseDups_filter (q : α → Bool) : ∀ l : List α, (l.filter q).eraseDups = l.eraseDups.filter q
  | [] => rfl
  | a :: as => by
      have ih := eraseDups_filter q (as.filter fun b => !b == a)
      rw [List.eraseDups_cons, List.filter_cons, List.filter_cons, ← ih, List.filter_filter]
      -- Either `a` stays in front and both tests filter the tail, or `q` takes out every `a` by itself.
      by_cases ha : q a
      · rw [if_pos ha, if_pos ha, List.eraseDups_cons, List.filter_filter]
        simp only [Bool.and_comm]
      · rw [if_neg ha, if_neg ha]
        congr 1
        refine List.filter_congr fun b _ => ?_
        by_cases hb : b = a
        · rw [hb, eq_false_of_ne_true ha]
          simp
        · simp [hb]
termination_by l => l.length
decreasing_by
  exact Nat.lt_succ_of_le (List.length_filter_le ..)

theorem nodup_eraseDups : ∀ l : List α, l.eraseDups.Nodup
  | [] => .nil
  | a :: as => by
      rw [List.eraseDups_cons, List.nodup_cons]
      refine ⟨fun h => ?_, nodup_eraseDups _⟩
      rw [List.mem_eraseDups, List.mem_filter] at h
      simp at h
termination_by l => l.length
decreasing_by
  exact Nat.lt_succ_of_le (List.length_filter_le ..)

theorem eraseDups_of_nodup : ∀ {l : List α}, l.Nodup → l.eraseDups = l
  | [], _ => rfl
  | a :: as, h => by
      obtain ⟨ha, has⟩ := List.nodup_cons.1 h
      have hfilter : (as.filter fun b => !b == a) = as := by
        refine List.filter_eq_self.2 fun b hb => ?_
        have hne : b ≠ a := fun he => ha (he ▸ hb)
        simpa using hne
      rw [List.eraseDups_cons, hfilter, eraseDups_of_nodup has]

theorem eraseDups_concat (as : List α) (a : α) :
    (as ++ [a]).eraseDups = if a ∈ as.eraseDups then as.eraseDups else as.eraseDups ++ [a] := by
  rw [List.eraseDups_append]
  split
  · rename_i h
    simp [List.removeAll, List.mem_eraseDups.1 h]
  · rename_i h
    have hnew : a ∉ as := fun hmem => h (List.mem_eraseDups.2 hmem)
    simp [List.removeAll, hnew, List.eraseDups_cons]

theorem eraseDups_append_eraseDups (as bs : List α) :
    (as.eraseDups ++ bs.eraseDups).eraseDups = (as ++ bs).eraseDups := by
  have hremove : ∀ cs : List α, cs.removeAll as.eraseDups = cs.removeAll as := fun cs => by
    refine List.filter_congr fun c _ => ?_
    rw [Bool.eq_iff_iff]
    simp [List.mem_eraseDups]
  have hfilter : (bs.eraseDups.removeAll as).eraseDups = (bs.removeAll as).eraseDups := by
    rw [List.removeAll, List.removeAll, eraseDups_filter, eraseDups_filter,
      eraseDups_of_nodup (nodup_eraseDups bs)]
  rw [List.eraseDups_append, List.eraseDups_append, eraseDups_of_nodup (nodup_eraseDups as), hremove, hfilter]

/-- Pieces may be reduced before they are joined. -/
theorem eraseDups_flatMap_eraseDups (f : β → List α) : ∀ l : List β,
    (l.flatMap fun b => (f b).eraseDups).eraseDups = (l.flatMap f).eraseDups
  | [] => rfl
  | b :: bs => by
      have ih := eraseDups_flatMap_eraseDups f bs
      rw [List.flatMap_cons, List.flatMap_cons]
      calc ((f b).eraseDups ++ bs.flatMap fun b => (f b).eraseDups).eraseDups
          = ((f b).eraseDups.eraseDups ++ (bs.flatMap fun b => (f b).eraseDups).eraseDups).eraseDups :=
            (eraseDups_append_eraseDups ..).symm
        _ = ((f b).eraseDups ++ (bs.flatMap f).eraseDups).eraseDups := by
            rw [eraseDups_of_nodup (nodup_eraseDups (f b)), ih]
        _ = (f b ++ bs.flatMap f).eraseDups := eraseDups_append_eraseDups ..

end PrunedHistory.FirstOccurrences
