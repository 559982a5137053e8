import PrunedHistory.Proofs.NameMaps
import PrunedHistory.Repository.Store

/-! Runs of names

    Between a prefix and a name that starts with it, every name in name order starts with it too. So the run of names
    that a store cuts out of its refs has all names under the prefix, and no others. -/

namespace PrunedHistory

namespace Text

variable {start name other : String}

theorem startsWith_iff : startsWith start name = true ↔ start.toList <+: name.toList := List.isPrefixOf_iff_prefix

theorem not_lt_of_prefix : ∀ {cs ds : List Char}, cs <+: ds → ¬ds < cs
  | [], ds, _ => List.not_lt_nil ds
  | c :: cs, [], h => by simp at h
  | c :: cs, d :: ds, h => by
      obtain ⟨rfl, hunder⟩ := List.cons_prefix_cons.1 h
      rw [List.cons_lt_cons_self]
      exact not_lt_of_prefix hunder

theorem prefix_of_between : ∀ {cs ds es : List Char}, ¬ds < cs → ds < es → cs <+: es → cs <+: ds
  | [], ds, es, _, _, _ => List.nil_prefix
  | c :: cs, [], es, hlow, _, _ => absurd (List.nil_lt_cons c cs) hlow
  | c :: cs, d :: ds, [], _, hhigh, _ => absurd hhigh (List.not_lt_nil _)
  | c :: cs, d :: ds, e :: es, hlow, hhigh, h => by
      obtain ⟨rfl, hunder⟩ := List.cons_prefix_cons.1 h
      rw [List.cons_lt_cons_iff, not_or] at hlow
      obtain ⟨hhead, htail⟩ := hlow
      rcases List.cons_lt_cons_iff.1 hhigh with hlt | ⟨rfl, hlt⟩
      · exact absurd hlt hhead
      · exact List.cons_prefix_cons.2 ⟨rfl, prefix_of_between (fun h => htail ⟨rfl, h⟩) hlt hunder⟩

theorem not_lt_of_startsWith (h : startsWith start name = true) : ¬name < start := by
  rw [String.lt_iff]
  exact not_lt_of_prefix (startsWith_iff.1 h)

theorem startsWith_of_between (hlow : ¬name < start) (hhigh : name < other) (h : startsWith start other = true) :
    startsWith start name = true := by
  rw [String.lt_iff] at hlow hhigh
  exact startsWith_iff.2 (prefix_of_between hlow hhigh (startsWith_iff.1 h))

end Text

namespace Store

variable {s : Store} {name : String} {id : ObjectId}

/-- In name order, the names that start with a text are the run from the first name that is not below it. -/
theorem mem_run_iff {α : Type} (start : String) : ∀ {entries : List (String × α)},
    entries.Pairwise (fun a b => a.1 < b.1) → ∀ entry,
      entry ∈ (entries.dropWhile (·.1 < start)).takeWhile (Text.startsWith start ·.1) ↔
        entry ∈ entries ∧ Text.startsWith start entry.1 = true
  | [], _, entry => by simp
  | first :: rest, h, entry => by
      obtain ⟨hfirst, hrest⟩ := List.pairwise_cons.1 h
      have ih := mem_run_iff start hrest entry
      by_cases hlow : first.1 < start
      · rw [List.dropWhile_cons_of_pos (by simpa using hlow), ih, List.mem_cons]
        constructor
        · exact fun ⟨hmem, hstarts⟩ => ⟨.inr hmem, hstarts⟩
        · rintro ⟨rfl | hmem, hstarts⟩
          · exact absurd hlow (Text.not_lt_of_startsWith hstarts)
          · exact ⟨hmem, hstarts⟩
      · rw [List.dropWhile_cons_of_neg (by simpa using hlow)]
        -- The names ascend, so none of the others lies below `start` either.
        have hdrop : rest.dropWhile (·.1 < start) = rest := by
          cases rest with
          | nil => rfl
          | cons next rest =>
            have hnext : ¬next.1 < start := fun hlt => hlow (String.lt_trans (hfirst next (by simp)) hlt)
            exact List.dropWhile_cons_of_neg (by simpa using hnext)
        rw [hdrop] at ih
        by_cases hstarts : Text.startsWith start first.1 = true
        · rw [List.takeWhile_cons, if_pos hstarts, List.mem_cons, List.mem_cons, ih, or_and_right]
          refine or_congr_left ⟨?_, And.left⟩
          rintro rfl
          exact ⟨rfl, hstarts⟩
        · rw [List.takeWhile_cons, if_neg hstarts, List.mem_cons]
          refine iff_of_false (by simp) ?_
          rintro ⟨rfl | hmem, hentry⟩
          · exact hstarts hentry
          · -- A name between two that start alike would start alike too.
            exact hstarts (Text.startsWith_of_between hlow (hfirst entry hmem) hentry)

theorem mem_tagEntries_iff : (name, id) ∈ s.tagEntries ↔
    s.refs.get? name = some id ∧ Text.startsWith "refs/tags/" name = true := by
  rw [tagEntries, mem_run_iff "refs/tags/" s.refs.sorted, NameMap.mem_entries_iff]

theorem tagEntries_eq (s : Store) : s.tagEntries = s.refs.entries.filter (Text.startsWith "refs/tags/" ·.1) := by
  have hirrefl : Std.Irrefl fun a b : String × ObjectId => a.1 < b.1 := ⟨fun a => String.lt_irrefl a.1⟩
  have hantisymm : Std.Antisymm fun a b : String × ObjectId => a.1 < b.1 :=
    ⟨fun a b hab hba => absurd (String.lt_trans hab hba) (String.lt_irrefl a.1)⟩
  have hrun : s.tagEntries.Pairwise fun a b => a.1 < b.1 :=
    s.refs.sorted.sublist ((List.takeWhile_sublist _).trans (List.dropWhile_sublist _))
  refine hrun.eq_of_mem_iff (s.refs.sorted.sublist List.filter_sublist) fun entry => ?_
  rw [tagEntries, mem_run_iff "refs/tags/" s.refs.sorted, List.mem_filter]

end Store

end PrunedHistory
