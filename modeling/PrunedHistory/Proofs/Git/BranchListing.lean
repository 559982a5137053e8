import PrunedHistory.Proofs.Git.Mirroring

/-! The listing of branches

    Git lists the branches by their names, one on a line. Where the names of the refs stay whole on their lines, the
    names that are read are those of the branches, each once and in name order. -/

namespace PrunedHistory.Git

open Text (startsWith)

variable {t : Tables} {name start : String} {id : ObjectId}

namespace Tables

/-- The local branches, in name order. -/
def branches (t : Tables) : List (String × ObjectId) := t.refsUnder "refs/heads/"

/-- The name of every ref stays whole in a listing of lines. -/
def NamesAreLines (t : Tables) : Prop :=
  ∀ name id, t.refs.get? name = some id → '\n' ∉ name.toList ∧ name.toList.getLast? ≠ some '\r'

theorem mem_refsUnder_iff :
    (name, id) ∈ t.refsUnder start ↔ t.refs.get? name = some id ∧ startsWith start name = true := by
  rw [refsUnder, List.mem_filter, NameMap.mem_entries_iff]

theorem refsUnder_sorted (t : Tables) (start : String) : (t.refsUnder start).Pairwise fun a b => a.1 < b.1 :=
  t.refs.sorted.sublist List.filter_sublist

theorem refsUnder_names_nodup (t : Tables) (start : String) : ((t.refsUnder start).map (·.1)).Nodup := by
  rw [List.Nodup, List.pairwise_map]
  exact (t.refsUnder_sorted start).imp fun hlt => String.ne_of_lt hlt

/-- Names that stay whole on their lines are read back from them. -/
theorem lines_join_nameLine {names : List String}
    (hnames : ∀ name ∈ names, '\n' ∉ name.toList ∧ name.toList.getLast? ≠ some '\r') :
    (Text.lines (String.join (names.map nameLine)).toList).map .ofList = names := by
  have hrows : names.map nameLine = (names.map String.toList).map fun row => .ofList (row ++ ['\n']) := by
    rw [List.map_map]
    refine List.map_congr_left fun name _ => ?_
    rw [nameLine, Function.comp_apply, ← String.toList_inj]
    simp
  have hlines : ∀ row ∈ names.map String.toList, '\n' ∉ row ∧ Text.dropFinal? '\r' row = none := by
    intro row hrow
    obtain ⟨name, hname, rfl⟩ := List.mem_map.1 hrow
    exact ⟨(hnames name hname).1, Text.dropFinal?_eq_none_iff.2 (hnames name hname).2⟩
  rw [hrows, lines_join hlines, List.map_map]
  exact List.map_id'' (fun name => String.ofList_toList) names

end Tables

namespace Installation

variable {σ : Type} {git : Installation σ} {c : Checkout} {s : σ}

/-- The names of the branches are listed from the tables. -/
def ListsBranches (git : Installation σ) (c : Checkout) : Prop :=
  ∀ s, git.answer c s ["for-each-ref", "--format=%(refname)", "refs/heads/"]
    = .ok (.success (String.join ((git.tables s).branches.map fun (name, _) => Tables.nameLine name)))

theorem ReadsTables.tells_branches (h : git.ReadsTables c) (hlists : git.ListsBranches c)
    (hnames : (git.tables s).NamesAreLines) : git.Tells s c.branches fun t => .ok (t.branches.map (·.1)) := by
  have hkept := h.tables_after s ["for-each-ref", "--format=%(refname)", "refs/heads/"] (by simp [Call.Reads])
  have hrows : ∀ name ∈ (git.tables s).branches.map (·.1), '\n' ∉ name.toList ∧ name.toList.getLast? ≠ some '\r' := by
    intro name hname
    obtain ⟨⟨name, id⟩, hmem, rfl⟩ := List.mem_map.1 hname
    exact hnames name id (Tables.mem_refsUnder_iff.1 hmem).1
  have hread := Tables.lines_join_nameLine hrows
  rw [List.map_map] at hread
  rw [Tells, Checkout.branches, serve_bind, serve_output_of_success (hlists s)]
  exact ⟨congrArg Except.ok hread, hkept⟩

theorem ofTables_listsBranches (c : Checkout) : ofTables.ListsBranches c := fun _ => rfl

end Installation

end PrunedHistory.Git
