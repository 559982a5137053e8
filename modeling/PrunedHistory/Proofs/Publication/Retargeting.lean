import PrunedHistory.Proofs.NameMaps
import PrunedHistory.Proofs.Publication.Peeling

/-! What retargeting the tags comes to

    Each tag of a recorded commit gives one change, and each tag that has to move its chain, built again from the
    inside. The pass over all tags puts the changes in one after the other and lists each tag object at its first place
    only. Leaving out repeats cannot part an object from what it is on: something with the same id stays in front. -/

namespace PrunedHistory

namespace PeeledTag

/-- What becomes of a tag; nothing if its commit is not recorded. -/
def change? (l : Ledger) (p : PeeledTag) : Option TagChange :=
  match l.find? p.commit with
  | none => none
  | some (.drop _) => some ⟨p.tag.id, none, none⟩
  | some (.keep new) => some ⟨p.tag.id, some (p.position new.id), some new.id⟩

/-- The change under the name of its tag. -/
def entries (l : Ledger) (p : PeeledTag) : List (String × TagChange) := (p.change? l).toList.map (p.tag.name, ·)

/-- The chain of a tag whose commit is kept under another id, built again, innermost tag object first. -/
def rebuilt (l : Ledger) (p : PeeledTag) : List Tag :=
  match l.find? p.commit with
  | some (.keep new) => if new.id = p.commit then [] else p.rebuild new.id
  | _ => []

variable {r : Repository} {l : Ledger} {p : PeeledTag} {name : String} {change : TagChange} {id commit : ObjectId}
  {chain : List Tag} {new : Replacement}

theorem mem_entries_iff : (name, change) ∈ p.entries l ↔ p.tag.name = name ∧ p.change? l = some change := by
  rw [entries, List.mem_map]
  simp only [Option.mem_toList, Prod.mk.injEq]
  constructor
  · rintro ⟨c, hc, hname, rfl⟩
    exact ⟨hname, hc⟩
  · rintro ⟨hname, hc⟩
    exact ⟨change, hc, hname, rfl⟩

/-- A name that points straight at a commit goes where the commit goes. -/
theorem position_lightweight (name : String) (target commit : ObjectId) :
    position ⟨.lightweight name target, [], target⟩ commit = commit := by
  rw [position]
  split
  · rename_i hsame
    exact hsame.symm
  · rfl

/-- The tags of recorded commits change. -/
theorem exists_change?_iff : (∃ change, p.change? l = some change) ↔ ∃ d, l.find? p.commit = some d := by
  rw [change?]
  rcases l.find? p.commit with _ | (_ | _) <;> simp

theorem change?_congr {l' : Ledger} (h : l'.find? p.commit = l.find? p.commit) : p.change? l' = p.change? l := by
  rw [change?, change?, h]

theorem change?_of_keep (h : l.find? p.commit = some (.keep new)) :
    p.change? l = some ⟨p.tag.id, some (p.position new.id), some new.id⟩ := by
  rw [change?, h]

/-- A tag that changes is dropped with its commit, or follows where that is kept. -/
theorem change?_cases (h : p.change? l = some change) :
    (∃ substitutes, l.find? p.commit = some (.drop substitutes) ∧ change = ⟨p.tag.id, none, none⟩) ∨
      ∃ new, l.find? p.commit = some (.keep new) ∧ change = ⟨p.tag.id, some (p.position new.id), some new.id⟩ := by
  unfold change? at h
  split at h
  · cases h
  · rename_i substitutes hdrop
    exact .inl ⟨substitutes, hdrop, (Option.some.inj h).symm⟩
  · rename_i new hkeep
    exact .inr ⟨new, hkeep, (Option.some.inj h).symm⟩

/-- A tag that is somewhere afterwards has a kept commit. -/
theorem exists_keep_of_change? (h : p.change? l = some change) (hafter : change.after = some id) :
    ∃ new, l.find? p.commit = some (.keep new) ∧ change = ⟨p.tag.id, some (p.position new.id), some new.id⟩ := by
  rcases change?_cases h with ⟨-, -, rfl⟩ | hkept
  · cases hafter
  · exact hkept

theorem rebuilt_of_keep (h : l.find? p.commit = some (.keep new)) (hnew : new.id ≠ p.commit) :
    p.rebuilt l = p.rebuild new.id := by
  rw [rebuilt, h]
  exact if_neg hnew

/-- From the inside, a chain starts with the tag object on the commit; each of the others is on a tag object. -/
theorem exists_inwards (h : r.LeadsTo id chain commit) :
    ∃ inner outer, chain.reverse = inner :: outer ∧ inner.kind = .commit ∧ ∀ t ∈ outer, t.kind = .tag := by
  induction h with
  | last _ hkind => exact ⟨_, [], rfl, hkind, by simp⟩
  | @next id commit tag chain _ hkind _ ih =>
    obtain ⟨inner, outer, hreverse, hinner, houter⟩ := ih
    refine ⟨inner, outer ++ [tag], by rw [List.reverse_cons, hreverse, List.cons_append], hinner, fun t ht => ?_⟩
    rcases List.mem_append.1 ht with ht | ht
    · exact houter t ht
    · rw [List.mem_singleton.1 ht]
      exact hkind

/-! ### Where a chain ends that is built again -/

/-- The id of a chain, outermost tag object first, that is built again on another target. -/
def rebuiltId (target : ObjectId) : List Tag → ObjectId
  | [] => target
  | t :: inner => (t.retarget (rebuiltId target inner)).id

theorem rebuiltId_concat (target : ObjectId) (t : Tag) : ∀ outer : List Tag,
    rebuiltId target (outer ++ [t]) = rebuiltId (t.retarget target).id outer
  | [] => rfl
  | u :: outer => by rw [List.cons_append, rebuiltId, rebuiltId_concat target t outer, rebuiltId]

theorem retargetInwards_concat (t : Tag) : ∀ (target : ObjectId) (inwards : List Tag),
    retargetInwards target (inwards ++ [t])
      = retargetInwards target inwards ++ [t.retarget (rebuiltId target inwards.reverse)]
  | _, [] => rfl
  | target, u :: inwards => by
      rw [List.cons_append, retargetInwards, retargetInwards_concat t, retargetInwards, List.reverse_cons,
        rebuiltId_concat, List.cons_append]

/-- The outermost tag object of a chain is built again last. -/
theorem retargetInwards_reverse_cons (target : ObjectId) (t : Tag) (inner : List Tag) :
    retargetInwards target (t :: inner).reverse
      = retargetInwards target inner.reverse ++ [t.retarget (rebuiltId target inner)] := by
  rw [List.reverse_cons, retargetInwards_concat, List.reverse_reverse]

/-- What is built again are the tag objects of the chain, each on what is further in. -/
theorem mem_retargetInwards_iff {target : ObjectId} {u : Tag} : ∀ {chain : List Tag},
    u ∈ retargetInwards target chain.reverse ↔ ∃ t inner, t :: inner <:+ chain ∧ u = t.retarget (rebuiltId target inner)
  | [] => by simp [retargetInwards]
  | t :: chain => by
      rw [retargetInwards_reverse_cons, List.mem_append, mem_retargetInwards_iff, List.mem_singleton]
      constructor
      · rintro (⟨v, inner, hsuffix, rfl⟩ | rfl)
        · exact ⟨v, inner, hsuffix.trans (List.suffix_cons ..), rfl⟩
        · exact ⟨t, chain, List.suffix_rfl, rfl⟩
      · rintro ⟨v, inner, hsuffix, rfl⟩
        rcases List.suffix_cons_iff.1 hsuffix with heq | hsuffix
        · obtain ⟨rfl, rfl⟩ := List.cons.inj heq
          exact .inr rfl
        · exact .inl ⟨v, inner, hsuffix, rfl⟩

theorem rebuiltId_eq (target : ObjectId) (chain : List Tag) :
    ((retargetInwards target chain.reverse).getLast?.map Tag.id).getD target = rebuiltId target chain := by
  cases chain with
  | nil => rfl
  | cons t inner =>
    rw [retargetInwards_reverse_cons, List.getLast?_concat]
    rfl

theorem position_eq (p : PeeledTag) (commit : ObjectId) :
    p.position commit = if commit = p.commit then p.tag.id else rebuiltId commit p.chain := by
  rw [position, rebuild, rebuiltId_eq]

/-- Where the tag objects of a chain that is built again can be read, the outermost one leads to the new commit on a way
    of the same length. -/
theorem exists_leadsTo_rebuild {r' : Repository} {target : ObjectId} (h : r.LeadsTo id p.chain p.commit)
    (hfound : ∀ t ∈ p.rebuild target, r'.HasTag t.id t) :
    ∃ chain', r'.LeadsTo (rebuiltId target p.chain) chain' target ∧ chain'.length = p.chain.length := by
  obtain ⟨chain', hleads, hlike⟩ := h.carried (fun _ chain => rebuiltId target chain) (fun _ _ => True)
    fun id t inner _ hsuffix => by
      obtain ⟨found, hread, hobject, hkind⟩ := hfound _ (mem_retargetInwards_iff.2 ⟨t, inner, hsuffix, rfl⟩)
      exact ⟨found, hread, hobject, hkind, trivial⟩
  exact ⟨chain', hleads, hlike.length_eq.symm⟩

end PeeledTag

/-! ### Tag objects that stand on earlier ones -/

/-- The tag object is on one of the commits, or on one of the tag objects in front of it. -/
def Tag.Founded (commits : List ObjectId) (front : List Tag) (tag : Tag) : Prop :=
  (tag.kind = .commit ∧ tag.object ∈ commits) ∨ (tag.kind = .tag ∧ tag.object ∈ front.map Tag.id)

/-- Every tag object is on one of the commits, or on a tag object in front of it. -/
def Grounded (commits : List ObjectId) (tags : List Tag) : Prop :=
  ∀ before tag after, tags = before ++ tag :: after → tag.Founded commits before

theorem Tag.Founded.mono {commits : List ObjectId} {front front' : List Tag} {tag : Tag}
    (h : tag.Founded commits front) (hsub : front.map Tag.id ⊆ front'.map Tag.id) : tag.Founded commits front' := by
  rcases h with h | ⟨hkind, hmem⟩
  · exact .inl h
  · exact .inr ⟨hkind, hsub hmem⟩

namespace Grounded

variable {commits : List ObjectId} {tags : List Tag}

theorem nil : Grounded commits [] := by
  intro before tag after h
  simp at h

theorem concat (h : Grounded commits tags) {tag : Tag} (htag : tag.Founded commits tags) :
    Grounded commits (tags ++ [tag]) := by
  intro before other after hsplit
  rcases List.eq_nil_or_concat after with rfl | ⟨after, last, rfl⟩
  · obtain ⟨rfl, hother⟩ := List.append_inj' hsplit rfl
    cases hother
    exact htag
  · have hsplit' : tags ++ [tag] = (before ++ other :: after) ++ [last] := by
      rw [hsplit]
      simp
    exact h before other after (List.append_inj' hsplit' rfl).1

theorem of_concat {tag : Tag} (h : Grounded commits (tags ++ [tag])) : Grounded commits tags ∧ tag.Founded commits tags := by
  refine ⟨fun before other after hsplit => h before other (after ++ [tag]) ?_, h tags tag [] rfl⟩
  rw [hsplit]
  simp

/-- Tag objects on tag objects may follow what the first of them is on. -/
theorem append_outer : ∀ {outer : List Tag} {tags : List Tag} {target : ObjectId}, Grounded commits tags →
    target ∈ tags.map Tag.id → (∀ t ∈ outer, t.kind = .tag) →
    Grounded commits (tags ++ PeeledTag.retargetInwards target outer)
  | [], tags, target, h, _, _ => by
      rw [PeeledTag.retargetInwards, List.append_nil]
      exact h
  | t :: outer, tags, target, h, htarget, hkind => by
      have hfirst : Grounded commits (tags ++ [t.retarget target]) := h.concat (.inr ⟨hkind t (by simp), htarget⟩)
      have hrest : Grounded commits (tags ++ [t.retarget target] ++ PeeledTag.retargetInwards (t.retarget target).id outer) :=
        append_outer hfirst (by simp) fun t' ht' => hkind t' (List.mem_cons_of_mem _ ht')
      rw [List.append_assoc] at hrest
      exact hrest

/-- A chain built again may follow where its commit is one of the given ones. -/
theorem append_rebuild {r : Repository} {p : PeeledTag} {target : ObjectId} (h : Grounded commits tags)
    (hp : r.Peels p.tag p.chain p.commit) (htarget : target ∈ commits) : Grounded commits (tags ++ p.rebuild target) := by
  obtain ⟨tag, chain, commit⟩ := p
  change r.Peels tag chain commit at hp
  cases hp with
  | lightweight =>
    rw [PeeledTag.rebuild, List.reverse_nil, PeeledTag.retargetInwards, List.append_nil]
    exact h
  | annotated hleads =>
    obtain ⟨inner, outer, hreverse, hinner, houter⟩ := PeeledTag.exists_inwards hleads
    -- The innermost tag object points at the commit itself; each further one at the one built before it.
    have hfirst : Grounded commits (tags ++ [inner.retarget target]) := h.concat (.inl ⟨hinner, htarget⟩)
    have hrest : Grounded commits
        (tags ++ [inner.retarget target] ++ PeeledTag.retargetInwards (inner.retarget target).id outer) :=
      append_outer hfirst (by simp) houter
    rw [PeeledTag.rebuild, hreverse, PeeledTag.retargetInwards]
    rw [List.append_assoc] at hrest
    exact hrest

end Grounded

/-! ### The pass -/

namespace TagPass

/-- The pass has listed the given tag objects, each id at its first place. -/
structure Lists (seen : List Tag) (pass : TagPass) : Prop where
  built_iff : ∀ id, pass.built.contains id = true ↔ id ∈ pass.objects.map Tag.id
  nodup : (pass.objects.map Tag.id).Nodup
  seen_of_mem : ∀ t ∈ pass.objects, t ∈ seen
  ids : seen.map Tag.id ⊆ pass.objects.map Tag.id
  grounded : ∀ commits, Grounded commits seen → Grounded commits pass.objects

variable {l : Ledger} {seen : List Tag} {pass : TagPass} {tags : List PeeledTag} {p : PeeledTag}

theorem lists_nothing : Lists [] {} where
  built_iff id := by simp
  nodup := .nil
  seen_of_mem t h := by cases h
  ids := List.Subset.refl _
  grounded commits h := h

theorem Lists.list (h : Lists seen pass) (t : Tag) : Lists (seen ++ [t]) (pass.list t) := by
  unfold TagPass.list
  by_cases hbuilt : pass.built.contains t.id
  · rw [if_pos hbuilt]
    refine ⟨h.built_iff, h.nodup, fun t' ht' => List.mem_append_left _ (h.seen_of_mem t' ht'), fun id hid => ?_,
      fun commits hg => h.grounded commits hg.of_concat.1⟩
    rw [List.map_append, List.mem_append] at hid
    rcases hid with hid | hid
    · exact h.ids hid
    · rw [List.mem_singleton.1 hid]
      exact (h.built_iff t.id).1 hbuilt
  · rw [if_neg hbuilt]
    -- A tag object not built so far has an id that none of the listed ones has.
    have hnew : t.id ∉ pass.objects.map Tag.id := fun hmem => hbuilt ((h.built_iff t.id).2 hmem)
    refine ⟨fun id => ?_, ?_, fun t' ht' => ?_, ?_, fun commits hg => ?_⟩
    · simp only [Std.TreeSet.contains_insert, Bool.or_eq_true, beq_iff_eq, Std.LawfulEqCmp.compare_eq_iff_eq, h.built_iff,
        List.map_append, List.map_cons, List.map_nil, List.mem_append, List.mem_singleton]
      rw [or_comm, eq_comm]
    · rw [List.map_append, List.nodup_append]
      refine ⟨h.nodup, by simp, fun id hid other hother heq => hnew ?_⟩
      rw [List.map_singleton, List.mem_singleton] at hother
      rwa [← hother, ← heq]
    · rcases List.mem_append.1 ht' with ht' | ht'
      · exact List.mem_append_left _ (h.seen_of_mem t' ht')
      · exact List.mem_append_right _ ht'
    · rw [List.map_append, List.map_append]
      exact List.append_subset.2 ⟨fun id hid => List.mem_append_left _ (h.ids hid), List.subset_append_right ..⟩
    · obtain ⟨hseen, htag⟩ := hg.of_concat
      exact (h.grounded commits hseen).concat (htag.mono h.ids)

theorem lists_foldl_list : ∀ (more : List Tag) {seen : List Tag} {pass : TagPass}, Lists seen pass →
    Lists (seen ++ more) (more.foldl list pass)
  | [], seen, pass, h => by
      rw [List.append_nil]
      exact h
  | t :: more, seen, pass, h => by
      have hrest := lists_foldl_list more (h.list t)
      rw [List.append_assoc] at hrest
      exact hrest

/-- Listing does not see the changes. -/
theorem foldl_list_changes (changes : NameMap TagChange) : ∀ (more : List Tag) (pass : TagPass),
    more.foldl list { pass with changes } = { more.foldl list pass with changes }
  | [], _ => rfl
  | t :: more, pass => by
      have hfirst : list { pass with changes } t = { list pass t with changes } := by
        unfold list
        split <;> rfl
      rw [List.foldl_cons, hfirst, foldl_list_changes changes more, List.foldl_cons]

/-- One tag lists what is built for it and puts its change in. -/
theorem step_eq (l : Ledger) (pass : TagPass) (p : PeeledTag) : step l pass p =
    { (p.rebuilt l).foldl list pass with changes := pass.changes.insertAll (p.entries l) } := by
  -- Listing tag objects leaves the changes alone, so the change can be entered before or after it.
  have hkept : ∀ more : List Tag, (more.foldl list pass).changes = pass.changes := by
    intro more
    have hsame : more.foldl list pass = { more.foldl list pass with changes := pass.changes } :=
      foldl_list_changes pass.changes more pass
    rw [hsame]
  unfold step PeeledTag.entries PeeledTag.change? PeeledTag.rebuilt
  cases l.find? p.commit with
  | none => rfl
  | some d =>
    cases d with
    | drop substitutes => rfl
    | keep new =>
      by_cases hnew : new.id = p.commit
      · simp only [if_pos hnew]
        rfl
      · simp only [if_neg hnew, hkept]
        rfl

/-- All tags together list what is built for any of them and put all changes in. -/
theorem foldl_step_eq (l : Ledger) : ∀ (tags : List PeeledTag) (pass : TagPass), tags.foldl (step l) pass =
    { (tags.flatMap (·.rebuilt l)).foldl list pass with changes := pass.changes.insertAll (tags.flatMap (·.entries l)) }
  | [], _ => rfl
  | p :: tags, pass => by
      rw [List.foldl_cons, foldl_step_eq l tags, step_eq, foldl_list_changes, List.flatMap_cons, List.flatMap_cons,
        List.foldl_append, NameMap.insertAll_append]

theorem ofTags_eq (l : Ledger) (tags : List PeeledTag) : ofTags l tags =
    { (tags.flatMap (·.rebuilt l)).foldl list {} with
      changes := (∅ : NameMap TagChange).insertAll (tags.flatMap (·.entries l)) } := foldl_step_eq l tags {}

theorem lists_ofTags (l : Ledger) (tags : List PeeledTag) : Lists (tags.flatMap (·.rebuilt l)) (ofTags l tags) := by
  have hlists := lists_foldl_list (tags.flatMap (·.rebuilt l)) lists_nothing
  rw [ofTags_eq]
  exact ⟨hlists.built_iff, hlists.nodup, hlists.seen_of_mem, hlists.ids, hlists.grounded⟩

theorem changes_ofTags (l : Ledger) (tags : List PeeledTag) :
    (ofTags l tags).changes = (∅ : NameMap TagChange).insertAll (tags.flatMap (·.entries l)) := by
  rw [ofTags_eq]

/-- A tag for which nothing is built again could be left out. -/
theorem objects_ofTags_of_idle {p : PeeledTag} (h : p.rebuilt l = []) (before after : List PeeledTag) :
    (ofTags l (before ++ p :: after)).objects = (ofTags l (before ++ after)).objects := by
  have hbuilt : (before ++ p :: after).flatMap (·.rebuilt l) = (before ++ after).flatMap (·.rebuilt l) := by
    rw [List.flatMap_append, List.flatMap_cons, h, List.nil_append, List.flatMap_append]
  rw [ofTags_eq, ofTags_eq, hbuilt]

variable {name : String} {change : TagChange}

/-- The change under a name is that of a tag of this name. -/
theorem exists_tag_of_change (h : (ofTags l tags).changes.get? name = some change) :
    ∃ p ∈ tags, p.tag.name = name ∧ p.change? l = some change := by
  rw [changes_ofTags] at h
  obtain ⟨p, hp, hmem⟩ := List.mem_flatMap.1 (NameMap.mem_of_get?_insertAll h)
  exact ⟨p, hp, PeeledTag.mem_entries_iff.1 hmem⟩

/-- There is a change under the names of the tags of recorded commits. -/
theorem exists_change_iff : (∃ change, (ofTags l tags).changes.get? name = some change) ↔
    ∃ p ∈ tags, p.tag.name = name ∧ ∃ d, l.find? p.commit = some d := by
  constructor
  · rintro ⟨change, hchange⟩
    obtain ⟨p, hp, hname, hp'⟩ := exists_tag_of_change hchange
    exact ⟨p, hp, hname, PeeledTag.exists_change?_iff.1 ⟨change, hp'⟩⟩
  · rintro ⟨p, hp, hname, hd⟩
    obtain ⟨change, hchange⟩ := PeeledTag.exists_change?_iff.2 hd
    rw [changes_ofTags]
    exact NameMap.exists_get?_insertAll
      (.inl ⟨change, List.mem_flatMap.2 ⟨p, hp, PeeledTag.mem_entries_iff.2 ⟨hname, hchange⟩⟩⟩)

/-- Where names are not repeated, the change of every tag is under its name. -/
theorem get?_changes_of_tag (hnames : ∀ p ∈ tags, ∀ q ∈ tags, p.tag.name = q.tag.name → p = q) (hp : p ∈ tags)
    (hchange : p.change? l = some change) : (ofTags l tags).changes.get? p.tag.name = some change := by
  rw [changes_ofTags]
  refine NameMap.get?_insertAll (.inl (List.mem_flatMap.2 ⟨p, hp, PeeledTag.mem_entries_iff.2 ⟨rfl, hchange⟩⟩)) ?_
  intro other hother
  obtain ⟨q, hq, hmem⟩ := List.mem_flatMap.1 hother
  obtain ⟨hname, hq'⟩ := PeeledTag.mem_entries_iff.1 hmem
  obtain rfl := hnames q hq p hp hname
  rw [hchange] at hq'
  exact (Option.some.inj hq').symm

/-- Under the name of a tag there is its own change, or none if its commit is not recorded. -/
theorem get?_changes_eq (hnames : ∀ p ∈ tags, ∀ q ∈ tags, p.tag.name = q.tag.name → p = q) (hp : p ∈ tags) :
    (ofTags l tags).changes.get? p.tag.name = p.change? l := by
  ext change
  refine ⟨fun hchange => ?_, get?_changes_of_tag hnames hp⟩
  obtain ⟨q, hq, hname, hchange'⟩ := exists_tag_of_change hchange
  rwa [hnames q hq p hp hname] at hchange'

/-- Where names are not repeated, the changes are those of the tags. -/
theorem get?_changes_iff (hnames : ∀ p ∈ tags, ∀ q ∈ tags, p.tag.name = q.tag.name → p = q) :
    (ofTags l tags).changes.get? name = some change ↔ ∃ p ∈ tags, p.tag.name = name ∧ p.change? l = some change := by
  refine ⟨exists_tag_of_change, ?_⟩
  rintro ⟨p, hp, rfl, hchange⟩
  exact get?_changes_of_tag hnames hp hchange

end TagPass

end PrunedHistory
