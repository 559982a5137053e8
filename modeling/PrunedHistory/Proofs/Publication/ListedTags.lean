import PrunedHistory.Proofs.Publication.Unwrapping
import PrunedHistory.Proofs.Publication.Requests
import PrunedHistory.Proofs.Repository.Filing
import PrunedHistory.Proofs.Repository.NameRuns

/-! The tags that a store lists

    A store goes through the run of refs under the prefix of tags. Main statement: it lists just the refs under it that
    point at a commit or a tag object, and the tags that are peeled differ in their names. -/

namespace PrunedHistory

namespace Store

variable {s : Store} {name : String} {id : ObjectId} {tag : TagRef} {refs : List TagRef}

/-- A ref under the prefix lists the tag. -/
def ListsTag (s : Store) (tag : TagRef) : Prop :=
  s.refs.get? tag.name = some tag.id ∧ Text.startsWith "refs/tags/" tag.name = true ∧
    s.tagRef? tag.name tag.id = .ok (some tag)

/-- The ref that a tag is listed for has its name and points where it does. -/
theorem eq_of_tagRef? (h : s.tagRef? name id = .ok (some tag)) : tag.name = name ∧ tag.id = id := by
  rw [tagRef?] at h
  split at h <;> cases h <;> exact ⟨rfl, rfl⟩

theorem tags_eq_ok_iff : s.tags = .ok refs ↔ ∃ listed : List (Option TagRef),
    s.tagEntries.map (fun (name, id) => s.tagRef? name id) = listed.map .ok ∧ refs = listed.filterMap fun t => t := by
  rw [tags]
  constructor
  · intro h
    cases hlisted : s.tagEntries.mapM fun (name, id) => s.tagRef? name id with
    | error e =>
      rw [hlisted] at h
      cases h
    | ok listed =>
      rw [hlisted] at h
      cases h
      exact ⟨listed, Publication.map_of_mapM hlisted, rfl⟩
  · rintro ⟨listed, hlisted, rfl⟩
    rw [Publication.mapM_of_map hlisted]
    rfl

/-- A store lists just the refs under the prefix that point at a commit or a tag object. -/
theorem mem_tags_iff (h : s.tags = .ok refs) : tag ∈ refs ↔ s.ListsTag tag := by
  obtain ⟨listed, hlisted, rfl⟩ := tags_eq_ok_iff.1 h
  have hmem : ∀ found, some found ∈ listed ↔ ∃ entry ∈ s.tagEntries, s.tagRef? entry.1 entry.2 = .ok (some found) := by
    intro found
    have hok : some found ∈ listed ↔ Except.ok (some found) ∈ listed.map (Except.ok (ε := ReadError)) := by simp
    rw [hok, ← hlisted, List.mem_map]
  rw [List.mem_filterMap]
  simp only [exists_eq_right, hmem]
  constructor
  · rintro ⟨⟨name, id⟩, hentry, hfound⟩
    obtain ⟨rfl, rfl⟩ := eq_of_tagRef? hfound
    obtain ⟨hget, hstarts⟩ := mem_tagEntries_iff.1 hentry
    exact ⟨hget, hstarts, hfound⟩
  · rintro ⟨hget, hstarts, hfound⟩
    exact ⟨(tag.name, tag.id), mem_tagEntries_iff.2 ⟨hget, hstarts⟩, hfound⟩

/-- Listing succeeds where every ref under the prefix points at an object. -/
theorem exists_tags (h : ∀ name id, s.refs.get? name = some id → Text.startsWith "refs/tags/" name = true →
    s.objects.contains id = true) : ∃ refs, s.tags = .ok refs := by
  have hlisted : ∀ entries : List (String × ObjectId), (∀ entry ∈ entries, s.objects.contains entry.2 = true) →
      ∃ listed : List (Option TagRef), entries.map (fun (name, id) => s.tagRef? name id) = listed.map .ok := by
    intro entries
    induction entries with
    | nil => exact fun _ => ⟨[], rfl⟩
    | cons entry rest ih =>
      intro hall
      obtain ⟨name, id⟩ := entry
      obtain ⟨listed, hrest⟩ := ih fun other hother => hall other (List.mem_cons_of_mem _ hother)
      have hpresent := hall (name, id) List.mem_cons_self
      rw [Std.TreeMap.contains_iff_mem, Std.TreeMap.mem_iff_isSome_getElem?, Option.isSome_iff_exists] at hpresent
      obtain ⟨stored, hstored⟩ := hpresent
      -- Whatever kind of object is stored, the ref on it can be listed.
      have hfirst : ∃ tag, s.tagRef? name id = .ok tag := by
        rw [tagRef?, hstored]
        cases stored <;> exact ⟨_, rfl⟩
      obtain ⟨tag, htag⟩ := hfirst
      exact ⟨tag :: listed, by simp only [List.map_cons, htag, hrest]⟩
  obtain ⟨listed, hall⟩ := hlisted s.tagEntries fun entry hentry =>
    let ⟨hget, hstarts⟩ := mem_tagEntries_iff.1 hentry
    h entry.1 entry.2 hget hstarts
  exact ⟨_, tags_eq_ok_iff.2 ⟨listed, hall, rfl⟩⟩

end Store

/-! ### Peeling what is listed -/

theorem Repository.Peels.unique {r : Repository} {tag : TagRef} {chain other : List Tag} {commit target : ObjectId}
    (h : r.Peels tag chain commit) (h' : r.Peels tag other target) : chain = other ∧ commit = target := by
  cases h with
  | lightweight =>
    cases h'
    exact ⟨rfl, rfl⟩
  | annotated hleads =>
    cases h' with
    | annotated hleads' => exact hleads.unique hleads'

namespace Publication

variable {s : Store} {limit : Nat} {tags : List PeeledTag} {p q : PeeledTag}

/-- In a store, the tags that are peeled are those that it lists and that lead to commits. -/
theorem mem_peeledTags_iff_lists (h : s.repository.run (peeledTags limit) = .ok tags) :
    p ∈ tags ↔ s.ListsTag p.tag ∧ s.repository.Peels p.tag p.chain p.commit := by
  rw [mem_peeledTags_iff h]
  refine and_congr_left fun _ => ⟨?_, fun hlists => ?_⟩
  · rintro ⟨refs, hrefs, hmem⟩
    exact (Store.mem_tags_iff hrefs).1 hmem
  · cases hrefs : s.repository.tags with
    | error e =>
      rw [peeledTags, Repository.run_bind, Repository.run_question, Repository.answer, hrefs] at h
      cases h
    | ok refs => exact ⟨refs, rfl, (Store.mem_tags_iff hrefs).2 hlists⟩

/-- A name is that of one tag. -/
theorem eq_of_tag_name (h : s.repository.run (peeledTags limit) = .ok tags) (hp : p ∈ tags) (hq : q ∈ tags)
    (hname : p.tag.name = q.tag.name) : p = q := by
  obtain ⟨⟨hget, -, href⟩, hpeels⟩ := (mem_peeledTags_iff_lists h).1 hp
  obtain ⟨⟨hget', -, href'⟩, hpeels'⟩ := (mem_peeledTags_iff_lists h).1 hq
  obtain ⟨tag, chain, commit⟩ := p
  obtain ⟨tag', chain', commit'⟩ := q
  change tag.name = tag'.name at hname
  rw [← hname] at hget' href'
  have hid := Option.some.inj (hget.symm.trans hget')
  change tag.id = tag'.id at hid
  rw [← hid] at href'
  obtain rfl : tag = tag' := Option.some.inj (Except.ok.inj (href.symm.trans href'))
  obtain ⟨rfl, rfl⟩ := hpeels.unique hpeels'
  rfl

theorem mem_peeledTags_iff_of_tags {r : Repository} {refs : List TagRef} (hrefs : r.tags = .ok refs)
    (h : r.run (peeledTags limit) = .ok tags) : p ∈ tags ↔ p.tag ∈ refs ∧ r.Peels p.tag p.chain p.commit := by
  rw [mem_peeledTags_iff h]
  simp only [hrefs, Except.ok.injEq, exists_eq_left']

/-- Where no name is listed twice, a name is that of one tag. -/
theorem eq_of_listed_once {r : Repository} {refs : List TagRef} (hrefs : r.tags = .ok refs)
    (hnames : (refs.map TagRef.name).Nodup) (h : r.run (peeledTags limit) = .ok tags) :
    ∀ p ∈ tags, ∀ q ∈ tags, p.tag.name = q.tag.name → p = q := by
  rintro ⟨tag, chain, commit⟩ hp ⟨tag', chain', commit'⟩ hq hname
  obtain ⟨hmem, hpeels⟩ := (mem_peeledTags_iff_of_tags hrefs h).1 hp
  obtain ⟨hmem', hpeels'⟩ := (mem_peeledTags_iff_of_tags hrefs h).1 hq
  obtain rfl : tag = tag' := List.inj_on_of_nodup_map hnames hmem hmem' hname
  obtain ⟨rfl, rfl⟩ := hpeels.unique hpeels'
  rfl

/-- Peeling succeeds where every listed tag leads to a commit within the limit. -/
theorem exists_peeledTags {r : Repository} {refs : List TagRef} (hrefs : r.tags = .ok refs)
    (h : ∀ tag ∈ refs, ∃ chain commit, r.Peels tag chain commit ∧ chain.length ≤ limit) :
    ∃ tags, r.run (peeledTags limit) = .ok tags := by
  -- The chains are chosen tag by tag, so that they stand in the order of the listing.
  have hpeeled : ∃ peeled : List PeeledTag, peeled.map (·.tag) = refs ∧
      ∀ p ∈ peeled, r.Peels p.tag p.chain p.commit ∧ p.chain.length ≤ limit := by
    clear hrefs
    induction refs with
    | nil => exact ⟨[], rfl, by simp⟩
    | cons tag refs ih =>
      obtain ⟨chain, commit, hfirst⟩ := h tag List.mem_cons_self
      obtain ⟨peeled, rfl, hall⟩ := ih fun other hother => h other (List.mem_cons_of_mem _ hother)
      refine ⟨⟨tag, chain, commit⟩ :: peeled, rfl, fun p hp => ?_⟩
      rcases List.mem_cons.1 hp with rfl | hp
      · exact hfirst
      · exact hall p hp
  obtain ⟨peeled, rfl, hall⟩ := hpeeled
  refine ⟨peeled, ?_⟩
  rw [peeledTags, Repository.run_bind, Repository.run_question, Repository.answer, hrefs]
  exact PeeledTag.run_ofRefs_of_peels hall

end Publication

end PrunedHistory
