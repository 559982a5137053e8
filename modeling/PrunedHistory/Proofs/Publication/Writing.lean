import PrunedHistory.Proofs.Publication.Execution
import PrunedHistory.Proofs.Publication.Retargeting
import PrunedHistory.Proofs.Walk.Contraction

/-! Writing an outcome out

    What is new is listed so that it can be written in the listed order: a commit names its tree, its parents, a tag
    object what it is on, and each of these is there already or stands earlier in the list. Main statement: this holds
    of every publication that succeeds, and all refs that are left point at objects that are there afterwards. -/

namespace PrunedHistory

/-- Written in the listed order, no object of the outcome names one that is absent, and no ref does. -/
structure Outcome.Writable (r : Repository) (o : Outcome) : Prop where
  ids : ∀ new ∈ o.commits, new.id = new.commit.id
  trees : ∀ new ∈ o.commits, r.hasTree new.commit.tree = .ok true
  parents : ∀ before new after, o.commits = before ++ new :: after → ∀ p ∈ new.commit.parents,
    (∃ commit, r.commit p = .ok commit) ∨ p ∈ before.map (·.id)
  tagTargets : Grounded (o.commits.map (·.id)) o.tagObjects
  tagIds : (o.tagObjects.map Tag.id).Nodup
  heads : ∀ name change, o.heads.get? name = some change →
    (∃ commit, r.commit change.after = .ok commit) ∨ change.after ∈ o.commits.map (·.id)
  tags : ∀ name change id, o.tags.get? name = some change → change.after = some id →
    (∃ commit, r.commit id = .ok commit) ∨ (∃ tag, r.tag id = .ok tag) ∨
      id ∈ o.commits.map (·.id) ∨ id ∈ o.tagObjects.map Tag.id

namespace Ledger

/-- What an entry adds to the new commits. -/
def Entry.new? (e : Entry) : Option Replacement := e.decision.replacement?.filter (·.id != e.commit)

variable {r : Repository} {l : Ledger} {id a x : ObjectId} {new : Replacement} {e : Entry}

theorem Entry.new?_eq_some_iff : e.new? = some new ↔ e = ⟨e.commit, .keep new⟩ ∧ new.id ≠ e.commit := by
  rcases e with ⟨commit, kept | substitutes⟩
  · rw [new?, Decision.replacement?, Option.filter_eq_some_iff]
    simp only [Option.some.injEq, bne_iff_ne, Entry.mk.injEq, Decision.keep.injEq, true_and]
  · simp [new?, Decision.replacement?]

/-- All ancestors of a commit are recorded before it. -/
theorem Sound.older_of_descends (h : l.Sound r) {before after : List ObjectId}
    (hsplit : l.commits = before ++ id :: after) (hd : r.Descends id a) : a ∈ before := by
  induction hd with
  | single hparent => exact h.ordered before id after hsplit _ hparent
  | tail _ hparent ih =>
    obtain ⟨older, newer, rfl⟩ := List.append_of_mem ih
    have holder := h.ordered older _ (newer ++ id :: after) (by rw [hsplit]; simp) _ hparent
    exact List.mem_append_left _ holder

/-- A kept commit is there under its own id, or its replacement is new. -/
theorem Sound.present_or_new (h : l.Sound r) (he : e ∈ l.entries.toList) (hkeep : e.decision = .keep new) :
    (∃ commit, r.commit new.id = .ok commit) ∨ e.new? = some new := by
  obtain ⟨commit, decision⟩ := e
  obtain rfl : decision = .keep new := hkeep
  by_cases hid : new.id = commit
  · obtain ⟨found, hload⟩ := h.loads commit (h.mem_of_find? ((find?_eq_some_iff h.indexed).2 he))
    exact .inl ⟨found, hid ▸ hload.1⟩
  · exact .inr (Entry.new?_eq_some_iff.2 ⟨rfl, hid⟩)

end Ledger

namespace Publication

open Ledger (Entry)

variable {r : Repository} {progress : Progress} {tags : List PeeledTag} {x : ObjectId} {new : Replacement}

/-- The new commits come in the order of the entries. -/
theorem commits_publish (progress : Progress) (tags : List PeeledTag) :
    (progress.publish tags).outcome.commits = progress.ledger.entries.toList.filterMap Entry.new? := by
  rw [Progress.publish]
  dsimp only
  rw [Ledger.kept, List.filter_filterMap, List.map_filterMap]
  congr 1
  funext e
  obtain ⟨commit, decision⟩ := e
  cases decision with
  | keep new => by_cases hid : new.id = commit <;> simp [Entry.new?, Decision.replacement?, Option.filter, hid]
  | drop substitutes => rfl

theorem exists_entry_of_new (h : new ∈ (progress.publish tags).outcome.commits) :
    ∃ e ∈ progress.ledger.entries.toList, e = ⟨e.commit, .keep new⟩ ∧ new.id ≠ e.commit := by
  rw [commits_publish, List.mem_filterMap] at h
  obtain ⟨e, he, hnew⟩ := h
  exact ⟨e, he, Entry.new?_eq_some_iff.1 hnew⟩

/-- The commit that a new id stands for is there, or it is listed as new. -/
theorem present_or_listed (h : progress.ledger.Sound r) {k : ObjectId} (hk : progress.ledger.NewId k x) :
    (∃ commit, r.commit x = .ok commit) ∨ x ∈ (progress.publish tags).outcome.commits.map (·.id) := by
  obtain ⟨new, hkeep, rfl⟩ := hk
  have he := (Ledger.find?_eq_some_iff h.indexed).1 hkeep
  rcases h.present_or_new he rfl with hpresent | hnew
  · exact .inl hpresent
  · rw [commits_publish]
    exact .inr (List.mem_map_of_mem (List.mem_filterMap.2 ⟨_, he, hnew⟩))

theorem listed_of_moved (h : progress.ledger.Sound r) {k : ObjectId}
    (hkeep : progress.ledger.find? k = some (.keep new)) (hmoved : new.id ≠ k) :
    new ∈ (progress.publish tags).outcome.commits := by
  rw [commits_publish]
  exact List.mem_filterMap.2 ⟨_, (Ledger.find?_eq_some_iff h.indexed).1 hkeep, Entry.new?_eq_some_iff.2 ⟨rfl, hmoved⟩⟩

/-- A new commit stands on commits that are there, and on new ones in front of it. -/
theorem parents_of_listed (h : progress.ledger.Sound r) {before after : List Replacement}
    (hsplit : (progress.publish tags).outcome.commits = before ++ new :: after) {p : ObjectId}
    (hp : p ∈ new.commit.parents) : (∃ commit, r.commit p = .ok commit) ∨ p ∈ before.map (·.id) := by
  rw [commits_publish] at hsplit
  obtain ⟨older, rest, hentries, rfl, hrest⟩ := List.filterMap_eq_append_iff.1 hsplit
  obtain ⟨between, e, newer, rfl, hnone, hnew, -⟩ := List.filterMap_eq_cons_iff.1 hrest
  obtain ⟨hself, -⟩ := Entry.new?_eq_some_iff.1 hnew
  have hkeep : progress.ledger.find? e.commit = some (.keep new) := by
    rw [Ledger.find?_eq_some_iff h.indexed, hentries, ← hself]
    simp
  obtain ⟨a, ⟨new', hkeep', rfl⟩, hpass⟩ := (h.mem_newParents_iff hkeep).1 hp
  have hcommits : progress.ledger.commits
      = (older ++ between).map (·.commit) ++ e.commit :: newer.map (·.commit) := by
    rw [Ledger.commits, hentries]
    simp
  -- The ancestor is recorded in front of the commit, and its entry shows what became of it.
  obtain ⟨e', he', rfl⟩ := List.mem_map.1 (h.older_of_descends hcommits hpass.descends)
  have hmem : e' ∈ progress.ledger.entries.toList := by
    rw [hentries, ← List.append_assoc]
    exact List.mem_append_left _ he'
  have hdecision : e'.decision = .keep new' := by
    have hfind : progress.ledger.find? e'.commit = some e'.decision := (Ledger.find?_eq_some_iff h.indexed).2 hmem
    rw [hkeep'] at hfind
    exact (Option.some.inj hfind).symm
  rcases h.present_or_new hmem hdecision with hpresent | hnew'
  · exact .inl hpresent
  · refine .inr (List.mem_map_of_mem ?_)
    rcases List.mem_append.1 he' with he' | he'
    · exact List.mem_filterMap.2 ⟨e', he', hnew'⟩
    · rw [hnone e' he'] at hnew'
      cases hnew'

/-- The chains that are built again stand on new commits. -/
theorem grounded_rebuilt (h : progress.ledger.Sound r) :
    ∀ {peeled : List PeeledTag}, (∀ p ∈ peeled, r.Peels p.tag p.chain p.commit) →
      Grounded ((progress.publish tags).outcome.commits.map (·.id)) (peeled.flatMap (·.rebuilt progress.ledger)) := by
  intro peeled
  -- From the end, as the pass adds tag objects behind those already listed.
  induction peeled using List.reverseRecOn with
  | nil => exact fun _ => .nil
  | append_singleton peeled p ih =>
    intro hpeels
    have hfront := ih fun q hq => hpeels q (List.mem_append_left _ hq)
    rw [List.flatMap_append, List.flatMap_singleton, PeeledTag.rebuilt]
    cases hd : progress.ledger.find? p.commit with
    | none =>
      rw [List.append_nil]
      exact hfront
    | some d =>
      cases d with
      | drop substitutes =>
        rw [List.append_nil]
        exact hfront
      | keep new =>
        by_cases hmoved : new.id = p.commit
        · simp only [if_pos hmoved, List.append_nil]
          exact hfront
        · simp only [if_neg hmoved]
          have hlisted : new ∈ (progress.publish tags).outcome.commits := listed_of_moved h hd hmoved
          exact hfront.append_rebuild (hpeels p (by simp)) (List.mem_map_of_mem hlisted)

/-- Where a tag is afterwards, there is an object. -/
theorem tag_present (h : progress.ledger.Sound r) {p : PeeledTag} (hp : p ∈ tags)
    (hpeels : r.Peels p.tag p.chain p.commit) (hkeep : progress.ledger.find? p.commit = some (.keep new)) :
    (∃ commit, r.commit (p.position new.id) = .ok commit) ∨ (∃ tag, r.tag (p.position new.id) = .ok tag) ∨
      p.position new.id ∈ (progress.publish tags).outcome.commits.map (·.id) ∨
      p.position new.id ∈ (progress.publish tags).outcome.tagObjects.map Tag.id := by
  rw [PeeledTag.position]
  split
  · obtain ⟨commit, hload⟩ := h.loads p.commit (h.mem_of_find? hkeep)
    obtain ⟨tag, chain, target⟩ := p
    change r.Peels tag chain target at hpeels
    cases hpeels with
    | lightweight => exact .inl ⟨commit, hload.1⟩
    | annotated hleads =>
      cases hleads with
      | last htag _ | next htag _ _ => exact .inr (.inl ⟨_, htag⟩)
  · rename_i hmoved
    cases hlast : (p.rebuild new.id).getLast? with
    | none =>
      -- No tag object was rebuilt: the tag is lightweight and names the new commit.
      have hthere : (∃ commit, r.commit new.id = .ok commit) ∨
          new.id ∈ (progress.publish tags).outcome.commits.map (·.id) := present_or_listed h ⟨new, hkeep, rfl⟩
      rcases hthere with hpresent | hlisted
      · exact .inl hpresent
      · exact .inr (.inr (.inl hlisted))
    | some t =>
      have ht : t ∈ tags.flatMap (·.rebuilt progress.ledger) := by
        refine List.mem_flatMap.2 ⟨p, hp, ?_⟩
        rw [PeeledTag.rebuilt_of_keep hkeep hmoved]
        exact List.mem_of_getLast? hlast
      exact .inr (.inr (.inr ((TagPass.lists_ofTags progress.ledger tags).ids (List.mem_map_of_mem ht))))

/-- The outcome of every publication that succeeds can be written out in the listed order. -/
theorem outcome_can_be_written (r : Repository) (s : Session) (cancelled : List Event → Bool) (limit : Nat)
    (outcome : Outcome) (houtcome : (r.run (s.execute cancelled limit)).2.2 = .ok outcome) : outcome.Writable r := by
  obtain ⟨progress, tags, hwalks, rfl⟩ := execute_ok_cases houtcome
  obtain ⟨heads, -, hpeeled, hdone⟩ := exists_done_of_walks hwalks
  have hsound := hdone.settled.sound
  have hlists := TagPass.lists_ofTags progress.ledger tags
  have hpeels : ∀ p ∈ tags, r.Peels p.tag p.chain p.commit := fun p hp => ((mem_peeledTags_iff hpeeled p).1 hp).2
  have hkept : ∀ new ∈ (progress.publish tags).outcome.commits, ∃ k, progress.ledger.find? k = some (.keep new) := by
    intro new hnew
    obtain ⟨e, he, hself, -⟩ := exists_entry_of_new hnew
    exact ⟨e.commit, (Ledger.find?_eq_some_iff hsound.indexed).2 (hself ▸ he)⟩
  refine ⟨fun new hnew => ?ids, fun new hnew => ?trees, fun before new after hsplit p hp =>
    parents_of_listed hsound hsplit hp, hlists.grounded _ (grounded_rebuilt hsound hpeels), hlists.nodup,
    fun name change hchange => present_or_listed hsound (hdone.moved name change hchange),
    fun name change id hchange hafter => ?tags⟩
  case ids =>
    obtain ⟨k, hkeep⟩ := hkept new hnew
    exact (hsound.id_of_keep hkeep).symm
  case trees =>
    obtain ⟨k, hkeep⟩ := hkept new hnew
    obtain ⟨commit, hload⟩ := hsound.loads k (hsound.mem_of_find? hkeep)
    rw [hsound.keep_eq hkeep hload]
    exact hload.2
  case tags =>
    obtain ⟨p, hp, -, hp'⟩ := TagPass.exists_tag_of_change hchange
    obtain ⟨new, hkeep, rfl⟩ := PeeledTag.exists_keep_of_change? hp' hafter
    obtain rfl := Option.some.inj hafter
    exact tag_present hsound hp (hpeels p hp) hkeep

/-- A tag on a tag object on a commit whose parent is not published. -/
def nestedTag : Tag where
  object := ⟨2⟩
  kind := .commit
  name := "v1"
  message := ""

def nestedTagLine : Repository :=
  { Repository.ofParents [(⟨1⟩, []), (⟨2⟩, [⟨1⟩]), (⟨3⟩, [⟨2⟩])] with
    tag id := if id = ⟨7⟩ then .ok { nestedTag with object := ⟨8⟩, kind := .tag } else .ok nestedTag
    tags := .ok [.annotated "refs/tags/v1" ⟨7⟩] }

def nestedTagRequest : Request := { name := "refs/heads/main", retention := .abbreviated, start := some ⟨3⟩ }

def nestedTagSession : Session where
  requests := [nestedTagRequest]

def peeledNestedTag : PeeledTag where
  tag := .annotated "refs/tags/v1" ⟨7⟩
  chain := [{ nestedTag with object := ⟨8⟩, kind := .tag }, nestedTag]
  commit := ⟨2⟩

theorem nestedTagLine_peeled : nestedTagLine.run (peeledTags 2) = .ok [peeledNestedTag] := by
  have htags : nestedTagLine.tags = .ok ([peeledNestedTag].map (·.tag)) := rfl
  have hleads : nestedTagLine.LeadsTo ⟨7⟩ peeledNestedTag.chain ⟨2⟩ := .next rfl rfl (.last rfl rfl)
  rw [peeledTags, Repository.run_bind, Repository.run_question, Repository.answer, htags]
  refine PeeledTag.run_ofRefs_of_peels fun p hp => ?_
  obtain rfl := List.mem_singleton.1 hp
  exact ⟨.annotated hleads, Nat.le_refl 2⟩

theorem nestedTagLine_computed :
    (Walk.turns nestedTagLine (Retention.abbreviated.selection (member [⟨3⟩]) (member [⟨2⟩])) 20
      ⟨{}, {⟨3⟩}, [⟨⟨3⟩, Repository.bare [⟨2⟩], [⟨2⟩]⟩]⟩).map
        (fun ended => (((ended.1.entries.toList.filterMap Entry.new?).length,
          (TagPass.ofTags ended.1 [peeledNestedTag]).objects.length), ended.2.toOption)) = some ((2, 2), some ()) := by
  decide +kernel

/-- Two commits and two tag objects are new, and they can be written one after the other. -/
theorem writing_of_nestedTagLine :
    ∃ outcome, (nestedTagLine.run (nestedTagSession.execute (fun _ => false) 2)).2.2 = .ok outcome ∧
      outcome.commits.length = 2 ∧ outcome.tagObjects.length = 2 ∧ outcome.Writable nestedTagLine := by
  have hhead : nestedTagLine.head nestedTagRequest = .ok ⟨3⟩ := rfl
  obtain ⟨progress, hrun, -, hcounts⟩ := walks_of_turns (fun l => ((l.entries.toList.filterMap Entry.new?).length,
    (TagPass.ofTags l [peeledNestedTag]).objects.length)) hhead nestedTagLine_peeled ⟨by rfl, rfl⟩
      nestedTagLine_computed
  obtain ⟨hcommits, hobjects⟩ := Prod.mk.inj hcounts
  have houtcome := execute_of_walks (s := nestedTagSession) rfl hrun
  refine ⟨_, houtcome, ?_, hobjects, outcome_can_be_written nestedTagLine nestedTagSession _ _ _ houtcome⟩
  rw [commits_publish]
  exact hcommits

end Publication

end PrunedHistory
