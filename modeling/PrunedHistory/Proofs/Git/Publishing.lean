import PrunedHistory.Proofs.Git.Errands
import PrunedHistory.Proofs.Git.Mirroring
import PrunedHistory.Proofs.Publication.Completeness
import PrunedHistory.Proofs.Publication.PublishedStore

/-! What publishing leaves in a repository

    Where git files what it stores under its id, each step of publishing changes the tables by one entry. Where the
    digest does not collide, no entry takes the place of another object, and where the names of refs stay apart in the
    namespace, no ref takes the place of another. Main statement: publishing an outcome that was made from a repository
    succeeds there, every ref of it then points where it should with nothing missing behind it, and nothing else has
    changed. -/

namespace PrunedHistory

/-- The new objects, as they are written. -/
def Outcome.newObjects (o : Outcome) : List Git.StoredObject :=
  o.commits.map (fun new => ⟨.commit, new.commit.body⟩) ++ o.tagObjects.map fun t => ⟨.tag, t.body⟩

/-- No two refs of the outcome come to the same name in a namespace, unless they agree: of two names, none is the other
    with the prefix before it, and a head and a retained tag of one name are in one place. -/
structure Outcome.NamesApart (o : Outcome) : Prop where
  distinct : ∀ name id other id', (name, id) ∈ o.refs → (other, id') ∈ o.refs → other ≠ "refs/" ++ name
  agree : ∀ name head tag id, o.heads.get? name = some head → o.tags.get? name = some tag → tag.after = some id →
    id = head.after

theorem Outcome.NamesApart.functional {o : Outcome} (h : o.NamesApart) {name : String} {id other : ObjectId}
    (hid : (name, id) ∈ o.refs) (hother : (name, other) ∈ o.refs) : id = other := by
  rw [Store.mem_refs_iff] at hid hother
  rcases hid with ⟨head, hhead, rfl⟩ | ⟨tag, htag, hafter⟩ <;>
    rcases hother with ⟨head', hhead', rfl⟩ | ⟨tag', htag', hafter'⟩
  · rw [hhead] at hhead'
    cases hhead'
    rfl
  · exact (h.agree _ _ _ _ hhead htag' hafter').symm
  · exact h.agree _ _ _ _ hhead' htag hafter
  · rw [htag] at htag'
    cases htag'
    exact Option.some.inj (hafter.symm.trans hafter')

namespace Git

open Checkout (Step publishedName publishSteps)

/-- A stored object is filed under its id, which is printed, and a ref can be moved to every object that is there. -/
structure Installation.WritesTables {σ : Type} (git : Installation σ) (c : Checkout) : Prop where
  store : ∀ s kind body,
    Errand.Accepts ⟨c.storeCall kind body, some (.ofBody kind body)⟩ (git.respond s (c.storeCall kind body)).1 ∧
      git.tables (git.respond s (c.storeCall kind body)).2 = (git.tables s).insert kind body
  ref : ∀ s name (id : ObjectId), (git.tables s).objects.contains id = true →
    Errand.Accepts ⟨c.refCall name id, none⟩ (git.respond s (c.refCall name id)).1 ∧
      git.tables (git.respond s (c.refCall name id)).2 = (git.tables s).setRef name id

namespace Tables

/-- Every object lies under its id and was hashed. -/
def FiledBy (t : Tables) (hashed : ObjectKind → ByteArray → Prop) : Prop :=
  ∀ (id : ObjectId) (o : StoredObject), t.objects[id]? = some o → hashed o.kind o.body ∧ .ofBody o.kind o.body = id

/-- What is hashed when an outcome is written: the objects that are there and the new ones. -/
def Hashed (t : Tables) (o : Outcome) (kind : ObjectKind) (body : ByteArray) : Prop :=
  (∃ id : ObjectId, t.objects[id]? = some ⟨kind, body⟩) ∨ ⟨kind, body⟩ ∈ o.newObjects

def insertAll (t : Tables) (objects : List StoredObject) : Tables := objects.foldl (fun t o => t.insert o.kind o.body) t

/-- The tables after a step. -/
def apply (t : Tables) : Step → Tables
  | .commit new => t.insert .commit new.commit.body
  | .tag new => t.insert .tag new.body
  | .ref name id => t.setRef name id

/-- The step can be taken: a commit is told by its own id, and a ref moves to an object that is there. -/
def Ready (t : Tables) : Step → Prop
  | .commit new => new.commit.id = new.id
  | .tag _ => True
  | .ref _ id => t.objects.contains id = true

/-- The steps can be taken one after the other. -/
def ReadyAll (t : Tables) : List Step → Prop
  | [] => True
  | step :: rest => t.Ready step ∧ (t.apply step).ReadyAll rest

end Tables

variable {σ : Type} {git : Installation σ} {c : Checkout} {s : σ} {t : Tables} {outcome : Outcome} {space : String}
  {hashed : ObjectKind → ByteArray → Prop}

/-! ### Taking steps -/

section

variable (hgit : git.WritesTables c)

include hgit

theorem serve_ready_step {step : Step} (hready : (git.tables s).Ready step) :
    (git.serve (c.publishStep step) s).1 = .ok () ∧
      git.tables (git.serve (c.publishStep step) s).2 = (git.tables s).apply step := by
  obtain ⟨hstate, hok⟩ := serve_publishStep git.respond c step s
  change (git.serve (c.publishStep step) s).2 = _ at hstate
  rw [hstate]
  cases step with
  | commit new =>
    obtain ⟨haccepts, htables⟩ := hgit.store s .commit new.commit.body
    have hid : ObjectId.ofBody .commit new.commit.body = new.id := hready
    rw [hid] at haccepts
    exact ⟨hok.2 haccepts, htables⟩
  | tag new =>
    obtain ⟨haccepts, htables⟩ := hgit.store s .tag new.body
    exact ⟨hok.2 haccepts, htables⟩
  | ref name id =>
    obtain ⟨haccepts, htables⟩ := hgit.ref s name id hready
    exact ⟨hok.2 haccepts, htables⟩

theorem serve_ready_steps : ∀ {steps : List Step} {s : σ}, (git.tables s).ReadyAll steps →
    (git.serve (c.takeSteps steps) s).1 = .ok () ∧
      git.tables (git.serve (c.takeSteps steps) s).2 = steps.foldl Tables.apply (git.tables s)
  | [], s, _ => ⟨rfl, rfl⟩
  | step :: rest, s, ⟨hfirst, hrest⟩ => by
      obtain ⟨hresult, htables⟩ := serve_ready_step hgit hfirst
      rw [← htables] at hrest
      rw [Checkout.takeSteps, Installation.serve_bind, hresult, List.foldl_cons, ← htables]
      exact serve_ready_steps hrest

end

namespace Tables

theorem readyAll_append {more : List Step} : ∀ {steps : List Step} {t : Tables},
    t.ReadyAll (steps ++ more) ↔ t.ReadyAll steps ∧ (steps.foldl apply t).ReadyAll more
  | [], t => by simp [ReadyAll]
  | step :: steps, t => by
      rw [List.cons_append, ReadyAll, ReadyAll, readyAll_append, and_assoc, List.foldl_cons]

/-- Steps can be taken if each of them can be taken wherever a property holds that all of them keep. -/
theorem readyAll_of (P : Tables → Prop) : ∀ {steps : List Step} {t : Tables},
    (∀ step ∈ steps, ∀ t, P t → t.Ready step ∧ P (t.apply step)) → P t → t.ReadyAll steps
  | [], _, _, _ => trivial
  | step :: _, t, hall, ht => by
      obtain ⟨hready, hnext⟩ := hall step List.mem_cons_self t ht
      exact ⟨hready, readyAll_of P (fun other hother => hall other (List.mem_cons_of_mem step hother)) hnext⟩

/-! ### Objects -/

theorem getElem?_insert (t : Tables) (kind : ObjectKind) (body : ByteArray) (id : ObjectId) :
    (t.insert kind body).objects[id]?
      = if ObjectId.ofBody kind body = id then some ⟨kind, body⟩ else t.objects[id]? := by
  rw [Tables.insert, Std.TreeMap.getElem?_insert]
  simp only [Std.LawfulEqCmp.compare_eq_iff_eq]

theorem object_of_insert {kind : ObjectKind} {body : ByteArray} {id : ObjectId} {o : StoredObject}
    (h : (t.insert kind body).objects[id]? = some o) :
    (o = ⟨kind, body⟩ ∧ .ofBody kind body = id) ∨ t.objects[id]? = some o := by
  rw [getElem?_insert] at h
  split at h
  · exact .inl ⟨(Option.some.inj h).symm, ‹_›⟩
  · exact .inr h

/-- What lies under the id of an object is this object. -/
theorem FiledBy.eq_of_found (h : t.FiledBy hashed) (hfree : ObjectId.CollisionFree hashed) {o found : StoredObject}
    (ho : hashed o.kind o.body) (hfound : t.objects[ObjectId.ofBody o.kind o.body]? = some found) : found = o := by
  obtain ⟨hhashed, hid⟩ := h _ found hfound
  obtain ⟨hkind, hbody⟩ := hfree.eq_of_ofBody hhashed ho hid
  obtain ⟨kind, body⟩ := o
  obtain ⟨kind', body'⟩ := found
  obtain rfl : kind' = kind := hkind
  obtain rfl : body' = body := hbody
  rfl

theorem insert_keeps (h : t.FiledBy hashed) (hfree : ObjectId.CollisionFree hashed) {o : StoredObject}
    (ho : hashed o.kind o.body) :
    (t.insert o.kind o.body).FiledBy hashed ∧
      (t.insert o.kind o.body).objects[ObjectId.ofBody o.kind o.body]? = some o ∧
      ∀ (id : ObjectId) found, t.objects[id]? = some found → (t.insert o.kind o.body).objects[id]? = some found := by
  refine ⟨fun id found hfound => ?filed, ?stored, fun id found hfound => ?kept⟩
  case filed =>
    rcases object_of_insert hfound with ⟨rfl, hid⟩ | hfound
    · exact ⟨ho, hid⟩
    · exact h id found hfound
  case stored => rw [getElem?_insert, if_pos rfl]
  case kept =>
    rw [getElem?_insert]
    split
    · rename_i hid
      -- Filed under the same id before, it is the same object: the digests do not collide.
      subst hid
      rw [h.eq_of_found hfree ho hfound]
    · exact hfound

/-- Stored one after the other, all objects are there in the end, and what was there is still there. -/
theorem insertAll_keeps (hfree : ObjectId.CollisionFree hashed) : ∀ {objects : List StoredObject} {t : Tables},
    t.FiledBy hashed → (∀ o ∈ objects, hashed o.kind o.body) →
    (∀ o ∈ objects, (t.insertAll objects).objects[ObjectId.ofBody o.kind o.body]? = some o) ∧
      ∀ (id : ObjectId) found, t.objects[id]? = some found → (t.insertAll objects).objects[id]? = some found
  | [], _, _, _ => ⟨fun _ ho => (nomatch ho), fun _ _ hfound => hfound⟩
  | o :: objects, t, h, hall => by
      obtain ⟨hfiled, hstored, hkept⟩ := insert_keeps h hfree (hall o List.mem_cons_self)
      obtain ⟨hrest, hkept'⟩ :=
        insertAll_keeps hfree hfiled fun other hother => hall other (List.mem_cons_of_mem o hother)
      refine ⟨List.forall_mem_cons.2 ⟨hkept' _ o hstored, hrest⟩, fun id found hfound => ?_⟩
      exact hkept' id found (hkept id found hfound)

theorem insertAll_refs : ∀ (objects : List StoredObject) (t : Tables), (t.insertAll objects).refs = t.refs
  | [], _ => rfl
  | o :: objects, t => insertAll_refs objects (t.insert o.kind o.body)

/-! ### What is read from the tables -/

theorem body_eq_ok_iff {kind : ObjectKind} {id : ObjectId} {body : ByteArray} :
    t.body kind id = .ok body ↔ t.objects[id]? = some ⟨kind, body⟩ := by
  rw [Tables.body]
  cases t.objects[id]? with
  | none => simp
  | some o =>
    obtain ⟨kind', body'⟩ := o
    by_cases hkind : kind' = kind <;> simp [hkind]

theorem parsed_eq_ok_iff {α ε : Type} {kind : ObjectKind} {id : ObjectId} {parse : ByteArray → Except ε α}
    {blame : ε → ReadError} {a : α} :
    ((t.body kind id).bind fun body => (parse body).mapError blame) = .ok a ↔
      ∃ body, t.objects[id]? = some ⟨kind, body⟩ ∧ parse body = .ok a := by
  simp only [← body_eq_ok_iff]
  cases t.body kind id with
  | error e => simp [Except.bind]
  | ok body =>
    simp only [Except.bind, Except.ok.injEq, exists_eq_left']
    cases parse body <;> simp [Except.mapError]

theorem commit_eq_ok_iff {id : ObjectId} {commit : Commit} : t.repository.commit id = .ok commit ↔
    ∃ body, t.objects[id]? = some ⟨.commit, body⟩ ∧ Commit.parse body = .ok commit :=
  parsed_eq_ok_iff

theorem tag_eq_ok_iff {id : ObjectId} {tag : Tag} : t.repository.tag id = .ok tag ↔
    ∃ body, t.objects[id]? = some ⟨.tag, body⟩ ∧ Tag.parse body = .ok tag :=
  parsed_eq_ok_iff

theorem hasTree_iff {id : ObjectId} :
    t.repository.hasTree id = .ok true ↔ ∃ body, t.objects[id]? = some ⟨.tree, body⟩ := by
  change Except.ok (Option.any _ t.objects[id]?) = _ ↔ _
  cases t.objects[id]? with
  | none => simp
  | some o =>
    obtain ⟨kind, body⟩ := o
    simp

theorem repository_readsWellFormed (t : Tables) : t.repository.ReadsWellFormed where
  commit id commit h := by
    obtain ⟨body, -, hparse⟩ := commit_eq_ok_iff.1 h
    exact (Commit.parse_eq_ok_iff.1 hparse).1
  tag id tag h := by
    obtain ⟨body, -, hparse⟩ := tag_eq_ok_iff.1 h
    exact (Tag.parse_eq_ok_iff.1 hparse).1

/-- Tables that keep all objects and have the new ones take in the outcome. -/
theorem repository_takes {t' : Tables}
    (hkept : ∀ (id : ObjectId) found, t.objects[id]? = some found → t'.objects[id]? = some found)
    (hnew : ∀ o ∈ outcome.newObjects, t'.objects[ObjectId.ofBody o.kind o.body]? = some o)
    (hcommits : ∀ new ∈ outcome.commits, new.commit.id = new.id ∧ new.commit.WellFormed)
    (htags : ∀ tag ∈ outcome.tagObjects, tag.WellFormed) : t.repository.Takes t'.repository outcome where
  commit id commit h := by
    obtain ⟨body, hfound, hparse⟩ := commit_eq_ok_iff.1 h
    exact commit_eq_ok_iff.2 ⟨body, hkept id _ hfound, hparse⟩
  tag id tag h := by
    obtain ⟨body, hfound, hparse⟩ := tag_eq_ok_iff.1 h
    exact tag_eq_ok_iff.2 ⟨body, hkept id _ hfound, hparse⟩
  tree id h := by
    obtain ⟨body, hfound⟩ := hasTree_iff.1 h
    exact hasTree_iff.2 ⟨body, hkept id _ hfound⟩
  newCommit new hmem := by
    obtain ⟨hid, hformed⟩ := hcommits new hmem
    have hfound := hnew ⟨.commit, new.commit.body⟩ (List.mem_append_left _ (List.mem_map_of_mem hmem))
    rw [← hid]
    exact commit_eq_ok_iff.2 ⟨_, hfound, Commit.parse_body_iff.2 hformed⟩
  newTag tag hmem := by
    have hfound := hnew ⟨.tag, tag.body⟩ (List.mem_append_right _ (List.mem_map_of_mem hmem))
    exact tag_eq_ok_iff.2 ⟨_, hfound, Tag.parse_body_iff.2 (htags tag hmem)⟩

theorem contains_of_hasHistory {id : ObjectId} (h : t.repository.HasHistory id) : t.objects.contains id = true := by
  obtain ⟨commit, hload⟩ := h id .refl
  obtain ⟨body, hfound, -⟩ := commit_eq_ok_iff.1 hload.1
  rw [Std.TreeMap.contains_eq_isSome_getElem?, hfound]
  rfl

theorem contains_of_leadsToHistory {id : ObjectId} (h : t.repository.LeadsToHistory id) :
    t.objects.contains id = true := by
  rcases h with h | ⟨chain, commit, hleads, -⟩
  · exact contains_of_hasHistory h
  · obtain ⟨tag, htag⟩ := hleads.exists_tag
    obtain ⟨body, hfound, -⟩ := tag_eq_ok_iff.1 htag
    rw [Std.TreeMap.contains_eq_isSome_getElem?, hfound]
    rfl

end Tables

/-! ### Names of refs -/

/-- The refs that are published, under their names in the namespace. -/
def published (outcome : Outcome) (space : String) : List (String × ObjectId) :=
  outcome.heads.entries.map (fun (name, head) => (publishedName space name, head.after))
    ++ outcome.tags.entries.filterMap fun (name, tag) => tag.after.map (publishedName space name, ·)

theorem mem_published_iff {name : String} {id : ObjectId} :
    (name, id) ∈ published outcome space ↔ ∃ old, (old, id) ∈ outcome.refs ∧ publishedName space old = name := by
  have hpublished : published outcome space
      = outcome.heads.entries.map (fun entry => (publishedName space entry.1, entry.2.after))
        ++ outcome.tags.entries.filterMap fun entry => entry.2.after.map (publishedName space entry.1, ·) := rfl
  simp only [hpublished, Outcome.refs, List.mem_append, List.mem_map, List.mem_filterMap, Prod.exists,
    Option.map_eq_some_iff, Prod.mk.injEq]
  constructor
  · rintro (⟨old, head, hmem, rfl, rfl⟩ | ⟨old, tag, hmem, _, hid, rfl, rfl⟩)
    · exact ⟨old, .inr ⟨old, head, hmem, rfl, rfl⟩, rfl⟩
    · exact ⟨old, .inl ⟨old, tag, hmem, _, hid, rfl, rfl⟩, rfl⟩
  · rintro ⟨_, ⟨old, tag, hmem, _, hid, rfl, rfl⟩ | ⟨old, head, hmem, rfl, rfl⟩, rfl⟩
    · exact .inr ⟨_, tag, hmem, _, hid, rfl, rfl⟩
    · exact .inl ⟨_, head, hmem, rfl, rfl⟩

/-- In the namespace, the name stands as it is or without its prefix. -/
theorem exists_publishedName (space name : String) :
    ∃ rest, publishedName space name = space ++ rest ∧ (name = rest ∨ name = "refs/" ++ rest) := by
  rw [publishedName]
  split
  · rename_i hstarts
    have hsplit := List.prefix_iff_eq_append.1 (Text.startsWith_iff.1 hstarts)
    exact ⟨_, rfl, .inr (String.toList_inj.1 (by simpa using hsplit.symm))⟩
  · exact ⟨name, rfl, .inl rfl⟩

/-- Names in the namespace are equal only if the names are, or one is the other with the prefix before it. -/
theorem eq_of_publishedName {name other : String} (h : publishedName space name = publishedName space other) :
    name = other ∨ other = "refs/" ++ name ∨ name = "refs/" ++ other := by
  obtain ⟨rest, hrest, hname⟩ := exists_publishedName space name
  obtain ⟨rest', hrest', hother⟩ := exists_publishedName space other
  rw [hrest, hrest', String.append_right_inj] at h
  subst h
  rcases hname with rfl | rfl <;> rcases hother with rfl | rfl
  · exact .inl rfl
  · exact .inr (.inl rfl)
  · exact .inr (.inr rfl)
  · exact .inl rfl

theorem published_functional (h : outcome.NamesApart) {name : String} {id other : ObjectId}
    (hid : (name, id) ∈ published outcome space) (hother : (name, other) ∈ published outcome space) : other = id := by
  obtain ⟨old, hold, hname⟩ := mem_published_iff.1 hid
  obtain ⟨old', hold', hname'⟩ := mem_published_iff.1 hother
  rcases eq_of_publishedName (hname.trans hname'.symm) with rfl | hrefs | hrefs
  · exact h.functional hold' hold
  · exact absurd hrefs (h.distinct _ _ _ _ hold hold')
  · exact absurd hrefs (h.distinct _ _ _ _ hold' hold)

/-! ### The whole of publishing -/

theorem publishSteps_eq (outcome : Outcome) (space : String) : publishSteps outcome space
    = outcome.commits.map .commit ++ outcome.tagObjects.map .tag
      ++ (published outcome space).map fun ref => .ref ref.1 ref.2 := by
  simp only [publishSteps, published, List.map_append, List.map_map, List.map_filterMap, Option.map_map,
    List.append_assoc]
  rfl

namespace Tables

theorem foldl_apply_refs : ∀ (refs : List (String × ObjectId)) (t : Tables),
    (refs.map fun ref => Step.ref ref.1 ref.2).foldl apply t = { t with refs := t.refs.insertAll refs }
  | [], _ => rfl
  | ref :: refs, t => foldl_apply_refs refs (t.setRef ref.1 ref.2)

theorem foldl_apply_objects (outcome : Outcome) (t : Tables) :
    (outcome.commits.map Step.commit ++ outcome.tagObjects.map Step.tag).foldl apply t
      = t.insertAll outcome.newObjects := by
  simp only [insertAll, Outcome.newObjects, List.foldl_append, List.foldl_map]
  rfl

/-- The tables with all new objects and all published refs. -/
def publish (t : Tables) (outcome : Outcome) (space : String) : Tables where
  objects := (t.insertAll outcome.newObjects).objects
  refs := t.refs.insertAll (published outcome space)

theorem foldl_apply_publishSteps (outcome : Outcome) (space : String) (t : Tables) :
    (publishSteps outcome space).foldl apply t = t.publish outcome space := by
  rw [publishSteps_eq, List.foldl_append, foldl_apply_objects, foldl_apply_refs, insertAll_refs, publish]

theorem readyAll_publishSteps (hids : ∀ new ∈ outcome.commits, new.commit.id = new.id)
    (hpresent : ∀ ref ∈ published outcome space, (t.insertAll outcome.newObjects).objects.contains ref.2 = true) :
    t.ReadyAll (publishSteps outcome space) := by
  rw [publishSteps_eq, readyAll_append, foldl_apply_objects]
  constructor
  · -- Storing needs the ids to be the digests; pointing needs the objects, which no reference update takes away.
    refine readyAll_of (fun _ => True) (fun step hstep t _ => ⟨?_, trivial⟩) trivial
    rcases List.mem_append.1 hstep with hstep | hstep
    · obtain ⟨new, hnew, rfl⟩ := List.mem_map.1 hstep
      exact hids new hnew
    · obtain ⟨tag, -, rfl⟩ := List.mem_map.1 hstep
      trivial
  · refine readyAll_of (fun t' => t'.objects = (t.insertAll outcome.newObjects).objects)
      (fun step hstep t' ht' => ?_) rfl
    obtain ⟨ref, href, rfl⟩ := List.mem_map.1 hstep
    refine ⟨?_, ht'⟩
    change t'.objects.contains ref.2 = true
    rw [ht']
    exact hpresent ref href

/-- The second tables are the first with the outcome published in a namespace: every head and every retained tag is
    there with nothing missing behind it, and nothing else has changed. -/
structure Receives (t : Tables) (outcome : Outcome) (space : String) (t' : Tables) : Prop where
  heads : ∀ name change, outcome.heads.get? name = some change →
    t'.refs.get? (publishedName space name) = some change.after ∧ t'.repository.HasHistory change.after
  tags : ∀ name change id, outcome.tags.get? name = some change → change.after = some id →
    t'.refs.get? (publishedName space name) = some id ∧ t'.repository.LeadsToHistory id
  objects : ∀ (id : ObjectId) o, t.objects[id]? = some o → t'.objects[id]? = some o
  refs : ∀ name, (∀ old id, (old, id) ∈ outcome.refs → publishedName space old ≠ name) →
    t'.refs.get? name = t.refs.get? name

section

variable {requests : List Request} {cancelled : List Event → Bool} {limit : Nat}
  (houtcome : (t.repository.run (Session.execute { requests } cancelled limit)).2.2 = .ok outcome)
  (hfiled : ∀ (id : ObjectId) o, t.objects[id]? = some o → .ofBody o.kind o.body = id)
  (hfree : ObjectId.CollisionFree (t.Hashed outcome))

include houtcome hfiled hfree

/-- Nothing is lost when the new objects are stored, and all of them are there. -/
theorem insertAll_takes :
    (∀ (id : ObjectId) o, t.objects[id]? = some o → (t.insertAll outcome.newObjects).objects[id]? = some o) ∧
      ∀ t' : Tables, t'.objects = (t.insertAll outcome.newObjects).objects →
        t.repository.Takes t'.repository outcome := by
  obtain ⟨hcommits, htags⟩ := Publication.new_objects_wellFormed houtcome (repository_readsWellFormed t)
  have hfiledBy : t.FiledBy (t.Hashed outcome) := fun id o hfound => ⟨.inl ⟨id, hfound⟩, hfiled id o hfound⟩
  obtain ⟨hnew, hold⟩ := insertAll_keeps hfree hfiledBy fun o (ho : o ∈ outcome.newObjects) => .inr ho
  refine ⟨hold, fun t' ht' => repository_takes ?_ ?_ hcommits htags⟩
  · rwa [ht']
  · rwa [ht']

/-- Once all objects are stored, there is something behind every ref that is to be moved. -/
theorem readyAll_of_outcome (space : String) : t.ReadyAll (publishSteps outcome space) := by
  obtain ⟨hcommits, -⟩ := Publication.new_objects_wellFormed houtcome (repository_readsWellFormed t)
  obtain ⟨hheads, htagged⟩ :=
    Publication.refs_lead_to_histories houtcome ((insertAll_takes houtcome hfiled hfree).2 _ rfl)
  refine readyAll_publishSteps (fun new hmem => (hcommits new hmem).1) ?_
  rintro ⟨name, id⟩ href
  obtain ⟨old, hmem, -⟩ := mem_published_iff.1 href
  rcases Store.mem_refs_iff.1 hmem with ⟨change, hchange, rfl⟩ | ⟨change, hchange, hafter⟩
  · exact contains_of_hasHistory (hheads old change hchange)
  · exact contains_of_leadsToHistory (htagged old change id hchange hafter)

theorem publish_receives (hnames : outcome.NamesApart) (space : String) :
    t.Receives outcome space (t.publish outcome space) := by
  obtain ⟨hold, htakes⟩ := insertAll_takes houtcome hfiled hfree
  obtain ⟨hheads, htagged⟩ := Publication.refs_lead_to_histories houtcome (htakes (t.publish outcome space) rfl)
  -- Two entries under one published name agree, so the later one does not replace the earlier.
  have hget : ∀ {name id}, (name, id) ∈ outcome.refs →
      (t.publish outcome space).refs.get? (publishedName space name) = some id := fun hmem =>
    have hpublished := mem_published_iff.2 ⟨_, hmem, rfl⟩
    NameMap.get?_insertAll (.inl hpublished) fun _ hother => published_functional hnames hpublished hother
  refine ⟨fun name change hchange => ⟨hget ?_, hheads name change hchange⟩,
    fun name change id hchange hafter => ⟨hget ?_, htagged name change id hchange hafter⟩, hold, fun name hother => ?_⟩
  · exact Store.mem_refs_iff.2 (.inl ⟨change, hchange, rfl⟩)
  · exact Store.mem_refs_iff.2 (.inr ⟨change, hchange, hafter⟩)
  · refine NameMap.get?_insertAll_of_not_mem fun id hmem => ?_
    obtain ⟨old, hold, hname⟩ := mem_published_iff.1 hmem
    exact hother old id hold hname

end

end Tables

/-- An outcome that was made from a repository can be published there, in any namespace: all calls succeed, every head
    and every retained tag has its ref with its whole history behind it, and no other ref and no object that was there
    has changed. Objects lie under their ids, the digest does not collide on what is written and what is there, and no
    two names of refs come to the same. -/
theorem publishing_leaves_whole_histories (hreads : git.ReadsTables c) (hwrites : git.WritesTables c)
    (hfiled : ∀ (id : ObjectId) o, (git.tables s).objects[id]? = some o → .ofBody o.kind o.body = id)
    {requests : List Request} {cancelled : List Event → Bool} {limit : Nat}
    (houtcome : (git.serve (c.read (Session.execute { requests } cancelled limit)) s).1.2.2 = .ok outcome)
    (hfree : ObjectId.CollisionFree ((git.tables s).Hashed outcome)) (hnames : outcome.NamesApart) (space : String) :
    ∃ s', git.serve (c.publish outcome space) (git.serve (c.read (Session.execute { requests } cancelled limit)) s).2
        = (.ok (), s') ∧
      (git.tables s).Receives outcome space (git.tables s') := by
  obtain ⟨hread, hkept⟩ := hreads.tells_read (Session.execute { requests } cancelled limit) s
  rw [hread] at houtcome
  have hready := Tables.readyAll_of_outcome houtcome hfiled hfree space
  rw [← hkept] at hready
  obtain ⟨hresult, htables⟩ := serve_ready_steps hwrites hready
  rw [hkept, Tables.foldl_apply_publishSteps] at htables
  refine ⟨_, Prod.ext hresult rfl, ?_⟩
  rw [Checkout.publish, htables]
  exact Tables.publish_receives houtcome hfiled hfree hnames space

/-! ### A repository with one release -/

theorem respond_store (t : Tables) (kind : ObjectKind) (body : ByteArray) :
    t.respond ["hash-object", "-t", kind.name, "-w", "--stdin"] body
      = (.success ((ObjectId.ofBody kind body).text ++ "\n"), t.insert kind body) := by
  simp only [Tables.respond, kind.ofName?_name]

theorem respond_ref {id : ObjectId} (h : t.objects.contains id = true) (name : String) (input : ByteArray) :
    t.respond ["update-ref", name, id.text] input = (.success "", t.setRef name id) := by
  have hid : ObjectId.ofChars? id.text.toList = some id := by
    rw [ObjectId.text, String.toList_ofList, ObjectId.ofChars?_chars]
  simp only [Tables.respond, hid, h, if_true]

theorem ofTables_writesTables (c : Checkout) : Installation.ofTables.WritesTables c where
  store t kind body := by
    have hrespond : Installation.ofTables.respond t (c.storeCall kind body)
        = (.ok (.success ((ObjectId.ofBody kind body).text ++ "\n")), t.insert kind body) := by
      simp only [Installation.respond_ofTables, Checkout.storeCall, Option.getD_some, respond_store]
    rw [hrespond]
    exact ⟨⟨_, rfl, rfl, by simp [ObjectId.spells_text]⟩, rfl⟩
  ref t name id hpresent := by
    rw [Installation.tables_ofTables] at hpresent
    have hrespond : Installation.ofTables.respond t (c.refCall name id) = (.ok (.success ""), t.setRef name id) := by
      simp only [Installation.respond_ofTables, Checkout.refCall, respond_ref hpresent]
    rw [hrespond]
    exact ⟨⟨_, rfl, rfl, by simp⟩, rfl⟩

open Publication

theorem releaseTables_files {id : ObjectId} {o : StoredObject} (h : releaseTables.objects[id]? = some o) :
    (o.kind, o.body) ∈ releaseHashed ∧ .ofBody o.kind o.body = id := by
  have hfiled : ∃ kind body, o = ⟨kind, body⟩ ∧ (kind, body) ∈ releaseHashed ∧ .ofBody kind body = id := by
    rcases Tables.object_of_insert h with ⟨rfl, rfl⟩ | h
    · exact ⟨_, _, rfl, by simp [releaseHashed], rfl⟩
    rcases Tables.object_of_insert h with ⟨rfl, rfl⟩ | h
    · exact ⟨_, _, rfl, by simp [releaseHashed], rfl⟩
    rcases Tables.object_of_insert h with ⟨rfl, rfl⟩ | h
    · exact ⟨_, _, rfl, by simp [releaseHashed], rfl⟩
    rcases Tables.object_of_insert h with ⟨rfl, rfl⟩ | h
    · exact ⟨_, _, rfl, by simp [releaseHashed], rfl⟩
    · simp at h
  obtain ⟨kind, body, rfl, hmem, hid⟩ := hfiled
  exact ⟨hmem, hid⟩

theorem release_hashed {progress : Progress} (hentries : progress.ledger.entries.toList = releaseEntries)
    (hobjects : (TagPass.ofTags progress.ledger [peeledReleaseTag]).objects = [loneTag]) {kind : ObjectKind}
    {body : ByteArray} (h : releaseTables.Hashed (progress.publish [peeledReleaseTag]).outcome kind body) :
    (kind, body) ∈ releaseHashed := by
  rcases h with ⟨id, hfound⟩ | hnew
  · exact (releaseTables_files hfound).1
  rcases List.mem_append.1 hnew with hnew | hnew
  · -- Of the two commits entered, only the lone one is under another id than its own.
    obtain ⟨new, hmem, heq⟩ := List.mem_map.1 hnew
    obtain ⟨e, he, hself, -⟩ := exists_entry_of_new hmem
    rw [hentries, hself] at he
    have hlone : e.commit = releasedCommit.id ∧ new = ⟨loneCommit.id, loneCommit⟩ := by
      simpa [releaseEntries] using he
    cases heq
    simp [releaseHashed, hlone.2]
  · obtain ⟨t, hmem, heq⟩ := List.mem_map.1 hnew
    change t ∈ (TagPass.ofTags progress.ledger [peeledReleaseTag]).objects at hmem
    rw [hobjects, List.mem_singleton] at hmem
    cases heq
    simp [releaseHashed, hmem]

theorem release_names {progress : Progress} {limit : Nat} {name : String}
    (hrun : releaseStore.repository.run (walks releaseSession.requests (fun _ => false) limit)
      = (progress, .ok [peeledReleaseTag])) :
    (∀ change, (progress.publish [peeledReleaseTag]).outcome.heads.get? name = some change → name = "refs/heads/main") ∧
      ∀ change, (progress.publish [peeledReleaseTag]).outcome.tags.get? name = some change → name = "refs/tags/v1" := by
  obtain ⟨heads, -, -, -, hheads⟩ := walks_ok_cases hrun
  constructor
  · intro change hchange
    change progress.heads.get? name = some change at hchange
    rw [hheads] at hchange
    obtain ⟨job, hjob, heq⟩ := List.mem_map.1 (NameMap.mem_of_get?_insertAll hchange)
    cases heq
    rw [List.mem_singleton.1 (List.of_mem_zip hjob).1]
    rfl
  · intro change hchange
    obtain ⟨p, hp, rfl, -⟩ := TagPass.exists_tag_of_change hchange
    rw [List.mem_singleton.1 hp]
    rfl

/-- The branch loses its root and its tag is built again. -/
theorem exists_release_outcome :
    ∃ outcome,
      (releaseTables.repository.run (Session.execute { requests := releaseSession.requests } (fun _ => false) 1)).2.2
        = .ok outcome ∧
      outcome.tagObjects = [loneTag] ∧ ObjectId.CollisionFree (releaseTables.Hashed outcome) ∧ outcome.NamesApart := by
  obtain ⟨progress, hrun, hentries, hobjects⟩ := exists_release_walks
  refine ⟨(progress.publish [peeledReleaseTag]).outcome, ?_, hobjects, ?_, ?_⟩
  · rw [releaseTables_mirrors.repository_eq releaseStore_readsBack releaseStore_refsListed]
    exact execute_of_walks (s := { requests := releaseSession.requests }) rfl hrun
  · exact collisionFree_releaseHashed.mono fun kind body => release_hashed hentries hobjects
  · have hrefs : ∀ {name id}, (name, id) ∈ (progress.publish [peeledReleaseTag]).outcome.refs →
        name = "refs/heads/main" ∨ name = "refs/tags/v1" := by
      intro name id hmem
      rcases Store.mem_refs_iff.1 hmem with ⟨change, hchange, -⟩ | ⟨change, hchange, -⟩
      · exact .inl ((release_names hrun).1 change hchange)
      · exact .inr ((release_names hrun).2 change hchange)
    refine ⟨fun name id other id' hmem hmem' => ?_, fun name head tag id hhead htag _ => ?_⟩
    · rcases hrefs hmem with rfl | rfl <;> rcases hrefs hmem' with rfl | rfl <;> decide
    · exact absurd (((release_names hrun).1 head hhead).symm.trans ((release_names hrun).2 tag htag)) (by decide)

/-- The rebuilt branch and tag are published, with all that is behind them. -/
theorem release_published :
    ∃ outcome t, (Installation.ofTables.serve
          (Checkout.read ⟨".git"⟩ (Session.execute { requests := releaseSession.requests } (fun _ => false) 1))
          releaseTables).1.2.2 = .ok outcome ∧
      outcome.tagObjects = [loneTag] ∧
      Installation.ofTables.serve (Checkout.publish ⟨".git"⟩ outcome "refs/published/")
          (Installation.ofTables.serve
            (Checkout.read ⟨".git"⟩ (Session.execute { requests := releaseSession.requests } (fun _ => false) 1))
            releaseTables).2 = (.ok (), t) ∧
      releaseTables.Receives outcome "refs/published/" t := by
  obtain ⟨outcome, houtcome, htag, hfree, hnames⟩ := exists_release_outcome
  have hagree := (Installation.ofTables_readsTables ⟨".git"⟩).tells_read
    (Session.execute { requests := releaseSession.requests } (fun _ => false) 1) releaseTables
  rw [Installation.Tells, Installation.tables_ofTables] at hagree
  rw [← hagree.1] at houtcome
  have hfiled : ∀ (id : ObjectId) o, (Installation.ofTables.tables releaseTables).objects[id]? = some o →
      .ofBody o.kind o.body = id := by
    rw [Installation.tables_ofTables]
    exact fun id o hfound => (releaseTables_files hfound).2
  have hfree : ObjectId.CollisionFree ((Installation.ofTables.tables releaseTables).Hashed outcome) := by
    rwa [Installation.tables_ofTables]
  obtain ⟨t, hserve, hreceives⟩ := publishing_leaves_whole_histories (Installation.ofTables_readsTables ⟨".git"⟩)
    (ofTables_writesTables ⟨".git"⟩) hfiled houtcome hfree hnames "refs/published/"
  exact ⟨outcome, t, houtcome, htag, hserve, hreceives⟩

end Git

end PrunedHistory
