import PrunedHistory.Proofs.Object.Framing
import PrunedHistory.Proofs.Repository.Addressing

/-! What stores keep when more is stored

    An object that is stored takes the place of one that was there under its id. Where the digest does not collide,
    both have the same body, so what is found under an id afterwards is of the same kind and points at the same
    objects. -/

namespace PrunedHistory

/-- The body that an object is filed by; that of a tree is not stored. -/
def Stored.HasBody : Stored → ByteArray → Prop
  | commit c, body => c.body = body
  | tag t, body => t.body = body
  | tree, _ => True

/-- The object is filed under the id by one of the hashed bodies. -/
def Stored.FiledBy (stored : Stored) (hashed : ObjectKind → ByteArray → Prop) (id : ObjectId) : Prop :=
  ∃ body, hashed stored.kind body ∧ stored.HasBody body ∧ ObjectId.ofBody stored.kind body = id

namespace Store

/-- Every stored object is filed by a hashed body. -/
def Files (s : Store) (hashed : ObjectKind → ByteArray → Prop) : Prop :=
  ∀ (id : ObjectId) (stored : Stored), s.objects[id]? = some stored → stored.FiledBy hashed id

variable {s : Store} {hashed : ObjectKind → ByteArray → Prop} {id key : ObjectId} {stored : Stored} {body : ByteArray}

theorem files_insert {refs : NameMap ObjectId} (h : s.Files hashed) (hnew : stored.FiledBy hashed key) :
    Files { objects := s.objects.insert key stored, refs } hashed := by
  intro id found hfound
  rcases stored_of_insert hfound with ⟨rfl, rfl⟩ | hold
  · exact hnew
  · exact h id found hold

/-- A store that is built files its objects, whatever was hashed. -/
theorem Built.files (h : Built s) : s.Files fun _ _ => True := by
  induction h with
  | empty =>
    intro id stored hstored
    simp [Store.empty] at hstored
  | insertCommit _ c ih => exact files_insert ih ⟨c.body, trivial, rfl, rfl⟩
  | insertTag _ t ih => exact files_insert ih ⟨t.body, trivial, rfl, rfl⟩
  | insertTree _ body ih => exact files_insert ih ⟨body, trivial, trivial, rfl⟩
  | setRef _ name target ih => exact ih

/-- The stored trees have the given bodies. -/
def TreesAre (s : Store) (bodies : ObjectId → ByteArray) : Prop :=
  ∀ id, s.hasTree id = true → ObjectId.ofBody .tree (bodies id) = id

theorem hasTree_iff : s.hasTree id = true ↔ s.objects[id]? = some .tree := by
  rw [hasTree, beq_iff_eq]

theorem tag_eq_ok_iff {t : Tag} : s.tag id = .ok t ↔ s.objects[id]? = some (.tag t) := by
  rw [tag]
  rcases s.objects[id]? with _ | (_ | found | _) <;> simp

/-- What is hashed about the stored objects. -/
inductive Holds (s : Store) (bodies : ObjectId → ByteArray) : ObjectKind → ByteArray → Prop where
  | commit {id : ObjectId} {c : Commit} : s.commit id = .ok c → Holds s bodies .commit c.body
  | tag {id : ObjectId} {t : Tag} : s.tag id = .ok t → Holds s bodies .tag t.body
  | tree {id : ObjectId} : s.hasTree id = true → Holds s bodies .tree (bodies id)

theorem Built.files_holds (h : Built s) {bodies : ObjectId → ByteArray} (hbodies : s.TreesAre bodies) :
    s.Files (s.Holds bodies) := by
  intro id stored hstored
  obtain ⟨body, -, hbody, hid⟩ := h.files id stored hstored
  cases stored with
  | commit c => exact ⟨c.body, .commit (commit_eq_ok_iff.2 hstored), rfl, hbody ▸ hid⟩
  | tag t => exact ⟨t.body, .tag (tag_eq_ok_iff.2 hstored), rfl, hbody ▸ hid⟩
  | tree =>
    have htree := hasTree_iff.2 hstored
    exact ⟨bodies id, .tree htree, trivial, hbodies id htree⟩

theorem Files.mono (h : s.Files hashed) {more : ObjectKind → ByteArray → Prop}
    (hsub : ∀ kind body, hashed kind body → more kind body) : s.Files more := by
  intro id stored hstored
  obtain ⟨body, hhashed, hbody, hid⟩ := h id stored hstored
  exact ⟨body, hsub _ _ hhashed, hbody, hid⟩

theorem Files.contentAddressed (h : s.Files hashed) : s.repository.ContentAddressed := by
  intro id c hc
  obtain ⟨body, -, hbody, hid⟩ := h id (.commit c) (commit_eq_ok_iff.1 hc)
  obtain rfl : c.body = body := hbody
  exact hid

theorem Files.id_of_tag (h : s.Files hashed) {t : Tag} (ht : s.tag id = .ok t) : t.id = id := by
  obtain ⟨body, -, hbody, hid⟩ := h id (.tag t) (tag_eq_ok_iff.1 ht)
  obtain rfl : t.body = body := hbody
  exact hid

/-- In a store that is built, a tag object is found under its own id. -/
theorem Built.id_of_tag (h : Built s) {t : Tag} (ht : s.repository.tag id = .ok t) : t.id = id := h.files.id_of_tag ht

/-! ### What is found under an id -/

/-- Under the id of a hashed body there is nothing else. -/
theorem Files.hasBody (h : s.Files hashed) (hfree : ObjectId.CollisionFree hashed) {kind : ObjectKind}
    (hstored : s.objects[ObjectId.ofBody kind body]? = some stored) (hhashed : hashed kind body) :
    stored.kind = kind ∧ stored.HasBody body := by
  obtain ⟨found, hfound, hbody, hid⟩ := h _ stored hstored
  obtain ⟨hkind, rfl⟩ := hfree.eq_of_ofBody hfound hhashed hid
  exact ⟨hkind, hbody⟩

/-- The object that the id of a hashed body is taken by. -/
theorem Files.exists_stored (h : s.Files hashed) (hfree : ObjectId.CollisionFree hashed) {kind : ObjectKind}
    (hpresent : s.objects.contains (ObjectId.ofBody kind body) = true) (hhashed : hashed kind body) :
    ∃ stored, s.objects[ObjectId.ofBody kind body]? = some stored ∧ stored.kind = kind ∧ stored.HasBody body := by
  rw [Std.TreeMap.contains_iff_mem, Std.TreeMap.mem_iff_isSome_getElem?, Option.isSome_iff_exists] at hpresent
  obtain ⟨stored, hstored⟩ := hpresent
  exact ⟨stored, hstored, h.hasBody hfree hstored hhashed⟩

theorem Files.exists_commit (h : s.Files hashed) (hfree : ObjectId.CollisionFree hashed) {c : Commit}
    (hpresent : s.objects.contains c.id = true) (hhashed : hashed .commit c.body) :
    ∃ found, s.commit c.id = .ok found ∧ found.body = c.body := by
  obtain ⟨stored, hstored, hkind, hbody⟩ := h.exists_stored hfree hpresent hhashed
  cases stored with
  | commit found => exact ⟨found, commit_eq_ok_iff.2 hstored, hbody⟩
  | tag t | tree => cases hkind

theorem Files.exists_tag (h : s.Files hashed) (hfree : ObjectId.CollisionFree hashed) {t : Tag}
    (hpresent : s.objects.contains t.id = true) (hhashed : hashed .tag t.body) :
    ∃ found, s.tag t.id = .ok found ∧ found.body = t.body := by
  obtain ⟨stored, hstored, hkind, hbody⟩ := h.exists_stored hfree hpresent hhashed
  cases stored with
  | tag found => exact ⟨found, tag_eq_ok_iff.2 hstored, hbody⟩
  | commit c | tree => cases hkind

theorem Files.hasTree_of_hashed (h : s.Files hashed) (hfree : ObjectId.CollisionFree hashed)
    (hpresent : s.objects.contains (ObjectId.ofBody .tree body) = true) (hhashed : hashed .tree body) :
    s.hasTree (ObjectId.ofBody .tree body) = true := by
  obtain ⟨stored, hstored, hkind, -⟩ := h.exists_stored hfree hpresent hhashed
  cases stored with
  | tree => exact hasTree_iff.2 hstored
  | commit c | tag t => cases hkind

/-! ### Storing one object after the other -/

section

variable {α : Type} (step : Store → α → Store) (key : α → ObjectId) (value : α → Stored)
  (hstep : ∀ s a, (step s a).objects = s.objects.insert (key a) (value a))

include hstep

theorem files_foldl : ∀ {items : List α} {s : Store}, s.Files hashed → (∀ a ∈ items, (value a).FiledBy hashed (key a)) →
    (items.foldl step s).Files hashed
  | [], _, h, _ => h
  | a :: items, s, h, hitems => by
      have hfirst : (step s a).Files hashed := by
        have hinsert : Files { objects := s.objects.insert (key a) (value a) } hashed :=
          files_insert h (hitems a (by simp))
        intro id stored hstored
        rw [hstep] at hstored
        exact hinsert id stored hstored
      rw [List.foldl_cons]
      exact files_foldl hfirst fun b hb => hitems b (List.mem_cons_of_mem _ hb)

/-- What is there stays, and what is stored is there. -/
theorem contains_foldl : ∀ {items : List α} {s : Store}, (s.objects.contains id = true ∨ id ∈ items.map key) →
    (items.foldl step s).objects.contains id = true
  | [], _, h => by simpa using h
  | a :: items, s, h => by
      rw [List.foldl_cons]
      refine contains_foldl ?_
      rw [hstep, Std.TreeMap.contains_insert, Bool.or_eq_true, beq_iff_eq, Std.LawfulEqCmp.compare_eq_iff_eq]
      rw [List.map_cons, List.mem_cons, eq_comm (a := id)] at h
      rcases h with h | h | h
      · exact .inl (.inr h)
      · exact .inl (.inl h)
      · exact .inr h

end

/-! ### Commits and tag objects -/

/-- The store with all the commits. -/
def insertCommits (s : Store) (commits : List Commit) : Store := commits.foldl insertCommit s

/-- The store with all the tag objects. -/
def insertTags (s : Store) (tags : List Tag) : Store := tags.foldl insertTag s

variable {commits : List Commit} {tags : List Tag}

theorem files_insertCommits (h : s.Files hashed) (hcommits : ∀ c ∈ commits, hashed .commit c.body) :
    (s.insertCommits commits).Files hashed :=
  files_foldl _ Commit.id .commit (fun _ _ => rfl) h fun c hc => ⟨c.body, hcommits c hc, rfl, rfl⟩

theorem files_insertTags (h : s.Files hashed) (htags : ∀ t ∈ tags, hashed .tag t.body) :
    (s.insertTags tags).Files hashed :=
  files_foldl _ Tag.id .tag (fun _ _ => rfl) h fun t ht => ⟨t.body, htags t ht, rfl, rfl⟩

theorem contains_insertCommits (h : s.objects.contains id = true ∨ id ∈ commits.map Commit.id) :
    (s.insertCommits commits).objects.contains id = true :=
  contains_foldl _ Commit.id .commit (fun _ _ => rfl) h

theorem contains_insertTags (h : s.objects.contains id = true ∨ id ∈ tags.map Tag.id) :
    (s.insertTags tags).objects.contains id = true :=
  contains_foldl _ Tag.id .tag (fun _ _ => rfl) h

end Store

end PrunedHistory
