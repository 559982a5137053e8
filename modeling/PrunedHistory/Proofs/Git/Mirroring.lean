import PrunedHistory.Proofs.Git.Installation
import PrunedHistory.Proofs.Object.CommitGrammar
import PrunedHistory.Proofs.Object.TagGrammar
import PrunedHistory.Proofs.Publication.Idempotence

/-! The same history on disk and in memory

    Tables mirror a store if they hold its refs and each of its objects as it is written. The store answers from typed
    objects, git prints bodies, kinds and a listing that have to be read first. Main statement: where all objects are
    read back and every ref and its line can be told, both answer every question alike, so every publication ends alike
    on both. -/

namespace PrunedHistory

namespace Git

/-- The object is one of a store as it is written. -/
def StoredObject.Writes (o : StoredObject) (stored : Stored) : Prop := o.kind = stored.kind ∧ stored.HasBody o.body

/-- The tables hold the refs of a store, and its objects as they are written. -/
structure Tables.Mirrors (t : Tables) (s : Store) : Prop where
  refs : t.refs = s.refs
  objects : ∀ id : ObjectId, Option.Rel StoredObject.Writes t.objects[id]? s.objects[id]?

end Git

/-- A commit or a tag object is read back from its body. -/
def Stored.ReadsBack : Stored → Prop
  | commit c => Commit.parse c.body = .ok c
  | tag t => Tag.parse t.body = .ok t
  | tree => True

namespace Store

/-- Every commit and every tag object is read back from its body. -/
def ReadsBack (s : Store) : Prop :=
  ∀ (id : ObjectId) (stored : Stored), s.objects[id]? = some stored → stored.ReadsBack

/-- Every ref points at an object that is there, and its name stays whole in a listing of lines. -/
def RefsListed (s : Store) : Prop :=
  ∀ name id, s.refs.get? name = some id →
    s.objects.contains id = true ∧ '\n' ∉ name.toList ∧ name.toList.getLast? ≠ some '\r'

variable {s : Store}

theorem refsListed_empty : empty.RefsListed := fun _ _ hget => nomatch hget

theorem RefsListed.insert (h : s.RefsListed) (key : ObjectId) (stored : Stored) :
    RefsListed { s with objects := s.objects.insert key stored } := by
  intro name id hget
  obtain ⟨hpresent, hname⟩ := h name id hget
  refine ⟨?_, hname⟩
  rw [Std.TreeMap.contains_insert, hpresent, Bool.or_true]

theorem RefsListed.setRef (h : s.RefsListed) {name : String} {id : ObjectId} (hpresent : s.objects.contains id = true)
    (hbreak : '\n' ∉ name.toList) (hlast : name.toList.getLast? ≠ some '\r') : (s.setRef name id).RefsListed := by
  intro other target hget
  rw [Store.setRef, NameMap.get?_insert] at hget
  split at hget
  · rename_i hname
    obtain rfl := Option.some.inj hget
    rw [hname]
    exact ⟨hpresent, hbreak, hlast⟩
  · exact h other target hget

end Store

namespace Git

open Text (startsWith)

variable {t : Tables} {s : Store} {id : ObjectId} {name : String}

/-! ### Tables of a store -/

namespace Tables

theorem mirrors_empty : Mirrors {} .empty where
  refs := rfl
  objects id := by simp [Store.empty]

theorem Mirrors.insert (h : t.Mirrors s) {kind : ObjectKind} {body : ByteArray} {stored : Stored}
    (hkind : stored.kind = kind) (hbody : stored.HasBody body) :
    (t.insert kind body).Mirrors { s with objects := s.objects.insert (.ofBody kind body) stored } where
  refs := h.refs
  objects id := by
    rw [Tables.insert, Std.TreeMap.getElem?_insert, Std.TreeMap.getElem?_insert]
    split
    · exact .some ⟨hkind.symm, hbody⟩
    · exact h.objects id

theorem Mirrors.insertCommit (h : t.Mirrors s) (c : Commit) : (t.insert .commit c.body).Mirrors (s.insertCommit c) :=
  h.insert rfl rfl

theorem Mirrors.insertTag (h : t.Mirrors s) (tag : Tag) : (t.insert .tag tag.body).Mirrors (s.insertTag tag) :=
  h.insert rfl rfl

theorem Mirrors.insertTree (h : t.Mirrors s) (body : ByteArray) : (t.insert .tree body).Mirrors (s.insertTree body) :=
  h.insert rfl trivial

theorem Mirrors.setRef (h : t.Mirrors s) (name : String) (id : ObjectId) :
    (t.setRef name id).Mirrors (s.setRef name id) where
  refs := congrArg (·.insert name id) h.refs
  objects := h.objects

/-! ### Objects -/

theorem Mirrors.cases (h : t.Mirrors s) (id : ObjectId) :
    (t.objects[id]? = none ∧ s.objects[id]? = none) ∨
      ∃ o stored, t.objects[id]? = some o ∧ s.objects[id]? = some stored ∧ StoredObject.Writes o stored := by
  have hobject := h.objects id
  generalize t.objects[id]? = found at hobject
  generalize s.objects[id]? = stored at hobject
  cases hobject with
  | none => exact .inl ⟨rfl, rfl⟩
  | some hwrites => exact .inr ⟨_, _, rfl, rfl, hwrites⟩

/-- The body of an object of a kind is there, or both tell alike why it is not. -/
theorem Mirrors.body_cases (h : t.Mirrors s) (kind : ObjectKind) (id : ObjectId) :
    (s.objects[id]? = none ∧ t.body kind id = .error (.missingObject id)) ∨
      ∃ stored, s.objects[id]? = some stored ∧
        ((stored.kind ≠ kind ∧ t.body kind id = .error (.wrongKind id kind stored.kind)) ∨
          (stored.kind = kind ∧ ∃ body, stored.HasBody body ∧ t.body kind id = .ok body)) := by
  rcases h.cases id with ⟨hmissing, hnone⟩ | ⟨⟨other, body⟩, stored, hfound, hstored, rfl, hbody⟩
  · exact .inl ⟨hnone, by rw [Tables.body, hmissing]⟩
  · refine .inr ⟨stored, hstored, ?_⟩
    rw [Tables.body, hfound]
    by_cases hkind : stored.kind = kind
    · exact .inr ⟨hkind, body, hbody, if_pos hkind⟩
    · exact .inl ⟨hkind, if_neg hkind⟩

theorem Mirrors.commit_eq (h : t.Mirrors s) (hback : s.ReadsBack) (id : ObjectId) :
    t.repository.commit id = s.repository.commit id := by
  change (t.body .commit id).bind _ = s.commit id
  rw [Store.commit]
  rcases h.body_cases .commit id with
    ⟨hnone, hbody⟩ | ⟨stored, hstored, ⟨hkind, hbody⟩ | ⟨hkind, body, hwritten, hbody⟩⟩
  · rw [hbody, hnone]
    rfl
  · -- An object of another kind is refused by both, and with the same message.
    rw [hbody, hstored]
    cases stored with
    | commit c => exact absurd rfl hkind
    | tag _ | tree => rfl
  · cases stored with
    | commit c =>
      obtain rfl : c.body = body := hwritten
      have hread : Commit.parse c.body = .ok c := hback id _ hstored
      rw [hbody, Except.bind, hread, hstored]
      rfl
    | tag _ | tree => cases hkind

/-- A commit that the store reads has its body in the tables. -/
theorem Mirrors.object_of_read (h : t.Mirrors s) {c : Commit} (hread : s.repository.commit id = .ok c) :
    t.objects[id]? = some ⟨.commit, c.body⟩ := by
  have hstored := Store.stored_of_read hread
  rcases h.cases id with ⟨-, hnone⟩ | ⟨⟨kind, body⟩, stored, hfound, hstored', hkind, hbody⟩
  · rw [hstored] at hnone
    cases hnone
  · rw [hstored] at hstored'
    cases hstored'
    obtain rfl : kind = .commit := hkind
    obtain rfl : c.body = body := hbody
    exact hfound

theorem Mirrors.tag_eq (h : t.Mirrors s) (hback : s.ReadsBack) (id : ObjectId) :
    t.repository.tag id = s.repository.tag id := by
  change (t.body .tag id).bind _ = s.tag id
  rw [Store.tag]
  rcases h.body_cases .tag id with
    ⟨hnone, hbody⟩ | ⟨stored, hstored, ⟨hkind, hbody⟩ | ⟨hkind, body, hwritten, hbody⟩⟩
  · rw [hbody, hnone]
    rfl
  · rw [hbody, hstored]
    cases stored with
    | tag u => exact absurd rfl hkind
    | commit _ | tree => rfl
  · cases stored with
    | tag u =>
      obtain rfl : u.body = body := hwritten
      have hread : Tag.parse u.body = .ok u := hback id _ hstored
      rw [hbody, Except.bind, hread, hstored]
      rfl
    | commit _ | tree => cases hkind

theorem Mirrors.hasTree_eq (h : t.Mirrors s) (id : ObjectId) : t.repository.hasTree id = s.repository.hasTree id := by
  change Except.ok (Option.any _ t.objects[id]?) = .ok (s.objects[id]? == some .tree)
  rcases h.cases id with ⟨hmissing, hnone⟩ | ⟨⟨kind, body⟩, stored, hfound, hstored, rfl, -⟩
  · rw [hmissing, hnone]
    rfl
  · rw [hfound, hstored]
    cases stored <;> rfl

theorem Mirrors.resolve_eq (h : t.Mirrors s) (name : String) :
    t.repository.resolve name = s.repository.resolve name := by
  simp only [repository, h.refs]
  rfl

/-! ### The listing of tags -/

/-- A row of the listing, without its line break. -/
def tagRow (name : String) (id : ObjectId) (kind : ObjectKind) : List Char :=
  id.chars ++ ' ' :: (kind.name.toList ++ ' ' :: name.toList)

theorem refLine?_eq {o : StoredObject} (h : t.objects[id]? = some o) (name : String) :
    t.refLine? name id = some (.ofList (tagRow name id o.kind ++ ['\n'])) := by
  rw [refLine?, h, Option.map_some, Option.some.injEq, ← String.toList_inj]
  simp [tagRow, ObjectId.text]

theorem space_not_mem_chars (id : ObjectId) : ' ' ∉ id.chars := fun h => nomatch not_isBlank_of_mem_chars id ' ' h

/-- The name may have spaces: only the first two are read as marks. -/
theorem tagOfLine_tagRow (name : String) (id : ObjectId) (kind : ObjectKind) :
    Checkout.tagOfLine (tagRow name id kind) = .ok (match kind with
      | .commit => some (.lightweight name id)
      | .tag => some (.annotated name id)
      | _ => none) := by
  have hid : Text.cut? ' ' (tagRow name id kind) = some (id.chars, kind.name.toList ++ ' ' :: name.toList) :=
    Text.cut?_eq_some_iff.2 ⟨space_not_mem_chars id, rfl⟩
  have hkind : Text.cut? ' ' (kind.name.toList ++ ' ' :: name.toList) = some (kind.name.toList, name.toList) :=
    Text.cut?_eq_some_iff.2 ⟨by cases kind <;> decide, rfl⟩
  rw [Checkout.tagOfLine, hid]
  simp only [hkind, ObjectId.ofChars?_chars, String.ofList_toList, ObjectKind.ofName?_name]
  cases kind <;> rfl

theorem tagRow_is_line (hbreak : '\n' ∉ name.toList) (hlast : name.toList.getLast? ≠ some '\r') (id : ObjectId)
    (kind : ObjectKind) : '\n' ∉ tagRow name id kind ∧ Text.dropFinal? '\r' (tagRow name id kind) = none := by
  have hkind : '\n' ∉ kind.name.toList := by cases kind <;> decide
  constructor
  · simp [tagRow, id.newline_not_mem_chars, hkind, hbreak]
  · have hrow : tagRow name id kind = (id.chars ++ ' ' :: kind.name.toList ++ [' ']) ++ name.toList := by simp [tagRow]
    rw [Text.dropFinal?_eq_none_iff, hrow, List.getLast?_append, List.getLast?_concat]
    cases hname : name.toList.getLast? with
    | none => simp
    | some ch => simpa [hname] using hlast

/-- The tag that a ref lists, if it points at a commit or a tag object. -/
def tagRef? (t : Tables) (name : String) (id : ObjectId) : Option TagRef :=
  t.objects[id]?.bind fun o => match o.kind with
    | .commit => some (.lightweight name id)
    | .tag => some (.annotated name id)
    | _ => none

/-- All refs under the prefix have a line in the listing, which is read as the tags that they list. -/
theorem listing_eq : ∀ {entries : List (String × ObjectId)},
    (∀ entry ∈ entries, t.objects.contains entry.2 = true ∧ '\n' ∉ entry.1.toList ∧
      entry.1.toList.getLast? ≠ some '\r') →
    ∃ rows : List (List Char),
      entries.mapM (fun (name, id) => t.refLine? name id) = some (rows.map fun row => .ofList (row ++ ['\n'])) ∧
      (∀ row ∈ rows, row ≠ [] ∧ '\n' ∉ row ∧ Text.dropFinal? '\r' row = none) ∧
      rows.mapM Checkout.tagOfLine = .ok (entries.map fun (name, id) => t.tagRef? name id)
  | [], _ => ⟨[], rfl, by simp, rfl⟩
  | (name, id) :: entries, hall => by
      obtain ⟨⟨hpresent, hbreak, hlast⟩, hrest⟩ := List.forall_mem_cons.1 hall
      obtain ⟨rows, hlines, hrows, hread⟩ := listing_eq hrest
      rw [Std.TreeMap.contains_eq_isSome_getElem?] at hpresent
      obtain ⟨o, hfound⟩ := Option.isSome_iff_exists.1 hpresent
      -- The row of the first tag, and below it the rows of the others.
      refine ⟨tagRow name id o.kind :: rows, ?_,
        List.forall_mem_cons.2 ⟨⟨?_, tagRow_is_line hbreak hlast ..⟩, hrows⟩, ?_⟩
      · rw [List.mapM_cons, hlines]
        dsimp only
        rw [refLine?_eq hfound]
        rfl
      · simp [tagRow]
      · rw [List.mapM_cons, hread, tagOfLine_tagRow, List.map_cons]
        dsimp only
        rw [tagRef?, hfound]
        rfl

/-- A listing is read line by line. -/
theorem lines_join {rows : List (List Char)} (h : ∀ row ∈ rows, '\n' ∉ row ∧ Text.dropFinal? '\r' row = none) :
    Text.lines (String.join (rows.map fun row => .ofList (row ++ ['\n']))).toList = rows := by
  have htext : (String.join (rows.map fun row => .ofList (row ++ ['\n']))).toList = rows.flatMap (· ++ ['\n']) := by
    rw [String.toList_join, List.flatMap_map]
    simp only [String.toList_ofList]
  rw [htext, Text.lines_flatMap h]

theorem tagsOfListing_join {rows : List (List Char)}
    (h : ∀ row ∈ rows, row ≠ [] ∧ '\n' ∉ row ∧ Text.dropFinal? '\r' row = none) :
    Checkout.tagsOfListing (String.join (rows.map fun row => .ofList (row ++ ['\n'])))
      = (rows.mapM Checkout.tagOfLine).map fun tags => tags.filterMap fun tag => tag := by
  have hfull : rows.filter (!·.isEmpty) = rows := by
    rw [List.filter_eq_self]
    intro row hrow
    simpa using (h row hrow).1
  rw [Checkout.tagsOfListing, lines_join fun row hrow => (h row hrow).2, hfull]
  cases rows.mapM Checkout.tagOfLine <;> rfl

/-- Where every ref under the prefix and its line can be told, the tags are those that the refs list. -/
theorem repository_tags_eq (hall : ∀ entry ∈ t.refsUnder "refs/tags/", t.objects.contains entry.2 = true ∧
      '\n' ∉ entry.1.toList ∧ entry.1.toList.getLast? ≠ some '\r') :
    t.repository.tags = .ok ((t.refsUnder "refs/tags/").filterMap fun (name, id) => t.tagRef? name id) := by
  obtain ⟨rows, hlines, hrows, hread⟩ := listing_eq hall
  rw [repository_tags_of_lines hlines, tagsOfListing_join hrows, hread]
  exact congrArg Except.ok List.filterMap_map

theorem Mirrors.contains_eq (h : t.Mirrors s) (id : ObjectId) : t.objects.contains id = s.objects.contains id := by
  rw [Std.TreeMap.contains_eq_isSome_getElem?, Std.TreeMap.contains_eq_isSome_getElem?]
  rcases h.cases id with ⟨hmissing, hnone⟩ | ⟨o, stored, hfound, hstored, -⟩
  · rw [hmissing, hnone]
    rfl
  · rw [hfound, hstored]
    rfl

theorem Mirrors.tagRef_eq (h : t.Mirrors s) (hpresent : s.objects.contains id = true) (name : String) :
    s.tagRef? name id = .ok (t.tagRef? name id) := by
  rw [Store.tagRef?, tagRef?]
  rcases h.cases id with ⟨-, hnone⟩ | ⟨⟨kind, body⟩, stored, hfound, hstored, rfl, -⟩
  · rw [Std.TreeMap.contains_eq_isSome_getElem?, hnone] at hpresent
    cases hpresent
  · rw [hfound, hstored]
    cases stored <;> rfl

theorem Mirrors.tags_eq (h : t.Mirrors s) (hrefs : s.RefsListed) : t.repository.tags = s.repository.tags := by
  have hentries : s.tagEntries = t.refsUnder "refs/tags/" := by rw [s.tagEntries_eq, ← h.refs, refsUnder]
  have hall : ∀ entry ∈ t.refsUnder "refs/tags/", s.objects.contains entry.2 = true ∧ '\n' ∉ entry.1.toList ∧
      entry.1.toList.getLast? ≠ some '\r' := by
    intro (name, id) hentry
    exact hrefs name id (Store.mem_tagEntries_iff.1 (hentries ▸ hentry)).1
  have hread : (t.refsUnder "refs/tags/").map (fun (name, id) => s.tagRef? name id)
      = ((t.refsUnder "refs/tags/").map fun (name, id) => t.tagRef? name id).map .ok := by
    rw [List.map_map]
    exact List.map_congr_left fun (name, id) hentry => h.tagRef_eq (hall _ hentry).1 name
  have htags : s.tags = .ok ((t.refsUnder "refs/tags/").filterMap fun (name, id) => t.tagRef? name id) := by
    rw [Store.tags, hentries, Publication.mapM_of_map hread]
    exact congrArg Except.ok List.filterMap_map
  rw [repository_tags_eq fun entry hentry => by rw [h.contains_eq]; exact hall entry hentry]
  exact htags.symm

/-- The tables answer every question as the store does. -/
theorem Mirrors.repository_eq (h : t.Mirrors s) (hback : s.ReadsBack) (hrefs : s.RefsListed) :
    t.repository = s.repository := by
  have hparts : ∀ {r r' : Repository}, r.commit = r'.commit → r.tag = r'.tag → r.hasTree = r'.hasTree →
      r.resolve = r'.resolve → r.tags = r'.tags → r = r' := by
    rintro ⟨⟩ ⟨⟩ rfl rfl rfl rfl rfl
    rfl
  exact hparts (funext (h.commit_eq hback)) (funext (h.tag_eq hback)) (funext h.hasTree_eq) (funext h.resolve_eq)
    (h.tags_eq hrefs)

end Tables

variable {σ : Type} {git : Installation σ} {c : Checkout} {g : σ}

/-- Where git answers from tables that mirror a store, the repository on disk and the store answer every question alike,
    errors included, and every list of requests ends with the same outcome or the same error on both, whatever the
    limit. -/
theorem reads_agree_with_store (hgit : git.ReadsTables c) (hmirrors : (git.tables g).Mirrors s) (hback : s.ReadsBack)
    (hrefs : s.RefsListed) :
    (∀ q, (git.serve (c.answer q) g).1 = s.repository.answer q) ∧
      ∀ requests cancelled limit,
        (git.serve (c.read (Session.execute { requests } cancelled limit)) g).1
          = s.repository.run (Session.execute { requests } cancelled limit) := by
  rw [← hmirrors.repository_eq hback hrefs]
  exact ⟨fun q => (hgit.tells_answer q g).1, fun requests cancelled limit => (hgit.tells_read _ g).1⟩

open Publication (rootCommit releasedCommit releaseTag releaseStore releaseSession stored_of_releaseStore
  releaseStore_computed ok_of_toOption)

/-- The store with a commit on a root and a tag object on it, as git holds it. -/
def releaseTables : Tables :=
  ((((({} : Tables).insert .tree ⟨#[]⟩).insert .commit rootCommit.body).insert .commit releasedCommit.body).insert .tag
    releaseTag.body).setRef "refs/tags/v1" releaseTag.id |>.setRef "refs/heads/main" releasedCommit.id

theorem releaseTables_mirrors : releaseTables.Mirrors releaseStore :=
  (((((Tables.mirrors_empty.insertTree _).insertCommit _).insertCommit _).insertTag _).setRef _ _).setRef _ _

theorem releaseStore_readsBack : releaseStore.ReadsBack := by
  intro id stored hstored
  rcases stored_of_releaseStore hstored with ⟨rfl, -⟩ | rfl | rfl | rfl
  · trivial
  · exact Commit.parse_body_iff.2 (by decide)
  · exact Commit.parse_body_iff.2 (by decide)
  · exact Tag.parse_body_iff.2 (by decide)

theorem releaseStore_refsListed : releaseStore.RefsListed := by
  refine ((((((Store.refsListed_empty.insert _ _).insert _ _).insert _ _).insert _ _).setRef ?_ ?_ ?_).setRef ?_ ?_ ?_)
  · simp
  · decide
  · decide
  · simp [Store.setRef]
  · decide
  · decide

/-- Git lists the tag as the store does, and a publication ends alike on both. -/
theorem release_reads_agree :
    (Installation.ofTables.serve (Checkout.answer ⟨".git"⟩ .tags) releaseTables).1
        = .ok [.annotated "refs/tags/v1" releaseTag.id] ∧
      (Installation.ofTables.serve
          (Checkout.read ⟨".git"⟩ (Session.execute { requests := releaseSession.requests } (fun _ => false) 1))
          releaseTables).1
        = releaseStore.repository.run (Session.execute { requests := releaseSession.requests } (fun _ => false) 1) := by
  have hmirrors : (Installation.ofTables.tables releaseTables).Mirrors releaseStore := by
    rw [Installation.tables_ofTables]
    exact releaseTables_mirrors
  obtain ⟨hanswer, hexecute⟩ := reads_agree_with_store (Installation.ofTables_readsTables ⟨".git"⟩) hmirrors
    releaseStore_readsBack releaseStore_refsListed
  have htags : releaseStore.repository.tags = .ok [.annotated "refs/tags/v1" releaseTag.id] :=
    ok_of_toOption releaseStore_computed.2.2.2.2.1
  refine ⟨?_, hexecute _ _ 1⟩
  rw [hanswer, Repository.answer, htags]

end Git

end PrunedHistory
