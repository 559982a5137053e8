import Mathlib.Data.List.Forall2
import PrunedHistory.Proofs.Object.HeaderGrammar
import PrunedHistory.Proofs.Object.SignatureGrammar
import PrunedHistory.Proofs.Object.Spelling

/-! Which bodies are commits

    The headers that a commit is written with are read in the same order, and what is left when the committer is read
    are the others. Main statement: a body is read as a commit exactly if it is the text of that commit, but for the
    case of letters in ids and for the empty line before an empty message, and the commit is one whose parts can be
    told apart. -/

namespace PrunedHistory.Commit

/-- The commits whose parts can be told apart in their text. -/
structure WellFormed (c : Commit) : Prop where
  author : c.author.Canonical
  committer : c.committer.Canonical
  keys : ∀ h ∈ c.extra, Header.IsKey h.key ∧ h.key ∉ leading

theorem wellFormed_iff (c : Commit) : c.WellFormed ↔ c.author.Canonical ∧ c.committer.Canonical ∧
    ∀ h ∈ c.extra, Header.IsKey h.key ∧ h.key ∉ leading :=
  ⟨fun ⟨h₁, h₂, h₃⟩ => ⟨h₁, h₂, h₃⟩, fun ⟨h₁, h₂, h₃⟩ => ⟨h₁, h₂, h₃⟩⟩

instance (c : Commit) : Decidable c.WellFormed := decidable_of_iff' _ (wellFormed_iff c)

/-- The headers of the commit with the given texts for its ids. -/
def headersWith (c : Commit) (tree : String) (parents : List String) : List Header :=
  ⟨"tree", tree⟩ :: parents.map (⟨"parent", ·⟩) ++
    ⟨"author", c.author.text⟩ :: ⟨"committer", c.committer.text⟩ :: c.extra

/-- The headers are those of the commit, but for the case of letters in its ids. -/
def SpelledBy (c : Commit) (headers : List Header) : Prop :=
  ∃ tree parents, c.tree.Spells tree ∧ List.Forall₂ ObjectId.Spells c.parents parents ∧
    headers = c.headersWith tree parents

variable {c : Commit} {headers : List Header} {message : String}

/-! ### Reading the headers -/

theorem mapM_parents_of_spells : ∀ {ids : List ObjectId} {parents : List String},
    List.Forall₂ ObjectId.Spells ids parents →
      (parents.map (⟨"parent", ·⟩)).mapM (ObjectId.parse ·.value : Header → Except ObjectError ObjectId) = .ok ids
  | [], [], _ => rfl
  | id :: ids, parent :: parents, .cons hid hids => by
      rw [List.map_cons, List.mapM_cons, ObjectId.parse_eq_ok_iff.2 hid, mapM_parents_of_spells hids]
      rfl

/-- The parents are read up to the first header that is none. -/
theorem parents_of_read {rest : List Header} : ∀ {lines : List Header} {ids : List ObjectId},
    (lines.takeWhile (·.key = "parent")).mapM (ObjectId.parse ·.value) = .ok ids →
      lines.dropWhile (·.key = "parent") = rest →
      ∃ parents, List.Forall₂ ObjectId.Spells ids parents ∧ lines = parents.map (⟨"parent", ·⟩) ++ rest
  | [], ids, hread, hrest => by
      cases hread
      exact ⟨[], .nil, hrest⟩
  | ⟨key, value⟩ :: lines, ids, hread, hrest => by
      by_cases hkey : key = "parent"
      · subst hkey
        rw [List.takeWhile_cons_of_pos (by simp), List.mapM_cons, Header.bind_eq_ok_iff] at hread
        rw [List.dropWhile_cons_of_pos (by simp)] at hrest
        obtain ⟨id, hid, hread⟩ := hread
        obtain ⟨others, hothers, heq⟩ := Header.bind_eq_ok_iff.1 hread
        cases heq
        obtain ⟨parents, hall, rfl⟩ := parents_of_read hothers hrest
        exact ⟨value :: parents, .cons (ObjectId.parse_eq_ok_iff.1 hid) hall, rfl⟩
      · -- At the first header that is no parent both readers stop.
        rw [List.takeWhile_cons_of_neg (by simpa using hkey)] at hread
        rw [List.dropWhile_cons_of_neg (by simpa using hkey)] at hrest
        cases hread
        exact ⟨[], .nil, hrest⟩

theorem read_of_parents {ids : List ObjectId} {parents : List String} (h : List.Forall₂ ObjectId.Spells ids parents)
    (author : String) (after : List Header) :
    ((parents.map (⟨"parent", ·⟩) ++ ⟨"author", author⟩ :: after : List Header).takeWhile (·.key = "parent")).mapM
        (ObjectId.parse ·.value) = .ok ids ∧
      (parents.map (⟨"parent", ·⟩) ++ ⟨"author", author⟩ :: after : List Header).dropWhile (·.key = "parent")
        = ⟨"author", author⟩ :: after := by
  have hall : ∀ h ∈ (parents.map (⟨"parent", ·⟩) : List Header), decide (h.key = "parent") = true := by simp
  rw [List.takeWhile_append_of_pos hall, List.dropWhile_append_of_pos hall, List.takeWhile_cons_of_neg (by simp),
    List.dropWhile_cons_of_neg (by simp), List.append_nil]
  exact ⟨mapM_parents_of_spells h, rfl⟩

/-- Headers are read as a commit exactly if they are those of the commit, and its signatures can be read. -/
theorem ofHeaders_eq_ok_iff : ofHeaders headers message = .ok c ↔ c.SpelledBy headers ∧ c.message = message ∧
    c.author.Canonical ∧ c.committer.Canonical ∧ ∀ h ∈ c.extra, h.key ∉ leading := by
  simp only [ofHeaders, Header.bind_eq_ok_iff, Header.take_eq_ok_iff, ObjectId.parse_eq_ok_iff,
    Signature.parse_eq_ok_iff, Prod.exists]
  constructor
  · rintro ⟨tree, rest, rfl, treeId, htree, parents, hparents, author, rest', hauthor, authorSig, ⟨hauthorSig, rfl⟩,
      committer, extra, rfl, committerSig, ⟨hcommitterSig, rfl⟩, h⟩
    obtain ⟨lines, hlines, rfl⟩ := parents_of_read hparents hauthor
    split at h
    · cases h
    · rename_i hextra
      cases h
      exact ⟨⟨tree, lines, htree, hlines, rfl⟩, rfl, hauthorSig, hcommitterSig, by simpa using hextra⟩
  · rintro ⟨⟨tree, parents, htree, hparents, rfl⟩, rfl, hauthor, hcommitter, hextra⟩
    obtain ⟨hread, hrest⟩ := read_of_parents hparents c.author.text (⟨"committer", c.committer.text⟩ :: c.extra)
    refine ⟨tree, _, rfl, c.tree, htree, c.parents, hread, _, _, hrest, c.author, ⟨hauthor, rfl⟩, _, c.extra, rfl,
      c.committer, ⟨hcommitter, rfl⟩, ?_⟩
    rw [if_neg (by simpa using hextra)]
    rfl

/-! ### Reading the body -/

/-- The texts that are read as the commit: those of its headers, with its ids in letters of either case, and of its
    message, before which the empty line may be missing if it is empty. -/
def IsText (c : Commit) (text : String) : Prop := ∃ headers, c.SpelledBy headers ∧ Header.IsText headers c.message text

theorem parse_eq_ok_iff_headers {body : ByteArray} : parse body = .ok c ↔
    ∃ headers, Header.ofBody body = .ok (headers, c.message) ∧ ofHeaders headers c.message = .ok c := by
  exact Header.match_ofBody_eq_ok_iff fun _ _ h => (ofHeaders_eq_ok_iff.1 h).2.1

theorem SpelledBy.keys_iff (h : c.SpelledBy headers) :
    (∀ h ∈ headers, Header.IsKey h.key) ↔ ∀ h ∈ c.extra, Header.IsKey h.key := by
  obtain ⟨tree, parents, -, -, rfl⟩ := h
  have htree : Header.IsKey "tree" := by decide
  have hparent : Header.IsKey "parent" := by decide
  have hauthor : Header.IsKey "author" := by decide
  have hcommitter : Header.IsKey "committer" := by decide
  simp only [headersWith, List.cons_append, List.forall_mem_cons, List.forall_mem_append, List.forall_mem_map, htree,
    hparent, hauthor, hcommitter, implies_true, true_and]

theorem SpelledBy.ne_nil (h : c.SpelledBy headers) : headers ≠ [] := by
  obtain ⟨tree, parents, -, -, rfl⟩ := h
  simp [headersWith]

/-- A body is read as a commit exactly if it is a text of the commit, and the commit is well-formed. -/
theorem parse_eq_ok_iff {body : ByteArray} : parse body = .ok c ↔
    c.WellFormed ∧ ∃ text, c.IsText text ∧ body = text.toUTF8 := by
  rw [parse_eq_ok_iff_headers]
  simp only [Header.ofBody_eq_ok_iff, ofHeaders_eq_ok_iff, true_and]
  constructor
  · rintro ⟨headers, ⟨-, hkeys, text, htext, rfl⟩, hspelled, hauthor, hcommitter, hextra⟩
    have hall := hspelled.keys_iff.1 hkeys
    exact ⟨⟨hauthor, hcommitter, fun h hh => ⟨hall h hh, hextra h hh⟩⟩, text, ⟨headers, hspelled, htext⟩, rfl⟩
  · rintro ⟨hformed, text, ⟨headers, hspelled, htext⟩, rfl⟩
    have hkeys := hspelled.keys_iff.2 fun h hh => (hformed.keys h hh).1
    exact ⟨headers, ⟨hspelled.ne_nil, hkeys, text, htext, rfl⟩, hspelled, hformed.author, hformed.committer,
      fun h hh => (hformed.keys h hh).2⟩

theorem headers_eq_headersWith (c : Commit) : c.headers = c.headersWith c.tree.text (c.parents.map (·.text)) := by
  rw [headers, headersWith, List.map_map]
  rfl

theorem spelledBy_headers (c : Commit) : c.SpelledBy c.headers := by
  refine ⟨c.tree.text, c.parents.map (·.text), c.tree.spells_text, ?_, c.headers_eq_headersWith⟩
  rw [List.forall₂_map_right_iff, List.forall₂_same]
  exact fun p _ => p.spells_text

theorem eq_texts_iff : ∀ {ids : List ObjectId} {texts : List String}, List.Forall₂ ObjectId.Spells ids texts →
    (texts = ids.map (·.text) ↔ ∀ t ∈ texts, ∀ d ∈ t.toList, d.isUpper = false)
  | [], [], _ => by simp
  | id :: ids, t :: texts, .cons hid hids => by
      rw [List.map_cons, List.cons.injEq, hid.eq_text_iff, eq_texts_iff hids, List.forall_mem_cons]

theorem headersWith_inj {tree tree' : String} {parents parents' : List String} :
    c.headersWith tree parents = c.headersWith tree' parents' ↔ tree = tree' ∧ parents = parents' := by
  have hparent : Function.Injective (Header.mk "parent") := fun a b h => (Header.mk.inj h).2
  rw [headersWith, headersWith, List.cons_append, List.cons_append, List.cons.injEq, List.append_left_inj,
    hparent.list_map.eq_iff]
  simp

/-- No id in the headers has an upper-case letter. -/
def LowerIds (headers : List Header) : Prop :=
  ∀ h ∈ headers, h.key = "tree" ∨ h.key = "parent" → ∀ d ∈ h.value.toList, d.isUpper = false

/-- Headers that spell the commit are its own if the ids in them are in lower case. -/
theorem SpelledBy.eq_headers_iff (h : c.SpelledBy headers) (hextra : ∀ h ∈ c.extra, h.key ∉ leading) :
    headers = c.headers ↔ LowerIds headers := by
  obtain ⟨tree, parents, htree, hparents, rfl⟩ := h
  have hother : ∀ h ∈ c.extra, h.key = "tree" ∨ h.key = "parent" → ∀ d ∈ h.value.toList, d.isUpper = false := by
    rintro h hh (hkey | hkey)
    · exact absurd (by rw [hkey]; decide) (hextra h hh)
    · exact absurd (by rw [hkey]; decide) (hextra h hh)
  rw [headers_eq_headersWith, headersWith_inj, htree.eq_text_iff, eq_texts_iff hparents, LowerIds, headersWith,
    List.cons_append]
  simp only [List.forall_mem_cons, List.forall_mem_append, List.forall_mem_map]
  simpa using fun _ _ => hother

/-! ### What is read is what is written -/

/-- A well-formed commit is read back. -/
theorem parse_body_iff : parse c.body = .ok c ↔ c.WellFormed := by
  rw [parse_eq_ok_iff]
  exact and_iff_left ⟨c.text, ⟨c.headers, c.spelledBy_headers, .parted⟩, rfl⟩

/-- A body is that of one well-formed commit. -/
theorem WellFormed.eq_of_body {d : Commit} (hc : c.WellFormed) (hd : d.WellFormed) (h : c.body = d.body) : c = d := by
  have hread := parse_body_iff.2 hc
  rw [h, parse_body_iff.2 hd] at hread
  exact (Except.ok.inj hread).symm

theorem ofBody_body (h : c.WellFormed) : Header.ofBody c.body = .ok (c.headers, c.message) :=
  Header.ofBody_eq_ok_iff.2 ⟨c.spelledBy_headers.ne_nil, c.spelledBy_headers.keys_iff.2 fun h' hh => (h.keys h' hh).1,
    c.text, .parted, rfl⟩

/-- Of the bodies that are read as a commit, it is written as the one with lower-case ids and with its empty line. -/
theorem body_eq_iff {body : ByteArray} (h : parse body = .ok c) :
    ∃ headers, Header.ofBody body = .ok (headers, c.message) ∧ (c.body = body ↔
      LowerIds headers ∧ body = (String.ofList (Header.bodyChars headers c.message)).toUTF8) := by
  obtain ⟨hformed, -⟩ := parse_eq_ok_iff.1 h
  obtain ⟨headers, hread, hheaders⟩ := parse_eq_ok_iff_headers.1 h
  obtain ⟨hspelled, -, -, -, hextra⟩ := ofHeaders_eq_ok_iff.1 hheaders
  refine ⟨headers, hread, ?_⟩
  -- Ids in lower case spell the headers the encoder writes.
  rw [← hspelled.eq_headers_iff hextra]
  constructor
  · rintro rfl
    have hsame := hread.symm.trans (ofBody_body hformed)
    obtain ⟨rfl, -⟩ := Prod.mk.inj (Except.ok.inj hsame)
    exact ⟨rfl, rfl⟩
  · rintro ⟨rfl, hbody⟩
    exact hbody.symm

/-- Reading a body gives a commit exactly if the body is a text of that commit and the commit is well-formed. So a commit
    is read back from its own body exactly if it is well-formed. A body that is read is written again byte for byte
    exactly if its ids are in lower case and an empty line parts its headers from its message; then the commit has the
    id that the body is filed under. -/
theorem commits_are_their_texts :
    (∀ body c, parse body = .ok c ↔ c.WellFormed ∧ ∃ text, c.IsText text ∧ body = text.toUTF8) ∧
    (∀ c, parse c.body = .ok c ↔ c.WellFormed) ∧
    ∀ body c, parse body = .ok c → ∃ headers, Header.ofBody body = .ok (headers, c.message) ∧
      (c.body = body ↔ LowerIds headers ∧ body = (String.ofList (Header.bodyChars headers c.message)).toUTF8) ∧
      (LowerIds headers ∧ body = (String.ofList (Header.bodyChars headers c.message)).toUTF8 →
        c.id = .ofBody .commit body) := by
  refine ⟨fun _ _ => parse_eq_ok_iff, fun _ => parse_body_iff, fun body c h => ?_⟩
  obtain ⟨headers, hread, hiff⟩ := body_eq_iff h
  refine ⟨headers, hread, hiff, fun hplain => ?_⟩
  rw [← hiff.2 hplain]
  rfl

/-- A commit with most of what a body can hold: a parent named twice, marks and line breaks in its signatures, each
    spelling that is remembered, headers of several lines, and no message. -/
def patchwork : Commit where
  tree := ⟨0xAB⟩
  parents := [⟨0xCD⟩, ⟨0xCD⟩]
  author := ⟨"Ann\n> ", "a<\nb", -1, -5999, false, false⟩
  committer := ⟨"", "", 0, 0, true, true⟩
  extra := [⟨"gpgsig", "begin\n\n end\n"⟩, ⟨"tagger", ""⟩]
  message := ""

/-- Its headers with upper-case ids, and nothing after them. -/
def patchworkShouted : List Header :=
  patchwork.headersWith "00000000000000000000000000000000000000AB"
    ["00000000000000000000000000000000000000CD", "00000000000000000000000000000000000000cd"]

theorem patchwork_read :
    parse patchwork.body = .ok patchwork ∧
    parse (String.ofList (patchworkShouted.flatMap Header.chars)).toUTF8 = .ok patchwork ∧
    patchwork.body ≠ (String.ofList (patchworkShouted.flatMap Header.chars)).toUTF8 := by
  obtain ⟨hread, hown, hplain⟩ := commits_are_their_texts
  have hformed : patchwork.WellFormed := by decide
  have hspelled : patchwork.SpelledBy patchworkShouted :=
    ⟨_, _, by decide, .cons (by decide) (.cons (by decide) .nil), rfl⟩
  have hshouted := (hread _ patchwork).2 ⟨hformed, _, ⟨_, hspelled, .unparted rfl⟩, rfl⟩
  -- The shouted body is read, and written back with its ids in lower case.
  refine ⟨(hown patchwork).2 hformed, hshouted, fun hsame => ?_⟩
  obtain ⟨headers, hheaders, hlower, -⟩ := hplain _ _ hshouted
  have hkeys := hspelled.keys_iff.2 fun h hh => (hformed.keys h hh).1
  have hheaders' : Header.ofBody (String.ofList (patchworkShouted.flatMap Header.chars)).toUTF8
      = .ok (patchworkShouted, "") :=
    Header.ofBody_eq_ok_iff.2 ⟨hspelled.ne_nil, hkeys, _, .unparted rfl, rfl⟩
  obtain ⟨rfl, -⟩ := Prod.mk.inj (Except.ok.inj (hheaders.symm.trans hheaders'))
  have htree := (hlower.1 hsame).1 ⟨"tree", "00000000000000000000000000000000000000AB"⟩ (by decide) (.inl rfl)
  exact absurd (htree 'A' (by simp)) (by decide)

end PrunedHistory.Commit
