import PrunedHistory.Proofs.Object.HeaderGrammar
import PrunedHistory.Proofs.Object.SignatureGrammar
import PrunedHistory.Proofs.Object.Spelling
import PrunedHistory.Object.Tag

/-! Which bodies are tags

    The object, its kind and the name come first, then perhaps a tagger, then any other headers. Only the first of
    these can be taken for a tagger. Main statement: a body is read as a tag exactly if it is the text of that tag, but
    for the case of letters in the id and for the empty line before an empty message, and the tag is one whose parts
    can be told apart. -/

namespace PrunedHistory

theorem ObjectKind.parse_eq_ok_iff {word : String} {kind : ObjectKind} : parse word = .ok kind ↔ word = kind.name := by
  constructor
  · intro h
    rw [parse] at h
    split at h
    · rename_i found hfound
      cases h
      unfold ofName? at hfound
      split at hfound <;> cases hfound <;> rfl
    · cases h
  · rintro rfl
    cases kind <;> rfl

namespace Tag

/-- The tags whose parts can be told apart in their text. -/
structure WellFormed (t : Tag) : Prop where
  tagger : ∀ g ∈ t.tagger, g.Canonical
  keys : ∀ h ∈ t.extra, Header.IsKey h.key
  untaken : t.tagger = none → ∀ h ∈ t.extra.head?, h.key ≠ "tagger"

theorem wellFormed_iff (t : Tag) : t.WellFormed ↔ (∀ g ∈ t.tagger, g.Canonical) ∧ (∀ h ∈ t.extra, Header.IsKey h.key) ∧
    (t.tagger = none → ∀ h ∈ t.extra.head?, h.key ≠ "tagger") :=
  ⟨fun ⟨h₁, h₂, h₃⟩ => ⟨h₁, h₂, h₃⟩, fun ⟨h₁, h₂, h₃⟩ => ⟨h₁, h₂, h₃⟩⟩

instance (t : Tag) : Decidable t.WellFormed := decidable_of_iff' _ (wellFormed_iff t)

/-- The headers of the tag with the given text for the id of its object. -/
def headersWith (t : Tag) (object : String) : List Header :=
  ⟨"object", object⟩ :: ⟨"type", t.kind.name⟩ :: ⟨"tag", t.name⟩ ::
    (t.tagger.toList.map fun g => ⟨"tagger", g.text⟩) ++ t.extra

/-- The headers are those of the tag, but for the case of letters in the id of its object. -/
def SpelledBy (t : Tag) (headers : List Header) : Prop :=
  ∃ object, t.object.Spells object ∧ headers = t.headersWith object

variable {t : Tag} {headers : List Header} {message : String}

/-! ### Reading the headers -/

/-- The next header is the tagger if its key says so. -/
theorem takeTagger_eq_ok_iff {tagger : Option Signature} {extra : List Header} :
    takeTagger headers = .ok (tagger, extra) ↔
      headers = (tagger.toList.map fun g => ⟨"tagger", g.text⟩) ++ extra ∧ (∀ g ∈ tagger, g.Canonical) ∧
        (tagger = none → ∀ h ∈ extra.head?, h.key ≠ "tagger") := by
  constructor
  · intro h
    unfold takeTagger at h
    split at h
    · rename_i next rest
      obtain ⟨key, value⟩ := next
      split at h
      · rename_i hkey
        obtain rfl : key = "tagger" := hkey
        -- A header named `tagger` is never left among the others: it is read, or the tag object is refused.
        cases hg : Signature.parse value with
        | error e =>
          rw [hg] at h
          cases h
        | ok g =>
          rw [hg] at h
          cases h
          obtain ⟨hcanonical, rfl⟩ := Signature.parse_eq_ok_iff.1 hg
          exact ⟨rfl, by simpa using hcanonical, by simp⟩
      · rename_i hkey
        cases h
        exact ⟨rfl, by simp, by simpa using hkey⟩
    · cases h
      exact ⟨rfl, by simp, by simp⟩
  · rintro ⟨rfl, hcanonical, huntaken⟩
    cases tagger with
    | some g =>
      change (Signature.parse g.text).map (some ·, extra) = _
      rw [Signature.parse_eq_ok_iff.2 ⟨hcanonical g rfl, rfl⟩]
      rfl
    | none =>
      cases extra with
      | nil => rfl
      | cons next rest => exact if_neg (huntaken rfl next rfl)

theorem ofHeaders_eq_ok_iff : ofHeaders headers message = .ok t ↔ t.SpelledBy headers ∧ t.message = message ∧
    (∀ g ∈ t.tagger, g.Canonical) ∧ (t.tagger = none → ∀ h ∈ t.extra.head?, h.key ≠ "tagger") := by
  simp only [ofHeaders, Header.bind_eq_ok_iff, Header.take_eq_ok_iff, ObjectId.parse_eq_ok_iff,
    ObjectKind.parse_eq_ok_iff, takeTagger_eq_ok_iff, Prod.exists]
  constructor
  · rintro ⟨object, rest, rfl, id, hid, kind, rest', rfl, kind', rfl, name, rest'', rfl, tagger, extra,
      ⟨rfl, hcanonical, huntaken⟩, h⟩
    cases h
    exact ⟨⟨object, hid, rfl⟩, rfl, hcanonical, huntaken⟩
  · rintro ⟨⟨object, hobject, rfl⟩, rfl, hcanonical, huntaken⟩
    exact ⟨object, _, rfl, t.object, hobject, _, _, rfl, t.kind, rfl, t.name, _, rfl, t.tagger, t.extra,
      ⟨rfl, hcanonical, huntaken⟩, rfl⟩

/-! ### Reading the body -/

/-- The texts that are read as the tag: those of its headers, with the id of its object in letters of either case, and
    of its message, before which the empty line may be missing if it is empty. -/
def IsText (t : Tag) (text : String) : Prop := ∃ headers, t.SpelledBy headers ∧ Header.IsText headers t.message text

theorem SpelledBy.keys_iff (h : t.SpelledBy headers) :
    (∀ h ∈ headers, Header.IsKey h.key) ↔ ∀ h ∈ t.extra, Header.IsKey h.key := by
  obtain ⟨object, -, rfl⟩ := h
  have hobject : Header.IsKey "object" := by decide
  have htype : Header.IsKey "type" := by decide
  have htag : Header.IsKey "tag" := by decide
  have htagger : Header.IsKey "tagger" := by decide
  simp only [headersWith, List.cons_append, List.forall_mem_cons, List.forall_mem_append, List.forall_mem_map, hobject,
    htype, htag, htagger, implies_true, true_and]

theorem SpelledBy.ne_nil (h : t.SpelledBy headers) : headers ≠ [] := by
  obtain ⟨object, -, rfl⟩ := h
  simp [headersWith]

theorem spelledBy_headers (t : Tag) : t.SpelledBy t.headers := ⟨t.object.text, t.object.spells_text, rfl⟩

/-- A body is read as a tag exactly if it is a text of the tag, and the tag is well-formed. -/
theorem parse_eq_ok_iff {body : ByteArray} : parse body = .ok t ↔
    t.WellFormed ∧ ∃ text, t.IsText text ∧ body = text.toUTF8 := by
  have hparse : parse body = .ok t ↔ ∃ headers, Header.ofBody body = .ok (headers, t.message) ∧
      ofHeaders headers t.message = .ok t :=
    Header.match_ofBody_eq_ok_iff fun _ _ h => (ofHeaders_eq_ok_iff.1 h).2.1
  rw [hparse]
  simp only [Header.ofBody_eq_ok_iff, ofHeaders_eq_ok_iff, true_and]
  constructor
  · rintro ⟨headers, ⟨-, hkeys, text, htext, rfl⟩, hspelled, hcanonical, huntaken⟩
    exact ⟨⟨hcanonical, hspelled.keys_iff.1 hkeys, huntaken⟩, text, ⟨headers, hspelled, htext⟩, rfl⟩
  · rintro ⟨hformed, text, ⟨headers, hspelled, htext⟩, rfl⟩
    exact ⟨headers, ⟨hspelled.ne_nil, hspelled.keys_iff.2 hformed.keys, text, htext, rfl⟩, hspelled, hformed.tagger,
      hformed.untaken⟩

/-- A well-formed tag is read back. -/
theorem parse_body_iff : parse t.body = .ok t ↔ t.WellFormed := by
  rw [parse_eq_ok_iff]
  exact and_iff_left ⟨t.text, ⟨t.headers, t.spelledBy_headers, .parted⟩, rfl⟩

/-- Reading a body gives a tag exactly if the body is a text of that tag and the tag is well-formed. So a tag is read back
    from its own body exactly if it is well-formed. -/
theorem tags_are_their_texts :
    (∀ body t, parse body = .ok t ↔ t.WellFormed ∧ ∃ text, t.IsText text ∧ body = text.toUTF8) ∧
    ∀ t, parse t.body = .ok t ↔ t.WellFormed :=
  ⟨fun _ _ => parse_eq_ok_iff, fun _ => parse_body_iff⟩

/-- A tag without a tagger, with a name of several lines and headers that a tag starts with. -/
def patchwork : Tag where
  object := ⟨0xAB⟩
  kind := .tree
  name := "v1\n\n object\n"
  extra := [⟨"object", ""⟩, ⟨"tagger", "nobody"⟩]
  message := ""

/-- It is read from its headers alone, with an upper-case id; with the second of its other headers first, it is not
    read back, for that is taken for the tagger. -/
theorem patchwork_read_as_tag :
    parse (String.ofList ((patchwork.headersWith "00000000000000000000000000000000000000aB").flatMap Header.chars)).toUTF8
      = .ok patchwork ∧
    parse { patchwork with extra := patchwork.extra.reverse }.body
      ≠ .ok { patchwork with extra := patchwork.extra.reverse } := by
  obtain ⟨hread, hown⟩ := tags_are_their_texts
  refine ⟨(hread _ patchwork).2 ⟨by decide, _, ⟨_, ⟨_, by decide, rfl⟩, .unparted rfl⟩, rfl⟩, fun hself => ?_⟩
  have hformed := (hown _).1 hself
  revert hformed
  decide

end Tag

end PrunedHistory
