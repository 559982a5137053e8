import PrunedHistory.Proofs.Object.SignatureGrammar
import PrunedHistory.Text.Blank

/-! Signatures and their other spellings

    In many texts the parts of a signature can be found: any blanks may stand between the time and the offset and
    around them, the time may have a plus sign and leading zeros, the two digits of the hours or the minutes may be a
    sign and a digit, and there may be more minutes than an hour has. Main statement: of all these texts just those are
    read that are written again the same, which are the texts of the canonical signatures, and no two of these have the
    same text. -/

namespace PrunedHistory

/-! ### Words -/

namespace Text

/-- The texts between blanks; where blanks meet there is none. -/
def words (cs : List Char) : List (List Char) := (cs.splitOnP isBlank).filter fun word => !word.isEmpty

theorem isBlank_of_isDigit {c : Char} (h : c.isDigit = true) : isBlank c = false := by
  simp only [Char.isDigit, ge_iff_le, Bool.and_eq_true, decide_eq_true_eq, UInt32.le_iff_toNat_le] at h
  have hlow : 48 ≤ c.toNat := h.1
  have hhigh : c.toNat ≤ 57 := h.2
  simp [isBlank]
  omega

theorem words_of_two {xs ys : List Char} (hx : ∀ c ∈ xs, isBlank c = false) (hy : ∀ c ∈ ys, isBlank c = false)
    (hxs : xs ≠ []) (hys : ys ≠ []) : words (' ' :: (xs ++ ' ' :: ys)) = [xs, ys] := by
  have hgap : (' ' :: (xs ++ ' ' :: ys)).splitOnP isBlank = [] :: (xs ++ ' ' :: ys).splitOnP isBlank :=
    List.splitOnP_append_cons_of_forall_mem (List.forall_mem_nil _) ' ' rfl _
  have hnext : (xs ++ ' ' :: ys).splitOnP isBlank = xs :: ys.splitOnP isBlank :=
    List.splitOnP_append_cons_of_forall_mem hx ' ' rfl ys
  rw [words, hgap, hnext, List.splitOnP_eq_singleton hy]
  simp [hxs, hys]

end Text

/-! ### Numbers with a sign -/

namespace Decimal

/-- Digits, after a sign of either kind or none. -/
def signed? : List Char → Option Int
  | '+' :: cs => (nat? cs).map Int.ofNat
  | cs => int? cs

theorem signed?_eq_int? {cs : List Char} (h : '+' ∉ cs) : signed? cs = int? cs := by
  unfold signed?
  split
  · exact absurd List.mem_cons_self h
  · rfl

theorem int?_eq_nat? {cs : List Char} (h : '-' ∉ cs) : int? cs = (nat? cs).map Int.ofNat := by
  unfold int?
  split
  · exact absurd List.mem_cons_self h
  · rfl

theorem signed?_of_isDigit {cs : List Char} (h : ∀ c ∈ cs, c.isDigit = true) :
    signed? cs = (nat? cs).map Int.ofNat := by
  rw [signed?_eq_int? fun hmem => absurd (h _ hmem) (by decide),
    int?_eq_nat? fun hmem => absurd (h _ hmem) (by decide)]

end Decimal

namespace Signature

variable {g : Signature} {cs : List Char}

/-! ### Any spelling -/

/-- The time a number with or without a sign writes. -/
def anyTime? (cs : List Char) : Option Int64 :=
  (Decimal.signed? cs).bind fun n =>
    if Int64.minValue.toInt ≤ n ∧ n ≤ Int64.maxValue.toInt then some (.ofInt n) else none

/-- The minutes that a sign and two numbers of two characters mean. -/
def anyOffset? : List Char → Option Int32
  | sign :: hours :: hours' :: minutes :: minutes' :: [] => do
    let h ← Decimal.signed? [hours, hours']
    let m ← Decimal.signed? [minutes, minutes']
    match sign with
    | '+' => some (.ofInt (h * 60 + m))
    | '-' => some (.ofInt (-(h * 60 + m)))
    | _ => none
  | _ => none

/-- The signature whose parts the text has, however they are spelled: the name and the email end at the marks, and
    after them come two words, the time and the offset. -/
def takenFor? (cs : List Char) : Option Signature := do
  let (front, afterOpen) ← Text.cut? '<' cs
  let (email, afterClose) ← Text.cut? '>' afterOpen
  match Text.words afterClose with
  | [time, zone] => do
    let seconds ← anyTime? time
    let offset ← anyOffset? zone
    let name := (Text.dropFinal? ' ' front).getD front
    return { name := .ofList name, email := .ofList email, time := seconds, offset,
             tight := (Text.dropFinal? ' ' front).isNone, negativeUtc := zone == ['-', '0', '0', '0', '0'] }
  | _ => none

theorem marks_of_takenFor? (h : takenFor? cs = some g) : '<' ∉ g.name.toList ∧ '>' ∉ g.email.toList := by
  rw [takenFor?] at h
  simp only [bind, Option.bind_eq_some_iff, Prod.exists] at h
  obtain ⟨front, afterOpen, hopen, email, afterClose, hclose, h⟩ := h
  split at h
  · simp only [Option.bind_eq_some_iff, pure, Option.some.injEq] at h
    obtain ⟨-, -, -, -, rfl⟩ := h
    rw [String.toList_ofList, String.toList_ofList]
    exact ⟨Text.not_mem_dropFinal?_getD (Text.cut?_eq_some_iff.1 hopen).1, (Text.cut?_eq_some_iff.1 hclose).1⟩
  · cases h

/-! ### The spelling that is written -/

theorem anyTime?_ofInt (n : Int) : anyTime? (Decimal.ofInt n) = time? (Decimal.ofInt n) := by
  have hplus : '+' ∉ Decimal.ofInt n := fun hmem =>
    (Decimal.isDigit_or_eq_minus_of_mem_ofInt hmem).elim (by decide) (by decide)
  rw [anyTime?, time?, Decimal.signed?_eq_int? hplus]

theorem anyOffset?_of_isDigit (sign : Char) : ∀ {digits : List Char}, (∀ c ∈ digits, c.isDigit = true) →
    anyOffset? (sign :: digits) = offset? (sign :: digits)
  | [h, h', m, m'], hdigits => by
      have hhours : Decimal.signed? [h, h'] = (Decimal.nat? [h, h']).map Int.ofNat :=
        Decimal.signed?_of_isDigit fun c hc => hdigits c (List.mem_append_left [m, m'] hc)
      have hminutes : Decimal.signed? [m, m'] = (Decimal.nat? [m, m']).map Int.ofNat :=
        Decimal.signed?_of_isDigit fun c hc => hdigits c (List.mem_append_right [h, h'] hc)
      rw [anyOffset?, offset?, hhours, hminutes]
      cases Decimal.nat? [h, h'] <;> cases Decimal.nat? [m, m'] <;> rfl
  | [], _ | [_], _ | [_, _], _ | [_, _, _], _ | _ :: _ :: _ :: _ :: _ :: _, _ => rfl

theorem exists_zone (g : Signature) : ∃ sign digits, g.zone = sign :: digits ∧ (sign = '+' ∨ sign = '-') ∧
    ∀ c ∈ digits, c.isDigit = true := by
  refine ⟨_, _, g.zone_eq, ?_, fun c hc => ?_⟩
  · split
    · exact .inr rfl
    · exact .inl rfl
  · rcases List.mem_append.1 hc with hc | hc <;> exact Decimal.isDigit_of_mem_twoDigits hc

theorem anyOffset?_zone (g : Signature) : anyOffset? g.zone = offset? g.zone := by
  obtain ⟨sign, digits, hzone, -, hdigits⟩ := g.exists_zone
  rw [hzone, anyOffset?_of_isDigit sign hdigits]

theorem words_afterClose (g : Signature) :
    Text.words (' ' :: (Decimal.ofInt g.time.toInt ++ ' ' :: g.zone)) = [Decimal.ofInt g.time.toInt, g.zone] := by
  obtain ⟨sign, digits, hzone, hsign, hdigits⟩ := g.exists_zone
  rw [hzone]
  refine Text.words_of_two (fun c hc => ?_) (fun c hc => ?_) ?_ ?_
  · rcases Decimal.isDigit_or_eq_minus_of_mem_ofInt hc with hdigit | rfl
    · exact Text.isBlank_of_isDigit hdigit
    · rfl
  · rcases List.mem_cons.1 hc with rfl | hc
    · rcases hsign with rfl | rfl <;> rfl
    · exact Text.isBlank_of_isDigit (hdigits c hc)
  · cases g.time.toInt with
    | ofNat n => exact Nat.toDigits_ne_nil
    | negSucc n => exact List.cons_ne_nil _ _
  · exact List.cons_ne_nil _ _

/-- What is written is one of the spellings, and it is taken for the same signature as when no other is allowed. -/
theorem takenFor?_chars (hname : '<' ∉ g.name.toList) (hemail : '>' ∉ g.email.toList) :
    takenFor? g.chars = candidate? g.chars := by
  have hclose : Text.cut? '>' (g.email.toList ++ '>' :: ' ' :: (Decimal.ofInt g.time.toInt ++ ' ' :: g.zone))
      = some (g.email.toList, ' ' :: (Decimal.ofInt g.time.toInt ++ ' ' :: g.zone)) :=
    Text.cut?_eq_some_iff.2 ⟨hemail, rfl⟩
  rw [candidate?_chars hname hemail, takenFor?, cut?_chars hname]
  simp only [bind, Option.bind_some, hclose, words_afterClose, anyTime?_ofInt, time?_ofInt, anyOffset?_zone, pure,
    String.ofList_toList]
  cases offset? g.zone <;> rfl

/-- Of the texts in any spelling those are read that are written again the same. -/
theorem ofChars?_eq_filter_takenFor? (cs : List Char) : ofChars? cs = (takenFor? cs).filter fun g => g.chars == cs := by
  refine Option.ext fun g => ?_
  rw [ofChars?, Option.filter_eq_some_iff, Option.filter_eq_some_iff]
  -- The readers may differ on other texts, but not on the text a signature is displayed as.
  refine and_congr_left fun hchars => ?_
  rw [beq_iff_eq] at hchars
  subst hchars
  constructor
  · intro hread
    obtain ⟨hname, hemail⟩ := marks_of_candidate? hread
    exact (takenFor?_chars hname hemail).trans hread
  · intro hread
    obtain ⟨hname, hemail⟩ := marks_of_takenFor? hread
    exact (takenFor?_chars hname hemail).symm.trans hread

theorem parse_eq_takenFor? (text : String) : parse text = match takenFor? text.toList with
    | some g => if g.text = text then .ok g else .error (.signature text)
    | none => .error (.signature text) := by
  rw [parse, ofChars?_eq_filter_takenFor?]
  cases takenFor? text.toList with
  | none => rfl
  | some g =>
    have hchars : g.chars = text.toList ↔ g.text = text := by
      rw [Signature.text, ← String.toList_inj, String.toList_ofList]
    simp only [Option.filter_some, beq_iff_eq, hchars]
    by_cases h : g.text = text
    · rw [if_pos h, if_pos h]
    · rw [if_neg h, if_neg h]

/-- A text is read exactly if it is the text of a canonical signature, and then as this one. Any other spelling in
    which a signature can be made out is refused, canonical signatures are read back from their texts, other signatures
    are not, and different canonical signatures have different texts. -/
theorem signatures_are_their_texts :
    (∀ (text : String) (g : Signature), parse text = .ok g ↔ text = g.text ∧ g.Canonical) ∧
    (∀ text : String, parse text = match takenFor? text.toList with
      | some g => if g.text = text then .ok g else .error (.signature text)
      | none => .error (.signature text)) ∧
    (∀ g : Signature, parse g.text = .ok g ↔ g.Canonical) ∧
    (∀ g h : Signature, g.Canonical → h.Canonical → g.text = h.text → g = h) := by
  refine ⟨fun text g => parse_eq_ok_iff.trans and_comm, parse_eq_takenFor?, fun g => ?_, fun g h hg hh htext => ?_⟩
  · rw [parse_eq_ok_iff, and_iff_left rfl]
  · have hread : parse h.text = .ok g := parse_eq_ok_iff.2 ⟨hg, htext.symm⟩
    rw [parse_eq_ok_iff.2 ⟨hh, rfl⟩] at hread
    exact (Except.ok.inj hread).symm

/-- The two spellings of no offset are two signatures, and both are read back. An offset of an hour and five minutes
    west, with both digits after a minus sign of their own, is made out and refused. -/
theorem spellings_of_offsets_are_told_apart :
    let west : Signature := { name := "A", email := "a@x", time := 1, negativeUtc := true }
    let east : Signature := { name := "A", email := "a@x", time := 1 }
    let signed := "A <a@x>  +01 +-1-5"
    west.Canonical ∧ east.Canonical ∧ parse "A <a@x> 1 -0000" = .ok west ∧ parse east.text = .ok east ∧
      west.text ≠ east.text ∧
      takenFor? signed.toList = some { name := "A", email := "a@x", time := 1, offset := -65 } ∧
      parse signed = .error (.signature signed) := by
  obtain ⟨hread, hspellings, hback, hone⟩ := signatures_are_their_texts
  have hwest : Canonical { name := "A", email := "a@x", time := 1, negativeUtc := true } := by decide
  have heast : Canonical { name := "A", email := "a@x", time := 1 } := by decide
  have hsigned : takenFor? "A <a@x>  +01 +-1-5".toList
      = some { name := "A", email := "a@x", time := 1, offset := -65 } := by decide
  refine ⟨hwest, heast, (hread _ _).2 ⟨by decide, hwest⟩, (hback _).2 heast, fun htext => ?_, hsigned, ?_⟩
  · exact absurd (hone _ _ hwest heast htext) (by decide)
  · rw [hspellings, hsigned]
    exact if_neg (by decide)

end Signature

end PrunedHistory
