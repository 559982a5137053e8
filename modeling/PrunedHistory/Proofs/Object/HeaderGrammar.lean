import PrunedHistory.Object.Header
import PrunedHistory.Proofs.Text.Pieces

/-! Which bodies have headers

    A header is written on one line or more, none of which is empty. Reading goes line by line and undoes this; it takes
    a header with any value, as long as its key can be told from the value and from a line that goes on. Main statement:
    a body is read as some headers and a message exactly if it is their text, where the empty line between them may be
    left out before an empty message. -/

namespace PrunedHistory.Header

/-- A key has characters, and neither a space nor a line break among them. -/
def IsKey (key : String) : Prop := key ≠ "" ∧ ' ' ∉ key.toList ∧ '\n' ∉ key.toList

instance (key : String) : Decidable (IsKey key) := inferInstanceAs (Decidable (_ ∧ _))

/-- The lines of a header: its key with the first line of its value, and each other line of it after a space. -/
def lines (h : Header) : List (List Char) :=
  match Text.splitAt '\n' h.value.toList with
  | [] => []
  | first :: more => (h.key.toList ++ ' ' :: first) :: more.map (' ' :: ·)

variable {h : Header} {read hs headers : List Header} {line : List Char} {message : String}

/-! ### Lines of a header -/

theorem fold_of_splitAt : ∀ {cs first : List Char} {more : List (List Char)},
    Text.splitAt '\n' cs = first :: more → fold cs ++ ['\n'] = (first :: more.map (' ' :: ·)).flatMap (· ++ ['\n'])
  | [], first, more, hs => by
      cases hs
      rfl
  | c :: cs, first, more, hs => by
      cases hcs : Text.splitAt '\n' cs with
      | nil => exact absurd hcs (Text.splitAt_ne_nil '\n' cs)
      | cons second rest =>
        have ih := fold_of_splitAt hcs
        by_cases hc : c = '\n'
        · simp only [Text.splitAt, hc, ↓reduceIte, hcs] at hs
          obtain ⟨rfl, rfl⟩ := List.cons.inj hs
          rw [fold, if_pos hc, List.cons_append, List.cons_append, ih]
          rfl
        · simp only [Text.splitAt, hc, ↓reduceIte, hcs] at hs
          obtain ⟨rfl, rfl⟩ := List.cons.inj hs
          rw [fold, if_neg hc, List.cons_append, ih]
          rfl

theorem chars_eq_lines (h : Header) : chars h = h.lines.flatMap (· ++ ['\n']) := by
  rw [chars, lines]
  cases hs : Text.splitAt '\n' h.value.toList with
  | nil => exact absurd hs (Text.splitAt_ne_nil '\n' _)
  | cons first more =>
    have hfold := fold_of_splitAt hs
    rw [List.flatMap_cons] at hfold
    rw [List.append_assoc, List.cons_append, hfold, List.flatMap_cons]
    simp

theorem flatMap_chars_eq_lines (hs : List Header) : hs.flatMap chars = (hs.flatMap lines).flatMap (· ++ ['\n']) := by
  rw [List.flatMap_assoc]
  exact congrArg (List.flatMap · hs) (funext chars_eq_lines)

/-- A line of a header is not empty, and it is one line. -/
theorem line_of_lines (hkey : IsKey h.key) (hline : line ∈ h.lines) : line ≠ [] ∧ '\n' ∉ line := by
  rw [lines] at hline
  cases hs : Text.splitAt '\n' h.value.toList with
  | nil => exact absurd hs (Text.splitAt_ne_nil '\n' _)
  | cons first more =>
    have hpiece : ∀ piece ∈ first :: more, '\n' ∉ piece := fun piece hp => Text.not_mem_of_mem_splitAt (hs ▸ hp)
    rw [hs] at hline
    rcases List.mem_cons.1 hline with rfl | hline
    · exact ⟨by simp, by simp [hkey.2.2, hpiece first]⟩
    · obtain ⟨piece, hp, rfl⟩ := List.mem_map.1 hline
      exact ⟨by simp, by simp [hpiece piece (List.mem_cons_of_mem _ hp)]⟩

/-! ### Reading lines -/

/-- What a line that goes on adds to the lines of its header. -/
theorem lines_extended (h : Header) {more : List Char} (hmore : '\n' ∉ more) :
    lines { h with value := .ofList (h.value.toList ++ '\n' :: more) } = h.lines ++ [' ' :: more] := by
  rw [lines, lines, String.toList_ofList, Text.splitAt_append_mark, Text.splitAt_of_not_mem hmore]
  cases hs : Text.splitAt '\n' h.value.toList with
  | nil => exact absurd hs (Text.splitAt_ne_nil '\n' _)
  | cons first rest => simp

/-- A line that is read is the last one of the headers read so far. -/
theorem lines_of_readLine {read' : List Header} (hkeys : ∀ h ∈ read, IsKey h.key) (hline : '\n' ∉ line)
    (hread : readLine read line = .ok read') :
    (∀ h ∈ read', IsKey h.key) ∧ read'.reverse.flatMap lines = read.reverse.flatMap lines ++ [line] := by
  unfold readLine at hread
  split at hread
  case h_1 more =>
    cases read with
    | nil => cases hread
    | cons h before =>
      cases hread
      -- A line that starts with a blank carries on the header read last.
      have hmore : '\n' ∉ more := fun hmem => hline (List.mem_cons_of_mem _ hmem)
      refine ⟨fun h' hh' => ?_, ?_⟩
      · rcases List.mem_cons.1 hh' with rfl | hh'
        · exact hkeys h (by simp)
        · exact hkeys h' (by simp [hh'])
      · rw [List.reverse_cons, List.reverse_cons, List.flatMap_append, List.flatMap_append, List.append_assoc,
          List.flatMap_singleton, List.flatMap_singleton, lines_extended h hmore]
  case h_2 hspace =>
    -- Any other line is a key and a value, cut at its first blank.
    cases hcut : Text.cut? ' ' line with
    | none =>
      rw [hcut] at hread
      cases hread
    | some parts =>
      obtain ⟨key, value⟩ := parts
      rw [hcut] at hread
      cases hread
      obtain ⟨hkey, rfl⟩ := Text.cut?_eq_some_iff.1 hcut
      rw [List.mem_append, List.mem_cons, not_or, not_or] at hline
      obtain ⟨hbreak, -, hvalue⟩ := hline
      refine ⟨fun h hh => ?_, ?_⟩
      · rcases List.mem_cons.1 hh with rfl | hh
        · refine ⟨fun hempty => ?_, by simpa using hkey, by simpa using hbreak⟩
          obtain rfl : key = [] := by simpa using congrArg String.toList hempty
          exact hspace value rfl
        · exact hkeys h hh
      · simp [lines, Text.splitAt_of_not_mem hvalue]

theorem lines_of_foldlM : ∀ {lines' : List (List Char)} {read read' : List Header}, (∀ h ∈ read, IsKey h.key) →
    (∀ line ∈ lines', '\n' ∉ line) → lines'.foldlM readLine read = .ok read' →
    (∀ h ∈ read', IsKey h.key) ∧ read'.reverse.flatMap lines = read.reverse.flatMap lines ++ lines'
  | [], read, read', hkeys, _, hread => by
      cases hread
      exact ⟨hkeys, (List.append_nil _).symm⟩
  | line :: rest, read, read', hkeys, hlines, hread => by
      rw [List.foldlM_cons] at hread
      cases hstep : readLine read line with
      | error e =>
        rw [hstep] at hread
        cases hread
      | ok next =>
        rw [hstep] at hread
        obtain ⟨hnext, hfirst⟩ := lines_of_readLine hkeys (hlines line (by simp)) hstep
        obtain ⟨hall, hrest⟩ := lines_of_foldlM hnext (fun l hl => hlines l (List.mem_cons_of_mem _ hl)) hread
        exact ⟨hall, by rw [hrest, hfirst, List.append_assoc, List.singleton_append]⟩

theorem foldlM_more : ∀ (more : List (List Char)) (h : Header) (read : List Header),
    (more.map (' ' :: ·)).foldlM readLine (h :: read)
      = .ok ({ h with value := .ofList (h.value.toList ++ more.flatMap ('\n' :: ·)) } :: read)
  | [], h, read => by simp; rfl
  | line :: more, h, read => by
      rw [List.map_cons, List.foldlM_cons]
      change (more.map (' ' :: ·)).foldlM readLine (_ :: read) = _
      rw [foldlM_more more]
      simp

/-- The lines of a header are read as that header. -/
theorem foldlM_lines (hkey : IsKey h.key) (read : List Header) : h.lines.foldlM readLine read = .ok (h :: read) := by
  obtain ⟨key, value⟩ := h
  rw [lines]
  cases hs : Text.splitAt '\n' value.toList with
  | nil => exact absurd hs (Text.splitAt_ne_nil '\n' _)
  | cons first more =>
    -- The first line opens the header, as its key is not empty and has no blank.
    have hfirst : readLine read (key.toList ++ ' ' :: first) = .ok (⟨key, .ofList first⟩ :: read) := by
      have hcut : Text.cut? ' ' (key.toList ++ ' ' :: first) = some (key.toList, first) :=
        Text.cut?_eq_some_iff.2 ⟨hkey.2.1, rfl⟩
      unfold readLine
      split
      case h_1 more hline =>
        cases hk : key.toList with
        | nil => exact absurd (String.toList_inj.1 (hk.trans String.toList_empty.symm)) hkey.1
        | cons c cs =>
          rw [hk] at hline
          obtain ⟨rfl, -⟩ := List.cons.inj hline
          exact absurd (by simp [hk]) hkey.2.1
      case h_2 => simp [hcut]
    rw [List.foldlM_cons, hfirst]
    change (more.map (' ' :: ·)).foldlM readLine (_ :: read) = _
    rw [foldlM_more, String.toList_ofList, Text.append_of_splitAt hs, String.ofList_toList]

theorem foldlM_flatMap_lines : ∀ {hs : List Header}, (∀ h ∈ hs, IsKey h.key) → ∀ read,
    (hs.flatMap lines).foldlM readLine read = .ok (hs.reverse ++ read)
  | [], _, read => rfl
  | h :: hs, hkeys, read => by
      rw [List.flatMap_cons, List.foldlM_append, foldlM_lines (hkeys h List.mem_cons_self)]
      change (hs.flatMap lines).foldlM readLine (h :: read) = _
      rw [foldlM_flatMap_lines fun h' hh' => hkeys h' (List.mem_cons_of_mem h hh')]
      simp

/-- Lines are read as headers exactly if they are the lines of these. -/
theorem ofLines_eq_ok_iff {lines' : List (List Char)} (hlines : ∀ line ∈ lines', '\n' ∉ line) :
    ofLines lines' = .ok headers ↔ (∀ h ∈ headers, IsKey h.key) ∧ lines' = headers.flatMap lines := by
  rw [ofLines]
  constructor
  · intro hread
    cases hfold : lines'.foldlM readLine [] with
    | error e =>
      rw [hfold] at hread
      cases hread
    | ok read =>
      rw [hfold] at hread
      cases hread
      obtain ⟨hkeys, hall⟩ := lines_of_foldlM (by simp) hlines hfold
      exact ⟨fun h hh => hkeys h (List.mem_reverse.1 hh), hall.symm⟩
  · rintro ⟨hkeys, rfl⟩
    rw [foldlM_flatMap_lines hkeys, List.append_nil]
    exact congrArg Except.ok headers.reverse_reverse

/-! ### Bodies -/

/-- The texts that have the headers and the message: before an empty message the empty line may be missing. -/
inductive IsText (headers : List Header) (message : String) : String → Prop where
  | parted : IsText headers message (.ofList (bodyChars headers message))
  | unparted : message = "" → IsText headers message (.ofList (headers.flatMap chars))

theorem fromUTF8?_eq_some_iff {body : ByteArray} {text : String} :
    String.fromUTF8? body = some text ↔ body = text.toUTF8 := by
  constructor
  · intro h
    rw [String.fromUTF8?] at h
    split at h
    · cases h
      rfl
    · cases h
  · rintro rfl
    rw [String.fromUTF8?, String.toUTF8_eq_toByteArray, dif_pos text.isValidUTF8]
    rfl

theorem eq_of_splitBody? {cs front back : List Char} (h : splitBody? cs = some (front, back)) :
    cs = front ++ '\n' :: '\n' :: back ∨ (back = [] ∧ cs = front ++ ['\n']) := by
  rw [splitBody?] at h
  -- Without an empty line, the body must still end with the line break of its last header.
  split at h
  · rename_i hcut
    cases h
    exact .inl (Text.eq_of_cutAtEmptyLine? hcut)
  · split at h
    · cases h
    · cases h
    · rename_i hdrop
      cases h
      exact .inr ⟨rfl, Text.dropFinal?_eq_some_iff.1 hdrop⟩

/-- Header lines that are not empty are parted from the message at the empty line, or at the end. -/
theorem splitBody?_of_lines {front : List Char} (hlines : ∀ line ∈ Text.splitAt '\n' front, line ≠ []) :
    (∀ back, splitBody? (front ++ '\n' :: '\n' :: back) = some (front, back)) ∧
      splitBody? (front ++ ['\n']) = some (front, []) := by
  have hne : front ≠ [] := by
    rintro rfl
    exact hlines [] List.mem_cons_self rfl
  have hnone : Text.NoEmptyLine front := fun line hline => hlines line (List.mem_of_mem_tail hline)
  have hcut := Text.cutAtEmptyLine?_append hnone
  refine ⟨fun back => ?_, ?_⟩
  · rw [splitBody?, hcut]
    simp [Text.cutAtEmptyLine?]
  · have hdrop : Text.dropFinal? '\n' (front ++ ['\n']) = some front := Text.dropFinal?_eq_some_iff.2 rfl
    rw [splitBody?, hcut]
    simp only [Text.cutAtEmptyLine?, Option.map_none, hdrop]

/-- The text of headers, less its last line break, has the lines of the headers. -/
theorem exists_front (hne : headers ≠ []) (hkeys : ∀ h ∈ headers, IsKey h.key) :
    ∃ front, headers.flatMap chars = front ++ ['\n'] ∧ Text.splitAt '\n' front = headers.flatMap lines := by
  have hlines : ∀ line ∈ headers.flatMap lines, '\n' ∉ line := by
    intro line hline
    obtain ⟨h, hh, hline⟩ := List.mem_flatMap.1 hline
    exact (line_of_lines (hkeys h hh) hline).2
  obtain ⟨before, last, rfl⟩ := (List.eq_nil_or_concat headers).resolve_left hne
  refine ⟨before.flatMap chars ++ (last.key.toList ++ ' ' :: fold last.value.toList), by simp [chars], ?_⟩
  refine Text.splitAt_eq_of_flatMap hlines ?_
  rw [← flatMap_chars_eq_lines]
  simp [chars]

theorem ofBody_eq_ok_iff_split {body : ByteArray} : ofBody body = .ok (headers, message) ↔
    ∃ (text : String) (front : List Char), body = text.toUTF8 ∧ splitBody? text.toList = some (front, message.toList) ∧
      ofLines (Text.splitAt '\n' front) = .ok headers := by
  constructor
  · intro h
    rw [ofBody] at h
    cases htext : String.fromUTF8? body with
    | none =>
      rw [htext] at h
      cases h
    | some text =>
      cases hsplit : splitBody? text.toList with
      | none =>
        simp only [htext, hsplit] at h
        cases h
      | some parts =>
        obtain ⟨front, back⟩ := parts
        cases hread : ofLines (Text.splitAt '\n' front) with
        | error e =>
          simp only [htext, hsplit, hread] at h
          cases h
        | ok read =>
          simp only [htext, hsplit, hread] at h
          cases h
          exact ⟨text, front, fromUTF8?_eq_some_iff.1 htext, by rw [hsplit, String.toList_ofList], hread⟩
  · rintro ⟨text, front, hbody, hsplit, hread⟩
    rw [ofBody, fromUTF8?_eq_some_iff.2 hbody]
    simp only [hsplit, hread]
    rw [String.ofList_toList]
    rfl

/-- The header lines and the message are the two parts of just the texts that have them. -/
theorem splitBody?_eq_some_iff {text : String} {front : List Char} (hfront : headers.flatMap chars = front ++ ['\n'])
    (hlines : ∀ line ∈ Text.splitAt '\n' front, line ≠ []) :
    splitBody? text.toList = some (front, message.toList) ↔ IsText headers message text := by
  constructor
  · intro hsplit
    rcases eq_of_splitBody? hsplit with htext | ⟨hmessage, htext⟩
    · have hparted : text = .ofList (bodyChars headers message) := by
        rw [← String.ofList_toList (s := text), htext, bodyChars, hfront]
        simp
      rw [hparted]
      exact .parted
    · have hunparted : text = .ofList (headers.flatMap chars) := by
        rw [← String.ofList_toList (s := text), htext, hfront]
      rw [hunparted]
      exact .unparted (String.toList_eq_nil_iff.1 hmessage)
  · intro htext
    obtain ⟨hparted, hunparted⟩ := splitBody?_of_lines hlines
    cases htext with
    | parted =>
      rw [String.toList_ofList, bodyChars, hfront, List.append_assoc]
      exact hparted message.toList
    | unparted hempty =>
      rw [String.toList_ofList, hfront, hempty]
      exact hunparted

/-- A body is read as headers and a message exactly if it is a text of them. -/
theorem ofBody_eq_ok_iff {body : ByteArray} : ofBody body = .ok (headers, message) ↔
    headers ≠ [] ∧ (∀ h ∈ headers, IsKey h.key) ∧ ∃ text, IsText headers message text ∧ body = text.toUTF8 := by
  -- No line of a header is empty, so the first empty line is the one before the message.
  have hfilled : ∀ {front : List Char}, (∀ h ∈ headers, IsKey h.key) →
      Text.splitAt '\n' front = headers.flatMap lines → ∀ line ∈ Text.splitAt '\n' front, line ≠ [] := by
    intro front hkeys hlines line hline
    rw [hlines] at hline
    obtain ⟨h, hh, hline⟩ := List.mem_flatMap.1 hline
    exact (line_of_lines (hkeys h hh) hline).1
  rw [ofBody_eq_ok_iff_split]
  constructor
  · rintro ⟨text, front, rfl, hsplit, hread⟩
    obtain ⟨hkeys, hlines⟩ := (ofLines_eq_ok_iff fun _ hline => Text.not_mem_of_mem_splitAt hline).1 hread
    have hfront : headers.flatMap chars = front ++ ['\n'] := by
      rw [flatMap_chars_eq_lines, ← hlines, Text.flatMap_splitAt]
    have hne : headers ≠ [] := by
      rintro rfl
      simp at hfront
    exact ⟨hne, hkeys, text, (splitBody?_eq_some_iff hfront (hfilled hkeys hlines)).1 hsplit, rfl⟩
  · rintro ⟨hne, hkeys, text, htext, rfl⟩
    obtain ⟨front, hfront, hlines⟩ := exists_front hne hkeys
    have hread : ofLines (Text.splitAt '\n' front) = .ok headers :=
      (ofLines_eq_ok_iff fun _ hline => Text.not_mem_of_mem_splitAt hline).2 ⟨hkeys, hlines⟩
    exact ⟨text, front, rfl, (splitBody?_eq_some_iff hfront (hfilled hkeys hlines)).2 htext, hread⟩

/-! ### One header after the other -/

theorem bind_eq_ok_iff {ε α β : Type} {x : Except ε α} {f : α → Except ε β} {b : β} :
    (x >>= f) = .ok b ↔ ∃ a, x = .ok a ∧ f a = .ok b := by
  cases x with
  | error e =>
    refine ⟨fun h => (by cases h), ?_⟩
    rintro ⟨a, ha, -⟩
    cases ha
  | ok a =>
    refine ⟨fun h => ⟨a, rfl, h⟩, ?_⟩
    rintro ⟨a', ha, h⟩
    cases ha
    exact h

theorem take_eq_ok_iff {kind : ObjectKind} {key value : String} {rest : List Header} :
    take kind key headers = .ok (value, rest) ↔ headers = ⟨key, value⟩ :: rest := by
  cases headers with
  | nil => simp [take]
  | cons h more =>
    obtain ⟨key', value'⟩ := h
    by_cases hkey : key' = key
    · simp [take, hkey]
    · simp [take, hkey]

/-- What is read from headers and the message of a body is read from those that it says it has. -/
theorem match_ofBody_eq_ok_iff {α : Type} {kind : ObjectKind} {ofHeaders : List Header → String → Except ObjectError α}
    {a : α} {body : ByteArray} (hmessage : ∀ headers message', ofHeaders headers message' = .ok a → message = message') :
    (match ofBody body with
      | .error flaw => .error (.malformed kind flaw)
      | .ok (headers, message) => ofHeaders headers message : Except ObjectError α) = .ok a ↔
    ∃ headers, ofBody body = .ok (headers, message) ∧ ofHeaders headers message = .ok a := by
  cases ofBody body with
  | error flaw => simp
  | ok read =>
    obtain ⟨headers, message'⟩ := read
    simp only [Except.ok.injEq, Prod.mk.injEq]
    constructor
    · intro h
      obtain rfl := hmessage headers message' h
      exact ⟨headers, ⟨rfl, rfl⟩, h⟩
    · rintro ⟨headers', ⟨rfl, rfl⟩, h⟩
      exact h

end PrunedHistory.Header
