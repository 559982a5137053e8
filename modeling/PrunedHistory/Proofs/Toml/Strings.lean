import PrunedHistory.Toml.Quoted

/-! Reading quoted texts back

    A text is written in one of four styles, with escapes or without. Each style has a body that is read back character
    by character, and what needs care is where a body begins and ends: a run of quotes may be part of the text, begin an
    ending or close it, and a line break right after an opening is dropped. So a body is read back together with the
    quotes that came before it. Main statements: a string value and a key are read back from what is written, whatever
    style the writer has picked. -/

namespace PrunedHistory.Toml

variable {c : Char} {cs rest : List Char}

/-! ### Escapes -/

/-- What follows the backslash of an escape, and the character that it stands for. -/
structure Escapes (c : Char) (after : List Char) : Prop where
  read : ∀ rest, escape? (after ++ rest) = some (c, rest)
  /-- The backslash joins no lines. -/
  stays : ∀ rest, newline? (skipBlanks (after ++ rest)) = none

theorem scalar?_hexPair (h : c.toNat < 128) : scalar? ('0' :: '0' :: hexPair c.toNat) = some c := by
  have hall : ∀ n < 128, scalar? ('0' :: '0' :: hexPair n) = some (.ofNat n) := by decide
  rw [hall _ h, Char.ofNat_toNat]

theorem escapes_hexPair (h : c.toNat < 128) : Escapes c ('u' :: '0' :: '0' :: hexPair c.toNat) where
  read rest := by
    have hread := scalar?_hexPair h
    simp only [hexPair] at hread ⊢
    simp only [List.cons_append, List.nil_append, escape?, hread, Option.map_some]
  stays _ := rfl

/-- A character is written as it is, if it may stand in a string, or by an escape that is read back. -/
theorem escaped_cases (c : Char) :
    (escaped c = [c] ∧ isControl c = false ∧ c ≠ '"' ∧ c ≠ '\\') ∨
      ∃ after, escaped c = '\\' :: after ∧ Escapes c after := by
  unfold escaped
  split
  -- The last case: no letter stands for the character, so it is written plainly or in two hex digits.
  case h_8 h₁ h₂ h₃ h₄ h₅ hquote hback =>
    cases hc : isControl c with
    | false => exact .inl ⟨rfl, rfl, hquote, hback⟩
    | true =>
      have hlt : c.toNat < 128 := by
        simp only [isControl, Bool.or_eq_true, decide_eq_true_eq, beq_iff_eq] at hc
        omega
      exact .inr ⟨_, rfl, escapes_hexPair hlt⟩
  all_goals exact .inr ⟨_, rfl, fun _ => rfl, fun _ => rfl⟩

theorem isPlain_of_not_isControl (h : isControl c = false) : isPlain c = true := by
  simp [isPlain, h]

/-! ### One-line strings -/

theorem basicBody_plain (hplain : isPlain c = true) (hquote : c ≠ '"') (hback : c ≠ '\\') (cs : List Char) :
    basicBody (c :: cs) = (basicBody cs).map fun (text, rest) => (c :: text, rest) := by
  rw [basicBody, if_pos hplain]
  · exact hquote
  · exact hback

theorem basicBody_escape (h : escape? cs = some (c, rest)) :
    basicBody ('\\' :: cs) = (basicBody rest).map fun (text, rest) => (c :: text, rest) := by
  rw [basicBody]
  split
  · rename_i c' rest' h'
    cases h.symm.trans h'
    rfl
  · rename_i h'
    cases h.symm.trans h'

theorem basicBody_escaped (c : Char) (cs : List Char) :
    basicBody (escaped c ++ cs) = (basicBody cs).map fun (text, rest) => (c :: text, rest) := by
  rcases escaped_cases c with ⟨hself, hcontrol, hquote, hback⟩ | ⟨after, hescape, hafter⟩
  · rw [hself]
    exact basicBody_plain (isPlain_of_not_isControl hcontrol) hquote hback cs
  · rw [hescape]
    exact basicBody_escape (hafter.read cs)

/-- A basic string holds every text. -/
theorem basicBody_flatMap_escaped : ∀ (cs rest : List Char),
    basicBody (cs.flatMap escaped ++ '"' :: rest) = some (cs, rest)
  | [], rest => by rw [List.flatMap_nil, List.nil_append, basicBody]
  | c :: cs, rest => by
      rw [List.flatMap_cons, List.append_assoc, basicBody_escaped, basicBody_flatMap_escaped cs rest]
      rfl

theorem literalBody_append : ∀ {cs rest : List Char}, (∀ c ∈ cs, isPlain c = true ∧ c ≠ '\'') →
    literalBody (cs ++ '\'' :: rest) = some (cs, rest)
  | [], rest, _ => rfl
  | c :: cs, rest, h => by
      obtain ⟨⟨hplain, hquote⟩, hcs⟩ := List.forall_mem_cons.1 h
      rw [List.cons_append, literalBody, if_pos hplain, literalBody_append hcs]
      · rfl
      · exact hquote

/-! ### Strings of many lines -/

theorem multiLineBasicBody_plain (hplain : c = '\n' ∨ isPlain c = true) (hback : c ≠ '\\')
    (hquotes : ∀ rest, c :: cs ≠ '"' :: '"' :: '"' :: rest) :
    multiLineBasicBody (c :: cs) = (multiLineBasicBody cs).map fun (text, rest) => (c :: text, rest) := by
  rw [multiLineBasicBody, if_pos (by simpa using hplain)]
  case x => rintro rest rfl rfl; exact hquotes _ rfl
  case x_1 => rintro rest rfl rfl; exact hquotes _ rfl
  case x_2 => rintro rest rfl rfl; exact hquotes _ rfl
  case x_3 => exact hback
  case x_4 => rintro rest rfl rfl; exact absurd hplain (by decide)

theorem multiLineBasicBody_escape {after : List Char} (h : Escapes c after) (cs : List Char) :
    multiLineBasicBody ('\\' :: (after ++ cs)) = (multiLineBasicBody cs).map fun (text, rest) => (c :: text, rest) := by
  have hread := h.read cs
  rw [multiLineBasicBody, h.stays, if_neg (by simp)]
  split
  · rename_i c' rest' h'
    cases hread.symm.trans h'
    rfl
  · rename_i h'
    cases hread.symm.trans h'

/-- Up to two quotes before anything else are part of the text. -/
theorem multiLineBasicBody_quotes (hhead : cs.head? ≠ some '"') : ∀ {quotes : Nat}, quotes ≤ 2 →
    multiLineBasicBody (List.replicate quotes '"' ++ cs)
      = (multiLineBasicBody cs).map fun (text, rest) => (List.replicate quotes '"' ++ text, rest)
  | 0, _ => by simp
  | quotes + 1, h => by
      have hquotes : ∀ rest, '"' :: (List.replicate quotes '"' ++ cs) ≠ '"' :: '"' :: '"' :: rest := by
        intro rest heq
        have hquotes : quotes = 0 ∨ quotes = 1 := by omega
        rcases hquotes with rfl | rfl <;> simp_all
      rw [List.replicate_succ, List.cons_append, multiLineBasicBody_plain (.inr rfl) (by decide) hquotes,
        multiLineBasicBody_quotes hhead (by omega), Option.map_map]
      rfl

/-- Up to two quotes before the ending are part of the text. -/
theorem multiLineBasicBody_tripled {quotes : Nat} (h : quotes ≤ 2) (hrest : rest.head? ≠ some '"') :
    multiLineBasicBody (List.replicate quotes '"' ++ (tripled '"' ++ rest))
      = some (List.replicate quotes '"', rest) := by
  -- Up to two quotes may stand before the closing three.
  have hquotes : quotes = 0 ∨ quotes = 1 ∨ quotes = 2 := by omega
  rcases hquotes with rfl | rfl | rfl
  · simp only [List.replicate, List.nil_append, tripled, List.cons_append]
    rw [multiLineBasicBody]
    · rintro rest' rfl; simp at hrest
    · rintro rest' rfl; simp at hrest
  · simp only [List.replicate, List.nil_append, tripled, List.cons_append]
    rw [multiLineBasicBody]
    rintro rest' rfl
    simp at hrest
  · simp only [List.replicate, List.nil_append, tripled, List.cons_append]
    rw [multiLineBasicBody]

/-- A character after up to two quotes. -/
theorem multiLineBasicBody_written {quotes : Nat} (h : quotes ≤ 2) (written : List Char) {text : List Char}
    (hhead : (written ++ cs).head? ≠ some '"')
    (hread : multiLineBasicBody (written ++ cs) = (multiLineBasicBody cs).map fun (text, rest) => (c :: text, rest))
    (hcs : multiLineBasicBody cs = some (text, rest)) :
    multiLineBasicBody (List.replicate quotes '"' ++ (written ++ cs))
      = some (List.replicate quotes '"' ++ c :: text, rest) := by
  rw [multiLineBasicBody_quotes hhead h, hread, hcs]
  rfl

/-- A multi-line basic string holds every text. The induction counts the quotes that were written right before. -/
theorem multiLineBasicBody_escapedLines (hrest : rest.head? ≠ some '"') (quotes : Nat) (h : quotes ≤ 2) :
    ∀ cs : List Char,
      multiLineBasicBody (List.replicate quotes '"' ++ (escapedLines quotes cs ++ (tripled '"' ++ rest)))
        = some (List.replicate quotes '"' ++ cs, rest)
  | [] => by
      rw [escapedLines, List.nil_append, List.append_nil]
      exact multiLineBasicBody_tripled h hrest
  | c :: cs => by
      -- What is not a quote ends the run of quotes, so the rest is read as if none had been written.
      have ih : multiLineBasicBody (escapedLines 0 cs ++ (tripled '"' ++ rest)) = some (cs, rest) :=
        multiLineBasicBody_escapedLines hrest 0 (Nat.zero_le 2) cs
      rw [escapedLines]
      split
      · rename_i hc
        subst hc
        split
        · rename_i hless
          have ihnext := multiLineBasicBody_escapedLines hrest (quotes + 1) (by omega) cs
          simpa [List.replicate_succ'] using ihnext
        · have hquote : Escapes '"' ['"'] := ⟨fun _ => rfl, fun _ => rfl⟩
          exact multiLineBasicBody_written h ['\\', '"'] (by simp) (multiLineBasicBody_escape hquote _) ih
      · rename_i hnot
        split
        · rename_i hc
          subst hc
          exact multiLineBasicBody_written h ['\n'] (by simp)
            (multiLineBasicBody_plain (.inl rfl) (by decide) (by simp)) ih
        · rw [List.append_assoc]
          rcases escaped_cases c with ⟨hself, hcontrol, hquote, hback⟩ | ⟨after, hescape, hafter⟩
          · rw [hself]
            exact multiLineBasicBody_written h [c] (by simpa using hquote)
              (multiLineBasicBody_plain (.inr (isPlain_of_not_isControl hcontrol)) hback (by simp [hquote])) ih
          · rw [hescape]
            exact multiLineBasicBody_written h ('\\' :: after) (by simp) (multiLineBasicBody_escape hafter _) ih

/-! ### Literal strings of many lines -/

theorem multiLineLiteralBody_plain (hplain : c = '\n' ∨ isPlain c = true)
    (hquotes : ∀ rest, c :: cs ≠ '\'' :: '\'' :: '\'' :: rest) :
    multiLineLiteralBody (c :: cs) = (multiLineLiteralBody cs).map fun (text, rest) => (c :: text, rest) := by
  rw [multiLineLiteralBody, if_pos (by simpa using hplain)]
  case x_1 => rintro rest rfl rfl; exact hquotes _ rfl
  case x_2 => rintro rest rfl rfl; exact hquotes _ rfl
  case x_3 => rintro rest rfl rfl; exact hquotes _ rfl
  case x_4 => rintro rest rfl rfl; exact absurd hplain (by decide)

/-- Up to two quotes before the ending are part of the text. -/
theorem multiLineLiteralBody_tripled (hrest : rest.head? ≠ some '\'')
    (hcs : cs = [] ∨ cs = ['\''] ∨ cs = ['\'', '\'']) :
    multiLineLiteralBody (cs ++ (tripled '\'' ++ rest)) = some (cs, rest) := by
  rcases hcs with rfl | rfl | rfl
  · simp only [tripled, List.cons_append, List.nil_append]
    rw [multiLineLiteralBody]
    · rintro rest' rfl; simp at hrest
    · rintro rest' rfl; simp at hrest
  · simp only [tripled, List.cons_append, List.nil_append]
    rw [multiLineLiteralBody]
    rintro rest' rfl
    simp at hrest
  · simp only [tripled, List.cons_append, List.nil_append]
    rw [multiLineLiteralBody]

/-- A text without three quotes in a row, and that is more than quotes, does not begin with its own ending. -/
theorem ne_tripled_of_hasTriple (h : hasTriple '\'' (c :: cs) = false) (hone : c :: cs ≠ ['\''])
    (htwo : c :: cs ≠ ['\'', '\'']) (ending after : List Char) :
    c :: (cs ++ ending) ≠ '\'' :: '\'' :: '\'' :: after := by
  intro heq
  match cs with
  | [] => simp_all
  | [d] => simp_all
  | d :: e :: cs => simp_all [hasTriple]

theorem hasTriple_of_cons {mark : Char} (h : hasTriple mark (c :: cs) = false) : hasTriple mark cs = false := by
  match cs with
  | [] | [_] => rfl
  | d :: e :: cs =>
    rw [hasTriple, Bool.or_eq_false_iff] at h
    exact h.2

/-- A multi-line literal string holds every text that is plain but for line breaks and that does not end it. -/
theorem multiLineLiteralBody_append (hrest : rest.head? ≠ some '\'') : ∀ {cs : List Char},
    (∀ c ∈ cs, c = '\n' ∨ isPlain c = true) → hasTriple '\'' cs = false →
    multiLineLiteralBody (cs ++ (tripled '\'' ++ rest)) = some (cs, rest)
  | [], _, _ => multiLineLiteralBody_tripled hrest (.inl rfl)
  | c :: cs, h, htriple => by
      obtain ⟨hplain, hcs⟩ := List.forall_mem_cons.1 h
      by_cases hone : c :: cs = ['\'']
      · exact multiLineLiteralBody_tripled hrest (.inr (.inl hone))
      by_cases htwo : c :: cs = ['\'', '\'']
      · exact multiLineLiteralBody_tripled hrest (.inr (.inr htwo))
      -- Longer than that, the text does not begin with the closing three, as it has no three in a row.
      rw [List.cons_append, multiLineLiteralBody_plain hplain (ne_tripled_of_hasTriple htriple hone htwo _),
        multiLineLiteralBody_append hrest hcs (hasTriple_of_cons htriple)]
      rfl

/-! ### Strings and keys -/

/-- A literal string is plain and without the mark that ends it. -/
def IsLiteral (cs : List Char) : Prop := ∀ c ∈ cs, isPlain c = true ∧ c ≠ '\''

theorem isPlain_of_control (hcontrol : ¬(isControl c && c != '\t') = true) : isPlain c = true := by
  cases hc : isControl c <;> simp_all [isPlain]

/-- A literal style is picked for a text that it can hold. -/
theorem Style.ofString_cases (cs : List Char) :
    Style.ofString cs = .basic ∨ Style.ofString cs = .multiLineBasic ∨
      Style.ofString cs = .literal ∧ IsLiteral cs ∨
      Style.ofString cs = .multiLineLiteral ∧ (∀ c ∈ cs, c = '\n' ∨ isPlain c = true) ∧ hasTriple '\'' cs = false := by
  simp only [Style.ofString]
  split
  · split <;> simp
  rename_i hcontrol
  -- Beyond the first test, the only control character left is the line break.
  have hplain : ∀ c ∈ cs, c = '\n' ∨ isPlain c = true := by
    intro c hc
    have hcontrol := List.any_eq_false.1 (Bool.eq_false_iff.2 hcontrol) c hc
    by_cases hbreak : c = '\n'
    · exact .inl hbreak
    · refine .inr (isPlain_of_control fun h => hcontrol ?_)
      rw [h, Bool.true_and, bne_iff_ne]
      exact hbreak
  split
  · simp
  split
  · rename_i hfree
    simp only [Bool.and_eq_true, Bool.not_eq_true', List.contains_eq_mem, decide_eq_false_iff_not] at hfree
    refine .inr (.inr (.inl ⟨rfl, fun c hc => ⟨(hplain c hc).resolve_left ?_, ?_⟩⟩))
    · rintro rfl; exact hfree.1 hc
    · rintro rfl; exact hfree.2 hc
  split
  · simp
  split
  · rename_i htriple
    exact .inr (.inr (.inr ⟨rfl, hplain, by simpa using htriple⟩))
  split <;> simp

theorem Style.ofKey_cases (cs : List Char) :
    Style.ofKey cs = .basic ∨ Style.ofKey cs = .literal ∧ IsLiteral cs := by
  simp only [Style.ofKey]
  split
  · exact .inl rfl
  rename_i hcontrol
  split
  · exact .inl rfl
  split
  · rename_i hfree
    refine .inr ⟨rfl, fun c hc => ⟨?_, by rintro rfl; simp_all⟩⟩
    exact isPlain_of_control (List.any_eq_false.1 (Bool.eq_false_iff.2 hcontrol) c hc)
  · exact .inl rfl

theorem skipOpening_opening {written : List Char} (h : '\n' ∉ cs → newline? written = none) :
    skipOpening (opening cs ++ written) = written := by
  unfold opening
  split
  · rfl
  · rename_i hbreak
    rw [List.nil_append, skipOpening, h (by simpa using hbreak), Option.getD_none]

theorem newline?_eq_none (hfeed : c ≠ '\n') (hreturn : c ≠ '\r') : newline? (c :: cs) = none := by
  unfold newline?
  split <;> simp_all

theorem newline?_of_isPlain (hbreak : '\n' ∉ c :: cs) (hplain : c = '\n' ∨ isPlain c = true) :
    newline? (c :: rest) = none := by
  refine newline?_eq_none (by rintro rfl; simp at hbreak) ?_
  rintro rfl
  revert hplain
  decide

theorem newline?_escapedLines (hbreak : '\n' ∉ cs) : newline? (escapedLines 0 cs ++ (tripled '"' ++ rest)) = none := by
  match cs with
  | [] => rfl
  | c :: cs =>
    rw [escapedLines]
    split
    · rfl
    · rename_i hquote
      rw [if_neg (by rintro rfl; simp at hbreak), List.append_assoc]
      rcases escaped_cases c with ⟨hself, hcontrol, -, -⟩ | ⟨after, hescape, -⟩
      · rw [hself]
        exact newline?_of_isPlain hbreak (.inr (isPlain_of_not_isControl hcontrol))
      · rw [hescape]
        rfl

theorem head?_escaped (c : Char) : ∃ d after, escaped c = d :: after ∧ d ≠ '"' := by
  rcases escaped_cases c with ⟨hself, -, hquote, -⟩ | ⟨after, hescape, -⟩
  · exact ⟨c, [], hself, hquote⟩
  · exact ⟨'\\', after, hescape, by decide⟩

theorem string?_basic (hrest : rest.head? ≠ some '"') (cs : List Char) :
    string? ('"' :: (cs.flatMap escaped ++ '"' :: rest)) = some (cs, rest) := by
  rw [string?, basicBody_flatMap_escaped]
  rintro after hafter
  match cs with
  | [] => simp_all
  | c :: cs =>
    obtain ⟨d, _, hd, hne⟩ := head?_escaped c
    simp_all

theorem string?_literal (hrest : rest.head? ≠ some '\'') (h : IsLiteral cs) :
    string? ('\'' :: (cs ++ '\'' :: rest)) = some (cs, rest) := by
  rw [string?, literalBody_append h]
  rintro after hafter
  match cs with
  | [] => simp_all
  | c :: cs => exact (h c List.mem_cons_self).2 (List.cons.inj hafter).1

theorem string?_multiLineBasic (hrest : rest.head? ≠ some '"') (cs : List Char) :
    string? (tripled '"' ++ (opening cs ++ (escapedLines 0 cs ++ (tripled '"' ++ rest)))) = some (cs, rest) := by
  simp only [tripled, List.cons_append, List.nil_append, string?]
  rw [skipOpening_opening]
  · exact multiLineBasicBody_escapedLines hrest 0 (Nat.zero_le 2) cs
  · exact newline?_escapedLines

theorem string?_multiLineLiteral (hrest : rest.head? ≠ some '\'') (hplain : ∀ c ∈ cs, c = '\n' ∨ isPlain c = true)
    (htriple : hasTriple '\'' cs = false) :
    string? (tripled '\'' ++ (opening cs ++ (cs ++ (tripled '\'' ++ rest)))) = some (cs, rest) := by
  simp only [tripled, List.cons_append, List.nil_append, string?]
  rw [skipOpening_opening]
  · exact multiLineLiteralBody_append hrest hplain htriple
  · intro hbreak
    match cs with
    | [] => rfl
    | c :: cs => exact newline?_of_isPlain hbreak (hplain c List.mem_cons_self)

/-- A string is read back, if no quote follows it. -/
theorem string?_stringText (hdouble : rest.head? ≠ some '"') (hsingle : rest.head? ≠ some '\'') (cs : List Char) :
    string? (stringText cs ++ rest) = some (cs, rest) := by
  rcases Style.ofString_cases cs with h | h | ⟨h, hliteral⟩ | ⟨h, hplain, htriple⟩
  · simpa [stringText, h, quoted] using string?_basic hdouble cs
  · simpa [stringText, h, quoted] using string?_multiLineBasic hdouble cs
  · simpa [stringText, h, quoted] using string?_literal hsingle hliteral
  · simpa [stringText, h, quoted] using string?_multiLineLiteral hsingle hplain htriple

theorem simpleKey?_bare {key : List Char} (hkey : key ≠ []) (hbare : ∀ c ∈ key, isBare c = true)
    (hrest : ∀ c ∈ rest.head?, isBare c = false) : simpleKey? (key ++ rest) = some (key, rest) := by
  have hnone : rest.takeWhile isBare = [] ∧ rest.dropWhile isBare = rest := by
    cases rest with
    | nil => exact ⟨rfl, rfl⟩
    | cons c rest => simp [hrest c rfl]
  have htake : (key ++ rest).takeWhile isBare = key := by
    rw [List.takeWhile_append_of_pos hbare, hnone.1, List.append_nil]
  have hdrop : (key ++ rest).dropWhile isBare = rest := by
    rw [List.dropWhile_append_of_pos hbare, hnone.2]
  -- A bare key begins with neither mark, so it is not taken for a quoted one.
  have hnot : ∀ mark after, isBare mark = false → key ++ rest ≠ mark :: after := by
    rintro mark after hmark heq
    match key with
    | c :: key => simp_all
  rw [simpleKey?, htake, hdrop]
  · match key with
    | c :: key => rfl
  · exact fun after => hnot '"' after rfl
  · exact fun after => hnot '\'' after rfl

/-- A key is read back, if what follows it is no part of a bare key. -/
theorem simpleKey?_keyText (hrest : ∀ c ∈ rest.head?, isBare c = false) (key : List Char) :
    simpleKey? (keyText key ++ rest) = some (key, rest) := by
  unfold keyText
  split
  · rename_i hbare
    simp only [Bool.and_eq_true, Bool.not_eq_true', List.isEmpty_eq_false_iff, List.all_eq_true] at hbare
    exact simpleKey?_bare hbare.1 hbare.2 hrest
  · rcases Style.ofKey_cases key with h | ⟨h, hliteral⟩
    · simpa [h, quoted, simpleKey?] using basicBody_flatMap_escaped key rest
    · have hread : literalBody (key ++ '\'' :: rest) = some (key, rest) := literalBody_append hliteral
      simpa [h, quoted, simpleKey?] using hread

end PrunedHistory.Toml
