import Mathlib.Data.List.Forall2
import PrunedHistory.Proofs.Toml.Strings
import PrunedHistory.Toml.Statement

/-! Reading lines back

    A document is written line by line, and each line is read back on its own, whatever comes after it: a key with a
    string, the head of a table, the head of an element, or nothing. Main statement: the statements of a text are those
    of its lines. -/

namespace PrunedHistory.Toml

/-! ### Texts of lines -/

/-- A line that is read as a statement, or as none, whatever comes after it. -/
structure Spells (line : List Char) (statement : Option Statement) : Prop where
  read : ∀ rest, line? (line ++ rest) = some (statement, rest)
  /-- It begins neither with a blank nor with a byte order mark. -/
  begins : ∃ c after, line = c :: after ∧ isBlank c = false ∧ c ≠ '\uFEFF'

/-- A text of lines that are read as the statements. -/
inductive Writes : List Char → List Statement → Prop
  | nil : Writes [] []
  | line {line cs : List Char} {statement : Option Statement} {statements : List Statement}
      (first : Spells line statement) (others : Writes cs statements) :
      Writes (line ++ cs) (statement.toList ++ statements)

variable {line cs rest : List Char} {statement : Option Statement} {statements : List Statement}

theorem Spells.ne_nil (h : Spells line statement) : line ≠ [] := by
  obtain ⟨c, after, rfl, -⟩ := h.begins
  exact List.cons_ne_nil _ _

theorem Spells.skipBlanks_append (h : Spells line statement) (rest : List Char) :
    skipBlanks (line ++ rest) = line ++ rest := by
  obtain ⟨c, after, rfl, hblank, -⟩ := h.begins
  simp [skipBlanks, hblank]

theorem Spells.writes (h : Spells line statement) : Writes line statement.toList := by
  simpa using Writes.line h .nil

theorem Writes.append {cs' : List Char} {statements' : List Statement} (h : Writes cs statements)
    (h' : Writes cs' statements') : Writes (cs ++ cs') (statements ++ statements') := by
  induction h with
  | nil => exact h'
  | line first _ ih =>
    rw [List.append_assoc, List.append_assoc]
    exact .line first ih

theorem Writes.flatMap {α : Type} {line : α → List Char} {statement : α → Statement}
    (h : ∀ a, Spells (line a) (some (statement a))) : ∀ l : List α, Writes (l.flatMap line) (l.map statement)
  | [] => .nil
  | a :: l => .line (h a) (flatMap h l)

theorem spells_break : Spells ['\n'] none :=
  ⟨fun _ => rfl, '\n', [], rfl, by decide, by decide⟩

/-- Texts with an empty line between them. -/
theorem Writes.intercalate {texts : List (List Char)} {parts : List (List Statement)}
    (h : List.Forall₂ Writes texts parts) : Writes (['\n'].intercalate texts) parts.flatten := by
  induction h with
  | nil => exact .nil
  | @cons text part texts parts first others ih =>
    cases others with
    | nil => simpa using first
    | cons second others =>
      rw [List.intercalate_cons_cons, List.flatten_cons, List.append_assoc]
      exact first.append (.line spells_break ih)

/-- Each line takes one step of the reader, so that the length of the text is enough. -/
theorem statements?_of_writes (h : Writes cs statements) : ∀ count, cs.length < count →
    statements? count cs = some statements := by
  induction h with
  | nil =>
    rintro (_ | count) hcount
    · omega
    · rfl
  | line first _ ih =>
    rintro (_ | count) hcount
    · omega
    · -- A line is not empty, so what is left is shorter and the count still lasts.
      have hlength := List.length_pos_iff.2 first.ne_nil
      rw [List.length_append] at hcount
      have hothers := ih count (by omega)
      rw [statements?, first.skipBlanks_append]
      split
      · rename_i heq
        exact absurd (List.append_eq_nil_iff.1 heq).1 first.ne_nil
      · simp [first.read, hothers]

theorem parse?_of_writes (h : Writes cs statements) : parse? (.ofList cs) = tableOfStatements? statements := by
  -- No statement begins with a byte order mark, so none is skipped.
  have hmark : ∀ after, cs ≠ '\uFEFF' :: after := by
    rintro after rfl
    generalize htext : '\uFEFF' :: after = text at h
    cases h with
    | nil => cases htext
    | line first _ =>
      obtain ⟨c, _, rfl, -, hne⟩ := first.begins
      exact hne (List.cons.inj htext).1.symm
  rw [parse?, String.toList_ofList]
  split
  · exact absurd rfl (hmark _)
  · rw [statements?_of_writes h _ (Nat.lt_succ_self _)]
    rfl

/-! ### Keys -/

/-- A key begins with a character of its own or with a quote. -/
theorem keyText_begins (key : List Char) :
    ∃ c after, keyText key = c :: after ∧ (isBare c = true ∨ c = '"' ∨ c = '\'') := by
  unfold keyText
  split
  · rename_i hbare
    match key with
    | c :: key =>
      simp only [List.all_cons, Bool.and_eq_true] at hbare
      exact ⟨c, key, rfl, .inl hbare.2.1⟩
  · rcases Style.ofKey_cases key with h | ⟨h, -⟩
    · exact ⟨'"', _, by rw [h, quoted, List.cons_append], .inr (.inl rfl)⟩
    · exact ⟨'\'', _, by rw [h, quoted, List.cons_append], .inr (.inr rfl)⟩

theorem keyText_eq_self {key : List Char} (hkey : key ≠ []) (hbare : key.all isBare = true) : keyText key = key := by
  rw [keyText, if_pos]
  simpa [hkey] using hbare

/-- No key begins with what begins a comment, a line, a head, or blanks. -/
theorem ne_of_begins {c : Char} (h : isBare c = true ∨ c = '"' ∨ c = '\'') {mark : Char}
    (hmark : isBare mark = false ∧ mark ≠ '"' ∧ mark ≠ '\'') : c ≠ mark := by
  rintro rfl
  simp_all

theorem isBlank_of_begins {c : Char} (h : isBare c = true ∨ c = '"' ∨ c = '\'') : isBlank c = false := by
  have hspace : c ≠ ' ' := ne_of_begins h (by decide)
  have htab : c ≠ '\t' := ne_of_begins h (by decide)
  simp [isBlank, hspace, htab]

theorem skipBlanks_keyText (key after : List Char) : skipBlanks (keyText key ++ after) = keyText key ++ after := by
  obtain ⟨c, cs, hkey, hc⟩ := keyText_begins key
  simp [hkey, skipBlanks, isBlank_of_begins hc]

theorem keyParts?_last (count : Nat) {mark : Char} {after : List Char} (hbare : ∀ c ∈ after.head?, isBare c = false)
    (hafter : skipBlanks after = mark :: rest) (hmark : mark ≠ '.') (key : List Char) :
    keyParts? (count + 1) (keyText key ++ after) = some ([key], mark :: rest) := by
  rw [keyParts?, skipBlanks_keyText, simpleKey?_keyText hbare]
  simp only [Option.bind_eq_bind, Option.bind_some, hafter]
  split
  · exact absurd (List.cons.inj ‹_›).1 hmark
  · rfl

theorem keyParts?_dot (count : Nat) (key cs : List Char) :
    keyParts? (count + 1) (keyText key ++ '.' :: cs)
      = (keyParts? count cs).map fun (keys, rest) => (key :: keys, rest) := by
  have hbare : ∀ c ∈ ('.' :: cs).head?, isBare c = false := by
    rintro c ⟨⟩
    rfl
  rw [keyParts?, skipBlanks_keyText, simpleKey?_keyText hbare]
  rfl

/-! ### Lines -/

theorem stringText_begins (cs : List Char) : ∃ c after, stringText cs = c :: after ∧ (c = '"' ∨ c = '\'') := by
  unfold stringText
  cases Style.ofString cs with
  | basic => exact ⟨'"', _, by rw [quoted, List.cons_append], .inl rfl⟩
  | literal => exact ⟨'\'', _, by rw [quoted, List.cons_append], .inr rfl⟩
  | multiLineBasic => exact ⟨'"', _, by simp [quoted, tripled]; rfl, .inl rfl⟩
  | multiLineLiteral => exact ⟨'\'', _, by simp [quoted, tripled]; rfl, .inr rfl⟩

theorem skipBlanks_stringText (cs rest : List Char) : skipBlanks (stringText cs ++ rest) = stringText cs ++ rest := by
  obtain ⟨c, after, htext, hc⟩ := stringText_begins cs
  rcases hc with rfl | rfl <;> simp [htext, skipBlanks, isBlank]

theorem value?_stringText (depth : Nat) (hdouble : rest.head? ≠ some '"') (hsingle : rest.head? ≠ some '\'')
    (cs : List Char) : value? (depth + 1) (stringText cs ++ rest) = some (.string cs, rest) := by
  have hread := string?_stringText hdouble hsingle cs
  obtain ⟨c, after, htext, hc⟩ := stringText_begins cs
  rw [htext, List.cons_append] at hread ⊢
  rcases hc with rfl | rfl
  · rw [value?, atom?, hread]
    · rfl
    all_goals simp
  · rw [value?, atom?, hread]
    · rfl
    all_goals simp

theorem pair?_stringLine (key value rest : List Char) :
    pair? (value? depthLimit) (stringLine key value ++ rest) = some (([key], .string value), '\n' :: rest) := by
  have hbare : ∀ c ∈ (' ' :: '=' :: ' ' :: (stringText value ++ '\n' :: rest)).head?, isBare c = false := by
    rintro c ⟨⟩
    rfl
  have hkey : key? (keyText key ++ ' ' :: '=' :: ' ' :: (stringText value ++ '\n' :: rest))
      = some ([key], '=' :: ' ' :: (stringText value ++ '\n' :: rest)) :=
    keyParts?_last 78 hbare rfl (by decide) key
  have hblank : skipBlanks (' ' :: (stringText value ++ '\n' :: rest)) = stringText value ++ '\n' :: rest :=
    skipBlanks_stringText value _
  have hvalue : value? depthLimit (stringText value ++ '\n' :: rest) = some (.string value, '\n' :: rest) :=
    value?_stringText 78 (by simp) (by simp) value
  simp only [stringLine, List.append_assoc, List.cons_append, List.nil_append]
  rw [pair?, hkey]
  simp only [Option.bind_eq_bind, Option.bind_some, hblank, hvalue]

/-- What begins like a key is read as a pair. -/
theorem line?_pair {c : Char} (hc : isBare c = true ∨ c = '"' ∨ c = '\'') {key : List (List Char)} {value : Value}
    (hpair : pair? (value? depthLimit) (c :: cs) = some ((key, value), '\n' :: rest)) :
    line? (c :: cs) = some (some (.assign key value), rest) := by
  have hne : ∀ mark, isBare mark = false ∧ mark ≠ '"' ∧ mark ≠ '\'' → ∀ after, c :: cs ≠ mark :: after :=
    fun mark hmark after heq => ne_of_begins hc hmark (List.cons.inj heq).1
  rw [line?, hpair]
  · rfl
  · exact hne '#' (by decide)
  · exact hne '\n' (by decide)
  · exact hne '\r' (by decide)
  · exact fun _ => hne '[' (by decide) _
  · exact hne '[' (by decide)

/-- A key with a string. -/
theorem spells_stringLine (key value : List Char) :
    Spells (stringLine key value) (some (.assign [key] (.string value))) := by
  obtain ⟨c, after, hkey, hc⟩ := keyText_begins key
  have hline : ∃ after, stringLine key value = c :: after := by
    simp [stringLine, hkey]
  obtain ⟨after, hafter⟩ := hline
  refine ⟨fun rest => ?_, c, after, hafter, isBlank_of_begins hc, ne_of_begins hc (by decide)⟩
  have hpair := pair?_stringLine key value rest
  rw [hafter] at hpair ⊢
  exact line?_pair hc hpair

/-! ### Heads -/

/-- A name that is a key as it stands. -/
structure IsBareKey (group : List Char) : Prop where
  ne_nil : group ≠ []
  bare : group.all isBare = true

theorem key?_bare {group : List Char} (hgroup : IsBareKey group) (rest : List Char) :
    key? (group ++ ']' :: rest) = some ([group], ']' :: rest) := by
  have hbare : ∀ c ∈ (']' :: rest).head?, isBare c = false := by
    rintro c ⟨⟩
    rfl
  have hread := keyParts?_last 78 hbare rfl (by decide) group
  rwa [keyText_eq_self hgroup.ne_nil hgroup.bare] at hread

theorem key?_member {group : List Char} (hgroup : IsBareKey group) (name rest : List Char) :
    key? (group ++ '.' :: (keyText name ++ ']' :: rest)) = some ([group, name], ']' :: rest) := by
  have hbare : ∀ c ∈ (']' :: rest).head?, isBare c = false := by
    rintro c ⟨⟩
    rfl
  have hread := keyParts?_dot 78 group (keyText name ++ ']' :: rest)
  rw [keyText_eq_self hgroup.ne_nil hgroup.bare] at hread
  rw [key?, depthLimit, hread, keyParts?_last 77 hbare rfl (by decide)]
  rfl

theorem spells_element {group : List Char} (hgroup : IsBareKey group) :
    Spells ('[' :: '[' :: group ++ [']', ']', '\n']) (some (.element [group])) := by
  refine ⟨fun rest => ?_, '[', _, by rw [List.cons_append], by decide, by decide⟩
  simp only [List.append_assoc, List.cons_append, List.nil_append]
  rw [line?, key?_bare hgroup]
  rfl

/-- After one bracket, a key does not look like a second bracket. -/
theorem line?_table {group : List Char} (hgroup : IsBareKey group) {key : List (List Char)}
    (hkey : key? (group ++ cs) = some (key, ']' :: '\n' :: rest)) :
    line? ('[' :: (group ++ cs)) = some (some (.table key), rest) := by
  rw [line?, hkey]
  · rfl
  · intro after heq
    obtain ⟨c, tail, htext, hc⟩ := keyText_begins group
    rw [keyText_eq_self hgroup.ne_nil hgroup.bare] at htext
    rw [htext, List.cons_append] at heq
    exact ne_of_begins hc (by decide) (List.cons.inj heq).1

theorem spells_table {group : List Char} (hgroup : IsBareKey group) :
    Spells ('[' :: group ++ [']', '\n']) (some (.table [group])) := by
  refine ⟨fun rest => ?_, '[', _, by rw [List.cons_append], by decide, by decide⟩
  simp only [List.append_assoc, List.cons_append, List.nil_append]
  exact line?_table hgroup (key?_bare hgroup _)

theorem spells_member {group : List Char} (hgroup : IsBareKey group) (name : List Char) :
    Spells ('[' :: group ++ '.' :: keyText name ++ [']', '\n']) (some (.table [group, name])) := by
  refine ⟨fun rest => ?_, '[', _, by rw [List.cons_append, List.cons_append], by decide, by decide⟩
  simp only [List.append_assoc, List.cons_append, List.nil_append]
  exact line?_table hgroup (key?_member hgroup name _)

end PrunedHistory.Toml
