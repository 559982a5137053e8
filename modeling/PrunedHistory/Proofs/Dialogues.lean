import PrunedHistory.Dialogue

/-! What holds whatever is answered

    A property of every question that a dialogue can come to is kept when dialogues are joined. Where the work behind
    each question comes to one fixed answer, the whole comes to what it is on these answers. And a dialogue that goes on
    only where another one stops cannot be told from it by answers that do not bring the other one there. -/

namespace PrunedHistory.Dialogue

variable {Q R : Type} {A : Q → Type} {B : R → Type} {α β σ : Type} {P : Q → Prop}

/-- Whatever the answers are, every question has the property. -/
def Asks (P : Q → Prop) : Dialogue Q A α → Prop
  | done _ => True
  | ask q next => P q ∧ ∀ answer, (next answer).Asks P

@[simp] theorem asks_done (a : α) : (done a : Dialogue Q A α).Asks P := trivial

@[simp] theorem asks_question {q : Q} : (question q : Dialogue Q A (A q)).Asks P ↔ P q :=
  and_iff_left fun _ => trivial

theorem Asks.bind {f : α → Dialogue Q A β} (hf : ∀ a, (f a).Asks P) : ∀ {d : Dialogue Q A α}, d.Asks P →
    (d.bind f).Asks P
  | done a, _ => hf a
  | ask _ _, ⟨hq, hnext⟩ => ⟨hq, fun answer => (hnext answer).bind hf⟩

theorem asks_interpret {work : (q : R) → Dialogue Q A (B q)} (hwork : ∀ q, (work q).Asks P) :
    ∀ d : Dialogue R B α, (d.interpret work).Asks P
  | done _ => trivial
  | ask q next => (hwork q).bind fun answer => asks_interpret hwork (next answer)

/-- Where the work behind each question comes to one answer in every state with an invariant, and keeps it, so does
    the whole. -/
theorem serve_interpret {work : (q : R) → Dialogue Q A (B q)} {respond : σ → (q : Q) → A q × σ}
    {answer : (q : R) → B q} {I : σ → Prop}
    (hwork : ∀ q s, I s → ((work q).serve respond s).1 = answer q ∧ I ((work q).serve respond s).2) :
    ∀ (d : Dialogue R B α) {s : σ}, I s →
      ((d.interpret work).serve respond s).1 = d.run answer ∧ I ((d.interpret work).serve respond s).2
  | done _, _, hs => ⟨rfl, hs⟩
  | ask q next, s, hs => by
      obtain ⟨hanswer, hkept⟩ := hwork q s hs
      rw [interpret, serve_bind, hanswer, run]
      exact serve_interpret hwork (next (answer q)) hkept

/-! ### Going on -/

/-- The second dialogue is the first one, but for what it does where the first one has stopped. -/
inductive Continues (Stops : α → Prop) : Dialogue Q A α → Dialogue Q A α → Prop where
  | stopped {a : α} {d : Dialogue Q A α} : Stops a → Continues Stops (.done a) d
  | done (a : α) : Continues Stops (.done a) (.done a)
  | ask {q : Q} {next next' : A q → Dialogue Q A α} : (∀ answer, Continues Stops (next answer) (next' answer)) →
    Continues Stops (.ask q next) (.ask q next')

namespace Continues

variable {Stops : α → Prop} {StopsAfter : β → Prop} {d d' : Dialogue Q A α} {f f' : α → Dialogue Q A β}

theorem refl : ∀ d : Dialogue Q A α, Continues Stops d d
  | .done a => .done a
  | .ask _ next => .ask fun answer => refl (next answer)

/-- What comes after a stop stops at once. -/
theorem bind (h : Continues Stops d d') (hstops : ∀ a, Stops a → ∃ b, f a = .done b ∧ StopsAfter b)
    (hf : ∀ a, Continues StopsAfter (f a) (f' a)) : Continues StopsAfter (d.bind f) (d'.bind f') := by
  induction h with
  | @stopped a d ha =>
    obtain ⟨b, hb, hafter⟩ := hstops a ha
    rw [done_bind, hb]
    exact .stopped hafter
  | done a => exact hf a
  | ask _ ih => exact .ask ih

/-- The same work, and then more that goes on only where the other stops. -/
theorem after (d : Dialogue Q A α) (hf : ∀ a, Continues StopsAfter (f a) (f' a)) :
    Continues StopsAfter (d.bind f) (d.bind f') := by
  have hsame : Continues (fun _ => False) d d := .refl d
  exact hsame.bind (fun _ => False.elim) hf

theorem interpret {work : (q : Q) → Dialogue R B (A q)} (h : Continues Stops d d') :
    Continues Stops (d.interpret work) (d'.interpret work) := by
  induction h with
  | stopped ha => exact .stopped ha
  | done a => exact .done a
  | ask _ ih => exact after _ ih

theorem run_eq {answer : (q : Q) → A q} (h : Continues Stops d d') (hends : ¬Stops (d.run answer)) :
    d'.run answer = d.run answer := by
  induction h with
  | stopped ha => exact absurd ha hends
  | done a => rfl
  | ask _ ih => exact ih _ hends

theorem serve_eq {respond : σ → (q : Q) → A q × σ} {s : σ} (h : Continues Stops d d')
    (hends : ¬Stops (d.serve respond s).1) : d'.serve respond s = d.serve respond s := by
  induction h generalizing s with
  | stopped ha => exact absurd ha hends
  | done a => rfl
  | ask _ ih => exact ih _ hends

end Continues

end PrunedHistory.Dialogue
