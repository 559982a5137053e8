/-! Dialogues

    A computation that asks questions, each with its own type of answer, and ends with a result. What answers is left
    open: a function of the question, a responder with a state of its own, or another dialogue that works each answer
    out by further questions. Every dialogue ends, whatever the answers. -/

namespace PrunedHistory

/-- Work that ends with a result, or asks a question and goes on by its answer. -/
inductive Dialogue (Q : Type) (A : Q → Type) (α : Type) where
  | done (result : α)
  | ask (question : Q) (next : A question → Dialogue Q A α)

namespace Dialogue

variable {Q R : Type} {A : Q → Type} {B : R → Type} {α β γ σ : Type}

/-- Goes on with the result. -/
def bind : Dialogue Q A α → (α → Dialogue Q A β) → Dialogue Q A β
  | done a, f => f a
  | ask q next, f => ask q fun answer => (next answer).bind f

instance : Monad (Dialogue Q A) where
  pure := done
  bind := bind

/-- One question; its answer is the result. -/
def question (q : Q) : Dialogue Q A (A q) := ask q done

/-! ### What answers -/

/-- The result when every answer is a function of its question. -/
def run (answer : (q : Q) → A q) : Dialogue Q A α → α
  | done a => a
  | ask q next => (next (answer q)).run answer

/-- The result and the responder's last state when every answer may change that state. -/
def serve (respond : σ → (q : Q) → A q × σ) : Dialogue Q A α → σ → α × σ
  | done a, s => (a, s)
  | ask q next, s => (next (respond s q).1).serve respond (respond s q).2

/-- Every question is worked out by a dialogue of its own. -/
def interpret (work : (q : Q) → Dialogue R B (A q)) : Dialogue Q A α → Dialogue R B α
  | done a => done a
  | ask q next => (work q).bind fun answer => (next answer).interpret work

/-! ### Laws -/

@[simp] theorem done_bind (a : α) (f : α → Dialogue Q A β) : (done a : Dialogue Q A α).bind f = f a := rfl

@[simp] theorem ask_bind (q : Q) (next : A q → Dialogue Q A α) (f : α → Dialogue Q A β) :
    (ask q next).bind f = ask q fun answer => (next answer).bind f := rfl

theorem bind_done (d : Dialogue Q A α) : d.bind done = d := by
  induction d with
  | done a => rfl
  | ask q next ih => simp [ih]

theorem bind_assoc (d : Dialogue Q A α) (f : α → Dialogue Q A β) (g : β → Dialogue Q A γ) :
    (d.bind f).bind g = d.bind fun a => (f a).bind g := by
  induction d with
  | done a => rfl
  | ask q next ih => simp [ih]

@[simp] theorem run_bind (answer : (q : Q) → A q) (d : Dialogue Q A α) (f : α → Dialogue Q A β) :
    (d.bind f).run answer = (f (d.run answer)).run answer := by
  induction d with
  | done a => rfl
  | ask q next ih => simp [run, ih]

@[simp] theorem serve_bind (respond : σ → (q : Q) → A q × σ) (d : Dialogue Q A α) (f : α → Dialogue Q A β)
    (s : σ) :
    (d.bind f).serve respond s = (f (d.serve respond s).1).serve respond (d.serve respond s).2 := by
  induction d generalizing s with
  | done a => rfl
  | ask q next ih => simp [serve, ih]

instance : LawfulMonad (Dialogue Q A) :=
  LawfulMonad.mk' (Dialogue Q A) bind_done (fun _ _ => rfl) bind_assoc

end Dialogue

end PrunedHistory
