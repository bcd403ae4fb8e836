/-!
# Programs that ask

A `Program` computes a value and on its way asks questions of its surroundings, one at a time. An
`Interface` lists the questions and the type of each one's answer. A `Handler` answers questions
out of a state, and `run` lets it answer all of them.
-/

namespace LeasedWork

/-- What may be asked, and what kind of answer each question gets. -/
structure Interface where
  Question : Type
  Answer : Question → Type

/-- A computation that asks questions. -/
inductive Program (I : Interface) (α : Type) : Type
  | done (a : α)
  | ask (question : I.Question) (next : I.Answer question → Program I α)

namespace Program

variable {I : Interface} {α β : Type}

def bind : Program I α → (α → Program I β) → Program I β
  | .done a, f => f a
  | .ask q next, f => .ask q fun answer => (next answer).bind f

instance : Monad (Program I) where
  pure := .done
  bind := bind

@[simp] theorem pure_eq_done (a : α) : (pure a : Program I α) = .done a := rfl

@[simp] theorem done_bind (a : α) (f : α → Program I β) : (Program.done a >>= f) = f a := rfl

@[simp] theorem ask_bind (q : I.Question) (next : I.Answer q → Program I α) (f : α → Program I β) :
    (Program.ask q next >>= f) = .ask q fun answer => next answer >>= f := rfl

theorem bind_done (p : Program I α) : p.bind .done = p := by
  induction p with
  | done a => rfl
  | ask q next ih => simp only [bind, ih]

theorem bind_bind {γ : Type} (p : Program I α) (f : α → Program I β) (g : β → Program I γ) :
    (p.bind f).bind g = p.bind fun a => (f a).bind g := by
  induction p with
  | done a => rfl
  | ask q next ih => simp only [bind, ih]

instance : LawfulMonad (Program I) :=
  LawfulMonad.mk' (Program I) bind_done (fun _ _ => rfl) bind_bind

/-- Asks one question and gives its answer. -/
def question (q : I.Question) : Program I (I.Answer q) := .ask q .done

end Program

/-- Answers questions out of a state. -/
structure Handler (I : Interface) (σ : Type) where
  answer : (q : I.Question) → σ → I.Answer q × σ

namespace Program

variable {I : Interface} {σ α β : Type}

/-- Runs a program to its end. -/
def run (h : Handler I σ) : Program I α → σ → α × σ
  | .done a, s => (a, s)
  | .ask q next, s => (next (h.answer q s).1).run h (h.answer q s).2

@[simp] theorem run_done (h : Handler I σ) (a : α) (s : σ) : run h (.done a) s = (a, s) := rfl

@[simp] theorem run_ask (h : Handler I σ) (q : I.Question) (next : I.Answer q → Program I α)
    (s : σ) : run h (.ask q next) s = run h (next (h.answer q s).1) (h.answer q s).2 := rfl

theorem run_bind (h : Handler I σ) (p : Program I α) (f : α → Program I β) (s : σ) :
    run h (p >>= f) s = run h (f (run h p s).1) (run h p s).2 := by
  induction p generalizing s with
  | done a => rfl
  | ask q next ih => exact ih _ _

theorem run_exceptT_bind {ε : Type} (h : Handler I σ) (p : ExceptT ε (Program I) α)
    (f : α → ExceptT ε (Program I) β) (s : σ) :
    run h (p >>= f).run s =
      match run h p.run s with
      | (.ok a, s) => run h (f a).run s
      | (.error e, s) => (.error e, s) := by
  rw [ExceptT.run_bind, run_bind]
  rcases run h p.run s with ⟨x, s⟩
  cases x <;> rfl

end Program

end LeasedWork
