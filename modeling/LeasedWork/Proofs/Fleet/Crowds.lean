import LeasedWork.Proofs.Fleet.Accords
import LeasedWork.Proofs.Store.Versions

/-! # Crowds

A `Crowd` is any number of programs at work on one table.  They take turns at any point: between two
requests of one program, any others may have made any number of theirs.  A program that asks gets
the table's answer, or it is told that the request has failed, which may or may not have reached the
table by then; one that is never told anything again has crashed.  What a clock shows is up to
chance each time, and so is what is asked of the rest of the world.

The `Rules` of a crowd say which programs may join it and what strangers may ask.  If they are
governed by an accord, the accord's promises hold throughout (`Accord.sound_run`): the table stays
good, what has become of it since any earlier time is what the accord admits, and whatever has been
answered was proper when it was.
-/
namespace LeasedWork

variable {E : Interface} {α : Type}

/-- A program whose result nobody waits for. -/
def Program.alone {I : Interface} (p : Program I α) : Program I Unit := do
  let _ ← p
  return ()

/-- Programs at work on one table, and everything that it has been asked. -/
structure Crowd (E : Interface) where
  table : Table
  history : List Exchange
  tasks : List (Program (Node.interface E) Unit)

/-- Who may join a crowd, and what strangers may ask. -/
structure Rules (E : Interface) where
  Joins : Program (Node.interface E) Unit → Prop
  Asks : Request → Prop

/-- What befalls a program at one of its questions. -/
structure Chance (E : Interface) where
  /-- What the clock shows. -/
  now : Instant
  /-- Why a request fails, if it does. -/
  fault : Option Failure
  /-- Whether a request that fails has reached the table all the same. -/
  isLate : Bool
  answer : (q : E.Question) → E.Answer q

namespace Crowd

/-- What may happen in a crowd. -/
inductive Move (rules : Rules E)
  | join (p : Program (Node.interface E) Unit) (h : rules.Joins p)
  /-- The program at a place asks its next question. -/
  | turn (i : Nat) (x : Chance E)
  /-- A stranger asks for something at a time. -/
  | stranger (request : Request) (now : Instant) (h : rules.Asks request)

/-- The crowd after its table has answered a request. -/
def asked (w : Crowd E) (now : Instant) (request : Request) : Crowd E :=
  ⟨(w.table.answer now request).2,
    w.history ++ [⟨request, (w.table.answer now request).1⟩], w.tasks⟩

/-- The crowd after the program at a place has gone on. -/
def goOn (w : Crowd E) (i : Nat) (p : Program (Node.interface E) Unit) : Crowd E :=
  { w with tasks := w.tasks.set i p }

/-- The crowd after the program at a place, which is `p`, has had a turn. -/
def turn (w : Crowd E) (i : Nat) (x : Chance E) : Program (Node.interface E) Unit → Crowd E
  | .done _ => w
  | .ask (.store request) next =>
    match x.fault with
    | none => (w.asked x.now request).goOn i (next (w.table.answer x.now request).1)
    | some failure =>
      (if x.isLate then w.asked x.now request else w).goOn i (next (.error failure))
  | .ask .now next => w.goOn i (next x.now)
  | .ask (.pause _) next => w.goOn i (next ())
  | .ask (.other q) next => w.goOn i (next (x.answer q))

variable {rules : Rules E}

/-- The crowd after a move. -/
def step (w : Crowd E) : Move rules → Crowd E
  | .join p _ => { w with tasks := w.tasks ++ [p] }
  | .turn i x =>
    match w.tasks[i]? with
    | none => w
    | some p => w.turn i x p
  | .stranger request now _ => w.asked now request

/-- The crowd after some moves, when nobody had done anything before. -/
def run (rules : Rules E) (moves : List (Move rules)) : Crowd E :=
  moves.foldl step ⟨Table.empty, [], []⟩

theorem run_append (rules : Rules E) (moves more : List (Move rules)) :
    run rules (moves ++ more) = more.foldl step (run rules moves) := List.foldl_append

end Crowd

/-! ## What an accord promises -/

namespace Accord

/-- Whoever follows the rules abides by the accord. -/
structure Governs (A : Accord) (rules : Rules E) : Prop where
  empty : A.Good Table.empty
  joins : ∀ p, rules.Joins p → ∀ t, A.Abides (fun _ _ => True) p t
  asks : ∀ request, rules.Asks request → ∀ t, A.Good t → A.May t request

/-- An exchange was proper when it took place, and the table has become what the accord admits. -/
def Saw (A : Accord) (x : Exchange) (t : Table) : Prop :=
  ∃ u now, A.Good u ∧ A.May u x.request ∧ x.answer = (u.answer now x.request).1 ∧
    A.Grows (u.answer now x.request).2 t

/-- Nobody in a crowd has broken the accord, or is going to. -/
structure Sound (A : Accord) (w : Crowd E) : Prop where
  good : A.Good w.table
  tasks : ∀ p ∈ w.tasks, A.Abides (fun _ _ => True) p w.table
  history : ∀ x ∈ w.history, A.Saw x w.table

variable {A : Accord} {rules : Rules E} {w : Crowd E} {t u : Table}

theorem Saw.mono {x : Exchange} (h : A.Saw x t) (hgrows : A.Grows t u) : A.Saw x u := by
  obtain ⟨v, now, hgood, hmay, hanswer, hsince⟩ := h
  exact ⟨v, now, hgood, hmay, hanswer, A.trans hsince hgrows⟩

theorem abides_alone {p : Program (Node.interface E) α} {post : α → Table → Prop}
    (h : A.Abides post p t) : A.Abides (fun _ _ => True) p.alone t :=
  h.bind fun _ _ _ _ _ _ _ _ => trivial

/-- A proper request may be made at any time. -/
theorem Sound.asked (h : A.Sound w) (now : Instant) {request : Request}
    (hmay : A.May w.table request) :
    A.Sound (w.asked now request) ∧ A.Grows w.table (w.asked now request).table := by
  obtain ⟨hgood, hgrows⟩ := A.keeps now h.good hmay
  refine ⟨⟨hgood, fun p hp => (h.tasks p hp).mono hgrows, fun x hx => ?_⟩, hgrows⟩
  rcases List.mem_append.mp hx with hold | hnew
  · exact (h.history x hold).mono hgrows
  · obtain rfl := List.mem_singleton.mp hnew
    exact ⟨w.table, now, h.good, hmay, rfl, A.refl _⟩

theorem Sound.goOn (h : A.Sound w) (i : Nat) {p : Program (Node.interface E) Unit}
    (hp : A.Abides (fun _ _ => True) p w.table) : A.Sound (w.goOn i p) := by
  refine ⟨h.good, fun q hq => ?_, h.history⟩
  rcases List.mem_or_eq_of_mem_set hq with hold | rfl
  · exact h.tasks q hold
  · exact hp

theorem Sound.turn (h : A.Sound w) (i : Nat) (x : Chance E) {p : Program (Node.interface E) Unit}
    (hp : A.Abides (fun _ _ => True) p w.table) :
    A.Sound (w.turn i x p) ∧ A.Grows w.table (w.turn i x p).table := by
  match p with
  | .done _ => exact ⟨h, A.refl _⟩
  | .ask .now next => exact ⟨h.goOn i (hp x.now), A.refl _⟩
  | .ask (.pause _) next => exact ⟨h.goOn i hp, A.refl _⟩
  | .ask (.other q) next => exact ⟨h.goOn i (hp (x.answer q)), A.refl _⟩
  | .ask (.store request) next =>
    obtain ⟨hmay, hanswer, hfailure⟩ := hp w.table h.good (A.refl _)
    obtain ⟨hasked, hgrows⟩ := h.asked x.now hmay
    rw [Crowd.turn]
    split
    · exact ⟨hasked.goOn i (hanswer x.now), hgrows⟩
    · rename_i failure _
      -- A late failure is the failure of a request that somebody else has made just before.
      cases x.isLate with
      | true => exact ⟨hasked.goOn i ((hfailure failure).mono hgrows), hgrows⟩
      | false => exact ⟨h.goOn i (hfailure failure), A.refl _⟩

theorem Sound.step (hA : A.Governs rules) (h : A.Sound w) (m : Crowd.Move rules) :
    A.Sound (w.step m) ∧ A.Grows w.table (w.step m).table := by
  cases m with
  | join p hp =>
    refine ⟨⟨h.good, fun q hq => ?_, h.history⟩, A.refl _⟩
    rcases List.mem_append.mp hq with hold | hnew
    · exact h.tasks q hold
    · exact List.mem_singleton.mp hnew ▸ hA.joins p hp w.table
  | turn i x =>
    rw [Crowd.step]
    split
    · exact ⟨h, A.refl _⟩
    · rename_i p hp
      exact h.turn i x (h.tasks p (List.mem_of_getElem? hp))
  | stranger request now hasks => exact h.asked now (hA.asks request hasks w.table h.good)

theorem Sound.foldl (hA : A.Governs rules) (h : A.Sound w) (moves : List (Crowd.Move rules)) :
    A.Sound (moves.foldl Crowd.step w) ∧ A.Grows w.table (moves.foldl Crowd.step w).table := by
  induction moves generalizing w with
  | nil => exact ⟨h, A.refl _⟩
  | cons m rest ih =>
    obtain ⟨hstep, hgrows⟩ := h.step hA m
    obtain ⟨hrest, hgrows'⟩ := ih hstep
    exact ⟨hrest, A.trans hgrows hgrows'⟩

/-- **An accord holds throughout** a crowd that it governs. -/
theorem sound_run (hA : A.Governs rules) (moves : List (Crowd.Move rules)) :
    A.Sound (Crowd.run rules moves) := by
  have hempty : A.Sound (E := E) ⟨Table.empty, [], []⟩ :=
    ⟨hA.empty, fun p hp => absurd hp List.not_mem_nil, fun x hx => absurd hx List.not_mem_nil⟩
  exact (hempty.foldl hA moves).1

theorem grows_run (hA : A.Governs rules) (moves more : List (Crowd.Move rules)) :
    A.Grows (Crowd.run rules moves).table (Crowd.run rules (moves ++ more)).table := by
  rw [Crowd.run_append]
  exact ((sound_run hA moves).foldl hA more).2

end Accord

end LeasedWork
