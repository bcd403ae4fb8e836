import LeasedWork.Proofs.Fleet.Crowds
import LeasedWork.Proofs.Fleet.Surroundings
import Mathlib.Data.List.Forall2

/-! # Workshops

A `Workshop` is a crowd of programs at work on one table in which it is known who has done what:
every job says what it was started for, and has a mark for each of its requests that has reached the
table, with the table before and after.  As in any crowd, jobs take turns at any point, a request
may fail, and a job that gets no more turns has crashed.  The `Charter` says who may join, what
strangers may ask, and which failures may hide that the request has reached the table all the same.

A `Watch` over a workshop keeps an account of its own with each job, in some surroundings, and says
how the accounts and the marks of all jobs fit the table.  If every turn keeps this so
(`Watch.Governs`), it is so throughout (`Watch.sound_run`).
-/
namespace LeasedWork

/-- A request that has reached a table, what was told of it, and the table before and after it. -/
structure Mark extends Exchange where
  before : Table
  after : Table

/-- Whether it has changed the record of an identity. Whoever writes a record changes it, if only in
its version. -/
def Mark.writes (id : RecordId) (m : Mark) : Bool := m.after.find? id ≠ m.before.find? id

namespace Mark

variable {id : RecordId} {m : Mark} (marks : List Mark)

theorem countP_concat_of_same (h : m.after.find? id = m.before.find? id) :
    (marks ++ [m]).countP (·.writes id) = marks.countP (·.writes id) := by
  simp [writes, h]

theorem countP_concat_of_ne (h : m.after.find? id ≠ m.before.find? id) :
    (marks ++ [m]).countP (·.writes id) = marks.countP (·.writes id) + 1 := by
  simp [writes, h]

end Mark

/-- A program at work. -/
structure Job (E : Interface) (L α : Type) where
  /-- What it was started for. -/
  label : L
  marks : List Mark
  rest : Program (Node.interface E) α

/-- Programs at work on one table. -/
structure Workshop (E : Interface) (L α : Type) where
  table : Table
  jobs : List (Job E L α)

/-- The rules of a workshop. -/
structure Charter (E : Interface) (L α : Type) where
  /-- Who may join. -/
  Joins : L → Program (Node.interface E) α → Prop
  /-- What strangers may ask. -/
  Asks : Request → Prop
  /-- Whether a request that fails so may have reached the table. -/
  mayHide : Failure → Bool

namespace Workshop

variable {E : Interface} {L α : Type}

/-- What may happen in a workshop. -/
inductive Move (charter : Charter E L α)
  | join (label : L) (p : Program (Node.interface E) α) (h : charter.Joins label p)
  /-- The job at a place asks its next question. -/
  | turn (i : Nat) (x : Chance E)
  /-- A stranger asks for something at a time. -/
  | stranger (request : Request) (now : Instant) (h : charter.Asks request)

/-- The workshop after the job at a place has gone on without the table. -/
def goOn (w : Workshop E L α) (i : Nat) (job : Job E L α) (p : Program (Node.interface E) α) :
    Workshop E L α :=
  { w with jobs := w.jobs.set i { job with rest := p } }

/-- The mark that a request leaves at a time. -/
def mark (w : Workshop E L α) (now : Instant) (request : Request) (told : request.Answer) : Mark :=
  ⟨⟨request, told⟩, w.table, (w.table.answer now request).2⟩

/-- The workshop after a request of the job at a place has reached the table. -/
def reach (w : Workshop E L α) (i : Nat) (job : Job E L α) (now : Instant) (request : Request)
    (told : request.Answer) (p : Program (Node.interface E) α) : Workshop E L α :=
  ⟨(w.table.answer now request).2,
    w.jobs.set i ⟨job.label, job.marks ++ [w.mark now request told], p⟩⟩

variable {charter : Charter E L α}

/-- The workshop after the job at a place has had a turn. -/
def turn (charter : Charter E L α) (w : Workshop E L α) (i : Nat) (job : Job E L α)
    (x : Chance E) : Workshop E L α :=
  match job.rest with
  | .done _ => w
  | .ask (.store request) next =>
    match x.fault with
    | none =>
      w.reach i job x.now request (w.table.answer x.now request).1
        (next (w.table.answer x.now request).1)
    | some failure =>
      if x.isLate && charter.mayHide failure then
        w.reach i job x.now request (.error failure) (next (.error failure))
      else w.goOn i job (next (.error failure))
  | .ask .now next => w.goOn i job (next x.now)
  | .ask (.pause _) next => w.goOn i job (next ())
  | .ask (.other q) next => w.goOn i job (next (x.answer q))

/-- The workshop after a move. -/
def step (w : Workshop E L α) : Move charter → Workshop E L α
  | .join label p _ => { w with jobs := w.jobs ++ [⟨label, [], p⟩] }
  | .turn i x =>
    match w.jobs[i]? with
    | none => w
    | some job => w.turn charter i job x
  | .stranger request now _ => { w with table := (w.table.answer now request).2 }

/-- The workshop after some moves, when nobody had joined before. -/
def run (start : Table) (moves : List (Move charter)) : Workshop E L α :=
  moves.foldl step ⟨start, []⟩

theorem run_append (start : Table) (moves more : List (Move charter)) :
    run start (moves ++ more) = more.foldl step (run start moves) := List.foldl_append

/-! ## Jobs stay -/

/-- Every job is still what it was started for, and what it has done is done. -/
def Grows (w w' : Workshop E L α) : Prop :=
  ∀ (i : Nat) (job : Job E L α), w.jobs[i]? = some job →
    ∃ job' : Job E L α, w'.jobs[i]? = some job' ∧ job'.label = job.label ∧
      job.marks <+: job'.marks

variable {w w' w'' : Workshop E L α}

theorem grows_refl (w : Workshop E L α) : w.Grows w :=
  fun _ job h => ⟨job, h, rfl, List.prefix_refl _⟩

theorem Grows.trans (h : w.Grows w') (h' : w'.Grows w'') : w.Grows w'' := by
  intro i job hjob
  obtain ⟨job', hjob', hlabel, hmarks⟩ := h i job hjob
  obtain ⟨job'', hjob'', hlabel', hmarks'⟩ := h' i job' hjob'
  exact ⟨job'', hjob'', hlabel'.trans hlabel, hmarks.trans hmarks'⟩

theorem grows_set {i : Nat} {job : Job E L α} (hjob : w.jobs[i]? = some job) {t : Table}
    {job' : Job E L α} (hlabel : job'.label = job.label) (hmarks : job.marks <+: job'.marks) :
    w.Grows ⟨t, w.jobs.set i job'⟩ := by
  intro j x hx
  by_cases hij : i = j
  · subst hij
    obtain rfl := Option.some.inj (hjob.symm.trans hx)
    have hlt : i < w.jobs.length := (List.getElem?_eq_some_iff.mp hjob).1
    exact ⟨job', List.getElem?_set_self hlt, hlabel, hmarks⟩
  · exact ⟨x, (List.getElem?_set_ne hij).trans hx, rfl, List.prefix_refl _⟩

theorem grows_turn {i : Nat} {job : Job E L α} (hjob : w.jobs[i]? = some job) (x : Chance E) :
    w.Grows (w.turn charter i job x) := by
  have hgoOn (p : Program (Node.interface E) α) : w.Grows (w.goOn i job p) :=
    grows_set hjob rfl (List.prefix_refl _)
  have hreach (now : Instant) (request : Request) (told : request.Answer)
      (p : Program (Node.interface E) α) : w.Grows (w.reach i job now request told p) :=
    grows_set hjob rfl (List.prefix_append _ _)
  unfold turn
  split
  · exact grows_refl w
  · split
    · exact hreach _ _ _ _
    · split
      · exact hreach _ _ _ _
      · exact hgoOn _
  · exact hgoOn _
  · exact hgoOn _
  · exact hgoOn _

theorem grows_step (m : Move charter) : w.Grows (w.step m) := by
  cases m with
  | join label p h =>
    intro i job hjob
    have hlt : i < w.jobs.length := (List.getElem?_eq_some_iff.mp hjob).1
    exact ⟨job, (List.getElem?_append_left hlt).trans hjob, rfl, List.prefix_refl _⟩
  | turn i x =>
    rw [step]
    split
    · exact grows_refl w
    · exact grows_turn ‹_› x
  | stranger request now h => exact fun i job hjob => ⟨job, hjob, rfl, List.prefix_refl _⟩

theorem grows_foldl (moves : List (Move charter)) : w.Grows (moves.foldl step w) := by
  induction moves generalizing w with
  | nil => exact grows_refl w
  | cons m rest ih => exact (grows_step m).trans ih

theorem sum_map_le {β : Type} {xs ys : List β} {f : β → Nat}
    (h : ∀ (i : Nat) (x : β), xs[i]? = some x → ∃ y, ys[i]? = some y ∧ f x ≤ f y) :
    (xs.map f).sum ≤ (ys.map f).sum := by
  induction xs generalizing ys with
  | nil => exact Nat.zero_le _
  | cons x rest ih =>
    obtain ⟨y, hy, hle⟩ := h 0 x rfl
    cases ys with
    | nil => cases hy
    | cons z zs =>
      cases hy
      have hrest := @ih zs fun i a ha => h (i + 1) a ha
      simp only [List.map_cons, List.sum_cons]
      omega

/-- How often the jobs have written the record of an identity. -/
def writes (w : Workshop E L α) (id : RecordId) : Nat :=
  (w.jobs.map fun job => job.marks.countP (·.writes id)).sum

theorem Grows.writes_le (h : w.Grows w') (id : RecordId) : w.writes id ≤ w'.writes id := by
  refine sum_map_le fun i job hjob => ?_
  obtain ⟨job', hjob', -, hmarks⟩ := h i job hjob
  exact ⟨job', hjob', hmarks.sublist.countP_le⟩

end Workshop

/-! ## Watches -/

/-- What a watch knows of a job: what it was started for, its marks, and the account with it. -/
structure Entry (L G : Type) where
  label : L
  marks : List Mark
  account : G

/-- An account with each job, and how the accounts fit the table. -/
structure Watch (L α : Type) where
  surroundings : Surroundings
  /-- What is said of the result of a job, by what it was started for. -/
  post : L → α → surroundings.State → Prop
  Fits : Table → List (Entry L surroundings.State) → Prop

namespace Watch

variable {E : Interface} {L α : Type}

/-- A job is as an entry says, and ensures what is said of its result. -/
structure Follows (W : Watch L α) (job : Job E L α) (e : Entry L W.surroundings.State) : Prop where
  label : e.label = job.label
  marks : e.marks = job.marks
  ensures : W.surroundings.Ensures (W.post job.label) job.rest e.account

/-- There are accounts with all jobs that fit the table. -/
def Sound (W : Watch L α) (w : Workshop E L α) : Prop :=
  ∃ es, List.Forall₂ W.Follows w.jobs es ∧ W.Fits w.table es

/-- What may be told of a request that reaches a table. -/
def MayTell (charter : Charter E L α) (t : Table) (now : Instant) (request : Request)
    (told : request.Answer) : Prop :=
  told = (t.answer now request).1 ∨ ∃ failure, told = .error failure ∧ charter.mayHide failure = true

/-- Whatever may happen under a charter, the accounts can be kept so that they fit. -/
structure Governs (W : Watch L α) (charter : Charter E L α) : Prop where
  joins : ∀ t es label p, W.Fits t es → charter.Joins label p →
    ∃ g, W.Fits t (es ++ [⟨label, [], g⟩]) ∧ W.surroundings.Ensures (W.post label) p g
  reaches : ∀ (t : Table) (es : List (Entry L W.surroundings.State)) (i : Nat)
    (e : Entry L W.surroundings.State) (now : Instant) (request : Request)
    (told : request.Answer), W.Fits t es → es[i]? = some e → W.surroundings.May e.account request →
      MayTell charter t now request told → ∃ g, W.surroundings.Tells e.account request told g ∧
        W.Fits (t.answer now request).2 (es.set i ⟨e.label, e.marks ++
          [⟨⟨request, told⟩, t, (t.answer now request).2⟩], g⟩)
  fails : ∀ (t : Table) (es : List (Entry L W.surroundings.State)) (i : Nat)
    (e : Entry L W.surroundings.State) (request : Request) (failure : Failure), W.Fits t es →
      es[i]? = some e → W.surroundings.May e.account request →
        ∃ g, W.surroundings.Tells e.account request (.error failure) g ∧
          W.Fits t (es.set i { e with account := g })
  asks : ∀ t es request now, W.Fits t es → charter.Asks request →
    W.Fits (t.answer now request).2 es
  shows : ∀ now, W.surroundings.Shows now

/-! ### Lists with one new place -/

section Set

variable {β : Type} {xs : List β} {i : Nat} {x : β}

theorem set_of_getElem (h : xs[i]? = some x) : xs.set i x = xs := by
  obtain ⟨hlt, rfl⟩ := List.getElem?_eq_some_iff.mp h
  exact List.set_getElem_self hlt

theorem sum_map_set (h : xs[i]? = some x) (y : β) (f : β → Nat) :
    ((xs.set i y).map f).sum + f x = (xs.map f).sum + f y := by
  induction xs generalizing i with
  | nil => cases h
  | cons a rest ih =>
    cases i with
    | zero =>
      cases h
      simp only [List.set_cons_zero, List.map_cons, List.sum_cons]
      omega
    | succ i =>
      have hrest := ih h
      simp only [List.set_cons_succ, List.map_cons, List.sum_cons]
      omega

theorem le_sum_map (h : xs[i]? = some x) (f : β → Nat) : f x ≤ (xs.map f).sum := by
  induction xs generalizing i with
  | nil => cases h
  | cons a rest ih =>
    rw [List.map_cons, List.sum_cons]
    cases i with
    | zero =>
      cases h
      exact Nat.le_add_right _ _
    | succ i => exact Nat.le_trans (ih h) (Nat.le_add_left _ _)

theorem sum_map_add {f g h : β → Nat}
    (hadd : ∀ x ∈ xs, f x + g x = h x) : (xs.map f).sum + (xs.map g).sum = (xs.map h).sum := by
  induction xs with
  | nil => rfl
  | cons x rest ih =>
    obtain ⟨hx, hrest⟩ := List.forall_mem_cons.mp hadd
    have hsum := ih hrest
    simp only [List.map_cons, List.sum_cons]
    omega

theorem forall_mem_set {motive : β → Prop} {y : β} (hold : ∀ x ∈ xs, motive x) (hnew : motive y) :
    ∀ x ∈ xs.set i y, motive x := by
  intro x hx
  rcases List.mem_or_eq_of_mem_set hx with hx | rfl
  · exact hold x hx
  · exact hnew

theorem any_set (h : xs[i]? = some x) (y : β) (f : β → Bool) (hx : f x = true → f y = true) :
    (xs.set i y).any f = (xs.any f || f y) := by
  induction xs generalizing i with
  | nil => cases h
  | cons a rest ih =>
    cases i with
    | zero =>
      cases h
      simp only [List.set_cons_zero, List.any_cons]
      cases hfx : f x with
      | true => simp [hx hfx]
      | false => simp [Bool.or_comm]
    | succ i =>
      simp only [List.set_cons_succ, List.any_cons, ih h, Bool.or_assoc]

theorem any_set_of_eq (h : xs[i]? = some x) {y : β} {f : β → Bool} (hy : f y = f x) :
    (xs.set i y).any f = xs.any f := by
  rw [any_set h y f fun hx => hy.trans hx, hy]
  cases hx : f x with
  | false => rw [Bool.or_false]
  | true =>
    have hany : xs.any f = true := List.any_eq_true.mpr ⟨x, List.mem_of_getElem? h, hx⟩
    rw [hany, Bool.or_true]

end Set

theorem forall₂_set {β γ : Type} {R : β → γ → Prop} {xs : List β} {ys : List γ}
    (h : List.Forall₂ R xs ys) {x : β} {y : γ} (hxy : R x y) (i : Nat) :
    List.Forall₂ R (xs.set i x) (ys.set i y) := by
  induction h generalizing i with
  | nil => exact .nil
  | cons hab hrest ih =>
    cases i with
    | zero => exact .cons hxy hrest
    | succ i => exact .cons hab (ih i)

theorem forall₂_getElem {β γ : Type} {R : β → γ → Prop} {xs : List β} {ys : List γ}
    (h : List.Forall₂ R xs ys) {i : Nat} {x : β} (hx : xs[i]? = some x) :
    ∃ y, ys[i]? = some y ∧ R x y := by
  induction h generalizing i with
  | nil => cases hx
  | cons hab hrest ih =>
    cases i with
    | zero =>
      cases hx
      exact ⟨_, rfl, hab⟩
    | succ i => exact ih hx

variable {W : Watch L α} {charter : Charter E L α} {w : Workshop E L α}

/-- Whatever is read off the labels and marks of jobs may be read off their entries. -/
theorem map_entries {β : Type} (f : L → List Mark → β) {jobs : List (Job E L α)}
    {es : List (Entry L W.surroundings.State)} (h : List.Forall₂ W.Follows jobs es) :
    es.map (fun e => f e.label e.marks) = jobs.map fun job => f job.label job.marks := by
  induction h with
  | nil => rfl
  | cons hab hrest ih => rw [List.map_cons, List.map_cons, ih, hab.label, hab.marks]

theorem exists_entry {jobs : List (Job E L α)} {es : List (Entry L W.surroundings.State)}
    (h : List.Forall₂ W.Follows jobs es) {job : Job E L α} (hjob : job ∈ jobs) :
    ∃ e ∈ es, W.Follows job e := by
  obtain ⟨i, hi⟩ := List.getElem?_of_mem hjob
  obtain ⟨e, he, hfollows⟩ := forall₂_getElem h hi
  exact ⟨e, List.mem_of_getElem? he, hfollows⟩

theorem Sound.turn (hW : W.Governs charter) (h : W.Sound w) {i : Nat} {job : Job E L α}
    (hjob : w.jobs[i]? = some job) (x : Chance E) : W.Sound (w.turn charter i job x) := by
  obtain ⟨es, hes, hfits⟩ := h
  obtain ⟨e, he, hfollows⟩ := forall₂_getElem hes hjob
  have hset : es.set i e = es := set_of_getElem he
  -- Without the table, the job goes on and its account stays.
  have hgoOn {p : Program (Node.interface E) α}
      (hp : W.surroundings.Ensures (W.post job.label) p e.account) : W.Sound (w.goOn i job p) := by
    have hnew : W.Follows { job with rest := p } e := {
      label := hfollows.label, marks := hfollows.marks, ensures := hp }
    have hforall := forall₂_set hes hnew i
    rw [hset] at hforall
    exact ⟨es, hforall, hfits⟩
  have hensures := hfollows.ensures
  unfold Workshop.turn
  match hrest : job.rest with
  | .done a => exact ⟨es, hes, hfits⟩
  | .ask .now next =>
    rw [hrest] at hensures
    exact hgoOn (hensures x.now (hW.shows x.now))
  | .ask (.pause _) next =>
    rw [hrest] at hensures
    exact hgoOn hensures
  | .ask (.other q) next =>
    rw [hrest] at hensures
    exact hgoOn (hensures (x.answer q))
  | .ask (.store request) next =>
    rw [hrest] at hensures
    obtain ⟨hmay, hnext⟩ := hensures
    have hreach {told : request.Answer} (htold : MayTell charter w.table x.now request told) :
        W.Sound (w.reach i job x.now request told (next told)) := by
      obtain ⟨g, hg, hfits'⟩ := hW.reaches w.table es i e x.now request told hfits he hmay htold
      have hnew : W.Follows ⟨job.label, job.marks ++ [w.mark x.now request told], next told⟩
          ⟨e.label, e.marks ++ [w.mark x.now request told], g⟩ := {
        label := hfollows.label
        marks := congrArg (· ++ _) hfollows.marks
        ensures := hnext told g hg }
      exact ⟨_, forall₂_set hes hnew i, hfits'⟩
    dsimp only
    split
    · exact hreach (.inl rfl)
    · rename_i failure _
      split
      · rename_i hhides
        exact hreach (.inr ⟨failure, rfl, (Bool.and_eq_true _ _ ▸ hhides).2⟩)
      · obtain ⟨g, hg, hfits'⟩ := hW.fails w.table es i e request failure hfits he hmay
        have hnew : W.Follows { job with rest := next (.error failure) }
            { e with account := g } := {
          label := hfollows.label, marks := hfollows.marks, ensures := hnext _ g hg }
        exact ⟨_, forall₂_set hes hnew i, hfits'⟩

theorem Sound.step (hW : W.Governs charter) (h : W.Sound w) (m : Workshop.Move charter) :
    W.Sound (w.step m) := by
  cases m with
  | turn i x =>
    rw [Workshop.step]
    split
    · exact h
    · exact h.turn hW ‹_› x
  | join label p hp =>
    obtain ⟨es, hes, hfits⟩ := h
    obtain ⟨g, hfits', hensures⟩ := hW.joins w.table es label p hfits hp
    have hnew : W.Follows ⟨label, [], p⟩ ⟨label, [], g⟩ := ⟨rfl, rfl, hensures⟩
    exact ⟨_, List.rel_append hes (.cons hnew .nil), hfits'⟩
  | stranger request now hasks =>
    obtain ⟨es, hes, hfits⟩ := h
    exact ⟨es, hes, hW.asks w.table es request now hfits hasks⟩

theorem Sound.foldl (hW : W.Governs charter) (h : W.Sound w)
    (moves : List (Workshop.Move charter)) : W.Sound (moves.foldl Workshop.step w) := by
  induction moves generalizing w with
  | nil => exact h
  | cons m rest ih => exact ih (h.step hW m)

/-- **A watch that governs a workshop holds throughout**, if it does when nobody has joined yet. -/
theorem sound_run (hW : W.Governs charter) {start : Table} (hstart : W.Fits start [])
    (moves : List (Workshop.Move charter)) : W.Sound (Workshop.run start moves) :=
  Sound.foldl hW ⟨[], .nil, hstart⟩ moves

end Watch

end LeasedWork
