import LeasedWork.Fleet.Contention
import LeasedWork.Proofs.Store.Tables

/-! # Accords

Programs that share a table can be reasoned about one at a time when they agree on three things:
what is true of the table at all times, what others may do to it between two requests of one's own,
and which requests are proper.  Such an agreement is an `Accord`.

A program *abides* by an accord from a table on (`Accord.Abides`) when, however the table has grown
meanwhile, each of its requests is proper, whether or not the request then fails; and what is said
of its result holds at the end, whatever comes after.  Programs are checked along their structure
(`Abides.bind`, `Secures.bind`), and nothing has to be said about their order: a proper request
keeps the table good and lets it grow, so it does not disturb anybody else (`Abides.mono`).
-/
namespace LeasedWork

/-- What those who share a table agree on. -/
structure Accord where
  /-- What is true of the table at all times. -/
  Good : Table → Prop
  /-- What may become of a table. -/
  Grows : Table → Table → Prop
  /-- What may be asked of a table. -/
  May : Table → Request → Prop
  refl : ∀ t, Grows t t
  trans : ∀ {t u v}, Grows t u → Grows u v → Grows t v
  /-- A proper request leaves a good table, which the former one may become. -/
  keeps : ∀ {t request} (now : Instant), Good t → May t request →
    Good (t.answer now request).2 ∧ Grows t (t.answer now request).2

namespace Accord

variable {E : Interface} {α β : Type}

/-- **A program abides by an accord**, and what is said of its result holds when it is done. -/
def Abides (A : Accord) (post : α → Table → Prop) :
    Program (Node.interface E) α → Table → Prop
  | .done a, t => ∀ u, A.Good u → A.Grows t u → post a u
  | .ask (.store request) next, t => ∀ u, A.Good u → A.Grows t u → A.May u request ∧
      (∀ now, Abides A post (next (u.answer now request).1) (u.answer now request).2) ∧
      ∀ failure, Abides A post (next (.error failure)) u
  | .ask .now next, t => ∀ now, Abides A post (next now) t
  | .ask (.pause _) next, t => Abides A post (next ()) t
  | .ask (.other _) next, t => ∀ answer, Abides A post (next answer) t

variable {A : Accord} {post : α → Table → Prop} {p : Program (Node.interface E) α} {t u : Table}

/-- What others do meanwhile does not matter. -/
theorem Abides.mono (h : A.Abides post p t) (hgrows : A.Grows t u) : A.Abides post p u := by
  induction p generalizing t u with
  | done a => exact fun v hv huv => h v hv (A.trans hgrows huv)
  | ask question next ih =>
    match question with
    | .store request => exact fun v hv huv => h v hv (A.trans hgrows huv)
    | .now => exact fun now => ih _ (h now) hgrows
    | .pause _ => exact ih _ h hgrows
    | .other _ => exact fun answer => ih _ (h answer) hgrows

/-- What is said of the result may be weakened, also by what is true at all times. -/
theorem Abides.imp {post' : α → Table → Prop} (h : A.Abides post p t)
    (himp : ∀ a u, A.Good u → A.Grows t u → post a u → post' a u) : A.Abides post' p t := by
  induction p generalizing t with
  | done a => exact fun u hu htu => himp a u hu htu (h u hu htu)
  | ask question next ih =>
    match question with
    | .store request =>
      intro u hu htu
      obtain ⟨hmay, hanswer, hfailure⟩ := h u hu htu
      refine ⟨hmay, fun now => ih _ (hanswer now) fun a v hv huv => ?_, fun failure =>
        ih _ (hfailure failure) fun a v hv huv => himp a v hv (A.trans htu huv)⟩
      exact himp a v hv (A.trans htu (A.trans (A.keeps now hu hmay).2 huv))
    | .now => exact fun now => ih _ (h now) himp
    | .pause _ => exact ih _ h himp
    | .other _ => exact fun answer => ih _ (h answer) himp

/-- What is said of the result holds for good. -/
theorem Abides.lasting (h : A.Abides post p t) :
    A.Abides (fun a u => ∀ v, A.Good v → A.Grows u v → post a v) p t := by
  induction p generalizing t with
  | done a => exact fun u _ htu v hv huv => h v hv (A.trans htu huv)
  | ask question next ih =>
    match question with
    | .store request =>
      intro u hu htu
      obtain ⟨hmay, hanswer, hfailure⟩ := h u hu htu
      exact ⟨hmay, fun now => ih _ (hanswer now), fun failure => ih _ (hfailure failure)⟩
    | .now => exact fun now => ih _ (h now)
    | .pause _ => exact ih _ h
    | .other _ => exact fun answer => ih _ (h answer)

/-- Only good tables have to be looked at. -/
theorem abides_of_good (h : ∀ u, A.Good u → A.Grows t u → A.Abides post p u) :
    A.Abides post p t := by
  induction p generalizing t with
  | done a => exact fun u hu htu => h u hu htu u hu (A.refl u)
  | ask question next ih =>
    match question with
    | .store request => exact fun u hu htu => h u hu htu u hu (A.refl u)
    | .now => exact fun now => ih _ fun u hu htu => h u hu htu now
    | .pause _ => exact ih _ h
    | .other _ => exact fun answer => ih _ fun u hu htu => h u hu htu answer

/-- One program after another. -/
theorem Abides.bind {post' : β → Table → Prop} {f : α → Program (Node.interface E) β}
    (h : A.Abides post p t)
    (hf : ∀ a u, A.Good u → A.Grows t u → post a u → A.Abides post' (f a) u) :
    A.Abides post' (p >>= f) t := by
  induction p generalizing t with
  | done a => exact abides_of_good fun u hu htu => hf a u hu htu (h u hu htu)
  | ask question next ih =>
    match question with
    | .store request =>
      intro u hu htu
      obtain ⟨hmay, hanswer, hfailure⟩ := h u hu htu
      refine ⟨hmay, fun now => ih _ (hanswer now) fun a v hv huv => ?_, fun failure =>
        ih _ (hfailure failure) fun a v hv huv => hf a v hv (A.trans htu huv)⟩
      exact hf a v hv (A.trans htu (A.trans (A.keeps now hu hmay).2 huv))
    | .now => exact fun now => ih _ (h now) hf
    | .pause _ => exact ih _ h hf
    | .other _ => exact fun answer => ih _ (h answer) hf

/-! ## Actions -/

/-- An action abides by an accord, and what is said of its value holds if it succeeds. -/
def Secures (A : Accord) (post : α → Table → Prop) (action : Node.Action E α) (t : Table) : Prop :=
  A.Abides (fun x u => ∀ a, x = .ok a → post a u) action.run t

variable {action : Node.Action E α}

theorem Secures.mono (h : A.Secures post action t) (hgrows : A.Grows t u) :
    A.Secures post action u := Abides.mono h hgrows

theorem Secures.lasting (h : A.Secures post action t) :
    A.Secures (fun a u => ∀ v, A.Good v → A.Grows u v → post a v) action t :=
  (Abides.lasting h).imp fun _ _ _ _ hx a ha v hv huv => hx v hv huv a ha

theorem Secures.imp {post' : α → Table → Prop} (h : A.Secures post action t)
    (himp : ∀ a u, A.Good u → A.Grows t u → post a u → post' a u) : A.Secures post' action t :=
  Abides.imp h fun _ u hu htu hx a ha => himp a u hu htu (hx a ha)

theorem secures_pure {a : α} (h : ∀ u, A.Good u → A.Grows t u → post a u) :
    A.Secures (E := E) post (pure a) t := by
  rintro u hu htu _ ⟨⟩
  exact h u hu htu

theorem secures_error (failure : Failure) :
    A.Secures (E := E) post (ExceptT.mk (pure (.error failure))) t := by
  rintro u hu htu _ ⟨⟩

/-- One action after another. -/
theorem Secures.bind {post' : β → Table → Prop} {f : α → Node.Action E β}
    (h : A.Secures post action t)
    (hf : ∀ a u, A.Good u → A.Grows t u → post a u → A.Secures post' (f a) u) :
    A.Secures post' (action >>= f) t := by
  rw [Secures, ExceptT.run_bind]
  refine Abides.bind h fun x u hu htu hx => ?_
  cases x with
  | ok a => exact hf a u hu htu (hx a rfl)
  | error failure => exact secures_error failure

theorem secures_ofExcept {post : β → Table → Prop} {x : Except Failure α}
    {f : α → Node.Action E β} (h : ∀ a, x = .ok a → A.Secures post (f a) t) :
    A.Secures post (Node.ofExcept x >>= f) t := by
  cases x with
  | ok a => exact h a rfl
  | error failure => exact secures_error failure

/-- A look at the clock, and what follows it, whatever the clock shows. -/
theorem secures_now {f : Instant → Node.Action E α} (h : ∀ now, A.Secures post (f now) t) :
    A.Secures post (Node.now >>= f) t := fun now => h now

/-- One request. -/
theorem secures_store {request : Request} {post : request.Reply → Table → Prop}
    (h : ∀ u, A.Good u → A.Grows t u → A.May u request ∧ ∀ now a,
      (u.answer now request).1 = .ok a → ∀ v, A.Good v → A.Grows (u.answer now request).2 v →
        post a v) :
    A.Secures (E := E) post (Node.store request) t := by
  intro u hu htu
  obtain ⟨hmay, hanswer⟩ := h u hu htu
  refine ⟨hmay, fun now v hv huv a ha => hanswer now a ha v hv huv, ?_⟩
  rintro failure v hv huv _ ⟨⟩

/-- A creation is one request, made at whatever time it is then. -/
theorem secures_create {k : PartitionKind} {n : Node} {p : Partition k} {post : Bool → Table → Prop}
    (h : ∀ time u, A.Good u → A.Grows t u →
      A.May u (.create (n.newRecord k.tag p.key k.leased p.progressText time)) ∧ ∀ now b,
        (u.answer now (.create (n.newRecord k.tag p.key k.leased p.progressText time))).1 = .ok b →
          ∀ v, A.Good v →
            A.Grows (u.answer now
              (.create (n.newRecord k.tag p.key k.leased p.progressText time))).2 v → post b v) :
    A.Secures (E := E) post (n.create p) t := by
  exact secures_now fun time => secures_store fun u hu htu => h time u hu htu

/-- A look at shared state. -/
theorem secures_shared {P : Type} {n : Node} {build : Record → Except Failure P} {key : String}
    {post : Option P → Table → Prop}
    (h : ∀ u, A.Good u → A.Grows t u → A.May u (.get ⟨n.source, sharedKind.tag, key⟩) ∧
      ∀ v, A.Good v → A.Grows u v →
        (u.find? ⟨n.source, sharedKind.tag, key⟩ = none → post none v) ∧
        ∀ r x, u.find? ⟨n.source, sharedKind.tag, key⟩ = some r → build r = .ok x →
          post (some x) v) :
    A.Secures (E := E) post (n.shared? build key) t := by
  have hlook : A.Secures (E := E) (fun r v =>
      (r = none → post none v) ∧ ∀ s x, r = some s → build s = .ok x → post (some x) v)
      (Node.store (.get ⟨n.source, sharedKind.tag, key⟩)) t := by
    refine secures_store fun u hu htu => ?_
    obtain ⟨hmay, hpost⟩ := h u hu htu
    refine ⟨hmay, fun now r hanswer v hv huv => ?_⟩
    obtain rfl : u.find? _ = r := Except.ok.inj hanswer
    exact hpost v hv huv
  refine hlook.lasting.bind fun r u _ _ hr => ?_
  cases r with
  | none => exact secures_pure fun v hv huv => (hr v hv huv).1 rfl
  | some s =>
    exact secures_ofExcept fun x hx => secures_pure fun v hv huv => (hr v hv huv).2 s x rfl hx

/-- A claim is one request, and what is made of the record that it gives. -/
theorem secures_claim {k : PartitionKind} {n : Node} {lease : Option Span}
    {post : Option (Partition k) → Table → Prop}
    (h : ∀ u, A.Good u → A.Grows t u →
      A.May u (.claim n.source k.tag n.owner (lease.getD n.lease)) ∧ ∀ now v, A.Good v →
        A.Grows (u.answer now (.claim n.source k.tag n.owner (lease.getD n.lease))).2 v →
          post none v ∧ ∀ r p,
            (u.answer now (.claim n.source k.tag n.owner (lease.getD n.lease))).1 = .ok (some r) →
              Partition.ofRecord k r = .ok p → post (some p) v) :
    A.Secures (E := E) post (n.claim k lease) t := by
  simp only [Node.claim]
  by_cases hleased : (!k.leased) = true
  · rw [if_pos hleased]
    exact secures_error _
  · rw [if_neg hleased]
    have hclaim : A.Secures (E := E) (fun answer v => (answer = none → post none v) ∧
        ∀ r p, answer = some r → Partition.ofRecord k r = .ok p → post (some p) v)
        (n.claimRecord k.tag lease) t := by
      refine secures_store fun u hu htu => ?_
      obtain ⟨hmay, hpost⟩ := h u hu htu
      refine ⟨hmay, fun now answer hanswer v hv huv => ⟨fun _ => (hpost now v hv huv).1, ?_⟩⟩
      rintro r p rfl hp
      exact (hpost now v hv huv).2 r p hanswer hp
    refine hclaim.lasting.bind fun answer u _ _ hpost => ?_
    cases answer with
    | none => exact secures_pure fun v hv huv => (hpost v hv huv).1 rfl
    | some r =>
      exact secures_ofExcept fun p hp =>
        secures_pure fun v hv huv => (hpost v hv huv).2 r p rfl hp

/-- A transition is one update of the record in hand, if there is one. -/
theorem secures_transition {P : Type} [Held P] {p : P} {move : Transition}
    {post : P → Table → Prop}
    (h : ∀ r, Held.record p = some r → ∀ time u, A.Good u → A.Grows t u →
      A.May u (.update (Node.proposal p move time r)) ∧ ∀ now written,
        (u.answer now (.update (Node.proposal p move time r))).1 = .ok written → ∀ v, A.Good v →
          A.Grows (u.answer now (.update (Node.proposal p move time r))).2 v →
            post (Held.adopt written p) v) :
    A.Secures (E := E) post (Node.transition p move) t := by
  simp only [Node.transition]
  by_cases hneeds : (move.needsLease && !Held.leased p) = true
  · rw [if_pos hneeds]
    exact secures_error _
  · rw [if_neg hneeds]
    refine secures_now fun time => ?_
    cases hr : Held.record p with
    | none => exact secures_error _
    | some r =>
      have hstore : A.Secures (E := E) (fun written u => post (Held.adopt written p) u)
          (Node.store (.update (Node.proposal p move time r))) t := secures_store (h r hr time)
      exact hstore.lasting.bind fun written u _ _ hpost => secures_pure hpost

/-- Trying again is as proper as trying once. -/
theorem secures_persist (h : A.Secures post action t) :
    A.Secures post (Contention.persist action) t := by
  suffices hfrom : ∀ left done u, A.Grows t u →
      A.Secures post (Contention.persistFrom action done left) u from
    hfrom Contention.retries 0 t (A.refl t)
  intro left
  induction left with
  | zero => exact fun done u htu => h.mono htu
  | succ left ih =>
    intro done u htu
    refine Abides.bind (h.mono htu).lasting fun x v _ huv hx => ?_
    cases x with
    | ok a => exact secures_pure (hx a rfl)
    | error failure =>
      dsimp only
      split
      · exact ih (done + 1) v (A.trans htu huv)
      · exact secures_error failure

/-- Every request of a program is of a sort, whatever it is told. -/
def Asks (may : Request → Prop) : Program (Node.interface E) α → Prop
  | .done _ => True
  | .ask (.store request) next => may request ∧ ∀ answer, Asks may (next answer)
  | .ask .now next => ∀ now, Asks may (next now)
  | .ask (.pause _) next => Asks may (next ())
  | .ask (.other _) next => ∀ answer, Asks may (next answer)

/-- A program all of whose requests are always proper. -/
theorem abides_of_asks {may : Request → Prop}
    (hmay : ∀ request, may request → ∀ u, A.Good u → A.May u request) (h : Asks may p) :
    A.Abides (fun _ _ => True) p t := by
  induction p generalizing t with
  | done a => exact fun _ _ _ => trivial
  | ask question next ih =>
    match question with
    | .store request =>
      exact fun u hu _ => ⟨hmay request h.1 u hu, fun _ => ih _ (h.2 _), fun _ => ih _ (h.2 _)⟩
    | .now => exact fun now => ih _ (h now)
    | .pause _ => exact ih _ h
    | .other _ => exact fun answer => ih _ (h answer)

end Accord

end LeasedWork
