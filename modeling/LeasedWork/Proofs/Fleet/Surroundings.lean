import LeasedWork.Fleet.Contention

/-! # Programs in their surroundings

What a program does depends on what it is told.  `Surroundings` say, for each of their states, which
requests are proper and what may be told in reply, and in which state they then are; they also say
which times the clock may show, and the rest of the world answers as it likes.  The state may be
the table itself, or no more than one program's own account of what it has done to it.

A program *ensures* something of its result (`Surroundings.Ensures`) when all its requests are
proper and this holds at the end, whatever it is told; so it holds after every run in these
surroundings (`Ensures.run`).  An action *yields* one thing if it succeeds
and another if it fails (`Surroundings.Yields`).  Both are checked along the structure of a program
(`Ensures.bind`, `Yields.bind`), trying again included (`yields_persist`).
-/
namespace LeasedWork

/-- What surrounds a program. -/
structure Surroundings where
  State : Type
  /-- What may be asked. -/
  May : State → Request → Prop
  /-- What may be told in reply to a request, and the state after it. -/
  Tells : State → (request : Request) → request.Answer → State → Prop
  /-- What the clock may show, at any time. -/
  Shows : Instant → Prop := fun _ => True

namespace Surroundings

variable {S : Surroundings} {E : Interface} {α β : Type}

/-- **A program asks nothing improper, and what is said of its result holds when it is done**,
whatever it is told. -/
def Ensures (S : Surroundings) (post : α → S.State → Prop) :
    Program (Node.interface E) α → S.State → Prop
  | .done a, g => post a g
  | .ask (.store request) next, g => S.May g request ∧
      ∀ answer g', S.Tells g request answer g' → Ensures S post (next answer) g'
  | .ask .now next, g => ∀ now, S.Shows now → Ensures S post (next now) g
  | .ask (.pause _) next, g => Ensures S post (next ()) g
  | .ask (.other _) next, g => ∀ answer, Ensures S post (next answer) g

variable {post : α → S.State → Prop} {p : Program (Node.interface E) α} {g : S.State}

theorem Ensures.imp {post' : α → S.State → Prop} (h : S.Ensures post p g)
    (himp : ∀ a g, post a g → post' a g) : S.Ensures post' p g := by
  induction p generalizing g with
  | done a => exact himp a g h
  | ask question next ih =>
    match question with
    | .store request => exact ⟨h.1, fun answer g' htold => ih _ (h.2 answer g' htold)⟩
    | .now => exact fun now hnow => ih _ (h now hnow)
    | .pause _ => exact ih _ h
    | .other _ => exact fun answer => ih _ (h answer)

/-- One program after another. -/
theorem Ensures.bind {post' : β → S.State → Prop} {f : α → Program (Node.interface E) β}
    (h : S.Ensures post p g) (hf : ∀ a g, post a g → S.Ensures post' (f a) g) :
    S.Ensures post' (p >>= f) g := by
  induction p generalizing g with
  | done a => exact hf a g h
  | ask question next ih =>
    match question with
    | .store request => exact ⟨h.1, fun answer g' htold => ih _ (h.2 answer g' htold)⟩
    | .now => exact fun now hnow => ih _ (h now hnow)
    | .pause _ => exact ih _ h
    | .other _ => exact fun answer => ih _ (h answer)

theorem Ensures.map {post' : β → S.State → Prop} {f : α → β}
    (h : S.Ensures (fun a => post' (f a)) p g) : S.Ensures post' (f <$> p) g := by
  rw [← bind_pure_comp]
  exact h.bind fun _ _ hpost => hpost

/-- **What a program ensures comes true when it is run**, as long as what it is told is among what
its surroundings may tell, in some state of them that goes with the handler's. -/
theorem Ensures.run_along {σ : Type} (h : Handler (Node.interface E) σ) (along : σ → S.State → Prop)
    (hstore : ∀ request s g, along s g → S.May g request → ∃ g',
      S.Tells g request (h.answer (.store request) s).1 g' ∧
        along (h.answer (.store request) s).2 g')
    (hrest : ∀ question s g, (∀ request, question ≠ .store request) → along s g →
      along (h.answer question s).2 g)
    (hshows : ∀ s, S.Shows (h.answer .now s).1) {s : σ} (hs : along s g) (hp : S.Ensures post p g) :
    ∃ g', along (p.run h s).2 g' ∧ post (p.run h s).1 g' := by
  induction p generalizing s g with
  | done a => exact ⟨g, hs, hp⟩
  | ask question next ih =>
    rw [Program.run_ask]
    match question with
    | .store request =>
      obtain ⟨g', htold, hs'⟩ := hstore request s g hs hp.1
      exact ih _ hs' (hp.2 _ _ htold)
    | .now => exact ih _ (hrest .now s g (fun _ h => nomatch h) hs) (hp _ (hshows s))
    | .pause d => exact ih _ (hrest (.pause d) s g (fun _ h => nomatch h) hs) hp
    | .other q => exact ih _ (hrest (.other q) s g (fun _ h => nomatch h) hs) (hp _)

/-- It comes true also when the surroundings know less of the state than there is to it. -/
theorem Ensures.run {σ : Type} (h : Handler (Node.interface E) σ) (view : σ → S.State)
    (hstore : ∀ request s, S.Tells (view s) request (h.answer (.store request) s).1
      (view (h.answer (.store request) s).2))
    (hrest : ∀ question s, (∀ request, question ≠ .store request) →
      view (h.answer question s).2 = view s)
    (hshows : ∀ s, S.Shows (h.answer .now s).1) {s : σ} (hp : S.Ensures post p (view s)) :
    post (p.run h s).1 (view (p.run h s).2) := by
  obtain ⟨g, rfl, hpost⟩ := hp.run_along h (fun s g => view s = g)
    (fun request s _ hs _ => ⟨_, hs ▸ hstore request s, rfl⟩)
    (fun question s _ hquestion hs => (hrest question s hquestion).trans hs) hshows rfl
  exact hpost

/-! ## Actions -/

/-- What an action comes to, by whether it succeeds. -/
def Result (post : α → S.State → Prop) (fail : Failure → S.State → Prop) :
    Except Failure α → S.State → Prop
  | .ok a, g => post a g
  | .error failure, g => fail failure g

/-- An action asks nothing improper; what is said of its value holds if it succeeds, and what is
said of its failures if it fails. -/
def Yields (S : Surroundings) (post : α → S.State → Prop) (fail : Failure → S.State → Prop)
    (action : Node.Action E α) (g : S.State) : Prop :=
  S.Ensures (Result post fail) action.run g

/-- An action asks nothing improper, whatever comes of it. -/
def Allows (S : Surroundings) (action : Node.Action E α) (g : S.State) : Prop :=
  S.Yields (fun _ _ => True) (fun _ _ => True) action g

variable {fail : Failure → S.State → Prop} {action : Node.Action E α}

theorem Yields.imp {post' : α → S.State → Prop} {fail' : Failure → S.State → Prop}
    (h : S.Yields post fail action g) (hpost : ∀ a g, post a g → post' a g)
    (hfail : ∀ failure g, fail failure g → fail' failure g) : S.Yields post' fail' action g := by
  refine Ensures.imp h fun x g hx => ?_
  cases x with
  | ok a => exact hpost a g hx
  | error failure => exact hfail failure g hx

theorem yields_pure {a : α} (h : post a g) : S.Yields (E := E) post fail (pure a) g := h

theorem yields_error {failure : Failure} (h : fail failure g) :
    S.Yields (E := E) post fail (ExceptT.mk (pure (.error failure))) g := h

/-- One action after another. -/
theorem Yields.bind {post' : β → S.State → Prop} {f : α → Node.Action E β}
    (h : S.Yields post fail action g)
    (hf : ∀ a g, post a g → S.Yields post' fail (f a) g) :
    S.Yields post' fail (action >>= f) g := by
  rw [Yields, ExceptT.run_bind]
  refine Ensures.bind h fun x g hx => ?_
  cases x with
  | ok a => exact hf a g hx
  | error failure => exact yields_error hx

theorem allows_pure (a : α) : S.Allows (E := E) (pure a) g := trivial

theorem Allows.bind {f : α → Node.Action E β} (h : S.Allows action g)
    (hf : ∀ a g, S.Allows (f a) g) : S.Allows (action >>= f) g :=
  Yields.bind h fun a g _ => hf a g

theorem yields_ofExcept {post : β → S.State → Prop} {x : Except Failure α} {f : α → Node.Action E β}
    (hok : ∀ a, x = .ok a → S.Yields post fail (f a) g)
    (herror : ∀ failure, x = .error failure → fail failure g) :
    S.Yields post fail (Node.ofExcept x >>= f) g := by
  cases x with
  | ok a => exact hok a rfl
  | error failure => exact yields_error (herror failure rfl)

/-- A look at the clock, and what follows it. -/
theorem yields_now {f : Instant → Node.Action E α}
    (h : ∀ now, S.Shows now → S.Yields post fail (f now) g) :
    S.Yields post fail (Node.now >>= f) g := fun now hnow => h now hnow

/-- One request. -/
theorem yields_store {request : Request} {post : request.Reply → S.State → Prop}
    (hmay : S.May g request) (hok : ∀ a g', S.Tells g request (.ok a) g' → post a g')
    (herror : ∀ failure g', S.Tells g request (.error failure) g' → fail failure g') :
    S.Yields (E := E) post fail (Node.store request) g := by
  refine ⟨hmay, fun answer g' htold => ?_⟩
  cases answer with
  | ok a => exact hok a g' htold
  | error failure => exact herror failure g' htold

/-- A creation is one request, made at whatever time it is then. -/
theorem yields_create {k : PartitionKind} {n : Node} {p : Partition k}
    {post : Bool → S.State → Prop}
    (h : ∀ time, S.May g (.create (n.newRecord k.tag p.key k.leased p.progressText time)) ∧
      (∀ isNew g', S.Tells g (.create (n.newRecord k.tag p.key k.leased p.progressText time))
        (.ok isNew) g' → post isNew g') ∧
      ∀ failure g', S.Tells g (.create (n.newRecord k.tag p.key k.leased p.progressText time))
        (.error failure) g' → fail failure g') :
    S.Yields (E := E) post fail (n.create p) g :=
  yields_now fun time _ => yields_store (h time).1 (h time).2.1 (h time).2.2

/-- What is made of a record that has been found. -/
theorem yields_build {P : Type} {build : Record → Except Failure P} {found : Option Record}
    {post : Option P → S.State → Prop} (hnone : found = none → post none g)
    (hok : ∀ r p, found = some r → build r = .ok p → post (some p) g)
    (herror : ∀ r failure, found = some r → build r = .error failure → fail failure g) :
    S.Yields (E := E) post fail (Node.build? build found) g := by
  cases found with
  | none => exact hnone rfl
  | some r =>
    have hbuild : S.Yields (E := E) (fun p g => post (some p) g) fail
        (Node.ofExcept (build r) >>= pure) g :=
      yields_ofExcept (fun p hp => hok r p rfl hp) fun failure hp => herror r failure rfl hp
    rw [bind_pure] at hbuild
    exact hbuild.bind (f := fun p => pure (some p)) fun p g hp => hp

/-- A look at shared state. -/
theorem yields_shared {P : Type} {n : Node} {build : Record → Except Failure P} {key : String}
    {post : Option P → S.State → Prop} (hmay : S.May g (.get ⟨n.source, sharedKind.tag, key⟩))
    (hfound : ∀ found g', S.Tells g (.get ⟨n.source, sharedKind.tag, key⟩) (.ok found) g' →
      S.Yields (E := E) post fail (Node.build? build found) g')
    (herror : ∀ failure g', S.Tells g (.get ⟨n.source, sharedKind.tag, key⟩) (.error failure) g' →
      fail failure g') : S.Yields (E := E) post fail (n.shared? build key) g := by
  have hlook : S.Yields (E := E) (fun found g' =>
      S.Yields (E := E) post fail (Node.build? build found) g') fail
      (Node.store (.get ⟨n.source, sharedKind.tag, key⟩)) g :=
    yields_store hmay hfound herror
  exact hlook.bind fun found g' hbuild => hbuild

theorem allows_shared {P : Type} {n : Node} {build : Record → Except Failure P} {key : String}
    (hmay : S.May g (.get ⟨n.source, sharedKind.tag, key⟩)) :
    S.Allows (E := E) (n.shared? build key) g :=
  yields_shared hmay (fun _ _ _ => yields_build (fun _ => trivial) (fun _ _ _ _ => trivial)
    fun _ _ _ _ => trivial) fun _ _ _ => trivial

/-- A claim is one request, and what is made of the record that it gives. -/
theorem yields_claim {k : PartitionKind} {n : Node} {lease : Option Span}
    {post : Option (Partition k) → S.State → Prop} (hleased : k.leased = true)
    (hmay : S.May g (.claim n.source k.tag n.owner (lease.getD n.lease)))
    (hfound : ∀ found g',
      S.Tells g (.claim n.source k.tag n.owner (lease.getD n.lease)) (.ok found) g' →
        S.Yields (E := E) post fail (Node.build? (Partition.ofRecord k) found) g')
    (herror : ∀ failure g',
      S.Tells g (.claim n.source k.tag n.owner (lease.getD n.lease)) (.error failure) g' →
        fail failure g') : S.Yields (E := E) post fail (n.claim k lease) g := by
  have hneeds : ¬ (!k.leased) = true := by
    rw [hleased]
    exact Bool.false_ne_true
  simp only [Node.claim]
  rw [if_neg hneeds]
  have hclaim : S.Yields (E := E) (fun found g' =>
      S.Yields (E := E) post fail (Node.build? (Partition.ofRecord k) found) g') fail
      (n.claimRecord k.tag lease) g := yields_store hmay hfound herror
  exact hclaim.bind fun found g' hbuild => hbuild

/-- A transition is one update of the record in hand. -/
theorem yields_transition {P : Type} [Held P] {p : P} {move : Transition} {r : Record}
    {post : P → S.State → Prop} (hr : Held.record p = some r)
    (hleased : move.needsLease = true → Held.leased p = true)
    (h : ∀ time, S.May g (.update (Node.proposal p move time r)) ∧
      (∀ written g', S.Tells g (.update (Node.proposal p move time r)) (.ok written) g' →
        post (Held.adopt written p) g') ∧
      ∀ failure g', S.Tells g (.update (Node.proposal p move time r)) (.error failure) g' →
        fail failure g') :
    S.Yields (E := E) post fail (Node.transition p move) g := by
  have hneeds : ¬ (move.needsLease && !Held.leased p) = true := by
    intro hneeds
    rw [Bool.and_eq_true, Bool.not_eq_true'] at hneeds
    rw [hleased hneeds.1] at hneeds
    cases hneeds.2
  simp only [Node.transition]
  rw [if_neg hneeds]
  refine yields_now fun time _ => ?_
  obtain ⟨hmay, hok, herror⟩ := h time
  rw [hr]
  have hstore : S.Yields (E := E) (fun written g' => post (Held.adopt written p) g') fail
      (Node.store (.update (Node.proposal p move time r))) g := yields_store hmay hok herror
  exact hstore.bind fun written g' hpost => yields_pure hpost

/-- **Trying again.**  What is true before each attempt must be so again after one whose write was
lost, since the next attempt starts there; and the last attempt may be one of these, too. -/
theorem yields_persist {motive : S.State → Prop}
    (h : ∀ g, motive g → S.Yields post
      (fun failure g' => fail failure g' ∧ (failure.isLostWrite = true → motive g')) action g)
    (hg : motive g) : S.Yields post fail (Contention.persist action) g := by
  -- By induction on the attempts that are left, from whatever state the last one has left behind.
  suffices hfrom : ∀ left done g, motive g →
      S.Yields post fail (Contention.persistFrom action done left) g from
    hfrom Contention.retries 0 g hg
  intro left
  induction left with
  | zero => exact fun done g hg => (h g hg).imp (fun _ _ hpost => hpost) fun _ _ hfail => hfail.1
  | succ left ih =>
    intro done g hg
    refine Ensures.bind (h g hg) fun x g' hx => ?_
    cases x with
    | ok a => exact hx
    | error failure =>
      dsimp only
      split
      · exact ih (done + 1) g' (hx.2 ‹_›)
      · exact hx.1

end Surroundings

end LeasedWork
