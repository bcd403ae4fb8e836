import LeasedWork.Proofs.Fleet.Holders
import LeasedWork.Proofs.Fleet.Surroundings
import LeasedWork.Proofs.Partition.Keys
import LeasedWork.Proofs.Store.Sources

/-! # Namespaces are apart

Nodes that work on different sources share a store without noticing each other.  In an `Estate` any
number of nodes do what nodes can do, and take turns at any point: between two questions of one
node's operation any others may have asked theirs.  What a node has in hand and in mind, and what
all its operations have come to, is then the same as if the nodes of another source had done nothing
(`Estate.unnoticed`), from the first one on.  The reason is that a node asks about its own source
only, as long as it is told about nothing else (`Surroundings.ofSource`), and what it is told
depends on this source alone (`Backend.Alike`).

A source goes by its name, or by its name inside a namespace.  Inside namespaces these identifiers
tell both apart, since no namespace has a separator; but a name may have one, and so a source
outside of any namespace may be called what another is called inside of one (`NodeSettings.Echoes`).
That is the only way in which two sources come to one identifier (`NodeSettings.identifier_eq_iff`).
-/
namespace LeasedWork

/-! ## Identifiers -/

namespace NodeSettings

/-- The namespace that is put before a source. The empty one is none. -/
def namespace? (s : NodeSettings) : Option String := s.sourceNamespace.filter (· ≠ "")

/-- Whether a source without a namespace is called what another is called inside of one. -/
def Echoes (s s' : NodeSettings) (source source' : String) : Prop :=
  s.namespace? = none ∧ s'.namespace? ≠ none ∧ source = s'.sourceIdentifier source'

theorem sourceIdentifier_of_none {s : NodeSettings} (h : s.namespace? = none) (source : String) :
    s.sourceIdentifier source = source := by
  unfold sourceIdentifier
  cases hs : s.sourceNamespace with
  | none => rfl
  | some name =>
    have hname : name = "" := by simpa [namespace?, hs] using h
    exact if_pos hname

theorem sourceIdentifier_of_some {s : NodeSettings} {name : String} (h : s.namespace? = some name)
    (source : String) :
    (s.sourceIdentifier source).toList = name.toList ++ keySeparator :: source.toList := by
  obtain ⟨hs, hname⟩ := Option.filter_eq_some_iff.mp h
  unfold sourceIdentifier
  rw [hs]
  dsimp only
  rw [if_neg (of_decide_eq_true hname)]
  simp [Char.toString]

/-- Settings without problems have a namespace without a separator. -/
theorem separator_notMem_namespace {s : NodeSettings} (hs : s.problems = []) {name : String}
    (h : s.namespace? = some name) : keySeparator ∉ name.toList := by
  obtain ⟨hname, -⟩ := Option.filter_eq_some_iff.mp h
  simp only [problems, List.append_eq_nil_iff, hname, Problem.when] at hs
  intro hmem
  have hcontains : name.toList.contains keySeparator = true := List.contains_iff_mem.mpr hmem
  rw [if_pos hcontains] at hs
  exact absurd hs.1.1.2 (List.cons_ne_nil _ _)

/-- **Which sources have one identifier**: one source, under one namespace or none, and sources of
which one echoes the other. -/
theorem identifier_eq_iff {s s' : NodeSettings} (hs : s.problems = []) (hs' : s'.problems = [])
    (source source' : String) : s.sourceIdentifier source = s'.sourceIdentifier source' ↔
      (s.namespace? = s'.namespace? ∧ source = source') ∨ s.Echoes s' source source' ∨
        s'.Echoes s source' source := by
  unfold Echoes
  cases hn : s.namespace? with
  | none =>
    rw [sourceIdentifier_of_none hn]
    cases hn' : s'.namespace? with
    | none => simp [sourceIdentifier_of_none hn']
    | some name' => simp
  | some name =>
    cases hn' : s'.namespace? with
    | none => simp [sourceIdentifier_of_none hn', eq_comm]
    | some name' =>
      simp only [Option.some.injEq, reduceCtorEq, false_and, or_false]
      rw [← String.toList_inj, sourceIdentifier_of_some hn, sourceIdentifier_of_some hn']
      constructor
      · intro h
        -- The first separator ends the namespace.
        have hsplit : Key.splitFirst? (name.toList ++ keySeparator :: source.toList) =
            some (name.toList, source.toList) :=
          Key.splitFirst_append (separator_notMem_namespace hs hn)
        rw [h, Key.splitFirst_append (separator_notMem_namespace hs' hn'), Option.some.injEq,
          Prod.mk.injEq] at hsplit
        exact ⟨(String.toList_inj.mp hsplit.1).symm, (String.toList_inj.mp hsplit.2).symm⟩
      · rintro ⟨rfl, rfl⟩
        rfl

end NodeSettings

/-! ## Programs that ask about one source -/

namespace Surroundings

/-- Whoever asks about one source only is told about this source only. -/
def ofSource (source : String) : Surroundings where
  State := Unit
  May _ request := request.Concerns source
  Tells _ request answer _ := ∀ r ∈ (Exchange.mk request answer).shown, r.source = source

variable {source : String} {S : Type} {n : Node}

/-- All records in hand are of one source. -/
def Own (source : String) (hands : List Hand) : Prop :=
  ∀ h ∈ hands, ∀ r, h.record = some r → r.source = source

theorem own_nil (source : String) : Own source [] := fun _ h => absurd h List.not_mem_nil

theorem Own.append {hands more : List Hand} (h : Own source hands) (h' : Own source more) :
    Own source (hands ++ more) := fun x hx =>
  (List.mem_append.mp hx).elim (h x) (h' x)

/-- A request is about the node's source, and so is all that it shows. -/
theorem yields_concerns (request : Request) (hrequest : request.Concerns source) :
    (ofSource source).Yields (E := Interface.none)
      (fun reply _ => ∀ r ∈ (Exchange.mk request (.ok reply)).shown, r.source = source)
      (fun _ _ => True) (Node.store request) () :=
  yields_store hrequest (fun _ _ htold => htold) fun _ _ _ => trivial

/-- What is made of a record that may have been found. -/
theorem yields_made (f : Factory) {action : Node.Action Interface.none (Option Record)}
    (h : (ofSource source).Yields (fun found _ => ∀ r ∈ found.toList, r.source = source)
      (fun _ _ => True) action ()) :
    (ofSource source).Yields (fun p _ => Own source (p.map (Hand.mk f)).toList) (fun _ _ => True)
      (action >>= Node.build? f.build) () := by
  refine h.bind fun found _ hfound => yields_build (fun _ => own_nil source) ?_
    fun _ _ _ _ => trivial
  rintro r p rfl hbuild x hx u hu
  obtain rfl := List.mem_singleton.mp hx
  obtain rfl := Option.some.inj ((f.record_build r p hbuild).symm.trans hu)
  exact hfound r (Option.mem_toList.mpr rfl)

/-- What is made of all the records that a query gives. -/
theorem yields_allMade (f : Factory) {action : Node.Action Interface.none (List Record)}
    (h : (ofSource source).Yields (fun rs _ => ∀ r ∈ rs, r.source = source) (fun _ _ => True)
      action ()) :
    (ofSource source).Yields (fun ps _ => Own source (ps.map (Hand.mk f))) (fun _ _ => True)
      (action >>= fun rs => Node.ofExcept (rs.mapM f.build)) () := by
  refine h.bind fun rs _ hrs => ?_
  cases hbuild : rs.mapM f.build with
  | error e => exact yields_error trivial
  | ok ps =>
    intro x hx u hu
    obtain ⟨p, hp, rfl⟩ := List.mem_map.mp hx
    obtain ⟨r, hr, hpiece⟩ := Fleet.mem_of_mapM hbuild hp
    obtain rfl := Option.some.inj ((f.record_build r p hpiece).symm.trans hu)
    exact hrs r hr

/-- **What a node gets** is of its source. -/
theorem yields_errand (n : Node) (p : Pickup) :
    (ofSource n.source).Yields (E := Interface.none)
      (fun a _ => Own n.source ((p.errand id).hands a)) (fun _ _ => True)
      ((p.errand id).action n) () := by
  have hclaim (f : Factory) (tag : String) (lease : Option Span) := yields_made f
    (yields_concerns (.claim n.source tag n.owner (lease.getD n.lease))
      fun _ h => (Option.some.inj h).symm)
  cases p with
  | claim k lease =>
    cases hleased : k.leased with
    | false =>
      simp only [Pickup.errand, Errand.action, Node.claim, hleased]
      exact yields_error trivial
    | true =>
      simp only [Pickup.errand, Errand.action, Node.claim, hleased]
      exact hclaim (Factory.ofKind k) k.tag lease
  | claimAny f tag lease =>
    by_cases htag : tag = sharedKind.tag
    · simp only [Pickup.errand, Errand.action, Node.claimAny, if_pos htag]
      exact yields_error trivial
    · simp only [Pickup.errand, Errand.action, Node.claimAny, if_neg htag]
      exact hclaim f tag lease
  | shared f key =>
    exact yields_made f (yields_concerns _ fun _ h => (Option.some.inj h).symm)
  | completedSince f tag since =>
    exact yields_allMade f (yields_concerns _ fun _ h => (Option.some.inj h).symm)
  | all f tag =>
    exact yields_allMade f (yields_concerns _ fun _ h => (Option.some.inj h).symm)

theorem yields_create_own {k : PartitionKind} (n : Node) (p : Partition k) :
    (ofSource n.source).Yields (E := Interface.none) (fun _ _ => True) (fun _ _ => True)
      (n.create p) () := by
  refine yields_create fun time => ⟨?_, fun _ _ _ => trivial, fun _ _ _ => trivial⟩
  intro other hother
  obtain rfl := Option.some.inj hother
  exact congrArg RecordId.source (n.id_newRecord _ _ _ _ _)

theorem yields_createEach_own (n : Node) (kind : String) (progress : Option String)
    (keys : List String) :
    (ofSource n.source).Yields (E := Interface.none) (fun _ _ => True) (fun _ _ => True)
      (n.createEach kind progress keys) () := by
  induction keys with
  | nil => exact yields_pure trivial
  | cons key rest ih =>
    refine yields_now fun time _ => Yields.bind (yields_concerns _ fun other hother => ?_)
      fun _ _ _ => ih
    obtain rfl := Option.some.inj hother
    exact congrArg RecordId.source (n.id_newRecord _ _ _ _ _)

/-- A transition of a partition of a source. -/
theorem yields_transition_own (x : Hand) (hx : ∀ r, x.record = some r → r.source = source)
    (t : Transition) :
    (ofSource source).Yields (E := Interface.none) (fun p _ => Own source [⟨x.factory, p⟩])
      (fun _ _ => True) (Node.transition x.piece t) () := by
  by_cases hneeds : (t.needsLease && !Held.leased x.piece) = true
  · simp only [Node.transition, if_pos hneeds]
    exact yields_error trivial
  · cases hr : Held.record x.piece with
    | none =>
      simp only [Node.transition, if_neg hneeds]
      refine yields_now fun time _ => ?_
      rw [hr]
      exact yields_error trivial
    | some r =>
      have hleased : t.needsLease = true → Held.leased x.piece = true := by
        intro hlease
        rw [hlease, Bool.true_and, Bool.not_eq_true', Bool.not_eq_false] at hneeds
        exact hneeds
      have hsource (time : Instant) : (Node.proposal x.piece t time r).source = source :=
        (congrArg RecordId.source (Node.id_proposal x.piece t time r)).trans (hx r hr)
      refine yields_transition hr hleased fun time => ⟨?_, ?_, fun _ _ _ => trivial⟩
      · intro other hother
        obtain rfl := Option.some.inj hother
        exact hsource time
      · intro written _ htold y hy u hu
        obtain rfl := List.mem_singleton.mp hy
        obtain rfl := Option.some.inj ((x.factory.record_adopt written x.piece).symm.trans hu)
        exact htold written (List.mem_singleton_self _)

end Surroundings

/-! ## Nodes that take turns -/

/-- What has come of an operation. -/
inductive Seen
  | prepared (x : Except Failure Unit)
  | created (x : Except Failure Bool)
  | createdEach (x : Except Failure Unit)
  | got (x : Except Failure (List Hand))
  | moved (x : Except Failure Hand)

/-- What is left of an operation, and what its result makes of the partitions in hand. -/
structure Task where
  Result : Type
  left : Program (Node.interface Interface.none) (Except Failure Result)
  finish : Except Failure Result → List Hand → List Hand × Seen

/-- The operations of a node. -/
inductive Operation
  | prepare
  | create {k : PartitionKind} (p : Partition k)
  | createEach (kind : String) (progress : Option String) (keys : List String)
  | get (p : Pickup)
  /-- Saves, completes, closes or gives up the partition at a place. -/
  | transition (i : Nat) (t : Transition)

/-- Where a node stands: the partitions that it has in hand, what its operations have come to, and
the one that it is in the middle of. -/
structure Tenant where
  hands : List Hand
  seen : List Seen
  task : Option Task

/-- What a node does when it is its turn. -/
inductive Act
  /-- Begins an operation, unless it is in the middle of one. -/
  | begin (op : Operation)
  /-- Asks the next question of an operation, or takes note of what has come of it. -/
  | goOn (now : Instant) (mishap : Option Mishap)
  /-- Works on a partition in hand without asking the store. -/
  | revise (i : Nat) (change : (f : Factory) → f.Piece → f.Piece)
  | copy (i : Nat)

namespace Operation

/-- An operation that is about to begin. There is none without a partition to work on. -/
def task? (n : Node) (hands : List Hand) : Operation → Option Task
  | .prepare => some ⟨_, Node.prepare.run, fun x hands => (hands, .prepared x)⟩
  | .create p => some ⟨_, (n.create p).run, fun x hands => (hands, .created x)⟩
  | .createEach kind progress keys =>
    some ⟨_, (n.createEach kind progress keys).run, fun x hands => (hands, .createdEach x)⟩
  | .get p => some ⟨_, ((p.errand id).action n).run, fun x hands =>
      match x with
      | .ok a => (hands ++ (p.errand id).hands a, .got (.ok ((p.errand id).hands a)))
      | .error e => (hands, .got (.error e))⟩
  | .transition i t => hands[i]?.map fun h => ⟨_, (Node.transition h.piece t).run, fun x hands =>
      match x with
      | .ok p => (hands.set i ⟨h.factory, p⟩, .moved (.ok ⟨h.factory, p⟩))
      | .error e => (hands, .moved (.error e))⟩

end Operation

namespace Backend

/-- What is left of a program after its next question, and the state after it. -/
def ask {α : Type} (b : Backend) (now : Instant) (mishap : Option Mishap) (s : b.State) :
    Program (Node.interface Interface.none) α → Program (Node.interface Interface.none) α × b.State
  | .done a => (.done a, s)
  | .ask (.store request) next =>
    (next (b.answer now mishap request s).1, (b.answer now mishap request s).2)
  | .ask .now next => (next now, s)
  | .ask (.pause _) next => (next (), s)
  | .ask (.other q) _ => q.elim

end Backend

namespace Tenant

variable {b : Backend}

/-- Where a node stands after its turn, and the store after it. -/
def act (n : Node) (x : Tenant) (s : b.State) : Act → Tenant × b.State
  | .begin op =>
    match x.task with
    | some _ => (x, s)
    | none => ({ x with task := op.task? n x.hands }, s)
  | .goOn now mishap =>
    match x.task with
    | none => (x, s)
    | some ⟨_, .done a, finish⟩ =>
      (⟨(finish a x.hands).1, x.seen ++ [(finish a x.hands).2], none⟩, s)
    | some ⟨Result, left, finish⟩ =>
      ({ x with task := some ⟨Result, (b.ask now mishap s left).1, finish⟩ },
        (b.ask now mishap s left).2)
  | .revise i change => ({ x with hands := x.hands.modify i (·.revise change) }, s)
  | .copy i => ({ x with hands := x.hands ++ x.hands[i]?.toList }, s)

end Tenant

/-- Any number of nodes on one store. -/
structure Estate (b : Backend) where
  state : b.State
  tenants : Nat → Tenant

namespace Estate

variable {b : Backend}

/-- A turn of the node at a place. -/
structure Move where
  place : Nat
  act : Act

/-- The estate after a move of the nodes at their places. -/
def step (nodes : Nat → Node) (w : Estate b) (m : Move) : Estate b where
  state := ((w.tenants m.place).act (nodes m.place) w.state m.act).2
  tenants := Function.update w.tenants m.place
    ((w.tenants m.place).act (nodes m.place) w.state m.act).1

/-- The estate after some moves, from an empty store, when no node has done anything before. -/
def run (b : Backend) (nodes : Nat → Node) (moves : List Move) : Estate b :=
  moves.foldl (step nodes) ⟨b.empty, fun _ => ⟨[], [], none⟩⟩

end Estate

/-! ## Nodes keep to their source -/

open Surroundings (Own)

/-- What is left of an operation asks about one source only, and has only this in hand in the
end. -/
def Task.Stays (source : String) (task : Task) : Prop :=
  (Surroundings.ofSource source).Ensures
    (fun a _ => ∀ hands, Own source hands → Own source (task.finish a hands).1) task.left ()

/-- A node has to do with one source only. -/
structure Tenant.Stays (source : String) (x : Tenant) : Prop where
  hands : Own source x.hands
  task : ∀ task, x.task = some task → task.Stays source

variable {b : Backend} {source : String} {s s' : b.State} {n : Node} {x : Tenant}

/-- **Every operation of a node is about the node's source.** -/
theorem Operation.stays {hands : List Hand} (hown : Own n.source hands) {op : Operation}
    {task : Task} (h : op.task? n hands = some task) : task.Stays n.source := by
  cases op with
  | prepare =>
    cases h
    exact Surroundings.Ensures.imp (Surroundings.yields_concerns .prepare nofun)
      fun _ _ _ _ hheld => hheld
  | create p =>
    cases h
    exact Surroundings.Ensures.imp (Surroundings.yields_create_own n p) fun _ _ _ _ hheld => hheld
  | createEach kind progress keys =>
    cases h
    exact Surroundings.Ensures.imp (Surroundings.yields_createEach_own n kind progress keys)
      fun _ _ _ _ hheld => hheld
  | get p =>
    cases h
    refine Surroundings.Ensures.imp (Surroundings.yields_errand n p) fun a _ hgiven held hheld => ?_
    cases a with
    | ok a => exact hheld.append hgiven
    | error e => exact hheld
  | transition i t =>
    obtain ⟨x, hx, rfl⟩ := Option.map_eq_some_iff.mp h
    refine Surroundings.Ensures.imp (Surroundings.yields_transition_own x
      (hown x (List.mem_of_getElem? hx)) t) fun a _ hmoved held hheld => ?_
    cases a with
    | ok p =>
      intro y hy
      rcases List.mem_or_eq_of_mem_set hy with hy | rfl
      · exact hheld y hy
      · exact hmoved _ (List.mem_singleton_self _)
    | error e => exact hheld

namespace Backend

section Answers

variable {request : Request}

theorem source_of_answer {t : Table} (hholds : b.Holds s t) (hrequest : request.Concerns source)
    (now : Instant) (mishap : Option Mishap) :
    ∀ r ∈ (Exchange.mk request (b.answer now mishap request s).1).shown, r.source = source := by
  intro r hr
  cases mishap with
  | none => exact hholds.source_of_shown now hrequest hr
  | some m => cases request <;> cases hr

theorem answer_alike (hs : Alike source s s') (hrequest : request.Concerns source) (now : Instant)
    (mishap : Option Mishap) :
    (b.answer now mishap request s).1 = (b.answer now mishap request s').1 ∧
      Alike source (b.answer now mishap request s).2 (b.answer now mishap request s').2 := by
  have hserve := hs.serve now hrequest
  cases mishap with
  | none => exact hserve
  | some m =>
    refine ⟨rfl, ?_⟩
    simp only [answer]
    split
    · exact hserve.2
    · exact hs

theorem answer_other (hs : Alike source s s') (hrequest : request.source? ≠ some source)
    (now : Instant) (mishap : Option Mishap) :
    Alike source (b.answer now mishap request s).2 s' := by
  have hserve := hs.other now hrequest
  cases mishap with
  | none => exact hserve
  | some m =>
    simp only [answer]
    split
    · exact hserve
    · exact hs

end Answers

variable {α : Type} {p : Program (Node.interface Interface.none) α} {Q : α → Unit → Prop}

/-- One question of a program that stays with a source leaves one that does so. -/
theorem ask_stays {t : Table} (hholds : b.Holds s t)
    (h : (Surroundings.ofSource source).Ensures Q p ()) (now : Instant) (mishap : Option Mishap) :
    (Surroundings.ofSource source).Ensures Q (b.ask now mishap s p).1 () := by
  match p, h with
  | .done a, h => exact h
  | .ask (.store request) next, h => exact h.2 _ () (source_of_answer hholds h.1 now mishap)
  | .ask .now next, h => exact h now trivial
  | .ask (.pause _) next, h => exact h

/-- It is told the same by states that are alike. -/
theorem ask_alike (hs : Alike source s s') (h : (Surroundings.ofSource source).Ensures Q p ())
    (now : Instant) (mishap : Option Mishap) :
    (b.ask now mishap s p).1 = (b.ask now mishap s' p).1 ∧
      Alike source (b.ask now mishap s p).2 (b.ask now mishap s' p).2 := by
  match p, h with
  | .done a, _ => exact ⟨rfl, hs⟩
  | .ask (.store request) next, h =>
    obtain ⟨hanswer, hafter⟩ := answer_alike hs h.1 now mishap
    exact ⟨congrArg next hanswer, hafter⟩
  | .ask .now next, _ => exact ⟨rfl, hs⟩
  | .ask (.pause _) next, _ => exact ⟨rfl, hs⟩

/-- A program that stays with another source makes no difference. -/
theorem ask_other (hs : Alike source s s') {other : String} (hne : other ≠ source)
    (h : (Surroundings.ofSource other).Ensures Q p ()) (now : Instant) (mishap : Option Mishap) :
    Alike source (b.ask now mishap s p).2 s' := by
  match p, h with
  | .done a, _ => exact hs
  | .ask (.store request) next, h =>
    exact answer_other hs (fun hsource => hne (h.1 source hsource).symm) now mishap
  | .ask .now next, _ => exact hs
  | .ask (.pause _) next, _ => exact hs

end Backend

namespace Tenant

/-- A turn leaves a node with its source. -/
theorem Stays.act (hx : x.Stays n.source) {t : Table} (hholds : b.Holds s t) (a : Act) :
    (x.act n s a).1.Stays n.source := by
  cases a with
  | begin op =>
    simp only [Tenant.act]
    split
    · exact hx
    · exact ⟨hx.hands, fun task htask => Operation.stays hx.hands htask⟩
  | goOn now mishap =>
    simp only [Tenant.act]
    split
    · exact hx
    · rename_i htask
      have hdone := hx.task _ htask
      refine ⟨hdone _ hx.hands, fun task h => nomatch h⟩
    · rename_i _ htask
      refine ⟨hx.hands, fun task h => ?_⟩
      cases h
      exact Backend.ask_stays hholds (hx.task _ htask) now mishap
  | revise i change =>
    refine ⟨fun y hy r hr => ?_, hx.task⟩
    obtain ⟨j, hj⟩ := List.mem_iff_getElem?.mp hy
    rw [Tenant.act, List.getElem?_modify] at hj
    obtain ⟨z, hz, rfl⟩ := Option.map_eq_some_iff.mp hj
    refine hx.hands z (List.mem_of_getElem? hz) r ?_
    split at hr
    · rwa [Hand.record_revise] at hr
    · exact hr
  | copy i => 
    refine ⟨hx.hands.append fun y hy => ?_, hx.task⟩
    exact hx.hands y (List.mem_of_getElem? (Option.mem_toList.mp hy))

theorem act_alike (hx : x.Stays n.source) (hs : Backend.Alike n.source s s') (a : Act) :
    (x.act n s a).1 = (x.act n s' a).1 ∧
      Backend.Alike n.source (x.act n s a).2 (x.act n s' a).2 := by
  cases a with
  | begin op =>
    simp only [Tenant.act]
    split
    · exact ⟨rfl, hs⟩
    · exact ⟨rfl, hs⟩
  | goOn now mishap =>
    simp only [Tenant.act]
    split
    · exact ⟨rfl, hs⟩
    · exact ⟨rfl, hs⟩
    · rename_i _ htask
      obtain ⟨hleft, hafter⟩ := Backend.ask_alike hs (hx.task _ htask) now mishap
      refine ⟨?_, hafter⟩
      dsimp only at hleft ⊢
      rw [hleft]
  | revise i change => exact ⟨rfl, hs⟩
  | copy i => exact ⟨rfl, hs⟩

theorem act_other (hx : x.Stays n.source) (hne : n.source ≠ source)
    (hs : Backend.Alike source s s') (a : Act) : Backend.Alike source (x.act n s a).2 s' := by
  cases a with
  | begin op =>
    simp only [Tenant.act]
    split
    · exact hs
    · exact hs
  | goOn now mishap =>
    simp only [Tenant.act]
    split
    · exact hs
    · exact hs
    · rename_i _ htask
      exact Backend.ask_other hs hne (hx.task _ htask) now mishap
  | revise i change => exact hs
  | copy i => exact hs

end Tenant

/-! ## Nobody is noticed by other sources -/

namespace Estate

variable {nodes : Nat → Node} {w w' : Estate b}

theorem tenants_step_self (nodes : Nat → Node) (w : Estate b) (m : Move) :
    (w.step nodes m).tenants m.place =
      ((w.tenants m.place).act (nodes m.place) w.state m.act).1 := Function.update_self ..

theorem tenants_step_of_ne (nodes : Nat → Node) (w : Estate b) {m : Move} {k : Nat}
    (h : k ≠ m.place) : (w.step nodes m).tenants k = w.tenants k := Function.update_of_ne h ..

/-- **What two estates have in common**: what is stored of a source, and where its nodes stand. In
the first one every node keeps to its source. -/
structure Same (nodes : Nat → Node) (source : String) (w w' : Estate b) : Prop where
  alike : Backend.Alike source w.state w'.state
  tenants : ∀ k, (nodes k).source = source → w.tenants k = w'.tenants k
  stays : ∀ k, (w.tenants k).Stays (nodes k).source

theorem same_empty (b : Backend) (nodes : Nat → Node) (source : String) :
    Same nodes source (run b nodes []) (run b nodes []) where
  alike := ⟨Table.empty, Table.empty, b.holds_empty, b.holds_empty, rfl⟩
  tenants _ _ := rfl
  stays _ := ⟨Surroundings.own_nil _, fun _ h => nomatch h⟩

/-- Every node keeps to its source. -/
theorem Same.stays_step (h : Same nodes source w w') (m : Move) (k : Nat) :
    ((w.step nodes m).tenants k).Stays (nodes k).source := by
  obtain ⟨t, -, hholds, -⟩ := h.alike
  by_cases hk : k = m.place
  · subst hk
    rw [tenants_step_self]
    exact (h.stays m.place).act hholds m.act
  · rw [tenants_step_of_ne nodes w hk]
    exact h.stays k

/-- A node of the source has its turn in both. -/
theorem Same.both (h : Same nodes source w w') {m : Move} (hm : (nodes m.place).source = source) :
    Same nodes source (w.step nodes m) (w'.step nodes m) := by
  subst hm
  have htenant := h.tenants m.place rfl
  obtain ⟨hact, hafter⟩ := Tenant.act_alike (h.stays m.place) h.alike m.act
  refine ⟨?_, fun k hk => ?_, h.stays_step m⟩
  · rw [step, step, ← htenant]
    exact hafter
  · by_cases hplace : k = m.place
    · subst hplace
      rw [tenants_step_self, tenants_step_self, ← htenant]
      exact hact
    · rw [tenants_step_of_ne nodes w hplace, tenants_step_of_ne nodes w' hplace]
      exact h.tenants k hk

/-- A node of another source has its turn in the first only. -/
theorem Same.other (h : Same nodes source w w') {m : Move} (hm : (nodes m.place).source ≠ source) :
    Same nodes source (w.step nodes m) w' where
  alike := Tenant.act_other (h.stays m.place) hm h.alike m.act
  tenants k hk := by
    have hplace : k ≠ m.place := by
      rintro rfl
      exact hm hk
    rw [tenants_step_of_ne nodes w hplace]
    exact h.tenants k hk
  stays := h.stays_step m

/-- **A source's nodes stand where its own moves have led**, whatever else has been done. -/
theorem same_run (b : Backend) (nodes : Nat → Node) (source : String) (moves : List Move) :
    Same nodes source (run b nodes moves)
      (run b nodes (moves.filter fun m => (nodes m.place).source == source)) := by
  induction moves using List.reverseRecOn with
  | nil => exact same_empty b nodes source
  | append_singleton moves m ih =>
    rw [List.filter_append, run, List.foldl_append, run, List.foldl_append]
    by_cases hm : (nodes m.place).source = source
    · rw [List.filter_singleton, beq_iff_eq.mpr hm]
      exact ih.both hm
    · rw [List.filter_singleton, beq_eq_false_iff_ne.mpr hm]
      exact ih.other hm

/-- **Nodes of another source go unnoticed.** -/
theorem unnoticed (b : Backend) {i j : Nat} (h : (nodes i).source ≠ (nodes j).source)
    (moves : List Move) :
    (run b nodes moves).tenants i = (run b nodes (moves.filter (·.place ≠ j))).tenants i := by
  have hall := (same_run b nodes (nodes i).source moves).tenants i rfl
  have hwithout := (same_run b nodes (nodes i).source (moves.filter (·.place ≠ j))).tenants i rfl
  have hown : (moves.filter (·.place ≠ j)).filter
        (fun m => (nodes m.place).source == (nodes i).source) =
      moves.filter fun m => (nodes m.place).source == (nodes i).source := by
    rw [List.filter_filter]
    refine List.filter_congr fun m _ => ?_
    by_cases hm : m.place = j
    · simp [hm, h.symm]
    · simp [hm]
  rw [hall, hwithout, hown]

/-- Settings of a node with a namespace. -/
def inside (name owner : String) : NodeSettings :=
  { NodeSettings.default owner with sourceNamespace := some name }

/-- Two nodes, of which the first has a namespace. -/
def neighbours (name source source' : String) : Nat → Node
  | 0 => .ofSettings (inside name "node-a") source
  | _ => .ofSettings (.default "node-b") source'

/-- The second of two nodes creates a stream, and the first then claims streams. -/
def streamClaim : List Move :=
  [⟨1, .begin (.create (newStream "c" ⟨0, none, none, false⟩))⟩, ⟨1, .goOn .epoch none⟩,
    ⟨1, .goOn .epoch none⟩, ⟨1, .goOn .epoch none⟩, ⟨0, .begin (.get (.claim streamKind none))⟩,
    ⟨0, .goOn .epoch none⟩, ⟨0, .goOn .epoch none⟩]

end Estate

end LeasedWork
