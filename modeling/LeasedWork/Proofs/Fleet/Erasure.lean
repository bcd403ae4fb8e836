import LeasedWork.Proofs.Fleet.Shapes
import LeasedWork.Proofs.Fleet.Sites
import LeasedWork.Proofs.Fleet.Transitions

/-! # Partitions with and without their kinds

A node can work on the partitions of a built-in kind in two ways: as partitions of that kind, or by
the kind's tag, when it gets partitions of which it only knows that they are of some built-in kind.
Whether shared state is concerned is decided differently: the kind says so, or the tag is compared,
or the partition in hand is asked.

The two ways are the same.  A `Bench` is a site, and beside it how everything that was done there
has ended.  It is used with kinds (`Style.typed`) or without (`Style.erased`), and forgetting the
kinds of what is in hand commutes with everything that may be done (`Bench.erased_step`).  So from
any content of the store, also such that no node has written, both ways have the same exchanges with
the store, the same partitions in hand and the same failures (`Bench.erased_run`).
-/
namespace LeasedWork

/-! ## What a claim gives -/

namespace ObjectStore

variable {now : Instant} {b b' : Bucket} {root : ObjectPath} {source kind owner : String}
  {lease : Span} {vs all : List Versioned}

/-- Whatever is in a bucket, a read of some paths gives records of the source and kind only. -/
theorem kind_of_readEach {paths : List ObjectPath}
    (h : Program.run (Bucket.handler now) (readEach source kind paths).run b = (.ok vs, b')) :
    ∀ v ∈ vs, v.record.kind = kind := by
  induction paths generalizing vs b with
  | nil =>
    cases h
    exact List.forall_mem_nil _
  | cons path rest ih =>
    rw [readEach, Program.run_exceptT_bind, run_readAt_any] at h
    by_cases hgarbled : b.isGarbled path = true
    · rw [if_pos hgarbled] at h
      cases h
    · rw [if_neg hgarbled] at h
      dsimp only at h
      rw [Program.run_exceptT_bind] at h
      rcases hrest : Program.run (Bucket.handler now) (readEach source kind rest).run b with
        ⟨e | others, s⟩ <;> rw [hrest] at h
      · cases h
      · dsimp only at h
        cases hv : b.versioned? path with
        | none =>
          rw [hv] at h
          cases h
          exact ih hrest
        | some v =>
          rw [hv] at h
          dsimp only at h
          split at h <;> cases h
          · rename_i hof
            exact List.forall_mem_cons.mpr ⟨hof.2, ih hrest⟩
          · exact ih hrest

theorem kind_of_readAll
    (h : Program.run (Bucket.handler now) (readAll root source kind).run b = (.ok vs, b')) :
    ∀ v ∈ vs, v.record.kind = kind := by
  rw [readAll, run_ask] at h
  simp only [Bucket.answer] at h
  rw [Program.run_exceptT_bind] at h
  rcases hread : Program.run (Bucket.handler now) (readEach source kind
    ((b.sorted.map (·.path)).filter (ObjectPath.ofKind root source kind).isAbove)).run b with
      ⟨e | found, s⟩ <;> rw [hread] at h <;> cases h
  exact fun v hv => kind_of_readEach hread v (List.mem_mergeSort.mp hv)

/-- A claim gives one of the candidates. -/
theorem exists_of_claimFirst {rs : List Record} {r : Record}
    (h : (Program.run (Bucket.handler now) (claimFirst root owner now lease all rs).run b).1 =
      .ok (some r)) : ∃ x ∈ rs, r = x.claimed owner now lease := by
  induction rs generalizing b with
  | nil => cases h
  | cons x rest ih =>
    have hlater {s : Bucket} (h : (Program.run (Bucket.handler now)
        (claimFirst root owner now lease all rest).run s).1 = .ok (some r)) :
        ∃ y ∈ x :: rest, r = y.claimed owner now lease :=
      (ih h).imp fun y ⟨hy, hr⟩ => ⟨List.mem_cons_of_mem _ hy, hr⟩
    rw [claimFirst] at h
    split at h
    · exact hlater h
    · rw [Program.run_exceptT_bind] at h
      generalize Program.run (Bucket.handler now) (replaceIfUnchanged root _ _).run b = result at h
      obtain ⟨e | replaced, s⟩ := result
      · cases h
      · cases replaced with
        | false => exact hlater h
        | true =>
          cases h
          exact ⟨x, List.mem_cons_self, rfl⟩

end ObjectStore

/-- **A claim gives a record of its kind**, whatever is stored. -/
theorem Backend.kind_of_claim {b : Backend} {s : b.State} {now : Instant}
    {source kind owner : String} {lease : Span} {r : Record}
    (h : (b.serve ⟨now, .claim source kind owner lease⟩ s).1 = .ok (some r)) : r.kind = kind := by
  cases b with
  | table =>
    obtain ⟨x, -, -, hkind, rfl⟩ := Table.exists_of_answer_claim h
    exact hkind
  | objects root =>
    have hrun : (Program.run (Bucket.handler now)
        (ObjectStore.job root (.claim source kind owner lease)).run s).1 = .ok (some r) := h
    rw [ObjectStore.job, Program.run_exceptT_bind] at hrun
    rcases hread : Program.run (Bucket.handler now) (ObjectStore.readAll root source kind).run s
      with ⟨e | all, s'⟩ <;> rw [hread] at hrun
    · cases hrun
    · dsimp only at hrun
      rw [ObjectStore.run_now] at hrun
      obtain ⟨x, hx, rfl⟩ := ObjectStore.exists_of_claimFirst hrun
      obtain ⟨v, hv, rfl⟩ := List.mem_map.mp (mem_candidates.mp hx).1
      exact ObjectStore.kind_of_readAll hread v hv

/-! ## One action -/

theorem BuiltIn.ofTag?_tag (k : BuiltIn) : BuiltIn.ofTag? k.kind.tag = some k := by
  cases k <;> decide

/-- Of a record of a built-in kind its tag makes the partition that the kind makes. -/
theorem AnyPartition.ofRecord_of_kind {k : BuiltIn} {r : Record} (h : r.kind = k.kind.tag) :
    AnyPartition.ofRecord r = (Partition.ofRecord k.kind r).map (AnyPartition.mk k) := by
  rw [AnyPartition.ofRecord, h, BuiltIn.ofTag?_tag]

namespace Node

/-- **A creation by the tag** is that of the kind. -/
theorem createEach_one {E : Interface} (n : Node) {k : BuiltIn} (p : Partition k.kind) :
    (n.createEach k.kind.tag p.progressText [p.key] : Action E Unit) =
      (do let _ ← n.create p; return ()) := by
  cases k <;> rfl

/-- **A transition of a partition without its kind** is that of the partition, whoever answers. -/
theorem run_transition_mk {E : Interface} {σ : Type} (h : Handler (interface E) σ) {k : BuiltIn}
    (p : Partition k.kind) (t : Transition) (s : σ) :
    Program.run h (transition (AnyPartition.mk k p) t).run s =
      (Program.run h (transition p t).run s).map (Except.map (AnyPartition.mk k)) id := by
  have hleased : Held.leased (AnyPartition.mk k p) = Held.leased p := rfl
  have hrecord : Held.record (AnyPartition.mk k p) = Held.record p := rfl
  rw [run_transition, run_transition, hleased, hrecord]
  split
  · rfl
  · cases Held.record p with
    | none => rfl
    | some r =>
      have hsame (time : Instant) :
          proposal (AnyPartition.mk k p) t time r = proposal p t time r := rfl
      dsimp only
      rw [hsame]
      rcases h.answer (.store (.update (proposal p t (h.answer .now s).1 r)))
        (h.answer .now s).2 with ⟨e | written, s'⟩ <;> rfl

end Node

namespace Errand

variable {H H' : Type}

/-- The same errand, with something else in hand then. -/
def map (f : H → H') : Errand H → Errand H'
  | .claim k lease hold => .claim k lease (f ∘ hold)
  | .claimAny build tag lease hold => .claimAny build tag lease (f ∘ hold)
  | .shared build key hold => .shared build key (f ∘ hold)
  | .completedSince build tag since hold => .completedSince build tag since (f ∘ hold)
  | .all build tag hold => .all build tag (f ∘ hold)

theorem request_map (f : H → H') (n : Node) (x : Errand H) :
    (x.map f).request n = x.request n := by
  cases x <;> rfl

theorem make_map (f : H → H') (x : Errand H) (r : Record) :
    (x.map f).make r = (x.make r).map f := by
  have hmap {P : Type} (y : Except Failure P) (hold : P → H) :
      y.map (f ∘ hold) = (y.map hold).map f := by
    cases y <;> rfl
  cases x with
  | claim k lease hold => exact hmap (Partition.ofRecord k r) hold
  | claimAny build tag lease hold => exact hmap (build r) hold
  | shared build key hold => exact hmap (build r) hold
  | completedSince build tag since hold => exact hmap (build r) hold
  | all build tag hold => exact hmap (build r) hold

end Errand

namespace Backend.Session

variable {b : Backend} {H H' : Type}

/-- What comes of an errand if the same request is made, and of what it shows the same. -/
theorem fetch_map (s : b.Session) (now : Instant) (mishap : Option Mishap) (n : Node)
    {x : Errand H} {x' : Errand H'} (f : H → H') (hrequest : x'.request n = x.request n)
    (hmake : ∀ request reply, x.request n = .ok request →
      (b.serve ⟨now, request⟩ s.state).1 = .ok reply →
      ∀ r ∈ (Exchange.mk request (.ok reply)).shown, x'.make r = (x.make r).map f) :
    s.fetch now mishap n x' =
      (s.fetch now mishap n x).map (Except.map (List.map f)) id := by
  rw [fetch_eq, fetch_eq, hrequest]
  cases hx : x.request n with
  | error e => rfl
  | ok request =>
    dsimp only
    rcases hanswer : s.answer now mishap request with ⟨e | reply, s'⟩
    · rfl
    · exact congrArg (·, s') (Fleet.mapM_map f (hmake request reply hx (answer_ok hanswer).1))

/-- **A claim by the tag** is that of the kind, as the store gives records of this kind only. -/
theorem fetch_claimAny (s : b.Session) (now : Instant) (mishap : Option Mishap) (n : Node)
    (k : BuiltIn) (lease : Option Span) (hold : Partition k.kind → H) (f : H → AnyPartition)
    (hf : ∀ p, f (hold p) = ⟨k, p⟩) :
    s.fetch now mishap n (.claimAny AnyPartition.ofRecord k.kind.tag lease id) =
      (s.fetch now mishap n (.claim k.kind lease hold)).map (Except.map (List.map f)) id := by
  refine s.fetch_map now mishap n f ?_ fun request reply hrequest hserve r hr => ?_
  · simp only [Errand.request]
    cases hleased : k.kind.leased with
    | false => exact if_pos (k.leased_kind.mp hleased)
    | true => exact if_neg fun h => Bool.noConfusion (hleased.symm.trans (k.leased_kind.mpr h))
  · have hkind : r.kind = k.kind.tag := by
      simp only [Errand.request] at hrequest
      split at hrequest <;> cases hrequest
      exact kind_of_claim (hserve.trans (congrArg Except.ok (Option.mem_toList.mp hr)))
    simp only [Errand.make, AnyPartition.ofRecord_of_kind hkind]
    cases Partition.ofRecord k.kind r with
    | error e => rfl
    | ok p => exact congrArg Except.ok (hf p).symm

end Backend.Session

/-! ## A whole run -/

/-- A partition of a built-in kind in hand: as one of its kind, or as one of some built-in kind. -/
inductive KnownPartition
  | ofKind {k : BuiltIn} (p : Partition k.kind)
  | any (p : AnyPartition)

namespace KnownPartition

/-- The partition without its kind. -/
def erase : KnownPartition → AnyPartition
  | .ofKind p => ⟨_, p⟩
  | .any p => p

/-- The record behind the partition. -/
def record : KnownPartition → Option Record
  | .ofKind p => p.record
  | .any p => Held.record p

/-- The partition's progress as a record keeps it. -/
def progressText : KnownPartition → Option String
  | .ofKind p => p.progressText
  | .any p => Held.progressText p

instance : Grip KnownPartition where
  hand
    | .ofKind (k := k) p => ⟨.ofKind k.kind, p⟩
    | .any p => ⟨.builtIn, p⟩
  moved
    | _, .ofKind _, p => .ofKind p
    | _, .any _, p => .any p

end KnownPartition

/-- How a node's operations are used, and what it then has in hand. -/
structure Style (H : Type) where
  /-- A partition that nobody has created. -/
  hold {k : BuiltIn} (p : Partition k.kind) : H
  create (n : Node) {k : BuiltIn} (p : Partition k.kind) : Node.Action Interface.none Unit
  claim (k : BuiltIn) (lease : Option Span) : Errand H
  /-- Work on a partition in hand, which may depend on its kind. -/
  revise (change : (k : BuiltIn) → Partition k.kind → Partition k.kind) (h : H) : H
  /-- A partition that was looked up by its tag. -/
  ofAny (p : AnyPartition) : H

namespace Style

/-- Operations by kind. -/
def typed : Style KnownPartition where
  hold p := .ofKind p
  create n _ p := do let _ ← n.create p
  claim k lease := .claim k.kind lease .ofKind
  revise change
    | .ofKind (k := k) p => .ofKind (change k p)
    | .any p => .any ⟨p.builtIn, change p.builtIn p.partition⟩
  ofAny := .any

/-- Operations by tag. -/
def erased : Style AnyPartition where
  hold p := ⟨_, p⟩
  create n k p := n.createEach k.kind.tag p.progressText [p.key]
  claim k lease := .claimAny AnyPartition.ofRecord k.kind.tag lease id
  revise change p := ⟨p.builtIn, change p.builtIn p.partition⟩
  ofAny p := p

end Style

/-- How something has ended: with a failure or without. -/
def ending {α : Type*} : Except Failure α → Option Failure
  | .ok _ => none
  | .error e => some e

/-- A site, and how all that was done there has ended. -/
structure Bench (b : Backend) (H : Type) where
  site : Site b H
  endings : List (Option Failure)

namespace Bench

variable {b : Backend} {H : Type}

/-- One thing to do. -/
inductive Deal
  | hold {k : BuiltIn} (p : Partition k.kind)
  | create (n : Node) {k : BuiltIn} (p : Partition k.kind) (mishap : Option Mishap)
  | claim (n : Node) (k : BuiltIn) (lease : Option Span) (mishap : Option Mishap)
  | transition (i : Nat) (t : Transition) (mishap : Option Mishap)
  | revise (i : Nat) (change : (k : BuiltIn) → Partition k.kind → Partition k.kind)
  | copy (i : Nat)
  | shared (n : Node) (key : String) (mishap : Option Mishap)
  | completedSince (n : Node) (tag : String) (since : Instant) (mishap : Option Mishap)
  | all (n : Node) (tag : String) (mishap : Option Mishap)
  /-- Somebody else asks the store for anything. -/
  | other (request : Request) (mishap : Option Mishap)
  | setClock (t : Instant)

/-- What is done, in a style. -/
def Deal.deed (style : Style H) : Deal → Site.Deed H
  | .hold p => .hold (style.hold p)
  | .create n p mishap => .ask (style.create n p) mishap
  | .claim n k lease mishap => .fetch n (style.claim k lease) mishap
  | .transition i t mishap => .transition i t mishap
  | .revise i change => .revise i (style.revise change)
  | .copy i => .copy i
  | .shared n key mishap =>
    .fetch n (.shared (Partition.ofRecord BuiltIn.shared.kind) key style.hold) mishap
  | .completedSince n tag since mishap =>
    .fetch n (.completedSince AnyPartition.ofRecord tag since style.ofAny) mishap
  | .all n tag mishap => .fetch n (.all AnyPartition.ofRecord tag style.ofAny) mishap
  | .other request mishap => .ask (Node.store request) mishap
  | .setClock t => .setClock t

/-- How a deed ends, if it asks for anything. -/
def endingOf [Grip H] (w : Site b H) : Site.Deed H → Option (Option Failure)
  | .ask action mishap => some (ending (w.perform mishap action).1)
  | .fetch n x mishap => some (ending (w.fetch mishap n x).1)
  | .transition i t mishap => w.hands[i]?.map fun h => ending (w.move mishap h t).1
  | .hold _ | .revise _ _ | .copy _ | .setClock _ => none

/-- The bench after a deed. -/
def after [Grip H] (w : Bench b H) (d : Site.Deed H) : Bench b H :=
  ⟨w.site.step d, w.endings ++ (endingOf w.site d).toList⟩

/-- The bench after one more thing is done. -/
def step [Grip H] (style : Style H) (w : Bench b H) (d : Deal) : Bench b H := w.after (d.deed style)

/-- The bench after some things, one after the other. -/
def run [Grip H] (style : Style H) (w : Bench b H) (deals : List Deal) : Bench b H :=
  deals.foldl (step style) w

/-- The kinds of what is in hand are forgotten. -/
def erase (w : Bench b KnownPartition) : Bench b AnyPartition :=
  ⟨⟨w.site.session, w.site.now, w.site.hands.map KnownPartition.erase⟩, w.endings⟩

theorem erase_ask (w : Bench b KnownPartition) {α : Type} (action : Node.Action Interface.none α)
    (mishap : Option Mishap) :
    (w.after (.ask action mishap)).erase = w.erase.after (.ask action mishap) := rfl

/-- An errand of which the same is had in hand, but for the kinds. -/
theorem erase_fetch (w : Bench b KnownPartition) (n : Node) (mishap : Option Mishap)
    {x : Errand KnownPartition} {x' : Errand AnyPartition}
    (h : w.site.session.fetch w.site.now mishap n x' = (w.site.session.fetch w.site.now mishap n
      x).map (Except.map (List.map KnownPartition.erase)) id) :
    (w.after (.fetch n x mishap)).erase = w.erase.after (.fetch n x' mishap) := by
  have hfetch : w.erase.site.fetch mishap n x' =
    (w.site.fetch mishap n x).map (Except.map (List.map KnownPartition.erase)) id := h
  simp only [after, endingOf, Site.step, hfetch]
  rcases w.site.fetch mishap n x with ⟨e | hs, s⟩
  · rfl
  · simp [erase, ending, Except.map]

/-- The same errand is the same with kinds and without. -/
theorem erase_same (w : Bench b KnownPartition) (n : Node) (mishap : Option Mishap)
    (x : Errand KnownPartition) : (w.after (.fetch n x mishap)).erase =
      w.erase.after (.fetch n (x.map KnownPartition.erase) mishap) :=
  w.erase_fetch n mishap (w.site.session.fetch_map w.site.now mishap n KnownPartition.erase
    (x.request_map _ n) fun _ _ _ _ r _ => x.make_map _ r)

/-- **A transition of what is in hand** is that of the partition without its kind. -/
theorem move_erase (w : Bench b KnownPartition) (mishap : Option Mishap) (h : KnownPartition)
    (t : Transition) : w.erase.site.move mishap h.erase t =
      (w.site.move mishap h t).map (Except.map KnownPartition.erase) id := by
  cases h with
  | ofKind p =>
    have hrun := Node.run_transition_mk (Backend.Session.handler w.site.now mishap) p t
      w.site.session
    change ((Program.run (Backend.Session.handler w.site.now mishap)
      (Node.transition (AnyPartition.mk _ p) t).run w.site.session).map (Except.map id) id) =
      ((Program.run (Backend.Session.handler w.site.now mishap) (Node.transition p t).run
        w.site.session).map (Except.map .ofKind) id).map (Except.map KnownPartition.erase) id
    -- Without its kind the partition asks the same of the store, and has the same put back.
    rw [hrun]
    rcases Program.run (Backend.Session.handler w.site.now mishap) (Node.transition p t).run
      w.site.session with ⟨e | p, s⟩ <;> rfl
  | any p =>
    change (w.site.perform mishap (Node.transition p t)).map (Except.map id) id =
      ((w.site.perform mishap (Node.transition p t)).map (Except.map .any) id).map
        (Except.map KnownPartition.erase) id
    rcases w.site.perform mishap (Node.transition p t) with ⟨e | p, s⟩ <;> rfl

theorem erase_transition (w : Bench b KnownPartition) (i : Nat) (t : Transition)
    (mishap : Option Mishap) :
    (w.after (.transition i t mishap)).erase = w.erase.after (.transition i t mishap) := by
  have hhands : w.erase.site.hands[i]? = w.site.hands[i]?.map KnownPartition.erase :=
    List.getElem?_map
  cases hi : w.site.hands[i]? with
  | none =>
    simp only [after, endingOf, Site.step, hhands, hi, Option.map_none]
    rfl
  | some h =>
    simp only [after, endingOf, Site.step, hhands, hi, Option.map_some, w.move_erase mishap h t]
    rcases w.site.move mishap h t with ⟨e | h', s⟩
    · rfl
    · simp [erase, ending, Except.map, List.map_set]

/-- **One thing** is the same by kind and by tag. -/
theorem erased_step (w : Bench b KnownPartition) (d : Deal) :
    (w.step .typed d).erase = w.erase.step .erased d := by
  cases d with
  | hold p => simp [step, after, endingOf, Deal.deed, Site.step, erase, Style.typed, Style.erased,
      KnownPartition.erase]
  | create n p mishap =>
    have hcreate : Style.erased.create n p = Style.typed.create n p := Node.createEach_one n p
    rw [step, step, Deal.deed, Deal.deed, hcreate]
    exact w.erase_ask _ mishap
  | claim n k lease mishap =>
    exact w.erase_fetch n mishap (w.site.session.fetch_claimAny w.site.now mishap n k lease
      KnownPartition.ofKind KnownPartition.erase fun _ => rfl)
  | transition i t mishap => exact w.erase_transition i t mishap
  | revise i change =>
    have hrevise (h : KnownPartition) : (Style.typed.revise change h).erase =
        Style.erased.revise change h.erase := by cases h <;> rfl
    -- Only what is in hand changes, and that at one place.
    refine congrArg (fun hands => Bench.mk ⟨w.site.session, w.site.now, hands⟩ (w.endings ++ []))
      (List.ext_getElem? fun j => ?_)
    simp only [step, after, Deal.deed, Site.step, erase, List.getElem?_map, List.getElem?_modify]
    cases w.site.hands[j]? with
    | none => rfl
    | some h => by_cases hij : i = j <;> simp [hij, hrevise]
  | copy i =>
    cases hi : w.site.hands[i]? <;>
      simp [step, after, endingOf, Deal.deed, Site.step, erase, hi]
  | shared n key mishap => exact w.erase_same n mishap _
  | completedSince n tag since mishap => exact w.erase_same n mishap _
  | all n tag mishap => exact w.erase_same n mishap _
  | other request mishap => exact w.erase_ask _ mishap
  | setClock t => rfl

theorem erased_foldl (w : Bench b KnownPartition) (deals : List Deal) :
    (w.run .typed deals).erase = w.erase.run .erased deals := by
  induction deals generalizing w with
  | nil => rfl
  | cons d rest ih =>
    rw [run, run, List.foldl_cons, List.foldl_cons, ← w.erased_step d]
    exact ih (w.step .typed d)

/-! ### Shared state -/

/-- Whoever claims shared state is told that it is not leased, and nothing else happens. -/
theorem claim_shared (s : b.Session) (now : Instant) (mishap : Option Mishap) (n : Node)
    (lease : Option Span) :
    s.perform now mishap (n.claim sharedKind lease) = (.error (.notLeasable sharedKind.tag), s) ∧
      s.perform now mishap (n.claimAny AnyPartition.ofRecord sharedKind.tag lease) =
        (.error (.notLeasable sharedKind.tag), s) := ⟨rfl, rfl⟩

/-- Whoever releases shared state is told so too. -/
theorem transition_shared (s : b.Session) (now : Instant) (mishap : Option Mishap)
    (p : Partition sharedKind) {t : Transition} (ht : t.needsLease = true) :
    s.perform now mishap (Node.transition p t) = (.error (.notLeasable sharedKind.tag), s) ∧
      s.perform now mishap (Node.transition (AnyPartition.mk .shared p) t) =
        (.error (.notLeasable sharedKind.tag), s) := by
  have htyped : s.perform now mishap (Node.transition p t) =
      (.error (.notLeasable sharedKind.tag), s) := by
    rw [Backend.Session.perform, Node.run_transition, ht]
    rfl
  refine ⟨htyped, ?_⟩
  rw [Backend.Session.perform, Node.run_transition_mk]
  exact congrArg (Prod.map _ id) htyped

/-- What is created is stored in its first version, as the backend keeps it, whatever else is. -/
theorem record?_of_create {s : b.Session} {now : Instant} {mishap : Option Mishap} {r : Record}
    (h : (s.answer now mishap (.create r)).1 = .ok true) :
    b.record? (s.answer now mishap (.create r)).2.state r.id = some (b.kept r.firstVersion) := by
  cases mishap with
  | some m => cases h
  | none =>
    cases b with
    | table =>
      have hanswer : (s.state.answer now (.create r)).1 = .ok true := h
      change (s.state.answer now (.create r)).2.find? r.id = some r.firstVersion
      cases hr : s.state.find? r.id with
      | some stored =>
        rw [Table.answer_create_of_some now hr] at hanswer
        cases hanswer
      | none =>
        have hfree : s.state.find? r.firstVersion.id = none := hr
        rw [Table.answer_create_of_none now hr]
        exact (Table.find?_insert hfree r.id).trans (if_pos rfl)
    | objects root =>
      -- A free path has no object, and the text that is put there reads back as it is kept.
      have hserve := Backend.serve_create root s.state now r
      have hanswer : (ObjectStore.serve root ⟨now, .create r⟩ s.state).1 = .ok true := h
      change ((ObjectStore.serve root ⟨now, .create r⟩ s.state).2.versioned?
        (ObjectPath.ofRecord root r.id)).map (·.record) = some r.firstVersion.reread
      rw [hserve] at hanswer ⊢
      split at hanswer
      · cases hanswer
      · rename_i hfree
        rw [if_neg hfree, Bucket.versioned?, Bucket.find?_put, if_pos rfl, Option.bind_some,
          Record.parse_print_eq]
        rfl

/-- A creation of shared state that has succeeded has stored a record without a status. -/
theorem create_shared (s : b.Session) (now : Instant) (mishap : Option Mishap) (n : Node)
    (p : Partition sharedKind) (h : (s.perform now mishap (n.create p)).1 = .ok true) :
    ∃ r, b.record? (s.perform now mishap (n.create p)).2.state ⟨n.source, sharedKind.tag, p.key⟩ =
      some r ∧ r.status = none := by
  let r := n.newRecord sharedKind.tag p.key false p.progressText now
  exact ⟨_, record?_of_create (r := r) h, b.status_kept r.firstVersion⟩

/-- **Operations by kind and by tag agree.**  Take a site with either backend, with any content of
the store, and any partitions in hand.  Do the same things by the built-in kinds and by their tags:
claim, make transitions, create and look up, while others ask the store for anything, requests fail
before or after they have had their effect, and the clock shows any time.  Then both ways have had
the same exchanges with the store and have left the same in it, the same partitions with the same
records and progress are in hand, and all that was done has ended with the same failure or with none.

Shared state is none the less treated as such: both ways refuse to claim it and to release it, and
change nothing; and what is created of it has no status. -/
theorem erased_run (w : Bench b KnownPartition) (deals : List Deal) :
    ((w.erase.run .erased deals).site.session = (w.run .typed deals).site.session ∧
      (w.erase.run .erased deals).site.hands =
        (w.run .typed deals).site.hands.map KnownPartition.erase ∧
      (w.erase.run .erased deals).site.hands.map Held.record =
        (w.run .typed deals).site.hands.map KnownPartition.record ∧
      (w.erase.run .erased deals).site.hands.map Held.progressText =
        (w.run .typed deals).site.hands.map KnownPartition.progressText ∧
      (w.erase.run .erased deals).endings = (w.run .typed deals).endings) ∧
    ∀ (s : b.Session) (now : Instant) (mishap : Option Mishap) (n : Node) (lease : Option Span)
      (p : Partition sharedKind) (t : Transition),
      (s.perform now mishap (n.claim sharedKind lease) =
          (.error (.notLeasable sharedKind.tag), s) ∧
        s.perform now mishap (n.claimAny AnyPartition.ofRecord sharedKind.tag lease) =
          (.error (.notLeasable sharedKind.tag), s)) ∧
      (t.needsLease = true →
        s.perform now mishap (Node.transition p t) = (.error (.notLeasable sharedKind.tag), s) ∧
        s.perform now mishap (Node.transition (AnyPartition.mk .shared p) t) =
          (.error (.notLeasable sharedKind.tag), s)) ∧
      ((s.perform now mishap (n.create p)).1 = .ok true →
        ∃ r, b.record? (s.perform now mishap (n.create p)).2.state
          ⟨n.source, sharedKind.tag, p.key⟩ = some r ∧ r.status = none) := by
  rw [← w.erased_foldl deals]
  refine ⟨⟨rfl, rfl, ?_, ?_, rfl⟩, fun s now mishap n lease p t =>
    ⟨claim_shared s now mishap n lease, transition_shared s now mishap p,
      create_shared s now mishap n p⟩⟩
  · rw [erase, List.map_map]
    exact List.map_congr_left fun h _ => by cases h <;> rfl
  · rw [erase, List.map_map]
    exact List.map_congr_left fun h _ => by cases h <;> rfl

/-- A node of the source `db`, and an empty table. -/
def worker : Node := ⟨"db", "node-a", .seconds 60⟩

def emptyTable : Backend.table.Session := ⟨[], Table.empty⟩

/-- A stream is created by an unreadable progress, and shared state as it should be; both are
claimed, and the shared state is given up. -/
def muddled : List Deal :=
  [.other (.create (.unassigned ⟨"db", "STREAM", "orders"⟩ (some "?") .epoch)) none,
    .create worker (k := .shared) (newShared "orders" []) none,
    .claim worker .stream none none,
    .claim worker .shared none none,
    .shared worker "orders" none,
    .transition 0 .giveUp none]

/-- All but the first two things of `muddled` and the lookup fail, in both ways alike; shared state
that is given up stays, and has no status. -/
theorem erased_run_muddled :
    ((⟨⟨emptyTable, .epoch, []⟩, []⟩ : Bench .table AnyPartition).run .erased muddled).endings =
        [none, none, some .unreadable, some (.notLeasable "GLOBAL"), none,
          some (.notLeasable "GLOBAL")] ∧
      (emptyTable.perform .epoch none (Node.transition (newShared "orders" []) .giveUp)).2 =
        emptyTable ∧
      ∃ r, Backend.table.record? (emptyTable.perform .epoch none
          (worker.create (newShared "orders" []))).2.state ⟨"db", "GLOBAL", "orders"⟩ = some r ∧
        r.status = none := by
  obtain ⟨⟨-, -, -, -, hendings⟩, hshared⟩ :=
    erased_run (⟨⟨emptyTable, .epoch, []⟩, []⟩ : Bench .table KnownPartition) muddled
  obtain ⟨-, hrelease, hcreate⟩ :=
    hshared emptyTable .epoch none worker none (newShared "orders" []) .giveUp
  exact ⟨hendings.trans (by decide +kernel), congrArg Prod.snd (hrelease rfl).1,
    hcreate (by decide +kernel)⟩

end Bench

end LeasedWork
