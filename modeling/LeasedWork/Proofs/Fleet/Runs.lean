import LeasedWork.Fleet.Node
import LeasedWork.Proofs.Record.Candidates
import LeasedWork.Proofs.Store.Tables

/-! # Nodes at work on one table

A `Fleet` is a table that any number of nodes share, their common clock, and the partitions that
they have in hand.  A `Deed` is one thing that a node may do: create records, claim one, or use a
partition in hand, as often as it likes and whatever has become of the record meanwhile.  Deeds run
the nodes' own programs against the table (`Table.handler`).

Partitions in hand may be of any kind, also of one that is not built in: a `Factory` makes them of
records.  What is asked of it is that a partition carries the record that it was made of, and takes
up the record that a write gives it.

Each deed's effect is read off once: a claim (`Fleet.after_claim`), a transition
(`Fleet.use_transition`) and a creation (`Fleet.create_induction`) are all that changes a table.
-/
namespace LeasedWork

/-- Nothing is asked besides what a node asks. -/
@[reducible] def Interface.none : Interface := ⟨Empty, fun q => q.elim⟩

/-- A table as the store of nodes, at a time. -/
def Table.handler (now : Instant) : Handler (Node.interface Interface.none) Table where
  answer
    | .store request, t => t.answer now request
    | .now, t => (now, t)
    | .pause _, t => ((), t)
    | .other q, _ => q.elim

/-- How partitions in hand are made of records. -/
structure Factory where
  Piece : Type
  held : Held Piece
  build : Record → Except Failure Piece
  /-- A partition carries the record that it was made of. -/
  record_build : ∀ r p, build r = .ok p → held.record p = some r
  /-- A partition carries the record that it has taken up. -/
  record_adopt : ∀ r p, held.record (held.adopt r p) = some r

namespace Factory

instance (f : Factory) : Held f.Piece := f.held

theorem record_ofRecord {k : PartitionKind} {r : Record} {p : Partition k}
    (h : Partition.ofRecord k r = .ok p) : p.record = some r := by
  unfold Partition.ofRecord at h
  split at h
  · cases h
  · split at h
    · cases h
    · cases hp : Partition.readProgress? k r with
      | error e => rw [hp] at h; cases h
      | ok progress => rw [hp] at h; cases h; rfl

theorem kind_of_ofRecord {k : PartitionKind} {r : Record} {p : Partition k}
    (h : Partition.ofRecord k r = .ok p) : r.kind = k.tag := by
  unfold Partition.ofRecord at h
  split at h
  · cases h
  · exact Decidable.not_not.mp ‹_›

/-- The partitions of one kind. -/
def ofKind (k : PartitionKind) : Factory where
  Piece := Partition k
  held := inferInstance
  build := Partition.ofRecord k
  record_build _ _ h := record_ofRecord h
  record_adopt _ _ := rfl

/-- The partitions of all built-in kinds. -/
def builtIn : Factory where
  Piece := AnyPartition
  held := inferInstance
  build := AnyPartition.ofRecord
  record_build r p h := by
    unfold AnyPartition.ofRecord at h
    split at h
    · rename_i b _
      cases hp : Partition.ofRecord b.kind r with
      | error e => rw [hp] at h; cases h
      | ok q => rw [hp] at h; cases h; exact record_ofRecord hp
    · cases h
  record_adopt _ _ := rfl

/-- Partitions of which nothing is known but their records. -/
def bare : Factory where
  Piece := BarePartition
  held := inferInstance
  build r := .ok ⟨r⟩
  record_build _ _ h := by cases h; rfl
  record_adopt _ _ := rfl

end Factory

/-- A partition in hand. -/
structure Hand where
  factory : Factory
  piece : factory.Piece

namespace Hand

/-- The record behind the partition. -/
def record (h : Hand) : Option Record := Held.record h.piece

/-- Whether partitions of its kind are leased. -/
def leased (h : Hand) : Bool := Held.leased h.piece

/-- The partition after the holder has worked on it. The record behind it is the holder's to read,
not to change. -/
def revise (change : (f : Factory) → f.Piece → f.Piece) (h : Hand) : Hand :=
  if Held.record (change h.factory h.piece) = Held.record h.piece then
    ⟨h.factory, change h.factory h.piece⟩
  else h

theorem record_revise (change : (f : Factory) → f.Piece → f.Piece) (h : Hand) :
    (h.revise change).record = h.record := by
  unfold revise
  split
  · assumption
  · rfl

end Hand

/-- What a node may do. A partition in hand is named by its place among all those ever claimed. -/
inductive Deed
  | create {k : PartitionKind} (n : Node) (p : Partition k)
  | createEach (n : Node) (kind : String) (progress : Option String) (keys : List String)
  /-- Claims a partition of a kind. -/
  | claim (n : Node) (k : PartitionKind) (lease : Option Span)
  /-- Claims a partition by its tag. -/
  | claimAny (n : Node) (f : Factory) (tag : String) (lease : Option Span)
  | save (n : Node) (i : Nat) (extension : Option Span)
  | complete (i : Nat)
  | close (i : Nat) (reopenAfter : Span) (limit : Option UInt64)
  | giveUp (i : Nat)
  /-- Works on a partition in hand without asking the store. -/
  | revise (i : Nat) (change : (f : Factory) → f.Piece → f.Piece)
  /-- The clock goes on to a time, never back. -/
  | tick (t : Instant)

/-- A table, the clock of its nodes, and what they have in hand. -/
structure Fleet where
  table : Table
  now : Instant
  hands : List Hand

namespace Fleet

/-- An empty table at a time. -/
def starting (now : Instant) : Fleet := ⟨Table.empty, now, []⟩

/-- The record in hand at a place. -/
def inHand (w : Fleet) (i : Nat) : Option Record := w.hands[i]?.bind Hand.record

/-- Runs what a node does. -/
def perform {α : Type} (w : Fleet) (action : Node.Action Interface.none α) :
    Except Failure α × Table := Program.run (Table.handler w.now) action.run w.table

/-- The fleet after a claim: a partition that was claimed and could be made is in hand. -/
def take (w : Fleet) (f : Factory) (action : Node.Action Interface.none (Option f.Piece)) : Fleet :=
  match w.perform action with
  | (.ok (some p), t) => { w with table := t, hands := w.hands ++ [⟨f, p⟩] }
  | (_, t) => { w with table := t }

/-- The fleet after a partition in hand has been used. One that fails stays as it is. -/
def use (w : Fleet) (i : Nat)
    (action : {P : Type} → [Held P] → P → Node.Action Interface.none P) : Fleet :=
  match w.hands[i]? with
  | none => w
  | some h =>
    match w.perform (action h.piece) with
    | (.ok p, t) => { w with table := t, hands := w.hands.set i ⟨h.factory, p⟩ }
    | (.error _, t) => { w with table := t }

/-- The fleet after a deed. -/
def after (w : Fleet) : Deed → Fleet
  | .create n p => { w with table := (w.perform (n.create p)).2 }
  | .createEach n kind progress keys =>
    { w with table := (w.perform (n.createEach kind progress keys)).2 }
  | .claim n k lease => w.take (Factory.ofKind k) (n.claim k lease)
  | .claimAny n f tag lease => w.take f (n.claimAny f.build tag lease)
  | .save n i extension => w.use i fun p => n.save p extension
  | .complete i => w.use i fun p => Node.complete p
  | .close i reopenAfter limit => w.use i fun p => Node.close p reopenAfter limit
  | .giveUp i => w.use i fun p => Node.giveUp p
  | .revise i change => { w with hands := w.hands.modify i (·.revise change) }
  | .tick t => { w with now := if w.now ≤ t then t else w.now }

/-- The fleet after some deeds, one after the other, from an empty table at a time. -/
def run (start : Instant) (deeds : List Deed) : Fleet := deeds.foldl after (starting start)

/-- How many of some deeds write the record of an identity. Whoever writes it changes it, if only
in its version. -/
def writes (id : RecordId) (w : Fleet) : List Deed → Nat
  | [] => 0
  | d :: rest => (if (w.after d).table.find? id = w.table.find? id then 0 else 1) +
      writes id (w.after d) rest

theorem writes_le_length (id : RecordId) (w : Fleet) (deeds : List Deed) :
    writes id w deeds ≤ deeds.length := by
  induction deeds generalizing w with
  | nil => exact Nat.le_refl 0
  | cons d rest ih =>
    have hrest := ih (w.after d)
    rw [writes, List.length_cons]
    split <;> omega

/-! ## What is in hand -/

theorem inHand_append {t : Table} {now : Instant} {hands : List Hand} {h : Hand} {i : Nat}
    {r : Record} (hr : inHand ⟨t, now, hands ++ [h]⟩ i = some r) :
    inHand ⟨t, now, hands⟩ i = some r ∨ (i = hands.length ∧ h.record = some r) := by
  unfold inHand at *
  rcases Nat.lt_or_ge i hands.length with hlt | hge
  · rw [List.getElem?_append_left hlt] at hr
    exact .inl hr
  · rw [List.getElem?_append_right hge, List.getElem?_singleton] at hr
    split at hr
    · exact .inr ⟨by omega, hr⟩
    · cases hr

theorem inHand_set {t : Table} {now : Instant} {hands : List Hand} {h : Hand} {i j : Nat}
    {r : Record} (hr : inHand ⟨t, now, hands.set i h⟩ j = some r) :
    (j ≠ i ∧ inHand ⟨t, now, hands⟩ j = some r) ∨ (j = i ∧ h.record = some r) := by
  unfold inHand at *
  rw [List.getElem?_set] at hr
  split at hr
  · split at hr
    · exact .inr ⟨‹i = j›.symm, hr⟩
    · cases hr
  · exact .inl ⟨fun h => ‹¬i = j› h.symm, hr⟩

theorem inHand_revise {t : Table} {now : Instant} {hands : List Hand} (i : Nat)
    (change : (f : Factory) → f.Piece → f.Piece) (j : Nat) :
    inHand ⟨t, now, hands.modify i (·.revise change)⟩ j = inHand ⟨t, now, hands⟩ j := by
  unfold inHand
  rw [List.getElem?_modify]
  cases hands[j]? with
  | none => rfl
  | some h =>
    by_cases hij : i = j
    · simp [hij, Hand.record_revise]
    · simp [hij]

/-! ## Creations -/

section Creations

variable {motive : Table → Prop}

section Mine

variable (mine : Record → Prop)
  (insert : ∀ (t : Table) (r : Record), mine r → motive t → t.find? r.id = none →
    motive (t.insert r.firstVersion))

include insert

theorem answer_create_induction {t : Table} (ht : motive t) (now : Instant) {r : Record}
    (hr : mine r) : motive (t.answer now (.create r)).2 := by
  simp only [Table.answer]
  split
  · exact ht
  · exact insert _ _ hr ht ‹_›

/-- **What a creation does.**  It keeps whatever its own record keeps under a free identity. -/
theorem create_induction_of {w : Fleet} (hw : motive w.table) {k : PartitionKind} {n : Node}
    {p : Partition k} (hr : mine (n.newRecord k.tag p.key k.leased p.progressText w.now)) :
    motive (w.perform (n.create p)).2 := answer_create_induction mine insert hw w.now hr

/-- The creation of many records keeps whatever each of them keeps under a free identity. -/
theorem createEach_induction_of {w : Fleet} (hw : motive w.table) {n : Node} {kind : String}
    {progress : Option String} {keys : List String}
    (hr : ∀ key, mine (n.newRecord kind key (kind ≠ sharedKind.tag) progress w.now)) :
    motive (w.perform (n.createEach kind progress keys)).2 := by
  induction keys generalizing w with
  | nil => exact hw
  | cons key rest ih =>
    let r := n.newRecord kind key (kind ≠ sharedKind.tag) progress w.now
    have hcreated := answer_create_induction mine insert hw w.now (hr key)
    have hrun := Program.run_exceptT_bind (Table.handler w.now)
      (Node.store (E := Interface.none) (.create r))
      (fun _ => n.createEach kind progress rest) w.table
    have hperform : (w.perform (n.createEach kind progress (key :: rest))).2 = _ :=
      congrArg Prod.snd hrun
    have hstore : Program.run (Table.handler w.now)
      (Node.store (E := Interface.none) (.create r)).run w.table =
        w.table.answer w.now (.create r) := rfl
    rw [hperform, hstore]
    rcases hanswer : w.table.answer w.now (.create r) with ⟨answer, t⟩
    rw [hanswer] at hcreated
    cases answer with
    | ok _ => exact ih (w := { w with table := t }) hcreated hr
    | error _ => exact hcreated

end Mine

variable (insert : ∀ (t : Table) (r : Record), motive t → t.find? r.id = none →
  motive (t.insert r.firstVersion))

include insert

/-- A creation keeps whatever a new record under a free identity keeps. -/
theorem create_induction {w : Fleet} (hw : motive w.table) {k : PartitionKind} (n : Node)
    (p : Partition k) : motive (w.perform (n.create p)).2 :=
  create_induction_of (fun _ => True) (fun t r _ => insert t r) hw trivial

/-- The creation of many records keeps whatever each new record keeps. -/
theorem createEach_induction {w : Fleet} (hw : motive w.table) (n : Node) (kind : String)
    (progress : Option String) (keys : List String) :
    motive (w.perform (n.createEach kind progress keys)).2 :=
  createEach_induction_of (fun _ => True) (fun t r _ => insert t r) hw fun _ => trivial

end Creations

/-! ## Claims -/

/-- What a claim leaves of a fleet: as it was, or with one available record claimed, and in hand if
a partition could be made of it. -/
inductive Claimed (w : Fleet) (n : Node) (kind : String) (lease : Span) : Fleet → Prop
  | none : Claimed w n kind lease w
  | some (r : Record) (hands : List Hand) (hr : r ∈ w.table.rows)
    (hsource : r.source = n.source) (hkind : r.kind = kind) (havailable : r.isAvailable w.now)
    (hhands : hands = w.hands ∨
      ∃ h : Hand, h.record = some (r.claimed n.owner w.now lease) ∧ hands = w.hands ++ [h]) :
    Claimed w n kind lease ⟨w.table.replace (r.claimed n.owner w.now lease), w.now, hands⟩

theorem run_build {P : Type} (build : Record → Except Failure P) (r : Record) (now : Instant)
    (t : Table) :
    Program.run (Table.handler now) (Node.build? (E := Interface.none) build (some r)).run t =
      ((build r).map some, t) := by
  rw [Node.build?]
  cases build r <;> rfl

theorem take_claimRecord (w : Fleet) (f : Factory) (n : Node) (kind : String)
    (lease : Option Span) :
    Claimed w n kind (lease.getD n.lease) (w.take f do
      let r ← n.claimRecord kind lease
      Node.build? f.build r) := by
  have hrun := Program.run_exceptT_bind (Table.handler w.now)
    (n.claimRecord (E := Interface.none) kind lease) (fun r => Node.build? f.build r) w.table
  have hstore : Program.run (Table.handler w.now)
    (n.claimRecord (E := Interface.none) kind lease).run w.table =
      w.table.answer w.now (.claim n.source kind n.owner (lease.getD n.lease)) := rfl
  rw [hstore] at hrun
  unfold take perform
  rw [hrun]
  simp only [Table.answer]
  cases hc : candidates w.now (w.table.ofKind n.source kind) with
  | nil => exact .none
  | cons r rest =>
    have hmem : r ∈ candidates w.now (w.table.ofKind n.source kind) := hc ▸ List.mem_cons_self
    obtain ⟨hof, havailable⟩ := mem_candidates.mp hmem
    obtain ⟨hr, hsource, hkind⟩ := Table.mem_ofKind.mp hof
    dsimp only
    rw [run_build]
    -- The claim is written by now, whether its record can be read or not.
    cases hbuild : f.build (r.claimed n.owner w.now (lease.getD n.lease)) with
    | error e => exact .some r w.hands hr hsource hkind havailable (.inl rfl)
    | ok p =>
      exact .some r _ hr hsource hkind havailable
        (.inr ⟨⟨f, p⟩, f.record_build _ _ hbuild, rfl⟩)

/-- **What a claim of a kind does.** -/
theorem after_claim (w : Fleet) (n : Node) (k : PartitionKind) (lease : Option Span) :
    Claimed w n k.tag (lease.getD n.lease) (w.after (.claim n k lease)) := by
  have hclaim := take_claimRecord w (Factory.ofKind k) n k.tag lease
  simp only [after, Node.claim]
  cases hleased : k.leased with
  | false => exact .none
  | true => exact hclaim

/-- **What a claim by a tag does.** -/
theorem after_claimAny (w : Fleet) (n : Node) (f : Factory) (tag : String) (lease : Option Span) :
    Claimed w n tag (lease.getD n.lease) (w.after (.claimAny n f tag lease)) := by
  have hclaim := take_claimRecord w f n tag lease
  simp only [after, Node.claimAny]
  by_cases htag : tag = sharedKind.tag
  · rw [if_pos htag]
    exact .none
  · rw [if_neg htag]
    exact hclaim

/-! ## Transitions -/

end Fleet

namespace Transition

/-- **All that a transition sets**: who has a record and when it is free again, how often it has
been closed, and when it was completed. -/
theorem apply_frame (t : Transition) (now : Instant) (r : Record) :
    ∃ status owner leaseExpiry reopenAt closedCount completedAt, t.apply now r =
      { r with status := status, owner := owner, leaseExpiry := leaseExpiry, reopenAt := reopenAt,
               closedCount := closedCount, completedAt := completedAt } := by
  cases t with
  | save extension => unfold apply; dsimp only; split <;> exact ⟨_, _, _, _, _, _, rfl⟩
  | complete => exact ⟨_, _, _, _, _, _, rfl⟩
  | close reopenAfter limit =>
    unfold apply; dsimp only; split <;> exact ⟨_, _, _, _, _, _, rfl⟩
  | giveUp => exact ⟨_, _, _, _, _, _, rfl⟩

section Frame

variable (t : Transition) (now : Instant) (r : Record)

@[simp] theorem id_apply : (t.apply now r).id = r.id := by
  obtain ⟨_, _, _, _, _, _, h⟩ := t.apply_frame now r
  rw [h]
  rfl

@[simp] theorem version_apply : (t.apply now r).version = r.version := by
  obtain ⟨_, _, _, _, _, _, h⟩ := t.apply_frame now r
  rw [h]

@[simp] theorem progress_apply : (t.apply now r).progress = r.progress := by
  obtain ⟨_, _, _, _, _, _, h⟩ := t.apply_frame now r
  rw [h]

theorem createdAt_apply : (t.apply now r).createdAt = r.createdAt := by
  obtain ⟨_, _, _, _, _, _, h⟩ := t.apply_frame now r
  rw [h]

theorem readOnly_apply : (t.apply now r).readOnly = r.readOnly := by
  obtain ⟨_, _, _, _, _, _, h⟩ := t.apply_frame now r
  rw [h]

end Frame

end Transition

namespace Node

theorem id_newRecord (n : Node) (kind key : String) (leased : Bool) (progress : Option String)
    (now : Instant) : (n.newRecord kind key leased progress now).id = ⟨n.source, kind, key⟩ := by
  unfold newRecord
  split <;> rfl

theorem progress_newRecord (n : Node) (kind key : String) (leased : Bool)
    (progress : Option String) (now : Instant) :
    (n.newRecord kind key leased progress now).progress = progress := by
  unfold newRecord
  split <;> rfl

variable {P : Type} [Held P]

theorem id_proposal (p : P) (t : Transition) (now : Instant) (r : Record) :
    (proposal p t now r).id = r.id := Transition.id_apply t now _

theorem version_proposal (p : P) (t : Transition) (now : Instant) (r : Record) :
    (proposal p t now r).version = r.version := Transition.version_apply t now _

theorem progress_proposal (p : P) (t : Transition) (now : Instant) (r : Record) :
    (proposal p t now r).progress = Held.progressText p := Transition.progress_apply t now _

/-- **A transition** asks for the time, and then for one update, if it may be made at all. -/
theorem run_transition {E : Interface} {σ : Type} (h : Handler (interface E) σ) (p : P)
    (t : Transition) (s : σ) :
    Program.run h (transition p t).run s =
      if t.needsLease && !Held.leased p then (.error (.notLeasable (Held.tag p)), s)
      else
        match Held.record p with
        | none => (.error (.noRecord (Held.tag p) (Held.key p)), (h.answer .now s).2)
        | some r =>
          match h.answer (.store (.update (proposal p t (h.answer .now s).1 r)))
              (h.answer .now s).2 with
          | (.ok written, s) => (.ok (Held.adopt written p), s)
          | (.error e, s) => (.error e, s) := by
  simp only [transition]
  by_cases hleased : (t.needsLease && !Held.leased p) = true
  · rw [if_pos hleased, if_pos hleased]
    rfl
  · rw [if_neg hleased, if_neg hleased]
    cases hr : Held.record p with
    | none => rfl
    | some r =>
      let update (time : Instant) : Action E Record := store (.update (proposal p t time r))
      refine (Program.run_exceptT_bind h now
        (fun time => update time >>= fun written => pure (Held.adopt written p)) s).trans ?_
      have hnow : Program.run h (now (E := E)).run s =
          (.ok (h.answer .now s).1, (h.answer .now s).2) := rfl
      have hupdate : ∀ time s', Program.run h (update time).run s' =
          h.answer (.store (.update (proposal p t time r))) s' := fun _ _ => rfl
      rw [hnow]
      dsimp only
      rw [Program.run_exceptT_bind, hupdate]
      rcases h.answer (.store (.update (proposal p t (h.answer .now s).1 r)))
        (h.answer .now s).2 with ⟨e | written, s'⟩ <;> rfl

end Node

namespace Hand

/-- The record that a transition writes for a partition in hand, made from the record behind it. -/
def moved (h : Hand) (t : Transition) (now : Instant) (r : Record) : Record :=
  (Node.proposal h.piece t now r).nextVersion

/-- The partition with another record behind it. -/
def adopt (h : Hand) (r : Record) : Hand := ⟨h.factory, Held.adopt r h.piece⟩

@[simp] theorem record_adopt (h : Hand) (r : Record) : (h.adopt r).record = some r :=
  h.factory.record_adopt r h.piece

@[simp] theorem id_moved (h : Hand) (t : Transition) (now : Instant) (r : Record) :
    (h.moved t now r).id = r.id := Node.id_proposal h.piece t now r

theorem version_moved (h : Hand) (t : Transition) (now : Instant) (r : Record) :
    (h.moved t now r).version = r.version + 1 :=
  congrArg (· + 1) (Node.version_proposal h.piece t now r)

end Hand

namespace Fleet

/-- Whether a transition of the partition at a place succeeds: its kind may make it, and the record
behind it is of the version that is stored. -/
structure Moves (w : Fleet) (i : Nat) (t : Transition) (h : Hand) (r : Record) : Prop where
  hand : w.hands[i]? = some h
  record : h.record = some r
  leased : t.needsLease = true → h.leased = true
  current : ∃ s, w.table.find? r.id = some s ∧ s.version = r.version

theorem Moves.inHand {w : Fleet} {i : Nat} {t : Transition} {h : Hand} {r : Record}
    (hm : w.Moves i t h r) : w.inHand i = some r := by
  rw [Fleet.inHand, hm.hand, Option.bind_some, hm.record]

/-- A partition in hand makes a transition. -/
def transition (w : Fleet) (i : Nat) (t : Transition) : Fleet :=
  w.use i fun p => Node.transition p t

theorem perform_transition (w : Fleet) {P : Type} [Held P] (p : P) (t : Transition) :
    w.perform (Node.transition p t) =
      if t.needsLease && !Held.leased p then (.error (.notLeasable (Held.tag p)), w.table)
      else
        match Held.record p with
        | none => (.error (.noRecord (Held.tag p) (Held.key p)), w.table)
        | some r =>
          match w.table.answer w.now (.update (Node.proposal p t w.now r)) with
          | (.ok written, table) => (.ok (Held.adopt written p), table)
          | (.error e, table) => (.error e, table) := by
  rw [perform, Node.run_transition]
  cases Held.record p with
  | none => rfl
  | some r =>
    dsimp only [Table.handler]
    rcases w.table.answer w.now (.update (Node.proposal p t w.now r)) with ⟨e | written, table⟩
      <;> rfl

/-- **What a transition does**, when it succeeds. -/
theorem transition_of_moves {w : Fleet} {i : Nat} {t : Transition} {h : Hand} {r : Record}
    (hm : w.Moves i t h r) : w.transition i t = ⟨w.table.replace (h.moved t w.now r), w.now,
      w.hands.set i (h.adopt (h.moved t w.now r))⟩ := by
  obtain ⟨s, hs, hversion⟩ := hm.current
  have hrecord : Held.record h.piece = some r := hm.record
  have hleased : ¬ (t.needsLease && !Held.leased h.piece) = true := by
    rw [Bool.and_eq_true, Bool.not_eq_true']
    rintro ⟨hneeds, hnot⟩
    exact absurd (hm.leased hneeds) (Bool.eq_false_iff.mp hnot)
  have hstored : w.table.find? (Node.proposal h.piece t w.now r).id = some s := by
    rw [Node.id_proposal, hs]
  have hcurrent : s.version = (Node.proposal h.piece t w.now r).version := by
    rw [Node.version_proposal, hversion]
  simp only [transition, use, hm.hand, perform_transition]
  rw [if_neg hleased, hrecord]
  dsimp only
  rw [Table.answer_update_of_current w.now hstored hcurrent]
  rfl

/-- A transition that cannot succeed changes nothing. -/
theorem transition_of_not_moves {w : Fleet} {i : Nat} {t : Transition}
    (hm : ∀ h r, ¬ w.Moves i t h r) : w.transition i t = w := by
  unfold transition use
  cases hi : w.hands[i]? with
  | none => rfl
  | some h =>
    dsimp only
    rw [perform_transition]
    by_cases hleased : (t.needsLease && !Held.leased h.piece) = true
    · rw [if_pos hleased]
    · rw [if_neg hleased]
      cases hr : Held.record h.piece with
      | none => rfl
      | some r =>
        have hneeds : t.needsLease = true → h.leased = true := by
          intro hneeds
          rw [hneeds, Bool.true_and, Bool.not_eq_true', Bool.not_eq_false] at hleased
          exact hleased
        have hstale : ∀ s, w.table.find? (Node.proposal h.piece t w.now r).id = some s →
            s.version ≠ (Node.proposal h.piece t w.now r).version := by
          intro s hs hversion
          rw [Node.id_proposal] at hs
          rw [Node.version_proposal] at hversion
          exact hm h r ⟨hi, hr, hneeds, s, hs, hversion⟩
        dsimp only
        rw [Table.answer_update_of_stale w.now hstale]

end Fleet

end LeasedWork
