import LeasedWork.Proofs.Fleet.Exclusion
import LeasedWork.Proofs.Fleet.Sites

/-! # Who moves a leased partition

A record that a node has claimed is meant to be moved by that node alone: saved, completed, closed
or given up.  No transition asks who that is.  It asks that the partition's kind is leased, and that
the record behind the partition is of the stored version; and partitions come into hand by queries
as well as by claims, and stay there after they were released.

A `Workforce` is a site with all of this: nodes that get partitions in every way that there is, of
any kind, from either backend, and keep on using them, while requests fail before or after they have
had their effect.  It is noted of a partition which node has it, and whether that node *holds* it:
has got it by a claim, and neither completed, closed nor given it up since.

A transition succeeds exactly when the record behind the partition is the stored one
(`Workforce.moved_by_holder`), and behind a partition that is held there is always a record that is
assigned to the holder.  So transitions of partitions that are held are made by whom the stored
record is assigned to, and as long as a lease lasts they are the leaseholder's.  A node that uses
what it has looked up, or has released, moves whatever record is stored there
(`Workforce.moved_by_others`).
-/
namespace LeasedWork

universe u

/-! ## Moves -/

/-- A partition in hand, and whose. -/
structure Holding where
  /-- The owner name of the node that has got it. -/
  owner : String
  hand : Hand
  /-- Whether the node has claimed it, and neither completed, closed nor given it up since. -/
  isHeld : Bool

/-- How a node gets partitions. -/
inductive Pickup
  | claim (k : PartitionKind) (lease : Option Span)
  | claimAny (f : Factory) (tag : String) (lease : Option Span)
  | shared (f : Factory) (key : String)
  | completedSince (f : Factory) (tag : String) (since : Instant)
  | all (f : Factory) (tag : String)

namespace Pickup

variable {H : Type u}

def isClaim : Pickup → Bool
  | .claim _ _ | .claimAny _ _ _ => true
  | .shared _ _ | .completedSince _ _ _ | .all _ _ => false

/-- What a node does for it, and has in hand then of each partition. -/
def errand (hold : Hand → H) : Pickup → Errand H
  | .claim k lease => .claim k lease fun p => hold ⟨Factory.ofKind k, p⟩
  | .claimAny f tag lease => .claimAny f.build tag lease fun p => hold ⟨f, p⟩
  | .shared f key => .shared f.build key fun p => hold ⟨f, p⟩
  | .completedSince f tag since => .completedSince f.build tag since fun p => hold ⟨f, p⟩
  | .all f tag => .all f.build tag fun p => hold ⟨f, p⟩

/-- What is had in hand carries the record that it was made of. -/
theorem record_of_make {p : Pickup} {hold : Hand → H} {r : Record} {y : H}
    (h : (p.errand hold).make r = .ok y) : ∃ x : Hand, y = hold x ∧ x.record = some r := by
  have hmade (f : Factory) (h : (f.build r).map (fun p => hold ⟨f, p⟩) = .ok y) :
      ∃ x : Hand, y = hold x ∧ x.record = some r := by
    obtain ⟨p, hp, rfl⟩ := Fleet.exists_of_map h
    exact ⟨⟨f, p⟩, rfl, f.record_build r p hp⟩
  cases p with
  | claim k lease => exact hmade (Factory.ofKind k) h
  | claimAny f | shared f | completedSince f | all f => exact hmade f h

/-- A claim asks for one of the node's own. -/
theorem request_of_isClaim {p : Pickup} {hold : Hand → H} {n : Node} {request : Request}
    (h : (p.errand hold).request n = .ok request) (hclaim : p.isClaim = true) :
    ∃ tag lease, request = .claim n.source tag n.owner lease := by
  cases p with
  | claim | claimAny =>
    simp only [errand, Errand.request] at h
    split at h <;> cases h
    exact ⟨_, _, rfl⟩
  | shared | completedSince | all => cases hclaim

end Pickup

/-- Whether a transition leaves a partition with whoever holds it. -/
def Transition.isSave : Transition → Bool
  | .save _ => true
  | .complete | .close _ _ | .giveUp => false

/-- What a node has in hand then. -/
def Pickup.holdings (n : Node) (p : Pickup) : Errand Holding :=
  p.errand fun h => ⟨n.owner, h, p.isClaim⟩

instance : Grip Holding where
  hand x := x.hand
  moved t x p := ⟨x.owner, ⟨x.hand.factory, p⟩, x.isHeld && t.isSave⟩

/-- Nodes at work on one store, and the partitions that each has got. -/
abbrev Workforce (b : Backend) : Type 1 := Site b Holding

namespace Workforce

variable {b : Backend}

/-- What may happen. -/
inductive Move
  /-- Somebody creates a record. -/
  | create (r : Record) (mishap : Option Mishap)
  | pickUp (n : Node) (p : Pickup) (mishap : Option Mishap)
  /-- A node saves, completes, closes or gives up a partition that it has. -/
  | transition (i : Nat) (t : Transition) (mishap : Option Mishap)
  /-- A node works on a partition that it has without asking the store. -/
  | revise (i : Nat) (change : (f : Factory) → f.Piece → f.Piece)
  | copy (i : Nat)
  | setClock (t : Instant)

/-- What is done. -/
def Move.deed : Move → Site.Deed Holding
  | .create r mishap => .ask (Node.store (.create r)) mishap
  | .pickUp n p mishap => .fetch n (p.holdings n) mishap
  | .transition i t mishap => .transition i t mishap
  | .revise i change => .revise i fun x => { x with hand := x.hand.revise change }
  | .copy i => .copy i
  | .setClock t => .setClock t

/-- The workforce after a move. A partition whose transition fails stays as it is. -/
def step (w : Workforce b) (m : Move) : Workforce b := Site.step w m.deed

/-- The workforce after some moves, from an empty store at a time. -/
def run (b : Backend) (start : Instant) (moves : List Move) : Workforce b :=
  moves.foldl step (Site.starting b Holding start)

/-- Whether a move is no transition, or that of a partition that another node than `owner` holds. -/
def Spares (w : Workforce b) (owner : String) (m : Move) : Prop :=
  ∀ i t mishap x, m = .transition i t mishap → w.hands[i]? = some x →
    x.isHeld = true ∧ x.owner ≠ owner

end Workforce

/-! ## Transitions -/

namespace Backend.Session

variable {b : Backend} {s s' : b.Session} {now : Instant} {mishap : Option Mishap} {r : Record}

/-- What has been shown is stored, if its version is. -/
theorem eq_of_version (hs : s.Reached) (hshown : s.Shown r)
    (hmost : writesIn r.id s.history < UInt64.size) {q : Record} (hq : s.stored r.id = some q)
    (hversion : q.version = r.version) : q = b.kept r := by
  obtain ⟨x, hx, hr⟩ := hshown
  obtain ⟨t, past, hholds, hc⟩ := hs.exists_chronicle r.id
  exact hc.eq_stored_of_version b.version_kept hmost hx hr rfl
    ((stored_eq hholds _).symm.trans hq) hversion

/-- An update of a record that has been shown succeeds exactly when it is the stored one. -/
theorem serve_of_shown (hs : s.Reached) (hr : s.Shown r)
    (hmost : writesIn r.id s.history < UInt64.size) (now : Instant) {u : Record} (hid : u.id = r.id)
    (hversion : u.version = r.version) :
    (b.serve ⟨now, .update u⟩ s.state).1 =
      if s.stored r.id = some (b.kept r) then .ok u.nextVersion else .error (.lostWriteOf u) := by
  obtain ⟨table, past, hholds, hc⟩ := hs.exists_chronicle r.id
  obtain ⟨e, he, hre⟩ := id hr
  obtain ⟨i, hi⟩ := List.mem_iff_getElem?.mp he
  obtain ⟨stored, hfind, -⟩ := hc.version_eq_iff b.version_kept hmost hi hre rfl
  have hstored : s.stored r.id = some stored := (stored_eq hholds _).trans hfind
  have hcurrent : stored.version = u.version ↔ s.stored r.id = some (b.kept r) := by
    rw [hstored, Option.some.injEq, hversion]
    exact ⟨eq_of_version hs hr hmost hstored, fun h => h ▸ b.version_kept r⟩
  rw [hholds.update now (hid ▸ hfind)]
  exact if_congr hcurrent rfl rfl

/-- **When a transition succeeds**: if its partition's kind may make it, and the record behind the
partition is the stored one. -/
theorem isOk_transition {P : Type} [Held P] {p : P} (hs : s.Reached)
    (hrecord : Held.record p = some r) (hshown : s.Shown r)
    (hmost : writesIn r.id s.history < UInt64.size) (now : Instant) (mishap : Option Mishap)
    (t : Transition) :
    (s.perform now mishap (Node.transition p t)).1.isOk = true ↔ mishap = none ∧
      (t.needsLease = true → Held.leased p = true) ∧ s.stored r.id = some (b.kept r) := by
  rw [perform_transition, hrecord]
  by_cases hleased : t.needsLease = true → Held.leased p = true
  · have hmay : ¬ (t.needsLease && !Held.leased p) = true := by
      rw [Bool.and_eq_true, Bool.not_eq_true']
      rintro ⟨hneeds, hnot⟩
      exact absurd (hleased hneeds) (Bool.eq_false_iff.mp hnot)
    rw [if_neg hmay]
    cases mishap with
    | some m => exact iff_of_false Bool.noConfusion fun h => absurd h.1 (Option.some_ne_none m)
    | none =>
      have hserve := serve_of_shown hs hshown hmost now (u := Node.proposal p t now r)
        (Node.id_proposal p t now r) (Node.version_proposal p t now r)
      dsimp only [answer]
      rw [hserve]
      by_cases hstored : s.stored r.id = some (b.kept r)
      · rw [if_pos hstored]
        exact iff_of_true rfl ⟨rfl, hleased, hstored⟩
      · rw [if_neg hstored]
        exact iff_of_false Bool.noConfusion fun h => hstored h.2.2
  · have hmay : (t.needsLease && !Held.leased p) = true := by
      rw [Bool.and_eq_true, Bool.not_eq_true', Bool.eq_false_iff]
      exact Classical.not_imp.mp hleased
    rw [if_pos hmay]
    exact iff_of_false Bool.noConfusion fun h => hleased h.2.1

/-- A claim gives a record that is assigned to whoever has claimed it. -/
theorem owner_of_claim (h : s.Reached) {source kind owner : String} {lease : Span}
    {reply : Option Record}
    (hreply : (b.serve ⟨now, .claim source kind owner lease⟩ s.state).1 = .ok reply) :
    ∀ r ∈ (Exchange.mk (.claim source kind owner lease) (.ok reply)).shown,
      r.status = some .assigned ∧ r.owner = some owner := by
  intro r hr
  obtain rfl := Option.mem_toList.mp hr
  obtain ⟨t, -, hholds, -⟩ := h.exists_chronicle ⟨source, kind, ""⟩
  have hagree := (hholds.serve ⟨now, .claim source kind owner lease⟩).1
  obtain ⟨x, -, -, -, rfl⟩ := Table.exists_of_answer_claim (Eq.trans hagree hreply)
  exact ⟨rfl, rfl⟩

end Backend.Session

/-! ## The invariant -/

namespace Workforce

open Backend.Session

variable {b : Backend}

/-- What is in hand has been shown, and is assigned to whoever holds it. -/
structure Fits (s : b.Session) (x : Holding) : Prop where
  shown : ∀ r, x.hand.record = some r → s.Shown r
  held : x.isHeld = true → ∀ r, x.hand.record = some r →
    r.status = some .assigned ∧ r.owner = some x.owner

/-- **The invariant.** -/
structure Sound (w : Workforce b) : Prop where
  reached : w.session.Reached
  fits : ∀ x ∈ w.hands, Fits w.session x

theorem Fits.later {s s' : b.Session} {x : Holding} (h : Fits s x) (hs : s.Later s') :
    Fits s' x where
  shown r hr := (h.shown r hr).later hs
  held := h.held

variable {w : Workforce b}

/-- What a node has just got. -/
theorem fits_of_pickUp (hw : w.session.Reached) {n : Node} {p : Pickup} {mishap : Option Mishap}
    {hs : List Holding} {s : b.Session}
    (h : w.fetch mishap n (p.holdings n) = (.ok hs, s)) :
    ∀ y ∈ hs, Fits s y := by
  intro y hy
  obtain ⟨request, reply, hrequest, hserve, -, hgiven⟩ := given_fetch h
  obtain ⟨r, hr, hshown, hmake⟩ := hgiven y hy
  obtain ⟨x, rfl, hx⟩ := Pickup.record_of_make hmake
  refine ⟨fun u hu => ?_, fun hclaim u hu => ?_⟩ <;>
    obtain rfl := Option.some.inj (hx.symm.trans hu)
  · exact hshown
  · obtain ⟨tag, lease, rfl⟩ := Pickup.request_of_isClaim hrequest hclaim
    exact owner_of_claim hw hserve _ hr

theorem owner_save (x : Hand) (extension : Span) (now : Instant) (r : Record) :
    (x.moved (.save extension) now r).owner = r.owner := by
  unfold Hand.moved Node.proposal Transition.apply
  dsimp only
  split <;> rfl

/-- A partition after a transition carries what was written, which only a save leaves assigned as it
was. -/
theorem Fits.move (hw : w.session.Reached) {x y : Holding} (hx : Fits w.session x)
    {t : Transition} {mishap : Option Mishap} {s : b.Session}
    (h : w.move mishap x t = (.ok y, s)) : Fits s y := by
  obtain ⟨r, hr, rfl, -, hshown⟩ := Site.exists_of_move hw h
  have hrecord : (x.hand.adopt (x.hand.moved t w.now r)).record =
      some (x.hand.moved t w.now r) := Hand.record_adopt x.hand _
  refine ⟨fun u hu => ?_, fun hheld u hu => ?_⟩ <;>
    obtain rfl := Option.some.inj (hrecord.symm.trans hu)
  · exact hshown
  · obtain ⟨hheld, hsave⟩ := Bool.and_eq_true_iff.mp hheld
    obtain ⟨hstatus, howner⟩ := hx.held hheld r hr
    cases t with
    | save extension =>
      exact ⟨(x.hand.status_save extension w.now r).trans hstatus,
        (owner_save x.hand extension w.now r).trans howner⟩
    | complete | close | giveUp => cases hsave

/-- **One move** keeps the invariant. -/
theorem Sound.step (hw : Sound w) (m : Move) : Sound (w.step m) := by
  have hlater := Site.later_step w m.deed
  refine ⟨hw.reached.later hlater, fun y hy => ?_⟩
  rcases Site.mem_hands_step hy with hy | ⟨n, x, mishap, hs, hm, hget, hrun⟩ |
    ⟨i, t, mishap, x, hm, hx, hrun⟩ | hm | ⟨i, change, x, hm, hx, rfl⟩
  · exact (hw.fits y hy).later hlater
  · cases m with
    | pickUp => cases hm; exact fits_of_pickUp hw.reached hrun y hget
    | _ => cases hm
  · cases m with
    | transition => cases hm; exact (hw.fits x (List.mem_of_getElem? hx)).move hw.reached hrun
    | _ => cases hm
  · cases m <;> cases hm
  · cases m with
    | revise j change =>
      cases hm
      have hfits := (hw.fits x hx).later hlater
      exact ⟨fun r hr => hfits.shown r (by rwa [Hand.record_revise] at hr),
        fun hheld r hr => hfits.held hheld r (by rwa [Hand.record_revise] at hr)⟩
    | _ => cases hm

/-- And so does whatever makes the session go on. -/
theorem Sound.goOn (hw : Sound w) {s : b.Session} (h : w.session.Later s) :
    Sound { w with session := s } :=
  ⟨hw.reached.later h, fun x hx => (hw.fits x hx).later h⟩

/-- **The invariant holds throughout a run.** -/
theorem sound_run (b : Backend) (start : Instant) (moves : List Move) :
    Sound (run b start moves) := by
  induction moves using List.reverseRecOn with
  | nil => exact ⟨reached_empty b, fun x hx => absurd hx List.not_mem_nil⟩
  | append_singleton moves m ih =>
    rw [run, List.foldl_append]
    exact ih.step m

/-! ## Who moves a record -/

/-- As long as a stored record's lease lasts, no request changes it but an update of its version. -/
theorem stored_next_of_live (hw : Sound w) {s : Record} (hs : w.stored s.id = some s)
    (hlive : s.Live w.now) {request : Request}
    (hrequest : ∀ u, request = .update u → u.id = s.id → u.version ≠ s.version) :
    (w.session.next ⟨w.now, request⟩).stored s.id = some s := by
  obtain ⟨t, -, hholds, -⟩ := hw.reached.exists_chronicle s.id
  have hfind : t.find? s.id = some s := (stored_eq hholds s.id).symm.trans hs
  rw [stored_next hholds, hholds.find?_afterCall_of_same ?_, hfind]
  rw [Table.afterCall]
  have hwritten := t.written_answer w.now request
  generalize (t.answer w.now request).2 = t' at hwritten ⊢
  cases hwritten with
  | none => rfl
  | created r hfree =>
    exact (Table.find?_insert_of_stored (r := r.firstVersion) hfree hfind).trans hfind.symm
  | updated u stored hstored hversion =>
    refine Table.find?_replace_of_ne (r := u.nextVersion) fun hid => ?_
    have hid' : u.id = s.id := hid.symm
    obtain rfl := Option.some.inj (hfind.symm.trans (hid' ▸ hstored))
    exact hrequest u rfl hid' hversion.symm
  | claimed r owner lease hr havailable =>
    refine Table.find?_replace_of_ne (r := r.claimed owner w.now lease) fun hid => ?_
    have hid' : r.id = s.id := hid.symm
    obtain rfl := Option.some.inj
      (hfind.symm.trans (hid' ▸ (Table.find?_iff hholds.distinct).mpr ⟨hr, rfl⟩))
    exact Record.not_live_of_available havailable hlive

/-- While a node's lease of a record lasts, a move that spares the node leaves the record alone. -/
theorem stored_step_of_live (hw : Sound w) {s : Record} {o : String}
    (hmost : writesIn s.id w.session.history < UInt64.size) (hs : w.stored s.id = some s)
    (hlive : s.Live w.now) (ho : s.owner = some o) {m : Move} (hm : w.Spares o m) :
    (w.step m).stored s.id = some s := by
  cases m with
  | create r mishap =>
    have hsession : (w.step (.create r mishap)).session =
        (w.session.answer w.now mishap (.create r)).2 := rfl
    rw [Site.stored, hsession]
    rcases w.session.answer_cases w.now mishap (.create r) with h | h <;> rw [h]
    · exact hs
    · exact stored_next_of_live hw hs hlive fun u hu => absurd hu Request.noConfusion
  | pickUp n p mishap =>
    rw [Site.stored, Workforce.step, Move.deed, Site.session_step_fetch, Site.fetch]
    rcases w.session.session_fetch w.now mishap n (p.holdings n) with
      h | ⟨request, hrequest, h⟩ <;> rw [h]
    · exact hs
    · exact stored_next_of_live hw hs hlive fun u hu =>
        absurd (Errand.fetches_request hrequest) (hu ▸ id)
  | transition i t mishap =>
    cases hx : w.hands[i]? with
    | none =>
      rw [Workforce.step, Move.deed, Site.step_transition_of_none hx]
      exact hs
    | some x =>
      obtain ⟨hheld, howner⟩ := hm i t mishap x rfl hx
      have hfits := hw.fits x (List.mem_of_getElem? hx)
      rw [Site.stored, Workforce.step, Move.deed, Site.session_step_transition hx,
        Site.session_move, Site.perform]
      rcases w.session.session_transition w.now mishap x.hand.piece t with
        ⟨h, -⟩ | ⟨r, hr, -, -, h⟩
      · exact (congrArg (Backend.Session.stored · s.id) h).trans hs
      · refine (congrArg (Backend.Session.stored · s.id) h).trans
          (stored_next_of_live hw hs hlive fun u hu hid hversion => howner ?_)
        obtain rfl := Request.update.inj hu
        rw [Node.id_proposal] at hid
        rw [Node.version_proposal] at hversion
        -- The record behind the partition would be the stored one, and so its owner's.
        have hkept : s = b.kept r := eq_of_version hw.reached (hfits.shown r hr) (hid ▸ hmost)
          (hid ▸ hs) hversion.symm
        have hsame : s.owner = r.owner := hkept ▸ b.owner_kept r
        exact Option.some.inj ((hfits.held hheld r hr).2.symm.trans (hsame.symm.trans ho))
  | revise i change => exact hs
  | copy i => exact hs
  | setClock t => exact hs

/-- **Who moves a leased partition.**  Any number of nodes get partitions of any kind from either
backend and make transitions, in any order and at any times, while requests fail before or after
they have had their effect.  This is so of every identity whose record is written fewer than `2^64`
times, the range of a version:

* a transition of a partition succeeds exactly when no mishap befalls it, the partition's kind may
  make it, and the record behind the partition is the stored one; and the record behind a partition
  that a node holds is always assigned to that node;
* as long as the lease of a stored record lasts, the record stays as it is, status, owner, lease and
  progress, whatever is done but by transitions: those of its owner, and those of partitions that
  are not held. -/
theorem moved_by_holder (b : Backend) (start : Instant) (moves : List Move) (id : RecordId)
    (hmost : writesIn id (run b start moves).session.history < UInt64.size) :
    (∀ (i : Nat) x r, (run b start moves).hands[i]? = some x → x.hand.record = some r →
      r.id = id →
      (∀ mishap t, ((run b start moves).move mishap x t).1.isOk = true ↔
        mishap = none ∧ (t.needsLease = true → x.hand.leased = true) ∧
          (run b start moves).stored id = some (b.kept r)) ∧
      (x.isHeld = true → r.status = some .assigned ∧ r.owner = some x.owner)) ∧
    ∀ s o, (run b start moves).stored id = some s → s.Live (run b start moves).now →
      s.owner = some o → ∀ m, (run b start moves).Spares o m →
        ((run b start moves).step m).stored id = some s := by
  have hw := sound_run b start moves
  constructor
  · intro i x r hx hr hid
    have hfits := hw.fits x (List.mem_of_getElem? hx)
    subst hid
    refine ⟨fun mishap t => ?_, fun hheld => hfits.held hheld r hr⟩
    rw [Site.isOk_move]
    exact isOk_transition hw.reached hr (hfits.shown r hr) hmost _ mishap t
  · intro s o hs hlive ho m hm
    obtain ⟨t, -, hholds, -⟩ := hw.reached.exists_chronicle id
    obtain rfl := (Table.find?_some ((stored_eq hholds id).symm.trans hs)).2
    exact stored_step_of_live hw hmost hs hlive ho hm

/-- A node of the source `db`. -/
def worker (owner : String) : Node := ⟨"db", owner, .seconds 60⟩

/-- Work is created and claimed by `node-a`, and `node-b` looks it up. -/
def lookedUp : List Move :=
  [.create (.unassigned ⟨"db", "WORK", "a"⟩ none .epoch) none,
    .pickUp (worker "node-a") (.claimAny Factory.bare "WORK" none) none,
    .pickUp (worker "node-b") (.all Factory.bare "WORK") none]

/-- The work of `lookedUp` as it is stored. -/
def ofNodeA : Record :=
  (Record.unassigned ⟨"db", "WORK", "a"⟩ none .epoch).firstVersion.claimed "node-a" .epoch
    (.seconds 60)

/-- What `node-a` has claimed in `lookedUp` it can complete, and it does not lose it as `node-b`
claims more work. -/
theorem moved_by_holder_lookedUp :
    (∃ x, (run .table .epoch lookedUp).hands[0]? = some x ∧
      ((run .table .epoch lookedUp).move none x .complete).1.isOk = true) ∧
    ((run .table .epoch lookedUp).step
      (.pickUp (worker "node-b") (.claimAny Factory.bare "WORK" none) none)).stored ofNodeA.id =
        some ofNodeA := by
  have hmost : writesIn ofNodeA.id (run .table .epoch lookedUp).session.history < UInt64.size := by
    decide +kernel
  obtain ⟨hattempt, hlease⟩ := moved_by_holder .table .epoch lookedUp ofNodeA.id hmost
  have hstored : (run .table .epoch lookedUp).stored ofNodeA.id = some ofNodeA := by
    decide +kernel
  have hlive : ofNodeA.Live (run .table .epoch lookedUp).now :=
    ⟨rfl, Instant.epoch.after (.seconds 60), rfl, by decide +kernel⟩
  constructor
  · have hheld : ((run .table .epoch lookedUp).hands[0]?).map
        (fun x => (x.hand.record, x.hand.leased)) = some (some ofNodeA, true) := by
      decide +kernel
    obtain ⟨x, hx, hfields⟩ := Option.map_eq_some_iff.mp hheld
    obtain ⟨hrecord, hleased⟩ := Prod.mk.inj hfields
    exact ⟨x, hx, ((hattempt 0 x ofNodeA hx hrecord rfl).1 none .complete).mpr
      ⟨rfl, fun _ => hleased, hstored⟩⟩
  · exact hlease ofNodeA "node-a" hstored hlive rfl _ fun _ _ _ _ h => nomatch h

/-- **Others move a leased partition, too.**  After `lookedUp`, `node-b` completes the work that
`node-a` has claimed and whose lease lasts.  And after `node-a` has given it up, it can still
complete it, although the work is assigned to nobody. -/
theorem moved_by_others :
    ((run .table .epoch lookedUp).stored ofNodeA.id = some ofNodeA ∧
      ofNodeA.leaseExpiry.any ((run .table .epoch lookedUp).now < ·) = true ∧
      (run .table .epoch lookedUp).hands.map Holding.owner = ["node-a", "node-b"] ∧
      ((run .table .epoch (lookedUp ++ [.transition 1 .complete none])).stored ofNodeA.id).map
        (fun r => (r.status, r.owner)) = some (some .completed, none)) ∧
    ((run .table .epoch (lookedUp ++ [.transition 0 .giveUp none])).stored ofNodeA.id).map
      (fun r => (r.status, r.owner)) = some (some .unassigned, none) ∧
    ((run .table .epoch (lookedUp ++
        [.transition 0 .giveUp none, .transition 0 .complete none])).stored ofNodeA.id).map
      (fun r => (r.status, r.owner)) = some (some .completed, none) := by
  decide +kernel

end Workforce

end LeasedWork
