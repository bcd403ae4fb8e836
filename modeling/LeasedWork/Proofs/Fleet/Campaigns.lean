import LeasedWork.Proofs.Fleet.Exclusion
import LeasedWork.Proofs.Fleet.Outcomes

/-! # Campaigns for the leadership of a source

A `Campaign` is a table that the candidates of a source share, their clock, and everything that the
table has been asked.  Candidates make passes and step down, one at a time and in any order, and any
of their requests may fail without an effect.  Others may ask whatever they like, as long as they
leave the leader's record alone (`Request.Spares`).

The invariant (`Campaign.Sound`) is mutual exclusion of the leader partitions in hand, as in
`LeasedWork.Proofs.Fleet.Exclusion`, and what is known about the stored leader record and about each
of these partitions.  There are four things that may happen to it: the table grows elsewhere, a
candidate changes only what it has in hand, the leader's record is created, and it is written anew.
Every step of a pass is one of these, so every move keeps the invariant (`Campaign.sound_run`).
-/
namespace LeasedWork

/-! ## Moves -/

/-- A node that is about to enter the election. -/
structure Entrant where
  owner : String
  lease : Span
  collections : List Collection
  settings : LeaderSettings

def Entrant.candidate (source : String) (e : Entrant) : Candidate :=
  .new ⟨source, e.owner, e.lease⟩ e.collections e.settings

/-- The candidates of a source, at work on one table. -/
structure Campaign where
  table : Table
  history : List Exchange
  now : Instant
  candidates : List Candidate

namespace Campaign

/-- What may happen in a campaign. -/
inductive Move (source : String)
  /-- The candidate at a place makes a pass. -/
  | pass (i : Nat) (faults : List (Option Failure))
  | stepDown (i : Nat) (faults : List (Option Failure))
  /-- The clock goes on to a time, never back. -/
  | tick (t : Instant)
  /-- Anybody asks for anything but the leader's record. -/
  | other (request : Request) (spares : request.Spares source)

/-- The table as a store with which this goes wrong. -/
def store (w : Campaign) (faults : List (Option Failure)) : Frail := ⟨w.table, w.history, faults⟩

/-- The campaign after the candidate at a place has become another one and has left a store. -/
def put (w : Campaign) (i : Nat) (c : Candidate) (s : Frail) : Campaign :=
  ⟨s.table, s.history, w.now, w.candidates.set i c⟩

/-- The campaign after the candidate at a place, if there is one, has done something. -/
def play (w : Campaign) (i : Nat) (faults : List (Option Failure))
    (act : Candidate → Program (Node.interface Interface.none) Candidate) : Campaign :=
  match w.candidates[i]? with
  | none => w
  | some c =>
    w.put i ((w.store faults).run w.now (act c)).1 ((w.store faults).run w.now (act c)).2

variable {source : String}

/-- The campaign after a move. -/
def step (w : Campaign) : Move source → Campaign
  | .pass i faults => w.play i faults Candidate.pass
  | .stepDown i faults => w.play i faults Candidate.stepDown
  | .tick t => { w with now := if w.now ≤ t then t else w.now }
  | .other request _ =>
    { w with table := ((w.store []).ask w.now request).2.table
             history := ((w.store []).ask w.now request).2.history }

/-- Nothing has been asked yet. -/
def starting (source : String) (now : Instant) (entrants : List Entrant) : Campaign :=
  ⟨Table.empty, [], now, entrants.map (Entrant.candidate source)⟩

/-- The campaign after some moves. -/
def run (source : String) (start : Instant) (entrants : List Entrant) (moves : List (Move source)) :
    Campaign := moves.foldl step (starting source start entrants)

/-- How often the leader's record has been written. -/
def writes (source : String) (w : Campaign) : Nat := writesIn (leaderId source) w.history

end Campaign

/-! ## The invariant -/

namespace Candidate

/-- The leader partition in hand, if there is one. -/
def hand (c : Candidate) : Hand := ⟨Factory.ofKind leaderKind, c.held.getD ⟨(), none, none⟩⟩

theorem record_hand (c : Candidate) : c.hand.record = c.record := by
  unfold hand record Hand.record
  cases c.held <;> rfl

end Candidate

/-- All collections of one of some lists are ready. -/
def Prepared (source : String) (plans : List (List Collection)) (t : Table) : Prop :=
  ∃ plan ∈ plans, ∀ c ∈ plan, c.Ready source t

/-- What is known of a leader partition in hand: it is made of an assigned record, which said `old`
about the bootstrap, while the partition says `new`. -/
structure Tenure (source : String) (plans : List (List Collection)) (owner : String) (t : Table)
    (p : Partition leaderKind) (r : Record) (old new : Bool) : Prop where
  partition : p = leaderPartition new r
  id : r.id = leaderId source
  status : r.status = some .assigned
  owner : r.owner = some owner
  progress : r.progress = some (leaderKind.text ⟨old⟩)
  forward : old = true → new = true
  prepared : new = true → Prepared source plans t

/-- What is known of a candidate. -/
structure Candidate.Fits (source : String) (plans : List (List Collection)) (t : Table)
    (c : Candidate) : Prop where
  ofSource : c.node.source = source
  plan : c.collections ∈ plans
  created : c.hasCreated = true → t.Has (leaderId source)
  tenure : ∀ p, c.held = some p → ∃ r old new, Tenure source plans c.node.owner t p r old new

namespace Campaign

/-- The leader partitions in hand. -/
def fleet (w : Campaign) : Fleet := ⟨w.table, w.now, w.candidates.map Candidate.hand⟩

/-- **The invariant.**  `flagged` is known to have come true: that the stored leader record says
that everything has been created. -/
structure Sound (source : String) (plans : List (List Collection)) (flagged : Prop)
    (w : Campaign) : Prop where
  coherent : Fleet.Coherent (leaderId source) (w.writes source) w.fleet
  exclusive : Fleet.Exclusive (leaderId source) w.fleet
  oneLeader : w.table.OneLeader source
  /-- The stored leader record says whether everything has been created, and is right. -/
  stored : ∀ r, w.table.find? (leaderId source) = some r → ∃ b,
    r.progress = some (leaderKind.text ⟨b⟩) ∧ (b = true → Prepared source plans w.table) ∧
      (flagged → b = true)
  kept : flagged → w.table.Has (leaderId source)
  fits : ∀ (i : Nat) (c : Candidate), w.candidates[i]? = some c → c.Fits source plans w.table

end Campaign

variable {source : String} {plans : List (List Collection)} {flagged : Prop} {t u : Table}

theorem Prepared.within (h : Prepared source plans t) (htu : t.Within u) :
    Prepared source plans u := by
  obtain ⟨plan, hmem, hready⟩ := h
  exact ⟨plan, hmem, fun c hc => (hready c hc).within htu⟩

theorem Tenure.within {owner : String} {p : Partition leaderKind} {r : Record} {old new : Bool}
    (h : Tenure source plans owner t p r old new) (htu : t.Within u) :
    Tenure source plans owner u p r old new :=
  { h with prepared := fun hnew => (h.prepared hnew).within htu }

theorem Candidate.Fits.within {c : Candidate} (h : c.Fits source plans t) (htu : t.Within u) :
    c.Fits source plans u where
  ofSource := h.ofSource
  plan := h.plan
  created hc := htu _ (h.created hc)
  tenure p hp := by
    obtain ⟨r, old, new, htenure⟩ := h.tenure p hp
    exact ⟨r, old, new, htenure.within htu⟩

/-- A candidate may drop what it has in hand. -/
theorem Candidate.Fits.dropped {c : Candidate} (h : c.Fits source plans t) :
    c.dropped.Fits source plans t :=
  { h with tenure := fun _ hp => nomatch hp }

/-- A candidate may renew it. -/
theorem Candidate.Fits.renewed {c : Candidate} {r : Record} {old new : Bool} {now : Instant}
    (h : c.Fits source plans t)
    (htenure : Tenure source plans c.node.owner t (leaderPartition new r) r old new) :
    (c.leading new (leaderMoved (.save c.settings.leaseExtension) now new r)).Fits source plans
      t where
  ofSource := h.ofSource
  plan := h.plan
  created := h.created
  tenure := by
    rintro _ ⟨⟩
    have hmoved := leaderMoved_save new now c.settings.leaseExtension
      htenure.status
    exact ⟨_, new, new, rfl, (id_leaderMoved _).trans htenure.id, hmoved ▸ htenure.status,
      hmoved ▸ htenure.owner, progress_leaderMoved _, id, htenure.prepared⟩

/-! ## What may happen to a fleet besides -/

namespace Fleet

variable {w : Fleet} {id : RecordId} {most : Nat}

/-- Another record is written. -/
theorem Coherent.elsewhere (hw : Coherent id most w) {t : Table} (hd : t.Distinct)
    (hsame : t.find? id = w.table.find? id) : Coherent id most { w with table := t } where
  distinct := hd
  bound s hs := hw.bound s (hsame ▸ hs)
  covered i r hr hid := by
    obtain ⟨s, hs, hcovers⟩ := hw.covered i r hr hid
    exact ⟨s, by rw [hid, hsame, ← hid, hs], hcovers⟩

theorem Exclusive.elsewhere (hw : Exclusive id w) {t : Table}
    (hsame : t.find? id = w.table.find? id) : Exclusive id { w with table := t } where
  apart := hw.apart
  stale i r s hr hid hs := hw.stale i r s hr hid (hsame ▸ hs)

/-- Something may be dropped. -/
theorem Exclusive.fewer (hw : Exclusive id w) {hands : List Hand}
    (hhands : ∀ i x, inHand ⟨w.table, w.now, hands⟩ i = some x → w.inHand i = some x) :
    Exclusive id ⟨w.table, w.now, hands⟩ where
  apart i j x y hx hy := hw.apart i j x y (hhands i x hx) (hhands j y hy)
  stale i x s hx := hw.stale i x s (hhands i x hx)

end Fleet

namespace Campaign

variable {w : Campaign} {i : Nat} {c c' : Candidate} {s s' : Frail}

theorem inHand_fleet (w : Campaign) (i : Nat) :
    w.fleet.inHand i = w.candidates[i]?.bind Candidate.record := by
  rw [fleet, Fleet.inHand, List.getElem?_map, Option.bind_map]
  exact congrArg (Option.bind w.candidates[i]?) (funext Candidate.record_hand)

theorem inHand_put_self (hi : i < w.candidates.length) :
    (w.put i c s).fleet.inHand i = c.record := by
  rw [inHand_fleet, put, List.getElem?_set_self hi, Option.bind_some]

theorem inHand_put_of_ne {j : Nat} (hj : j ≠ i) :
    (w.put i c s).fleet.inHand j = w.fleet.inHand j := by
  rw [inHand_fleet, inHand_fleet, put, List.getElem?_set_ne hj.symm]

theorem forall_put {P : Candidate → Prop} (hc : P c')
    (h : ∀ (j : Nat) (x : Candidate), (w.put i c s).candidates[j]? = some x → P x) :
    ∀ (j : Nat) (x : Candidate), (w.put i c' s').candidates[j]? = some x → P x := by
  intro j x hx
  have hx' : (w.candidates.set i c')[j]? = some x := hx
  by_cases hj : j = i
  · subst hj
    rw [List.getElem?_set_self'] at hx'
    obtain ⟨_, -, rfl⟩ := Option.map_eq_some_iff.mp hx'
    exact hc
  · rw [List.getElem?_set_ne fun h => hj h.symm] at hx'
    exact h j x ((List.getElem?_set_ne fun h => hj h.symm).trans hx')

/-- The table grows, and the leader's record stays as it is. -/
theorem Sound.grow (hw : Sound source plans flagged w) {t : Table} {h : List Exchange}
    (hgood : (Accord.sparing source).Good t) (hgrows : (Accord.sparing source).Grows w.table t)
    (hwrites : w.writes source ≤ writesIn (leaderId source) h) :
    Sound source plans flagged { w with table := t, history := h } where
  coherent := (hw.coherent.elsewhere hgood.1 hgrows.1).mono hwrites
  exclusive := hw.exclusive.elsewhere hgrows.1
  oneLeader := hgood.2
  stored r hr := by
    obtain ⟨b, hprogress, hprepared, hflagged⟩ := hw.stored r (hgrows.1 ▸ hr)
    exact ⟨b, hprogress, fun hb => (hprepared hb).within hgrows.2, hflagged⟩
  kept hflagged := hgrows.2 _ (hw.kept hflagged)
  fits j x hx := (hw.fits j x hx).within hgrows.2

/-- A candidate changes nothing but itself, and at most drops what it has in hand. -/
theorem Sound.settle (hw : Sound source plans flagged (w.put i c s)) (hi : i < w.candidates.length)
    (hrecord : c'.record = c.record ∨ c'.record = none)
    (hfits : c'.Fits source plans s.table) : Sound source plans flagged (w.put i c' s) := by
  have hhands : ∀ j x, (w.put i c' s).fleet.inHand j = some x →
      (w.put i c s).fleet.inHand j = some x := by
    intro j x hx
    by_cases hj : j = i
    · subst hj
      rw [inHand_put_self hi] at hx ⊢
      rcases hrecord with heq | hnone
      · rw [← heq, hx]
      · rw [hnone] at hx
        cases hx
    · rw [inHand_put_of_ne hj] at hx ⊢
      exact hx
  exact {
    coherent := hw.coherent.keep fun j x hx => ⟨j, hhands j x hx⟩
    exclusive := hw.exclusive.fewer hhands
    oneLeader := hw.oneLeader
    stored := hw.stored
    kept := hw.kept
    fits := forall_put hfits hw.fits }

/-- The leader's record is created. -/
theorem Sound.create (hw : Sound source plans flagged w) {r : Record} {h : List Exchange}
    (hid : r.id = leaderId source) (hfree : w.table.find? (leaderId source) = none)
    (hprogress : r.progress = some (leaderKind.text ⟨false⟩))
    (hwrites : w.writes source < writesIn (leaderId source) h) :
    Sound source plans flagged { w with table := w.table.insert r.firstVersion, history := h } := by
  have hfree' : w.table.find? r.firstVersion.id = none := (congrArg w.table.find? hid).trans hfree
  have hwithin : w.table.Within (w.table.insert r.firstVersion) := Table.within_insert hfree'
  have hnever : ¬ flagged := fun hflagged => by
    have hhas := hw.kept hflagged
    rw [Table.Has, hfree] at hhas
    cases hhas
  exact {
    coherent := (hw.coherent.mono (Nat.le_of_lt hwrites)).insert (Nat.one_le_of_lt hwrites) hfree'
    exclusive := hw.exclusive.insert hw.coherent hfree'
    oneLeader := hw.oneLeader.insert fun _ _ => congrArg RecordId.key hid
    stored := fun s hs => by
      have hnew := (Table.find?_insert hfree' (leaderId source)).trans (if_pos hid.symm)
      obtain rfl := Option.some.inj (hnew.symm.trans hs)
      exact ⟨false, hprogress, fun hb => absurd hb Bool.false_ne_true,
        fun hflagged => absurd hflagged hnever⟩
    kept := fun hflagged => absurd hflagged hnever
    fits := fun j x hx => (hw.fits j x hx).within hwithin }

/-- The next version of the leader's record is written by a candidate, who has it in hand then or
drops it.  Either the candidate held the stored record, or nobody has had it live. -/
theorem Sound.write (hw : Sound source plans flagged (w.put i c s)) (hi : i < w.candidates.length)
    {r old : Record} (hold : s.table.find? (leaderId source) = some old)
    (hid : r.id = leaderId source) (hversion : r.version = old.version + 1)
    (hwrites : writesIn (leaderId source) s.history + 1 = writesIn (leaderId source) s'.history)
    (hbound : writesIn (leaderId source) s'.history < UInt64.size)
    (htable : s'.table = s.table.replace r)
    (hrecord : c'.record = some r ∨ c'.record = none)
    (hmine : c.record = some old ∨ ¬ old.Live w.now)
    (hflag : ∃ b, r.progress = some (leaderKind.text ⟨b⟩) ∧
      (b = true → Prepared source plans s.table) ∧
      (old.progress = some (leaderKind.text ⟨true⟩) → b = true))
    (hfits : c'.Fits source plans s.table) : Sound source plans flagged (w.put i c' s') := by
  obtain ⟨t, h, faults⟩ := s'
  obtain rfl : t = s.table.replace r := htable
  have hold' : s.table.find? r.id = some old := hid ▸ hold
  have hwithin : s.table.Within (s.table.replace r) := Table.within_replace s.table r
  have hnew : (s.table.replace r).find? (leaderId source) = some r :=
    hid ▸ Table.find?_replace_self hold'
  have hmost : r.id = leaderId source → writesIn (leaderId source) s.history + 1 < UInt64.size :=
    fun _ => hwrites ▸ hbound
  -- Nothing has changed in any other hand.
  have hhands : ∀ j x,
      (w.put i c' ⟨s.table.replace r, h, faults⟩).fleet.inHand j = some x →
      (j ≠ i ∧ (w.put i c s).fleet.inHand j = some x) ∨ (j = i ∧ x = r) := by
    intro j x hx
    by_cases hj : j = i
    · subst hj
      rw [inHand_put_self hi] at hx
      rcases hrecord with hr | hnone
      · exact .inr ⟨rfl, Option.some.inj (hx.symm.trans hr)⟩
      · rw [hnone] at hx
        cases hx
    · rw [inHand_put_of_ne hj] at hx
      exact .inl ⟨hj, (inHand_put_of_ne hj).trans hx⟩
  -- Of two candidates only one can have the stored record in hand while it is live.
  have hothers : ∀ j, j ≠ i → old.id = leaderId source →
      (w.put i c s).fleet.inHand j = some old → ¬ old.Live w.now := by
    intro j hj hoid hjold
    rcases hmine with hc | hdead
    · have hiold : (w.put i c s).fleet.inHand i = some old := (inHand_put_self hi).trans hc
      exact absurd (hw.exclusive.apart j i old old hjold hiold hoid hoid rfl) hj
    · exact hdead
  have hcoherent := hw.coherent.replace hold' hversion hmost (fun j x hx =>
    (hhands j x hx).imp (fun h => ⟨j, h.2⟩) fun h => h.2)
  have hexclusive := hw.exclusive.replace hw.coherent hold' hversion hmost i hhands hothers
  exact {
    coherent := hcoherent.mono (Nat.le_of_eq hwrites)
    exclusive := hexclusive
    oneLeader := hw.oneLeader.replace fun _ _ => congrArg RecordId.key hid
    stored := fun x hx => by
      obtain ⟨b, hprogress, hprepared, hforward⟩ := hflag
      obtain rfl := Option.some.inj (hnew.symm.trans hx)
      refine ⟨b, hprogress, fun hb => (hprepared hb).within hwithin, fun hflagged => ?_⟩
      obtain ⟨b', hprogress', -, hb'⟩ := hw.stored old hold
      exact hforward (hb' hflagged ▸ hprogress')
    kept := fun _ => Table.has_of_find hnew
    fits := forall_put (hfits.within hwithin) fun j x hx => (hw.fits j x hx).within hwithin }

/-! ## Steps -/

theorem Sound.good (hw : Sound source plans flagged w) : (Accord.sparing source).Good w.table :=
  ⟨hw.coherent.distinct, hw.oneLeader⟩

/-- The stored record of the leader notes whether everything has been created. -/
theorem Sound.hasProgress (hw : Sound source plans flagged w) (r : Record)
    (hr : w.table.find? (leaderId source) = some r) :
    ∃ b, r.progress = some (leaderKind.text ⟨b⟩) := by
  obtain ⟨b, hprogress, -⟩ := hw.stored r hr
  exact ⟨b, hprogress⟩

/-- A request is answered and changes nothing. -/
theorem Sound.heard (hw : Sound source plans flagged (w.put i c s)) (x : Exchange)
    (faults : List (Option Failure)) :
    Sound source plans flagged (w.put i c ⟨s.table, s.history ++ [x], faults⟩) := by
  refine hw.grow hw.good (Accord.refl _ _) ?_
  rw [Chronicle.writesIn_concat]
  exact Nat.le_add_right _ _

theorem Sound.ensureCreated (hw : Sound source plans flagged (w.put i c s))
    (hi : i < w.candidates.length) : Sound source plans flagged
      (w.put i (c.kept (s.run w.now (c.ensureCreated (E := Interface.none)).run).1)
        (s.run w.now (c.ensureCreated (E := Interface.none)).run).2) := by
  have hfits := hw.fits i c (List.getElem?_set_self hi)
  have hid := Candidate.id_newRecord w.now hfits.ofSource
  -- A candidate that knows of the record: it is there, whatever else is known.
  have hmarked : ∀ {s' : Frail}, Sound source plans flagged (w.put i c s') →
      s'.table.Has (leaderId source) →
      Sound source plans flagged (w.put i (c.marked true) s') := fun hw' hhas =>
    hw'.settle hi (.inl rfl)
      { hw'.fits i c (List.getElem?_set_self hi) with created := fun _ => hhas }
  rcases Candidate.run_ensureCreated_cases w.now hfits.ofSource s with
    ⟨hcreated, hrun⟩ | ⟨failure, -, hrun⟩ | ⟨hfound, hrun⟩ | ⟨hfree, hrun⟩
  · rw [hrun]
    exact hmarked hw (hfits.created hcreated)
  · rw [hrun]
    exact hw
  · rw [hrun]
    exact hmarked (hw.heard _ _) hfound
  · rw [hrun]
    have hwrites : (Exchange.mk (.create (c.newRecord w.now)) (.ok true)).writes
        (leaderId source) = true := by
      rw [← hid]
      simp [Exchange.writes, Exchange.created?]
    refine hmarked (hw.create hid hfree rfl ?_) ?_
    · dsimp only
      rw [Frail.created, Chronicle.writesIn_concat, if_pos hwrites]
      exact Nat.lt_succ_self _
    · exact Table.has_of_find ((Table.find?_insert (hid ▸ hfree) _).trans (if_pos hid.symm))

theorem Sound.compete (hw : Sound source plans flagged (w.put i c s))
    (hi : i < w.candidates.length)
    (hbound : writesIn (leaderId source)
      (s.run w.now (c.compete (E := Interface.none)).run).2.history < UInt64.size) :
    Sound source plans flagged
      (w.put i (c.kept (s.run w.now (c.compete (E := Interface.none)).run).1)
        (s.run w.now (c.compete (E := Interface.none)).run).2) := by
  have hfits := hw.fits i c (List.getElem?_set_self hi)
  rcases Candidate.run_compete_cases w.now hw.good hfits.ofSource hw.hasProgress with
    hrun | ⟨failure, hrun⟩ | ⟨r, b, hr, havailable, hprogress, hrun⟩ | hrun
  · rw [hrun]
    exact hw
  · rw [hrun]
    exact hw
  · rw [hrun] at hbound ⊢
    obtain ⟨b', hprogress', hprepared, -⟩ := hw.stored r hr
    obtain rfl := eq_of_leaderText (hprogress.symm.trans hprogress')
    have hid : (r.claimed c.node.owner w.now c.node.lease).id = leaderId source :=
      (Table.find?_some hr).2
    have hwrites : (Exchange.mk (.claim c.node.source leaderKind.tag c.node.owner c.node.lease)
        (.ok (some (r.claimed c.node.owner w.now c.node.lease)))).writes (leaderId source) =
          true := by
      rw [← hid]
      simp [Exchange.writes, Exchange.rewrites, Exchange.rewritten?]
    refine hw.write hi hr hid rfl ?_ hbound rfl (.inl rfl)
      (.inr (Record.not_live_of_available havailable)) ⟨b, hprogress, hprepared, ?_⟩ ?_
    · dsimp only
      rw [Frail.claimed, Chronicle.writesIn_concat, if_pos hwrites]
    · exact fun htrue => eq_of_leaderText (hprogress.symm.trans htrue)
    · refine { hfits with tenure := ?_ }
      rintro _ ⟨⟩
      exact ⟨_, b, b, rfl, hid, rfl, rfl, hprogress, id, hprepared⟩
  · rw [hrun]
    exact hw.heard _ _

/-- A bootstrap leaves everything that is known as it is, and all its collections ready when it
succeeds. -/
theorem Sound.bootstrap (hw : Sound source plans flagged (w.put i c s))
    (hi : i < w.candidates.length) :
    Sound source plans flagged
        (w.put i c (s.run w.now (c.bootstrap (E := Interface.none)).run).2) ∧
      ∀ u, (s.run w.now (c.bootstrap (E := Interface.none)).run).1 = .ok u →
        Prepared source plans (s.run w.now (c.bootstrap (E := Interface.none)).run).2.table := by
  have hfits := hw.fits i c (List.getElem?_set_self hi)
  obtain ⟨hgood, hgrows, hready⟩ :=
    Frail.run_abides w.now (c.secures_bootstrap (E := Interface.none)) hw.good
  refine ⟨hw.grow hgood hgrows (Frail.writesIn_run_le _ _ s), fun u hu => ?_⟩
  exact ⟨c.collections, hfits.plan, hfits.ofSource ▸ hready u hu⟩

theorem Sound.initialize? (hw : Sound source plans flagged (w.put i c s))
    (hi : i < w.candidates.length) : Sound source plans flagged
      (w.put i (c.kept (s.run w.now (c.initialize? (E := Interface.none)).run).1)
        (s.run w.now (c.initialize? (E := Interface.none)).run).2) := by
  obtain ⟨hboot, hready⟩ := hw.bootstrap hi
  rw [Candidate.run_initialize?]
  cases hheld : c.held with
  | none => exact hw
  | some p =>
    dsimp only
    by_cases hinit : p.isInitialized = true
    · rw [if_pos hinit]
      exact hw
    · rw [if_neg hinit]
      generalize s.run w.now (c.bootstrap (E := Interface.none)).run = outcome at hboot hready ⊢
      obtain ⟨e | u, s'⟩ := outcome
      · exact hboot
      · have hfits := hboot.fits i c (List.getElem?_set_self hi)
        obtain ⟨r, old, new, htenure⟩ := hfits.tenure p hheld
        have hrecord : { c with held := some p.markInitialized }.record = c.record := by
          rw [Candidate.record, Candidate.record, hheld]
          rfl
        refine hboot.settle hi (.inl hrecord) { hfits with tenure := ?_ }
        rintro _ ⟨⟩
        refine ⟨r, old, true, { htenure with
          partition := ?_, forward := fun _ => rfl, prepared := fun _ => hready u rfl }⟩
        rw [htenure.partition]
        rfl

/-! ## Transitions of the leader partition -/

variable {r : Record} {new : Bool}

/-- The stored leader partition makes a transition, and its candidate keeps or drops it. -/
theorem Sound.written (hw : Sound source plans flagged (w.put i c s)) (hi : i < w.candidates.length)
    (t : Transition) {owner : String} {old : Bool} (hheld : c.held = some (leaderPartition new r))
    (htenure : Tenure source plans owner s.table (leaderPartition new r) r old new)
    (hs : s.table.find? r.id = some r)
    (hrecord : c'.record = some (leaderMoved t w.now new r) ∨ c'.record = none)
    (hfits : c'.Fits source plans s.table)
    (hbound : writesIn (leaderId source) (s.written t w.now new r).history < UInt64.size) :
    Sound source plans flagged (w.put i c' (s.written t w.now new r)) := by
  have hid : (leaderMoved t w.now new r).id = leaderId source := (id_leaderMoved t).trans htenure.id
  have hwrites : (Exchange.mk (.update (Node.proposal (leaderPartition new r) t w.now r))
      (.ok (leaderMoved t w.now new r))).writes (leaderId source) = true := by
    rw [← hid]
    simp [Exchange.writes, Exchange.rewrites, Exchange.rewritten?]
  refine hw.write hi (htenure.id ▸ hs) hid (version_leaderMoved t) ?_ hbound rfl hrecord
    (.inl (Candidate.record_of_held hheld))
    ⟨new, progress_leaderMoved t, htenure.prepared, fun htrue => ?_⟩ hfits
  · rw [Frail.written, Chronicle.writesIn_concat, if_pos hwrites]
  · exact htenure.forward (eq_of_leaderText (htenure.progress.symm.trans htrue))

/-- A leader partition of the stored version is the stored one. -/
theorem Sound.stored_of_version (hw : Sound source plans flagged (w.put i c s))
    (hi : i < w.candidates.length) (hrecord : c.record = some r) (hid : r.id = leaderId source)
    {x : Record} (hx : s.table.find? r.id = some x) (hversion : x.version = r.version) :
    s.table.find? r.id = some r := by
  have hhand : (w.put i c s).fleet.inHand i = some r := (inHand_put_self hi).trans hrecord
  have hcoherent := hw.coherent
  rw [← hid] at hcoherent
  rw [hx, hcoherent.eq_of_version hhand hx hversion]

/-- A transition of the leader partition in hand fails before it is answered, or finds its record
stored, or finds another version. -/
theorem Sound.transition_cases (hw : Sound source plans flagged (w.put i c s))
    (hi : i < w.candidates.length) (hrecord : c.record = some r) (hid : r.id = leaderId source) :
    (∃ failure, s.fault? = some failure) ∨
      (s.fault? = none ∧ s.table.find? r.id = some r) ∨
      (s.fault? = none ∧ ∀ x, s.table.find? r.id = some x → x.version ≠ r.version) := by
  cases hfault : s.fault? with
  | some failure => exact .inl ⟨failure, rfl⟩
  | none =>
    by_cases hcurrent : ∃ x, s.table.find? r.id = some x ∧ x.version = r.version
    · obtain ⟨x, hx, hversion⟩ := hcurrent
      exact .inr (.inl ⟨rfl, hw.stored_of_version hi hrecord hid hx hversion⟩)
    · exact .inr (.inr ⟨rfl, fun x hx hversion => hcurrent ⟨x, hx, hversion⟩⟩)

theorem Sound.renew (hw : Sound source plans flagged (w.put i c s)) (hi : i < w.candidates.length)
    (hbound : writesIn (leaderId source)
      (s.run w.now (c.renew (E := Interface.none))).2.history < UInt64.size) :
    Sound source plans flagged (w.put i (s.run w.now (c.renew (E := Interface.none))).1
      (s.run w.now (c.renew (E := Interface.none))).2) := by
  have hfits := hw.fits i c (List.getElem?_set_self hi)
  cases hheld : c.held with
  | none =>
    rw [Candidate.run_renew, hheld]
    exact hw
  | some p =>
    obtain ⟨r, old, new, htenure⟩ := hfits.tenure p hheld
    obtain rfl := htenure.partition
    rcases hw.transition_cases hi (Candidate.record_of_held hheld) htenure.id with
      ⟨failure, hfault⟩ | ⟨hfault, hs⟩ | ⟨hfault, hs⟩
    · rw [Candidate.run_renew, hheld]
      dsimp only
      rw [Frail.run_transition_of_fault _ hfault]
      dsimp only
      split
      · exact hw.settle hi (.inr rfl) hfits.dropped
      · exact hw
    · rw [Candidate.run_renew_of_current w.now hheld hfault hs] at hbound ⊢
      exact hw.written hi _ hheld htenure hs (.inl rfl) (hfits.renewed htenure) hbound
    · rw [Candidate.run_renew_of_stale w.now hheld hfault hs]
      exact (hw.heard _ _).settle hi (.inr rfl) hfits.dropped

theorem Sound.stepDown (hw : Sound source plans flagged (w.put i c s))
    (hi : i < w.candidates.length)
    (hbound : writesIn (leaderId source)
      (s.run w.now (c.stepDown (E := Interface.none))).2.history < UInt64.size) :
    Sound source plans flagged (w.put i (s.run w.now (c.stepDown (E := Interface.none))).1
      (s.run w.now (c.stepDown (E := Interface.none))).2) := by
  have hfits := hw.fits i c (List.getElem?_set_self hi)
  cases hheld : c.held with
  | none =>
    rw [Candidate.run_stepDown, hheld]
    exact hw
  | some p =>
    obtain ⟨r, old, new, htenure⟩ := hfits.tenure p hheld
    obtain rfl := htenure.partition
    rcases hw.transition_cases hi (Candidate.record_of_held hheld) htenure.id with
      ⟨failure, hfault⟩ | ⟨hfault, hs⟩ | ⟨hfault, hs⟩
    · rw [Candidate.run_stepDown, hheld]
      dsimp only
      rw [Frail.run_transition_of_fault _ hfault]
      exact hw.settle hi (.inr rfl) hfits.dropped
    · rw [Candidate.run_stepDown_of_current w.now hheld hfault hs] at hbound ⊢
      exact hw.written hi _ hheld htenure hs (.inr rfl) hfits.dropped hbound
    · rw [Candidate.run_stepDown_of_stale w.now hheld hfault hs]
      exact (hw.heard _ _).settle hi (.inr rfl) hfits.dropped

/-! ## Moves -/

/-- The steps before the renewal keep the invariant, whatever goes wrong on the way. -/
theorem Sound.lead (hw : Sound source plans flagged (w.put i c s)) (hi : i < w.candidates.length)
    (hbound : writesIn (leaderId source)
      (s.run w.now (c.lead (E := Interface.none))).2.history < UInt64.size) :
    Sound source plans flagged (w.put i (s.run w.now (c.lead (E := Interface.none))).1
      (s.run w.now (c.lead (E := Interface.none))).2) := by
  -- A step may count on the invariant only as long as the versions have not wrapped around.
  refine Candidate.takeSteps_induction (motive := fun c s =>
      writesIn (leaderId source) s.history < UInt64.size → Sound source plans flagged (w.put i c s))
    (fun step hstep c s hcs hbound => ?_) (fun _ => hw) hbound
  have hw := hcs (Nat.lt_of_le_of_lt (Frail.writesIn_run_le _ _ s) hbound)
  simp only [List.mem_cons, List.not_mem_nil, or_false] at hstep
  rcases hstep with rfl | rfl | rfl
  · exact hw.ensureCreated hi
  · exact hw.compete hi hbound
  · exact hw.initialize? hi

/-- **A pass keeps the invariant**, whatever goes wrong on the way. -/
theorem Sound.pass (hw : Sound source plans flagged (w.put i c s)) (hi : i < w.candidates.length)
    (hbound : writesIn (leaderId source)
      (s.run w.now (c.pass (E := Interface.none))).2.history < UInt64.size) :
    Sound source plans flagged (w.put i (s.run w.now (c.pass (E := Interface.none))).1
      (s.run w.now (c.pass (E := Interface.none))).2) := by
  rw [Candidate.run_pass] at hbound ⊢
  exact (hw.lead hi (Nat.lt_of_le_of_lt (Frail.writesIn_run_le _ _ _) hbound)).renew hi hbound

theorem put_self (hi : w.candidates[i]? = some c) (faults : List (Option Failure)) :
    w.put i c (w.store faults) = w := by
  have hset : w.candidates.set i c = w.candidates := by
    obtain ⟨h, rfl⟩ := List.getElem?_eq_some_iff.mp hi
    exact List.set_getElem_self h
  rw [put, hset]
  rfl

theorem play_of_some {act : Candidate → Program (Node.interface Interface.none) Candidate}
    {faults : List (Option Failure)} (hi : w.candidates[i]? = some c) :
    w.play i faults act =
      w.put i ((w.store faults).run w.now (act c)).1 ((w.store faults).run w.now (act c)).2 := by
  rw [play, hi]

theorem play_of_none {act : Candidate → Program (Node.interface Interface.none) Candidate}
    {faults : List (Option Failure)} (hi : w.candidates[i]? = none) : w.play i faults act = w := by
  rw [play, hi]

theorem writes_le_play (w : Campaign) (i : Nat) (faults : List (Option Failure))
    (act : Candidate → Program (Node.interface Interface.none) Candidate) :
    w.writes source ≤ (w.play i faults act).writes source := by
  cases hi : w.candidates[i]? with
  | none => rw [play_of_none hi]
  | some c =>
    rw [play_of_some hi]
    exact Frail.writesIn_run_le _ _ (w.store faults)

/-- The writes of the leader's record only get more. -/
theorem writes_le_step (w : Campaign) (m : Move source) :
    w.writes source ≤ (w.step m).writes source := by
  cases m with
  | pass i faults => exact writes_le_play w i faults _
  | stepDown i faults => exact writes_le_play w i faults _
  | tick t => exact Nat.le_refl _
  | other request spares => exact Frail.writesIn_ask_le _ request (w.store [])

theorem writes_le_foldl (w : Campaign) (moves : List (Move source)) :
    w.writes source ≤ (moves.foldl step w).writes source := by
  induction moves generalizing w with
  | nil => exact Nat.le_refl _
  | cons m rest ih => exact Nat.le_trans (writes_le_step w m) (ih (w.step m))

/-- **Every move keeps the invariant.** -/
theorem Sound.step (hw : Sound source plans flagged w) (m : Move source)
    (hbound : (w.step m).writes source < UInt64.size) :
    Sound source plans flagged (w.step m) := by
  cases m with
  | pass i faults =>
    cases hi : w.candidates[i]? with
    | none =>
      rw [Campaign.step, play_of_none hi]
      exact hw
    | some c =>
      rw [Campaign.step, play_of_some hi] at hbound ⊢
      rw [← put_self hi faults] at hw
      exact hw.pass (List.getElem?_eq_some_iff.mp hi).1 hbound
  | stepDown i faults =>
    cases hi : w.candidates[i]? with
    | none =>
      rw [Campaign.step, play_of_none hi]
      exact hw
    | some c =>
      rw [Campaign.step, play_of_some hi] at hbound ⊢
      rw [← put_self hi faults] at hw
      exact hw.stepDown (List.getElem?_eq_some_iff.mp hi).1 hbound
  | tick t =>
    have hnow : w.now ≤ if w.now ≤ t then t else w.now := by
      split
      · assumption
      · exact Instant.le_refl _
    exact {
      coherent := hw.coherent.keep fun j x hx => ⟨j, hx⟩
      exclusive := hw.exclusive.keep hnow fun _ => rfl
      oneLeader := hw.oneLeader
      stored := hw.stored
      kept := hw.kept
      fits := hw.fits }
  | other request spares =>
    have hkeeps := (Accord.sparing source).keeps w.now hw.good spares
    exact hw.grow hkeeps.1 hkeeps.2 (Frail.writesIn_ask_le _ request (w.store []))

theorem Sound.foldl (hw : Sound source plans flagged w) (moves : List (Move source))
    (hbound : (moves.foldl Campaign.step w).writes source < UInt64.size) :
    Sound source plans flagged (moves.foldl Campaign.step w) := by
  induction moves generalizing w with
  | nil => exact hw
  | cons m rest ih =>
    have hfirst := Nat.lt_of_le_of_lt (writes_le_foldl (w.step m) rest) hbound
    exact ih (hw.step m hfirst) hbound

theorem run_append (source : String) (start : Instant) (entrants : List Entrant)
    (moves more : List (Move source)) : run source start entrants (moves ++ more) =
      more.foldl Campaign.step (run source start entrants moves) := List.foldl_append

theorem sound_starting (source : String) (start : Instant) (entrants : List Entrant) :
    Sound source (entrants.map Entrant.collections) False (starting source start entrants) := by
  have hinHand : ∀ i x, (starting source start entrants).fleet.inHand i = some x → False := by
    intro i x hx
    rw [inHand_fleet, starting, List.getElem?_map] at hx
    cases hi : entrants[i]? with
    | none => rw [hi] at hx; cases hx
    | some e => rw [hi] at hx; cases hx
  exact {
    coherent := ⟨Table.distinct_empty, fun _ h => (nomatch h), fun i x hx => (hinHand i x hx).elim⟩
    exclusive := ⟨fun i _ x _ hx => (hinHand i x hx).elim, fun i x _ hx => (hinHand i x hx).elim⟩
    oneLeader := fun _ h => nomatch h
    stored := fun _ h => nomatch h
    kept := False.elim
    fits := fun i c hc => by
      rw [starting, List.getElem?_map] at hc
      obtain ⟨e, he, rfl⟩ := Option.map_eq_some_iff.mp hc
      exact ⟨rfl, List.mem_map_of_mem (List.mem_of_getElem? he), (fun h => nomatch h),
        fun _ h => nomatch h⟩ }

/-- **The invariant holds after any moves**, as long as the leader's record has been written fewer
than `2^64` times. -/
theorem sound_run (source : String) (start : Instant) (entrants : List Entrant)
    (moves : List (Move source))
    (hbound : (run source start entrants moves).writes source < UInt64.size) :
    Sound source (entrants.map Entrant.collections) False (run source start entrants moves) :=
  (sound_starting source start entrants).foldl moves hbound

end Campaign

end LeasedWork
