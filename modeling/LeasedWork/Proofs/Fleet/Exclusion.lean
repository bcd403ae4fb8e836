import LeasedWork.Proofs.Fleet.Coherence

/-! # Mutual exclusion

A partition in hand is *live* while its own record says that it is assigned and its lease has not
run out (`Record.Live`); this is all that its holder can know.  At any time at most one partition
of an identity is live, and what is stored is exactly the record behind it (`Fleet.exclusion`):
whatever the nodes do and in whatever order, also through partitions whose lease was lost or given
back.

The invariant (`Fleet.Exclusive`) is that no two places hold the same version of a record, and that
a record in hand that is no longer the stored one is not live.  A record stops being the stored one
when another takes its place.  That is either its own holder's write, or a claim, and a claim takes
no record that is live.
-/
namespace LeasedWork

namespace Record

/-- Assigned, with a lease that has not run out. -/
def Live (now : Instant) (r : Record) : Prop :=
  r.status = some .assigned ∧ ∃ expiry, r.leaseExpiry = some expiry ∧ now < expiry

theorem not_live_of_available {now : Instant} {r : Record} (h : r.isAvailable now = true) :
    ¬ r.Live now := by
  rintro ⟨hstatus, expiry, hexpiry, hlt⟩
  have hnot : ¬ expiry ≤ now := fun hle => Instant.not_le.mpr hlt hle
  simp [isAvailable, availability, hstatus, hasPassed, hexpiry, Instant.hasElapsed, hnot] at h

/-- What is not live does not become so as time goes on. -/
theorem Live.of_later {now later : Instant} (hle : now ≤ later) {r : Record} (h : r.Live later) :
    r.Live now := by
  obtain ⟨hstatus, expiry, hexpiry, hlt⟩ := h
  refine ⟨hstatus, expiry, hexpiry, ?_⟩
  rw [Instant.le_def] at hle
  rw [Instant.lt_def] at *
  omega

end Record

namespace Fleet

/-- No two places hold one version of an identity's record, and nothing of it in hand but what is
stored is live. -/
structure Exclusive (id : RecordId) (w : Fleet) : Prop where
  apart : ∀ i j r r', w.inHand i = some r → w.inHand j = some r' → r.id = id → r'.id = id →
    r.version = r'.version → i = j
  stale : ∀ i r s, w.inHand i = some r → r.id = id → w.table.find? id = some s → r ≠ s →
    ¬ r.Live w.now

variable {w : Fleet} {id : RecordId} {most : Nat}

theorem lt_of_inHand {i : Nat} {r : Record} (h : w.inHand i = some r) : i < w.hands.length := by
  obtain ⟨x, hx, -⟩ := Option.bind_eq_some_iff.mp h
  exact (List.getElem?_eq_some_iff.mp hx).1

theorem exclusive_starting (id : RecordId) (now : Instant) : Exclusive id (starting now) where
  apart _ _ _ _ h := nomatch h
  stale _ _ _ h := nomatch h

namespace Exclusive

/-- A new record under a free identity. -/
theorem insert {t : Table} {now : Instant} {hands : List Hand} (hw : Exclusive id ⟨t, now, hands⟩)
    (hc : Coherent id most ⟨t, now, hands⟩) {r : Record} (hfree : t.find? r.id = none) :
    Exclusive id ⟨t.insert r.firstVersion, now, hands⟩ where
  apart := hw.apart
  stale i x s hx hid hs hne := by
    obtain ⟨sx, hsx, -⟩ := hc.covered i x hx hid
    rw [hid] at hsx
    have hsx' := Table.find?_insert_of_stored (r := r.firstVersion) hfree hsx
    obtain rfl : sx = s := Option.some.inj (hsx'.symm.trans hs)
    exact hw.stale i x sx hx hid hsx hne

/-- The next version of a stored record is written, and comes into hand at one place at most. At
every other place the stored record was not live. -/
theorem replace (hw : Exclusive id w) (hc : Coherent id most w) {r s : Record}
    (hs : w.table.find? r.id = some s) (hversion : r.version = s.version + 1)
    (hmost : r.id = id → most + 1 < UInt64.size) {hands : List Hand} (place : Nat)
    (hhands : ∀ i x, inHand ⟨w.table, w.now, hands⟩ i = some x →
      (i ≠ place ∧ w.inHand i = some x) ∨ (i = place ∧ x = r))
    (hother : ∀ i, i ≠ place → s.id = id → w.inHand i = some s → ¬ s.Live w.now) :
    Exclusive id ⟨w.table.replace r, w.now, hands⟩ := by
  have hnew : (w.table.replace r).find? r.id = some r := Table.find?_replace_self hs
  -- Whatever of this identity was in hand before is of an earlier version.
  have hearlier : ∀ i x, w.inHand i = some x → x.id = id → r.id = id → x.version ≠ r.version := by
    intro i x hx hxid hid heq
    have hsucc := Coherent.toNat_succ (hc.bound s (hid ▸ hs)) (hmost hid)
    obtain ⟨sx, hsx, hcovers⟩ := hc.covered i x hx hxid
    rw [hxid, ← hid, hs] at hsx
    obtain rfl := Option.some.inj hsx
    have hle : x.version.toNat ≤ s.version.toNat := by
      rcases hcovers with rfl | hlt
      · exact Nat.le_refl _
      · exact Nat.le_of_lt (UInt64.lt_iff_toNat_lt.mp hlt)
    rw [heq, hversion, hsucc] at hle
    exact absurd hle (Nat.not_succ_le_self _)
  constructor
  · intro i j x y hx hy hxid hyid heq
    rcases hhands i x hx with ⟨-, hold⟩ | ⟨hi, rfl⟩ <;>
      rcases hhands j y hy with ⟨-, hold'⟩ | ⟨hj, rfl⟩
    · exact hw.apart i j x y hold hold' hxid hyid heq
    · exact absurd heq (hearlier i x hold hxid hyid)
    · exact absurd heq.symm (hearlier j y hold' hyid hxid)
    · exact hi.trans hj.symm
  · intro i x sx hx hxid hsx hne
    rcases hhands i x hx with ⟨hplace, hold⟩ | ⟨-, rfl⟩
    · by_cases hid : id = r.id
      · by_cases hxs : x = s
        · subst x
          exact hother i hplace hxid hold
        · exact hw.stale i x s hold hxid (hid ▸ hs) hxs
      · rw [Table.find?_replace_of_ne hid] at hsx
        exact hw.stale i x sx hold hxid hsx hne
    · exact absurd (Option.some.inj (hnew.symm.trans (hxid ▸ hsx))) hne

/-- Nothing is written and nothing changes in hand, while time may go on. -/
theorem keep (hw : Exclusive id w) {now : Instant} (hnow : w.now ≤ now) {hands : List Hand}
    (hhands : ∀ i, inHand ⟨w.table, now, hands⟩ i = w.inHand i) :
    Exclusive id ⟨w.table, now, hands⟩ where
  apart i j x y hx hy := hw.apart i j x y (hhands i ▸ hx) (hhands j ▸ hy)
  stale i x s hx hid hs hne hlive := hw.stale i x s (hhands i ▸ hx) hid hs hne (hlive.of_later hnow)

/-- After a claim. -/
theorem claimed (hw : Exclusive id w) (hc : Coherent id most w) {n : Node} {kind : String}
    {lease : Span} {w' : Fleet} (hclaim : Claimed w n kind lease w')
    (hmost : w'.table.find? id ≠ w.table.find? id → most + 1 < UInt64.size) : Exclusive id w' := by
  cases hclaim with
  | none => exact hw
  | some r hands hr _ _ havailable hhands =>
    have hs : w.table.find? (r.claimed n.owner w.now lease).id = some r :=
      (Table.find?_iff hc.distinct).mpr ⟨hr, rfl⟩
    refine hw.replace hc hs rfl ?_ w.hands.length (fun i x hx => ?_)
      fun _ _ _ _ => Record.not_live_of_available havailable
    · rintro rfl
      exact hmost (Table.find?_replace_ne hs rfl)
    · rcases hhands with rfl | ⟨new, hnew, rfl⟩
      · exact .inl ⟨Nat.ne_of_lt (lt_of_inHand hx), hx⟩
      · rcases inHand_append hx with hx | ⟨hi, hx⟩
        · exact .inl ⟨Nat.ne_of_lt (lt_of_inHand hx), hx⟩
        · exact .inr ⟨hi, Option.some.inj (hx.symm.trans hnew)⟩

/-- After a transition. -/
theorem transition (hw : Exclusive id w) (hc : Coherent id most w) (i : Nat) (t : Transition)
    (hmost : (w.transition i t).table.find? id ≠ w.table.find? id → most + 1 < UInt64.size) :
    Exclusive id (w.transition i t) := by
  by_cases hm : ∃ h r, w.Moves i t h r
  · obtain ⟨h, r, hm⟩ := hm
    obtain ⟨s, hs, hversion⟩ := hm.current
    rw [transition_of_moves hm] at hmost ⊢
    have hstored : w.table.find? (h.moved t w.now r).id = some s := by rw [Hand.id_moved, hs]
    have hnext : (h.moved t w.now r).version = s.version + 1 := by rw [Hand.version_moved, hversion]
    refine hw.replace hc hstored hnext ?_ i (fun j x hx => ?_) fun j hj hid hjs => ?_
    · rintro rfl
      exact hmost (Table.find?_replace_ne hstored hnext)
    · rcases inHand_set hx with ⟨hj, hx⟩ | ⟨hj, hx⟩
      · exact .inl ⟨hj, hx⟩
      · exact .inr ⟨hj, Option.some.inj (hx.symm.trans (Hand.record_adopt h _))⟩
    · have hrid : r.id = id := (Table.find?_some hs).2.symm.trans hid
      exact absurd (hw.apart j i s r hjs hm.inHand hid hrid hversion) hj
  · rw [transition_of_not_moves fun h r hmove => hm ⟨h, r, hmove⟩]
    exact hw

/-- **Every deed keeps the invariant.** -/
theorem after (hw : Exclusive id w) (hc : Coherent id most w) (d : Deed)
    (hmost : (w.after d).table.find? id ≠ w.table.find? id → most + 1 < UInt64.size) :
    Exclusive id (w.after d) := by
  have hinsert : ∀ (t : Table) (r : Record),
      Coherent id (most + 1) ⟨t, w.now, w.hands⟩ ∧ Exclusive id ⟨t, w.now, w.hands⟩ →
      t.find? r.id = none →
      Coherent id (most + 1) ⟨t.insert r.firstVersion, w.now, w.hands⟩ ∧
        Exclusive id ⟨t.insert r.firstVersion, w.now, w.hands⟩ :=
    fun t r ht hfree => ⟨ht.1.insert (Nat.succ_pos most) hfree, ht.2.insert ht.1 hfree⟩
  have hboth := And.intro (hc.mono (Nat.le_succ most)) hw
  cases d with
  | create n p => exact (create_induction hinsert hboth n p).2
  | createEach n kind progress keys =>
    exact (createEach_induction hinsert hboth n kind progress keys).2
  | claim n k lease => exact hw.claimed hc (after_claim w n k lease) hmost
  | claimAny n f tag lease => exact hw.claimed hc (after_claimAny w n f tag lease) hmost
  | save n i extension => exact hw.transition hc i _ hmost
  | complete i => exact hw.transition hc i _ hmost
  | close i reopenAfter limit => exact hw.transition hc i _ hmost
  | giveUp i => exact hw.transition hc i _ hmost
  | revise i change => exact hw.keep (Instant.le_refl _) fun j => inHand_revise i change j
  | tick t =>
    refine hw.keep ?_ fun _ => rfl
    split
    · assumption
    · exact Instant.le_refl _

end Exclusive

/-- What holds of an identity after any deeds, as long as its version cannot have wrapped
around. -/
theorem coherent_and_exclusive (hc : Coherent id most w) (hw : Exclusive id w) (deeds : List Deed)
    (h : most + writes id w deeds < UInt64.size) :
    Coherent id (most + writes id w deeds) (deeds.foldl after w) ∧
      Exclusive id (deeds.foldl after w) := by
  induction deeds generalizing w most with
  | nil => exact ⟨hc, hw⟩
  | cons d rest ih =>
    rw [writes] at h ⊢
    rw [List.foldl_cons]
    have hmost (hne : (w.after d).table.find? id ≠ w.table.find? id) : most + 1 < UInt64.size := by
      rw [if_neg hne] at h
      omega
    have hc' := hc.after d hmost
    have hw' := hw.after hc d hmost
    by_cases hsame : (w.after d).table.find? id = w.table.find? id
    · rw [if_pos hsame, Nat.zero_add] at h ⊢
      exact ih (hc.of_same hc' hsame) hw' h
    · rw [if_neg hsame, ← Nat.add_assoc] at h ⊢
      exact ih hc' hw' h

/-- **Mutual exclusion.**  Any number of nodes share one table and one clock, and do any deeds in
any order.  Then of the partitions in hand that have one identity at most one is live, and the
stored record is exactly the one behind it: its owner, version, lease and progress.

This holds of every identity whose record is written fewer than `2^64` times.  A version is a word,
so after that many writes the first one would come round again. -/
theorem exclusion (start : Instant) (deeds : List Deed) (id : RecordId)
    (h : writes id (starting start) deeds < UInt64.size) :
    (∀ i j r r', (run start deeds).inHand i = some r → (run start deeds).inHand j = some r' →
      r.id = id → r'.id = id → r.Live (run start deeds).now → r'.Live (run start deeds).now →
        i = j) ∧
    ∀ i r, (run start deeds).inHand i = some r → r.id = id → r.Live (run start deeds).now →
      (run start deeds).table.find? id = some r := by
  obtain ⟨hc, hw⟩ := coherent_and_exclusive (coherent_starting id start)
    (exclusive_starting id start) deeds (by rwa [Nat.zero_add])
  have hstored : ∀ i r, (run start deeds).inHand i = some r → r.id = id →
      r.Live (run start deeds).now → (run start deeds).table.find? id = some r := by
    intro i r hr hid hlive
    obtain ⟨s, hs, -⟩ := hc.covered i r hr hid
    rw [hid] at hs
    by_cases hrs : r = s
    · exact hs.trans (congrArg some hrs.symm)
    · exact absurd hlive (hw.stale i r s hr hid hs hrs)
  refine ⟨?_, hstored⟩
  intro i j r r' hr hr' hid hid' hlive hlive'
  -- Both are the stored record, and no two places hold one version of it.
  have heq : r = r' :=
    Option.some.inj ((hstored i r hr hid hlive).symm.trans (hstored j r' hr' hid' hlive'))
  exact hw.apart i j r r' hr hr' hid hid' (congrArg Record.version heq)

/-- A node claims a record for a minute, and another one claims it when the minute is over. The
first then asks for a further minute. -/
def takenLate : List Deed :=
  let first : Node := ⟨"db", "node-a", .seconds 60⟩
  let second : Node := ⟨"db", "node-b", .seconds 60⟩
  [.createEach first "WORK" none ["a"],
    .claimAny first Factory.bare "WORK" none,
    .tick (Instant.epoch.after (.seconds 60)),
    .claimAny second Factory.bare "WORK" none,
    .save first 0 none]

/-- Both nodes then have the record in hand, each as its own. What the second has is live and
stored, and so what the first has is not live. -/
theorem exclusion_takenLate : ∃ old new,
    (run .epoch takenLate).inHand 0 = some old ∧ (run .epoch takenLate).inHand 1 = some new ∧
      old.id = new.id ∧ old.owner = some "node-a" ∧ new.owner = some "node-b" ∧
      new.Live (run .epoch takenLate).now ∧ ¬ old.Live (run .epoch takenLate).now ∧
      (run .epoch takenLate).table.find? new.id = some new := by
  let minute := Instant.epoch.after (.seconds 60)
  let old : Record := (Record.unassigned ⟨"db", "WORK", "a"⟩ none .epoch).firstVersion.claimed
    "node-a" .epoch (.seconds 60)
  let new : Record := old.claimed "node-b" minute (.seconds 60)
  have hold : (run .epoch takenLate).inHand 0 = some old := by decide +kernel
  have hnew : (run .epoch takenLate).inHand 1 = some new := by decide +kernel
  have hlive : new.Live (run .epoch takenLate).now :=
    ⟨rfl, minute.after (.seconds 60), rfl, by decide +kernel⟩
  have hwrites : writes new.id (starting .epoch) takenLate < UInt64.size :=
    Nat.lt_of_le_of_lt (writes_le_length _ _ _) (by decide)
  obtain ⟨hone, hstored⟩ := exclusion .epoch takenLate new.id hwrites
  have hstale : ¬ old.Live (run .epoch takenLate).now := fun hstill =>
    absurd (hone 0 1 old new hold hnew rfl rfl hstill hlive) (by decide)
  exact ⟨old, new, hold, hnew, rfl, rfl, rfl, hlive, hstale, hstored 1 new hnew rfl hlive⟩

end Fleet

end LeasedWork
