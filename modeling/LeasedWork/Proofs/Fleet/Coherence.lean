import LeasedWork.Proofs.Fleet.Runs

/-! # What is in hand was once stored

A record in hand is the stored one of its identity, or an older version of it
(`Fleet.Coherent`).  Each deed raises a version by at most one, so this holds of an identity until
its versions wrap around, which takes `2^64` writes of its record.  Up to then a version in hand
that is the stored one stands for the stored record itself (`Fleet.Coherent.eq_of_version`), and a
write through any partition in hand is a write by someone who has seen the last one.
-/
namespace LeasedWork

namespace Fleet

/-- A record is stored as it is in hand, or in a later version. -/
def Covers (t : Table) (r : Record) : Prop :=
  ∃ s, t.find? r.id = some s ∧ (r = s ∨ r.version < s.version)

/-- Records of an identity in hand are covered by the table, where its version is at most `most`. -/
structure Coherent (id : RecordId) (most : Nat) (w : Fleet) : Prop where
  distinct : w.table.Distinct
  bound : ∀ s, w.table.find? id = some s → s.version.toNat ≤ most
  covered : ∀ i r, w.inHand i = some r → r.id = id → Covers w.table r

variable {w : Fleet} {id : RecordId} {most : Nat}

theorem coherent_starting (id : RecordId) (now : Instant) : Coherent id 0 (starting now) where
  distinct := Table.distinct_empty
  bound _ h := nomatch h
  covered _ _ h := nomatch h

namespace Coherent

theorem mono (hw : Coherent id most w) {more : Nat} (h : most ≤ more) : Coherent id more w :=
  ⟨hw.distinct, fun s hs => Nat.le_trans (hw.bound s hs) h, hw.covered⟩

/-- **A version in hand that is stored stands for the stored record.** -/
theorem eq_of_version {i : Nat} {r s : Record} (hw : Coherent r.id most w)
    (hr : w.inHand i = some r) (hs : w.table.find? r.id = some s)
    (hversion : s.version = r.version) : r = s := by
  obtain ⟨s', hs', hcovers⟩ := hw.covered i r hr rfl
  obtain rfl : s = s' := Option.some.inj (hs.symm.trans hs')
  exact hcovers.resolve_right fun hlt => UInt64.lt_irrefl _ (hversion ▸ hlt)

/-- A partition that makes a transition has the stored record behind it. -/
theorem stored_of_moves {i : Nat} {t : Transition} {h : Hand} {r : Record}
    (hw : Coherent r.id most w) (hm : w.Moves i t h r) : w.table.find? r.id = some r := by
  obtain ⟨s, hs, hversion⟩ := hm.current
  obtain rfl : r = s := hw.eq_of_version hm.inHand hs hversion
  exact hs

/-- A new record under a free identity. -/
theorem insert {t : Table} {now : Instant} {hands : List Hand}
    (hw : Coherent id most ⟨t, now, hands⟩) (hmost : 1 ≤ most) {r : Record}
    (hfree : t.find? r.id = none) : Coherent id most ⟨t.insert r.firstVersion, now, hands⟩ where
  distinct := Table.distinct_insert hw.distinct hfree
  bound s hs := by
    have hfree' : t.find? r.firstVersion.id = none := hfree
    rw [Table.find?_insert hfree'] at hs
    split at hs
    · cases hs
      exact hmost
    · exact hw.bound s hs
  covered i x hx hid := by
    obtain ⟨s, hs, hcovers⟩ := hw.covered i x hx hid
    exact ⟨s, Table.find?_insert_of_stored (r := r.firstVersion) hfree hs, hcovers⟩

theorem toNat_succ {v : UInt64} {n : Nat} (hv : v.toNat ≤ n) (hn : n + 1 < UInt64.size) :
    (v + 1).toNat = v.toNat + 1 := by
  have h : (v + 1).toNat = (v.toNat + 1) % 2 ^ 64 := UInt64.toNat_add v 1
  rw [h, Nat.mod_eq_of_lt]
  exact Nat.lt_of_le_of_lt (Nat.add_le_add_right hv 1) hn

/-- The next version of a stored record is written. -/
theorem replace (hw : Coherent id most w) {r s : Record} (hs : w.table.find? r.id = some s)
    (hversion : r.version = s.version + 1) (hmost : r.id = id → most + 1 < UInt64.size)
    {hands : List Hand} (hhands : ∀ i x, inHand ⟨w.table, w.now, hands⟩ i = some x →
      (∃ j, w.inHand j = some x) ∨ x = r) :
    Coherent id (most + 1) ⟨w.table.replace r, w.now, hands⟩ := by
  have hnew : (w.table.replace r).find? r.id = some r := Table.find?_replace_self hs
  have hsucc (hid : r.id = id) : r.version.toNat = s.version.toNat + 1 := by
    rw [hversion]
    exact toNat_succ (hw.bound s (hid ▸ hs)) (hmost hid)
  refine ⟨Table.distinct_replace hw.distinct r, ?_, ?_⟩
  · intro x hx
    by_cases hid : id = r.id
    · have hle := hw.bound s (hid ▸ hs)
      obtain rfl : r = x := Option.some.inj (hnew.symm.trans (hid ▸ hx))
      rw [hsucc hid.symm]
      omega
    · rw [Table.find?_replace_of_ne hid] at hx
      exact Nat.le_succ_of_le (hw.bound x hx)
  · intro i x hx hxid
    rcases hhands i x hx with ⟨j, hold⟩ | rfl
    · obtain ⟨sx, hsx, hcovers⟩ := hw.covered j x hold hxid
      by_cases hid : x.id = r.id
      · -- The stored record was at least as late as the one in hand, and the new one is later.
        refine ⟨r, hid ▸ hnew, .inr ?_⟩
        rw [hid, hs] at hsx
        obtain rfl := Option.some.inj hsx
        rw [UInt64.lt_iff_toNat_lt, hsucc (hid.symm.trans hxid)]
        rcases hcovers with rfl | hlt
        · exact Nat.lt_succ_self _
        · exact Nat.lt_succ_of_lt (UInt64.lt_iff_toNat_lt.mp hlt)
      · exact ⟨sx, (Table.find?_replace_of_ne hid).trans hsx, hcovers⟩
    · exact ⟨x, hnew, .inl rfl⟩

/-- Nothing is written, and nothing else comes into hand. -/
theorem keep (hw : Coherent id most w) {now : Instant} {hands : List Hand}
    (hhands : ∀ i x, inHand ⟨w.table, now, hands⟩ i = some x → ∃ j, w.inHand j = some x) :
    Coherent id most ⟨w.table, now, hands⟩ where
  distinct := hw.distinct
  bound := hw.bound
  covered i x hx hid := by
    obtain ⟨j, hj⟩ := hhands i x hx
    exact hw.covered j x hj hid

/-- After a claim. -/
theorem claimed (hw : Coherent id most w) {n : Node} {kind : String} {lease : Span} {w' : Fleet}
    (hc : Claimed w n kind lease w')
    (hmost : w'.table.find? id ≠ w.table.find? id → most + 1 < UInt64.size) :
    Coherent id (most + 1) w' := by
  cases hc with
  | none => exact hw.mono (Nat.le_succ _)
  | some r hands hr _ _ _ hhands =>
    have hs : w.table.find? (r.claimed n.owner w.now lease).id = some r :=
      (Table.find?_iff hw.distinct).mpr ⟨hr, rfl⟩
    refine hw.replace hs rfl ?_ fun i x hx => ?_
    · rintro rfl
      exact hmost (Table.find?_replace_ne hs rfl)
    · rcases hhands with rfl | ⟨new, hnew, rfl⟩
      · exact .inl ⟨i, hx⟩
      · rcases inHand_append hx with hx | ⟨-, hx⟩
        · exact .inl ⟨i, hx⟩
        · exact .inr (Option.some.inj (hx.symm.trans hnew))

/-- After a transition. -/
theorem transition (hw : Coherent id most w) (i : Nat) (t : Transition)
    (hmost : (w.transition i t).table.find? id ≠ w.table.find? id → most + 1 < UInt64.size) :
    Coherent id (most + 1) (w.transition i t) := by
  by_cases hm : ∃ h r, w.Moves i t h r
  · obtain ⟨h, r, hm⟩ := hm
    obtain ⟨s, hs, hversion⟩ := hm.current
    rw [transition_of_moves hm] at hmost ⊢
    have hstored : w.table.find? (h.moved t w.now r).id = some s := by rw [Hand.id_moved, hs]
    have hnext : (h.moved t w.now r).version = s.version + 1 := by rw [Hand.version_moved, hversion]
    refine hw.replace hstored hnext ?_ fun j x hx => ?_
    · rintro rfl
      exact hmost (Table.find?_replace_ne hstored hnext)
    · rcases inHand_set hx with ⟨-, hx⟩ | ⟨-, hx⟩
      · exact .inl ⟨j, hx⟩
      · exact .inr (Option.some.inj (hx.symm.trans (Hand.record_adopt h _)))
  · rw [transition_of_not_moves fun h r hmove => hm ⟨h, r, hmove⟩]
    exact hw.mono (Nat.le_succ _)

/-- **Every deed keeps records in hand covered**, and raises a version by at most one. -/
theorem after (hw : Coherent id most w) (d : Deed)
    (hmost : (w.after d).table.find? id ≠ w.table.find? id → most + 1 < UInt64.size) :
    Coherent id (most + 1) (w.after d) := by
  have hw' := hw.mono (Nat.le_succ most)
  have hinsert : ∀ (t : Table) (r : Record), Coherent id (most + 1) ⟨t, w.now, w.hands⟩ →
      t.find? r.id = none → Coherent id (most + 1) ⟨t.insert r.firstVersion, w.now, w.hands⟩ :=
    fun t r ht hfree => ht.insert (Nat.succ_pos most) hfree
  cases d with
  | create n p => exact create_induction hinsert hw' n p
  | createEach n kind progress keys => exact createEach_induction hinsert hw' n kind progress keys
  | claim n k lease => exact hw.claimed (after_claim w n k lease) hmost
  | claimAny n f tag lease => exact hw.claimed (after_claimAny w n f tag lease) hmost
  | save n i extension => exact hw.transition i _ hmost
  | complete i => exact hw.transition i _ hmost
  | close i reopenAfter limit => exact hw.transition i _ hmost
  | giveUp i => exact hw.transition i _ hmost
  | revise i change =>
    refine hw'.keep fun j x hx => ⟨j, ?_⟩
    rwa [inHand_revise] at hx
  | tick t => exact hw'.keep fun j x hx => ⟨j, hx⟩

/-- A deed that does not write the record raises no version. -/
theorem of_same (hw : Coherent id most w) {w' : Fleet} (hw' : Coherent id (most + 1) w')
    (hsame : w'.table.find? id = w.table.find? id) : Coherent id most w' :=
  ⟨hw'.distinct, fun s hs => hw.bound s (hsame ▸ hs), hw'.covered⟩

end Coherent

end Fleet

end LeasedWork
