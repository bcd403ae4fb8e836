import LeasedWork.Proofs.Store.Versions
import LeasedWork.Proofs.Text.Bytes

/-! # Claims one after the other

A claim assigns the record that is first in line.  If its lease lasts beyond the time of the claim,
the record is no longer available then, and the others are in line as before
(`Table.candidates_replace_claimed`).  So claims that are repeated at one time hand out the
available records of a kind, each of them once and in the order of claims, and after that nothing
(`Backend.drained`).  The deadline of a claim must be one that the backend gives back as it was, or
else the record that is stored is not quite the one that the claim has given.
-/
namespace LeasedWork

/-! ## The order of claims -/

namespace Record

/-- **The order of claims.**  Records whose lease has run out are claimed first, then those that
were never assigned or given up, then those that are to be opened again.  Within such a group the
older record is claimed first, and of equally old ones that of the lesser key, as bytes go. -/
def ClaimedBefore (now : Instant) (a b : Record) : Prop :=
  a.Expired now ∧ (b.status = some .unassigned ∨ b.Reopened now) ∨
  a.status = some .unassigned ∧ b.Reopened now ∨
  (a.Expired now ∧ b.Expired now ∨ a.status = some .unassigned ∧ b.status = some .unassigned ∨
      a.Reopened now ∧ b.Reopened now) ∧
    (a.createdAt < b.createdAt ∨
      a.createdAt = b.createdAt ∧ Percent.bytes a.key < Percent.bytes b.key)

theorem claimedBefore_of_precedes {now : Instant} {a b : Availability × Record}
    (ha : a.2.availability now = some a.1) (hb : b.2.availability now = some b.1)
    (hkey : a.2.key ≠ b.2.key) (h : Availability.precedes a b = true) :
    ClaimedBefore now a.2 b.2 := by
  obtain ⟨x, a⟩ := a
  obtain ⟨y, b⟩ := b
  obtain ⟨hexpired, hunassigned, hreopened⟩ := @availability_iff now a
  obtain ⟨hexpired', hunassigned', hreopened'⟩ := @availability_iff now b
  rw [ClaimedBefore, ← hexpired, ← hexpired', ← hunassigned, ← hunassigned', ← hreopened,
    ← hreopened']
  dsimp only at ha hb hkey
  rw [ha, hb]
  rcases Availability.precedes_iff.mp h with hrank | ⟨hrank, holder⟩
  · cases x <;> cases y <;> simp [Availability.rank] at hrank ⊢
  · obtain rfl : x = y := Availability.rank_injective hrank
    refine .inr (.inr ⟨by cases x <;> simp, ?_⟩)
    refine (isOlder_iff.mp holder).imp_right fun hold => ⟨hold.1, ?_⟩
    exact Percent.bytes_lt_iff.mpr
      (String.not_le.mp fun hle => hkey (String.le_antisymm hold.2 hle))

/-- A record is not available at the time of its claim, if the lease lasts beyond it. -/
theorem availability_claimed {now : Instant} {lease : Span} (h : now < now.after lease)
    (owner : String) (r : Record) : (r.claimed owner now lease).availability now = none := by
  have hnot : ¬ now.after lease ≤ now := fun hle => Instant.not_le.mpr h hle
  simp [availability, claimed, assign, nextVersion, hasPassed, Instant.hasElapsed, hnot]

end Record

section Order

variable {now : Instant} {rs : List Record}

/-- The offers, without their reasons, are the available records. -/
theorem map_offers (now : Instant) (rs : List Record) :
    (offers now rs).map Prod.snd = rs.filter (·.isAvailable now) := by
  induction rs with
  | nil => rfl
  | cons r rest ih =>
    rw [offers] at ih ⊢
    cases h : r.availability now with
    | none => simp [Record.isAvailable, h, ih]
    | some a => simp [Record.isAvailable, h, ih]

/-- The candidates are the available records, in another order. -/
theorem candidates_perm (now : Instant) (rs : List Record) :
    (candidates now rs).Perm (rs.filter (·.isAvailable now)) :=
  map_offers now rs ▸ (List.mergeSort_perm (offers now rs) _).map Prod.snd

theorem pairwise_offers (now : Instant) (rs : List Record) :
    ((offers now rs).mergeSort Availability.precedes).Pairwise
      fun a b => Availability.precedes a b = true :=
  List.pairwise_mergeSort Availability.precedes_trans Availability.precedes_total _

/-- Offers that are in order already are claimed as they come. -/
theorem candidates_of_pairwise
    (h : (offers now rs).Pairwise fun a b => Availability.precedes a b = true) :
    candidates now rs = (offers now rs).map Prod.snd :=
  congrArg (List.map Prod.snd) (List.mergeSort_of_pairwise h)

variable (hkeys : (rs.map Record.key).Nodup)

include hkeys

theorem nodup_keys_candidates (now : Instant) : ((candidates now rs).map Record.key).Nodup :=
  ((candidates_perm now rs).map _).nodup_iff.mpr (hkeys.sublist (List.filter_sublist.map _))

theorem pairwise_candidates (now : Instant) :
    (candidates now rs).Pairwise (Record.ClaimedBefore now) := by
  have hdistinct : (candidates now rs).Pairwise fun r r' => r.key ≠ r'.key :=
    List.pairwise_map.mp (nodup_keys_candidates hkeys now)
  rw [candidates, List.pairwise_map] at hdistinct
  refine List.pairwise_map.mpr (((pairwise_offers now rs).and hdistinct).imp_of_mem ?_)
  intro a b ha hb hab
  exact Record.claimedBefore_of_precedes (mem_offers.mp (List.mem_mergeSort.mp ha)).2
    (mem_offers.mp (List.mem_mergeSort.mp hb)).2 hab.2 hab.1

/-- If some of the offers are withdrawn, the others stay in line. -/
theorem candidates_of_filter {rs' : List Record} {p : Record → Bool}
    (h : offers now rs' = (offers now rs).filter fun x => p x.2) :
    candidates now rs' = (candidates now rs).filter p := by
  have hsame : (offers now rs').mergeSort Availability.precedes =
      ((offers now rs).mergeSort Availability.precedes).filter fun x => p x.2 := by
    refine List.Perm.eq_of_pairwise ?_ (pairwise_offers now rs')
      ((pairwise_offers now rs).filter _) ?_
    · intro a b ha hb hab hba
      have hb' := List.mem_mergeSort.mp (List.mem_filter.mp hb).1
      have ha' : a ∈ offers now rs := (List.mem_filter.mp (h ▸ List.mem_mergeSort.mp ha)).1
      obtain ⟨hreason, hkey⟩ := Availability.key_eq_of_precedes hab hba
      exact Prod.ext hreason (List.inj_on_of_nodup_map hkeys (mem_offers.mp ha').1
        (mem_offers.mp hb').1 hkey)
    · exact (List.mergeSort_perm _ _).trans
        (h ▸ ((List.mergeSort_perm (offers now rs) _).filter _).symm)
  change ((offers now rs').mergeSort _).map Prod.snd =
    (((offers now rs).mergeSort _).map Prod.snd).filter p
  rw [hsame, List.filter_map]
  rfl

end Order

/-! ## One claim -/

namespace Table

variable {t : Table} {source kind : String} {now : Instant} {r : Record} {rest : List Record}

/-- Within a source and kind, records are told apart by their keys. -/
theorem nodup_keys (hd : t.Distinct) (source kind : String) :
    ((t.ofKind source kind).map Record.key).Nodup := by
  refine List.Nodup.map_on ?_ ((List.Nodup.of_map _ hd).filter _)
  intro r hr r' hr' hkey
  obtain ⟨hmem, hsource, hkind⟩ := mem_ofKind.mp hr
  obtain ⟨hmem', hsource', hkind'⟩ := mem_ofKind.mp hr'
  refine List.inj_on_of_nodup_map hd hmem hmem' ?_
  rw [Record.id, Record.id, hsource, hsource', hkind, hkind', hkey]

/-- A replaced record stays in its source and kind. -/
theorem ofKind_replace (t : Table) (r : Record) (source kind : String) :
    (t.replace r).ofKind source kind =
      (t.ofKind source kind).map fun old => if old.id = r.id then r else old := by
  rw [ofKind, replace, List.filter_map]
  congr 1
  refine List.filter_congr fun old _ => ?_
  by_cases hid : old.id = r.id
  · have hsource : r.source = old.source := congrArg RecordId.source hid.symm
    have hkind : r.kind = old.kind := congrArg RecordId.kind hid.symm
    simp [hid, hsource, hkind]
  · simp [hid]

/-- **A claim takes the first record out of the line**, and leaves the others in it. -/
theorem candidates_replace_claimed (hd : t.Distinct)
    (hc : candidates now (t.ofKind source kind) = r :: rest) (owner : String) {lease : Span}
    (hlease : now < now.after lease) :
    candidates now ((t.replace (r.claimed owner now lease)).ofKind source kind) = rest := by
  have hkeys := nodup_keys hd source kind
  let isOther (x : Record) : Bool := x.id != r.id
  -- The lease lasts beyond the time of the claim, so that the record is no longer on offer.
  have hwithdrawn : offers now ((t.replace (r.claimed owner now lease)).ofKind source kind) =
      (offers now (t.ofKind source kind)).filter fun x => isOther x.2 := by
    rw [ofKind_replace, offers, offers, List.filterMap_map, List.filter_filterMap]
    refine List.filterMap_congr fun old _ => ?_
    rw [Function.comp]
    by_cases hid : old.id = r.id
    · have hclaimed : old.id = (r.claimed owner now lease).id := hid
      rw [if_pos hclaimed, Record.availability_claimed hlease]
      cases old.availability now <;> simp [Option.filter, isOther, hid]
    · have hother : ¬ old.id = (r.claimed owner now lease).id := hid
      rw [if_neg hother]
      cases old.availability now <;> simp [Option.filter, isOther, hid]
  -- Nothing stands in line twice, so that the rest is all of the others.
  have hrest : ∀ x ∈ rest, isOther x = true := by
    have hnodup := nodup_keys_candidates hkeys now
    rw [hc, List.map_cons, List.nodup_cons] at hnodup
    refine fun x hx => bne_iff_ne.mpr fun hid => hnodup.1 ?_
    exact List.mem_map.mpr ⟨x, hx, congrArg RecordId.key hid⟩
  rw [candidates_of_filter hkeys hwithdrawn, hc, List.filter_cons_of_neg (by simp [isOther]),
    List.filter_eq_self.mpr hrest]

end Table

namespace Backend

variable {b : Backend} {s : b.State} {t : Table} {source kind : String} {now : Instant}

/-- A claim that finds nothing changes nothing. -/
theorem Holds.claim_of_nil (h : b.Holds s t) (hc : candidates now (t.ofKind source kind) = [])
    (owner : String) (lease : Span) :
    b.serve ⟨now, .claim source kind owner lease⟩ s = (.ok none, s) := by
  cases b with
  | table =>
    obtain ⟨rfl, -⟩ := h
    simp only [Backend.serve, Table.answer, hc]
  | objects root =>
    rw [Backend.serve, ObjectStore.serve, ObjectStore.job, Program.run_exceptT_bind,
      ObjectStore.run_readAll h.readable]
    dsimp only
    rw [ObjectStore.run_now, h.candidates_allOf, hc]
    rfl

/-- A claim assigns the record that is first in line. -/
theorem Holds.claim_of_cons (h : b.Holds s t) {r : Record} {rest : List Record}
    (hc : candidates now (t.ofKind source kind) = r :: rest) (owner : String) (lease : Span) :
    ∃ s', b.serve ⟨now, .claim source kind owner lease⟩ s =
        (.ok (some (r.claimed owner now lease)), s') ∧
      (b.Keeps now → b.Holds s' (t.replace (r.claimed owner now lease))) := by
  have hanswer : t.answer now (.claim source kind owner lease) =
      (.ok (some (r.claimed owner now lease)), t.replace (r.claimed owner now lease)) := by
    simp only [Table.answer, hc]
  obtain ⟨hagree, hholds⟩ := h.serve ⟨now, .claim source kind owner lease⟩
  rw [hanswer] at hagree
  refine ⟨_, Prod.ext (Eq.symm hagree) rfl, fun hnow => ?_⟩
  have hkept : ∀ time ∈ Call.times ⟨now, .claim source kind owner lease⟩, b.Keeps time :=
    List.forall_mem_singleton.mpr hnow
  rwa [h.afterCall_of_keeps hkept, Table.afterCall, hanswer] at hholds

/-! ## Repeated claims -/

/-- A state after the same call has been made so many times. -/
def repeated (b : Backend) (call : Call) (s : b.State) : Nat → b.State
  | 0 => s
  | m + 1 => (b.serve call (b.repeated call s m)).2

/-- After some claims, the others are still in line. -/
theorem Holds.repeated_claim (h : b.Holds s t) (hnow : b.Keeps now) (source kind owner : String)
    {lease : Span} (hlease : now < now.after lease) (m : Nat) : ∃ u,
      b.Holds (b.repeated ⟨now, .claim source kind owner lease⟩ s m) u ∧
      candidates now (u.ofKind source kind) = (candidates now (t.ofKind source kind)).drop m := by
  induction m with
  | zero => exact ⟨t, h, rfl⟩
  | succ m ih =>
    obtain ⟨u, hholds, hline⟩ := ih
    rw [← List.drop_drop, ← hline, repeated]
    cases hc : candidates now (u.ofKind source kind) with
    | nil =>
      rw [hholds.claim_of_nil hc owner lease]
      exact ⟨u, hholds, hc⟩
    | cons r rest =>
      obtain ⟨s', hserve, hholds'⟩ := hholds.claim_of_cons hc owner lease
      rw [hserve]
      exact ⟨_, hholds' hnow, u.candidates_replace_claimed hholds.distinct hc owner hlease⟩

/-- **Claims drain the line.**  A backend holds any records, and claims of one kind are repeated at
one time that it keeps, with a lease that lasts beyond it.  Then there is a list of records, which
are those of the kind that are available at that time, each once and in the order of claims, so that
the claim of every number

* gives the record of that number, assigned to its new owner until the lease ends.  Up to then it
  was stored as it had been from the start; all other records stay as they are;
* gives nothing, and leaves the backend as it is, if there are no more records in the list. -/
theorem drained (b : Backend) {s : b.State} {t : Table} (h : b.Holds s t)
    (source kind owner : String) {now : Instant} (hnow : b.Keeps now) {lease : Span}
    (hlease : now < now.after lease) : ∃ rs : List Record,
      (∀ r, r ∈ rs ↔ t.find? r.id = some r ∧ r.source = source ∧ r.kind = kind ∧
        r.Claimable now) ∧
      rs.Nodup ∧ rs.Pairwise (Record.ClaimedBefore now) ∧
      ∀ m, ∃ u, b.Holds (b.repeated ⟨now, .claim source kind owner lease⟩ s m) u ∧
        match rs[m]? with
        | some r =>
          let claimed := { r with
            status := some .assigned, owner := some owner, leaseExpiry := some (now.after lease),
            reopenAt := none, version := r.version + 1 }
          u.find? r.id = some r ∧ ∃ s' u',
            b.serve ⟨now, .claim source kind owner lease⟩
              (b.repeated ⟨now, .claim source kind owner lease⟩ s m) = (.ok (some claimed), s') ∧
            b.Holds s' u' ∧
            ∀ id, u'.find? id = if id = r.id then some claimed else u.find? id
        | none =>
          b.serve ⟨now, .claim source kind owner lease⟩
            (b.repeated ⟨now, .claim source kind owner lease⟩ s m) =
              (.ok none, b.repeated ⟨now, .claim source kind owner lease⟩ s m) := by
  have hkeys := Table.nodup_keys h.distinct source kind
  refine ⟨candidates now (t.ofKind source kind), fun r => ?_,
    List.Nodup.of_map _ (nodup_keys_candidates hkeys now), pairwise_candidates hkeys now,
    fun m => ?_⟩
  · rw [mem_candidates, Table.mem_ofKind, Table.find?_iff h.distinct, Record.isAvailable_iff]
    simp only [and_true, and_assoc]
  · obtain ⟨u, hholds, hline⟩ := h.repeated_claim hnow source kind owner hlease m
    refine ⟨u, hholds, ?_⟩
    -- The claim of number m meets what the m claims before it have left of the line.
    rw [← List.head?_drop, ← hline]
    cases hc : candidates now (u.ofKind source kind) with
    | nil => exact hholds.claim_of_nil hc owner lease
    | cons r rest =>
      have hmem := (mem_candidates.mp (hc ▸ List.mem_cons_self)).1
      have hstored : u.find? r.id = some r :=
        (Table.find?_iff hholds.distinct).mpr ⟨(Table.mem_ofKind.mp hmem).1, rfl⟩
      obtain ⟨s', hserve, hholds'⟩ := hholds.claim_of_cons hc owner lease
      exact ⟨hstored, s', _, hserve, hholds' hnow, Table.find?_replace_of_stored hstored⟩

/-- Work that waits, work whose lease has run out, work that is to be opened again, and work that is
held for another minute. -/
def shelf : Table :=
  let minute := Instant.epoch.after (.seconds 60)
  let waiting (key : String) : Record := .unassigned ⟨"db", "WORK", key⟩ none .epoch
  ⟨[waiting "a", (waiting "b").assign "node-b" .epoch,
    { waiting "c" with status := some .closed, reopenAt := some .epoch },
    (waiting "d").assign "node-d" (minute.after (.seconds 60))]⟩

/-- Three claims, after a minute, take everything from the shelf but what is held. -/
theorem drained_shelf :
    let call : Call :=
      ⟨Instant.epoch.after (.seconds 60), .claim "db" "WORK" "node-a" (.seconds 60)⟩
    Backend.table.serve call (Backend.table.repeated call shelf 3) =
      (.ok none, Backend.table.repeated call shelf 3) := by
  intro call
  have hholds : Backend.table.Holds shelf shelf := ⟨rfl, by unfold Table.Distinct; decide⟩
  have hlease : call.now < call.now.after (.seconds 60) := by decide
  obtain ⟨rs, hmem, hnodup, -, hclaims⟩ :=
    Backend.table.drained hholds "db" "WORK" "node-a" trivial hlease
  have hperm : rs.Perm (shelf.rows.filter fun r =>
      r.source == "db" && r.kind == "WORK" && r.isAvailable call.now) := by
    refine (List.perm_ext_iff_of_nodup hnodup ?_).mpr fun r => ?_
    · exact (List.Nodup.of_map _ hholds.distinct).filter _
    · rw [hmem, Table.find?_iff hholds.distinct, ← Record.isAvailable_iff]
      simp [and_assoc]
  have hlength : rs.length = 3 := hperm.length_eq.trans (by decide)
  obtain ⟨_, -, hlast⟩ := hclaims 3
  rwa [List.getElem?_eq_none hlength.le] at hlast

end Backend

end LeasedWork
