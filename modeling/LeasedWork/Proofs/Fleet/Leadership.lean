import LeasedWork.Proofs.Fleet.Campaigns

/-! # One leader

Whether a node leads is known in two places: each candidate has a leader partition in hand or none,
and there is one stored leader record.  Several candidates may believe that they lead, but only one
of them has a partition of the stored version (`Campaign.IsCurrent`), and whoever does not learns of
it at its next pass without writing anything (`Campaign.Passed`).  A pass after which a candidate
leads leaves exactly the stored record in its hands, with the lease just renewed.

What a pass comes to is read off its steps one after the other; that a partition of the stored
version is the stored one is the invariant of `LeasedWork.Proofs.Fleet.Campaigns`.
-/
namespace LeasedWork

namespace Campaign

variable {source : String} {plans : List (List Collection)} {flagged : Prop} {w : Campaign}
  {i : Nat} {c c' : Candidate} {s : Frail}

/-- The stored leader record. -/
def stored (source : String) (w : Campaign) : Option Record := w.table.find? (leaderId source)

/-- The candidate at a place has a leader partition of the stored version in hand. -/
def IsCurrent (source : String) (w : Campaign) (i : Nat) : Prop :=
  ∃ c r s, w.candidates[i]? = some c ∧ c.record = some r ∧ w.stored source = some s ∧
    r.version = s.version

/-- What a pass of a candidate makes of its leadership when nothing goes wrong. -/
structure Passed (source : String) (i : Nat) (c : Candidate) (w w' : Campaign) (c' : Candidate) :
    Prop where
  candidate : w'.candidates[i]? = some c'
  /-- Who leads has the stored record in hand, and the lease just renewed. -/
  leads : c'.isLeader = true → ∃ r, c'.record = some r ∧ w'.stored source = some r ∧
    r.status = some .assigned ∧ r.owner = some c.node.owner ∧
    r.leaseExpiry = some (w.now.after c.settings.leaseExtension)
  /-- Who had nothing in hand leads if the leadership was free. -/
  elected : c.isLeader = false → (c'.isLeader = true ↔
    w.stored source = none ∨ ∃ r, w.stored source = some r ∧ r.isAvailable w.now = true)
  /-- Who was superseded learns of it, and does no harm. -/
  superseded : c.isLeader = true → ¬ w.IsCurrent source i →
    c'.isLeader = false ∧ w'.stored source = w.stored source

/-- What stepping down makes of it. -/
structure SteppedDown (source : String) (i : Nat) (w w' : Campaign) (c' : Candidate) : Prop where
  candidate : w'.candidates[i]? = some c'
  idle : c'.isLeader = false
  released : w.IsCurrent source i → ∃ r r', w.stored source = some r ∧ w'.stored source = some r' ∧
    r'.status = some .unassigned ∧ r'.owner = none ∧ r'.leaseExpiry = none ∧
    r'.version = r.version + 1
  kept : ¬ w.IsCurrent source i → w'.stored source = w.stored source

theorem candidate_put (hi : i < w.candidates.length) : (w.put i c s).candidates[i]? = some c :=
  List.getElem?_set_self hi

theorem inHand_of_record {r : Record} (hi : w.candidates[i]? = some c)
    (hrecord : c.record = some r) : w.fleet.inHand i = some r := by
  rw [inHand_fleet, hi, Option.bind_some, hrecord]

theorem Sound.id_of_record (hw : Sound source plans flagged w) {r : Record}
    (hi : w.candidates[i]? = some c) (hrecord : c.record = some r) : r.id = leaderId source := by
  obtain ⟨p, hp, hpr⟩ := Option.bind_eq_some_iff.mp hrecord
  obtain ⟨r', _, _, htenure⟩ := (hw.fits i c hi).tenure p hp
  obtain rfl := htenure.partition
  obtain rfl : r' = r := Option.some.inj hpr
  exact htenure.id

/-- A leader partition in hand is of the stored version just when its record is the stored one. -/
theorem Sound.isCurrent_iff (hw : Sound source plans flagged w) {r : Record}
    (hi : w.candidates[i]? = some c) (hrecord : c.record = some r) (hid : r.id = leaderId source) :
    w.IsCurrent source i ↔ w.stored source = some r := by
  constructor
  · rintro ⟨c', r', x, hi', hrecord', hx, hversion⟩
    obtain rfl := Option.some.inj (hi.symm.trans hi')
    obtain rfl := Option.some.inj (hrecord.symm.trans hrecord')
    have hcoherent := hw.coherent
    rw [Campaign.stored, ← hid] at hx ⊢
    rw [← hid] at hcoherent
    rw [hx, hcoherent.eq_of_version (inHand_of_record hi hrecord) hx hversion.symm]
  · exact fun hr => ⟨c, r, r, hi, hrecord, hr, rfl⟩

/-- If another record is stored, it is of another version. -/
theorem Sound.version_ne (hw : Sound source plans flagged w) {r : Record}
    (hi : w.candidates[i]? = some c) (hrecord : c.record = some r) (hid : r.id = leaderId source)
    (hr : w.stored source ≠ some r) {x : Record} (hx : w.table.find? r.id = some x) :
    x.version ≠ r.version := by
  rw [hid] at hx
  exact fun hversion => hr
    ((hw.isCurrent_iff hi hrecord hid).mp ⟨c, r, x, hi, hrecord, hx, hversion.symm⟩)

/-- Who renews its lease has the stored record in hand, and leads. -/
theorem leads_renewed {r : Record} (new : Bool) (hs : s.table.find? (leaderId source) = some r)
    (hid : r.id = leaderId source) (hstatus : r.status = some .assigned) (now : Instant) :
    let c' := c.leading new (leaderMoved (.save c.settings.leaseExtension) now new r)
    let s' := s.written (.save c.settings.leaseExtension) now new r
    ∃ r', c'.record = some r' ∧ s'.table.find? (leaderId source) = some r' ∧
      r'.status = some .assigned ∧ r'.owner = r.owner ∧
      r'.leaseExpiry = some (now.after c.settings.leaseExtension) := by
  have hmoved := leaderMoved_save new now c.settings.leaseExtension hstatus
  refine ⟨_, rfl, ?_, ?_⟩
  · rw [← hid] at hs ⊢
    exact Frail.find_written _ hs
  · rw [hmoved]
    exact ⟨hstatus, rfl, rfl⟩

/-- A pass of a candidate that does not lead. -/
theorem Sound.passed_of_idle (hw : Sound source plans flagged w) (hi : w.candidates[i]? = some c)
    (hheld : c.held = none) :
    ∃ c', Passed source i c w (w.step (.pass i [] : Move source)) c' := by
  obtain ⟨hlt, -⟩ := List.getElem?_eq_some_iff.mp hi
  have hfits := hw.fits i c hi
  have hpass : w.step (.pass i [] : Move source) = _ := play_of_some hi
  have hidle : ¬ c.isLeader = true := by
    rw [Candidate.isLeader, hheld]
    exact Bool.false_ne_true
  rw [hpass, Candidate.run_pass]
  -- Whether the record is to be had decides whether the candidate comes to lead.
  by_cases hfree : ∀ r, w.stored source = some r → r.isAvailable w.now = true
  · obtain ⟨b, r, hlead, hfaults, hs, hid, hstatus, howner⟩ := Candidate.run_lead_of_free
      w.now (s := w.store []) hw.good hfits.ofSource hfits.created rfl hheld
      fun r hr => ⟨hfree r hr, hw.hasProgress r hr⟩
    have hrenew := Candidate.run_renew_of_current w.now
      (c := (c.marked true).leading b r) rfl (by rw [Frail.fault?, hfaults]; rfl) (hid ▸ hs)
    rw [hlead, hrenew]
    refine ⟨_, candidate_put hlt, fun _ => ?_, fun _ => iff_of_true rfl ?_,
      fun hleader => absurd hleader hidle⟩
    · obtain ⟨r', hrecord, hs', hstatus', howner', hexpiry⟩ :=
        leads_renewed (c := (c.marked true).leading b r) b hs hid hstatus w.now
      exact ⟨r', hrecord, hs', hstatus', howner'.trans howner, hexpiry⟩
    · cases hstored : w.stored source with
      | none => exact .inl rfl
      | some x => exact .inr ⟨x, rfl, hfree x hstored⟩
  · obtain ⟨r, hr⟩ := not_forall.mp hfree
    obtain ⟨hr, htaken⟩ := Classical.not_imp.mp hr
    have hlead := Candidate.run_lead_of_taken w.now (s := w.store []) hw.good
      hfits.ofSource hfits.created rfl hheld hr htaken
    have hidle' : (c.marked true).held = none := hheld
    rw [hlead, Candidate.run_renew, hidle']
    refine ⟨_, candidate_put hlt, fun hleader => absurd hleader hidle,
      fun _ => iff_of_false hidle ?_, fun hleader => absurd hleader hidle⟩
    rintro (hnone | ⟨x, hx, havailable⟩)
    · rw [hr] at hnone
      cases hnone
    · obtain rfl := Option.some.inj (hr.symm.trans hx)
      exact htaken havailable

/-- A pass of a candidate that leads, or believes so. -/
theorem Sound.passed_of_held (hw : Sound source plans flagged w) (hi : w.candidates[i]? = some c)
    {p : Partition leaderKind} (hheld : c.held = some p) :
    ∃ c', Passed source i c w (w.step (.pass i [] : Move source)) c' := by
  obtain ⟨hlt, -⟩ := List.getElem?_eq_some_iff.mp hi
  have hfits := hw.fits i c hi
  have hpass : w.step (.pass i [] : Move source) = _ := play_of_some hi
  obtain ⟨r, old, new, htenure⟩ := hfits.tenure p hheld
  obtain rfl := htenure.partition
  have hrecord := Candidate.record_of_held hheld
  have hleader : ¬ c.isLeader = false := by
    rw [Candidate.isLeader, hheld]
    exact Bool.false_ne_true.symm
  obtain ⟨x, hx, -⟩ := hw.coherent.covered i r (inHand_of_record hi hrecord) htenure.id
  obtain ⟨⟨b, h, hlead⟩, -, hgrows⟩ := Candidate.run_lead_of_held w.now
    (s := w.store []) hw.good hfits.ofSource (htenure.id ▸ Table.has_of_find hx) hheld
  have hfaults := Frail.faults_run (s := w.store []) w.now rfl c.lead
  have hfault : ((w.store []).run w.now c.lead).2.fault? = none := by
    rw [Frail.fault?, hfaults]
    rfl
  have hheld' : ((c.marked h).leading b r).held = some (leaderPartition b r) := rfl
  rw [hpass, Candidate.run_pass, hlead]
  -- The renewal writes if the record in hand is the stored one, and else is lost.
  by_cases hr : w.stored source = some r
  · have hs : ((w.store []).run w.now c.lead).2.table.find? (leaderId source) = some r :=
      hgrows.1.trans hr
    have hcurrent := (hw.isCurrent_iff hi hrecord htenure.id).mpr hr
    rw [Candidate.run_renew_of_current w.now hheld' hfault (htenure.id ▸ hs)]
    refine ⟨_, candidate_put hlt, fun _ => ?_, fun hidle => absurd hidle hleader,
      fun _ hnot => absurd hcurrent hnot⟩
    obtain ⟨r', hrecord', hs', hstatus', howner', hexpiry⟩ :=
      leads_renewed (c := (c.marked h).leading b r) b hs htenure.id htenure.status w.now
    exact ⟨r', hrecord', hs', hstatus', howner'.trans htenure.owner, hexpiry⟩
  · have hstale : ∀ y, ((w.store []).run w.now c.lead).2.table.find? r.id = some y →
        y.version ≠ r.version := by
      intro y hy
      rw [htenure.id, hgrows.1, ← htenure.id] at hy
      exact hw.version_ne hi hrecord htenure.id hr hy
    rw [Candidate.run_renew_of_stale w.now hheld' hfault hstale]
    exact ⟨_, candidate_put hlt, fun hleads => absurd hleads Bool.false_ne_true,
      fun hidle => absurd hidle hleader, fun _ _ => ⟨rfl, hgrows.1⟩⟩

/-- **A pass in which nothing goes wrong.** -/
theorem Sound.passed (hw : Sound source plans flagged w) (hi : w.candidates[i]? = some c) :
    ∃ c', Passed source i c w (w.step (.pass i [] : Move source)) c' := by
  cases hheld : c.held with
  | none => exact hw.passed_of_idle hi hheld
  | some p => exact hw.passed_of_held hi hheld

/-- **Stepping down when nothing goes wrong.** -/
theorem Sound.steppedDown (hw : Sound source plans flagged w) (hi : w.candidates[i]? = some c) :
    ∃ c', SteppedDown source i w (w.step (.stepDown i [] : Move source)) c' := by
  obtain ⟨hlt, -⟩ := List.getElem?_eq_some_iff.mp hi
  have hstep : w.step (.stepDown i [] : Move source) = _ := play_of_some hi
  rw [hstep]
  cases hheld : c.held with
  | none =>
    -- Without a partition in hand there is nothing to release.
    have hnot : ¬ w.IsCurrent source i := by
      rintro ⟨c', r, x, hi', hrecord, -⟩
      obtain rfl := Option.some.inj (hi.symm.trans hi')
      rw [Candidate.record, hheld] at hrecord
      cases hrecord
    rw [Candidate.run_stepDown, hheld]
    refine ⟨_, candidate_put hlt, ?_, fun hcurrent => absurd hcurrent hnot, fun _ => rfl⟩
    rw [Candidate.isLeader, hheld]
    rfl
  | some p =>
    obtain ⟨r, old, new, htenure⟩ := (hw.fits i c hi).tenure p hheld
    obtain rfl := htenure.partition
    have hrecord := Candidate.record_of_held hheld
    have hcurrent := hw.isCurrent_iff hi hrecord htenure.id
    by_cases hr : w.stored source = some r
    · have hs : (w.store []).table.find? r.id = some r := htenure.id ▸ hr
      rw [Candidate.run_stepDown_of_current w.now hheld rfl hs]
      have hwritten : ((w.store []).written .giveUp w.now new r).table.find? r.id =
        some (leaderMoved .giveUp w.now new r) := Frail.find_written _ hs
      rw [htenure.id] at hwritten
      exact ⟨_, candidate_put hlt, rfl, fun _ => ⟨r, leaderMoved .giveUp w.now new r, hr, hwritten,
        rfl, rfl, rfl, version_leaderMoved _⟩, fun hnot => absurd (hcurrent.mpr hr) hnot⟩
    · rw [Candidate.run_stepDown_of_stale w.now hheld rfl fun y hy =>
        hw.version_ne hi hrecord htenure.id hr hy]
      exact ⟨_, candidate_put hlt, rfl, fun h => absurd (hcurrent.mp h) hr, fun _ => rfl⟩

/-- **Leadership is exclusive.**  Any number of candidates of one source make passes and step down,
one at a time and in any order, while the clock goes on, others use the table for anything but the
leader's record, and requests fail.  As long as the leader's record has been written fewer than
`2^64` times, the range of a version,

* at most one candidate has a leader partition of the stored version in hand;
* a pass in which nothing goes wrong makes a leader, keeps one or finds it superseded as `Passed`
  says, whatever went wrong before;
* stepping down then releases the leader's record just when it was of the stored version. -/
theorem leadership (source : String) (start : Instant) (entrants : List Entrant)
    (moves : List (Move source))
    (h : (run source start entrants moves).writes source < UInt64.size) :
    (∀ i j, (run source start entrants moves).IsCurrent source i →
      (run source start entrants moves).IsCurrent source j → i = j) ∧
    ∀ i c, (run source start entrants moves).candidates[i]? = some c →
      (∃ c', Passed source i c (run source start entrants moves)
        (run source start entrants (moves ++ [.pass i []])) c') ∧
      ∃ c', SteppedDown source i (run source start entrants moves)
        (run source start entrants (moves ++ [.stepDown i []])) c' := by
  have hw := sound_run source start entrants moves h
  refine ⟨?_, fun i c hi => ⟨?_, ?_⟩⟩
  · rintro i j ⟨c, r, x, hi, hr, hx, hversion⟩ ⟨c', r', x', hj, hr', hx', hversion'⟩
    obtain rfl := Option.some.inj (hx.symm.trans hx')
    exact hw.exclusive.apart i j r r' (inHand_of_record hi hr) (inHand_of_record hj hr')
      (hw.id_of_record hi hr) (hw.id_of_record hj hr') (hversion.trans hversion'.symm)
  · rw [run_append]
    exact hw.passed hi
  · rw [run_append]
    exact hw.steppedDown hi

/-- Two nodes that stand for the leadership. -/
def twoEntrants : List Entrant :=
  [⟨"node-a", .seconds 60, [], .default⟩, ⟨"node-b", .seconds 60, [], .default⟩]

/-- The first of two nodes has become the leader, and the second one makes a pass: it finds the
leadership taken. -/
theorem leadership_twoEntrants :
    (run "db" .epoch twoEntrants [.pass 0 []]).writes "db" = 3 ∧
      ∃ c', (run "db" .epoch twoEntrants [.pass 0 [], .pass 1 []]).candidates[1]? = some c' ∧
        ¬ c'.isLeader = true := by
  have hwrites : (run "db" .epoch twoEntrants [.pass 0 []]).writes "db" = 3 := by decide +kernel
  have hidle : (run "db" .epoch twoEntrants [.pass 0 []]).candidates[1]?.map Candidate.isLeader =
      some false := by decide +kernel
  have htaken : ((run "db" .epoch twoEntrants [.pass 0 []]).stored "db").map
      (Record.isAvailable (run "db" .epoch twoEntrants [.pass 0 []]).now) = some false := by
    decide +kernel
  obtain ⟨c, hc, hleader⟩ := Option.map_eq_some_iff.mp hidle
  obtain ⟨x, hx, havailable⟩ := Option.map_eq_some_iff.mp htaken
  obtain ⟨⟨c', hpassed⟩, -⟩ := (leadership "db" .epoch twoEntrants [.pass 0 []]
    (by rw [hwrites]; decide)).2 1 c hc
  refine ⟨hwrites, c', hpassed.candidate, fun hleads => ?_⟩
  rcases (hpassed.elected hleader).mp hleads with hnone | ⟨y, hy, hfree⟩
  · rw [hx] at hnone
    cases hnone
  · obtain rfl := Option.some.inj (hx.symm.trans hy)
    exact absurd (havailable.symm.trans hfree) Bool.false_ne_true

end Campaign

end LeasedWork
