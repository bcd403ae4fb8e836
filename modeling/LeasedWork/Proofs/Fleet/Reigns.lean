import LeasedWork.Proofs.Fleet.Initialization
import LeasedWork.Proofs.Time.Deadlines

/-! # How long a reign lasts

A leader loses its leadership to others only when its lease runs out, and it renews the lease at
the end of every pass.  So if each of its passes begins before the lease of the last one has run
out, and the store does not refuse the renewal, it leads for as long as it goes on like that
(`Campaign.reigns_while_punctual`).  What becomes of its bootstraps does not matter, and neither do
the passes of the others, however many, at whatever times and with whatever faults.

Two things are to be seen of a pass of another candidate: it finds the leader's record taken, so it
comes by nothing; and if it has an old leader partition in hand, the renewal of that is lost.
Either way the stored record stays as it is, to the version (`Campaign.Sound.passed_by`).
-/
namespace LeasedWork

/-! ## Deadlines -/

namespace Instant

theorem lt_of_ofNanos? {m n : Int} {a b : Instant} (ha : ofNanos? m = some a)
    (hb : ofNanos? n = some b) (hlt : m < n) : a < b := by
  obtain ⟨has, han⟩ := parts_of_ofNanos? ha
  obtain ⟨hbs, hbn⟩ := parts_of_ofNanos? hb
  unfold nanosPerSecond at *
  rw [lt_def]
  omega

/-- Of two spans, the longer one takes to a later time, as long as the range of times does not end
before. -/
theorem after_lt_after {t : Instant} {d e : Span} (hlt : d < e)
    (hrange : t.after d < latest) : t.after d < t.after e := by
  have hnanos : d.nanos < e.nanos := hlt
  have hlater : ∀ n, t.after d < (ofNanos? n).getD latest ↔
      ∀ x, ofNanos? n = some x → t.after d < x := by
    intro n
    cases ofNanos? n with
    | none => exact iff_of_true hrange fun _ hx => nomatch hx
    | some x => exact ⟨fun h _ hx => Option.some.inj hx ▸ h, fun h => h x rfl⟩
  by_cases he : t.isLeap ∧ t.nano + e.nanos < 2 * nanosPerSecond
  · -- Both times lie in the leap second.
    have hd : t.isLeap ∧ t.nano + d.nanos < 2 * nanosPerSecond := ⟨he.1, by omega⟩
    rw [after, after, dif_pos hd, dif_pos he, lt_def]
    exact .inr ⟨rfl, Nat.add_lt_add_left hnanos _⟩
  · rw [after.eq_def t e, dif_neg he, hlater]
    intro x hx
    by_cases hd : t.isLeap ∧ t.nano + d.nanos < 2 * nanosPerSecond
    · -- The later time lies beyond it.
      have hleap : nanosPerSecond ≤ t.nano := of_decide_eq_true hd.1
      have hbeyond : ¬ t.nano + e.nanos < 2 * nanosPerSecond := fun h => he ⟨hd.1, h⟩
      have hsecond := (parts_of_ofNanos? hx).1
      have hnano := t.nano_lt
      rw [after, dif_pos hd, lt_def]
      unfold nanosPerSecond at *
      refine .inl ?_
      dsimp only
      omega
    · rw [after, dif_neg hd] at hrange ⊢
      cases ha : ofNanos?
        (t.second * nanosPerSecond + (t.nano % nanosPerSecond : Nat) + d.nanos) with
      | none =>
        rw [ha] at hrange
        exact absurd hrange (by decide)
      | some a => exact lt_of_ofNanos? ha hx (by omega)

end Instant

/-- Settings without problems renew a lease for longer than until the next pass. -/
theorem LeaderSettings.poll_lt_extension {s : LeaderSettings} (h : s.problems = []) :
    s.pollInterval < s.leaseExtension := by
  obtain ⟨-, hextension⟩ := List.append_eq_nil_iff.mp h
  have hnot : ¬ s.leaseExtension ≤ s.pollInterval := by
    intro hle
    rw [Problem.when, if_pos (decide_eq_true hle)] at hextension
    cases hextension
  exact Nat.lt_of_not_le hnot

/-! ## What a candidate keeps before it renews -/

namespace Candidate

variable {source : String} {c c' : Candidate} {s s' : Frail} {r : Record}

/-- A candidate has become another one, which has the same partition in hand, but for its
progress. -/
structure Alike (c c' : Candidate) : Prop where
  node : c'.node = c.node
  settings : c'.settings = c.settings
  isLeader : c'.isLeader = c.isLeader
  record : c'.record = c.record

theorem Alike.refl (c : Candidate) : Alike c c := ⟨rfl, rfl, rfl, rfl⟩

theorem Alike.trans {c₁ c₂ c₃ : Candidate} (h₁ : Alike c₁ c₂) (h₂ : Alike c₂ c₃) : Alike c₁ c₃ :=
  ⟨h₂.node.trans h₁.node, h₂.settings.trans h₁.settings, h₂.isLeader.trans h₁.isLeader,
    h₂.record.trans h₁.record⟩

/-- A candidate that leads, or finds the leader's record taken, neither gains nor loses anything
until it renews, whatever goes wrong on the way. -/
theorem run_lead_of_not_free (now : Instant) (hgood : (Accord.sparing source).Good s.table)
    (hsource : c.node.source = source) (hr : s.table.find? (leaderId source) = some r)
    (hnoted : ∃ b, r.progress = some (leaderKind.text ⟨b⟩))
    (hfree : c.isLeader = true ∨ ¬ r.isAvailable now = true) :
    Alike c (s.run now (c.lead (E := Interface.none))).1 ∧
      (s.run now (c.lead (E := Interface.none))).2.table.find? (leaderId source) = some r := by
  suffices h : Alike c (s.run now (c.lead (E := Interface.none))).1 ∧
      (Accord.sparing source).Good (s.run now (c.lead (E := Interface.none))).2.table ∧
      (s.run now (c.lead (E := Interface.none))).2.table.find? (leaderId source) = some r from
    ⟨h.1, h.2.2⟩
  refine takeSteps_induction (motive := fun c' s' => Alike c c' ∧
    (Accord.sparing source).Good s'.table ∧ s'.table.find? (leaderId source) = some r)
    ?_ ⟨.refl c, hgood, hr⟩
  rintro step hstep c' s' ⟨halike, hgood', hr'⟩
  have hsource' : c'.node.source = source := by rw [halike.node, hsource]
  simp only [List.mem_cons, List.not_mem_nil, or_false] at hstep
  rcases hstep with rfl | rfl | rfl
  · -- The record is there already, so that creating it leaves everything alone.
    obtain ⟨⟨h, hkept⟩, htable⟩ :=
      run_ensureCreated_of_has now hsource' (s := s') (Table.has_of_find hr')
    rw [hkept, htable]
    exact ⟨⟨halike.node, halike.settings, halike.isLeader, halike.record⟩, hgood', hr'⟩
  · -- One that leads does not compete, and nobody else can claim the record.
    by_cases hleads : c'.held.isSome = true
    · rw [run_compete, if_pos hleads]
      exact ⟨halike, hgood', hr'⟩
    · have htaken : ¬ r.isAvailable now = true := hfree.resolve_left fun h =>
        hleads (halike.isLeader.trans h)
      rcases run_compete_cases now hgood' hsource' (fun x hx => by
          obtain rfl := Option.some.inj (hr'.symm.trans hx)
          exact hnoted) with
        hrun | ⟨failure, hrun⟩ | ⟨x, b, hx, havailable, -, -⟩ | hrun
      · rw [hrun]
        exact ⟨halike, hgood', hr'⟩
      · rw [hrun]
        exact ⟨halike, hgood', hr'⟩
      · obtain rfl := Option.some.inj (hr'.symm.trans hx)
        exact absurd havailable htaken
      · rw [hrun]
        exact ⟨halike, hgood', hr'⟩
  · -- A bootstrap only adds records, and what is in hand gets at most a flag.
    obtain ⟨hgood'', hgrows, -⟩ := run_bootstrap now hgood' c'
    have hr'' := hgrows.1.trans hr'
    rw [run_initialize?]
    cases hheld : c'.held with
    | none => exact ⟨halike, hgood', hr'⟩
    | some p =>
      dsimp only
      split
      · exact ⟨halike, hgood', hr'⟩
      · generalize s'.run now (c'.bootstrap (E := Interface.none)).run = outcome
          at hgood'' hr'' ⊢
        obtain ⟨e | u, s''⟩ := outcome
        · exact ⟨halike, hgood'', hr''⟩
        · refine ⟨halike.trans ⟨rfl, rfl, ?_, ?_⟩, hgood'', hr''⟩
          · rw [isLeader, isLeader, hheld]
            rfl
          · rw [Candidate.record, Candidate.record, hheld]
            rfl

end Candidate

namespace Campaign

variable {source : String} {plans : List (List Collection)} {flagged : Prop} {w : Campaign}
  {i j : Nat} {c c' x : Candidate} {s s' : Frail} {r : Record}

/-! ## Passes of others -/

/-- The candidate at a place has come by a leader partition that it did not have before. -/
def Acquires (j : Nat) (w w' : Campaign) : Prop :=
  ∃ c', w'.candidates[j]? = some c' ∧ c'.isLeader = true ∧
    ¬ ∃ c, w.candidates[j]? = some c ∧ c.isLeader = true ∧ c.record = c'.record

/-- Only who is put in place may come by anything. -/
theorem not_acquires_put {k : Nat} (hj : w.candidates[j]? = some x)
    (h : k = j → c'.isLeader = true → x.isLeader = true ∧ x.record = c'.record) :
    ¬ Acquires k w (w.put j c' s) := by
  rintro ⟨y, hy, hleads, hnew⟩
  by_cases hkj : k = j
  · subst hkj
    rw [candidate_put (List.getElem?_eq_some_iff.mp hj).1] at hy
    obtain rfl := Option.some.inj hy
    exact hnew ⟨x, hj, h rfl hleads⟩
  · rw [put, List.getElem?_set_ne fun h => hkj h.symm] at hy
    exact hnew ⟨y, hy, hleads, rfl⟩

theorem not_acquires_of_same {w' : Campaign} (h : w'.candidates = w.candidates) (k : Nat) :
    ¬ Acquires k w w' := by
  rintro ⟨y, hy, hleads, hnew⟩
  exact hnew ⟨y, h ▸ hy, hleads, rfl⟩

/-- Who has not the stored record in hand changes nothing when it renews, and keeps what it has or
drops it. -/
theorem Sound.renew_of_not_stored (hw : Sound source plans flagged (w.put j c s))
    (hj : j < w.candidates.length)
    (hother : ∀ x, c.record = some x → s.table.find? (leaderId source) ≠ some x) :
    (s.run w.now (c.renew (E := Interface.none))).2.table = s.table ∧
      ((s.run w.now (c.renew (E := Interface.none))).1 = c ∨
        (s.run w.now (c.renew (E := Interface.none))).1 = c.dropped) := by
  cases hheld : c.held with
  | none =>
    rw [Candidate.run_renew, hheld]
    exact ⟨rfl, .inl rfl⟩
  | some p =>
    obtain ⟨x, old, new, htenure⟩ := (hw.fits j c (candidate_put hj)).tenure p hheld
    obtain rfl := htenure.partition
    have hrecord := Candidate.record_of_held hheld
    rcases hw.transition_cases hj hrecord htenure.id with
      ⟨failure, hfault⟩ | ⟨hfault, hs⟩ | ⟨hfault, hs⟩
    · rw [Candidate.run_renew, hheld]
      dsimp only
      rw [Frail.run_transition_of_fault _ hfault]
      dsimp only
      split
      · exact ⟨rfl, .inr rfl⟩
      · exact ⟨rfl, .inl rfl⟩
    · rw [htenure.id] at hs
      exact absurd hs (hother x hrecord)
    · rw [Candidate.run_renew_of_stale w.now hheld hfault hs]
      exact ⟨rfl, .inr rfl⟩

/-- And so when it steps down. -/
theorem Sound.stepDown_of_not_stored (hw : Sound source plans flagged (w.put j c s))
    (hj : j < w.candidates.length)
    (hother : ∀ x, c.record = some x → s.table.find? (leaderId source) ≠ some x) :
    (s.run w.now (c.stepDown (E := Interface.none))).2.table = s.table ∧
      (s.run w.now (c.stepDown (E := Interface.none))).1.isLeader = false := by
  cases hheld : c.held with
  | none =>
    rw [Candidate.run_stepDown, hheld]
    refine ⟨rfl, ?_⟩
    rw [Candidate.isLeader, hheld]
    rfl
  | some p =>
    obtain ⟨x, old, new, htenure⟩ := (hw.fits j c (candidate_put hj)).tenure p hheld
    obtain rfl := htenure.partition
    have hrecord := Candidate.record_of_held hheld
    rcases hw.transition_cases hj hrecord htenure.id with
      ⟨failure, hfault⟩ | ⟨hfault, hs⟩ | ⟨hfault, hs⟩
    · rw [Candidate.run_stepDown, hheld]
      dsimp only
      rw [Frail.run_transition_of_fault _ hfault]
      exact ⟨rfl, rfl⟩
    · rw [htenure.id] at hs
      exact absurd hs (hother x hrecord)
    · rw [Candidate.run_stepDown_of_stale w.now hheld hfault hs]
      exact ⟨rfl, rfl⟩

/-! ## Reigns -/

/-- A candidate leads: the leader partition that it has in hand is the stored one, and its lease
runs until a deadline. -/
structure Reigns (source : String) (i : Nat) (deadline : Instant) (w : Campaign) (c : Candidate)
    (r : Record) : Prop where
  candidate : w.candidates[i]? = some c
  leads : c.isLeader = true
  record : c.record = some r
  stored : w.stored source = some r
  status : r.status = some .assigned
  owner : r.owner = some c.node.owner
  lease : r.leaseExpiry = some deadline

/-- Whether a move is the candidate's at a place. -/
def Move.isOf (i : Nat) : Move source → Bool
  | .pass j _ | .stepDown j _ => j = i
  | .tick _ | .other _ _ => false

variable {deadline : Instant}

theorem Reigns.put (h : Reigns source i deadline w c r) (hne : j ≠ i)
    (hs : s.table.find? (leaderId source) = some r) :
    Reigns source i deadline (w.put j x s) c r :=
  { h with
    candidate := (List.getElem?_set_ne hne).trans h.candidate
    stored := hs }

/-- Nobody else has the stored record in hand. -/
theorem Sound.record_ne (hw : Sound source plans flagged w) (h : Reigns source i deadline w c r)
    (hj : w.candidates[j]? = some x) (hne : j ≠ i) : x.record ≠ some r := by
  intro hx
  have hid := hw.id_of_record h.candidate h.record
  exact hne (hw.exclusive.apart j i r r (inHand_of_record hj hx)
    (inHand_of_record h.candidate h.record) hid hid rfl)

/-- **A pass of another candidate** comes to nothing while the lease runs, whatever goes wrong. -/
theorem Sound.passed_by (hw : Sound source plans flagged w) (h : Reigns source i deadline w c r)
    (hlt : w.now < deadline) (hne : j ≠ i) (faults : List (Option Failure))
    (hbound : (w.step (.pass j faults : Move source)).writes source < UInt64.size) :
    Reigns source i deadline (w.step (.pass j faults : Move source)) c r ∧
      ∀ k, ¬ Acquires k w (w.step (.pass j faults : Move source)) := by
  cases hj : w.candidates[j]? with
  | none =>
    rw [Campaign.step, play_of_none hj]
    exact ⟨h, not_acquires_of_same rfl⟩
  | some x =>
    have hpass : w.step (.pass j faults : Move source) = _ := play_of_some hj
    rw [Candidate.run_pass] at hpass
    rw [hpass] at hbound ⊢
    obtain ⟨hlength, -⟩ := List.getElem?_eq_some_iff.mp hj
    have htaken : ¬ r.isAvailable w.now = true := fun havailable =>
      Record.not_live_of_available havailable ⟨h.status, deadline, h.lease, hlt⟩
    obtain ⟨halike, hs⟩ := Candidate.run_lead_of_not_free w.now (s := w.store faults) hw.good
      (hw.fits j x hj).ofSource h.stored (hw.hasProgress r h.stored) (.inr htaken)
    have hlead := Sound.lead (put_self hj faults ▸ hw) hlength
      (Nat.lt_of_le_of_lt (Frail.writesIn_run_le _ _ _) hbound)
    have hother : ∀ y, ((w.store faults).run w.now x.lead).1.record = some y →
        ((w.store faults).run w.now x.lead).2.table.find? (leaderId source) ≠ some y := by
      intro y hy hy'
      obtain rfl := Option.some.inj (hs.symm.trans hy')
      exact hw.record_ne h hj hne (halike.record.symm.trans hy)
    obtain ⟨htable, hcandidate⟩ := hlead.renew_of_not_stored hlength hother
    refine ⟨h.put hne (htable ▸ hs), fun k => not_acquires_put hj fun _ hleads => ?_⟩
    rcases hcandidate with hkept | hdropped
    · rw [hkept] at hleads ⊢
      exact ⟨halike.isLeader.symm.trans hleads, halike.record.symm⟩
    · rw [hdropped] at hleads
      cases hleads

/-- **What others do while the lease runs** takes nothing from a leader and gives nobody
anything. -/
theorem Sound.reigns_on (hw : Sound source plans flagged w) (h : Reigns source i deadline w c r)
    (hlt : w.now < deadline) {m : Move source} (hm : m.isOf i = false)
    (hbound : (w.step m).writes source < UInt64.size) :
    Reigns source i deadline (w.step m) c r ∧ ∀ k, ¬ Acquires k w (w.step m) := by
  cases m with
  | pass j faults => exact hw.passed_by h hlt (of_decide_eq_false hm) faults hbound
  | stepDown j faults =>
    have hne : j ≠ i := of_decide_eq_false hm
    cases hj : w.candidates[j]? with
    | none =>
      rw [Campaign.step, play_of_none hj]
      exact ⟨h, not_acquires_of_same rfl⟩
    | some x =>
      have hstep : w.step (.stepDown j faults : Move source) = _ := play_of_some hj
      obtain ⟨hlength, -⟩ := List.getElem?_eq_some_iff.mp hj
      rw [hstep]
      obtain ⟨htable, hidle⟩ := Sound.stepDown_of_not_stored (s := w.store faults)
        (put_self hj faults ▸ hw) hlength fun y hy hy' => by
          obtain rfl := Option.some.inj (h.stored.symm.trans hy')
          exact hw.record_ne h hj hne hy
      refine ⟨h.put hne (htable ▸ h.stored), fun k => not_acquires_put hj fun _ hleads => ?_⟩
      exact absurd (hidle.symm.trans hleads) Bool.false_ne_true
  | tick t => exact ⟨{ h with }, not_acquires_of_same rfl⟩
  | other request spares =>
    have hgrows := ((Accord.sparing source).keeps w.now hw.good spares).2
    exact ⟨{ h with stored := hgrows.1.trans h.stored }, not_acquires_of_same rfl⟩

/-! ## Passes of the leader -/

/-- The store does not refuse the renewal at the end of a pass, whatever goes wrong before. -/
def Renews (w : Campaign) (i : Nat) (faults : List (Option Failure)) : Prop :=
  ∀ c, w.candidates[i]? = some c → ((w.store faults).run w.now c.lead).2.fault? = none

/-- Who has the stored record in hand leads on when it renews. -/
theorem Sound.reigns_of_renewed (hw : Sound source plans flagged (w.put i c s))
    (hi : i < w.candidates.length) (hfault : s.fault? = none) (hrecord : c.record = some r)
    (hs : s.table.find? (leaderId source) = some r) :
    let renewed := s.run w.now (c.renew (E := Interface.none))
    renewed.1.settings = c.settings ∧ ∃ r', Reigns source i
      (w.now.after c.settings.leaseExtension) (w.put i renewed.1 renewed.2) renewed.1 r' := by
  obtain ⟨p, hheld, hpr⟩ := Option.bind_eq_some_iff.mp hrecord
  obtain ⟨x, old, new, htenure⟩ := (hw.fits i c (candidate_put hi)).tenure p hheld
  obtain rfl := htenure.partition
  obtain rfl : x = r := Option.some.inj hpr
  rw [Candidate.run_renew_of_current w.now hheld hfault (htenure.id ▸ hs)]
  obtain ⟨r', hrecord', hs', hstatus, howner, hlease⟩ :=
    leads_renewed (c := c) new hs htenure.id htenure.status w.now
  exact ⟨rfl, r', candidate_put hi, rfl, hrecord', hs', hstatus, howner.trans htenure.owner, hlease⟩

/-- Who leads after a renewal that the store did not refuse has renewed the stored record. -/
theorem Sound.stored_of_renewed (hw : Sound source plans flagged (w.put i c s))
    (hi : i < w.candidates.length) (hfault : s.fault? = none)
    (hleads : (s.run w.now (c.renew (E := Interface.none))).1.isLeader = true) :
    ∃ r, c.record = some r ∧ s.table.find? (leaderId source) = some r := by
  cases hheld : c.held with
  | none =>
    rw [Candidate.run_renew, hheld] at hleads
    dsimp only at hleads
    rw [Candidate.isLeader, hheld] at hleads
    cases hleads
  | some p =>
    obtain ⟨r, old, new, htenure⟩ := (hw.fits i c (candidate_put hi)).tenure p hheld
    obtain rfl := htenure.partition
    have hrecord := Candidate.record_of_held hheld
    rcases hw.transition_cases hi hrecord htenure.id with
      ⟨failure, hfailure⟩ | ⟨-, hs⟩ | ⟨-, hs⟩
    · rw [hfault] at hfailure
      cases hfailure
    · exact ⟨r, hrecord, htenure.id ▸ hs⟩
    · rw [Candidate.run_renew_of_stale w.now hheld hfault hs] at hleads
      cases hleads

/-- **A pass makes a leader** whose lease runs from then on, if the renewal is not refused. -/
theorem Sound.reigns_of_leads (hw : Sound source plans flagged w) {faults : List (Option Failure)}
    (hrenews : w.Renews i faults)
    (hbound : (w.step (.pass i faults : Move source)).writes source < UInt64.size)
    (hc : (w.step (.pass i faults : Move source)).candidates[i]? = some c)
    (hleads : c.isLeader = true) :
    ∃ r, Reigns source i (w.now.after c.settings.leaseExtension)
      (w.step (.pass i faults : Move source)) c r := by
  cases hi : w.candidates[i]? with
  | none =>
    rw [Campaign.step, play_of_none hi, hi] at hc
    cases hc
  | some x =>
    have hpass : w.step (.pass i faults : Move source) = _ := play_of_some hi
    obtain ⟨hlength, -⟩ := List.getElem?_eq_some_iff.mp hi
    rw [Candidate.run_pass] at hpass
    rw [hpass] at hbound hc ⊢
    rw [candidate_put hlength] at hc
    obtain rfl := Option.some.inj hc
    have hlead := Sound.lead (put_self hi faults ▸ hw) hlength
      (Nat.lt_of_le_of_lt (Frail.writesIn_run_le _ _ _) hbound)
    obtain ⟨r, hrecord, hs⟩ := hlead.stored_of_renewed hlength (hrenews x hi) hleads
    obtain ⟨hsettings, hreigns⟩ :=
      hlead.reigns_of_renewed hlength (hrenews x hi) hrecord hs
    rw [hsettings]
    exact hreigns

/-- **A pass of the leader** renews the lease, and gives nobody else anything. -/
theorem Sound.reigns_again (hw : Sound source plans flagged w) (h : Reigns source i deadline w c r)
    {faults : List (Option Failure)} (hrenews : w.Renews i faults)
    (hbound : (w.step (.pass i faults : Move source)).writes source < UInt64.size) :
    (∃ c' r', c'.settings = c.settings ∧ Reigns source i (w.now.after c.settings.leaseExtension)
        (w.step (.pass i faults : Move source)) c' r') ∧
      ∀ k, k ≠ i → ¬ Acquires k w (w.step (.pass i faults : Move source)) := by
  have hi := h.candidate
  have hpass : w.step (.pass i faults : Move source) = _ := play_of_some hi
  obtain ⟨hlength, -⟩ := List.getElem?_eq_some_iff.mp hi
  rw [Candidate.run_pass] at hpass
  rw [hpass] at hbound ⊢
  obtain ⟨halike, hs⟩ := Candidate.run_lead_of_not_free w.now (s := w.store faults) hw.good
    (hw.fits i c hi).ofSource h.stored (hw.hasProgress r h.stored) (.inl h.leads)
  have hlead := Sound.lead (put_self hi faults ▸ hw) hlength
    (Nat.lt_of_le_of_lt (Frail.writesIn_run_le _ _ _) hbound)
  obtain ⟨hsettings, r', hreigns⟩ :=
    hlead.reigns_of_renewed hlength (hrenews c hi) (halike.record.trans h.record) hs
  rw [halike.settings] at hreigns
  exact ⟨⟨_, r', hsettings.trans halike.settings, hreigns⟩,
    fun k hk => not_acquires_put hi fun h => absurd h hk⟩

/-! ## Punctual leaders -/

/-- Whether a move is in time: a pass of the candidate at a place begins before the deadline, and
its renewal is not refused; nor does the candidate step down. Others are never late. -/
def InTime (i : Nat) (deadline : Instant) (w : Campaign) : Move source → Prop
  | .pass j faults => j = i → w.now < deadline ∧ w.Renews i faults
  | .stepDown j _ => j ≠ i
  | .tick _ | .other _ _ => True

/-- Whether all of some moves are in time. A pass of the candidate extends the deadline. -/
def Punctual (i : Nat) (extension : Span) : Instant → Campaign → List (Move source) → Prop
  | _, _, [] => True
  | deadline, w, m :: rest => InTime i deadline w m ∧
    Punctual i extension (if m.isOf i then w.now.after extension else deadline) (w.step m) rest

instance (w : Campaign) (i : Nat) (faults : List (Option Failure)) :
    Decidable (w.Renews i faults) :=
  match h : w.candidates[i]? with
  | none => isTrue fun _ hc => nomatch h.symm.trans hc
  | some c =>
    decidable_of_iff (((w.store faults).run w.now c.lead).2.fault? = none)
      ⟨fun hfault _ hx => Option.some.inj (h.symm.trans hx) ▸ hfault, fun hrenews => hrenews c h⟩

instance (i : Nat) (deadline : Instant) (w : Campaign) (m : Move source) :
    Decidable (InTime i deadline w m) :=
  match m with
  | .pass j faults => inferInstanceAs (Decidable (j = i → w.now < deadline ∧ w.Renews i faults))
  | .stepDown j _ => inferInstanceAs (Decidable (j ≠ i))
  | .tick _ | .other _ _ => isTrue trivial

instance decidablePunctual (i : Nat) (extension : Span) : (deadline : Instant) → (w : Campaign) →
    (moves : List (Move source)) → Decidable (Punctual i extension deadline w moves)
  | _, _, [] => isTrue trivial
  | deadline, w, m :: rest =>
    have := decidablePunctual i extension
      (if m.isOf i then w.now.after extension else deadline) (w.step m) rest
    inferInstanceAs (Decidable (InTime i deadline w m ∧ Punctual i extension _ _ rest))

/-- A move takes nothing from the leader, unless it is its own, and gives nobody else anything. -/
structure Undisturbed (source : String) (i : Nat) (w : Campaign) (m : Move source) : Prop where
  stored : m.isOf i = false → (w.step m).stored source = w.stored source
  others : ∀ k, k ≠ i → ¬ Acquires k w (w.step m)

/-- A candidate leads before and after each of some moves, and nobody else acquires anything. -/
structure Unbroken (source : String) (i : Nat) (w : Campaign) (moves : List (Move source)) :
    Prop where
  reigns : ∀ before, before <+: moves → ∃ deadline c r,
    Reigns source i deadline (before.foldl step w) c r
  undisturbed : ∀ before m, before ++ [m] <+: moves → Undisturbed source i (before.foldl step w) m

variable {m : Move source} {rest : List (Move source)}

theorem Unbroken.nil (h : Reigns source i deadline w c r) : Unbroken source i w [] where
  reigns before hbefore := by
    obtain rfl := List.prefix_nil.mp hbefore
    exact ⟨deadline, c, r, h⟩
  undisturbed before m hbefore :=
    absurd (List.prefix_nil.mp hbefore)
      (List.append_ne_nil_of_right_ne_nil _ (List.cons_ne_nil m []))

theorem Unbroken.cons (h : Reigns source i deadline w c r) (hm : Undisturbed source i w m)
    (hrest : Unbroken source i (w.step m) rest) : Unbroken source i w (m :: rest) where
  reigns before hbefore := by
    rcases List.prefix_cons_iff.mp hbefore with rfl | ⟨before', rfl, hbefore'⟩
    · exact ⟨deadline, c, r, h⟩
    · exact hrest.reigns before' hbefore'
  undisturbed before m' hbefore := by
    cases before with
    | nil =>
      obtain rfl := (List.cons_prefix_cons.mp hbefore).1
      exact hm
    | cons x before' =>
      obtain ⟨rfl, hbefore'⟩ := List.cons_prefix_cons.mp hbefore
      exact hrest.undisturbed before' m' hbefore'

/-- A move that is in time, while the lease runs. -/
theorem Sound.in_time (hw : Sound source plans flagged w) (h : Reigns source i deadline w c r)
    (hlt : w.now < deadline) (hm : InTime i deadline w m)
    (hbound : (w.step m).writes source < UInt64.size) :
    Undisturbed source i w m ∧ ∃ c' r', c'.settings = c.settings ∧ Reigns source i
      (if m.isOf i then w.now.after c.settings.leaseExtension else deadline) (w.step m) c' r' := by
  cases hown : m.isOf i with
  | false =>
    obtain ⟨hreigns, hothers⟩ := hw.reigns_on h hlt hown hbound
    exact ⟨⟨fun _ => hreigns.stored.trans h.stored.symm, fun k _ => hothers k⟩, c, r, rfl, hreigns⟩
  | true =>
    cases m with
    | pass j faults =>
      obtain rfl : j = i := of_decide_eq_true hown
      obtain ⟨hreigns, hothers⟩ := hw.reigns_again h (hm rfl).2 hbound
      exact ⟨⟨fun h => absurd (hown.symm.trans h) Bool.noConfusion, hothers⟩, hreigns⟩
    | stepDown j faults => exact absurd (of_decide_eq_true hown) hm
    | tick t => cases hown
    | other request spares => cases hown

theorem now_le_step (w : Campaign) (m : Move source) : w.now ≤ (w.step m).now := by
  have hplay : ∀ i faults act, (w.play i faults act).now = w.now := by
    intro i faults act
    unfold play
    split <;> rfl
  cases m with
  | pass j faults => exact (hplay j faults _) ▸ Instant.le_refl _
  | stepDown j faults => exact (hplay j faults _) ▸ Instant.le_refl _
  | tick t =>
    change w.now ≤ if w.now ≤ t then t else w.now
    split
    · assumption
    · exact Instant.le_refl _
  | other request spares => exact Instant.le_refl _

/-- Before a punctual pass the lease has not run out, since the clock is never set back. -/
theorem Punctual.now_lt {extension : Span} {moves : List (Move source)}
    {faults : List (Option Failure)}
    (h : Punctual i extension deadline w (moves ++ [.pass i faults])) : w.now < deadline := by
  induction moves generalizing w with
  | nil => exact (h.1 rfl).1
  | cons m rest ih =>
    cases hown : m.isOf i with
    | false =>
      obtain ⟨-, hrest⟩ := h
      rw [hown] at hrest
      have hlt := ih hrest
      have hle := now_le_step w m
      rw [Instant.le_def] at hle
      rw [Instant.lt_def] at *
      omega
    | true =>
      cases m with
      | pass j _ => exact (h.1 (of_decide_eq_true hown)).1
      | stepDown j _ => exact absurd (of_decide_eq_true hown) h.1
      | tick t => cases hown
      | other request spares => cases hown

/-- **A reign lasts through punctual passes.** -/
theorem Sound.unbroken (hw : Sound source plans flagged w) (h : Reigns source i deadline w c r)
    {moves : List (Move source)} {faults : List (Option Failure)}
    (hpunctual : Punctual i c.settings.leaseExtension deadline w (moves ++ [.pass i faults]))
    (hbound : ((moves ++ [Move.pass i faults]).foldl Campaign.step w).writes source < UInt64.size) :
    Unbroken source i w (moves ++ [.pass i faults]) := by
  induction moves generalizing w deadline c r with
  | nil =>
    obtain ⟨hm, c', r', -, hreigns⟩ := hw.in_time h hpunctual.now_lt hpunctual.1 hbound
    exact .cons h hm (.nil hreigns)
  | cons m rest ih =>
    have hfirst := Nat.lt_of_le_of_lt (writes_le_foldl (w.step m) (rest ++ [.pass i faults])) hbound
    obtain ⟨hm, c', r', hsettings, hreigns⟩ := hw.in_time h hpunctual.now_lt hpunctual.1 hfirst
    have hrest := hpunctual.2
    rw [← hsettings] at hrest hreigns
    exact .cons h hm (ih (hw.step m hfirst) hreigns hrest hbound)

/-- **A punctual leader leads on.**  A candidate leads after one of its passes, whose renewal the
store has not refused.  Any number of other candidates make passes and step down, whenever they
like, the clock goes on, and any requests fail but the candidate's renewals.  As long as each of its
passes begins before the lease of the one before has run out, it leads all the time, and nobody else
comes by a leader partition or writes the leader's record.  Settings without problems let the next
pass begin in time if it comes a poll interval later, short of the end of the range of times.

This holds as long as the leader's record has been written fewer than `2^64` times. -/
theorem reigns_while_punctual (source : String) (start : Instant) (entrants : List Entrant)
    (moves more : List (Move source)) (i : Nat) (first last : List (Option Failure)) (c : Candidate)
    (hwrites : (run source start entrants
      (moves ++ [.pass i first] ++ (more ++ [.pass i last]))).writes source < UInt64.size)
    (hcandidate : (run source start entrants (moves ++ [.pass i first])).candidates[i]? = some c)
    (hleads : c.isLeader = true) (hrenews : (run source start entrants moves).Renews i first)
    (hpunctual : Punctual i c.settings.leaseExtension
      ((run source start entrants moves).now.after c.settings.leaseExtension)
      (run source start entrants (moves ++ [.pass i first])) (more ++ [.pass i last])) :
    Unbroken source i (run source start entrants (moves ++ [.pass i first]))
      (more ++ [.pass i last]) ∧
    ∀ (settings : LeaderSettings), settings.problems = [] → ∀ t : Instant,
      t.after settings.pollInterval < Instant.latest →
      t.after settings.pollInterval < t.after settings.leaseExtension := by
  refine ⟨?_, fun settings hsettings t hrange =>
    Instant.after_lt_after (LeaderSettings.poll_lt_extension hsettings) hrange⟩
  rw [run_append] at hwrites
  have hfirst := Nat.lt_of_le_of_lt (writes_le_foldl _ _) hwrites
  have hw' := sound_run source start entrants (moves ++ [.pass i first]) hfirst
  rw [run_append] at hfirst hcandidate hpunctual hw' hwrites ⊢
  have hw := sound_run source start entrants moves
    (Nat.lt_of_le_of_lt (writes_le_foldl _ _) hfirst)
  obtain ⟨r, hreigns⟩ := hw.reigns_of_leads hrenews hfirst hcandidate hleads
  exact hw'.unbroken hreigns hpunctual hwrites

/-- After a bootstrap has failed, the other node makes passes, also when the lease would have run
out had it not been renewed; the leader's second bootstrap fails too, and its third one does not. -/
def contested : List (Move "db") :=
  [.pass 1 [], .tick (Instant.epoch.after (.seconds 120)), .pass 1 [some (.storage "down")],
    .pass 0 [some (.storage "down")], .tick (Instant.epoch.after (.seconds 240)), .pass 1 []]

/-- The leader gets through all of that. -/
theorem reigns_contested :
    Unbroken "db" 0 (run "db" .epoch twoBootstraps [.pass 0 outage]) (contested ++ [.pass 0 []]) ∧
      Instant.epoch.after LeaderSettings.default.pollInterval <
        Instant.epoch.after LeaderSettings.default.leaseExtension := by
  have hleads : (run "db" .epoch twoBootstraps [.pass 0 outage]).candidates[0]?.map
      (fun c => (c.isLeader, c.settings)) = some (true, .default) := by decide +kernel
  obtain ⟨c, hc, hc'⟩ := Option.map_eq_some_iff.mp hleads
  obtain ⟨hleads, hsettings⟩ := Prod.mk.inj hc'
  have hpunctual : Punctual 0 LeaderSettings.default.leaseExtension
      (Instant.epoch.after LeaderSettings.default.leaseExtension)
      (run "db" .epoch twoBootstraps [.pass 0 outage]) (contested ++ [.pass 0 []]) := by
    decide +kernel
  obtain ⟨hunbroken, hpoll⟩ := reigns_while_punctual "db" .epoch twoBootstraps [] contested 0 outage
    [] c (by decide +kernel) hc hleads (by decide +kernel) (hsettings ▸ hpunctual)
  exact ⟨hunbroken, hpoll .default (by decide) .epoch (by decide)⟩

end Campaign

end LeasedWork
