import LeasedWork.Proofs.Fleet.Leadership

/-! # A bootstrap is done once

A leader that has bootstrapped notes it in its partition, and only the next renewal writes the note
to the stored record.  In between any request may fail and another node may take over.  Still the
note, once it is stored, is right and stays (`Campaign.initialization`): a candidate has it in hand
only after a bootstrap of its own has succeeded, or because the record that it claimed had it; and a
write through a partition without it is either lost or replaces a record without it.
-/
namespace LeasedWork

/-- Whether a leader's record says that everything has been created. -/
def Record.isInitialized (r : Record) : Bool :=
  match Partition.ofRecord leaderKind r with
  | .ok p => p.isInitialized
  | .error _ => false

theorem Record.isInitialized_of_progress {source : String} {r : Record} {b : Bool}
    (hid : r.id = leaderId source) (hprogress : r.progress = some (leaderKind.text ⟨b⟩)) :
    r.isInitialized = b := by
  rw [isInitialized, ofRecord_leader hid hprogress]
  rfl

namespace Table

variable {source : String} {t : Table} {r : Record} {b : Bool}

/-- Whether the stored leader record says so. -/
def isInitialized (source : String) (t : Table) : Bool :=
  (t.find? (leaderId source)).any Record.isInitialized

theorem isInitialized_of_progress (h : t.find? (leaderId source) = some r)
    (hprogress : r.progress = some (leaderKind.text ⟨b⟩)) : t.isInitialized source = b := by
  rw [isInitialized, h]
  exact Record.isInitialized_of_progress (find?_some h).2 hprogress

theorem isInitialized_of_none (h : t.find? (leaderId source) = none) :
    t.isInitialized source = false := by
  rw [isInitialized, h]
  rfl

end Table

namespace Candidate

variable {now : Instant} {c c' : Candidate} {s s' : Frail}

/-- If a pass comes to a bootstrap, and that fails: the candidate by then, and the store. -/
def stumble? (now : Instant) (c : Candidate) (s : Frail) : Option (Candidate × Frail) :=
  match s.run now (c.ensureCreated (E := Interface.none)).run with
  | (.error _, _) => none
  | (.ok c₀, s₀) =>
    match s₀.run now (c₀.compete (E := Interface.none)).run with
    | (.error _, _) => none
    | (.ok c', s₁) =>
      if c'.held.any fun p => !p.isInitialized then
        match s₁.run now (c'.bootstrap (E := Interface.none)).run with
        | (.error _, s') => some (c', s')
        | (.ok _, _) => none
      else none

/-- The steps up to there. -/
theorem stumble?_cases (h : c.stumble? now s = some (c', s')) :
    ∃ c₀ s₀ s₁ p failure,
      s.run now (c.ensureCreated (E := Interface.none)).run = (.ok c₀, s₀) ∧
      s₀.run now (c₀.compete (E := Interface.none)).run = (.ok c', s₁) ∧
      c'.held = some p ∧ p.isInitialized = false ∧
      s₁.run now (c'.bootstrap (E := Interface.none)).run = (.error failure, s') := by
  unfold stumble? at h
  rcases hcreated : s.run now (c.ensureCreated (E := Interface.none)).run with ⟨e | c₀, s₀⟩ <;>
    rw [hcreated] at h
  · cases h
  dsimp only at h
  rcases hcompeted : s₀.run now (c₀.compete (E := Interface.none)).run with ⟨e | c₁, s₁⟩ <;>
    rw [hcompeted] at h
  · cases h
  dsimp only at h
  by_cases hheld : (c₁.held.any fun p => !p.isInitialized) = true
  · rw [if_pos hheld] at h
    rcases hfailed : s₁.run now (c₁.bootstrap (E := Interface.none)).run with ⟨e | u, s₂⟩ <;>
      rw [hfailed] at h
    · cases h
      obtain ⟨p, hp, hinit⟩ := (Option.any_eq_true _ _).mp hheld
      exact ⟨c₀, s₀, s₁, p, e, rfl, hcompeted, hp, by simpa using hinit, hfailed⟩
    · cases h
  · rw [if_neg hheld] at h
    cases h

/-- Only the renewal is left of a pass then. -/
theorem run_pass_of_stumble (h : c.stumble? now s = some (c', s')) :
    s.run now (c.pass (E := Interface.none)) = s'.run now (c'.renew (E := Interface.none)) := by
  obtain ⟨c₀, s₀, s₁, p, failure, hcreated, hcompeted, hheld, hinit, hfailed⟩ := stumble?_cases h
  have hlead : s.run now (c.lead (E := Interface.none)) = (c', s') := by
    rw [lead, run_takeSteps, hcreated]
    dsimp only
    rw [run_takeSteps, hcompeted]
    dsimp only
    rw [run_takeSteps_singleton, run_initialize?, hheld]
    dsimp only
    rw [if_neg (by rw [hinit]; exact Bool.false_ne_true), hfailed]
    rfl
  rw [run_pass, hlead]

end Candidate

namespace Campaign

variable {source : String} {plans : List (List Collection)} {flagged : Prop} {w : Campaign}
  {i : Nat} {c c' : Candidate} {s s' : Frail}

/-! ## What the steps leave of the note -/

theorem Sound.isInitialized_ensureCreated (hw : Sound source plans flagged (w.put i c s))
    (hi : i < w.candidates.length) :
    (s.run w.now (c.ensureCreated (E := Interface.none)).run).2.table.isInitialized source =
      s.table.isInitialized source := by
  have hsource := (hw.fits i c (candidate_put hi)).ofSource
  have hid := Candidate.id_newRecord w.now hsource
  rcases Candidate.run_ensureCreated_cases w.now hsource s with
    ⟨-, hrun⟩ | ⟨failure, -, hrun⟩ | ⟨-, hrun⟩ | ⟨hfree, hrun⟩
  · rw [hrun]
  · rw [hrun]
    rfl
  · rw [hrun]
    rfl
  · rw [hrun, Table.isInitialized_of_none hfree]
    exact Table.isInitialized_of_progress
      ((Table.find?_insert (hid ▸ hfree) _).trans (if_pos hid.symm)) rfl

theorem Sound.isInitialized_compete (hw : Sound source plans flagged (w.put i c s))
    (hi : i < w.candidates.length) :
    (s.run w.now (c.compete (E := Interface.none)).run).2.table.isInitialized source =
      s.table.isInitialized source := by
  have hsource := (hw.fits i c (candidate_put hi)).ofSource
  rcases Candidate.run_compete_cases w.now hw.good hsource hw.hasProgress with
    hrun | ⟨failure, hrun⟩ | ⟨r, b, hr, -, hprogress, hrun⟩ | hrun
  · rw [hrun]
  · rw [hrun]
    rfl
  · have hid : (r.claimed c.node.owner w.now c.node.lease).id = leaderId source :=
      (Table.find?_some hr).2
    have hnew : (s.table.replace (r.claimed c.node.owner w.now c.node.lease)).find?
        (leaderId source) = some (r.claimed c.node.owner w.now c.node.lease) :=
      hid ▸ Table.find?_replace_self (hid ▸ hr)
    rw [hrun, Table.isInitialized_of_progress hr hprogress]
    exact Table.isInitialized_of_progress hnew hprogress
  · rw [hrun]
    rfl

theorem Sound.isInitialized_bootstrap (hw : Sound source plans flagged (w.put i c s)) :
    (s.run w.now (c.bootstrap (E := Interface.none)).run).2.table.isInitialized source =
      s.table.isInitialized source := by
  obtain ⟨-, hgrows, -⟩ := Candidate.run_bootstrap w.now hw.good c
  rw [Table.isInitialized, Table.isInitialized, hgrows.1]

/-- A renewal without the note does not write it. -/
theorem Sound.isInitialized_renew (hw : Sound source plans flagged (w.put i c s))
    (hi : i < w.candidates.length) {p : Partition leaderKind} (hheld : c.held = some p)
    (hinit : p.isInitialized = false) :
    (s.run w.now (c.renew (E := Interface.none))).2.table.isInitialized source =
      s.table.isInitialized source := by
  obtain ⟨r, old, new, htenure⟩ := (hw.fits i c (candidate_put hi)).tenure p hheld
  obtain rfl := htenure.partition
  obtain rfl : new = false := hinit
  rcases hw.transition_cases hi (Candidate.record_of_held hheld) htenure.id with
    ⟨failure, hfault⟩ | ⟨hfault, hs⟩ | ⟨hfault, hs⟩
  · rw [Candidate.run_renew, hheld]
    dsimp only
    rw [Frail.run_transition_of_fault _ hfault]
    rfl
  · obtain rfl : old = false := Bool.eq_false_iff.mpr fun hold =>
      absurd (htenure.forward hold) Bool.false_ne_true
    have hwritten : (s.written (.save c.settings.leaseExtension) w.now false r).table.find? r.id =
      some (leaderMoved (.save c.settings.leaseExtension) w.now false r) := Frail.find_written _ hs
    rw [htenure.id] at hs hwritten
    rw [Candidate.run_renew_of_current w.now hheld hfault (htenure.id ▸ hs),
      Table.isInitialized_of_progress hs htenure.progress]
    exact Table.isInitialized_of_progress hwritten (progress_leaderMoved _)
  · rw [Candidate.run_renew_of_stale w.now hheld hfault hs]
    rfl

/-! ## A pass without a bootstrap -/

/-- What a pass of a candidate at a place comes to when its bootstrap has failed and has left the
candidate `c'` and the store `s'`. -/
structure Stumbled (source : String) (i : Nat) (c' : Candidate) (s' : Frail) (w w' : Campaign) :
    Prop where
  /-- The note is not written. -/
  unnoted : w'.table.isInitialized source = w.table.isInitialized source
  /-- The lease is renewed all the same, if the record in hand is the stored one and the renewal
  does not fail. -/
  renewed : s'.table.find? (leaderId source) = c'.record → s'.fault? = none →
    ∃ c'' r, w'.candidates[i]? = some c'' ∧ c''.record = some r ∧ w'.stored source = some r ∧
      r.status = some .assigned ∧ r.owner = some c'.node.owner ∧
      r.leaseExpiry = some (w.now.after c'.settings.leaseExtension)

theorem Sound.stumbled (hw : Sound source plans flagged w) (hi : w.candidates[i]? = some c)
    {faults : List (Option Failure)} (h : c.stumble? w.now (w.store faults) = some (c', s'))
    (hbound : (w.step (.pass i faults : Move source)).writes source < UInt64.size) :
    Stumbled source i c' s' w (w.step (.pass i faults : Move source)) := by
  obtain ⟨hlt, -⟩ := List.getElem?_eq_some_iff.mp hi
  have hpass : w.step (.pass i faults : Move source) = _ := play_of_some hi
  have hrun := Candidate.run_pass_of_stumble h
  rw [hpass, hrun] at hbound ⊢
  obtain ⟨c₀, s₀, s₁, p, failure, hcreated, hcompeted, hheld, hinit, hfailed⟩ :=
    Candidate.stumble?_cases h
  -- The invariant, and the note, at each step up to the renewal.
  rw [← put_self hi faults] at hw
  have hw₀ := hw.ensureCreated hlt
  have hnote₀ := hw.isInitialized_ensureCreated hlt
  rw [hcreated] at hw₀ hnote₀
  have hbound' : writesIn (leaderId source) s'.history < UInt64.size :=
    Nat.lt_of_le_of_lt (Frail.writesIn_run_le _ _ _) hbound
  have hbound₁ : writesIn (leaderId source) s₁.history < UInt64.size := by
    have hle : writesIn (leaderId source) s₁.history ≤ writesIn (leaderId source)
      (s₁.run w.now (c'.bootstrap (E := Interface.none)).run).2.history :=
        Frail.writesIn_run_le _ _ s₁
    rw [hfailed] at hle
    exact Nat.lt_of_le_of_lt hle hbound'
  have hw₁ := hw₀.compete hlt (by rw [show c.kept (.ok c₀) = c₀ from rfl, hcompeted]; exact hbound₁)
  have hnote₁ := hw₀.isInitialized_compete hlt
  rw [show c.kept (.ok c₀) = c₀ from rfl, hcompeted] at hw₁ hnote₁
  have hw' := (hw₁.bootstrap hlt).1
  have hnote' := hw₁.isInitialized_bootstrap
  rw [show c₀.kept (.ok c') = c' from rfl, hfailed] at hw' hnote'
  have hnote := hw'.isInitialized_renew hlt hheld hinit
  refine ⟨hnote.trans (hnote'.trans (hnote₁.trans hnote₀)), fun hcurrent hfault => ?_⟩
  obtain ⟨r, old, new, htenure⟩ := (hw'.fits i c' (candidate_put hlt)).tenure p hheld
  obtain rfl := htenure.partition
  rw [Candidate.record_of_held hheld] at hcurrent
  rw [Candidate.run_renew_of_current w.now hheld hfault (htenure.id ▸ hcurrent)]
  obtain ⟨r', hrecord, hs, hstatus, howner, hexpiry⟩ :=
    leads_renewed (c := c') new hcurrent htenure.id htenure.status w.now
  exact ⟨_, r', candidate_put hlt, hrecord, hs, hstatus, howner.trans htenure.owner, hexpiry⟩

/-! ## Runs -/

/-- A stored note comes true for the rest. -/
theorem Sound.noted (hw : Sound source plans flagged w)
    (h : w.table.isInitialized source = true) : Sound source plans True w := by
  obtain ⟨r, hr⟩ : ∃ r, w.table.find? (leaderId source) = some r := by
    by_contra hnone
    rw [Table.isInitialized_of_none (Option.eq_none_iff_forall_ne_some.mpr
      fun r hr => hnone ⟨r, hr⟩)] at h
    exact absurd h Bool.false_ne_true
  obtain ⟨b, hprogress, hprepared, -⟩ := hw.stored r hr
  obtain rfl : b = true := (Table.isInitialized_of_progress hr hprogress).symm.trans h
  refine { hw with stored := fun x hx => ?_, kept := fun _ => Table.has_of_find hr }
  obtain rfl := Option.some.inj (hr.symm.trans hx)
  exact ⟨true, hprogress, hprepared, fun _ => rfl⟩

theorem Sound.isInitialized (hw : Sound source plans True w) :
    w.table.isInitialized source = true := by
  obtain ⟨r, hr⟩ := Table.has_iff.mp (hw.kept trivial)
  obtain ⟨b, hprogress, -, htrue⟩ := hw.stored r hr
  rw [Table.isInitialized_of_progress hr hprogress, htrue trivial]

/-- A stored note is right. -/
theorem Sound.prepared (hw : Sound source plans True w) : Prepared source plans w.table := by
  obtain ⟨r, hr⟩ := Table.has_iff.mp (hw.kept trivial)
  obtain ⟨b, -, hprepared, htrue⟩ := hw.stored r hr
  exact hprepared (htrue trivial)

/-- **A bootstrap is done once.**  Candidates of one source that share a list of collections make
passes and step down, one at a time and in any order, while the clock goes on, others use the table
for anything but the leader's record, and requests fail.  As long as the leader's record has been
written fewer than `2^64` times, the range of a version,

* when the stored record says that everything has been created, every collection is ready;
* once it says so, it goes on saying so;
* a pass whose bootstrap has failed does not make it say so, and yet renews the lease in hand. -/
theorem initialization (source : String) (start : Instant) (cs : List Collection)
    (entrants : List Entrant) (hplan : ∀ e ∈ entrants, e.collections = cs)
    (moves : List (Move source))
    (h : (run source start entrants moves).writes source < UInt64.size) :
    ((run source start entrants moves).table.isInitialized source = true →
      ∀ c ∈ cs, c.Ready source (run source start entrants moves).table) ∧
    (∀ before rest, moves = before ++ rest →
      (run source start entrants before).table.isInitialized source = true →
        (run source start entrants moves).table.isInitialized source = true) ∧
    ∀ before i faults rest, moves = before ++ .pass i faults :: rest → ∀ c c' s',
      (run source start entrants before).candidates[i]? = some c →
      c.stumble? (run source start entrants before).now
        ((run source start entrants before).store faults) = some (c', s') →
      Stumbled source i c' s' (run source start entrants before)
        (run source start entrants (before ++ [.pass i faults])) := by
  have hearlier : ∀ before rest, moves = before ++ rest →
      (run source start entrants before).writes source < UInt64.size := by
    rintro before rest rfl
    rw [run_append] at h
    exact Nat.lt_of_le_of_lt (writes_le_foldl _ rest) h
  refine ⟨fun hnoted => ?_, ?_, ?_⟩
  · have hw := (sound_run source start entrants moves h).noted hnoted
    obtain ⟨plan, hmem, hready⟩ := hw.prepared
    obtain ⟨e, he, rfl⟩ := List.mem_map.mp hmem
    exact hplan e he ▸ hready
  · intro before rest hmoves hnoted
    have hw := (sound_run source start entrants before (hearlier before rest hmoves)).noted hnoted
    subst hmoves
    rw [run_append] at h ⊢
    exact (hw.foldl rest h).isInitialized
  · intro before i faults rest hmoves c c' s' hi hstumbles
    have hpass := hearlier (before ++ [.pass i faults]) rest
      (by rw [hmoves, List.append_assoc]; rfl)
    have hw := sound_run source start entrants before (hearlier before _ hmoves)
    rw [run_append] at hpass ⊢
    exact hw.stumbled hi hstumbles hpass

/-- Two nodes with one list of collections. -/
def twoBootstraps : List Entrant :=
  [⟨"node-a", .seconds 60, [⟨"db.orders", some 100, true⟩], .default⟩,
    ⟨"node-b", .seconds 60, [⟨"db.orders", some 100, true⟩], .default⟩]

/-- The first two requests succeed, and the third one fails. -/
def outage : List (Option Failure) := [none, none, some (.storage "down")]

/-- The first bootstrap fails, and the lease is renewed; the next one succeeds, and is noted. -/
theorem initialization_twoBootstraps :
    let moves : List (Move "db") := [.pass 0 outage, .pass 0 []]
    (run "db" .epoch twoBootstraps moves).writes "db" < UInt64.size ∧
      (run "db" .epoch twoBootstraps moves).table.isInitialized "db" = true ∧
      Collection.Ready "db" ⟨"db.orders", some 100, true⟩
        (run "db" .epoch twoBootstraps moves).table ∧
      ∃ c, (starting "db" .epoch twoBootstraps).candidates[0]? = some c ∧
        (c.stumble? .epoch ((starting "db" .epoch twoBootstraps).store outage)).isSome ∧
        ∃ r, (run "db" .epoch twoBootstraps [.pass 0 outage]).stored "db" = some r ∧
          r.owner = some "node-a" := by
  intro moves
  let c := Entrant.candidate "db"
    ⟨"node-a", .seconds 60, [⟨"db.orders", some 100, true⟩], .default⟩
  have hnoted : (run "db" .epoch twoBootstraps moves).table.isInitialized "db" = true := by
    decide +kernel
  have hwrites : (run "db" .epoch twoBootstraps moves).writes "db" < UInt64.size := by
    decide +kernel
  have hcurrent : ∃ x, c.stumble? .epoch ((starting "db" .epoch twoBootstraps).store outage) =
      some x ∧ (x.2.table.find? (leaderId "db") = x.1.record ∧ x.2.fault? = none ∧
        x.1.node.owner = "node-a") := by
    have h : (c.stumble? .epoch ((starting "db" .epoch twoBootstraps).store outage)).any (fun x =>
        x.2.table.find? (leaderId "db") = x.1.record ∧ x.2.fault? = none ∧
          x.1.node.owner = "node-a") = true := by decide +kernel
    obtain ⟨x, hx, hcurrent⟩ := (Option.any_eq_true _ _).mp h
    exact ⟨x, hx, of_decide_eq_true hcurrent⟩
  obtain ⟨⟨c', s'⟩, hstumbles, hcurrent, hfault, howner⟩ := hcurrent
  obtain ⟨hready, -, hfailed⟩ := initialization "db" .epoch [⟨"db.orders", some 100, true⟩]
    twoBootstraps (by decide) moves hwrites
  obtain ⟨-, hrenewed⟩ := hfailed [] 0 outage [.pass 0 []] rfl c c' s' rfl hstumbles
  obtain ⟨-, r, -, -, hs, -, howner', -⟩ := hrenewed hcurrent hfault
  exact ⟨hwrites, hnoted, hready hnoted _ List.mem_cons_self, c, rfl,
    Option.isSome_of_eq_some hstumbles, r, hs, howner ▸ howner'⟩

end Campaign

end LeasedWork
