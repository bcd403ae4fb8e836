import LeasedWork.Proofs.Fleet.Openings

/-! # What a record keeps for life

A transition writes back a whole record, made of one that its caller has had in hand, perhaps for a
long time.  If one of these were accepted that is not the stored one, the count of closings could
fall and the time of a completion be forgotten.  None is: the calls that have succeeded
(`Fleet.log`) tell how often a record has been closed and when it was last completed, and what it
was created with stays (`Fleet.counted_for_life`).

What a turn leaves of a stored record is read off once (`Fleet.next_cases`): the record itself, a
claim of it, or what the successful transition of the turn makes of it.
-/
namespace LeasedWork

/-! ## Transitions that have succeeded -/

namespace Transition

/-- Whether it closes a record, be it for good. -/
def isClose : Transition → Bool
  | .close _ _ => true
  | _ => false

/-- Whether it completes a record that has been closed so often before. A close does when it is at
least the so-many-th that it names as the limit. -/
def completes (closings : Nat) : Transition → Bool
  | .complete => true
  | .close _ limit => limit.any (·.toNat ≤ closings + 1)
  | _ => false

end Transition

/-- Transitions of one record, each with the time at which it was made, the first one first. -/
abbrev Log := List (Instant × Transition)

namespace Log

/-- How often the record has been closed. -/
def closings (log : Log) : Nat := log.countP fun x => x.2.isClose

/-- The times at which the record was completed, which had been closed so often before. -/
def completions (before : Nat) : Log → List Instant
  | [] => []
  | (time, t) :: rest =>
    (if t.completes before then [time] else []) ++
      completions (before + if t.isClose then 1 else 0) rest

/-- When the record was last completed. -/
def lastCompletion? (log : Log) : Option Instant := (log.completions 0).getLast?

theorem closings_concat (log : Log) (time : Instant) (t : Transition) :
    closings (log ++ [(time, t)]) = log.closings + if t.isClose then 1 else 0 := by
  simp [closings, List.countP_append, List.countP_singleton]

theorem completions_concat (before : Nat) (log : Log) (time : Instant) (t : Transition) :
    completions before (log ++ [(time, t)]) = log.completions before ++
      if t.completes (before + log.closings) then [time] else [] := by
  induction log generalizing before with
  | nil => exact List.append_nil _
  | cons x rest ih =>
    have hcount : before + closings (x :: rest) =
        before + (if x.2.isClose then 1 else 0) + closings rest := by
      rw [closings, List.countP_cons, closings]
      omega
    rw [List.cons_append, completions, completions, ih, hcount, List.append_assoc]

/-- A completion is the last one from then on. -/
theorem lastCompletion?_concat (log : Log) (time : Instant) (t : Transition) :
    lastCompletion? (log ++ [(time, t)]) =
      if t.completes log.closings then some time else log.lastCompletion? := by
  rw [lastCompletion?, completions_concat, Nat.zero_add]
  split
  · exact List.getLast?_concat
  · rw [List.append_nil, lastCompletion?]

end Log

namespace Hand

variable (x : Hand) (t : Transition) (now : Instant) (r : Record)

theorem createdAt_moved : (x.moved t now r).createdAt = r.createdAt := t.createdAt_apply now _

theorem readOnly_moved : (x.moved t now r).readOnly = r.readOnly := t.readOnly_apply now _

/-- A transition counts itself if it is a close. -/
theorem toNat_closedCount_moved (h : r.closedCount.toNat + 1 < UInt64.size) :
    (x.moved t now r).closedCount.toNat = r.closedCount.toNat + if t.isClose then 1 else 0 := by
  cases t with
  | close reopenAfter limit =>
    rw [closedCount_close, Fleet.Coherent.toNat_succ (Nat.le_refl _) h]
    rfl
  | save extension => rw [closedCount_moved x now (t := .save extension) nofun]; rfl
  | complete => rw [closedCount_moved x now (t := .complete) nofun]; rfl
  | giveUp => rw [closedCount_moved x now (t := .giveUp) nofun]; rfl

/-- A transition notes its time if it completes the record. -/
theorem completedAt_moved (h : r.closedCount.toNat + 1 < UInt64.size) :
    (x.moved t now r).completedAt =
      if t.completes r.closedCount.toNat then some now else r.completedAt := by
  unfold moved Node.proposal Transition.apply
  cases t with
  | save extension => dsimp only; split <;> rfl
  | complete => rfl
  | giveUp => rfl
  | close reopenAfter limit =>
    have hlimit : (limit.any fun most => most ≤ r.closedCount + 1) =
        (Transition.close reopenAfter limit).completes r.closedCount.toNat := by
      rw [Transition.completes, ← Fleet.Coherent.toNat_succ (Nat.le_refl _) h]
      rfl
    dsimp only
    rw [hlimit]
    split <;> rfl

end Hand

namespace Fleet

/-- The transition that a turn makes of the record of an identity, when the call succeeds. -/
def made? (id : RecordId) (w : Fleet) : Turn → Option Transition
  | .setClock _ => none
  | .move m => m.transition?.bind fun (i, t) =>
    if w.hands[i]?.any fun x => x.record.any (·.id = id) &&
        (w.perform (Node.transition x.piece t)).1.isOk
    then some t else none

/-- All transitions of an identity that succeed in a run of turns. -/
def log (id : RecordId) (w : Fleet) : List Turn → Log
  | [] => []
  | turn :: rest => ((w.made? id turn).map fun t => (w.now, t)).toList ++ log id (w.next turn) rest

variable {w : Fleet} {id : RecordId} {ws : List Write} {s : Record} {most : Nat}

/-- A call succeeds when its partition moves. -/
theorem isOk_transition {i : Nat} {x : Hand} (hi : w.hands[i]? = some x) (t : Transition) :
    (w.perform (Node.transition x.piece t)).1.isOk = true ↔ ∃ r, w.Moves i t x r := by
  rw [perform_transition]
  split
  · rename_i hnot
    obtain ⟨hneeds, hunleased⟩ := (Bool.and_eq_true _ _).mp hnot
    refine iff_of_false Bool.noConfusion ?_
    rintro ⟨r, hmoves⟩
    have hleased : Held.leased x.piece = true := hmoves.leased hneeds
    rw [hleased] at hunleased
    cases hunleased
  · rename_i hmay
    have hleased : t.needsLease = true → x.leased = true := by
      intro hneeds
      rw [hneeds, Bool.true_and, Bool.not_eq_true', Bool.not_eq_false] at hmay
      exact hmay
    cases hr : Held.record x.piece with
    | none =>
      refine iff_of_false Bool.noConfusion ?_
      rintro ⟨r, hmoves⟩
      exact nomatch hr.symm.trans hmoves.record
    | some r =>
      dsimp only
      by_cases hs : ∃ s, w.table.find? (Node.proposal x.piece t w.now r).id = some s ∧
          s.version = (Node.proposal x.piece t w.now r).version
      · obtain ⟨s, hs, hversion⟩ := hs
        rw [Table.answer_update_of_current w.now hs hversion]
        rw [Node.id_proposal] at hs
        rw [Node.version_proposal] at hversion
        exact iff_of_true rfl ⟨r, hi, hr, hleased, s, hs, hversion⟩
      · rw [Table.answer_update_of_stale w.now fun s hfind hversion => hs ⟨s, hfind, hversion⟩]
        refine iff_of_false Bool.noConfusion ?_
        rintro ⟨r', hmoves⟩
        obtain rfl := Option.some.inj (hr.symm.trans hmoves.record)
        rw [Node.id_proposal, Node.version_proposal] at hs
        exact hs hmoves.current

theorem made?_eq_some_iff {m : Move} {t : Transition} : w.made? id (.move m) = some t ↔
    ∃ i x r, m.transition? = some (i, t) ∧ w.Moves i t x r ∧ r.id = id := by
  rw [made?, Option.bind_eq_some_iff]
  constructor
  · rintro ⟨⟨i, u⟩, hm, hmade⟩
    obtain ⟨hany, hu⟩ := Option.ite_none_right_eq_some.mp hmade
    obtain rfl := Option.some.inj hu
    obtain ⟨x, hx, hboth⟩ := (Option.any_eq_true _ _).mp hany
    obtain ⟨hid, hok⟩ := (Bool.and_eq_true _ _).mp hboth
    obtain ⟨r, hmoves⟩ := (isOk_transition hx u).mp hok
    rw [hmoves.record] at hid
    exact ⟨i, x, r, hm, hmoves, of_decide_eq_true hid⟩
  · rintro ⟨i, x, r, hm, hmoves, rfl⟩
    refine ⟨(i, t), hm, if_pos ?_⟩
    rw [hmoves.hand, Option.any_some, hmoves.record, Option.any_some,
      (isOk_transition hmoves.hand t).mpr ⟨r, hmoves⟩, Bool.and_true]
    exact decide_eq_true rfl

/-- **What a turn leaves of a stored record.** -/
theorem next_cases (hw : Coherent s.id most w) (hs : w.table.find? s.id = some s) (turn : Turn) :
    (w.made? s.id turn = none ∧ ((w.next turn).table.find? s.id = some s ∨
      ∃ owner lease, (w.next turn).table.find? s.id = some (s.claimed owner w.now lease))) ∨
    ∃ (x : Hand) (t : Transition), w.made? s.id turn = some t ∧
      (w.next turn).table.find? s.id = some (x.moved t w.now s) := by
  cases turn with
  | setClock t => exact .inl ⟨rfl, .inl hs⟩
  | move m =>
    obtain ⟨s', hs', hbecomes⟩ := becomes hw hs m
    cases hbecomes with
    | kept hkept =>
      refine .inl ⟨Option.eq_none_iff_forall_ne_some.mpr fun t ht => ?_, .inl hs'⟩
      obtain ⟨i, x, r, hm, hmoves, hid⟩ := made?_eq_some_iff.mp ht
      rw [← hid] at hs hw
      obtain rfl : s = r := Option.some.inj (hs.symm.trans (hw.stored_of_moves hmoves))
      exact hkept i t hm x hmoves
    | claimed n lease hm _ =>
      refine .inl ⟨Option.eq_none_iff_forall_ne_some.mpr fun t ht => ?_, .inr ⟨_, _, hs'⟩⟩
      obtain ⟨_, _, _, htransition, -⟩ := made?_eq_some_iff.mp ht
      exact absurd (hm.symm.trans (Move.isClaim_of_transition? htransition)) Bool.noConfusion
    | moved i t x hm hmoves =>
      exact .inr ⟨x, t, made?_eq_some_iff.mpr ⟨i, x, s, hm, hmoves, rfl⟩, hs'⟩

/-- The next version of a record is written, so it has not been written too often before. -/
theorem Tells.lt_of_version (h : Tells s.id ws w) (hs : w.table.find? s.id = some s) {turn : Turn}
    {s' : Record} (hs' : (w.next turn).table.find? s.id = some s')
    (hversion : s'.version = s.version + 1)
    (hmost : ws.length + (w.wrote s.id turn).length < UInt64.size) :
    ws.length + 1 < UInt64.size := by
  have hne : (w.next turn).table.find? s.id ≠ w.table.find? s.id := by
    rw [hs', hs]
    intro heq
    rw [Option.some.inj heq] at hversion
    exact absurd (UInt64.add_eq_left.mp hversion.symm) (by decide)
  cases turn with
  | setClock t => exact absurd rfl hne
  | move m =>
    obtain ⟨u, hu⟩ := exists_write h.coherent m hne
    rwa [wrote, if_neg hne, hu] at hmost

theorem Tells.closedCount_le (h : Tells s.id ws w) (hs : w.table.find? s.id = some s) :
    s.closedCount.toNat ≤ ws.length := (h.stored s hs).closings ▸ List.countP_le_length

/-- No call succeeds on a record that is not there. -/
theorem made?_of_none (hfree : w.table.find? id = none) (turn : Turn) : w.made? id turn = none := by
  cases turn with
  | setClock t => rfl
  | move m =>
    refine Option.eq_none_iff_forall_ne_some.mpr fun t ht => ?_
    obtain ⟨_, _, _, _, hmoves, rfl⟩ := made?_eq_some_iff.mp ht
    obtain ⟨s, hs, -⟩ := hmoves.current
    exact nomatch hs.symm.trans hfree

/-! ## What the log tells -/

/-- A stored record is as the transitions that succeeded have left it. -/
structure Counted (log : Log) (s : Record) : Prop where
  closings : s.closedCount.toNat = log.closings
  completedAt : s.completedAt = log.lastCompletion?

/-- What is stored of an identity is as its writes say, and as its log does. -/
structure Remembers (id : RecordId) (ws : List Write) (log : Log) (w : Fleet) : Prop where
  tells : Tells id ws w
  stored : ∀ s, w.table.find? id = some s → Counted log s
  missing : w.table.find? id = none → log = []

/-- One record has become another: what it was created with is left, and no closing forgotten. -/
structure Lasts (s s' : Record) : Prop where
  source : s'.source = s.source
  kind : s'.kind = s.kind
  key : s'.key = s.key
  createdAt : s'.createdAt = s.createdAt
  readOnly : s'.readOnly = s.readOnly
  closings : s.closedCount ≤ s'.closedCount

theorem Lasts.refl (s : Record) : Lasts s s := ⟨rfl, rfl, rfl, rfl, rfl, UInt64.le_refl _⟩

theorem Lasts.trans {s₁ s₂ s₃ : Record} (h₁ : Lasts s₁ s₂) (h₂ : Lasts s₂ s₃) : Lasts s₁ s₃ where
  source := h₂.source.trans h₁.source
  kind := h₂.kind.trans h₁.kind
  key := h₂.key.trans h₁.key
  createdAt := h₂.createdAt.trans h₁.createdAt
  readOnly := h₂.readOnly.trans h₁.readOnly
  closings := UInt64.le_trans h₁.closings h₂.closings

theorem Lasts.moved (x : Hand) (t : Transition) (now : Instant) (s : Record)
    (h : s.closedCount.toNat + 1 < UInt64.size) : Lasts s (x.moved t now s) := by
  have hid := x.id_moved t now s
  refine ⟨congrArg RecordId.source hid, congrArg RecordId.kind hid, congrArg RecordId.key hid,
    x.createdAt_moved t now s, x.readOnly_moved t now s, ?_⟩
  rw [UInt64.le_iff_toNat_le, x.toNat_closedCount_moved t now s h]
  exact Nat.le_add_right _ _

theorem Counted.moved {log : Log} (h : Counted log s) (x : Hand) (t : Transition) (now : Instant)
    (hmost : s.closedCount.toNat + 1 < UInt64.size) :
    Counted (log ++ [(now, t)]) (x.moved t now s) where
  closings := by
    rw [x.toNat_closedCount_moved t now s hmost, Log.closings_concat, h.closings]
  completedAt := by
    rw [x.completedAt_moved t now s hmost, Log.lastCompletion?_concat, h.closings, h.completedAt]

namespace Remembers

variable {log : Log}

theorem starting (id : RecordId) (start : Instant) : Remembers id [] [] (Fleet.starting start) where
  tells := tells_starting id start
  stored _ h := nomatch h
  missing _ := rfl

/-- A record that can still be written can still be closed without its count coming round. -/
theorem lt_of_moved (h : Remembers s.id ws log w) (hs : w.table.find? s.id = some s) {turn : Turn}
    {x : Hand} {t : Transition}
    (hmoved : (w.next turn).table.find? s.id = some (x.moved t w.now s))
    (hmost : ws.length + (w.wrote s.id turn).length < UInt64.size) :
    s.closedCount.toNat + 1 < UInt64.size := by
  have hlt := h.tells.lt_of_version hs hmoved (x.version_moved t w.now s) hmost
  have hle := h.tells.closedCount_le hs
  omega

/-- **What a turn leaves is as the log says**, which the turn extends if it succeeds. -/
theorem next (h : Remembers id ws log w) (turn : Turn)
    (hmost : ws.length + (w.wrote id turn).length < UInt64.size) :
    Remembers id (ws ++ w.wrote id turn)
      (log ++ ((w.made? id turn).map fun t => (w.now, t)).toList) (w.next turn) := by
  have htells := h.tells.next turn hmost
  cases hs : w.table.find? id with
  | none =>
    -- The turn may create the record, which then is as an empty log says.
    rw [made?_of_none hs turn, h.missing hs]
    refine ⟨htells, fun s' hs' => ?_, fun _ => rfl⟩
    cases turn with
    | setClock t => exact nomatch hs'.symm.trans hs
    | move m =>
      obtain ⟨n, kind, key, leased, progress, now, -, rfl⟩ := appears m hs hs'
      cases leased <;> exact ⟨rfl, rfl⟩
  | some s =>
    obtain rfl := (Table.find?_some hs).2
    rcases next_cases h.tells.coherent hs turn with
      ⟨hmade, hkept | ⟨owner, lease, hclaimed⟩⟩ | ⟨x, t, hmade, hmoved⟩
    · rw [hmade]
      refine ⟨htells, fun s' hs' => ?_, fun hfree => nomatch hfree.symm.trans hkept⟩
      obtain rfl := Option.some.inj (hs'.symm.trans hkept)
      simpa using h.stored _ hs
    · rw [hmade]
      refine ⟨htells, fun s' hs' => ?_, fun hfree => nomatch hfree.symm.trans hclaimed⟩
      obtain rfl := Option.some.inj (hs'.symm.trans hclaimed)
      have hcounted := h.stored s hs
      simpa using (⟨hcounted.closings, hcounted.completedAt⟩ :
        Counted log (s.claimed owner w.now lease))
    · rw [hmade]
      refine ⟨htells, fun s' hs' => ?_, fun hfree => nomatch hfree.symm.trans hmoved⟩
      obtain rfl := Option.some.inj (hs'.symm.trans hmoved)
      exact (h.stored s hs).moved x t w.now (h.lt_of_moved hs hmoved hmost)

/-- **A stored record lasts through a turn.** -/
theorem lasts (h : Remembers id ws log w) (hs : w.table.find? id = some s) (turn : Turn)
    (hmost : ws.length + (w.wrote id turn).length < UInt64.size) :
    ∃ s', (w.next turn).table.find? id = some s' ∧ Lasts s s' := by
  obtain rfl := (Table.find?_some hs).2
  rcases next_cases h.tells.coherent hs turn with
    ⟨-, hkept | ⟨owner, lease, hclaimed⟩⟩ | ⟨x, t, -, hmoved⟩
  · exact ⟨s, hkept, .refl s⟩
  · exact ⟨_, hclaimed, rfl, rfl, rfl, rfl, rfl, UInt64.le_refl _⟩
  · exact ⟨_, hmoved, .moved x t w.now s (h.lt_of_moved hs hmoved hmost)⟩

/-- What a whole run leaves is as the log says, and what was stored before it lasts. -/
theorem follow (h : Remembers id ws log w) (turns : List Turn)
    (hmost : ws.length + (history id w turns).length < UInt64.size) :
    Remembers id (ws ++ history id w turns) (log ++ w.log id turns) (w.follow turns) ∧
      ∀ s, w.table.find? id = some s →
        ∃ s', (w.follow turns).table.find? id = some s' ∧ Lasts s s' := by
  induction turns generalizing w ws log with
  | nil =>
    rw [history, Fleet.log, List.append_nil, List.append_nil]
    exact ⟨h, fun s hs => ⟨s, hs, .refl s⟩⟩
  | cons turn rest ih =>
    rw [history, List.length_append] at hmost
    obtain ⟨hremembers, hrest⟩ := ih (h.next turn (by omega)) (by rw [List.length_append]; omega)
    rw [history, Fleet.log, ← List.append_assoc, ← List.append_assoc]
    refine ⟨hremembers, fun s hs => ?_⟩
    obtain ⟨s', hs', hlasts⟩ := h.lasts hs turn (by omega)
    obtain ⟨s'', hs'', hlasts'⟩ := hrest s' hs'
    exact ⟨s'', hs'', hlasts.trans hlasts'⟩

end Remembers

theorem history_append (id : RecordId) (w : Fleet) (turns more : List Turn) :
    history id w (turns ++ more) = history id w turns ++ history id (w.follow turns) more := by
  induction turns generalizing w with
  | nil => rfl
  | cons turn rest ih =>
    rw [List.cons_append, history, history, ih, List.append_assoc]
    rfl

/-- **A record is counted for life.**  Any number of nodes share one table and one clock, which may
also be set back, and make any turns, through partitions that they claimed or looked up, however
old.  Then a stored record has been closed as often as calls to close it have succeeded, and its
completion is dated by the last call that succeeded in completing it.  And whatever comes later,
it stays the record of the same work, created at the same time, and is never closed less often.

This holds of every identity whose record is written fewer than `2^64` times. -/
theorem counted_for_life (start : Instant) (turns more : List Turn) (id : RecordId)
    (h : (history id (starting start) (turns ++ more)).length < UInt64.size) (s : Record)
    (hs : ((starting start).follow turns).table.find? id = some s) :
    s.closedCount.toNat = ((starting start).log id turns).closings ∧
    s.completedAt = ((starting start).log id turns).lastCompletion? ∧
    ∃ s', ((starting start).follow (turns ++ more)).table.find? id = some s' ∧ Lasts s s' := by
  rw [history_append, List.length_append] at h
  obtain ⟨hremembers, -⟩ := (Remembers.starting id start).follow turns
    (by rw [List.length_nil]; omega)
  rw [List.nil_append, List.nil_append] at hremembers
  obtain ⟨hclosings, hcompletedAt⟩ := hremembers.stored s hs
  refine ⟨hclosings, hcompletedAt, ?_⟩
  rw [Fleet.follow, List.foldl_append]
  exact (hremembers.follow more h).2 s hs

/-- Work is claimed and closed, and looked up. Half a minute later it is claimed and closed again,
for good, and then a third time, with the partition that was looked up. -/
def closedTwice : List Turn :=
  [.move (.deed (.createEach ⟨"db", "node-a", .seconds 60⟩ "DATA_QUERY" none ["a"])),
    .move (.deed (.claimAny ⟨"db", "node-a", .seconds 60⟩ Factory.bare "DATA_QUERY" none)),
    .move (.deed (.close 0 (.seconds 30) (some 2))),
    .move (.look (.all ⟨"db", "node-b", .seconds 60⟩ Factory.bare "DATA_QUERY")),
    .setClock (Instant.epoch.after (.seconds 30)),
    .move (.deed (.claimAny ⟨"db", "node-a", .seconds 60⟩ Factory.bare "DATA_QUERY" none)),
    .move (.deed (.close 2 (.seconds 30) (some 2))),
    .move (.deed (.close 1 (.seconds 30) none))]

/-- The first close of `closedTwice` is not forgotten by the second; the third does not count. -/
theorem counted_closedTwice :
    ∃ s, ((starting .epoch).follow (closedTwice.take 4)).table.find? ⟨"db", "DATA_QUERY", "a"⟩ =
        some s ∧ s.closedCount.toNat = 1 ∧ s.completedAt = none ∧
      ∃ s', ((starting .epoch).follow closedTwice).table.find? ⟨"db", "DATA_QUERY", "a"⟩ = some s' ∧
        Lasts s s' ∧ s'.closedCount.toNat = 2 ∧
        s'.completedAt = some (Instant.epoch.after (.seconds 30)) := by
  have hlog : (starting .epoch).log ⟨"db", "DATA_QUERY", "a"⟩ closedTwice =
      [(.epoch, .close (.seconds 30) (some 2)),
        (Instant.epoch.after (.seconds 30), .close (.seconds 30) (some 2))] := by
    decide +kernel
  have hwrites : (history ⟨"db", "DATA_QUERY", "a"⟩ (starting .epoch) closedTwice).length = 5 := by
    decide +kernel
  cases hs : ((starting .epoch).follow (closedTwice.take 4)).table.find?
    ⟨"db", "DATA_QUERY", "a"⟩ with
  | none => exact absurd hs (by decide +kernel)
  | some s =>
    obtain ⟨hclosings, hcompletedAt, s', hs', hlasts⟩ := counted_for_life .epoch
      (closedTwice.take 4) (closedTwice.drop 4) ⟨"db", "DATA_QUERY", "a"⟩
      (by rw [List.take_append_drop, hwrites]; decide) s hs
    rw [List.take_append_drop] at hs'
    obtain ⟨hclosings', hcompletedAt', -⟩ := counted_for_life .epoch closedTwice []
      ⟨"db", "DATA_QUERY", "a"⟩ (by rw [List.append_nil, hwrites]; decide) s' hs'
    rw [hlog] at hclosings' hcompletedAt'
    exact ⟨s, rfl, hclosings.trans (by decide +kernel), hcompletedAt.trans (by decide +kernel),
      s', hs', hlasts, hclosings', hcompletedAt'.trans (by decide +kernel)⟩

end Fleet

end LeasedWork
