import LeasedWork.Proofs.Fleet.Coherence
import LeasedWork.Proofs.Fleet.SharedState
import LeasedWork.Proofs.Fleet.Workshops
import LeasedWork.Proofs.Store.Requests

/-! # No lost and no duplicated count

Whoever plans or loads queries of a collection reads its load status, changes the counters and
writes them back, on the condition that nobody has written meanwhile; if somebody has, it starts
again.  Any number of such calls may be under way at once (`Charter.counting`), and still every one
of them counts once if it succeeds and not at all if it fails (`Workshop.counted_once`).

An account with a call (`CountAccount`) says which load status it has seen and whether it has
written.  A write succeeds only with the version that is stored, and versions tell the load statuses
apart: so it is made from what is stored, and adds just what the call counts (`Counting.Exact`).
-/
namespace LeasedWork

/-! ## What is counted -/

/-- What one call counts. -/
inductive Count
  | planned (created : UInt64) (isLast : Bool)
  | loaded (records : UInt64)
  deriving DecidableEq, Repr

namespace Count

def change : Count → LoadStatus → LoadStatus
  | .planned created isLast => LoadStatus.planned created isLast
  | .loaded records => LoadStatus.loaded records

/-- Whether no more queries will be planned after it. -/
def isLast : Count → Bool
  | .planned _ isLast => isLast
  | .loaded _ => false

theorem totalComplete_change (count : Count) (s : LoadStatus) (time : Instant) :
    ((count.change s).stamped time).totalComplete = (s.totalComplete || count.isLast) := by
  cases count with
  | planned created isLast => rfl
  | loaded records => exact (Bool.or_false _).symm

end Count

/-- The counters of a load status. -/
inductive Counter
  | totalPartitions
  | loadedPartitions
  | loadedRecords
  deriving DecidableEq, Repr

namespace Counter

/-- What a load status says. -/
def of (s : LoadStatus) : Counter → UInt64
  | .totalPartitions => s.totalPartitions
  | .loadedPartitions => s.loadedPartitions
  | .loadedRecords => s.loadedRecords

/-- What a call contributes. -/
def share (count : Count) (c : Counter) : UInt64 :=
  match c, count with
  | .totalPartitions, .planned created _ => created
  | .totalPartitions, .loaded _ => 0
  | .loadedPartitions, .planned _ _ => 0
  | .loadedPartitions, .loaded _ => 1
  | .loadedRecords, .planned _ _ => 0
  | .loadedRecords, .loaded records => records

theorem of_change (c : Counter) (count : Count) (s : LoadStatus) (time : Instant) :
    c.of ((count.change s).stamped time) = c.of s + c.share count := by
  have hzero (x : UInt64) : x = x + 0 := (UInt64.add_zero x).symm
  cases c <;> cases count <;> first | rfl | exact hzero _

end Counter

namespace LoadStatus

/-- The identity of a collection's load status. -/
def idOf (source collection : String) : RecordId := ⟨source, sharedKind.tag, keyOf collection⟩

/-- The load status that a record holds. -/
def ofRecord (r : Record) : Except Failure LoadStatus :=
  (Partition.ofRecord sharedKind r).bind fun p => ofMembers p.values

theorem ofRecord_of_text {r : Record} {s : LoadStatus} (hkind : r.kind = sharedKind.tag)
    (hr : r.progress = some (sharedKind.text s.toMembers)) : ofRecord r = .ok s := by
  have hp : Partition.ofRecord sharedKind r = .ok ⟨r.key, some s.toMembers, some r⟩ :=
    Partition.ofRecord_of_keeps hkind rfl s.keeps_toMembers hr
  unfold ofRecord
  rw [hp, Except.bind, Partition.values, Option.getD_some, ofMembers_toMembers]

theorem exists_of_ofRecord {r : Record} {s : LoadStatus} (h : ofRecord r = .ok s) :
    ∃ p, Partition.ofRecord sharedKind r = .ok p ∧ ofMembers p.values = .ok s := by
  unfold ofRecord at h
  cases hp : Partition.ofRecord sharedKind r with
  | error e => rw [hp] at h; cases h
  | ok p => rw [hp] at h; exact ⟨p, rfl, h⟩

theorem progressText_setProgress {k : PartitionKind} (p : Partition k) (x : k.Progress) :
    Held.progressText (p.setProgress x) = some (k.text x) := rfl

theorem record_setProgress {k : PartitionKind} {r : Record} {p : Partition k}
    (hp : Partition.ofRecord k r = .ok p) (x : k.Progress) :
    Held.record (p.setProgress x) = some r := by
  change p.record = some r
  exact Factory.record_ofRecord hp

/-- The record that is written for a load status in hand. -/
theorem ofRecord_proposal {p : Partition sharedKind} {r : Record} {s : LoadStatus}
    (hp : Partition.ofRecord sharedKind r = .ok p) (move : Transition) (time : Instant) :
    ofRecord (Node.proposal (p.setProgress s.toMembers) move time r).nextVersion = .ok s := by
  have hid := Node.id_proposal (p.setProgress s.toMembers) move time r
  have hprogress := Node.progress_proposal (p.setProgress s.toMembers) move time r
  rw [progressText_setProgress] at hprogress
  have hkind := (congrArg RecordId.kind hid).trans (Factory.kind_of_ofRecord hp)
  exact ofRecord_of_text hkind hprogress

end LoadStatus

/-! ## One call -/

/-- What is known of a call: what it counts, which load status it has seen that it has not tried to
write over, and whether it has written. -/
structure CountAccount where
  count : Count
  seen : Option Record
  hasWritten : Bool

/-- What surrounds a call: it may look at the load status, and write the load status that it has
seen with its count. -/
def Surroundings.counting (id : RecordId) : Surroundings where
  State := CountAccount
  May g request :=
    match request with
    | .get i => i = id
    | .update new => g.hasWritten = false ∧ ∃ x s time, g.seen = some x ∧
        LoadStatus.ofRecord x = .ok s ∧ new.id = x.id ∧ new.version = x.version ∧
        LoadStatus.ofRecord new.nextVersion = .ok ((g.count.change s).stamped time)
    | _ => False
  Tells g request told g' :=
    match request, told with
    | .get _, .ok found => ∃ x s, found = some x ∧ LoadStatus.ofRecord x = .ok s ∧
        g' = { g with seen := some x }
    | .update _, .ok _ => g' = { g with seen := none, hasWritten := true }
    | _, .error _ => g' = g
    | _, _ => False

namespace LoadStatus

open Surroundings

variable {E : Interface} {source collection : String} {n : Node}

/-- A call that succeeds has written, and one that fails has not. -/
def Settled (x : Except Failure Unit) (g : CountAccount) : Prop :=
  x.isOk = g.hasWritten

theorem counting_attempt (count : Count) (g : CountAccount) (hcount : g.count = count)
    (hg : g.hasWritten = false) :
    (counting (idOf n.source collection)).Yields (E := E)
      (fun _ g' => g'.hasWritten = true)
      (fun _ g' => g'.count = count ∧ g'.hasWritten = false)
      (attempt n collection count.change) g := by
  have hlook : (counting (idOf n.source collection)).Yields (E := E)
      (fun state (g' : CountAccount) => g'.count = count ∧ g'.hasWritten = false ∧ ∃ p x s,
        state = some p ∧ Partition.ofRecord sharedKind x = .ok p ∧ ofMembers p.values = .ok s ∧
          ofRecord x = .ok s ∧ g'.seen = some x)
      (fun _ g' => g'.count = count ∧ g'.hasWritten = false)
      (n.shared? (Partition.ofRecord sharedKind) (keyOf collection)) g := by
    refine yields_shared rfl ?_ ?_
    · rintro found g' ⟨x, s, rfl, hs, rfl⟩
      obtain ⟨p, hp, hvalues⟩ := exists_of_ofRecord hs
      refine yields_build (fun h => nomatch h) ?_ ?_
      · rintro r q ⟨⟩ hq
        obtain rfl := Except.ok.inj (hp.symm.trans hq)
        exact ⟨hcount, hg, p, x, s, rfl, hp, hvalues, hs, rfl⟩
      · rintro r failure ⟨⟩ hfailure
        cases hp.symm.trans hfailure
    · rintro failure g' rfl
      exact ⟨hcount, hg⟩
  refine hlook.bind ?_
  rintro _ g' ⟨hcount', hg', p, x, s, rfl, hp, hvalues, hs, hseen⟩
  refine yields_ofExcept ?_ fun failure hfailure => nomatch hvalues.symm.trans hfailure
  intro status hstatus
  obtain rfl := Except.ok.inj (hvalues.symm.trans hstatus)
  refine yields_now fun time _ => ?_
  have hrecord := record_setProgress hp ((count.change s).stamped time).toMembers
  have hsave : (counting (idOf n.source collection)).Yields (E := E)
      (fun _ g'' => g''.hasWritten = true)
      (fun _ g'' => g''.count = count ∧ g''.hasWritten = false)
      (n.save (p.setProgress ((count.change s).stamped time).toMembers) none) g' := by
    refine yields_transition hrecord (fun h => nomatch h) fun now => ⟨?_, ?_, ?_⟩
    · refine ⟨hg', x, s, time, hseen, hs, Node.id_proposal _ _ _ _, Node.version_proposal _ _ _ _,
        ?_⟩
      rw [hcount']
      exact ofRecord_proposal hp _ _
    · rintro written g'' rfl
      rfl
    · rintro failure g'' rfl
      exact ⟨hcount', hg'⟩
  exact hsave.bind fun _ _ h => yields_pure h

/-- **What one call does.** -/
theorem counting_update (count : Count) :
    (counting (idOf n.source collection)).Ensures (E := E) Settled
      (update n collection count.change).run ⟨count, none, false⟩ := by
  -- Nothing has been written before any of the attempts.
  have hattempt : ∀ g : CountAccount, g.count = count ∧ g.hasWritten = false →
      (counting (idOf n.source collection)).Yields (E := E)
        (fun _ g' => g'.hasWritten = true)
        (fun failure g' => g'.hasWritten = false ∧
          (failure.isLostWrite = true → g'.count = count ∧ g'.hasWritten = false))
        (attempt n collection count.change) g :=
    fun g hg => (counting_attempt count g hg.1 hg.2).imp (fun _ _ h => h) fun _ _ h =>
      ⟨h.2, fun _ => h⟩
  have hpersist : (counting (idOf n.source collection)).Yields (E := E)
      (fun _ g => g.hasWritten = true) (fun _ g => g.hasWritten = false)
      (update n collection count.change) ⟨count, none, false⟩ :=
    yields_persist hattempt ⟨rfl, rfl⟩
  refine Ensures.imp hpersist fun x g hx => ?_
  cases x with
  | ok _ => exact Eq.symm hx
  | error _ => exact Eq.symm hx

end LoadStatus

/-! ## All calls -/

/-- A request leaves a stored record as it is. -/
def Request.LeavesStored (id : RecordId) : Request → Prop
  | .update r => r.id ≠ id
  | .claim source kind _ _ => ¬ (source = id.source ∧ kind = id.kind)
  | .prepare | .get _ | .create _ | .byStatus _ _ _ _ | .all _ _ => True

theorem Table.find_of_leavesStored {t : Table} {id : RecordId} {r : Record} {request : Request}
    (hleaves : request.LeavesStored id) (hr : t.find? id = some r) (now : Instant) :
    (t.answer now request).2.find? id = some r := by
  have hwritten := t.written_answer now request
  generalize (t.answer now request).2 = u at hwritten
  cases hwritten with
  | none => exact hr
  | created x hfree => exact find?_insert_of_stored hfree hr
  | updated x stored =>
    have hne : id ≠ x.nextVersion.id := Ne.symm hleaves
    exact (find?_replace_of_ne hne).trans hr
  | claimed x owner lease _ _ =>
    have hne : id ≠ (x.claimed owner now lease).id := by
      rintro rfl
      exact hleaves ⟨rfl, rfl⟩
    exact (find?_replace_of_ne hne).trans hr

/-- Calls that count for one collection, by any nodes of a source. A request that fails has not
reached the table, and strangers leave the load status as it is. -/
def Charter.counting (E : Interface) (source collection : String) :
    Charter E Count (Except Failure Unit) where
  Joins count p := ∃ n : Node, n.source = source ∧
    p = (LoadStatus.update n collection count.change).run
  Asks := Request.LeavesStored (LoadStatus.idOf source collection)
  mayHide _ := false

/-- Whether some marks say that the record of an identity has been written. -/
def Mark.haveWritten (id : RecordId) (marks : List Mark) : Bool :=
  0 < marks.countP (·.writes id)

/-- What a call contributes to a counter, which is nothing before it has written. -/
def Counter.contribution (id : RecordId) (c : Counter) (count : Count) (marks : List Mark) : Nat :=
  if Mark.haveWritten id marks then (c.share count).toNat else 0

namespace Counting

variable {id : RecordId} {base r r' : Record} {s₀ s s' : LoadStatus}
  {es : List (Entry Count CountAccount)} {i : Nat} {e new : Entry Count CountAccount}
  {t t' : Table}

/-- How often calls have written. -/
def writes (id : RecordId) (es : List (Entry Count CountAccount)) : Nat :=
  (es.map fun e => e.marks.countP (·.writes id)).sum

/-- The stored load status is the first one and what the calls have contributed since; whatever
load status a call has seen is that one, or an older version of it. -/
structure Exact (id : RecordId) (base : Record) (s₀ : LoadStatus) (r : Record) (s : LoadStatus)
    (es : List (Entry Count CountAccount)) : Prop where
  version : r.version.toNat = base.version.toNat + writes id es
  counts : ∀ c : Counter, c.of s =
    UInt64.ofNat ((c.of s₀).toNat + (es.map fun e => c.contribution id e.label e.marks).sum)
  complete : s.totalComplete =
    (s₀.totalComplete || es.any fun e => Mark.haveWritten id e.marks && e.label.isLast)
  covered : ∀ e ∈ es, ∀ x, e.account.seen = some x → x = r ∨ x.version < r.version

/-- How the accounts with all calls fit the table. Versions tell records apart as long as they do
not wrap around. -/
structure Fits (id : RecordId) (base : Record) (s₀ : LoadStatus) (t : Table)
    (es : List (Entry Count CountAccount)) : Prop where
  stored : ∃ r s, t.find? id = some r ∧ LoadStatus.ofRecord r = .ok s ∧
    (base.version.toNat + writes id es < UInt64.size → Exact id base s₀ r s es)
  seen : ∀ e ∈ es, ∀ x, e.account.seen = some x → x.id = id
  counts : ∀ e ∈ es, e.account.count = e.label
  marks : ∀ e ∈ es, e.marks.countP (·.writes id) = e.account.hasWritten.toNat

/-- A call that has not written just now. -/
theorem Exact.keep (h : Exact id base s₀ r s es) (he : es[i]? = some e)
    (hlabel : new.label = e.label)
    (hmarks : new.marks.countP (·.writes id) = e.marks.countP (·.writes id))
    (hseen : ∀ x, new.account.seen = some x → x = r ∨ e.account.seen = some x) :
    Exact id base s₀ r s (es.set i new) := by
  have hwritten : Mark.haveWritten id new.marks = Mark.haveWritten id e.marks := by
    rw [Mark.haveWritten, Mark.haveWritten, hmarks]
  refine ⟨?_, fun c => ?_, ?_, fun x hx y hy => ?_⟩
  · have hsum := Watch.sum_map_set he new fun e => e.marks.countP (·.writes id)
    rw [h.version, writes, writes]
    omega
  · have hsum := Watch.sum_map_set he new fun e => c.contribution id e.label e.marks
    rw [hlabel, Counter.contribution, Counter.contribution, hwritten] at hsum
    rw [h.counts c, Nat.add_right_cancel hsum]
  · rw [h.complete, Watch.any_set_of_eq he (by rw [hwritten, hlabel])]
  · rcases List.mem_or_eq_of_mem_set hx with hold | rfl
    · exact h.covered x hold y hy
    · rcases hseen y hy with rfl | hy
      · exact .inl rfl
      · exact h.covered e (List.mem_of_getElem? he) y hy

/-- A call that has just written over the stored load status. -/
theorem Exact.write (h : Exact id base s₀ r s es) (he : es[i]? = some e)
    (hnot : e.marks.countP (·.writes id) = 0) (hlabel : new.label = e.label)
    (hmarks : new.marks.countP (·.writes id) = 1) (hseen : new.account.seen = none)
    {time : Instant} (hversion : r'.version = r.version + 1)
    (hbound : base.version.toNat + writes id es + 1 < UInt64.size) :
    Exact id base s₀ r' ((e.label.change s).stamped time) (es.set i new) := by
  have hbefore : Mark.haveWritten id e.marks = false := by rw [Mark.haveWritten, hnot]; rfl
  have hafter : Mark.haveWritten id new.marks = true := by rw [Mark.haveWritten, hmarks]; rfl
  have hsucc : r'.version.toNat = r.version.toNat + 1 := by
    rw [hversion]
    exact Fleet.Coherent.toNat_succ (Nat.le_of_eq h.version) hbound
  refine ⟨?_, fun c => ?_, ?_, fun x hx y hy => ?_⟩
  · have hsum := Watch.sum_map_set he new fun e => e.marks.countP (·.writes id)
    have hstart := h.version
    rw [writes] at hstart ⊢
    omega
  · have hsum := Watch.sum_map_set he new fun e => c.contribution id e.label e.marks
    rw [Counter.contribution, Counter.contribution, hbefore, hafter, hlabel] at hsum
    rw [Counter.of_change, h.counts c]
    simp only [if_true, Bool.false_eq_true, if_false, Nat.add_zero] at hsum
    rw [hsum, ← Nat.add_assoc]
    exact ((UInt64.ofNat_add _ _).trans (congrArg _ UInt64.ofNat_toNat)).symm
  · have hfirst : (Mark.haveWritten id e.marks && e.label.isLast) = true →
        (Mark.haveWritten id new.marks && new.label.isLast) = true := by
      rw [hbefore]
      exact fun hlast => nomatch hlast
    rw [Count.totalComplete_change, h.complete, Watch.any_set he new _ hfirst, hafter, hlabel,
      Bool.true_and, Bool.or_assoc]
  · -- Whatever has been seen before is of an earlier version by now.
    rcases List.mem_or_eq_of_mem_set hx with hold | rfl
    · refine .inr ?_
      rw [UInt64.lt_iff_toNat_lt, hsucc]
      rcases h.covered x hold y hy with rfl | hlt
      · exact Nat.lt_succ_self _
      · exact Nat.lt_succ_of_lt (UInt64.lt_iff_toNat_lt.mp hlt)
    · exact nomatch hseen.symm.trans hy

/-- A call that joins. -/
theorem Fits.join (h : Fits id base s₀ t es) (count : Count) :
    Fits id base s₀ t (es ++ [⟨count, [], ⟨count, none, false⟩⟩]) := by
  have hadded {motive : Entry Count CountAccount → Prop} (hold : ∀ e ∈ es, motive e)
      (hnew : motive ⟨count, [], ⟨count, none, false⟩⟩) :
      ∀ e ∈ es ++ [⟨count, [], ⟨count, none, false⟩⟩], motive e :=
    List.forall_mem_append.mpr ⟨hold, List.forall_mem_singleton.mpr hnew⟩
  have hwrites : writes id (es ++ [⟨count, [], ⟨count, none, false⟩⟩]) = writes id es := by
    simp [writes]
  obtain ⟨r, s, hr, hs, hexact⟩ := h.stored
  refine ⟨⟨r, s, hr, hs, fun hbound => ?_⟩, hadded h.seen (fun _ hx => nomatch hx),
    hadded h.counts rfl, hadded h.marks rfl⟩
  rw [hwrites] at hbound
  obtain ⟨hversion, hcounts, hcomplete, hcovered⟩ := hexact hbound
  refine ⟨by rw [hwrites, hversion], fun c => ?_, ?_, hadded hcovered fun _ hx => nomatch hx⟩
  · simp [hcounts c, Counter.contribution, Mark.haveWritten]
  · simp [hcomplete, Mark.haveWritten]

/-- A call that has not written just now, and may have seen what is stored. -/
theorem Fits.keep (h : Fits id base s₀ t es) (he : es[i]? = some e)
    (hsame : t'.find? id = t.find? id) (hlabel : new.label = e.label)
    (hmarks : new.marks.countP (·.writes id) = e.marks.countP (·.writes id))
    (hcount : new.account.count = e.account.count)
    (hwritten : new.account.hasWritten = e.account.hasWritten)
    (hseen : ∀ x, new.account.seen = some x → t.find? id = some x ∨ e.account.seen = some x) :
    Fits id base s₀ t' (es.set i new) := by
  have hmem := List.mem_of_getElem? he
  obtain ⟨r, s, hr, hs, hexact⟩ := h.stored
  refine ⟨⟨r, s, hsame.trans hr, hs, fun hbound => ?_⟩, Watch.forall_mem_set h.seen ?_,
    Watch.forall_mem_set h.counts ?_, Watch.forall_mem_set h.marks ?_⟩
  · have hsum := Watch.sum_map_set he new fun e => e.marks.countP (·.writes id)
    rw [writes] at hbound
    refine (hexact (by rw [writes]; omega)).keep he hlabel hmarks fun x hx => ?_
    rcases hseen x hx with hx | hx
    · exact .inl (Option.some.inj (hx.symm.trans hr))
    · exact .inr hx
  · intro x hx
    rcases hseen x hx with hx | hx
    · exact (Table.find?_some hx).2
    · exact h.seen e hmem x hx
  · rw [hcount, hlabel, h.counts e hmem]
  · rw [hmarks, hwritten, h.marks e hmem]

/-- A call that writes with the version that is stored has seen what is stored. -/
theorem Fits.write (h : Fits id base s₀ t es) (he : es[i]? = some e)
    (hnot : e.account.hasWritten = false) {x stored record : Record} {time : Instant}
    (hseen : e.account.seen = some x) (hx : LoadStatus.ofRecord x = .ok s)
    (hid : record.id = id) (hversion : record.version = x.version)
    (hrecord : LoadStatus.ofRecord record.nextVersion =
      .ok ((e.account.count.change s).stamped time))
    (hstored : t.find? id = some stored) (hcurrent : stored.version = record.version)
    (hlabel : new.label = e.label)
    (hmarks : new.marks.countP (·.writes id) = e.marks.countP (·.writes id) + 1)
    (hnew : new.account = ⟨e.account.count, none, true⟩) :
    Fits id base s₀ (t.replace record.nextVersion) (es.set i new) := by
  have hmem := List.mem_of_getElem? he
  have hcount := h.counts e hmem
  have hzero : e.marks.countP (·.writes id) = 0 := by
    rw [h.marks e hmem, hnot]
    rfl
  obtain ⟨r, s', hr, hs', hexact⟩ := h.stored
  obtain rfl := Option.some.inj (hstored.symm.trans hr)
  have hfind : (t.replace record.nextVersion).find? id = some record.nextVersion := by
    subst hid
    exact Table.find?_replace_self (r := record.nextVersion) hstored
  refine ⟨⟨_, _, hfind, hrecord, fun hbound => ?_⟩, Watch.forall_mem_set h.seen ?_,
    Watch.forall_mem_set h.counts ?_, Watch.forall_mem_set h.marks ?_⟩
  · have hsum := Watch.sum_map_set he new fun e => e.marks.countP (·.writes id)
    have hbefore : base.version.toNat + writes id es + 1 < UInt64.size := by
      rw [writes] at hbound ⊢
      omega
    have hexact' := hexact (by omega)
    obtain rfl : x = stored := by
      refine (hexact'.covered e hmem x hseen).resolve_right fun hlt => ?_
      rw [hcurrent, hversion] at hlt
      exact UInt64.lt_irrefl _ hlt
    obtain rfl := Except.ok.inj (hx.symm.trans hs')
    have hnext : record.nextVersion.version = x.version + 1 := congrArg (· + 1) hversion
    rw [hcount]
    exact hexact'.write he hzero hlabel (by rw [hmarks, hzero]) (by rw [hnew]) hnext hbefore
  · rw [hnew]
    exact fun _ hx => nomatch hx
  · rw [hnew, hlabel, hcount]
  · rw [hmarks, hnew, hzero]
    rfl

end Counting

/-- The watch over the calls that count for a collection, from a load status on. -/
def Watch.counting (source collection : String) (base : Record) (s₀ : LoadStatus) :
    Watch Count (Except Failure Unit) where
  surroundings := .counting (LoadStatus.idOf source collection)
  post _ := LoadStatus.Settled
  Fits := Counting.Fits (LoadStatus.idOf source collection) base s₀

/-- **Every step of a call is accounted for.** -/
theorem Watch.governs_counting (E : Interface) (source collection : String) (base : Record)
    (s₀ : LoadStatus) :
    (Watch.counting source collection base s₀).Governs (Charter.counting E source collection) where
  joins t es count p hfits hp := by
    obtain ⟨n, rfl, rfl⟩ := hp
    exact ⟨⟨count, none, false⟩, hfits.join count, LoadStatus.counting_update count⟩
  reaches t es i e now request told hfits he hmay htold := by
    obtain rfl : told = (t.answer now request).1 := htold.resolve_right fun ⟨_, _, h⟩ => nomatch h
    match request with
    | .get i =>
      obtain rfl : i = LoadStatus.idOf source collection := hmay
      obtain ⟨r, s, hr, hs, -⟩ := hfits.stored
      refine ⟨{ e.account with seen := some r }, ⟨r, s, hr, hs, rfl⟩,
        hfits.keep he rfl rfl (Mark.countP_concat_of_same e.marks rfl) rfl rfl ?_⟩
      rintro x ⟨⟩
      exact .inl hr
    | .update record =>
      obtain ⟨hnot, x, s, time, hseen, hx, hid, hversion, hrecord⟩ := hmay
      have hid' : record.id = LoadStatus.idOf source collection :=
        hid.trans (hfits.seen e (List.mem_of_getElem? he) x hseen)
      obtain ⟨r, -, hr, -, -⟩ := hfits.stored
      rw [← hid'] at hr
      -- Of the calls that have seen one version only the first one writes.
      by_cases hcurrent : r.version = record.version
      · refine ⟨⟨e.account.count, none, true⟩, ?_, ?_⟩
        · rw [Table.answer_update_of_current now hr hcurrent]
          rfl
        · rw [Table.answer_update_of_current now hr hcurrent]
          have hne := Table.find?_replace_ne (r := record.nextVersion) hr
            (congrArg (· + 1) hcurrent.symm)
          exact hfits.write he hnot hseen hx hid' hversion hrecord (hid' ▸ hr) hcurrent rfl
            (Mark.countP_concat_of_ne e.marks (hid' ▸ hne)) rfl
      · have hstale : ∀ stored, t.find? record.id = some stored →
            stored.version ≠ record.version := by
          intro stored hstored
          obtain rfl := Option.some.inj (hr.symm.trans hstored)
          exact hcurrent
        refine ⟨e.account, ?_, ?_⟩
        · rw [Table.answer_update_of_stale now hstale]
          rfl
        · rw [Table.answer_update_of_stale now hstale]
          exact hfits.keep he rfl rfl (Mark.countP_concat_of_same e.marks rfl) rfl rfl
            fun x hx => .inr hx
    | .prepare | .create _ | .claim _ _ _ _ | .byStatus _ _ _ _ | .all _ _ => exact hmay.elim
  fails t es i e request failure hfits he hmay := by
    refine ⟨e.account, ?_, hfits.keep he rfl rfl rfl rfl rfl fun x hx => .inr hx⟩
    cases request <;> rfl
  asks t es request now hfits hleaves := by
    obtain ⟨r, s, hr, hs, hexact⟩ := hfits.stored
    exact { hfits with stored := ⟨r, s, Table.find_of_leavesStored hleaves hr now, hs, hexact⟩ }
  shows _ := trivial

/-! ## What has been counted -/

/-- The load status that a table holds under an identity. -/
def Table.loadStatus? (id : RecordId) (t : Table) : Option LoadStatus :=
  (t.find? id).bind fun r => (LoadStatus.ofRecord r).toOption

theorem Table.loadStatus_of_find {t : Table} {id : RecordId} {r : Record} {s : LoadStatus}
    (hr : t.find? id = some r) (hs : LoadStatus.ofRecord r = .ok s) :
    t.loadStatus? id = some s := by
  rw [loadStatus?, hr, Option.bind_some, hs]
  rfl

namespace Workshop

variable {E : Interface} {source collection : String} {base : Record} {s₀ : LoadStatus}

/-- What the stored load status says, and what has become of the calls. -/
structure Counted (id : RecordId) (s₀ : LoadStatus) (w : Workshop E Count (Except Failure Unit))
    (s : LoadStatus) : Prop where
  stored : w.table.loadStatus? id = some s
  /-- Every counter is what it was and what the calls that have written contribute. -/
  counts : ∀ c : Counter,
    (c.of s₀).toNat + (w.jobs.map fun job => c.contribution id job.label job.marks).sum <
      UInt64.size →
    (c.of s).toNat =
      (c.of s₀).toNat + (w.jobs.map fun job => c.contribution id job.label job.marks).sum
  complete : s.totalComplete =
    (s₀.totalComplete || w.jobs.any fun job => Mark.haveWritten id job.marks && job.label.isLast)
  /-- No call writes twice, and one that is done has written just if it has succeeded. -/
  calls : ∀ job ∈ w.jobs, job.marks.countP (·.writes id) ≤ 1 ∧
    ∀ x, job.rest = .done x → job.marks.countP (·.writes id) = x.isOk.toNat

theorem counted_of_sound {w : Workshop E Count (Except Failure Unit)}
    (h : (Watch.counting source collection base s₀).Sound w)
    (hbound : base.version.toNat + w.writes (LoadStatus.idOf source collection) < UInt64.size) :
    ∃ s, w.Counted (LoadStatus.idOf source collection) s₀ s := by
  obtain ⟨(es : List (Entry Count CountAccount)), hes, hfits⟩ := h
  obtain ⟨r, s, hr, hs, hexact⟩ := hfits.stored
  have hmap {β : Type} (f : Count → List Mark → β) :
      es.map (fun e => f e.label e.marks) = w.jobs.map fun job => f job.label job.marks :=
    Watch.map_entries f hes
  have hwrites : Counting.writes (LoadStatus.idOf source collection) es =
      w.writes (LoadStatus.idOf source collection) :=
    congrArg List.sum (hmap fun _ marks =>
      marks.countP (·.writes (LoadStatus.idOf source collection)))
  have hexact' := hexact (hwrites ▸ hbound)
  refine ⟨s, Table.loadStatus_of_find hr hs, fun c hsmall => ?_, ?_, fun job hjob => ?_⟩
  · rw [hexact'.counts c, hmap (c.contribution (LoadStatus.idOf source collection))]
    exact UInt64.toNat_ofNat_of_lt hsmall
  · have hany := congrArg (List.any · id) (hmap fun label marks =>
      Mark.haveWritten (LoadStatus.idOf source collection) marks && label.isLast)
    rw [List.any_map, List.any_map] at hany
    exact hexact'.complete.trans (congrArg (s₀.totalComplete || ·) hany)
  · obtain ⟨e, he, hfollows⟩ := Watch.exists_entry hes hjob
    have hmarks := hfits.marks e he
    rw [hfollows.marks] at hmarks
    rw [hmarks]
    refine ⟨Bool.toNat_le _, fun x hx => ?_⟩
    have hsettled : LoadStatus.Settled x e.account := by
      have hensures := hfollows.ensures
      rw [hx] at hensures
      exact hensures
    rw [hsettled]

/-- **No lost and no duplicated count.**  Any number of calls count for one collection, each of
which reads the load status, writes it on the condition that it is still the one that was read, and
starts again up to eight times when it was not; and their steps come in any order, among those of
strangers who leave the load status alone.  Then at all times every counter is what it was at first
and what the calls contribute that have written; a call that has succeeded has written once, and one
that has failed has not.  And once all queries are planned, they stay so.

This holds as long as the load status is written fewer than `2^64` times.  A version is a word, so
after that many writes the first one would come round again. -/
theorem counted_once (start : Table)
    (hbase : start.find? (LoadStatus.idOf source collection) = some base)
    (hs₀ : LoadStatus.ofRecord base = .ok s₀)
    (moves more : List (Move (Charter.counting E source collection)))
    (h : base.version.toNat +
      (run start (moves ++ more)).writes (LoadStatus.idOf source collection) < UInt64.size) :
    ∃ s s', (run start moves).Counted (LoadStatus.idOf source collection) s₀ s ∧
      (run start (moves ++ more)).Counted (LoadStatus.idOf source collection) s₀ s' ∧
      (s.totalComplete = true → s'.totalComplete = true) := by
  have hstart : (Watch.counting source collection base s₀).Fits start [] := by
    refine ⟨⟨base, s₀, hbase, hs₀, fun _ => ⟨rfl, fun c => ?_, ?_, ?_⟩⟩, ?_, ?_, ?_⟩
    · exact UInt64.ofNat_toNat.symm
    · exact (Bool.or_false _).symm
    all_goals exact fun _ he => absurd he List.not_mem_nil
  have hW := Watch.governs_counting E source collection base s₀
  have hgrows : (run start moves).Grows (run start (moves ++ more)) := by
    rw [run_append]
    exact grows_foldl more
  have hle := hgrows.writes_le (LoadStatus.idOf source collection)
  obtain ⟨s, hs⟩ := counted_of_sound (Watch.sound_run hW hstart moves) (by omega)
  obtain ⟨s', hs'⟩ := counted_of_sound (Watch.sound_run hW hstart (moves ++ more)) h
  refine ⟨s, s', hs, hs', fun hcomplete => ?_⟩
  rw [hs.complete, Bool.or_eq_true, List.any_eq_true] at hcomplete
  rw [hs'.complete, Bool.or_eq_true, List.any_eq_true]
  refine hcomplete.imp_right ?_
  -- Whoever has counted the last queries has still done so.
  rintro ⟨job, hjob, hlast⟩
  obtain ⟨i, hi⟩ := List.getElem?_of_mem hjob
  obtain ⟨job', hi', hlabel, hmarks⟩ := hgrows i job hi
  refine ⟨job', List.mem_of_getElem? hi', ?_⟩
  rw [Bool.and_eq_true, Mark.haveWritten, decide_eq_true_eq] at hlast ⊢
  exact ⟨Nat.lt_of_lt_of_le hlast.1 hmarks.sublist.countP_le, hlabel ▸ hlast.2⟩

/-- A load status in which nothing has been counted. -/
def freshStatus : Record :=
  (Record.shared (LoadStatus.idOf "db" "db.orders")
    (some (sharedKind.text (LoadStatus.starting .epoch).toMembers)) .epoch).firstVersion

/-- One node has planned two queries, the last ones, and another one has loaded a query of seven
records. Both read; the first one writes, so the write of the second one is lost, and it starts
again. -/
def twoCalls : List (Move (Charter.counting Interface.none "db" "db.orders")) :=
  let turn (i : Nat) : Move (Charter.counting Interface.none "db" "db.orders") :=
    .turn i ⟨.epoch, none, false, fun q => q.elim⟩
  [.join (.planned 2 true) _ ⟨⟨"db", "node-a", .seconds 60⟩, rfl, rfl⟩,
    .join (.loaded 7) _ ⟨⟨"db", "node-b", .seconds 60⟩, rfl, rfl⟩, turn 0, turn 1] ++
  List.replicate 3 (turn 0) ++ List.replicate 8 (turn 1)

/-- Both are counted, and once. -/
theorem counted_twoCalls : ∃ s, (run ⟨[freshStatus]⟩ twoCalls).Counted
    (LoadStatus.idOf "db" "db.orders") (LoadStatus.starting .epoch) s ∧
    s.totalPartitions.toNat = 2 ∧ s.loadedPartitions.toNat = 1 ∧ s.loadedRecords.toNat = 7 := by
  have hbase : (⟨[freshStatus]⟩ : Table).find? (LoadStatus.idOf "db" "db.orders") =
      some freshStatus := by
    decide +kernel
  have hjobs : (run ⟨[freshStatus]⟩ ([] ++ twoCalls)).jobs.map (fun job =>
      (job.label, job.marks.countP (·.writes (LoadStatus.idOf "db" "db.orders")))) =
        [(.planned 2 true, 1), (.loaded 7, 1)] := by
    decide +kernel
  have hwrites : (run ⟨[freshStatus]⟩ ([] ++ twoCalls)).writes
      (LoadStatus.idOf "db" "db.orders") = 2 := by
    have hsum := congrArg (fun pairs => (pairs.map Prod.snd).sum) hjobs
    simp only [List.map_map] at hsum
    exact hsum
  obtain ⟨-, s, -, hs, -⟩ := counted_once ⟨[freshStatus]⟩ hbase
    (LoadStatus.ofRecord_of_text rfl rfl) [] twoCalls (by rw [hwrites]; decide)
  have hsums (c : Counter) : ((run ⟨[freshStatus]⟩ ([] ++ twoCalls)).jobs.map fun job =>
      c.contribution (LoadStatus.idOf "db" "db.orders") job.label job.marks).sum =
        (c.share (.planned 2 true)).toNat + (c.share (.loaded 7)).toNat := by
    have hsum := congrArg (fun pairs => (pairs.map fun pair : Count × Nat =>
      if (decide (0 < pair.2)) = true then (c.share pair.1).toNat else 0).sum) hjobs
    simp only [List.map_map] at hsum
    exact hsum
  have hcounts (c : Counter) := hs.counts c
  simp only [hsums] at hcounts
  exact ⟨s, hs, hcounts .totalPartitions (by decide), hcounts .loadedPartitions (by decide),
    hcounts .loadedRecords (by decide)⟩

end Workshop

end LeasedWork
