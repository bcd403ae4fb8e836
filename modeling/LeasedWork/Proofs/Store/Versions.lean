import LeasedWork.Proofs.Store.Equivalence
import Mathlib.Data.List.Induction

/-! # A version stands for a record

Every successful update and claim raises the version of the record that it writes by one, and
nothing else changes a record once it has been created.  So the writes to an identity number its
records: there is one record for every count of writes (`Chronicle`), the stored one is that of all
writes so far, and whatever an answer has shown is that of the writes up to then.

From this the three rules of optimistic writing follow, for a table and for a store of objects
alike (`Backend.version_exact`): a version counts writes, two answers with one version show one
record, and an update succeeds exactly when nobody has written since its version was shown.

A record is kept as its backend gives it back (`Backend.kept`): a table gives it back as it was, and
a store of objects as its text shows it.  This makes a difference to a time in a leap second in the
middle of a minute, and to nothing else (`Backend.kept_eq`).
-/
namespace LeasedWork

/-- Whether a request only looks up what is stored. -/
def Request.IsLookup : Request → Prop
  | .get _ | .byStatus _ _ _ _ | .all _ _ => True
  | .prepare | .create _ | .update _ | .claim _ _ _ _ => False

/-! ## Exchanges -/

/-- A request and the answer that it got. -/
structure Exchange where
  request : Request
  answer : request.Answer

namespace Exchange

/-- The records that an answer gives to whoever asked. -/
def shown : Exchange → List Record
  | ⟨.get _, .ok r⟩ => r.toList
  | ⟨.update _, .ok r⟩ => [r]
  | ⟨.claim _ _ _ _, .ok r⟩ => r.toList
  | ⟨.byStatus _ _ _ _, .ok rs⟩ => rs
  | ⟨.all _ _, .ok rs⟩ => rs
  | _ => []

/-- The identity of which a record was created. -/
def created? : Exchange → Option RecordId
  | ⟨.create r, .ok true⟩ => some r.id
  | _ => none

/-- The identity of which the record was updated or claimed. -/
def rewritten? : Exchange → Option RecordId
  | ⟨.update _, .ok r⟩ => some r.id
  | ⟨.claim _ _ _ _, .ok r⟩ => r.map Record.id
  | _ => none

/-- Whether the record of an identity was updated or claimed. -/
def rewrites (id : RecordId) (x : Exchange) : Bool := x.rewritten? == some id

/-- Whether the record of an identity was written at all. -/
def writes (id : RecordId) (x : Exchange) : Bool := x.created? == some id || x.rewrites id

end Exchange

/-- How many exchanges have updated or claimed the record of an identity. -/
def rewritesIn (id : RecordId) (h : List Exchange) : Nat := h.countP (Exchange.rewrites id)

/-- How many exchanges have written the record of an identity. -/
def writesIn (id : RecordId) (h : List Exchange) : Nat := h.countP (Exchange.writes id)

/-! ## One exchange -/

/-- What an exchange does to the record of an identity, in a store that keeps records in a way. -/
structure Exchange.Effect (keep : Record → Record) (id : RecordId) (x : Exchange)
    (t t' : Table) : Prop where
  kept : x.writes id = false → t'.find? id = t.find? id
  created : x.created? = some id →
    t.find? id = none ∧ ∃ s, t'.find? id = some s ∧ s.version = 1
  rewritten : x.rewritten? = some id →
    ∃ s s', t.find? id = some s ∧ t'.find? id = some s' ∧ s'.version = s.version + 1
  /-- What the answer shows is what is stored then, as it is kept. -/
  shown : ∀ r ∈ x.shown, r.id = id → t'.find? id = some (keep r)

variable {keep : Record → Record} {id : RecordId} {t : Table}

/-- A request that only looks shows stored records and writes none. -/
theorem Exchange.effect_of_look {x : Exchange} (hcreated : x.created? = none)
    (hrewritten : x.rewritten? = none) (hshown : ∀ r ∈ x.shown, t.find? r.id = some r) :
    x.Effect (fun r => r) id t t where
  kept _ := rfl
  created h := by rw [hcreated] at h; cases h
  rewritten h := by rw [hrewritten] at h; cases h
  shown r hr hid := hid ▸ hshown r hr

/-- The next version of a stored record takes its place, and the answer shows it. -/
theorem Exchange.effect_of_replace {x : Exchange} {r s : Record} (hs : t.find? r.id = some s)
    (hversion : r.version = s.version + 1) (hcreated : x.created? = none)
    (hrewritten : x.rewritten? = some r.id) (hshown : x.shown = [r]) :
    x.Effect (fun r => r) id t (t.replace r) where
  kept h := by
    refine Table.find?_replace_of_ne fun hid => ?_
    simp [Exchange.writes, Exchange.rewrites, hrewritten, hid] at h
  created h := by rw [hcreated] at h; cases h
  rewritten h := by
    obtain rfl := Option.some.inj (hrewritten.symm.trans h)
    exact ⟨s, r, hs, Table.find?_replace_self hs, hversion⟩
  shown r' hr' hid := by
    rw [hshown, List.mem_singleton] at hr'
    subst hr' hid
    exact Table.find?_replace_self hs

/-- **What one request to a table does.** -/
theorem Table.effect_answer (hd : t.Distinct) (now : Instant) (request : Request) :
    (Exchange.mk request (t.answer now request).1).Effect (fun r => r) id t
      (t.answer now request).2 := by
  have hfind : ∀ r ∈ t.rows, t.find? r.id = some r :=
    fun r hr => (Table.find?_iff hd).mpr ⟨hr, rfl⟩
  cases request with
  | prepare => exact Exchange.effect_of_look rfl rfl fun r hr => by cases hr
  | get i =>
    refine Exchange.effect_of_look rfl rfl fun r hr => ?_
    exact hfind r (Table.find?_some (Option.mem_toList.mp hr)).1
  | byStatus source kind status since =>
    refine Exchange.effect_of_look rfl rfl fun r hr => hfind r ?_
    have hmem := List.mem_filter.mp ((Record.sorted_perm _).mem_iff.mp hr)
    exact (Table.mem_ofKind.mp hmem.1).1
  | all source kind =>
    refine Exchange.effect_of_look rfl rfl fun r hr => hfind r ?_
    exact (Table.mem_ofKind.mp ((Record.sorted_perm _).mem_iff.mp hr)).1
  -- A taken identity is looked at, a free one gets its first version.
  | create r =>
    simp only [Table.answer]
    cases hr : t.find? r.id with
    | some s => exact Exchange.effect_of_look rfl rfl fun r hr => by cases hr
    | none =>
      have hfree : t.find? r.firstVersion.id = none := hr
      have hnew := Table.find?_insert hfree
      refine ⟨fun h => ?_, fun h => ?_, fun h => (by cases h), fun _ h => (by cases h)⟩
      · rw [hnew, if_neg]
        rintro rfl
        simp [Exchange.writes, Exchange.created?, Record.firstVersion, Record.id] at h
      · obtain rfl := Option.some.inj h
        exact ⟨hr, r.firstVersion, (hnew r.id).trans (if_pos rfl), rfl⟩
  | update r =>
    -- Only an update of the stored version rewrites.
    by_cases hcurrent : ∃ s, t.find? r.id = some s ∧ s.version = r.version
    · obtain ⟨s, hs, hversion⟩ := hcurrent
      rw [Table.answer_update_of_current now hs hversion]
      have hnext : r.nextVersion.version = s.version + 1 := congrArg (· + 1) hversion.symm
      exact Exchange.effect_of_replace hs hnext rfl rfl rfl
    · rw [Table.answer_update_of_stale now fun s hs hversion => hcurrent ⟨s, hs, hversion⟩]
      exact Exchange.effect_of_look rfl rfl fun r hr => by cases hr
  | claim source kind owner lease =>
    simp only [Table.answer]
    cases hc : candidates now (t.ofKind source kind) with
    | nil => exact Exchange.effect_of_look rfl rfl fun r hr => by cases hr
    | cons r rest =>
      have hmem : r ∈ candidates now (t.ofKind source kind) := hc ▸ List.mem_cons_self
      have hs := hfind r (Table.mem_ofKind.mp (mem_candidates.mp hmem).1).1
      exact Exchange.effect_of_replace (r := r.claimed owner now lease) hs rfl rfl rfl rfl

/-- The same in a store that keeps the records in its own way, and all of the table so already. -/
theorem Exchange.Effect.map {x : Exchange} {t' : Table} (h : x.Effect (fun r => r) id t t')
    (hid : ∀ r, (keep r).id = r.id) (hversion : ∀ r, (keep r).version = r.version)
    (hkept : ∀ r, t.find? id = some r → keep r = r) : x.Effect keep id t (t'.map keep) where
  kept hx := by
    rw [Table.find?_map hid, h.kept hx]
    cases hr : t.find? id with
    | none => rfl
    | some r => exact congrArg some (hkept r hr)
  created hx := by
    obtain ⟨hfree, s, hs, hfirst⟩ := h.created hx
    exact ⟨hfree, keep s, by rw [Table.find?_map hid, hs, Option.map_some],
      (hversion s).trans hfirst⟩
  rewritten hx := by
    obtain ⟨s, s', hs, hs', hnext⟩ := h.rewritten hx
    exact ⟨s, keep s', hs, by rw [Table.find?_map hid, hs', Option.map_some],
      (hversion s').trans hnext⟩
  shown r hr hr' := by rw [Table.find?_map hid, h.shown r hr hr', Option.map_some]

/-- What a lookup shows is stored. -/
theorem Table.mem_rows_of_lookup {now : Instant} {request : Request} (h : request.IsLookup)
    {x : request.Answer} (hagree : request.Agree (t.answer now request).1 x) {r : Record}
    (hr : r ∈ (Exchange.mk request x).shown) : r ∈ t.rows := by
  cases request with
  | get i =>
    obtain rfl : (t.answer now (.get i)).1 = x := hagree
    exact (Table.find?_some (Option.mem_toList.mp hr)).1
  | byStatus source kind status since =>
    obtain ⟨rs, rs', hrs, rfl, hperm, -⟩ := hagree
    obtain rfl : Record.sorted _ = rs := Except.ok.inj hrs
    have hmem := (Record.sorted_perm _).mem_iff.mp (hperm.mem_iff.mpr hr)
    exact (Table.mem_ofKind.mp (List.mem_filter.mp hmem).1).1
  | all source kind =>
    obtain ⟨rs, rs', hrs, rfl, hperm, -⟩ := hagree
    obtain rfl : Record.sorted _ = rs := Except.ok.inj hrs
    have hmem := (Record.sorted_perm _).mem_iff.mp (hperm.mem_iff.mpr hr)
    exact (Table.mem_ofKind.mp hmem).1
  | prepare | create _ | update _ | claim _ _ _ _ => exact h.elim

/-- Answers that agree tell the same about a record. -/
theorem Exchange.Effect.of_agree {t' : Table} {request : Request} {x y : request.Answer}
    (h : (Exchange.mk request x).Effect keep id t t') (hagree : request.Agree x y) :
    (Exchange.mk request y).Effect keep id t t' := by
  cases request with
  | prepare | get _ | create _ | update _ | claim _ _ _ _ =>
    obtain rfl : x = y := hagree
    exact h
  | byStatus _ _ _ _ | all _ _ =>
    obtain ⟨rs, rs', rfl, rfl, hperm, -⟩ := hagree
    exact ⟨h.kept, h.created, h.rewritten, fun r hr => h.shown r (hperm.mem_iff.mpr hr)⟩

/-! ## A history -/

/-- There is one record of an identity for every count of writes to it: `past n` is the record
after `n` writes.  The stored record is that of all writes, and a shown one is kept as that of the
writes up to the answer that showed it. -/
structure Chronicle (keep : Record → Record) (id : RecordId) (h : List Exchange) (t : Table)
    (past : Nat → Option Record) : Prop where
  stored : t.find? id = past (writesIn id h)
  /-- Without a record there has been no write; with one the first write has created it. -/
  absent : t.find? id = none → writesIn id h = 0
  present : ∀ s, t.find? id = some s → writesIn id h = 1 + rewritesIn id h
  version : ∀ n r, n ≤ writesIn id h → past n = some r → r.version = UInt64.ofNat n
  shown : ∀ i x, h[i]? = some x → ∀ r ∈ x.shown, r.id = id →
    past (writesIn id (h.take (i + 1))) = some (keep r)

namespace Chronicle

variable {h : List Exchange} {past : Nat → Option Record}

theorem empty (keep : Record → Record) (id : RecordId) :
    Chronicle keep id [] Table.empty fun _ => none where
  stored := rfl
  absent _ := rfl
  present _ hs := nomatch hs
  version _ _ _ hr := nomatch hr
  shown _ _ hx := nomatch hx

theorem writesIn_concat (id : RecordId) (h : List Exchange) (x : Exchange) :
    writesIn id (h ++ [x]) = writesIn id h + if x.writes id then 1 else 0 := by
  simp [writesIn, List.countP_append, List.countP_singleton]

theorem rewritesIn_concat (id : RecordId) (h : List Exchange) (x : Exchange) :
    rewritesIn id (h ++ [x]) = rewritesIn id h + if x.rewrites id then 1 else 0 := by
  simp [rewritesIn, List.countP_append, List.countP_singleton]

theorem writesIn_take_le (id : RecordId) (h : List Exchange) (n : Nat) :
    writesIn id (h.take n) ≤ writesIn id h := (List.take_sublist n h).countP_le

/-- A chronicle goes on as long as it stays what it was up to now. -/
theorem extend (hc : Chronicle keep id h t past) {x : Exchange} {t' : Table}
    (hx : x.Effect keep id t t') {past' : Nat → Option Record}
    (hsame : ∀ n ≤ writesIn id h, past' n = past n)
    (hstored : t'.find? id = past' (writesIn id (h ++ [x])))
    (habsent : t'.find? id = none → writesIn id (h ++ [x]) = 0)
    (hpresent : ∀ s, t'.find? id = some s → writesIn id (h ++ [x]) = 1 + rewritesIn id (h ++ [x]))
    (hversion : ∀ s, t'.find? id = some s → s.version = UInt64.ofNat (writesIn id (h ++ [x]))) :
    Chronicle keep id (h ++ [x]) t' past' := by
  refine ⟨hstored, habsent, hpresent, fun n r hn hr => ?_, fun i y hy r hr hid => ?_⟩
  · rcases Nat.lt_or_ge (writesIn id h) n with hlt | hle
    · -- The count has grown by one at most, so that `n` is the new count.
      have hlast : n = writesIn id (h ++ [x]) := by
        rw [writesIn_concat] at hn ⊢
        split at hn <;> split <;> omega
      rw [hlast] at hr ⊢
      exact hversion r (hstored.trans hr)
    · exact hc.version n r hle ((hsame n hle).symm.trans hr)
  · rcases Nat.lt_or_ge i h.length with hlt | hge
    · rw [List.getElem?_append_left hlt] at hy
      rw [List.take_append_of_le_length (by omega), hsame _ (writesIn_take_le id h _)]
      exact hc.shown i y hy r hr hid
    · rw [List.getElem?_append_right hge, List.getElem?_singleton] at hy
      split at hy
      · cases hy
        have hall : (h ++ [x]).take (i + 1) = h ++ [x] := by
          refine List.take_of_length_le ?_
          rw [List.length_append, List.length_singleton]
          omega
        rw [hall, ← hstored]
        exact hx.shown r hr hid
      · cases hy

/-- A write appends a record to the chronicle. -/
theorem write (hc : Chronicle keep id h t past) {x : Exchange} {t' : Table}
    (hx : x.Effect keep id t t') {s : Record} (hw : x.writes id = true) (hs : t'.find? id = some s)
    (hcount : writesIn id h = rewritesIn id (h ++ [x]))
    (hversion : s.version = UInt64.ofNat (writesIn id h + 1)) :
    ∃ past', Chronicle keep id (h ++ [x]) t' past' := by
  have hnew : writesIn id (h ++ [x]) = writesIn id h + 1 := by rw [writesIn_concat, if_pos hw]
  refine ⟨fun n => if n = writesIn id h + 1 then some s else past n, hc.extend hx ?_ ?_ ?_ ?_ ?_⟩
  · intro n hn
    exact if_neg (by omega)
  · rw [hs, hnew, if_pos rfl]
  · intro hnone
    rw [hs] at hnone
    cases hnone
  · intro _ _
    omega
  · intro s' hs'
    obtain rfl := Option.some.inj (hs.symm.trans hs')
    rw [hnew, hversion]

/-- An exchange without a write leaves the chronicle as it is. -/
theorem pass (hc : Chronicle keep id h t past) {x : Exchange} {t' : Table}
    (hx : x.Effect keep id t t') (hw : x.writes id = false) :
    Chronicle keep id (h ++ [x]) t' past := by
  have hkept := hx.kept hw
  have hrewrites : x.rewrites id = false := (Bool.or_eq_false_iff.mp hw).2
  have hsame : writesIn id (h ++ [x]) = writesIn id h := by
    rw [writesIn_concat, hw]
    rfl
  have hsame' : rewritesIn id (h ++ [x]) = rewritesIn id h := by
    rw [rewritesIn_concat, hrewrites]
    rfl
  refine hc.extend hx (fun _ _ => rfl) ?_ ?_ ?_ ?_
  · rw [hkept, hsame, hc.stored]
  · rw [hkept, hsame]
    exact hc.absent
  · rw [hkept, hsame, hsame']
    exact hc.present
  · rw [hkept, hsame]
    exact fun s hs => hc.version _ s (Nat.le_refl _) (hc.stored.symm.trans hs)

/-- **One more exchange.** -/
theorem step (hc : Chronicle keep id h t past) {x : Exchange} {t' : Table}
    (hx : x.Effect keep id t t') : ∃ past', Chronicle keep id (h ++ [x]) t' past' := by
  by_cases hcreated : x.created? = some id
  · obtain ⟨hfree, s, hs, hfirst⟩ := hx.created hcreated
    have hnever := hc.absent hfree
    have hrewrites : ¬ x.rewrites id = true := fun hx' => by
      obtain ⟨s', _, hs', -⟩ := hx.rewritten (beq_iff_eq.mp hx')
      rw [hfree] at hs'
      cases hs'
    have hle : rewritesIn id h ≤ writesIn id h :=
      List.countP_mono_left fun y _ hy => by rw [Exchange.writes, hy, Bool.or_true]
    refine hc.write hx (by simp [Exchange.writes, hcreated]) hs ?_ (by rw [hfirst, hnever]; rfl)
    rw [rewritesIn_concat, if_neg hrewrites]
    omega
  · by_cases hrewritten : x.rewritten? = some id
    · obtain ⟨s, s', hs, hs', hversion⟩ := hx.rewritten hrewritten
      have hrewrites : x.rewrites id = true := beq_iff_eq.mpr hrewritten
      have hcount := hc.present s hs
      have hbefore := hc.version _ s (Nat.le_refl _) (hc.stored.symm.trans hs)
      refine hc.write hx (by rw [Exchange.writes, hrewrites, Bool.or_true]) hs' ?_ ?_
      · rw [rewritesIn_concat, if_pos hrewrites]
        omega
      · rw [hversion, hbefore, UInt64.ofNat_add]
        rfl
    · refine ⟨past, hc.pass hx (Bool.or_eq_false_iff.mpr ⟨?_, ?_⟩)⟩
      · exact beq_eq_false_iff_ne.mpr hcreated
      · exact beq_eq_false_iff_ne.mpr hrewritten

/-! As long as the writes are fewer than the versions, a version counts them. -/

section Bounded

variable (hc : Chronicle keep id h t past) (hversion : ∀ r, (keep r).version = r.version)
  (hbound : writesIn id h < UInt64.size)

include hc hbound

theorem stored_version {s : Record} (hs : t.find? id = some s) :
    s.version.toNat = writesIn id h := by
  rw [hc.version _ s (Nat.le_refl _) (hc.stored.symm.trans hs), UInt64.toNat_ofNat_of_lt' hbound]

include hversion

/-- What an answer has shown is numbered by the writes up to it. -/
theorem shown_version {i : Nat} {x : Exchange} (hx : h[i]? = some x) {r : Record}
    (hr : r ∈ x.shown) (hid : r.id = id) : r.version.toNat = writesIn id (h.take (i + 1)) := by
  have hle := writesIn_take_le id h (i + 1)
  rw [← hversion, hc.version _ _ hle (hc.shown i x hx r hr hid),
    UInt64.toNat_ofNat_of_lt' (Nat.lt_of_le_of_lt hle hbound)]

/-- Answers that show one version show records that are kept as one. -/
theorem keep_eq_of_version {x y : Exchange} (hx : x ∈ h) (hy : y ∈ h) {r r' : Record}
    (hr : r ∈ x.shown) (hr' : r' ∈ y.shown) (hid : r.id = id) (hid' : r'.id = id)
    (hsame : r.version = r'.version) : keep r = keep r' := by
  obtain ⟨i, hi⟩ := List.mem_iff_getElem?.mp hx
  obtain ⟨j, hj⟩ := List.mem_iff_getElem?.mp hy
  have hpast := hc.shown i x hi r hr hid
  have hpast' := hc.shown j y hj r' hr' hid'
  rw [← hc.shown_version hversion hbound hi hr hid, hsame,
    hc.shown_version hversion hbound hj hr' hid'] at hpast
  exact Option.some.inj (hpast.symm.trans hpast')

/-- What an answer has shown in the stored version is kept as the stored record. -/
theorem eq_stored_of_version {x : Exchange} (hx : x ∈ h) {r s : Record} (hr : r ∈ x.shown)
    (hid : r.id = id) (hs : t.find? id = some s) (hsame : s.version = r.version) :
    s = keep r := by
  obtain ⟨i, hi⟩ := List.mem_iff_getElem?.mp hx
  have hpast := hc.shown i x hi r hr hid
  rw [← hc.shown_version hversion hbound hi hr hid, ← hsame, hc.stored_version hbound hs,
    ← hc.stored, hs] at hpast
  exact Option.some.inj hpast

/-- What an answer has shown is of the stored version as long as no write comes after it. -/
theorem version_eq_iff {i : Nat} {x : Exchange} (hx : h[i]? = some x) {r : Record}
    (hr : r ∈ x.shown) (hid : r.id = id) : ∃ s, t.find? id = some s ∧
      (s.version = r.version ↔ writesIn id (h.drop (i + 1)) = 0) := by
  have hsplit : writesIn id h = writesIn id (h.take (i + 1)) + writesIn id (h.drop (i + 1)) := by
    rw [writesIn, writesIn, writesIn, ← List.countP_append, List.take_append_drop]
  have hn := hc.shown_version hversion hbound hx hr hid
  cases hs : t.find? id with
  | none =>
    -- The identity has been shown, so that there is a stored record.
    have hpast := hc.shown i x hx r hr hid
    have hzero := hc.absent hs
    rw [show writesIn id (h.take (i + 1)) = writesIn id h by omega, ← hc.stored, hs] at hpast
    cases hpast
  | some s =>
    refine ⟨s, rfl, ?_⟩
    rw [← UInt64.toNat_inj, hc.stored_version hbound hs, hn]
    omega

end Bounded

end Chronicle

/-! ## Backends -/

/-- Where records are kept: in a table, or as objects below a path of a bucket. -/
inductive Backend
  | table
  | objects (root : ObjectPath)

namespace Backend

@[reducible] def State : Backend → Type
  | .table => Table
  | .objects _ => Bucket

def empty : (b : Backend) → b.State
  | .table => Table.empty
  | .objects _ => Bucket.empty

/-- Answers a call while nothing else happens. -/
def serve : (b : Backend) → (call : Call) → b.State → call.request.Answer × b.State
  | .table, call, t => t.answer call.now call.request
  | .objects root, call, s => ObjectStore.serve root call s

/-- A backend in use: what it has been asked and has answered, and how it stands now. -/
structure Session (b : Backend) where
  history : List Exchange
  state : b.State

/-- The session after one more call. -/
def Session.next {b : Backend} (s : b.Session) (call : Call) : b.Session :=
  ⟨s.history ++ [⟨call.request, (b.serve call s.state).1⟩], (b.serve call s.state).2⟩

/-- The session of some calls, one at a time, from empty. -/
def session (b : Backend) (calls : List Call) : b.Session := calls.foldl Session.next ⟨[], b.empty⟩

/-- A state holds the records of a table. -/
def Holds : (b : Backend) → b.State → Table → Prop
  | .table, s, t => s = t ∧ t.Distinct
  | .objects root, s, t => ObjectStore.Mirrors root t s

/-- A record as a backend gives it back. -/
def kept : Backend → Record → Record
  | .table, r => r
  | .objects _, r => r.reread

/-- Whether a backend gives a time back as it was. -/
def Keeps : Backend → Instant → Prop
  | .table, _ => True
  | .objects _, time => time.Civil

/-- A table after one more call, with its records as the backend gives them back. -/
def afterCall (b : Backend) (t : Table) (call : Call) : Table := (t.afterCall call).map b.kept

variable {b : Backend}

theorem Keeps.after {now : Instant} (h : b.Keeps now) (d : Span) : b.Keeps (now.after d) := by
  cases b with
  | table => trivial
  | objects root => exact Instant.Civil.after h d

/-- **A record is kept as it was** if its times are. -/
theorem kept_eq {r : Record} (h : ∀ time ∈ r.times, b.Keeps time) : b.kept r = r := by
  cases b with
  | table => rfl
  | objects root => exact Record.reread_of_civil h

section Kept

variable (b) (r : Record)

/-! All that is not a time is always kept. -/

@[simp]
theorem id_kept : (b.kept r).id = r.id := by cases b <;> rfl

@[simp]
theorem source_kept : (b.kept r).source = r.source := by cases b <;> rfl

@[simp]
theorem kind_kept : (b.kept r).kind = r.kind := by cases b <;> rfl

@[simp]
theorem key_kept : (b.kept r).key = r.key := by cases b <;> rfl

@[simp]
theorem version_kept : (b.kept r).version = r.version := by cases b <;> rfl

@[simp]
theorem status_kept : (b.kept r).status = r.status := by cases b <;> rfl

@[simp]
theorem owner_kept : (b.kept r).owner = r.owner := by cases b <;> rfl

@[simp]
theorem progress_kept : (b.kept r).progress = r.progress := by cases b <;> rfl

@[simp]
theorem closedCount_kept : (b.kept r).closedCount = r.closedCount := by cases b <;> rfl

theorem find?_afterCall (t : Table) (call : Call) (id : RecordId) :
    (b.afterCall t call).find? id = ((t.afterCall call).find? id).map b.kept :=
  Table.find?_map b.id_kept _ id

end Kept

theorem holds_empty (b : Backend) : b.Holds b.empty Table.empty := by
  cases b with
  | table => exact ⟨rfl, Table.distinct_empty⟩
  | objects root => exact ObjectStore.mirrors_empty root

theorem Holds.distinct {s : b.State} {t : Table} (h : b.Holds s t) : t.Distinct := by
  cases b with
  | table => exact h.2
  | objects root => exact h.rows_distinct

theorem agree_refl (now : Instant) (request : Request) (t : Table) :
    request.Agree (t.answer now request).1 (t.answer now request).1 := by
  cases request with
  | prepare | get _ | create _ | update _ | claim _ _ _ _ => rfl
  | byStatus _ _ _ _ | all _ _ => exact ⟨_, _, rfl, rfl, .refl _, rfl⟩

/-- Every call is answered as the table answers it, and done to the state as to the table. -/
theorem Holds.serve {s : b.State} {t : Table} (h : b.Holds s t) (call : Call) :
    call.request.Agree (t.answer call.now call.request).1 (b.serve call s).1 ∧
      b.Holds (b.serve call s).2 (b.afterCall t call) := by
  cases b with
  | table =>
    obtain ⟨rfl, hd⟩ := h
    have hsame : Backend.table.afterCall s call = s.afterCall call :=
      Table.map_eq_self fun _ _ => rfl
    exact ⟨agree_refl _ _ _, hsame.symm, hsame ▸ Table.distinct_answer hd _ _⟩
  | objects root => exact ObjectStore.serve_mirrors h call

/-- What is held is held as it is kept. -/
theorem Holds.kept_of_mem {s : b.State} {t : Table} (h : b.Holds s t) {r : Record}
    (hr : r ∈ t.rows) : b.kept r = r := by
  cases b with
  | table => rfl
  | objects root => exact Record.reread_of_civil (h.rows_civil r hr)

theorem Holds.kept_of_find {s : b.State} {t : Table} (h : b.Holds s t) {id : RecordId} {r : Record}
    (hr : t.find? id = some r) : b.kept r = r := h.kept_of_mem (Table.find?_some hr).1

/-- A call that brings in no time but such as the backend keeps. -/
theorem Holds.afterCall_of_keeps {s : b.State} {t : Table} (h : b.Holds s t) {call : Call}
    (hcall : ∀ time ∈ call.times, b.Keeps time) : b.afterCall t call = t.afterCall call := by
  cases b with
  | table => exact Table.map_eq_self fun _ _ => rfl
  | objects root =>
    exact Table.map_eq_self fun r hr =>
      Record.reread_of_civil (Table.civil_afterCall h.rows_civil hcall r hr)

/-- What a call leaves alone is held as before. -/
theorem Holds.find?_afterCall_of_same {s : b.State} {t : Table} (h : b.Holds s t) {call : Call}
    {id : RecordId} (hsame : (t.afterCall call).find? id = t.find? id) :
    (b.afterCall t call).find? id = t.find? id := by
  rw [find?_afterCall, hsame]
  cases hr : t.find? id with
  | none => rfl
  | some r => exact congrArg some (h.kept_of_find hr)

/-- **Every run has a chronicle** of each identity. -/
theorem exists_chronicle (b : Backend) (calls : List Call) (id : RecordId) :
    ∃ t past, b.Holds (b.session calls).state t ∧
      Chronicle b.kept id (b.session calls).history t past := by
  induction calls using List.reverseRecOn with
  | nil => exact ⟨Table.empty, fun _ => none, b.holds_empty, .empty b.kept id⟩
  | append_singleton calls call ih =>
    obtain ⟨t, past, hholds, hc⟩ := ih
    obtain ⟨hagree, hholds'⟩ := hholds.serve call
    have heffect : (Exchange.mk call.request (t.answer call.now call.request).1).Effect b.kept id t
        (b.afterCall t call) :=
      (Table.effect_answer hholds.distinct call.now call.request).map b.id_kept b.version_kept
        fun _ hr => hholds.kept_of_find hr
    obtain ⟨past', hc'⟩ := hc.step (heffect.of_agree hagree)
    rw [session, List.foldl_append]
    exact ⟨b.afterCall t call, past', hholds', hc'⟩

/-- What a lookup shows is kept as it is. -/
theorem kept_of_lookup (b : Backend) (calls : List Call) {x : Exchange}
    (hx : x ∈ (b.session calls).history) (hlookup : x.request.IsLookup) {r : Record}
    (hr : r ∈ x.shown) : b.kept r = r := by
  induction calls using List.reverseRecOn with
  | nil => cases hx
  | append_singleton calls call ih =>
    rw [session, List.foldl_append] at hx
    rcases List.mem_append.mp hx with hx | hx
    · exact ih hx
    · obtain rfl := List.mem_singleton.mp hx
      obtain ⟨t, -, hholds, -⟩ := b.exists_chronicle calls ⟨"", "", ""⟩
      obtain ⟨now, request⟩ := call
      have hagree := (hholds.serve ⟨now, request⟩).1
      exact hholds.kept_of_mem (Table.mem_rows_of_lookup hlookup hagree hr)

/-- A record is read as the table has it. -/
theorem Holds.get {s : b.State} {t : Table} (h : b.Holds s t) (now : Instant) (id : RecordId) :
    (b.serve ⟨now, .get id⟩ s).1 = .ok (t.find? id) :=
  (h.serve ⟨now, .get id⟩).1.symm

/-- An update succeeds when its version is the stored one. -/
theorem Holds.update {s : b.State} {t : Table} (h : b.Holds s t) (now : Instant)
    {r stored : Record} (hs : t.find? r.id = some stored) :
    (b.serve ⟨now, .update r⟩ s).1 =
      if stored.version = r.version then .ok r.nextVersion else .error (.lostWriteOf r) := by
  refine (h.serve ⟨now, .update r⟩).1.symm.trans ?_
  split
  · exact congrArg Prod.fst (Table.answer_update_of_current now hs ‹_›)
  · refine congrArg Prod.fst (Table.answer_update_of_stale now fun s' hs' => ?_)
    obtain rfl := Option.some.inj (hs.symm.trans hs')
    assumption

/-- A record is created unless there is an object at its path. -/
theorem serve_create (root : ObjectPath) (s : Bucket) (now : Instant) (r : Record) :
    ObjectStore.serve root ⟨now, .create r⟩ s =
      if (s.find? (ObjectPath.ofRecord root r.id)).isSome then (.ok false, s)
      else (.ok true, s.put (ObjectPath.ofRecord root r.id) r.firstVersion.print) := by
  rw [ObjectStore.serve, ObjectStore.job, ObjectStore.run_ask]
  cases hfind : s.find? (ObjectPath.ofRecord root r.id) with
  | none =>
    rw [Bucket.answer_create_of_none hfind]
    rfl
  | some o =>
    rw [Bucket.answer_create_of_some hfind]
    rfl

/-- The version of a record that is to be created is not looked at. -/
theorem serve_create_version (b : Backend) (s : b.State) (now : Instant) (r : Record)
    (v : UInt64) :
    b.serve ⟨now, .create { r with version := v }⟩ s = b.serve ⟨now, .create r⟩ s := by
  cases b with
  | table => rfl
  | objects root => exact (serve_create root s now _).trans (serve_create root s now r).symm

/-- **A version stands for a record.**  Whatever requests a backend gets, one at a time and from
empty: as long as the record of an identity is written fewer than `2^64` times, the range of a
version,

* the record is stored from its first write on, and its version is one more than the updates and
  claims that have succeeded;
* two answers that show the identity with one version show one record, as the backend keeps it, and
  a lookup shows it as it is kept;
* an update of the version that some answer has shown succeeds if no write of the identity has come
  after that answer, and is lost otherwise;
* the version of a record that is to be created makes no difference. -/
theorem version_exact (b : Backend) (calls : List Call) (id : RecordId)
    (h : writesIn id (b.session calls).history < UInt64.size) :
    (∀ now, ∃ stored, (b.serve ⟨now, .get id⟩ (b.session calls).state).1 = .ok stored ∧
      (stored = none ↔ writesIn id (b.session calls).history = 0) ∧
      ∀ s, stored = some s → s.version.toNat = 1 + rewritesIn id (b.session calls).history) ∧
    (∀ x ∈ (b.session calls).history, ∀ y ∈ (b.session calls).history,
      ∀ r ∈ x.shown, ∀ r' ∈ y.shown, r.id = id → r'.id = id → r.version = r'.version →
        b.kept r = b.kept r') ∧
    (∀ x ∈ (b.session calls).history, x.request.IsLookup → ∀ r ∈ x.shown, b.kept r = r) ∧
    (∀ i x, (b.session calls).history[i]? = some x → ∀ r ∈ x.shown, r.id = id →
      ∀ now u, u.id = id → u.version = r.version →
        (b.serve ⟨now, .update u⟩ (b.session calls).state).1 =
          if writesIn id ((b.session calls).history.drop (i + 1)) = 0 then .ok u.nextVersion
          else .error (.lostWriteOf u)) ∧
    ∀ now r v, b.serve ⟨now, .create { r with version := v }⟩ (b.session calls).state =
      b.serve ⟨now, .create r⟩ (b.session calls).state := by
  obtain ⟨t, past, hholds, hc⟩ := b.exists_chronicle calls id
  refine ⟨fun now => ⟨t.find? id, hholds.get now id, ⟨hc.absent, fun hzero => ?_⟩, fun s hs => ?_⟩,
    ?_, fun x hx hlookup r hr => b.kept_of_lookup calls hx hlookup hr, ?_,
    fun now r v => b.serve_create_version _ now r v⟩
  · cases hs : t.find? id with
    | none => rfl
    | some s =>
      have hpresent := hc.present s hs
      omega
  · rw [hc.stored_version h hs, hc.present s hs]
  · intro x hx y hy r hr r' hr' hid hid' hversion
    exact hc.keep_eq_of_version b.version_kept h hx hy hr hr' hid hid' hversion
  · intro i x hx r hr hid now u hu hversion
    obtain ⟨s, hs, hiff⟩ := hc.version_eq_iff b.version_kept h hx hr hid
    subst hu
    rw [hholds.update now hs]
    simp only [hversion, hiff]

/-- A new record of work. -/
def freshWork : Record := .unassigned ⟨"db", "WORK", "a"⟩ none .epoch

/-- The record of work after its first claim, for a minute. -/
def claimedWork : Record := freshWork.firstVersion.claimed "node-a" .epoch (.seconds 60)

/-- A record is created, claimed, and updated by its owner. -/
def oneUpdate : List Call :=
  [⟨.epoch, .create freshWork⟩, ⟨.epoch, .claim "db" "WORK" "node-a" (.seconds 60)⟩,
    ⟨.epoch, .update claimedWork⟩]

/-- After `oneUpdate` another update of the claimed version is lost: the first one came after the
claim. -/
theorem version_exact_oneUpdate :
    writesIn freshWork.id (Backend.table.session oneUpdate).history = 3 ∧
      (Backend.table.serve ⟨.epoch, .update claimedWork⟩
        (Backend.table.session oneUpdate).state).1 = .error (.lostWriteOf claimedWork) := by
  have hwrites : writesIn freshWork.id (Backend.table.session oneUpdate).history = 3 := by
    decide +kernel
  have hlater :
      writesIn freshWork.id ((Backend.table.session oneUpdate).history.drop 2) = 1 := by
    decide +kernel
  have hclaim : (Backend.table.session oneUpdate).history[1]?.map Exchange.shown =
      some [claimedWork] := by
    decide +kernel
  have hbound : writesIn freshWork.id (Backend.table.session oneUpdate).history < UInt64.size := by
    rw [hwrites]
    decide
  obtain ⟨-, -, -, hupdate, -⟩ := version_exact .table oneUpdate freshWork.id hbound
  obtain ⟨x, hx, hshown⟩ := Option.map_eq_some_iff.mp hclaim
  have hmem : claimedWork ∈ x.shown := hshown ▸ List.mem_singleton_self claimedWork
  refine ⟨hwrites, (hupdate 1 x hx claimedWork hmem rfl .epoch claimedWork rfl rfl).trans ?_⟩
  rw [hlater]
  rfl

end Backend

end LeasedWork
