import LeasedWork.Proofs.Fleet.Transitions
import LeasedWork.Proofs.Store.Draining

/-! # Records of which no partition can be made

A node claims a record first and makes a partition of it then.  If that fails, as it does for a key
or a progress that its kind cannot read, the claim is reported as failed, but the record stays
claimed: nobody has it in hand, and nobody gives it up.

When its lease has run out the record is claimed before all those that wait, and no partition can
be made of it then either.  So as long as it is stored, no claim after that time gives a partition
that waits (`Acquisition.failed_claims`).  All other failures of a claim leave the store as it was.
-/
namespace LeasedWork

/-! ## Claims of partitions -/

/-- A partition of a kind in hand. -/
def Hand.ofPartition {k : PartitionKind} (p : Partition k) : Hand := ⟨.ofKind k, p⟩

/-- How a node asks for a partition that it is to lease: by its kind, or by the tag of one. -/
inductive Acquisition
  | typed (k : PartitionKind)
  | byTag (f : Factory) (tag : String)

namespace Acquisition

@[reducible] def tag : Acquisition → String
  | .typed k => k.tag
  | .byTag _ tag => tag

/-- Shared state is not leased. -/
def isLeased : Acquisition → Bool
  | .typed k => k.leased
  | .byTag _ tag => tag != sharedKind.tag

/-- The partition that is made of a claimed record. -/
def make : Acquisition → Record → Except Failure Hand
  | .typed k, r => (Partition.ofRecord k r).map Hand.ofPartition
  | .byTag f _, r => (f.build r).map (Hand.mk f)

/-- What comes of the answer to a claim. -/
def handed {σ : Type} (make : Record → Except Failure Hand) :
    Except Failure (Option Record) × σ → Except Failure (Option Hand) × σ
  | (.ok none, s) => (.ok none, s)
  | (.ok (some r), s) => ((make r).map some, s)
  | (.error e, s) => (.error e, s)

variable {b : Backend}

/-- Claims a partition, at a time and while requests may fail. -/
def perform (n : Node) (lease : Option Span) (now : Instant) (fault : Option Failure)
    (s : b.State) : Acquisition → Except Failure (Option Hand) × b.State
  | .typed k =>
    (Program.run (b.handler now (fault.map .early)) (n.claim k lease).run s).map
      (Except.map (Option.map Hand.ofPartition)) id
  | .byTag f tag =>
    (Program.run (b.handler now (fault.map .early)) (n.claimAny f.build tag lease).run s).map
      (Except.map (Option.map (Hand.mk f))) id

/-- A record is claimed, and a partition made of it. -/
theorem run_claim {P : Type} (build : Record → Except Failure P) (part : P → Hand) (n : Node)
    (kind : String) (lease : Option Span) (now : Instant) (fault : Option Failure) (s : b.State) :
    (Program.run (b.handler now (fault.map .early))
        (n.claimRecord kind lease >>= Node.build? build).run s).map
        (Except.map (Option.map part)) id =
      handed (fun r => (build r).map part) (b.answer now (fault.map .early)
        (.claim n.source kind n.owner (lease.getD n.lease)) s) := by
  have hclaim : Program.run (b.handler now (fault.map .early)) (n.claimRecord kind lease).run s =
    b.answer now (fault.map .early) (.claim n.source kind n.owner (lease.getD n.lease)) s := rfl
  rw [Node.run_made, hclaim]
  rcases b.answer now (fault.map .early) (.claim n.source kind n.owner (lease.getD n.lease)) s with
    ⟨e | _ | r, s'⟩
  · rfl
  · rfl
  · dsimp only [handed]
    cases build r <;> rfl

/-- **A claim** of what is not leased is refused.  Any other asks for the first record in line and
makes a partition of it. -/
theorem perform_eq (x : Acquisition) (n : Node) (lease : Option Span) (now : Instant)
    (fault : Option Failure) (s : b.State) : x.perform n lease now fault s =
      if x.isLeased then handed x.make
        (b.answer now (fault.map .early) (.claim n.source x.tag n.owner (lease.getD n.lease)) s)
      else (.error (.notLeasable x.tag), s) := by
  by_cases hleased : x.isLeased = true
  · rw [if_pos hleased]
    cases x with
    | typed k =>
      simp only [perform, Node.claim, show k.leased = true from hleased]
      exact run_claim (Partition.ofRecord k) Hand.ofPartition n k.tag lease now fault s
    | byTag f tag =>
      simp only [perform, Node.claimAny, if_neg (bne_iff_ne.mp hleased)]
      exact run_claim f.build (Hand.mk f) n tag lease now fault s
  · rw [if_neg hleased]
    cases x with
    | typed k =>
      simp only [perform, Node.claim, show k.leased = false from Bool.not_eq_true _ ▸ hleased]
      rfl
    | byTag f tag =>
      have htag : tag = sharedKind.tag :=
        Decidable.not_not.mp fun hne => hleased (bne_iff_ne.mpr hne)
      simp only [perform, Node.claimAny, if_pos htag]
      rfl

variable {x : Acquisition} (n : Node) (lease : Option Span) {now : Instant} {s : b.State}
  {t : Table}

theorem exists_error {α : Type*} {y : Except Failure α} (h : y.isOk = false) :
    ∃ e, y = .error e := by
  cases y with
  | error e => exact ⟨e, rfl⟩
  | ok a => cases h

/-- A partition carries the record that it was made of. -/
theorem record_make {r : Record} {p : Hand} (h : x.make r = .ok p) : p.record = some r := by
  cases x with
  | typed k =>
    obtain ⟨q, hq, rfl⟩ := Fleet.exists_of_map h
    exact Factory.record_ofRecord hq
  | byTag f tag =>
    obtain ⟨q, hq, rfl⟩ := Fleet.exists_of_map h
    exact f.record_build r q hq

/-- A claim of what is not leased, or while requests fail, changes nothing. -/
theorem perform_of_fault {fault : Option Failure} (h : x.isLeased = false ∨ fault.isSome) :
    ∃ e, x.perform n lease now fault s = (.error e, s) := by
  rw [perform_eq]
  by_cases hleased : x.isLeased = true
  · obtain ⟨e, rfl⟩ := Option.isSome_iff_exists.mp (h.resolve_left (by simp [hleased]))
    exact ⟨e, if_pos hleased⟩
  · exact ⟨_, if_neg hleased⟩

/-- A claim gives nothing when nothing is available. -/
theorem perform_of_nil (hleased : x.isLeased = true) (h : b.Holds s t)
    (hc : candidates now (t.ofKind n.source x.tag) = []) :
    x.perform n lease now none s = (.ok none, s) := by
  rw [perform_eq, if_pos hleased, Option.map_none, Backend.answer, h.claim_of_nil hc]
  rfl

/-- A claim takes the record that is first in line, whatever can be made of it. -/
theorem perform_of_cons (hleased : x.isLeased = true) (h : b.Holds s t) {r : Record}
    {rest : List Record} (hc : candidates now (t.ofKind n.source x.tag) = r :: rest) :
    let left := r.claimed n.owner now (lease.getD n.lease)
    ∃ s', x.perform n lease now none s = ((x.make left).map some, s') ∧
      (b.Keeps now → b.Holds s' (t.replace left)) := by
  obtain ⟨s', hserve, hholds⟩ := h.claim_of_cons hc n.owner (lease.getD n.lease)
  refine ⟨s', ?_, hholds⟩
  rw [perform_eq, if_pos hleased, Option.map_none, Backend.answer, hserve]
  rfl

/-! ## Misfits -/

/-- The record that a claim would take without a partition to be made of it. -/
def misfit? (x : Acquisition) (n : Node) (lease : Option Span) (now : Instant) (t : Table) :
    Option Record :=
  (candidates now (t.ofKind n.source x.tag)).head?.filter fun r =>
    !(x.make (r.claimed n.owner now (lease.getD n.lease))).isOk

/-- Whether a partition can be made of a record is for its identity and its progress to say. -/
def ReadsContent (x : Acquisition) : Prop :=
  ∀ r r' : Record, r.id = r'.id → r.progress = r'.progress → (x.make r).isOk = (x.make r').isOk

theorem isOk_map {α β : Type*} (f : α → β) (y : Except Failure α) : (y.map f).isOk = y.isOk := by
  cases y <;> rfl

theorem isOk_ofRecord (k : PartitionKind) {r r' : Record} (hid : r.id = r'.id)
    (hprogress : r.progress = r'.progress) :
    (Partition.ofRecord k r).isOk = (Partition.ofRecord k r').isOk := by
  have hkind : r.kind = r'.kind := congrArg RecordId.kind hid
  have hkey : r.key = r'.key := congrArg RecordId.key hid
  have hread : Partition.readProgress? k r = Partition.readProgress? k r' := by
    rw [Partition.readProgress?, Partition.readProgress?, hprogress]
  rw [Partition.ofRecord, Partition.ofRecord, hkind, hkey, hread]
  split
  · rfl
  · cases k.identify r'.key with
    | error fault => rfl
    | ok identity => exact (isOk_map _ _).trans (isOk_map _ _).symm

theorem readsContent_typed (k : PartitionKind) : (typed k).ReadsContent := by
  intro r r' hid hprogress
  rw [make, make, isOk_map, isOk_map]
  exact isOk_ofRecord k hid hprogress

theorem readsContent_builtIn (tag : String) : (byTag .builtIn tag).ReadsContent := by
  intro r r' hid hprogress
  have hkind : r.kind = r'.kind := congrArg RecordId.kind hid
  rw [make, make, isOk_map, isOk_map]
  change (AnyPartition.ofRecord r).isOk = (AnyPartition.ofRecord r').isOk
  rw [AnyPartition.ofRecord, AnyPartition.ofRecord, hkind]
  cases BuiltIn.ofTag? r'.kind with
  | none => rfl
  | some k =>
    refine (isOk_map _ _).trans (Eq.trans ?_ (isOk_map _ _).symm)
    exact isOk_ofRecord k.kind hid hprogress

/-- As long as the lease of some record has run out, a claim takes one of those. -/
theorem expired_of_first (hd : t.Distinct) {source kind : String} {q r : Record}
    {rest : List Record} (hc : candidates now (t.ofKind source kind) = q :: rest)
    (hr : r ∈ t.ofKind source kind) (hexpired : r.availability now = some .expired) :
    q.availability now = some .expired := by
  have hmem : r ∈ candidates now (t.ofKind source kind) := by
    refine mem_candidates.mpr ⟨hr, ?_⟩
    rw [Record.isAvailable, hexpired]
    rfl
  have hpairwise := pairwise_candidates (Table.nodup_keys hd source kind) now
  rw [hc] at hmem hpairwise
  rcases List.mem_cons.mp hmem with rfl | hlater
  · exact hexpired
  · -- Nothing but such a lease is claimed before a record that is still assigned.
    have hstatus : r.status = some .assigned := (Record.availability_iff.1.mp hexpired).1
    rcases (List.pairwise_cons.mp hpairwise).1 r hlater with
      ⟨hq, -⟩ | ⟨-, hr, -⟩ | ⟨⟨hq, -⟩ | ⟨-, hr⟩ | ⟨-, hr, -⟩, -⟩
    · exact Record.availability_iff.1.mpr hq
    · exact absurd (hstatus.symm.trans hr) (by decide)
    · exact Record.availability_iff.1.mpr hq
    · exact absurd (hstatus.symm.trans hr) (by decide)
    · exact absurd (hstatus.symm.trans hr) (by decide)

/-- **A misfit keeps those that wait waiting.**  While a record is stored whose lease has run out
and of which no partition can be made, a claim fails, or takes another such lease. -/
theorem passed_over (hx : x.ReadsContent) (hleased : x.isLeased = true) (h : b.Holds s t)
    {left : Record} (hstored : t.find? left.id = some left) (hsource : left.source = n.source)
    (hkind : left.kind = x.tag) (hexpired : left.availability now = some .expired)
    (hmisfit : (x.make left).isOk = false) {got : Option Hand}
    (hgot : (x.perform n lease now none s).1 = .ok got) :
    ∃ p q, got = some p ∧ p.record = some (q.claimed n.owner now (lease.getD n.lease)) ∧
      t.find? q.id = some q ∧ q.id ≠ left.id ∧ q.availability now = some .expired := by
  have hof : left ∈ t.ofKind n.source x.tag :=
    Table.mem_ofKind.mpr ⟨(Table.find?_some hstored).1, hsource, hkind⟩
  cases hc : candidates now (t.ofKind n.source x.tag) with
  | nil =>
    have hmem : left ∈ candidates now (t.ofKind n.source x.tag) :=
      mem_candidates.mpr ⟨hof, by rw [Record.isAvailable, hexpired]; rfl⟩
    rw [hc] at hmem
    cases hmem
  | cons q rest =>
    have hq := Table.mem_ofKind.mp (mem_candidates.mp (hc ▸ List.mem_cons_self)).1
    have hfind : t.find? q.id = some q := (Table.find?_iff h.distinct).mpr ⟨hq.1, rfl⟩
    obtain ⟨s', hperform, -⟩ := perform_of_cons n lease hleased h hc
    rw [hperform] at hgot
    obtain ⟨p, hmade, rfl⟩ := Fleet.exists_of_map hgot
    refine ⟨p, q, rfl, record_make hmade, hfind, fun hid => ?_,
      expired_of_first h.distinct hc hof hexpired⟩
    -- The claim takes no more than the lease of the misfit, so that it is a misfit still.
    obtain rfl : q = left := Option.some.inj (hfind.symm.trans (hid ▸ hstored))
    have hsame := hx (q.claimed n.owner now (lease.getD n.lease)) q rfl rfl
    rw [hmade, hmisfit] at hsame
    cases hsame

/-- A misfit is first in line. -/
theorem misfit?_eq_some {r : Record} (h : x.misfit? n lease now t = some r) :
    (∃ rest, candidates now (t.ofKind n.source x.tag) = r :: rest) ∧
      (x.make (r.claimed n.owner now (lease.getD n.lease))).isOk = false := by
  obtain ⟨hhead, hmake⟩ := Option.filter_eq_some_iff.mp h
  exact ⟨List.head?_eq_some_iff.mp hhead, by simpa using hmake⟩

/-- Without a misfit no claim fails, unless it does not come to ask for a record. -/
theorem perform_of_fit (hleased : x.isLeased = true) (h : b.Holds s t)
    (hfit : x.misfit? n lease now t = none) :
    ∃ got s', x.perform n lease now none s = (.ok got, s') := by
  cases hc : candidates now (t.ofKind n.source x.tag) with
  | nil => exact ⟨none, s, perform_of_nil n lease hleased h hc⟩
  | cons r rest =>
    obtain ⟨s', hperform, -⟩ := perform_of_cons n lease hleased h hc
    rw [misfit?, hc, List.head?_cons, Option.filter_eq_none_iff] at hfit
    cases hmake : x.make (r.claimed n.owner now (lease.getD n.lease)) with
    | error e => exact absurd (by rw [hmake]; rfl) (hfit r rfl)
    | ok p =>
      rw [hmake] at hperform
      exact ⟨some p, s', hperform⟩

/-- A claim that fails has changed nothing, unless there was a misfit in line. -/
theorem state_of_failed (h : b.Holds s t) {fault : Option Failure}
    (hsafe : x.isLeased = false ∨ fault.isSome ∨ x.misfit? n lease now t = none) {e : Failure}
    (hfail : (x.perform n lease now fault s).1 = .error e) :
    (x.perform n lease now fault s).2 = s := by
  by_cases hfault : x.isLeased = false ∨ fault.isSome
  · have hrefused : ∃ e', x.perform n lease now fault s = (.error e', s) :=
      perform_of_fault n lease hfault
    obtain ⟨e', hperform⟩ := hrefused
    rw [hperform]
  · obtain ⟨hleased, hfault⟩ := not_or.mp hfault
    rw [Bool.not_eq_false] at hleased
    obtain rfl : fault = none := Option.not_isSome_iff_eq_none.mp hfault
    have hfit := (hsafe.resolve_left (by simp [hleased])).resolve_left hfault
    obtain ⟨got, s', hperform⟩ := perform_of_fit n lease hleased h hfit
    rw [hperform] at hfail
    cases hfail

/-- The claim of a misfit fails, and takes the record all the same. -/
theorem perform_of_misfit (hleased : x.isLeased = true) (h : b.Holds s t) {r : Record}
    (hmisfit : x.misfit? n lease now t = some r) :
    let left := r.claimed n.owner now (lease.getD n.lease)
    (r.source = n.source ∧ r.kind = x.tag ∧ t.find? r.id = some r) ∧
      (x.make left).isOk = false ∧
      ∃ e s', x.make left = .error e ∧ x.perform n lease now none s = (.error e, s') ∧
        (b.Keeps now → b.Holds s' (t.replace left)) := by
  intro left
  obtain ⟨⟨rest, hc⟩, hmake⟩ := misfit?_eq_some n lease hmisfit
  obtain ⟨hmem, hsource, hkind⟩ := Table.mem_ofKind.mp (mem_candidates.mp
    (hc ▸ List.mem_cons_self : r ∈ candidates now (t.ofKind n.source x.tag))).1
  obtain ⟨s', hperform, hholds⟩ := perform_of_cons n lease hleased h hc
  obtain ⟨e, hmade⟩ : ∃ e, x.make left = .error e := exists_error hmake
  exact ⟨⟨hsource, hkind, (Table.find?_iff h.distinct).mpr ⟨hmem, rfl⟩⟩, hmake, e, s', hmade,
    hperform.trans (congrArg (fun y => (Except.map some y, s')) hmade), hholds⟩

/-- **Failed claims.**  Whatever records a backend holds, and whether a partition is claimed by its
kind or by a tag,

* a claim that fails leaves everything as it was, unless the record that it takes is a misfit;
* the claim of a misfit fails, and the record stays with the claiming node, until its lease ends.
  Everything else stays as it was.  While the misfit is stored so after that, no claim gives a
  partition that waits: it fails, or takes another record whose lease has run out. -/
theorem failed_claims (x : Acquisition) {b : Backend} {s : b.State} {t : Table} (h : b.Holds s t)
    (n : Node) (lease : Option Span) (now : Instant) :
    (∀ fault, x.isLeased = false ∨ fault.isSome ∨ x.misfit? n lease now t = none →
      ∀ e, (x.perform n lease now fault s).1 = .error e →
        (x.perform n lease now fault s).2 = s) ∧
    ∀ r, b.Keeps now → x.isLeased = true → x.misfit? n lease now t = some r →
      let left := { r with
        status := some .assigned, owner := some n.owner
        leaseExpiry := some (now.after (lease.getD n.lease))
        reopenAt := none, version := r.version + 1 }
      ∃ e s' t', x.make left = .error e ∧ x.perform n lease now none s = (.error e, s') ∧
        b.Holds s' t' ∧ t.find? r.id = some r ∧
        (∀ id, t'.find? id = if id = r.id then some left else t.find? id) ∧
        (x.ReadsContent → ∀ u v, b.Holds u v → v.find? r.id = some left →
          ∀ m : Node, m.source = n.source → ∀ lease' later, now.after (lease.getD n.lease) ≤ later →
            ∀ got, (x.perform m lease' later none u).1 = .ok got →
              ∃ p q, got = some p ∧
                p.record = some (q.claimed m.owner later (lease'.getD m.lease)) ∧
                v.find? q.id = some q ∧ q.id ≠ r.id ∧
                q.availability later = some .expired) := by
  refine ⟨fun fault hsafe e => state_of_failed n lease h hsafe, ?_⟩
  intro r hnow hleased hmisfit left
  obtain ⟨⟨hsource, hkind, hstored⟩, hmake, e, s', hmade, hperform, hholds⟩ :=
    perform_of_misfit n lease hleased h hmisfit
  refine ⟨e, s', _, hmade, hperform, hholds hnow, hstored,
    Table.find?_replace_of_stored hstored, ?_⟩
  intro hx u v hu hleft m hm lease' later hlater got hgot
  have hpassed : (now.after (lease.getD n.lease)).hasElapsed later = true := decide_eq_true hlater
  have hexpired : left.availability later = some .expired := by
    simp [left, Record.availability, hasPassed, hpassed]
  have hleft' : v.find? left.id = some left := hleft
  exact passed_over m lease' hx hleased hu hleft' (hsource.trans hm.symm) hkind hexpired hmake hgot

/-- A stream whose progress is not JSON. -/
def garbled : Record :=
  (Record.unassigned ⟨"db", "STREAM", "a"⟩ (some "\x7bnot json") .epoch).firstVersion

/-- The stream is stored, and another one waits behind it. -/
def muddle : Table :=
  ⟨[garbled, (Record.unassigned ⟨"db", "STREAM", "b"⟩ none .epoch).firstVersion]⟩

theorem holds_muddle : Backend.table.Holds muddle muddle := ⟨rfl, by unfold Table.Distinct; decide⟩

/-- The garbled stream is the first in line. -/
theorem candidates_muddle : candidates .epoch (muddle.ofKind "db" streamKind.tag) = muddle.rows :=
  candidates_of_pairwise (by decide)

/-- A node of the source `db` asks for a stream, with a lease of a minute. -/
def claimBy (owner : String) (now : Instant) (t : Table) (x : Acquisition) :
    Except Failure (Option Hand) × Table :=
  x.perform (b := .table) ⟨"db", owner, .seconds 60⟩ none now none t

/-- Node `a` claims in vain, and has the garbled stream all the same: a minute later node `b` gets
nothing either. -/
def ClaimsInVain (x : Acquisition) : Prop :=
  (claimBy "node-a" .epoch muddle x).1.isOk = false ∧
    ∀ got, (claimBy "node-b" (Instant.epoch.after (.seconds 60))
      (claimBy "node-a" .epoch muddle x).2 x).1 ≠ .ok got

/-- So it is when they ask by the kind, and when they ask by its tag. -/
theorem failed_claims_muddle :
    ClaimsInVain (typed streamKind) ∧ ClaimsInVain (byTag .builtIn streamKind.tag) := by
  have hvain (x : Acquisition) (hreads : x.ReadsContent) (hleased : x.isLeased = true)
      (htag : x.tag = streamKind.tag)
      (hmake : (x.make (garbled.claimed "node-a" .epoch (.seconds 60))).isOk = false) :
      ClaimsInVain x := by
    obtain ⟨-, hmisfits⟩ :=
      failed_claims x holds_muddle ⟨"db", "node-a", .seconds 60⟩ none .epoch
    have hmisfit : x.misfit? ⟨"db", "node-a", .seconds 60⟩ none .epoch muddle = some garbled := by
      rw [misfit?, htag, show candidates .epoch (muddle.ofKind _ _) = _ from candidates_muddle]
      exact Option.filter_eq_some_iff.mpr ⟨rfl, by simpa using hmake⟩
    obtain ⟨e, s, t, -, hperform, hholds, -, hfind, hlater⟩ :=
      hmisfits garbled trivial hleased hmisfit
    rw [ClaimsInVain, claimBy, hperform]
    refine ⟨rfl, fun got hgot => ?_⟩
    have hstored : t.find? garbled.id = some _ := (hfind _).trans (if_pos rfl)
    obtain ⟨-, q, -, -, hq, hother, hexpired⟩ := hlater hreads s t hholds hstored
      ⟨"db", "node-b", .seconds 60⟩ rfl none (Instant.epoch.after (.seconds 60)) (by decide)
      got hgot
    rw [hfind, if_neg hother] at hq
    -- The only other stream is not one whose lease has run out.
    rcases List.mem_cons.mp (Table.find?_some hq).1 with rfl | hmem
    · exact hother rfl
    · rw [List.mem_singleton.mp hmem] at hexpired
      cases hexpired
  exact ⟨hvain _ (readsContent_typed _) rfl rfl (by decide +kernel),
    hvain _ (readsContent_builtIn _) rfl rfl (by decide +kernel)⟩

/-- A claim that fails takes a record all the same, and a minute later does so again, although there
is another stream. -/
theorem failed_claim_takes :
    let first := claimBy "node-a" .epoch muddle (typed streamKind)
    let second := claimBy "node-b" (Instant.epoch.after (.seconds 60)) first.2 (typed streamKind)
    first.1.isOk = false ∧ first.2.find? garbled.id ≠ muddle.find? garbled.id ∧
      second.1.isOk = false ∧
      second.2.find? ⟨"db", "STREAM", "b"⟩ = muddle.find? ⟨"db", "STREAM", "b"⟩ := by
  let left := garbled.claimed "node-a" .epoch (.seconds 60)
  have hagain : candidates (Instant.epoch.after (.seconds 60))
      ((muddle.replace left).ofKind "db" streamKind.tag) = (muddle.replace left).rows :=
    candidates_of_pairwise (by decide)
  obtain ⟨s, hfirst, hholds⟩ := perform_of_cons (x := typed streamKind)
    ⟨"db", "node-a", .seconds 60⟩ none rfl holds_muddle candidates_muddle
  obtain ⟨s', hsecond, hholds'⟩ := perform_of_cons (x := typed streamKind)
    ⟨"db", "node-b", .seconds 60⟩ none rfl (hholds trivial) hagain
  obtain ⟨rfl, -⟩ := hholds trivial
  obtain ⟨rfl, -⟩ := hholds' trivial
  simp only [claimBy, hfirst, hsecond]
  decide +kernel

end Acquisition

end LeasedWork
