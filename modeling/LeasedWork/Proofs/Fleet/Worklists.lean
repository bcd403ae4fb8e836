import LeasedWork.Fleet.Work
import LeasedWork.Proofs.Fleet.Pins
import LeasedWork.Proofs.Fleet.Surroundings

/-! # Worklists

A program that has a table for itself is told just what the table answers, at any times that its
clock may show (`Surroundings.alone`).  Then every request has one effect at most: it puts a record
into the table (`Table.Puts`).

The records of a kind form a *worklist* when it is known which there are and what their statuses are
(`Worklist`).  A claim takes one of those that wait, if there is any (`Worklist.claim`), so passes
that complete what they have claimed empty the list, and the next pass finds nothing (`drain`).
-/
namespace LeasedWork

/-- A table that one program has for itself, with a clock that may show certain times. -/
def Surroundings.alone (shows : Instant → Prop) : Surroundings where
  State := Table
  May _ _ := True
  Tells t request told u := ∃ now, t.answer now request = (told, u)
  Shows := shows

/-- One record has been put into a table, whatever there was under its identity. -/
structure Table.Puts (r : Record) (t u : Table) : Prop where
  distinct : t.Distinct → u.Distinct
  find : ∀ id, u.find? id = if id = r.id then some r else t.find? id

namespace Table

variable {t u : Table} {r : Record} {id : RecordId}

theorem Puts.find_self (h : Puts r t u) : u.find? r.id = some r := by
  rw [h.find, if_pos rfl]

theorem Puts.find_of_ne (h : Puts r t u) (hne : id ≠ r.id) : u.find? id = t.find? id := by
  rw [h.find, if_neg hne]

theorem puts_insert (h : t.find? r.id = none) : Puts r t (t.insert r) where
  distinct hd := distinct_insert hd h
  find := find?_insert h

theorem puts_replace {s : Record} (h : t.find? r.id = some s) : Puts r t (t.replace r) where
  distinct hd := distinct_replace hd r
  find := find?_replace_of_stored h

end Table

/-- The identity of a record of a kind. -/
def PartitionKind.recordId (k : PartitionKind) (source : String) (i : k.Identity) : RecordId :=
  ⟨source, k.tag, k.key i⟩

/-- A record keeps a progress of a kind. -/
def PartitionKind.KeptIn (k : PartitionKind) (r : Record) : Prop :=
  ∃ x, k.Keeps x ∧ r.progress = some (k.text x)

/-! ## One program, one table -/

namespace Surroundings

open Table

variable {E : Interface} {shows : Instant → Prop} {k : PartitionKind} {n : Node} {t : Table}

/-- No action fails. -/
def NeverFails {State : Type} (_ : Failure) (_ : State) : Prop := False

/-- A creation. -/
theorem alone_create {p : Partition k} {post : Bool → Table → Prop}
    (hstored : ∀ r, t.find? (k.recordId n.source p.identity) = some r → post false t)
    (hfree : t.find? (k.recordId n.source p.identity) = none → ∀ now u,
      Puts (n.newRecord k.tag p.key k.leased p.progressText now).firstVersion t u → post true u) :
    (alone shows).Yields (E := E) post NeverFails (n.create p) t := by
  refine yields_now fun time _ => ?_
  have hid : (n.newRecord k.tag p.key k.leased p.progressText time).id =
      k.recordId n.source p.identity := n.id_newRecord k.tag p.key k.leased p.progressText time
  refine yields_store trivial ?_ ?_
  · rintro isNew u ⟨now, hanswer⟩
    cases hfind : t.find? (n.newRecord k.tag p.key k.leased p.progressText time).id with
    | some r =>
      rw [answer_create_of_some now hfind] at hanswer
      cases hanswer
      exact hstored r (hid ▸ hfind)
    | none =>
      rw [answer_create_of_none now hfind] at hanswer
      cases hanswer
      exact hfree (hid ▸ hfind) time _ (puts_insert hfind)
  · rintro failure u ⟨now, hanswer⟩
    have hwritten := congrArg Prod.fst hanswer
    simp only [answer] at hwritten
    split at hwritten <;> cases hwritten

/-- A transition of a partition whose record is the stored one. -/
theorem alone_transition {P : Type} [Held P] {p : P} {move : Transition} {r : Record}
    {post : P → Table → Prop} (hr : Held.record p = some r)
    (hleased : move.needsLease = true → Held.leased p = true) (hstored : t.find? r.id = some r)
    (h : ∀ time u, Puts (Node.proposal p move time r).nextVersion t u →
      post (Held.adopt (Node.proposal p move time r).nextVersion p) u) :
    (alone shows).Yields (E := E) post NeverFails (Node.transition p move) t := by
  refine yields_transition hr hleased fun time => ?_
  have hid : (Node.proposal p move time r).id = r.id := Node.id_proposal p move time r
  have hcurrent : t.find? (Node.proposal p move time r).id = some r := hid ▸ hstored
  have hanswer (now : Instant) : t.answer now (.update (Node.proposal p move time r)) =
      (.ok (Node.proposal p move time r).nextVersion,
        t.replace (Node.proposal p move time r).nextVersion) :=
    answer_update_of_current now hcurrent (Node.version_proposal p move time r).symm
  refine ⟨trivial, ?_, ?_⟩
  · rintro written u ⟨now, htold⟩
    rw [hanswer now] at htold
    cases htold
    exact h time _ (puts_replace hcurrent)
  · rintro failure u ⟨now, htold⟩
    rw [hanswer now] at htold
    cases htold

end Surroundings

/-! ## Worklists -/

/-- The records of a kind are those of some identities, with a status each. -/
structure Worklist (k : PartitionKind) (source : String) (items : List (k.Identity × Status))
    (t : Table) : Prop where
  nodup : (items.map Prod.fst).Nodup
  identify : ∀ x ∈ items, k.identify (k.key x.1) = .ok x.1
  stored : ∀ x ∈ items, ∃ r, t.find? (k.recordId source x.1) = some r ∧ r.status = some x.2 ∧
    k.KeptIn r
  only : ∀ key, t.Has ⟨source, k.tag, key⟩ → ∃ x ∈ items, key = k.key x.1

/-- Whether an item waits for somebody to claim it. -/
def isWaiting {α : Type} (x : α × Status) : Bool := x.2 == .unassigned

/-- What waits waits for anybody, and what does not is done. -/
def Settled {α : Type} (items : List (α × Status)) : Prop :=
  ∀ x ∈ items, x.2 = .unassigned ∨ x.2 = .completed

namespace Worklist

open Table

variable {k : PartitionKind} {source : String} {items rest : List (k.Identity × Status)}
  {t u : Table} {i : k.Identity} {r : Record} {old status : Status}

theorem perm {items' : List (k.Identity × Status)} (h : Worklist k source items t)
    (hperm : items.Perm items') : Worklist k source items' t where
  nodup := (hperm.map Prod.fst).nodup_iff.mp h.nodup
  identify x hx := h.identify x (hperm.mem_iff.mpr hx)
  stored x hx := h.stored x (hperm.mem_iff.mpr hx)
  only key hkey := (h.only key hkey).imp fun _ hx => ⟨hperm.mem_iff.mp hx.1, hx.2⟩

/-- The worklist is not concerned with what happens to other records. -/
theorem congr (h : Worklist k source items t)
    (hsame : ∀ key, u.find? ⟨source, k.tag, key⟩ = t.find? ⟨source, k.tag, key⟩) :
    Worklist k source items u where
  nodup := h.nodup
  identify := h.identify
  stored x hx := by
    obtain ⟨r, hr, hrest⟩ := h.stored x hx
    exact ⟨r, (hsame _).trans hr, hrest⟩
  only key hkey := by
    refine h.only key ?_
    rw [Has, ← hsame key]
    exact hkey

theorem frame (h : Worklist k source items t) (hputs : Puts r t u) (hr : r.kind ≠ k.tag) :
    Worklist k source items u := by
  refine h.congr fun key => hputs.find_of_ne ?_
  intro hid
  exact hr (congrArg RecordId.kind hid).symm

/-- Two items have two records. -/
theorem key_ne (h : Worklist k source ((i, old) :: rest) t) {x : k.Identity × Status}
    (hx : x ∈ rest) : k.key x.1 ≠ k.key i := by
  intro hkey
  have hread := h.identify x (List.mem_cons_of_mem _ hx)
  rw [hkey, h.identify (i, old) List.mem_cons_self] at hread
  obtain rfl := Except.ok.inj hread
  have hnodup := h.nodup
  rw [List.map_cons, List.nodup_cons] at hnodup
  exact hnodup.1 (List.mem_map.mpr ⟨x, hx, rfl⟩)

/-- The record of one item changes, and no other one of the kind. -/
theorem move (h : Worklist k source ((i, old) :: rest) t)
    (hsame : ∀ key, key ≠ k.key i → u.find? ⟨source, k.tag, key⟩ = t.find? ⟨source, k.tag, key⟩)
    (hr : u.find? (k.recordId source i) = some r) (hstatus : r.status = some status)
    (hkept : k.KeptIn r) : Worklist k source ((i, status) :: rest) u where
  nodup := h.nodup
  identify := by
    rw [List.forall_mem_cons]
    exact ⟨h.identify (i, old) List.mem_cons_self,
      fun x hx => h.identify x (List.mem_cons_of_mem _ hx)⟩
  stored := by
    rw [List.forall_mem_cons]
    refine ⟨⟨r, hr, hstatus, hkept⟩, fun x hx => ?_⟩
    obtain ⟨s, hs, hrest⟩ := h.stored x (List.mem_cons_of_mem _ hx)
    exact ⟨s, (hsame _ (h.key_ne hx)).trans hs, hrest⟩
  only key hkey := by
    by_cases hi : key = k.key i
    · exact ⟨(i, status), List.mem_cons_self, hi⟩
    · rw [Has, hsame key hi] at hkey
      obtain ⟨x, hx, rfl⟩ := h.only key hkey
      rcases List.mem_cons.mp hx with rfl | hx
      · exact absurd rfl hi
      · exact ⟨x, List.mem_cons_of_mem _ hx, rfl⟩

/-- A record comes to the list. -/
theorem add (h : Worklist k source items t) (hi : k.identify (k.key i) = .ok i)
    (hfree : t.find? (k.recordId source i) = none) (hputs : Puts r t u)
    (hid : r.id = k.recordId source i) (hstatus : r.status = some status) (hkept : k.KeptIn r) :
    Worklist k source ((i, status) :: items) u := by
  have hnew : ∀ x ∈ items, k.recordId source x.1 ≠ r.id := by
    intro x hx heq
    obtain ⟨s, hs, -⟩ := h.stored x hx
    rw [heq, hid, hfree] at hs
    cases hs
  refine ⟨?_, ?_, ?_, fun key hkey => ?_⟩
  · rw [List.map_cons, List.nodup_cons]
    refine ⟨fun hmem => ?_, h.nodup⟩
    obtain ⟨x, hx, rfl⟩ := List.mem_map.mp hmem
    exact hnew x hx hid.symm
  · rw [List.forall_mem_cons]
    exact ⟨hi, h.identify⟩
  · rw [List.forall_mem_cons]
    refine ⟨⟨r, hid ▸ hputs.find_self, hstatus, hkept⟩, fun x hx => ?_⟩
    obtain ⟨s, hs, hrest⟩ := h.stored x hx
    exact ⟨s, (hputs.find_of_ne (hnew x hx)).trans hs, hrest⟩
  · by_cases hkey' : (⟨source, k.tag, key⟩ : RecordId) = r.id
    · exact ⟨(i, status), List.mem_cons_self, congrArg RecordId.key (hkey'.trans hid)⟩
    · rw [Has, hputs.find_of_ne hkey'] at hkey
      obtain ⟨x, hx, hxkey⟩ := h.only key hkey
      exact ⟨x, List.mem_cons_of_mem _ hx, hxkey⟩

/-- A stored record of the kind is that of an item. -/
theorem exists_mem (h : Worklist k source items t) (hi : k.identify (k.key i) = .ok i)
    (hstored : t.find? (k.recordId source i) ≠ none) : ∃ status, (i, status) ∈ items := by
  obtain ⟨⟨j, status⟩, hx, hkey⟩ := h.only _ (Option.isSome_iff_ne_none.mpr hstored)
  have hread := h.identify (j, status) hx
  rw [← hkey, hi] at hread
  obtain rfl := Except.ok.inj hread
  exact ⟨status, hx⟩

/-- The records of the kind are the items, and those that may be claimed are those that wait. -/
theorem exists_item (h : Worklist k source items t) (hd : t.Distinct) (hsettled : Settled items)
    {now : Instant} (hr : r ∈ candidates now (t.ofKind source k.tag)) :
    ∃ x ∈ items, x.2 = .unassigned ∧ t.find? (k.recordId source x.1) = some r := by
  obtain ⟨hof, havailable⟩ := mem_candidates.mp hr
  obtain ⟨hmem, rfl, hkind⟩ := mem_ofKind.mp hof
  have hfind : t.find? ⟨r.source, k.tag, r.key⟩ = some r :=
    (find?_iff hd).mpr ⟨hmem, by rw [Record.id, hkind]⟩
  obtain ⟨x, hx, hkey⟩ := h.only r.key (has_of_find hfind)
  obtain ⟨s, hs, hstatus, -⟩ := h.stored x hx
  have hsame : t.find? (k.recordId r.source x.1) = some r := by
    rw [PartitionKind.recordId, ← hkey]
    exact hfind
  obtain rfl : r = s := Option.some.inj (hsame.symm.trans hs)
  refine ⟨x, hx, ?_, hs⟩
  rcases hsettled x hx with hwaits | hdone
  · exact hwaits
  · rw [hdone] at hstatus
    simp [Record.isAvailable, Record.availability, hstatus] at havailable

/-- **A claim takes one of those that wait**, if there is any. -/
theorem claim (h : Worklist k source items t) (hd : t.Distinct) (hsettled : Settled items)
    (now : Instant) (owner : String) (lease : Span) :
    (items.countP isWaiting = 0 ∧
      t.answer now (.claim source k.tag owner lease) = (.ok none, t)) ∨
    ∃ i rest r, items.Perm ((i, .unassigned) :: rest) ∧
      t.find? (k.recordId source i) = some r ∧
      t.answer now (.claim source k.tag owner lease) =
        (.ok (some (r.claimed owner now lease)), t.replace (r.claimed owner now lease)) := by
  cases hc : candidates now (t.ofKind source k.tag) with
  | nil =>
    refine .inl ⟨?_, by simp only [answer, hc]⟩
    rw [List.countP_eq_zero]
    intro x hx hwaits
    have hstatus : x.2 = .unassigned := by simpa [isWaiting] using hwaits
    obtain ⟨r, hr, hr', -⟩ := h.stored x hx
    obtain ⟨hmem, hid⟩ := find?_some hr
    have havailable : r.isAvailable now = true := by
      simp [Record.isAvailable, Record.availability, hr', hstatus]
    have hof : r ∈ t.ofKind source k.tag :=
      mem_ofKind.mpr ⟨hmem, congrArg RecordId.source hid, congrArg RecordId.kind hid⟩
    have hcandidate := mem_candidates.mpr ⟨hof, havailable⟩
    rw [hc] at hcandidate
    cases hcandidate
  | cons r others =>
    have hmem : r ∈ candidates now (t.ofKind source k.tag) := hc ▸ List.mem_cons_self
    obtain ⟨⟨i, status⟩, hx, hstatus, hr⟩ := h.exists_item hd hsettled hmem
    obtain rfl : status = .unassigned := hstatus
    obtain ⟨before, after, rfl⟩ := List.append_of_mem hx
    exact .inr ⟨i, before ++ after, r, List.perm_middle, hr, by simp only [answer, hc]⟩

end Worklist

/-! ## Partitions in hand -/

/-- A partition in hand whose record is the stored one, and whose progress can be kept. -/
structure Partition.Holds {k : PartitionKind} (source : String) (p : Partition k) (t : Table) :
    Prop where
  record : ∃ r, p.record = some r ∧ t.find? (k.recordId source p.identity) = some r
  progress : ∃ x, k.Keeps x ∧ p.progress = some x

namespace Partition.Holds

variable {k : PartitionKind} {source : String} {p : Partition k} {t u : Table}

theorem congr (h : p.Holds source t)
    (hsame : u.find? (k.recordId source p.identity) = t.find? (k.recordId source p.identity)) :
    p.Holds source u := by
  obtain ⟨r, hr, hstored⟩ := h.record
  exact ⟨⟨r, hr, hsame.trans hstored⟩, h.progress⟩

end Partition.Holds

namespace Surroundings

open Table

variable {E : Interface} {shows : Instant → Prop} {k : PartitionKind} {n : Node} {t : Table}
  {p : Partition k}

/-- A transition of a partition in hand puts its next record. -/
theorem alone_move {source : String} {move : Transition} (hp : p.Holds source t)
    (hleased : k.leased = true) :
    (alone shows).Yields (E := E) (fun p' u => p'.Holds source u ∧ p'.identity = p.identity ∧
        ∃ r x time, t.find? (k.recordId source p.identity) = some r ∧ k.Keeps x ∧
          Puts (move.apply time { r with progress := some (k.text x) }).nextVersion t u)
      NeverFails (Node.transition p move) t := by
  obtain ⟨r, hr, hstored⟩ := hp.record
  obtain ⟨x, hx, hprogress⟩ := hp.progress
  have hid : r.id = k.recordId source p.identity := (find?_some hstored).2
  refine alone_transition hr (fun _ => hleased) (hid ▸ hstored) fun time u hputs => ?_
  have hid' : (Node.proposal p move time r).nextVersion.id = k.recordId source p.identity :=
    (Node.id_proposal p move time r).trans hid
  refine ⟨⟨⟨_, rfl, hid' ▸ hputs.find_self⟩, x, hx, hprogress⟩, rfl, r, x, time, hstored, hx, ?_⟩
  have htext : Held.progressText p = some (k.text x) := by
    show p.progressText = some (k.text x)
    rw [Partition.progressText, hprogress]
    rfl
  rw [Node.proposal, htext] at hputs
  exact hputs

/-- A claim from a worklist. -/
theorem alone_claim {items : List (k.Identity × Status)} {lease : Option Span}
    {post : Option (Partition k) → Table → Prop} (hleased : k.leased = true)
    (h : Worklist k n.source items t) (hd : t.Distinct) (hsettled : Settled items)
    (hnone : items.countP isWaiting = 0 → post none t)
    (hsome : ∀ i rest r x time u p, items.Perm ((i, .unassigned) :: rest) →
      t.find? (k.recordId n.source i) = some r → k.Keeps x → r.progress = some (k.text x) →
      Puts (r.claimed n.owner time (lease.getD n.lease)) t u → p.Holds n.source u →
      p.identity = i → p.progress = some x → post (some p) u) :
    (alone shows).Yields (E := E) post NeverFails (n.claim k lease) t := by
  have hlookup : (alone shows).Yields (E := E)
      (fun found u => (alone shows).Yields (E := E) post NeverFails
        (Node.build? (Partition.ofRecord k) found) u)
      NeverFails (n.claimRecord k.tag lease) t := by
    refine yields_store trivial ?_ ?_
    · rintro found u ⟨now, htold⟩
      rcases h.claim hd hsettled now n.owner (lease.getD n.lease) with
        ⟨hzero, hanswer⟩ | ⟨i, rest, r, hperm, hr, hanswer⟩
      · rw [hanswer] at htold
        cases htold
        exact yields_pure (hnone hzero)
      · rw [hanswer] at htold
        cases htold
        have hi : (i, Status.unassigned) ∈ items := hperm.mem_iff.mpr List.mem_cons_self
        obtain ⟨s, hs, -, x, hx, hprogress⟩ := h.stored _ hi
        obtain rfl : r = s := Option.some.inj (hr.symm.trans hs)
        have hid : (r.claimed n.owner now (lease.getD n.lease)).id = k.recordId n.source i :=
          (find?_some hr).2
        have hputs := puts_replace (hid ▸ hr : t.find?
          (r.claimed n.owner now (lease.getD n.lease)).id = some r)
        -- A claim leaves the key and the progress alone, so that what it gives can be read.
        have hbuilt : Partition.ofRecord k (r.claimed n.owner now (lease.getD n.lease)) =
            .ok ⟨i, some x, some (r.claimed n.owner now (lease.getD n.lease))⟩ := by
          refine Partition.ofRecord_of_keeps (congrArg RecordId.kind hid) ?_ hx hprogress
          have hkey : (r.claimed n.owner now (lease.getD n.lease)).key = k.key i :=
            congrArg RecordId.key hid
          rw [hkey]
          exact h.identify _ hi
        refine yields_build (fun hnone => nomatch hnone) ?_ ?_
        · rintro _ p ⟨⟩ hp
          obtain rfl := Except.ok.inj (hbuilt.symm.trans hp)
          exact hsome i rest r x now _ _ hperm hr hx hprogress hputs
            ⟨⟨_, rfl, hid ▸ hputs.find_self⟩, x, hx, rfl⟩ rfl rfl
        · rintro _ failure ⟨⟩ hfailure
          cases hbuilt.symm.trans hfailure
    · rintro failure u ⟨now, htold⟩
      rcases h.claim hd hsettled now n.owner (lease.getD n.lease) with
        ⟨-, hanswer⟩ | ⟨_, _, _, -, -, hanswer⟩ <;> rw [hanswer] at htold <;> cases htold
  have hleasable : ¬ (!k.leased) = true := by
    rw [hleased]
    decide
  unfold Node.claim
  rw [if_neg hleasable]
  exact hlookup.bind fun _ _ hbuild => hbuild

end Surroundings

/-! ## A pass -/

/-- One record has been claimed, and is in hand. -/
structure Claimed (k : PartitionKind) (source : String) (i : k.Identity) (t : Table)
    (p : Partition k) (u : Table) : Prop where
  distinct : t.Distinct → u.Distinct
  same : ∀ id, id ≠ k.recordId source i → u.find? id = t.find? id
  holds : p.Holds source u
  identity : p.identity = i

/-- One record has been completed. -/
structure Completed (k : PartitionKind) (source : String) (i : k.Identity) (t u : Table) : Prop where
  distinct : t.Distinct → u.Distinct
  same : ∀ id, id ≠ k.recordId source i → u.find? id = t.find? id
  record : ∃ r, u.find? (k.recordId source i) = some r ∧ r.status = some .completed ∧ k.KeptIn r

namespace Work

open Surroundings Table

variable {E : Interface} {shows : Instant → Prop} {k : PartitionKind} {σ : Type} {n : Node}
  {t : Table}

theorem alone_complete {p : Partition k} {source : String} (hleased : k.leased = true)
    (hp : p.Holds source t) :
    (alone shows).Yields (E := E) (fun _ u => Completed k source p.identity t u) NeverFails
      (Node.complete p) t := by
  refine (alone_move hp hleased).imp ?_ fun _ _ h => h
  rintro p' u ⟨-, -, r, x, time, hr, hx, hputs⟩
  have hid : (Transition.complete.apply time
      { r with progress := some (k.text x) }).nextVersion.id = k.recordId source p.identity :=
    (find?_some hr).2
  exact ⟨hputs.distinct, fun id hne => hputs.find_of_ne (hid ▸ hne),
    _, hid ▸ hputs.find_self, rfl, x, hx, rfl⟩

/-- **A pass over a worklist** finds nothing to do, or completes what it has claimed, as long as the
processor says that it is done. -/
theorem alone_workPass {settings : WorkerSettings} {process : Processor E k σ} {s : σ}
    {items : List (k.Identity × Status)} (post : Except Failure Bool → Table → Prop)
    (hleased : k.leased = true) (h : Worklist k n.source items t) (hd : t.Distinct)
    (hsettled : Settled items) (hnone : items.countP isWaiting = 0 → post (.ok false) t)
    (hwork : ∀ i rest u p, items.Perm ((i, .unassigned) :: rest) → Claimed k n.source i t p u →
      (alone shows).Ensures (fun done v => done.verdict = .ok .completed ∧
          done.partition.Holds n.source v ∧ done.partition.identity = i ∧
          ∀ w, Completed k n.source i v w → post (.ok true) w) (process p s) u) :
    (alone shows).Ensures (fun result u => post result.1 u) (pass n settings process s) t := by
  have hclaim : (alone shows).Yields (E := E) (fun claimed u =>
        (claimed = none ∧ post (.ok false) u) ∨ ∃ i rest p, claimed = some p ∧
          items.Perm ((i, .unassigned) :: rest) ∧ Claimed k n.source i t p u) NeverFails
      (n.claim k settings.leaseDuration) t := by
    refine alone_claim hleased h hd hsettled (fun hzero => .inl ⟨rfl, hnone hzero⟩) ?_
    intro i rest r x time u p hperm hr _ _ hputs hp hidentity _
    have hid : (r.claimed n.owner time (settings.leaseDuration.getD n.lease)).id =
        k.recordId n.source i := (find?_some hr).2
    exact .inr ⟨i, rest, p, rfl, hperm, hputs.distinct,
      fun id hne => hputs.find_of_ne (hid ▸ hne), hp, hidentity⟩
  refine Ensures.bind hclaim fun claimed u hclaimed => ?_
  match claimed with
  | .error failure => exact hclaimed.elim
  | .ok claimed =>
    rcases hclaimed with ⟨rfl, hpost⟩ | ⟨i, rest, p, rfl, hperm, hp⟩
    · exact hpost
    · refine (hwork i rest u p hperm hp).bind ?_
      rintro done v ⟨hverdict, hholds, hidentity, hpost⟩
      have hfinish : (alone shows).Yields (E := E) (fun result w => result = true ∧
          post (.ok true) w) NeverFails (finish settings.maxClosedCount done) v := by
        unfold finish
        rw [hverdict]
        refine (alone_complete hleased hholds).bind fun _ w hw => ?_
        exact yields_pure ⟨rfl, hpost w (hidentity ▸ hw)⟩
      refine Ensures.bind hfinish fun result w hresult => ?_
      cases result with
      | error failure => exact hresult.elim
      | ok worked =>
        obtain ⟨rfl, hw⟩ := hresult
        exact hw

/-! ## Passes until there is nothing to do -/

/-- Makes passes until one of them does not find anything to do, or fails. -/
def drain : List (Program (Node.interface E) (Except Failure Bool)) →
    Program (Node.interface E) (List (Except Failure Bool))
  | [] => return []
  | pass :: rest => do
    match ← pass with
    | .ok true => return .ok true :: (← drain rest)
    | result => return [result]

/-- What passes say that do some pieces of work, and then find nothing to do. -/
def verdicts (count : Nat) : List (Except Failure Bool) :=
  List.replicate count (.ok true) ++ [.ok false]

/-- **Passes that each do one piece of work empty the list**, and the pass after the last piece says
that there is nothing to do. -/
theorem ensures_drain {S : Surroundings} {left : Nat → S.State → Prop}
    {passes : List (Program (Node.interface E) (Except Failure Bool))}
    (hpass : ∀ pass ∈ passes, ∀ count g, left count g →
      S.Ensures (fun result g' => result = .ok (count != 0) ∧ left (count - 1) g') pass g)
    {count : Nat} (hcount : count < passes.length) {g : S.State} (hg : left count g) :
    S.Ensures (fun said g' => said = verdicts count ∧ left 0 g') (drain passes) g := by
  induction passes generalizing count g with
  | nil => exact absurd hcount (Nat.not_lt_zero _)
  | cons pass rest ih =>
    rw [List.forall_mem_cons] at hpass
    refine (hpass.1 count g hg).bind ?_
    rintro _ g' ⟨rfl, hg'⟩
    cases count with
    | zero => exact ⟨rfl, hg'⟩
    | succ count =>
      refine (ih hpass.2 (Nat.lt_of_succ_lt_succ hcount) hg').bind ?_
      rintro said g'' ⟨rfl, hg''⟩
      exact ⟨rfl, hg''⟩

end Work

end LeasedWork
