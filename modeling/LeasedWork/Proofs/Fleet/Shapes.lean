import LeasedWork.Proofs.Fleet.Lifetimes
import LeasedWork.Proofs.Store.Requests

/-! # The shape of stored records

A record has fields that make sense in some statuses only: an owner while it is assigned, a
reopening time once it is closed, none of them for shared state, which has no status at all.  No
write looks at the fields as a whole, and a write may come from a partition that was completed,
closed or given up long ago.  Still no stored record is ever out of shape (`Record.WellFormed`), if
nodes work with the built-in kinds.

Three tests have to agree for that: of the kind's own lease, when a transition asks for one; of the
status, when a save renews one; and of the tag, when work is created or claimed by it.  Partitions
in hand make them agree (`Hand.Proper`): the tag of the record behind one is the tag of its kind.
-/
namespace LeasedWork

/-! ## Shapes -/

namespace Record

/-- What goes together in the fields of a record. -/
structure WellFormed (r : Record) : Prop where
  shared : r.status = none ↔ r.kind = sharedKind.tag
  blank : r.kind = sharedKind.tag → r.owner = none ∧ r.leaseExpiry = none ∧ r.reopenAt = none ∧
    r.completedAt = none ∧ r.closedCount = 0
  readOnly : r.readOnly = true ↔ r.kind = sharedKind.tag
  owned : r.owner.isSome = true ↔ r.status = some .assigned
  assigned : r.status = some .assigned → r.leaseExpiry.isSome = true ∧ r.reopenAt = none
  closed : r.status = some .closed → r.reopenAt.isSome = true
  completed : r.status = some .completed → r.completedAt.isSome = true ∧ r.reopenAt = none

namespace WellFormed

variable {r : Record}

/-- Neither the progress nor the version has to do with the shape. -/
theorem rewrite (h : r.WellFormed) (progress : Option String) (version : UInt64) :
    ({ r with progress := progress, version := version } : Record).WellFormed :=
  ⟨h.shared, h.blank, h.readOnly, h.owned, h.assigned, h.closed, h.completed⟩

theorem newRecord (n : Node) {kind : String} {leased : Bool}
    (h : leased = false ↔ kind = sharedKind.tag) (key : String) (progress : Option String)
    (now : Instant) :
    (n.newRecord kind key leased progress now).WellFormed := by
  cases leased with
  | true =>
    have hkind : kind ≠ sharedKind.tag := fun hkind => nomatch h.mpr hkind
    exact ⟨iff_of_false nofun hkind, fun h => absurd h hkind, iff_of_false nofun hkind,
      iff_of_false nofun nofun, nofun, nofun, nofun⟩
  | false =>
    have hkind := h.mp rfl
    exact ⟨iff_of_true rfl hkind, fun _ => ⟨rfl, rfl, rfl, rfl, rfl⟩, iff_of_true rfl hkind,
      iff_of_false nofun nofun, nofun, nofun, nofun⟩

theorem not_shared (h : r.WellFormed) (hs : r.status ≠ none) : r.kind ≠ sharedKind.tag :=
  fun hkind => hs (h.shared.mpr hkind)

theorem claimed (h : r.WellFormed) {now : Instant} (havailable : r.isAvailable now = true)
    (owner : String) (lease : Span) : (r.claimed owner now lease).WellFormed := by
  have hkind : r.kind ≠ sharedKind.tag := by
    refine h.not_shared fun hs => ?_
    rw [isAvailable, availability, hs] at havailable
    cases havailable
  have hother : ∀ {s : Status}, s ≠ .assigned → (r.claimed owner now lease).status ≠ some s :=
    fun hs h => hs (Option.some.inj h).symm
  exact ⟨iff_of_false (Option.some_ne_none _) hkind, fun h => absurd h hkind,
    iff_of_false (fun hr => hkind (h.readOnly.mp hr)) hkind, iff_of_true rfl rfl,
    fun _ => ⟨rfl, rfl⟩, fun hs => absurd hs (hother (by decide)),
    fun hs => absurd hs (hother (by decide))⟩

/-- Work that is done is in shape, whatever it was before. -/
theorem done (h : r.WellFormed) (hkind : r.kind ≠ sharedKind.tag) (now : Instant) :
    (Transition.completed now r).WellFormed :=
  ⟨iff_of_false nofun hkind, fun h => absurd h hkind, h.readOnly, iff_of_false nofun nofun, nofun,
    nofun, fun _ => ⟨rfl, rfl⟩⟩

/-- **A transition keeps the shape**, if shared state makes none that is for leased work. -/
theorem apply (h : r.WellFormed) {t : Transition}
    (hkind : t.needsLease = true → r.kind ≠ sharedKind.tag) (now : Instant) :
    (t.apply now r).WellFormed := by
  cases t with
  | save extension =>
    unfold Transition.apply
    dsimp only
    split
    · rename_i hstatus
      have hkind := h.not_shared (Option.isSome_iff_ne_none.mp hstatus)
      exact ⟨h.shared, fun h => absurd h hkind, h.readOnly, h.owned,
        fun hs => ⟨rfl, (h.assigned hs).2⟩, h.closed, h.completed⟩
    · exact h
  | complete => exact h.done (hkind rfl) now
  | close reopenAfter limit =>
    have hleased := hkind rfl
    unfold Transition.apply
    dsimp only
    split
    · refine done (r := { r with closedCount := r.closedCount + 1 }) ?_ hleased now
      exact ⟨h.shared, fun h => absurd h hleased, h.readOnly, h.owned, h.assigned, h.closed,
        h.completed⟩
    · exact ⟨iff_of_false nofun hleased, fun h => absurd h hleased, h.readOnly,
        iff_of_false nofun nofun, nofun, fun _ => rfl, nofun⟩
  | giveUp =>
    have hleased := hkind rfl
    exact ⟨iff_of_false nofun hleased, fun h => absurd h hleased, h.readOnly,
      iff_of_false nofun nofun, nofun, nofun, nofun⟩

end WellFormed

end Record

/-! ## Built-in kinds -/

/-- Shared state is what is not leased. -/
theorem BuiltIn.leased_kind (b : BuiltIn) :
    b.kind.leased = false ↔ b.kind.tag = sharedKind.tag := by
  cases b <;> decide

namespace Factory

/-- Whether a factory makes partitions of built-in kinds, of all of them or of one. -/
def IsBuiltIn (f : Factory) : Prop := f = builtIn ∨ ∃ b : BuiltIn, f = ofKind b.kind

variable {f : Factory}

theorem IsBuiltIn.leased (hf : f.IsBuiltIn) (p : f.Piece) :
    Held.leased p = false ↔ Held.tag p = sharedKind.tag := by
  rcases hf with rfl | ⟨b, rfl⟩
  · exact p.builtIn.leased_kind
  · exact b.leased_kind

theorem IsBuiltIn.tag_adopt (hf : f.IsBuiltIn) (r : Record) (p : f.Piece) :
    Held.tag (Held.adopt r p) = Held.tag p := by
  rcases hf with rfl | ⟨b, rfl⟩ <;> rfl

/-- A partition has the tag of the record that it was made of. -/
theorem IsBuiltIn.tag_build (hf : f.IsBuiltIn) {r : Record} {p : f.Piece} (h : f.build r = .ok p) :
    r.kind = Held.tag p := by
  rcases hf with rfl | ⟨b, rfl⟩
  · change AnyPartition.ofRecord r = .ok p at h
    unfold AnyPartition.ofRecord at h
    split at h
    · rename_i b _
      cases hq : Partition.ofRecord b.kind r with
      | error e => rw [hq] at h; cases h
      | ok q => rw [hq] at h; cases h; exact kind_of_ofRecord hq
    · cases h
  · exact kind_of_ofRecord h

/-- Of a partition of one kind, the tag cannot be changed. -/
theorem IsBuiltIn.tag_change (hf : f.IsBuiltIn) {change : (f : Factory) → f.Piece → f.Piece}
    (hchange : ∀ p, Held.tag (change builtIn p) = Held.tag p) (p : f.Piece) :
    Held.tag (change f p) = Held.tag p := by
  rcases hf with rfl | ⟨b, rfl⟩
  · exact hchange p
  · rfl

end Factory

/-- A partition in hand that was made of a record in shape, by its tag. -/
structure Hand.Proper (x : Hand) : Prop where
  builtIn : x.factory.IsBuiltIn
  tag : ∀ r, x.record = some r → r.kind = Held.tag x.piece
  wellFormed : ∀ r, x.record = some r → r.WellFormed

namespace Hand.Proper

variable {x : Hand}

theorem build {f : Factory} (hf : f.IsBuiltIn) {r : Record} (hr : r.WellFormed) {p : f.Piece}
    (h : f.build r = .ok p) : Hand.Proper ⟨f, p⟩ where
  builtIn := hf
  tag r' hr' := by
    obtain rfl := Option.some.inj ((f.record_build r p h).symm.trans hr')
    exact hf.tag_build h
  wellFormed r' hr' := by
    obtain rfl := Option.some.inj ((f.record_build r p h).symm.trans hr')
    exact hr

theorem moved (h : x.Proper) {t : Transition} (hleased : t.needsLease = true → x.leased = true)
    {r : Record} (hr : x.record = some r) (now : Instant) : (x.moved t now r).WellFormed := by
  have hkind : t.needsLease = true → r.kind ≠ sharedKind.tag := by
    intro hneeds htag
    have hnot := (h.builtIn.leased x.piece).mpr ((h.tag r hr).symm.trans htag)
    exact absurd ((hleased hneeds).symm.trans hnot) Bool.noConfusion
  have hr' := (h.wellFormed r hr).rewrite (Held.progressText x.piece) r.version
  exact (hr'.apply hkind now).rewrite _ _

theorem adopt (h : x.Proper) {r r' : Record} (hr : x.record = some r) (hkind : r'.kind = r.kind)
    (hr' : r'.WellFormed) : (x.adopt r').Proper where
  builtIn := h.builtIn
  tag s hs := by
    rw [Hand.record_adopt] at hs
    obtain rfl := Option.some.inj hs
    exact (hkind.trans (h.tag r hr)).trans (h.builtIn.tag_adopt r' x.piece).symm
  wellFormed s hs := by
    rw [Hand.record_adopt] at hs
    obtain rfl := Option.some.inj hs
    exact hr'

/-- Work on a partition, if it does not make it one of another kind. -/
theorem revise (h : x.Proper) {change : (f : Factory) → f.Piece → f.Piece}
    (hchange : ∀ p, Held.tag (change Factory.builtIn p) = Held.tag p) :
    (x.revise change).Proper := by
  unfold Hand.revise
  split
  · rename_i hrecord
    have htag := h.builtIn.tag_change hchange x.piece
    refine ⟨h.builtIn, fun r hr => ?_, fun r hr => h.wellFormed r (hrecord.symm.trans hr)⟩
    exact (h.tag r (hrecord.symm.trans hr)).trans htag.symm
  · exact h

end Hand.Proper

/-! ## Turns of built-in kinds -/

/-- Whether a turn is made with built-in kinds only. Work may be created under any tag, and claimed
by it; whoever works on a partition does not make it one of another kind. -/
def Turn.IsBuiltIn : Turn → Prop
  | .move (.deed (.create (k := k) _ _)) | .move (.deed (.claim _ k _)) => ∃ b : BuiltIn, k = b.kind
  | .move (.deed (.claimAny _ f _ _)) | .move (.look (.completedSince _ f _ _))
  | .move (.look (.all _ f _)) | .move (.look (.shared _ f _)) => f.IsBuiltIn
  | .move (.deed (.revise _ change)) => ∀ p, Held.tag (change Factory.builtIn p) = Held.tag p
  | _ => True

namespace Fleet

/-- Stored records are in shape, and so are partitions in hand. -/
structure Shapely (w : Fleet) : Prop where
  rows : ∀ r ∈ w.table.rows, r.WellFormed
  hands : ∀ x ∈ w.hands, x.Proper

variable {w : Fleet}

theorem shapely_starting (start : Instant) : Shapely (starting start) where
  rows _ h := absurd h List.not_mem_nil
  hands _ h := absurd h List.not_mem_nil

theorem table_take (w : Fleet) (f : Factory) (action : Node.Action Interface.none (Option Record)) :
    (w.take f (action >>= fun r => Node.build? f.build r)).table = (w.perform action).2 := by
  have hrun := Program.run_exceptT_bind (Table.handler w.now) action
    (fun r => Node.build? f.build r) w.table
  unfold take perform
  rw [hrun]
  generalize Program.run (Table.handler w.now) action.run w.table = result
  obtain ⟨e | _ | r, t⟩ := result
  · rfl
  · rfl
  · dsimp only
    rw [run_build]
    cases f.build r <;> rfl

/-- A record that is found is put into hand, if a partition can be made of it. -/
theorem mem_hands_take {f : Factory} {action : Node.Action Interface.none (Option Record)}
    {x : Hand} (hx : x ∈ (w.take f (action >>= fun r => Node.build? f.build r)).hands) :
    x ∈ w.hands ∨ ∃ r p, (w.perform action).1 = .ok (some r) ∧ f.build r = .ok p ∧ x = ⟨f, p⟩ := by
  have hrun := Program.run_exceptT_bind (Table.handler w.now) action
    (fun r => Node.build? f.build r) w.table
  unfold take perform at hx
  rw [hrun] at hx
  unfold perform
  generalize Program.run (Table.handler w.now) action.run w.table = result at hx ⊢
  obtain ⟨e | _ | r, t⟩ := result
  · exact .inl hx
  · exact .inl hx
  · dsimp only at hx
    rw [run_build] at hx
    cases hp : f.build r with
    | error e =>
      rw [hp] at hx
      exact .inl hx
    | ok p =>
      rw [hp] at hx
      rcases List.mem_append.mp hx with hx | hx
      · exact .inl hx
      · exact .inr ⟨r, p, rfl, hp, List.mem_singleton.mp hx⟩

/-- A query puts into hand what it gives, if it gives anything. -/
theorem mem_hands_gather {f : Factory} {action : Node.Action Interface.none (List f.Piece)}
    {x : Hand} (hx : x ∈ (w.gather f action).hands) :
    x ∈ w.hands ∨ ∃ ps p, (w.perform action).1 = .ok ps ∧ p ∈ ps ∧ x = ⟨f, p⟩ := by
  unfold gather at hx
  generalize w.perform action = result at hx ⊢
  obtain ⟨answer, t⟩ := result
  cases answer with
  | error e => exact .inl hx
  | ok ps =>
    rcases List.mem_append.mp hx with hx | hx
    · exact .inl hx
    · obtain ⟨p, hp, rfl⟩ := List.mem_map.mp hx
      exact .inr ⟨ps, p, rfl, hp, rfl⟩

namespace Shapely

theorem insert {t : Table} (ht : ∀ r ∈ t.rows, r.WellFormed) {r : Record} (hr : r.WellFormed) :
    ∀ x ∈ (t.insert r.firstVersion).rows, x.WellFormed := by
  intro x hx
  rcases Table.mem_insert hx with rfl | hx
  · exact hr.rewrite r.progress 1
  · exact ht x hx

/-- What a claim gives is in shape, and so is what it leaves. -/
theorem answer_claim {t : Table} (ht : ∀ r ∈ t.rows, r.WellFormed) (now : Instant)
    (source kind owner : String) (lease : Span) :
    (∀ r, (t.answer now (.claim source kind owner lease)).1 = .ok (some r) → r.WellFormed) ∧
      ∀ r ∈ (t.answer now (.claim source kind owner lease)).2.rows, r.WellFormed := by
  simp only [Table.answer]
  cases hc : candidates now (t.ofKind source kind) with
  | nil => exact ⟨fun r hr => absurd (Except.ok.inj hr) (Option.some_ne_none r).symm, ht⟩
  | cons r rest =>
    have hmem : r ∈ candidates now (t.ofKind source kind) := hc ▸ List.mem_cons_self
    obtain ⟨hof, havailable⟩ := mem_candidates.mp hmem
    have hclaimed := (ht r (Table.mem_ofKind.mp hof).1).claimed havailable owner lease
    refine ⟨fun x hx => ?_, fun x hx => ?_⟩
    · obtain rfl := Option.some.inj (Except.ok.inj hx)
      exact hclaimed
    · rcases Table.mem_replace hx with rfl | hx
      · exact hclaimed
      · exact ht x hx

/-- A partition that is made of a record in shape joins those in hand. -/
theorem take (h : Shapely w) {f : Factory} (hf : f.IsBuiltIn)
    {action : Node.Action Interface.none (Option Record)}
    (hrows : ∀ r ∈ (w.perform action).2.rows, r.WellFormed)
    (hgiven : ∀ r, (w.perform action).1 = .ok (some r) → r.WellFormed) :
    Shapely (w.take f (action >>= fun r => Node.build? f.build r)) := by
  refine ⟨?_, fun x hx => ?_⟩
  · rw [table_take]
    exact hrows
  · rcases mem_hands_take hx with hx | ⟨r, p, hr, hp, rfl⟩
    · exact h.hands x hx
    · exact .build hf (hgiven r hr) hp

theorem claim (h : Shapely w) {f : Factory} (hf : f.IsBuiltIn) (n : Node) (kind : String)
    (lease : Option Span) :
    Shapely (w.take f (n.claimRecord kind lease >>= fun r => Node.build? f.build r)) := by
  obtain ⟨hgiven, hrows⟩ := answer_claim h.rows w.now n.source kind n.owner (lease.getD n.lease)
  exact h.take hf hrows hgiven

theorem shared (h : Shapely w) {f : Factory} (hf : f.IsBuiltIn) (n : Node) (key : String) :
    Shapely (w.take f (n.shared? f.build key)) := by
  let lookup : Node.Action Interface.none (Option Record) :=
    Node.store (.get ⟨n.source, sharedKind.tag, key⟩)
  have hgiven : ∀ r, (w.perform lookup).1 = .ok (some r) → r.WellFormed := fun r hr =>
    h.rows r (Table.find?_some (Except.ok.inj hr)).1
  exact h.take hf h.rows hgiven

/-- Partitions that are made of stored records join those in hand. -/
theorem gather (h : Shapely w) {f : Factory} (hf : f.IsBuiltIn) {rs : List Record}
    {action : Node.Action Interface.none (List f.Piece)}
    (haction : w.perform action = (rs.mapM f.build, w.table))
    (hrs : ∀ r ∈ rs, r ∈ w.table.rows) : Shapely (w.gather f action) := by
  refine ⟨(looked_gather haction hrs).table ▸ h.rows, fun x hx => ?_⟩
  rcases mem_hands_gather hx with hx | ⟨ps, p, hps, hp, rfl⟩
  · exact h.hands x hx
  · rw [haction] at hps
    obtain ⟨r, hr, hbuild⟩ := mem_of_mapM hps hp
    exact .build hf (h.rows r (hrs r hr)) hbuild

theorem transition (h : Shapely w) (i : Nat) (t : Transition) : Shapely (w.transition i t) := by
  by_cases hm : ∃ x r, w.Moves i t x r
  · obtain ⟨x, r, hm⟩ := hm
    have hx := h.hands x (List.mem_of_getElem? hm.hand)
    have hmoved := hx.moved hm.leased hm.record w.now
    rw [transition_of_moves hm]
    refine ⟨fun y hy => ?_, fun y hy => ?_⟩
    · rcases Table.mem_replace hy with rfl | hy
      · exact hmoved
      · exact h.rows y hy
    · rcases List.mem_or_eq_of_mem_set hy with hy | rfl
      · exact h.hands y hy
      · exact hx.adopt hm.record (congrArg RecordId.kind (x.id_moved t w.now r)) hmoved
  · rw [transition_of_not_moves fun x r hx => hm ⟨x, r, hx⟩]
    exact h

theorem revise (h : Shapely w) (i : Nat) {change : (f : Factory) → f.Piece → f.Piece}
    (hchange : ∀ p, Held.tag (change Factory.builtIn p) = Held.tag p) :
    Shapely { w with hands := w.hands.modify i (·.revise change) } := by
  refine ⟨h.rows, fun x hx => ?_⟩
  obtain ⟨j, hj⟩ := List.mem_iff_getElem?.mp hx
  rw [List.getElem?_modify] at hj
  obtain ⟨y, hy, rfl⟩ := Option.map_eq_some_iff.mp hj
  have hproper := h.hands y (List.mem_of_getElem? hy)
  split
  · exact hproper.revise hchange
  · exact hproper

/-- **A turn of built-in kinds keeps everything in shape.** -/
theorem next (h : Shapely w) {turn : Turn} (hturn : turn.IsBuiltIn) : Shapely (w.next turn) := by
  have hinsert : ∀ (t : Table) (r : Record), r.WellFormed → (∀ x ∈ t.rows, x.WellFormed) →
      t.find? r.id = none → ∀ x ∈ (t.insert r.firstVersion).rows, x.WellFormed :=
    fun t r hr ht _ => insert ht hr
  cases turn with
  | setClock t => exact ⟨h.rows, h.hands⟩
  | move m =>
    cases m with
    | look l =>
      cases l with
      | completedSince n f kind since =>
        have hrun := Program.run_exceptT_bind (Table.handler w.now)
          (Node.store (E := Interface.none) (.byStatus n.source kind .completed (some since)))
          (fun rs => Node.ofExcept (rs.mapM f.build)) w.table
        exact h.gather hturn hrun fun r hr => mem_of_mem_sorted hr
      | all n f kind =>
        have hrun := Program.run_exceptT_bind (Table.handler w.now)
          (Node.store (E := Interface.none) (.all n.source kind))
          (fun rs => Node.ofExcept (rs.mapM f.build)) w.table
        exact h.gather hturn hrun fun r hr =>
          (Table.mem_ofKind.mp ((Record.sorted_perm _).mem_iff.mp hr)).1
      | shared n f key => exact h.shared hturn n key
      | copy i =>
        refine ⟨h.rows, fun x hx => ?_⟩
        rcases List.mem_append.mp hx with hx | hx
        · exact h.hands x hx
        · exact h.hands x (List.mem_of_getElem? (Option.mem_toList.mp hx))
    | deed d =>
      cases d with
      | create n p =>
        obtain ⟨b, rfl⟩ := hturn
        exact ⟨create_induction_of _ hinsert h.rows (.newRecord n b.leased_kind _ _ _), h.hands⟩
      | createEach n kind progress keys =>
        refine ⟨createEach_induction_of _ hinsert h.rows fun key => ?_, h.hands⟩
        exact .newRecord n (by simp) key progress w.now
      | claim n k lease =>
        obtain ⟨b, rfl⟩ := hturn
        have hclaim := h.claim (.inr ⟨b, rfl⟩) n b.kind.tag lease
        simp only [Fleet.next, step, after, Node.claim]
        cases hleased : b.kind.leased with
        | false => exact h
        | true => exact hclaim
      | claimAny n f tag lease =>
        -- The tag need not be of a built-in kind: the claim is kept then, but not in hand.
        have hclaim := h.claim hturn n tag lease
        simp only [Fleet.next, step, after, Node.claimAny]
        by_cases htag : tag = sharedKind.tag
        · rw [if_pos htag]
          exact h
        · rw [if_neg htag]
          exact hclaim
      | save n i extension => exact h.transition i _
      | complete i => exact h.transition i _
      | close i reopenAfter limit => exact h.transition i _
      | giveUp i => exact h.transition i _
      | revise i change => exact h.revise i hturn
      | tick t => exact ⟨h.rows, h.hands⟩

theorem follow (h : Shapely w) {turns : List Turn} (hturns : ∀ turn ∈ turns, turn.IsBuiltIn) :
    Shapely (w.follow turns) := by
  induction turns generalizing w with
  | nil => exact h
  | cons turn rest ih =>
    rw [List.forall_mem_cons] at hturns
    exact ih (h.next hturns.1) hturns.2

end Shapely

/-! ## Counters -/

/-- A record has been written, and closed if its status says so. -/
structure Started (s : Record) : Prop where
  version : 0 < s.version
  closed : s.status = some .closed → 0 < s.closedCount

theorem Started.newRecord (n : Node) (kind key : String) (leased : Bool) (progress : Option String)
    (now : Instant) : Started (n.newRecord kind key leased progress now).firstVersion := by
  have hone : (0 : UInt64) < 1 := by decide
  cases leased <;> exact ⟨hone, nofun⟩

theorem succ_pos {v : UInt64} {n : Nat} (hv : v.toNat ≤ n) (hn : n + 1 < UInt64.size) :
    0 < v + 1 := by
  rw [UInt64.lt_iff_toNat_lt, Coherent.toNat_succ hv hn]
  exact Nat.succ_pos _

theorem Started.moved {s : Record} (h : Started s) (x : Hand) (t : Transition) (now : Instant)
    {most : Nat} (hversion : s.version.toNat ≤ most) (hclosings : s.closedCount.toNat ≤ most)
    (hmost : most + 1 < UInt64.size) : Started (x.moved t now s) where
  version := by
    rw [Hand.version_moved]
    exact succ_pos hversion hmost
  closed hs := by
    cases t with
    | save extension =>
      rw [Hand.status_save] at hs
      rw [Hand.closedCount_moved x now (t := .save extension) nofun]
      exact h.closed hs
    | complete => cases hs
    | close reopenAfter limit =>
      rw [Hand.closedCount_close]
      exact succ_pos hclosings hmost
    | giveUp => cases hs

/-- What is stored of an identity is as its writes say, and has been started. -/
structure Starts (id : RecordId) (ws : List Write) (w : Fleet) : Prop where
  tells : Tells id ws w
  stored : ∀ s, w.table.find? id = some s → Started s

namespace Starts

variable {id : RecordId} {ws : List Write}

theorem next (h : Starts id ws w) (turn : Turn)
    (hmost : ws.length + (w.wrote id turn).length < UInt64.size) :
    Starts id (ws ++ w.wrote id turn) (w.next turn) := by
  refine ⟨h.tells.next turn hmost, fun s' hs' => ?_⟩
  cases hs : w.table.find? id with
  | none =>
    cases turn with
    | setClock t => exact nomatch hs'.symm.trans hs
    | move m =>
      obtain ⟨n, kind, key, leased, progress, now, -, rfl⟩ := appears m hs hs'
      exact .newRecord n kind key leased progress now
  | some s =>
    obtain rfl := (Table.find?_some hs).2
    have hstarted := h.stored s hs
    have hversion := h.tells.coherent.bound s hs
    rcases next_cases h.tells.coherent hs turn with
      ⟨-, hkept | ⟨owner, lease, hclaimed⟩⟩ | ⟨x, t, -, hmoved⟩
    · obtain rfl := Option.some.inj (hs'.symm.trans hkept)
      exact hstarted
    · obtain rfl := Option.some.inj (hs'.symm.trans hclaimed)
      exact ⟨succ_pos hversion (h.tells.lt_of_version hs hclaimed rfl hmost), nofun⟩
    · obtain rfl := Option.some.inj (hs'.symm.trans hmoved)
      exact hstarted.moved x t w.now hversion (h.tells.closedCount_le hs)
        (h.tells.lt_of_version hs hmoved (x.version_moved t w.now s) hmost)

theorem follow (h : Starts id ws w) (turns : List Turn)
    (hmost : ws.length + (history id w turns).length < UInt64.size) :
    Starts id (ws ++ history id w turns) (w.follow turns) := by
  induction turns generalizing w ws with
  | nil => rwa [history, List.append_nil]
  | cons turn rest ih =>
    rw [history, List.length_append] at hmost
    rw [history, ← List.append_assoc]
    exact ih (h.next turn (by omega)) (by rw [List.length_append]; omega)

end Starts

/-- **No stored record is out of shape.**  Any number of nodes share one table and one clock, which
may also be set back, and make any turns of built-in kinds, through partitions that they claimed or
looked up, however old.  They create work under any tag, and claim it also when they cannot make a
partition of it.  Then every stored record is in shape, and has been written, and closed if its
status says so.

The counters are told of every identity whose record is written fewer than `2^64` times. -/
theorem wellFormed_of_builtIn (start : Instant) (turns : List Turn)
    (h : ∀ turn ∈ turns, turn.IsBuiltIn) :
    ∀ r ∈ ((starting start).follow turns).table.rows, r.WellFormed ∧
      ((history r.id (starting start) turns).length < UInt64.size →
        0 < r.version ∧ (r.status = some .closed → 0 < r.closedCount)) := by
  intro r hr
  refine ⟨((shapely_starting start).follow h).rows r hr, fun hmost => ?_⟩
  have hstart : Starts r.id [] (starting start) :=
    ⟨tells_starting r.id start, fun s hs => nomatch hs⟩
  have hstarts := hstart.follow turns (by simpa using hmost)
  have hfind := (Table.find?_iff hstarts.tells.coherent.distinct).mpr ⟨hr, rfl⟩
  obtain ⟨hversion, hclosed⟩ := hstarts.stored r hfind
  exact ⟨hversion, hclosed⟩

/-- Work of an unknown kind is claimed, and an export without a date in its key: neither is in hand
then. Shared state is saved, but cannot be completed. A stream is closed, and then given up with the
same partition. -/
def oddJobs : List Turn :=
  [.move (.deed (.createEach ⟨"db", "node-a", .seconds 60⟩ "REPORT" none ["a"])),
    .move (.deed (.claimAny ⟨"db", "node-a", .seconds 60⟩ Factory.builtIn "REPORT" none)),
    .move (.deed (.createEach ⟨"db", "node-a", .seconds 60⟩ "EXPORT" none ["db.users"])),
    .move (.deed (.claim ⟨"db", "node-a", .seconds 60⟩ snapshotKind none)),
    .move (.deed (.create ⟨"db", "node-a", .seconds 60⟩ (newShared "config" []))),
    .move (.look (.shared ⟨"db", "node-b", .seconds 60⟩ Factory.builtIn "config")),
    .move (.deed (.save ⟨"db", "node-b", .seconds 60⟩ 0 none)),
    .move (.deed (.complete 0)),
    .move (.deed (.createEach ⟨"db", "node-a", .seconds 60⟩ "STREAM" none ["db.users"])),
    .move (.deed (.claim ⟨"db", "node-b", .seconds 60⟩ streamKind none)),
    .move (.deed (.close 1 (.seconds 30) none)),
    .move (.deed (.giveUp 1))]

/-- All of `oddJobs` leave records in shape. -/
theorem wellFormed_oddJobs :
    ((starting .epoch).follow oddJobs).table.rows.map (fun r => (r.status, r.version)) =
      [(some .assigned, 2), (some .assigned, 2), (none, 2), (some .unassigned, 4)] ∧
    ∀ r ∈ ((starting .epoch).follow oddJobs).table.rows, r.WellFormed ∧ 0 < r.version := by
  have hbuiltIn : ∀ turn ∈ oddJobs, turn.IsBuiltIn := by
    simp only [oddJobs, List.forall_mem_cons]
    exact ⟨trivial, .inl rfl, trivial, ⟨.snapshot, rfl⟩, ⟨.shared, rfl⟩, .inl rfl, trivial, trivial,
      trivial, ⟨.stream, rfl⟩, trivial, trivial, fun _ h => absurd h List.not_mem_nil⟩
  have hwrites : ∀ r ∈ ((starting .epoch).follow oddJobs).table.rows,
      (history r.id (starting .epoch) oddJobs).length < UInt64.size := by
    decide +kernel
  refine ⟨by decide +kernel, fun r hr => ?_⟩
  obtain ⟨hwellFormed, hcounters⟩ := wellFormed_of_builtIn .epoch oddJobs hbuiltIn r hr
  exact ⟨hwellFormed, (hcounters (hwrites r hr)).1⟩

end Fleet

end LeasedWork
