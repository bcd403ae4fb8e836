import LeasedWork.Fleet.Planning
import LeasedWork.Proofs.Fleet.Crowds
import LeasedWork.Proofs.Fleet.Pins

/-! # Exports and elections go by the pinned times

Work on the exports of a source writes exports and load statuses, and an election writes the
leader's record and bootstraps.  Neither touches what pins a snapshot.  An export in hand goes by
the pinned time (`InHand`): it has been made of a stored export, and whatever is written for it
keeps its key and its progress.
-/
namespace LeasedWork

open Accord

variable {E : Interface} {source : String} {cs : List Collection} {t u : Table} {n : Node}

theorem Record.isExportOf_congr {r r' : Record} (h : r.id = r'.id) (c : Collection) :
    r.IsExportOf source c ↔ r'.IsExportOf source c := by
  have hsource : r.source = r'.source := congrArg RecordId.source h
  have hkind : r.kind = r'.kind := congrArg RecordId.kind h
  have hkey : r.key = r'.key := congrArg RecordId.key h
  rw [IsExportOf, IsExportOf, hsource, hkind, hkey]

/-- A record of no collection may be moved in any way. -/
theorem pinning_transition {P : Type} [Held P] (p : P) (move : Transition)
    (h : ∀ r, Held.record p = some r → ∀ c ∈ cs, c.configId source ≠ r.id ∧
      ¬ r.IsExportOf source c) :
    (pinning source cs).Secures (E := E) (fun _ _ => True) (Node.transition p move) t := by
  refine secures_transition fun r hr time u _ _ => ⟨fun c hc => ?_, fun _ _ _ _ _ _ => trivial⟩
  have hid := Node.id_proposal p move time r
  obtain ⟨hother, hno⟩ := h r hr c hc
  exact ⟨hid ▸ hother, fun hof => absurd ((Record.isExportOf_congr hid c).mp hof) hno⟩

/-! ## Load status -/

namespace LoadStatus

variable (h : Distinguished cs)

include h

theorem pinning_attempt (collection : String) (change : LoadStatus → LoadStatus) :
    (pinning source cs).Secures (E := E) (fun _ _ => True) (attempt n collection change) t := by
  have hlook : (pinning source cs).Secures (E := E) (fun state _ => ∀ p, state = some p →
      ∀ r, p.record = some r → r.id = ⟨n.source, sharedKind.tag, keyOf collection⟩)
      (n.shared? (Partition.ofRecord sharedKind) (keyOf collection)) t := by
    refine secures_shared fun u _ _ => ⟨trivial, fun v _ _ => ⟨fun _ _ hp => (nomatch hp), ?_⟩⟩
    intro s p hs hp q hq r hr
    obtain rfl := Option.some.inj hq
    obtain rfl := Option.some.inj ((Factory.record_ofRecord hp).symm.trans hr)
    exact (Table.find?_some hs).2
  refine hlook.bind fun state u _ _ hstate => ?_
  cases state with
  | none => exact secures_pure fun _ _ _ => trivial
  | some p =>
    refine secures_ofExcept fun status _ => secures_now fun time => ?_
    refine (pinning_transition _ _ fun r hr c hc => ?_).bind fun _ _ _ _ _ =>
      secures_pure fun _ _ _ => trivial
    have hid : r.id = ⟨n.source, sharedKind.tag, keyOf collection⟩ := hstate p rfl r hr
    refine ⟨fun heq => h.name_ne_keyOf hc collection (congrArg RecordId.key (heq.trans hid)), ?_⟩
    rintro ⟨-, hkind, -⟩
    exact absurd ((congrArg RecordId.kind hid).symm.trans hkind)
      (by decide : sharedKind.tag ≠ snapshotKind.tag)

theorem pinning_update (collection : String) (change : LoadStatus → LoadStatus) :
    (pinning source cs).Secures (E := E) (fun _ _ => True) (update n collection change) t :=
  secures_persist (pinning_attempt h collection change)

end LoadStatus

/-! ## Exports in hand -/

/-- An export in hand goes by the pinned time, whatever is written for it. -/
def InHand (source : String) (cs : List Collection) (p : Partition snapshotKind) (t : Table) :
    Prop :=
  ∃ r, p.record = some r ∧ r.kind = snapshotKind.tag ∧ ∀ c ∈ cs, r.IsExportOf source c →
    c.Exports source t { r with progress := p.progressText }

variable {p : Partition snapshotKind}

theorem InHand.mono (h : InHand source cs p t) (hstays : StaysPinned source cs t u) :
    InHand source cs p u := by
  obtain ⟨r, hr, hkind, hexports⟩ := h
  exact ⟨r, hr, hkind, fun c hc hof => hstays.exports hc (hexports c hc hof)⟩

/-- A stored export that is claimed. -/
theorem inHand_of_claim {r x : Record} {owner : String} {now : Instant} {lease : Span}
    (h : Pinning source cs t) (hx : x ∈ t.rows) (hr : r = x.claimed owner now lease)
    (hp : Partition.ofRecord snapshotKind r = .ok p) (hkind : x.kind = snapshotKind.tag) :
    InHand source cs p t := by
  subst hr
  refine ⟨_, Factory.record_ofRecord hp, hkind, fun c hc hof => ?_⟩
  obtain ⟨time, size, hpinned, hsize, hkey, hprogress⟩ := h.exports c hc x hx hof
  have hclaimed : (x.claimed owner now lease).progress = _ := hprogress
  have hkeeps := PartitionKind.keeps_starting c.name (h.of_pinned hc hpinned).1.civil
  have htext := Partition.progressText_of_ofRecord hkeeps hclaimed hp
  exact ⟨time, size, hpinned, hsize, hkey, htext.trans hprogress⟩

/-- An export in hand may be moved in any way, and stays what it is. -/
theorem InHand.transition (h : InHand source cs p t) (move : Transition) :
    (pinning source cs).Secures (E := E) (InHand source cs) (Node.transition p move) t := by
  obtain ⟨r, hr, hkind, hexports⟩ := h
  refine secures_transition fun r' hr' time u hu htu => ?_
  obtain rfl := Option.some.inj (hr.symm.trans hr')
  have hid := Node.id_proposal p move time r
  have hprogress := Node.progress_proposal p move time r
  have hproposed : ∀ c ∈ cs, (Node.proposal p move time r).IsExportOf source c → ∀ v,
      StaysPinned source cs t v → c.Exports source v (Node.proposal p move time r) := by
    intro c hc hof v htv
    have hof' := (Record.isExportOf_congr hid c).mp hof
    obtain ⟨time, size, hpinned, hsize, hkey, htext⟩ := htv.exports hc (hexports c hc hof')
    exact ⟨time, size, hpinned, hsize, (congrArg RecordId.key hid).trans hkey,
      hprogress.trans htext⟩
  have hmay : (pinning source cs).May u (.update (Node.proposal p move time r)) := by
    refine fun c hc => ⟨fun heq => ?_, fun hof => hproposed c hc hof u htu⟩
    exact absurd ((congrArg RecordId.kind (heq.trans hid)).trans hkind)
      (by decide : sharedKind.tag ≠ snapshotKind.tag)
  refine ⟨hmay, fun now written hanswer v _ huv => ?_⟩
  have htv : StaysPinned source cs t v := Accord.trans _ htu
    (Accord.trans _ ((pinning source cs).keeps now hu hmay).2 huv)
  obtain rfl := Table.eq_of_answer_update hanswer
  refine ⟨_, rfl, (congrArg RecordId.kind hid).trans hkind, fun c hc hof => ?_⟩
  obtain ⟨time, size, hpinned, hsize, hkey, htext⟩ := hproposed c hc hof v htv
  exact ⟨time, size, hpinned, hsize, hkey, hprogress.symm.trans htext⟩

/-! ## Passes over exports -/

namespace Planning

variable (h : Distinguished cs)

theorem pinning_createQueries (collection : String) (start : Instant) (identifiers : List String) :
    (pinning source cs).Secures (E := E) (fun _ _ => True)
      (createQueries n collection start identifiers) t := by
  induction identifiers generalizing t with
  | nil => exact secures_pure fun _ _ _ => trivial
  | cons identifier rest ih =>
    refine (Candidate.pinning_create _ fun now u _ _ => ?_).bind fun _ _ _ _ _ =>
      ih.bind fun _ _ _ _ _ => secures_pure fun _ _ _ => trivial
    have hid := n.id_newRecord queryKind.tag
      (newQuery ⟨collection, queryOf collection identifier⟩).key queryKind.leased
      ((newQuery ⟨collection, queryOf collection identifier⟩).startingAt start).progressText now
    have hkind := congrArg RecordId.kind hid
    exact lawful_of_kind
      (fun heq => absurd (hkind.symm.trans heq) (by decide : queryKind.tag ≠ sharedKind.tag))
      (fun heq => absurd (hkind.symm.trans heq) (by decide : queryKind.tag ≠ streamKind.tag))
      (fun heq => absurd (hkind.symm.trans heq) (by decide : queryKind.tag ≠ snapshotKind.tag))

include h

theorem pinning_planPage (hp : InHand source cs p t) (page : Page) :
    (pinning source cs).Secures (E := E) (InHand source cs) (planPage n p page) t := by
  refine secures_now fun start => ?_
  refine (pinning_createQueries _ start page.identifiers).bind fun created u _ htu _ => ?_
  refine (LoadStatus.pinning_update h _ _).bind fun _ v _ huv _ => ?_
  exact (hp.mono (Accord.trans _ htu huv)).transition _

variable {may : Request → Prop}
  (hmay : ∀ request, may request → ∀ u, (pinning source cs).Good u →
    (pinning source cs).May u request)

include hmay

theorem pinning_planFrom
    {refuse : Partition snapshotKind → Option String → Program (Node.interface E) Failure}
    {pages : List (NextPage E)} (hp : InHand source cs p t) (cursor : Option String)
    (hpages : ∀ next ∈ pages, ∀ p cursor, Accord.Asks may (next p cursor).run)
    (hrefuse : ∀ p cursor, Accord.Asks may (refuse p cursor)) :
    (pinning source cs).Abides (fun done => InHand source cs done.partition)
      (planFrom n refuse p cursor pages) t := by
  induction pages generalizing p cursor t with
  | nil =>
    refine (abides_of_asks hmay (hrefuse p cursor)).bind fun failure u _ htu _ => ?_
    exact fun v _ huv => hp.mono (Accord.trans _ htu huv)
  | cons next rest ih =>
    obtain ⟨hnext, hrest⟩ := List.forall_mem_cons.mp hpages
    refine (abides_of_asks hmay (hnext p cursor)).bind fun answer u _ htu _ => ?_
    -- The partition in hand has been claimed under the pinned times, and these stay.
    have hp' := hp.mono htu
    cases answer with
    | error failure => exact fun v _ huv => hp'.mono huv
    | ok page =>
      refine Abides.bind (pinning_planPage h hp' page) fun planned v _ huv hplanned => ?_
      cases planned with
      | error failure => exact fun w _ hvw => (hp'.mono huv).mono hvw
      | ok p' =>
        have hp'' := hplanned p' rfl
        dsimp only
        split
        · exact fun w _ hvw => hp''.mono hvw
        · exact ih hp'' page.cursor hrest

end Planning

/-- Every request of a supplier is of a sort. -/
def Supplier.Asks (may : Request → Prop) (s : Supplier E) : Prop :=
  (∀ next ∈ s.pages, ∀ p cursor, Accord.Asks may (next p cursor).run) ∧
    ∀ p cursor, Accord.Asks may (s.refuse p cursor)

namespace Work

theorem pinning_finish (limit : Option UInt64) {done : Processed snapshotKind (Supplier E)}
    (hp : InHand source cs done.partition t) :
    (pinning source cs).Secures (E := E) (fun _ _ => True) (finish limit done) t := by
  unfold finish
  split
  · rename_i outcome _
    have happly : (pinning source cs).Secures (E := E) (InHand source cs)
        (apply limit done.partition outcome) t := by
      cases outcome with
      | completed => exact hp.transition .complete
      | closed reopenAfter => exact hp.transition (.close reopenAfter limit)
      | released => exact hp.transition .giveUp
    exact happly.bind fun _ _ _ _ _ => secures_pure fun _ _ _ => trivial
  · split
    · exact secures_pure fun _ _ _ => trivial
    · exact Abides.bind (hp.transition .giveUp) fun _ _ _ _ _ => secures_error _

/-- **A pass over an export goes by the pinned times**, whatever its supplier does, as long as that
asks for nothing improper. -/
theorem pinning_pass (h : Distinguished cs) {may : Request → Prop}
    (hmay : ∀ request, may request → ∀ u, (pinning source cs).Good u →
      (pinning source cs).May u request)
    (settings : WorkerSettings) {s : Supplier E} (hs : s.Asks may) :
    (pinning source cs).Abides (fun _ _ => True) (pass n settings (Planning.process n) s) t := by
  have hclaim : (pinning source cs).Secures (E := E)
      (fun p u => ∀ q, p = some q → InHand source cs q u)
      (n.claim snapshotKind settings.leaseDuration) t := by
    refine secures_claim fun u hu _ => ?_
    have hproper : (pinning source cs).May u
        (.claim n.source snapshotKind.tag n.owner (settings.leaseDuration.getD n.lease)) :=
      fun hshared => absurd hshared.2 (by decide : snapshotKind.tag ≠ sharedKind.tag)
    refine ⟨hproper, fun now v _ huv => ⟨fun _ hq => (nomatch hq), fun r p hanswer hp q hq => ?_⟩⟩
    obtain rfl := Option.some.inj hq
    obtain ⟨x, hx, -, hkind, hr⟩ := Table.exists_of_answer_claim hanswer
    have huv' := Accord.trans _ ((pinning source cs).keeps now hu hproper).2 huv
    exact (inHand_of_claim hu hx hr hp hkind).mono huv'
  refine Abides.bind hclaim fun answer u _ _ hanswer => ?_
  match answer with
  | .error failure => exact fun _ _ _ => trivial
  | .ok none => exact fun _ _ _ => trivial
  | .ok (some p) =>
    have hp := hanswer _ rfl p rfl
    refine (Planning.pinning_planFrom h hmay hp none hs.1 hs.2).bind fun done v _ _ hdone => ?_
    exact Abides.bind (pinning_finish settings.maxClosedCount hdone) fun _ _ _ _ _ =>
      fun _ _ _ => trivial

end Work

/-! ## Passes of the election -/

namespace Candidate

/-- What the steps of a pass keep, a pass keeps up to the renewal. -/
theorem abides_takeSteps {A : Accord} {motive : Candidate → Prop}
    {steps : List (Candidate → Node.Action E Candidate)}
    (hsteps : ∀ step ∈ steps, ∀ c t, motive c → A.Secures (fun c' _ => motive c') (step c) t)
    {c : Candidate} (hc : motive c) :
    A.Abides (fun c' _ => motive c') (takeSteps steps c) t := by
  induction steps generalizing c t with
  | nil => exact fun _ _ _ => hc
  | cons step rest ih =>
    obtain ⟨hstep, hrest⟩ := List.forall_mem_cons.mp hsteps
    refine Abides.bind (hstep c t hc) fun x u _ _ hx => ?_
    cases x with
    | error failure => exact fun _ _ _ => hc
    | ok c' => exact ih hrest (hx c' rfl)

/-- A candidate of a source with a plan, which has a leader's record in hand or none. -/
structure Plans (source : String) (cs : List Collection) (c : Candidate) : Prop where
  source : c.node.source = source
  plan : c.collections = cs
  leader : ∀ p r, c.held = some p → p.record = some r → r.kind = leaderKind.tag

variable {c : Candidate} (hplans : c.Plans source cs)

include hplans

theorem Plans.ensureCreated : (pinning source cs).Secures (E := E) (fun c' _ => c'.Plans source cs)
    c.ensureCreated t := by
  unfold Candidate.ensureCreated
  cases c.hasCreated with
  | true => exact secures_pure fun _ _ _ => hplans
  | false =>
    refine (pinning_create newLeader fun now u _ _ => ?_).bind fun _ _ _ _ _ =>
      secures_pure fun _ _ _ => { hplans with }
    exact lawful_of_kind (by decide : leaderKind.tag ≠ sharedKind.tag)
      (by decide : leaderKind.tag ≠ streamKind.tag) (by decide : leaderKind.tag ≠ snapshotKind.tag)

theorem Plans.compete : (pinning source cs).Secures (E := E) (fun c' _ => c'.Plans source cs)
    c.compete t := by
  unfold Candidate.compete
  cases hheld : c.held with
  | some p => exact secures_pure fun _ _ _ => hplans
  | none =>
    have hclaim : (pinning source cs).Secures (E := E)
        (fun held _ => ∀ p r, held = some p → p.record = some r → r.kind = leaderKind.tag)
        (c.node.claim leaderKind none) t := by
      refine secures_claim fun u _ _ => ⟨fun hshared => ?_, fun now v _ _ =>
        ⟨fun _ _ hq => (nomatch hq), fun r p hanswer hp q s hq hs => ?_⟩⟩
      · exact absurd hshared.2 (by decide : leaderKind.tag ≠ sharedKind.tag)
      · obtain rfl := Option.some.inj hq
        obtain rfl := Option.some.inj ((Factory.record_ofRecord hp).symm.trans hs)
        obtain ⟨x, -, -, hkind, rfl⟩ := Table.exists_of_answer_claim hanswer
        exact hkind
    exact hclaim.bind fun held _ _ _ hleader => secures_pure fun _ _ _ =>
      { hplans with leader := hleader }

theorem Plans.initialize? (h : Distinguished cs) : (pinning source cs).Secures (E := E)
    (fun c' _ => c'.Plans source cs) c.initialize? t := by
  unfold Candidate.initialize?
  cases hheld : c.held with
  | none => exact secures_pure fun _ _ _ => hplans
  | some p =>
    dsimp only
    split
    · exact secures_pure fun _ _ _ => hplans
    · refine (pinning_bootstrap h c hplans.source hplans.plan).bind fun _ _ _ _ _ =>
        secures_pure fun _ _ _ => { hplans with leader := ?_ }
      rintro _ r ⟨⟩ hr
      exact hplans.leader p r hheld hr

theorem Plans.renew : (pinning source cs).Abides (E := E) (fun _ _ => True) c.renew t := by
  unfold Candidate.renew
  cases hheld : c.held with
  | none => exact fun _ _ _ => trivial
  | some p =>
    refine Abides.bind (pinning_transition p _ fun r hr x _ => ?_) fun answer _ _ _ _ => ?_
    · have hkind := hplans.leader p r hheld hr
      refine ⟨fun heq => absurd ((congrArg RecordId.kind heq).trans hkind)
        (by decide : sharedKind.tag ≠ leaderKind.tag), fun hof => ?_⟩
      exact absurd (hof.2.1.symm.trans hkind) (by decide : snapshotKind.tag ≠ leaderKind.tag)
    · cases answer <;> exact fun _ _ _ => trivial

/-- **A pass of the election goes by the pinned times.** -/
theorem Plans.pass (h : Distinguished cs) :
    (pinning source cs).Abides (E := E) (fun _ _ => True) c.pass t := by
  refine Abides.bind (abides_takeSteps (motive := Plans source cs) ?_ hplans)
    fun c' _ _ _ hplans' => hplans'.renew
  intro step hstep c t hplans
  simp only [List.mem_cons, List.not_mem_nil, or_false] at hstep
  rcases hstep with rfl | rfl | rfl
  · exact hplans.ensureCreated
  · exact hplans.compete
  · exact hplans.initialize? h

end Candidate

end LeasedWork
