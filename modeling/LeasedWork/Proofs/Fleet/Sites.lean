import LeasedWork.Proofs.Fleet.Sessions

/-! # Nodes at work on one store

Nodes ask a store, take in hand what it gives them, work on that, and write it back.  A `Site` has
all of this in one place: a session with the store of a backend, the time, and what the nodes have
in hand.  What the latter is, is left open (`H`): partitions of any kind or of a built-in one, with
whatever somebody may want to know of them besides.  A `Site.Deed` is one thing that is done at a
site, and any request of it may fail, before or after the store has served it (`Mishap`).

The nodes' programs are read off once, whoever answers them: what a node gets (`Errand.run_eq`),
and a transition (`Node.run_transition`).  What is said here of a deed is what every run at a site
rests on: it makes the session go on (`Site.later_step`), and where everything comes from that is in
hand afterwards (`Site.mem_hands_step`).
-/
namespace LeasedWork

universe u

/-! ## Errands -/

/-- How a node gets what it then has in hand: it claims a record, or looks some up, and makes
something of each. -/
inductive Errand (H : Type u)
  | claim (k : PartitionKind) (lease : Option Span) (hold : Partition k → H)
  | claimAny {P : Type} (build : Record → Except Failure P) (tag : String) (lease : Option Span)
    (hold : P → H)
  | shared {P : Type} (build : Record → Except Failure P) (key : String) (hold : P → H)
  | completedSince {P : Type} (build : Record → Except Failure P) (tag : String) (since : Instant)
    (hold : P → H)
  | all {P : Type} (build : Record → Except Failure P) (tag : String) (hold : P → H)

/-- What is made of a record that an action may give. -/
theorem Node.run_made {E : Interface} {σ P : Type} (h : Handler (Node.interface E) σ)
    (action : Node.Action E (Option Record)) (build : Record → Except Failure P) (s : σ) :
    Program.run h (action >>= Node.build? build).run s =
      match Program.run h action.run s with
      | (.ok none, s') => (.ok none, s')
      | (.ok (some r), s') => ((build r).map some, s')
      | (.error e, s') => (.error e, s') := by
  rw [Program.run_exceptT_bind]
  rcases Program.run h action.run s with ⟨e | _ | r, s'⟩
  · rfl
  · rfl
  · simp only [Node.build?]
    cases build r <;> rfl

namespace Errand

variable {E : Interface} {H : Type u} {σ : Type}

/-- What a node is answered. -/
@[reducible] def Result : Errand H → Type
  | .claim k _ _ => Option (Partition k)
  | .claimAny (P := P) .. | .shared (P := P) .. => Option P
  | .completedSince (P := P) .. | .all (P := P) .. => List P

/-- What a node does. -/
def action (n : Node) : (x : Errand H) → Node.Action E x.Result
  | .claim k lease _ => n.claim k lease
  | .claimAny build tag lease _ => n.claimAny build tag lease
  | .shared build key _ => n.shared? build key
  | .completedSince build tag since _ => n.completedSince build tag since
  | .all build tag _ => n.all build tag

/-- What a node then has in hand. -/
def hands : (x : Errand H) → x.Result → List H
  | .claim _ _ hold, p => (p.map hold).toList
  | .claimAny _ _ _ hold, p => (p.map hold).toList
  | .shared _ _ hold, p => (p.map hold).toList
  | .completedSince _ _ _ hold, ps => ps.map hold
  | .all _ _ hold, ps => ps.map hold

/-- What comes of it. -/
def run (h : Handler (Node.interface E) σ) (n : Node) (x : Errand H) (s : σ) :
    Except Failure (List H) × σ :=
  (Program.run h (x.action n).run s).map (Except.map x.hands) id

/-- The one request that it makes, if it may make any. -/
def request (n : Node) : Errand H → Except Failure Request
  | .claim k lease _ =>
    if k.leased then .ok (.claim n.source k.tag n.owner (lease.getD n.lease))
    else .error (.notLeasable k.tag)
  | .claimAny _ tag lease _ =>
    if tag = sharedKind.tag then .error (.notLeasable tag)
    else .ok (.claim n.source tag n.owner (lease.getD n.lease))
  | .shared _ key _ => .ok (.get ⟨n.source, sharedKind.tag, key⟩)
  | .completedSince _ tag since _ => .ok (.byStatus n.source tag .completed (some since))
  | .all _ tag _ => .ok (.all n.source tag)

/-- What is made of a record. -/
def make : Errand H → Record → Except Failure H
  | .claim k _ hold, r => (Partition.ofRecord k r).map hold
  | .claimAny build _ _ hold, r => (build r).map hold
  | .shared build _ hold, r => (build r).map hold
  | .completedSince build _ _ hold, r => (build r).map hold
  | .all build _ hold, r => (build r).map hold

/-- The request of an errand gives records, and creates or updates none. -/
theorem fetches_request {n : Node} {x : Errand H} {request : Request}
    (h : x.request n = .ok request) : request.Fetches := by
  cases x with
  | claim | claimAny =>
    simp only [Errand.request] at h
    split at h <;> cases h
    trivial
  | shared | completedSince | all =>
    cases h
    trivial

/-- An errand is refused for what it asks for is not leased. -/
theorem error_request {n : Node} {x : Errand H} {e : Failure} (h : x.request n = .error e) :
    ∃ tag, e = .notLeasable tag := by
  cases x with
  | claim | claimAny =>
    simp only [Errand.request] at h
    split at h <;> cases h
    exact ⟨_, rfl⟩
  | shared | completedSince | all => cases h

/-- What is made of the records that an answer shows. -/
def madeOf (make : Record → Except Failure H) {request : Request} :
    request.Answer × σ → Except Failure (List H) × σ
  | (.ok reply, s) => ((Exchange.mk request (.ok reply)).shown.mapM make, s)
  | (.error e, s) => (.error e, s)

theorem madeOf_snd {make : Record → Except Failure H} {request : Request}
    (result : request.Answer × σ) : (madeOf make result).2 = result.2 := by
  rcases result with ⟨e | reply, s⟩ <;> rfl

section Run

variable (h : Handler (Node.interface E) σ)

theorem run_store (request : Request) (s : σ) :
    Program.run h (Node.store request).run s = h.answer (.store request) s := rfl

/-- What is had in hand of a record that an action may give. -/
theorem run_made {P : Type} (action : Node.Action E (Option Record))
    (build : Record → Except Failure P) (hold : P → H) (s : σ) :
    (Program.run h (action >>= Node.build? build).run s).map
        (Except.map fun p => (p.map hold).toList) id =
      match Program.run h action.run s with
      | (.ok r, s') => (r.toList.mapM fun r => (build r).map hold, s')
      | (.error e, s') => (.error e, s') := by
  rw [Node.run_made]
  rcases Program.run h action.run s with ⟨e | _ | r, s'⟩
  · rfl
  · rfl
  · simp only [Option.toList_some, List.mapM_cons]
    cases build r <;> rfl

/-- What is had in hand of all the records that a query gives. -/
theorem run_allMade {P : Type} (action : Node.Action E (List Record))
    (build : Record → Except Failure P) (hold : P → H) (s : σ) :
    (Program.run h (action >>= fun rs => Node.ofExcept (rs.mapM build)).run s).map
        (Except.map (List.map hold)) id =
      match Program.run h action.run s with
      | (.ok rs, s') => (rs.mapM fun r => (build r).map hold, s')
      | (.error e, s') => (.error e, s') := by
  rw [Program.run_exceptT_bind]
  rcases Program.run h action.run s with ⟨e | rs, s'⟩
  · rfl
  · dsimp only
    rw [Fleet.mapM_map hold fun r _ => rfl]
    cases rs.mapM build <;> rfl

/-- **What a node gets** is made of the records that one request shows, if it may ask at all. -/
theorem run_eq (n : Node) (x : Errand H) (s : σ) :
    x.run h n s =
      match x.request n with
      | .error e => (.error e, s)
      | .ok request => madeOf x.make (h.answer (.store request) s) := by
  cases x with
  | claim k lease hold =>
    cases hleased : k.leased with
    | false =>
      simp only [run, action, request, Node.claim, hleased]
      rfl
    | true =>
      simp only [run, action, request, Node.claim, hleased, if_true]
      refine (run_made h (n.claimRecord k.tag lease) _ hold s).trans ?_
      rw [Node.claimRecord, run_store]
      rcases h.answer (.store (.claim n.source k.tag n.owner (lease.getD n.lease))) s with
        ⟨e | _ | r, s'⟩ <;> rfl
  | claimAny build tag lease hold =>
    by_cases htag : tag = sharedKind.tag
    · simp only [run, action, request, Node.claimAny, if_pos htag]
      rfl
    · simp only [run, action, request, Node.claimAny, if_neg htag]
      refine (run_made h (n.claimRecord tag lease) _ hold s).trans ?_
      rw [Node.claimRecord, run_store]
      rcases h.answer (.store (.claim n.source tag n.owner (lease.getD n.lease))) s with
        ⟨e | _ | r, s'⟩ <;> rfl
  | shared build key hold =>
    refine (run_made h (Node.store (.get ⟨n.source, sharedKind.tag, key⟩)) build hold s).trans ?_
    rw [run_store]
    simp only [request]
    rcases h.answer (.store (.get ⟨n.source, sharedKind.tag, key⟩)) s with ⟨e | _ | r, s'⟩ <;> rfl
  | completedSince build tag since hold =>
    refine (run_allMade h (Node.store (.byStatus n.source tag .completed (some since))) build hold
      s).trans ?_
    rw [run_store]
    simp only [request]
    rcases h.answer (.store (.byStatus n.source tag .completed (some since))) s with
      ⟨e | rs, s'⟩ <;> rfl
  | all build tag hold =>
    refine (run_allMade h (Node.store (.all n.source tag)) build hold s).trans ?_
    rw [run_store]
    simp only [request]
    rcases h.answer (.store (.all n.source tag)) s with ⟨e | rs, s'⟩ <;> rfl

end Run

end Errand

namespace Backend.Session

variable {b : Backend} {H : Type u} {s s' : b.Session} {now : Instant} {mishap : Option Mishap}
  {n : Node} {x : Errand H}

/-- What a node gets. -/
def fetch (s : b.Session) (now : Instant) (mishap : Option Mishap) (n : Node) (x : Errand H) :
    Except Failure (List H) × b.Session := x.run (handler now mishap) n s

/-- What comes of an errand: it is refused, or made of what one request shows. -/
theorem fetch_eq (s : b.Session) (now : Instant) (mishap : Option Mishap) (n : Node)
    (x : Errand H) : s.fetch now mishap n x =
      match x.request n with
      | .error e => (.error e, s)
      | .ok request => Errand.madeOf x.make (s.answer now mishap request) :=
  Errand.run_eq (handler now mishap) n x s

/-- The session after an errand: its request has been served, or nothing has happened. -/
theorem session_fetch (s : b.Session) (now : Instant) (mishap : Option Mishap) (n : Node)
    (x : Errand H) : (s.fetch now mishap n x).2 = s ∨
      ∃ request, x.request n = .ok request ∧
        (s.fetch now mishap n x).2 = s.next ⟨now, request⟩ := by
  rw [fetch_eq]
  cases hrequest : x.request n with
  | error e => exact .inl rfl
  | ok request =>
    dsimp only
    rw [Errand.madeOf_snd]
    exact (s.answer_cases now mishap request).imp_right fun h => ⟨request, rfl, h⟩

theorem later_fetch (s : b.Session) (now : Instant) (mishap : Option Mishap) (n : Node)
    (x : Errand H) : Later s (s.fetch now mishap n x).2 := s.later_run now mishap (x.action n).run

/-- **What an errand gives** is made of records that its request has shown. -/
theorem given_fetch {hs : List H} (h : s.fetch now mishap n x = (.ok hs, s')) :
    ∃ request reply, x.request n = .ok request ∧
      (b.serve ⟨now, request⟩ s.state).1 = .ok reply ∧ s' = s.next ⟨now, request⟩ ∧
      ∀ y ∈ hs, ∃ r ∈ (Exchange.mk request (.ok reply)).shown, s'.Shown r ∧ x.make r = .ok y := by
  rw [fetch_eq] at h
  cases hrequest : x.request n with
  | error e => rw [hrequest] at h; cases h
  | ok request =>
    rw [hrequest] at h
    dsimp only at h
    rcases hanswer : s.answer now mishap request with ⟨e | reply, s''⟩ <;> rw [hanswer] at h
    · cases h
    · obtain ⟨hmade, rfl⟩ := Prod.mk.inj h
      obtain ⟨hserve, hnext, hmem⟩ := answer_ok hanswer
      refine ⟨request, reply, rfl, hserve, hnext, fun y hy => ?_⟩
      obtain ⟨r, hr, hmake⟩ := Fleet.mem_of_mapM hmade hy
      exact ⟨r, hr, ⟨_, hmem, hr⟩, hmake⟩

/-- What is stored after an errand: what was before, or all of that but one record that is
claimed. -/
theorem stored_fetch (hs : s.Reached) (now : Instant) (mishap : Option Mishap) (n : Node)
    (x : Errand H) : Same s (s.fetch now mishap n x).2 ∨
      ∃ r owner lease, s.stored r.id = some r ∧
        Wrote s (s.fetch now mishap n x).2 (r.claimed owner now lease) := by
  rcases s.session_fetch now mishap n x with h | ⟨request, hrequest, h⟩ <;> rw [h]
  · exact .inl fun _ => rfl
  · refine (next_fetches hs now (Errand.fetches_request hrequest)).imp_right ?_
    exact fun ⟨r, owner, lease, hr, _, hwrote⟩ => ⟨r, owner, lease, hr, hwrote⟩

/-- Getting something changes no stored progress. -/
theorem progress_fetch (hs : s.Reached) (now : Instant) (mishap : Option Mishap) (n : Node)
    (x : Errand H) (id : RecordId) : ((s.fetch now mishap n x).2.stored id).map Record.progress =
      (s.stored id).map Record.progress := by
  rcases stored_fetch hs now mishap n x with hsame | ⟨r, owner, lease, hr, hwrote⟩
  · rw [hsame id]
  · by_cases hid : id = r.id
    · subst hid
      have hself : (s.fetch now mishap n x).2.stored r.id = _ := hwrote.self
      rw [hself, hr, Option.map_some, b.progress_kept]
      rfl
    · rw [hwrote.other hid]

/-- What an errand gives is made of records that are stored then. -/
theorem stored_of_fetch (hs : s.Reached) {given : List H}
    (h : s.fetch now mishap n x = (.ok given, s')) :
    ∀ y ∈ given, ∃ r, x.make r = .ok y ∧ s'.stored r.id = some (b.kept r) := by
  obtain ⟨request, reply, -, hserve, rfl, hmade⟩ := given_fetch h
  intro y hy
  obtain ⟨r, hr, -, hmake⟩ := hmade y hy
  exact ⟨r, hmake, stored_of_reply hs hserve hr⟩

/-- The store itself never refuses to give records. -/
theorem serve_of_fetches (hs : s.Reached) (now : Instant) {request : Request}
    (hrequest : request.Fetches) :
    ∃ reply, (b.serve ⟨now, request⟩ s.state).1 = .ok reply := by
  obtain ⟨t, -, hholds, -⟩ := hs.exists_chronicle ⟨"", "", ""⟩
  have hagree := (hholds.serve ⟨now, request⟩).1
  cases request with
  | prepare | create _ | update _ => exact hrequest.elim
  | get id => exact ⟨_, hagree.symm⟩
  | byStatus _ _ _ _ | all _ _ =>
    obtain ⟨_, rs, -, hrs, -⟩ := hagree
    exact ⟨rs, hrs⟩
  | claim source kind owner lease =>
    rcases t.answer_claim now source kind owner lease with hnone | ⟨x, -, -, -, hsome⟩
    · exact ⟨_, hagree.symm.trans (congrArg Prod.fst hnone)⟩
    · exact ⟨_, hagree.symm.trans (congrArg Prod.fst hsome)⟩

/-- **Why an errand fails**: it is refused, its request fails, or nothing can be made of a record
that is stored then. -/
theorem error_of_fetch (hs : s.Reached) {e : Failure}
    (h : s.fetch now mishap n x = (.error e, s')) :
    x.request n = .error e ∨ (∃ m, mishap = some m ∧ e = m.failure) ∨
    ∃ request reply, x.request n = .ok request ∧
      (b.serve ⟨now, request⟩ s.state).1 = .ok reply ∧
      ∃ r ∈ (Exchange.mk request (.ok reply)).shown, x.make r = .error e ∧
        s'.stored r.id = some (b.kept r) := by
  rw [fetch_eq] at h
  cases hrequest : x.request n with
  | error e' =>
    rw [hrequest] at h
    cases h
    exact .inl rfl
  | ok request =>
    rw [hrequest] at h
    cases mishap with
    | some m =>
      cases h
      exact .inr (.inl ⟨m, rfl, rfl⟩)
    | none =>
      obtain ⟨reply, hserve⟩ := serve_of_fetches hs now (Errand.fetches_request hrequest)
      simp only [answer, hserve, Errand.madeOf, Prod.mk.injEq] at h
      obtain ⟨herror, rfl⟩ := h
      obtain ⟨r, hr, hmake⟩ := Fleet.exists_of_mapM_error herror
      exact .inr (.inr ⟨request, reply, rfl, hserve, r, hr, hmake, stored_of_reply hs hserve hr⟩)

/-! ## Transitions -/

variable {P : Type} [Held P] {p : P} {t : Transition}

/-- **What a transition does to a session**: it leaves it alone, and then would not have succeeded
either without a mishap, or asks for one update of the record behind the partition. -/
theorem session_transition (s : b.Session) (now : Instant) (mishap : Option Mishap) (p : P)
    (t : Transition) :
    ((s.perform now mishap (Node.transition p t)).2 = s ∧
      (mishap.all (·.isLate) && (s.perform now none (Node.transition p t)).1.isOk) = false) ∨
    ∃ r, Held.record p = some r ∧ (t.needsLease = true → Held.leased p = true) ∧
      mishap.all (·.isLate) = true ∧ (s.perform now mishap (Node.transition p t)).2 =
        s.next ⟨now, .update (Node.proposal p t now r)⟩ := by
  rw [perform_transition, perform_transition]
  split
  · exact .inl ⟨rfl, Bool.and_false _⟩
  · rename_i hmay
    have hleased : t.needsLease = true → Held.leased p = true := by
      intro hneeds
      rwa [hneeds, Bool.true_and, Bool.not_eq_true', Bool.not_eq_false] at hmay
    cases hr : Held.record p with
    | none => exact .inl ⟨rfl, Bool.and_false _⟩
    | some r =>
      cases mishap with
      | some m =>
        cases hlate : m.isLate with
        | false => exact .inl ⟨by simp [answer, hlate], by simp [hlate]⟩
        | true => exact .inr ⟨r, rfl, hleased, hlate, by simp [answer, hlate]⟩
      | none =>
        refine .inr ⟨r, rfl, hleased, rfl, ?_⟩
        simp only [answer]
        cases (b.serve ⟨now, .update (Node.proposal p t now r)⟩ s.state).1 <;> rfl

/-- **A transition that succeeds** has the partition take up the next version of what it asked
for. -/
theorem exists_of_transition (hs : s.Reached) {p' : P}
    (h : s.perform now mishap (Node.transition p t) = (.ok p', s')) :
    ∃ r, Held.record p = some r ∧ p' = Held.adopt (Node.proposal p t now r).nextVersion p ∧
      s' = s.next ⟨now, .update (Node.proposal p t now r)⟩ ∧
      s'.Shown (Node.proposal p t now r).nextVersion := by
  rw [perform_transition] at h
  split at h
  · cases h
  · cases hr : Held.record p with
    | none => rw [hr] at h; cases h
    | some r =>
      rw [hr] at h
      dsimp only at h
      rcases hanswer : s.answer now mishap (.update (Node.proposal p t now r)) with
        ⟨e | written, s''⟩ <;> rw [hanswer] at h
      · cases h
      · obtain ⟨hadopt, rfl⟩ := Prod.mk.inj h
        obtain ⟨hserve, hnext, hmem⟩ := answer_ok hanswer
        obtain ⟨table, -, hholds, -⟩ := hs.exists_chronicle r.id
        have hagree := (hholds.serve ⟨now, .update (Node.proposal p t now r)⟩).1
        obtain rfl : written = _ := Table.eq_of_answer_update (Eq.trans hagree hserve)
        exact ⟨r, rfl, (Except.ok.inj hadopt).symm, hnext, _, hmem, List.mem_singleton_self _⟩

/-- A transition whose request fails, if it does, before it has had any effect: either it fails and
changes nothing, or the record that it asks for is written in place of one of its version. -/
theorem transition_early (hs : s.Reached) (now : Instant) (fault : Option Failure) (p : P)
    (t : Transition) :
    ((∃ e, (s.perform now (fault.map .early) (Node.transition p t)).1 = .error e) ∧
      Same s (s.perform now (fault.map .early) (Node.transition p t)).2) ∨
    ∃ r u, Held.record p = some r ∧ Node.proposal p t now r = u ∧
      (s.perform now (fault.map .early) (Node.transition p t)).1 =
        .ok (Held.adopt u.nextVersion p) ∧
      (∃ stored, s.stored u.id = some stored ∧ stored.version = u.version) ∧
      Wrote s (s.perform now (fault.map .early) (Node.transition p t)).2 u.nextVersion := by
  rw [perform_transition]
  split
  · exact .inl ⟨⟨_, rfl⟩, fun _ => rfl⟩
  · cases hr : Held.record p with
    | none => exact .inl ⟨⟨_, rfl⟩, fun _ => rfl⟩
    | some r =>
      dsimp only
      rcases s.answer_early now fault (.update (Node.proposal p t now r)) with
        ⟨e, -, h⟩ | ⟨-, h⟩ <;> rw [h]
      · exact .inl ⟨⟨e, rfl⟩, fun _ => rfl⟩
      · rcases next_update hs now (Node.proposal p t now r) with
          ⟨⟨e, hserve⟩, hsame⟩ | ⟨hserve, hcurrent, hwrote⟩ <;> rw [hserve]
        · exact .inl ⟨⟨e, rfl⟩, hsame⟩
        · exact .inr ⟨r, _, rfl, rfl, rfl, hcurrent, hwrote⟩

end Backend.Session

/-- **A transition dates a record by the clock**: if the backend keeps what the clock shows, it is
the record behind the partition alone that it may keep as another one. -/
theorem Hand.kept_moved {b : Backend} {now : Instant} (hnow : b.Keeps now) (h : Hand)
    (t : Transition) (r : Record) : b.kept (h.moved t now r) = h.moved t now (b.kept r) := by
  cases b with
  | table => rfl
  | objects root =>
    have hsame : now.reread = now := Instant.reread_of_civil hnow
    have hafter (d : Span) : (now.after d).reread = now.after d :=
      Instant.reread_of_civil (Instant.Civil.after hnow d)
    unfold Hand.moved Node.proposal Transition.apply
    cases t with
    | save extension =>
      cases hstatus : r.status.isSome <;>
        simp [hstatus, Backend.kept, Record.reread, Record.nextVersion, hafter]
    | complete =>
      simp [Backend.kept, Record.reread, Record.nextVersion, Transition.completed,
        Record.clearLease, hsame]
    | giveUp => rfl
    | close reopenAfter limit =>
      dsimp only [Backend.kept, Record.reread]
      cases limit.any fun most => decide (most ≤ r.closedCount + 1) <;>
        simp [Record.nextVersion, Transition.completed, Record.clearLease, hsame, hafter]

/-! ## Sites -/

/-- What is had in hand of a partition. -/
class Grip (H : Type u) where
  hand : H → Hand
  /-- What is in hand after a transition. -/
  moved (t : Transition) (h : H) : (hand h).factory.Piece → H

instance : Grip AnyPartition where
  hand p := ⟨.builtIn, p⟩
  moved _ _ p := p

/-- Nodes at work with one store: what it has been asked and has answered, the time, and what they
have in hand. -/
structure Site (b : Backend) (H : Type u) where
  session : b.Session
  now : Instant
  hands : List H

namespace Site

variable {b : Backend} {H : Type u} {α : Type}

/-- One thing that is done. What is in hand is used as often as one likes, whatever has become of
the record behind it meanwhile. -/
inductive Deed (H : Type u)
  /-- Somebody asks the store for something and gets nothing into hand. -/
  | ask {α : Type} (action : Node.Action Interface.none α) (mishap : Option Mishap)
  | fetch (n : Node) (x : Errand H) (mishap : Option Mishap)
  /-- A partition in hand is saved, completed, closed or given up. -/
  | transition (i : Nat) (t : Transition) (mishap : Option Mishap)
  /-- Something is had in hand without asking the store. -/
  | hold (h : H)
  /-- What is in hand at a place is worked on without asking the store. -/
  | revise (i : Nat) (change : H → H)
  | copy (i : Nat)
  /-- The clock shows any time, also an earlier one. -/
  | setClock (t : Instant)

/-- An empty store at a time. -/
def starting (b : Backend) (H : Type u) (start : Instant) : Site b H := ⟨⟨[], b.empty⟩, start, []⟩

/-- Runs what a node does. -/
def perform (w : Site b H) (mishap : Option Mishap) (action : Node.Action Interface.none α) :
    Except Failure α × b.Session := w.session.perform w.now mishap action

/-- What a node gets. -/
def fetch (w : Site b H) (mishap : Option Mishap) (n : Node) (x : Errand H) :
    Except Failure (List H) × b.Session := w.session.fetch w.now mishap n x

/-- What is stored of an identity. -/
def stored (w : Site b H) (id : RecordId) : Option Record := w.session.stored id

variable [Grip H]

/-- What comes of a transition of what is in hand. -/
def move (w : Site b H) (mishap : Option Mishap) (h : H) (t : Transition) :
    Except Failure H × b.Session :=
  (w.perform mishap (Node.transition (Grip.hand h).piece t)).map
    (Except.map (Grip.moved t h)) id

/-- The site after a deed. What is in hand stays as it is if its transition fails. -/
def step (w : Site b H) : Deed H → Site b H
  | .ask action mishap => { w with session := (w.perform mishap action).2 }
  | .fetch n x mishap =>
    match w.fetch mishap n x with
    | (.ok hs, s) => { w with session := s, hands := w.hands ++ hs }
    | (.error _, s) => { w with session := s }
  | .transition i t mishap =>
    match w.hands[i]? with
    | none => w
    | some h =>
      match w.move mishap h t with
      | (.ok h', s) => { w with session := s, hands := w.hands.set i h' }
      | (.error _, s) => { w with session := s }
  | .hold h => { w with hands := w.hands ++ [h] }
  | .revise i change => { w with hands := w.hands.modify i change }
  | .copy i => { w with hands := w.hands ++ w.hands[i]?.toList }
  | .setClock t => { w with now := t }

variable {w : Site b H} {d : Deed H} {n : Node} {x : Errand H} {i : Nat} {h : H} {t : Transition}
  {mishap : Option Mishap}

@[simp]
theorem session_step_fetch :
    (w.step (.fetch n x mishap)).session = (w.fetch mishap n x).2 := by
  simp only [step]
  rcases w.fetch mishap n x with ⟨e | hs, s⟩ <;> rfl

theorem now_step_fetch : (w.step (.fetch n x mishap)).now = w.now := by
  simp only [step]
  rcases w.fetch mishap n x with ⟨e | hs, s⟩ <;> rfl

theorem now_step_transition : (w.step (.transition i t mishap)).now = w.now := by
  simp only [step]
  cases w.hands[i]? with
  | none => rfl
  | some h =>
    dsimp only
    rcases w.move mishap h t with ⟨e | h', s⟩ <;> rfl

theorem step_transition_of_none (hi : w.hands[i]? = none) :
    w.step (.transition i t mishap) = w := by
  simp only [step, hi]

theorem session_move (w : Site b H) (mishap : Option Mishap) (h : H) (t : Transition) :
    (w.move mishap h t).2 = (w.perform mishap (Node.transition (Grip.hand h).piece t)).2 := rfl

theorem isOk_move (w : Site b H) (mishap : Option Mishap) (h : H) (t : Transition) :
    (w.move mishap h t).1.isOk =
      (w.perform mishap (Node.transition (Grip.hand h).piece t)).1.isOk := by
  unfold move
  rcases w.perform mishap (Node.transition (Grip.hand h).piece t) with ⟨e | p, s⟩ <;> rfl

theorem session_step_transition (hi : w.hands[i]? = some h) :
    (w.step (.transition i t mishap)).session = (w.move mishap h t).2 := by
  simp only [step, hi]
  rcases w.move mishap h t with ⟨e | h', s⟩ <;> rfl

/-- **Whatever is done**, the session goes on. -/
theorem later_step (w : Site b H) (d : Deed H) : w.session.Later (w.step d).session := by
  cases d with
  | ask action mishap => exact w.session.later_perform w.now mishap action
  | fetch n x mishap =>
    rw [session_step_fetch]
    exact w.session.later_fetch w.now mishap n x
  | transition i t mishap =>
    cases hi : w.hands[i]? with
    | none =>
      rw [step_transition_of_none hi]
      exact .refl _
    | some h =>
      rw [session_step_transition hi]
      exact w.session.later_perform w.now mishap _
  | hold | revise | copy | setClock => exact .refl _

/-- **Where everything comes from that is in hand after a deed**: it was there before, or has been
got, moved, taken or worked on just now. -/
theorem mem_hands_step {y : H} (hy : y ∈ (w.step d).hands) : y ∈ w.hands ∨
    (∃ n x mishap hs, d = .fetch n x mishap ∧ y ∈ hs ∧
      w.fetch mishap n x = (.ok hs, (w.step d).session)) ∨
    (∃ i t mishap h, d = .transition i t mishap ∧ w.hands[i]? = some h ∧
      w.move mishap h t = (.ok y, (w.step d).session)) ∨
    d = .hold y ∨
    ∃ i change h, d = .revise i change ∧ h ∈ w.hands ∧ y = change h := by
  cases d with
  | ask action mishap => exact .inl hy
  | fetch n x mishap =>
    rcases hrun : w.fetch mishap n x with ⟨e | hs, s⟩ <;>
      simp only [step, hrun] at hy ⊢
    · exact .inl hy
    · exact (List.mem_append.mp hy).imp_right fun hy => .inl ⟨n, x, mishap, hs, rfl, hy, hrun⟩
  | transition i t mishap =>
    cases hi : w.hands[i]? with
    | none =>
      rw [step_transition_of_none hi] at hy
      exact .inl hy
    | some h =>
      rcases hrun : w.move mishap h t with ⟨e | h', s⟩ <;>
        simp only [step, hi, hrun] at hy ⊢
      · exact .inl hy
      · refine (List.mem_or_eq_of_mem_set hy).imp_right fun hnew => .inr (.inl ?_)
        exact ⟨i, t, mishap, h, rfl, hi, hnew ▸ hrun⟩
  | hold h =>
    exact (List.mem_append.mp hy).imp_right fun hy =>
      .inr (.inr (.inl (congrArg Deed.hold (List.mem_singleton.mp hy).symm)))
  | revise i change =>
    obtain ⟨j, hj⟩ := List.mem_iff_getElem?.mp hy
    rw [step, List.getElem?_modify] at hj
    obtain ⟨h, hh, rfl⟩ := Option.map_eq_some_iff.mp hj
    have hmem := List.mem_of_getElem? hh
    split
    · exact .inr (.inr (.inr (.inr ⟨i, change, h, rfl, hmem, rfl⟩)))
    · exact .inl hmem
  | copy i =>
    rcases List.mem_append.mp hy with hy | hy
    · exact .inl hy
    · exact .inl (List.mem_of_getElem? (Option.mem_toList.mp hy))
  | setClock t => exact .inl hy

/-- A transition of what is in hand whose request fails, if it does, before it has had any effect:
either it fails and changes nothing, or a record of the identity, the version and the progress in
hand is written in place of one of its version. -/
theorem move_early (hw : w.session.Reached) (fault : Option Failure) (h : H) (t : Transition) :
    ((∃ e, (w.move (fault.map .early) h t).1 = .error e) ∧
      w.session.Same (w.move (fault.map .early) h t).2) ∨
    ∃ (r u : Record), (Grip.hand h).record = some r ∧
      (u.id = r.id ∧ u.version = r.version ∧
        u.progress = Held.progressText (Grip.hand h).piece) ∧
      (w.move (fault.map .early) h t).1 =
        .ok (Grip.moved t h (Held.adopt u.nextVersion (Grip.hand h).piece)) ∧
      (∃ stored, w.stored u.id = some stored ∧ stored.version = u.version) ∧
      w.session.Wrote (w.move (fault.map .early) h t).2 u.nextVersion := by
  have hmove : (w.move (fault.map .early) h t).1 = (w.session.perform w.now (fault.map .early)
    (Node.transition (Grip.hand h).piece t)).1.map (Grip.moved t h) := rfl
  rcases Backend.Session.transition_early hw w.now fault (Grip.hand h).piece t with
    ⟨⟨e, herror⟩, hsame⟩ | ⟨r, u, hr, rfl, hdone, hcurrent, hwrote⟩
  · exact .inl ⟨⟨e, by rw [hmove, herror]; rfl⟩, hsame⟩
  · have hid := Node.id_proposal (Grip.hand h).piece t w.now r
    have hversion := Node.version_proposal (Grip.hand h).piece t w.now r
    have hprogress := Node.progress_proposal (Grip.hand h).piece t w.now r
    exact .inr ⟨r, _, hr, ⟨hid, hversion, hprogress⟩, by rw [hmove, hdone]; rfl, hcurrent, hwrote⟩

/-- **What is in hand after a transition that succeeds**: the record behind it is the written one,
and the store has shown it. -/
theorem exists_of_move (hw : w.session.Reached) {y : H} {s : b.Session}
    (hrun : w.move mishap h t = (.ok y, s)) : ∃ r, (Grip.hand h).record = some r ∧
      y = Grip.moved t h (Held.adopt ((Grip.hand h).moved t w.now r) (Grip.hand h).piece) ∧
      s = w.session.next ⟨w.now, .update (Node.proposal (Grip.hand h).piece t w.now r)⟩ ∧
      s.Shown ((Grip.hand h).moved t w.now r) := by
  unfold move at hrun
  rcases hperform : w.perform mishap (Node.transition (Grip.hand h).piece t) with ⟨e | p, s'⟩ <;>
    rw [hperform] at hrun <;> cases hrun
  obtain ⟨r, hr, rfl, hnext, hshown⟩ := Backend.Session.exists_of_transition hw hperform
  exact ⟨r, hr, rfl, hnext, hshown⟩

end Site

end LeasedWork
