import LeasedWork.Proofs.Record.Candidates
import LeasedWork.Proofs.Record.RoundTrip
import LeasedWork.Proofs.Store.Paths
import LeasedWork.Proofs.Store.Traffic

/-! # Requests take effect at one write

A request to a store of objects takes many questions to the bucket, and other requests may write
between any two of them.  Still each one that succeeds takes effect at a single moment, that of its
only write: what it writes is made from the record that is stored immediately before, whatever it
has read earlier (`Traffic.atomic`).  A request that loses or fails, and one that is still on its
way, has written nothing.

A program is *safe* (`Safe`) when, whatever it is told, it writes only under a tag that it has read
and is done at once when the write succeeds.  Every request is (`safe_job`).  That a write under a
tag meets what was read under it comes from the traffic: a tag belongs to one write, so an object
with that tag is the object that was read.
-/
namespace LeasedWork

/-- A record is stored at a path: it is what the text there is read as. -/
def Bucket.Stores (b : Bucket) (path : ObjectPath) (r : Record) : Prop :=
  ∃ o, b.find? path = some o ∧ Record.parse? o.text = some r

/-- The object holds the text of a record whose path it has, and the text shows this record. -/
def StoredObject.HoldsRecord (root : ObjectPath) (o : StoredObject) : Prop :=
  ∃ r : Record, r.Civil ∧ o.path = ObjectPath.ofRecord root r.id ∧ o.text = r.print

namespace Request

/-- An answer that says that something was written. -/
def Wrote : (request : Request) → request.Answer → Prop
  | .create _, answer => answer = .ok true
  | .update _, answer => ∃ r, answer = .ok r
  | .claim _ _ _ _, answer => ∃ r, answer = .ok (some r)
  | .prepare, _ | .get _, _ | .byStatus _ _ _ _, _ | .all _ _, _ => False

/-- **What a write is to its request.**  A creation meets no record and writes its own as version 1.
An update meets the version that it came with and writes its own record, the version raised by one.
A claim meets a record of its kind that may be claimed at the time that it was shown, and writes it
assigned to its owner until the lease ends, the version raised by one.  The answer is the record as
written. -/
def Effect (root : ObjectPath) (w : Put) (time : Option Instant) :
    (request : Request) → request.Answer → Prop
  | .create r, answer =>
    answer = .ok true ∧ w.path = ObjectPath.ofRecord root r.id ∧
      w.before.find? w.path = none ∧ w.text = { r with version := 1 }.print
  | .update r, answer => ∃ stored written : Record,
    answer = .ok written ∧ w.path = ObjectPath.ofRecord root r.id ∧
      w.before.Stores w.path stored ∧ stored.id = r.id ∧ stored.version = r.version ∧
      written = { r with version := stored.version + 1 } ∧ w.text = written.print
  | .claim source kind owner lease, answer => ∃ (now : Instant) (stored written : Record),
    time = some now ∧ answer = .ok (some written) ∧
      w.path = ObjectPath.ofRecord root stored.id ∧ w.before.Stores w.path stored ∧
      stored.source = source ∧ stored.kind = kind ∧ stored.Claimable now ∧
      written = { stored with
        status := some .assigned, owner := some owner, leaseExpiry := some (now.after lease),
        reopenAt := none, version := stored.version + 1 } ∧
      w.text = written.print
  | .prepare, _ | .get _, _ | .byStatus _ _ _ _, _ | .all _ _, _ => False

theorem not_wrote_error (request : Request) (failure : Failure) :
    ¬ request.Wrote (.error failure) := by
  cases request with
  | create r => exact fun h => nomatch h
  | update r => exact fun ⟨_, h⟩ => nomatch h
  | claim source kind owner lease => exact fun ⟨_, h⟩ => nomatch h
  | prepare | get _ | byStatus _ _ _ _ | all _ _ => exact id

/-- An answer names the record that was written, if one was. -/
theorem isSome_written {request : Request} {answer : request.Answer} (h : request.Wrote answer) :
    (request.written? answer).isSome = true := by
  cases request with
  | create r =>
    obtain rfl := h
    rfl
  | update r =>
    obtain ⟨_, rfl⟩ := h
    rfl
  | claim source kind owner lease =>
    obtain ⟨_, rfl⟩ := h
    rfl
  | prepare | get _ | byStatus _ _ _ _ | all _ _ => exact h.elim

theorem wrote_of_effect {root : ObjectPath} {w : Put} {time : Option Instant} {request : Request}
    {answer : request.Answer} (h : request.Effect root w time answer) : request.Wrote answer := by
  cases request with
  | create r => exact h.1
  | update r =>
    obtain ⟨_, _, hanswer, _⟩ := h
    exact ⟨_, hanswer⟩
  | claim source kind owner lease =>
    obtain ⟨_, _, _, _, hanswer, _⟩ := h
    exact ⟨_, hanswer⟩
  | prepare | get _ | byStatus _ _ _ _ | all _ _ => exact h

end Request

/-! ## Safe programs -/

/-- **A safe rest of a request's program**, which has read the objects of `seen`.  Whatever it is
told, it writes only where there is no object, or under a tag of an object that it has read.  If the
write succeeds, the program is done, and the write is to the request what its answer says. -/
def Safe (root : ObjectPath) (request : Request) (seen : StoredObject → Prop)
    (time : Option Instant) : Program objectInterface request.Answer → Prop
  | .done answer => ¬ request.Wrote answer
  | .ask .now next => ∀ now, Safe root request seen (some now) (next now)
  | .ask (.bucket (.list _)) next =>
    (∀ paths : List ObjectPath, paths.Nodup → Safe root request seen time (next (.ok paths))) ∧
      ∀ fault, Safe root request seen time (next (.error fault))
  | .ask (.bucket (.get path)) next =>
    (∀ o : StoredObject, o.path = path → o.HoldsRecord root →
        Safe root request (fun x => x = o ∨ seen x) time (next (.ok o))) ∧
      ∀ fault, Safe root request seen time (next (.error fault))
  | .ask (.bucket (.create path text)) next =>
    (∃ answer, next (.ok ()) = .done answer ∧ ∀ w : Put, w.path = path → w.text = text →
        w.before.find? path = none → request.Effect root w time answer) ∧
      ∀ fault, Safe root request seen time (next (.error fault))
  | .ask (.bucket (.replace path tag text)) next =>
    (∃ (o : StoredObject) (answer : request.Answer), seen o ∧ o.tag = tag ∧
        next (.ok ()) = .done answer ∧ ∀ w : Put, w.path = path → w.text = text →
          w.before.find? path = some o → request.Effect root w time answer) ∧
      ∀ fault, Safe root request seen time (next (.error fault))

variable {root : ObjectPath} {request : Request} {seen seen' : StoredObject → Prop}
  {time : Option Instant}

/-- Who has read more is as safe. -/
theorem Safe.mono {p : Program objectInterface request.Answer} (h : Safe root request seen time p)
    (hseen : ∀ o, seen o → seen' o) : Safe root request seen' time p := by
  induction p generalizing seen seen' time with
  | done answer => exact h
  | ask question next ih =>
    match question with
    | .now => exact fun now => ih _ (h now) hseen
    | .bucket (.list _) =>
      exact ⟨fun paths hp => ih _ (h.1 paths hp) hseen, fun fault => ih _ (h.2 fault) hseen⟩
    | .bucket (.get _) =>
      exact ⟨fun o hpath ho => ih _ (h.1 o hpath ho) fun x hx => hx.imp_right (hseen x),
        fun fault => ih _ (h.2 fault) hseen⟩
    | .bucket (.create _ _) => exact ⟨h.1, fun fault => ih _ (h.2 fault) hseen⟩
    | .bucket (.replace _ _ _) =>
      obtain ⟨⟨o, answer, ho, hdone⟩, hfault⟩ := h
      exact ⟨⟨o, answer, hseen o ho, hdone⟩, fun fault => ih _ (hfault fault) hseen⟩

namespace ObjectStore

variable {f : Option Versioned → Job request.Reply}

theorem safe_throw (failure : Failure) :
    Safe root request seen time (throw failure : Job request.Reply).run :=
  request.not_wrote_error failure

/-- What `readAt` makes of the bucket's answer. -/
def readAnswer : Except BucketFault StoredObject → Job (Option Versioned)
  | .ok object =>
    match Record.parse? object.text with
    | some r => return some ⟨r, object.tag⟩
    | none => throw .unreadable
  | .error .notFound => return none
  | .error fault => throw (.bucket fault)

theorem readAnswer_of_holds {o : StoredObject} {r : Record} (hr : r.Civil)
    (h : o.text = r.print) : readAnswer (.ok o) = pure (some ⟨r, o.tag⟩) := by
  simp only [readAnswer, h, Record.parse_print hr]

/-- Reading one record: what follows may use that it has been read. -/
theorem safe_readAt {path : ObjectPath}
    (hsome : ∀ (r : Record) (tag : Nat), r.Civil → path = ObjectPath.ofRecord root r.id →
      Safe root request (fun x => x = ⟨path, r.print, tag⟩ ∨ seen x) time (f (some ⟨r, tag⟩)).run)
    (hnone : Safe root request seen time (f none).run) :
    Safe root request seen time (readAt path >>= f).run := by
  have hok (o : StoredObject) (hpath : o.path = path) (ho : o.HoldsRecord root) :
      Safe root request (fun x => x = o ∨ seen x) time (readAnswer (.ok o) >>= f).run := by
    obtain ⟨r, hr, hrecord, htext⟩ := ho
    have ho : o = ⟨path, r.print, o.tag⟩ := by rw [← hpath, ← htext]
    rw [readAnswer_of_holds hr htext, pure_bind, ho]
    exact hsome r o.tag hr (hpath ▸ hrecord)
  refine ⟨hok, fun fault => ?_⟩
  cases fault with
  | notFound => exact hnone
  | _ => exact safe_throw _

/-- The object that a record was read from. -/
def Versioned.object (root : ObjectPath) (v : Versioned) : StoredObject :=
  ⟨ObjectPath.ofRecord root v.record.id, v.record.print, v.tag⟩

/-- What a listing of a source and kind may have read: records of them, each from its own object
and no two of one identity. -/
structure Collected (root : ObjectPath) (source kind : String) (seen : StoredObject → Prop)
    (vs : List Versioned) : Prop where
  civil : ∀ v ∈ vs, v.record.Civil
  seen : ∀ v ∈ vs, seen (v.object root)
  ofKind : ∀ v ∈ vs, v.record.source = source ∧ v.record.kind = kind
  distinct : (vs.map fun v => v.record.id).Nodup

/-- Reading records at distinct paths: what follows may use that each was read from its object. -/
theorem safe_readEach {source kind : String} {paths : List ObjectPath} (hpaths : paths.Nodup)
    {f : List Versioned → Job request.Reply}
    (h : ∀ (seen' : StoredObject → Prop) (vs : List Versioned), (∀ o, seen o → seen' o) →
      Collected root source kind seen' vs →
      (∀ v ∈ vs, ObjectPath.ofRecord root v.record.id ∈ paths) →
      Safe root request seen' time (f vs).run) :
    Safe root request seen time (readEach source kind paths >>= f).run := by
  induction paths generalizing seen f with
  | nil => exact h seen [] (fun _ => id) ⟨by simp, by simp, by simp, List.nodup_nil⟩ (by simp)
  | cons path rest ih =>
    obtain ⟨hpath, hrest⟩ := List.nodup_cons.mp hpaths
    rw [readEach, bind_assoc]
    refine safe_readAt (fun r tag hcivil hr => ?_) ?_
    · rw [bind_assoc]
      refine ih hrest fun seen' vs hseen hvs hin => ?_
      dsimp only
      by_cases hof : r.source = source ∧ r.kind = kind
      · rw [if_pos hof, pure_bind]
        refine h seen' _ (fun o ho => hseen o (.inr ho)) ⟨?_, ?_, ?_, ?_⟩ ?_
        · exact List.forall_mem_cons.mpr ⟨hcivil, hvs.civil⟩
        · refine List.forall_mem_cons.mpr ⟨?_, hvs.seen⟩
          exact hseen _ (.inl (by rw [Versioned.object, hr]))
        · exact List.forall_mem_cons.mpr ⟨hof, hvs.ofKind⟩
        · refine List.nodup_cons.mpr ⟨fun hmem => ?_, hvs.distinct⟩
          obtain ⟨v, hv, hid⟩ := List.mem_map.mp hmem
          have hmem := hin v hv
          rw [show v.record.id = r.id from hid, ← hr] at hmem
          exact hpath hmem
        · refine List.forall_mem_cons.mpr ⟨hr ▸ List.mem_cons_self, fun v hv => ?_⟩
          exact List.mem_cons_of_mem _ (hin v hv)
      · rw [if_neg hof, pure_bind]
        exact h seen' vs (fun o ho => hseen o (.inr ho)) hvs fun v hv =>
          List.mem_cons_of_mem _ (hin v hv)
    · rw [bind_assoc]
      refine ih hrest fun seen' vs hseen hvs hin => ?_
      dsimp only
      rw [pure_bind]
      exact h seen' vs hseen hvs fun v hv => List.mem_cons_of_mem _ (hin v hv)

/-- A full read: what follows may use that each record was read from its object. -/
theorem safe_readAll {source kind : String} {f : List Versioned → Job request.Reply}
    (h : ∀ (seen' : StoredObject → Prop) (vs : List Versioned), (∀ o, seen o → seen' o) →
      Collected root source kind seen' vs → Safe root request seen' time (f vs).run) :
    Safe root request seen time (readAll root source kind >>= f).run := by
  have hok (paths : List ObjectPath) (hpaths : paths.Nodup) :
      Safe root request seen time ((do
        let found ← readEach source kind paths
        return found.mergeSort fun a b => decide (a.record.createdAt ≤ b.record.createdAt) :
          Job (List Versioned)) >>= f).run := by
    rw [bind_assoc]
    refine safe_readEach hpaths fun seen' vs hseen hvs _ => ?_
    rw [pure_bind]
    have hperm := List.mergeSort_perm vs fun a b =>
      decide (a.record.createdAt ≤ b.record.createdAt)
    exact h seen' _ hseen ⟨fun v hv => hvs.civil v (hperm.mem_iff.mp hv),
      fun v hv => hvs.seen v (hperm.mem_iff.mp hv),
      fun v hv => hvs.ofKind v (hperm.mem_iff.mp hv),
      (hperm.map _).nodup_iff.mpr hvs.distinct⟩
  exact ⟨hok, fun fault => safe_throw _⟩

/-- Replacing an object that was read, when success ends the program as it should. -/
theorem safe_replaceIfUnchanged {r : Record} {o : StoredObject} {f : Bool → Job request.Reply}
    {answer : request.Answer} (ho : seen o) (hdone : (f true).run = .done answer)
    (heffect : ∀ w : Put, w.path = ObjectPath.ofRecord root r.id → w.text = r.print →
      w.before.find? w.path = some o → request.Effect root w time answer)
    (hlost : Safe root request seen time (f false).run) :
    Safe root request seen time (replaceIfUnchanged root r o.tag >>= f).run := by
  refine ⟨⟨o, answer, ho, rfl, hdone, fun w hpath htext hfind => ?_⟩, fun fault => ?_⟩
  · exact heffect w hpath htext (hpath ▸ hfind)
  · cases fault with
    | notFound => exact hlost
    | precondition => exact hlost
    | _ => exact safe_throw _

/-- Trying the candidates of a claim one after the other. -/
theorem safe_claimFirst {source kind owner : String} {lease : Span} {now : Instant}
    {all : List Versioned} (hall : Collected root source kind seen all) (rs : List Record)
    (hrs : ∀ r ∈ rs, r ∈ all.map (·.record) ∧ r.isAvailable now = true) :
    Safe root (.claim source kind owner lease) seen (some now)
      (claimFirst root owner now lease all rs).run := by
  induction rs with
  | nil => exact fun ⟨_, h⟩ => nomatch h
  | cons r rest ih =>
    have hrest := ih fun r' hr' => hrs r' (List.mem_cons_of_mem _ hr')
    rw [claimFirst]
    cases hfind : all.find? fun v => v.record.key == r.key with
    | none => exact hrest
    | some v =>
      obtain ⟨hmem, havailable⟩ := hrs r List.mem_cons_self
      obtain ⟨u, hu, rfl⟩ := List.mem_map.mp hmem
      have hv := List.mem_of_find?_eq_some hfind
      have hkey : v.record.key = u.record.key := by simpa using List.find?_some hfind
      -- The candidate shares its key with the entry that was found, hence its identity.
      have hid : v.record.id = u.record.id := by
        rw [Record.id, Record.id, hkey, (hall.ofKind v hv).1, (hall.ofKind v hv).2,
          (hall.ofKind u hu).1, (hall.ofKind u hu).2]
      obtain rfl : v = u := List.inj_on_of_nodup_map hall.distinct hv hu hid
      refine safe_replaceIfUnchanged (o := v.object root) (hall.seen v hv) rfl ?_ hrest
      intro w hpath htext hbefore
      exact ⟨now, v.record, _, rfl, rfl, hpath, ⟨_, hbefore, Record.parse_print (hall.civil v hv)⟩,
        (hall.ofKind v hv).1, (hall.ofKind v hv).2, Record.isAvailable_iff.mp havailable, rfl,
        htext⟩

/-- **Every request to the store is safe.** -/
theorem safe_job (root : ObjectPath) (request : Request) (seen : StoredObject → Prop) :
    Safe root request seen none (job root request).run := by
  cases request with
  | prepare => exact ⟨fun _ _ => id, fun fault => safe_throw _⟩
  | get id => exact safe_readAt (fun _ _ _ _ h => h) fun h => h
  | create r =>
    refine ⟨⟨_, rfl, fun w hpath htext hnone => ⟨rfl, hpath, hpath ▸ hnone, htext⟩⟩,
      fun fault => ?_⟩
    cases fault with
    | alreadyExists => exact fun h => nomatch h
    | _ => exact safe_throw _
  | update r =>
    refine safe_readAt (fun stored tag hcivil hpath => ?_) (safe_throw _)
    dsimp only
    by_cases hversion : stored.version = r.version
    · rw [if_neg (not_not_intro hversion)]
      refine safe_replaceIfUnchanged (o := ⟨_, _, tag⟩) (.inl rfl) rfl ?_ (safe_throw _)
      intro w hwrite htext hbefore
      exact ⟨stored, r.nextVersion, rfl, hwrite, ⟨_, hbefore, Record.parse_print hcivil⟩,
        (ObjectPath.ofRecord_inj.mp hpath).symm, hversion, by rw [hversion]; rfl, htext⟩
    · rw [if_pos hversion]
      exact safe_throw _
  | claim source kind owner lease =>
    refine safe_readAll fun seen' vs _ hvs now => ?_
    exact safe_claimFirst hvs _ fun r hr => mem_candidates.mp hr
  | byStatus source kind status since => exact safe_readAll fun _ _ _ _ => id
  | all source kind => exact safe_readAll fun _ _ _ _ => id

end ObjectStore

/-! ## The invariant of all traffic -/

/-- A write leaves a record at its path: the first version where there was none, or else the next
version of the one that was there. -/
def Put.Fair (root : ObjectPath) (w : Put) : Prop :=
  ∃ r : Record, w.path = ObjectPath.ofRecord root r.id ∧ w.text = r.print ∧
    ((w.before.find? w.path = none ∧ r.version = 1) ∨
      ∃ stored, w.before.Stores w.path stored ∧ r.version = stored.version + 1)

theorem Request.fair_of_effect {w : Put} {answer : request.Answer}
    (h : request.Effect root w time answer) : w.Fair root := by
  cases request with
  | create r =>
    obtain ⟨-, hpath, hnone, htext⟩ := h
    exact ⟨r.firstVersion, hpath, htext, .inl ⟨hnone, rfl⟩⟩
  | update r =>
    obtain ⟨stored, written, -, hpath, hstored, -, -, rfl, htext⟩ := h
    exact ⟨{ r with version := stored.version + 1 }, hpath, htext, .inr ⟨stored, hstored, rfl⟩⟩
  | claim source kind owner lease =>
    obtain ⟨now, stored, written, -, -, hpath, hstored, -, -, -, hwritten, htext⟩ := h
    exact ⟨written, hwritten ▸ hpath, htext, .inr ⟨stored, hstored, hwritten ▸ rfl⟩⟩
  | prepare | get _ | byStatus _ _ _ _ | all _ _ => exact h.elim

namespace Traffic

/-- Where a request stands: it is safe and has written nothing, or it is done and its one write is
to it what its answer says. -/
def Accounted (root : ObjectPath) (s : Traffic) (i : Nat) (f : Flight) : Prop :=
  (Safe root f.request (Logged s.puts) f.time f.rest ∧ s.putsBy i = []) ∨
    ∃ answer w, f.rest = .done answer ∧ s.putsBy i = [w] ∧ f.request.Effect root w f.time answer

/-- What holds of all traffic. -/
structure Sound (root : ObjectPath) (s : Traffic) : Prop where
  bucket_eq : s.bucket = replay s.puts
  faithful : Faithful s.puts
  fair : ∀ w ∈ s.puts, w.Fair root
  callers : ∀ w ∈ s.puts, w.caller < s.flights.length
  flights : ∀ i f, s.flights[i]? = some f → s.Accounted root i f

theorem sound_initial (root : ObjectPath) : Sound root initial where
  bucket_eq := rfl
  faithful := faithful_nil
  fair _ h := absurd h List.not_mem_nil
  callers _ h := absurd h List.not_mem_nil
  flights _ _ h := by cases h

variable {s : Traffic}

theorem putsBy_concat (puts : List Put) (w : Put) (i : Nat) :
    (puts ++ [w]).filter (fun w => w.caller == i) =
      puts.filter (fun w => w.caller == i) ++ if w.caller = i then [w] else [] := by
  rw [List.filter_append, List.filter_cons]
  by_cases h : w.caller = i <;> simp [h]

theorem Sound.safe_of_ask (h : Sound root s) {i : Nat} {question : ObjectQuestion}
    {next : question.Answer → Program objectInterface request.Answer}
    (hi : s.flights[i]? = some ⟨request, time, .ask question next⟩) :
    Safe root request (Logged s.puts) time (.ask question next) ∧ s.putsBy i = [] := by
  rcases h.flights i _ hi with hsafe | ⟨answer, w, hdone, -⟩
  · exact hsafe
  · cases hdone

/-- A request goes on without writing. -/
theorem Sound.advance (h : Sound root s) {i : Nat} {f : Flight} (hf : s.Accounted root i f) :
    Sound root { s with flights := s.flights.set i f } where
  bucket_eq := h.bucket_eq
  faithful := h.faithful
  fair := h.fair
  callers w hw := by
    rw [List.length_set]
    exact h.callers w hw
  flights j g hg := by
    rw [List.getElem?_set] at hg
    split at hg
    · subst j
      split at hg
      · cases hg
        exact hf
      · cases hg
    · exact h.flights j g hg

/-- A request writes, and is done with it. -/
theorem Sound.put (h : Sound root s) {i : Nat} (hlt : i < s.flights.length)
    (hnone : s.putsBy i = []) {path : ObjectPath} {text : String} {answer : request.Answer}
    (heffect : request.Effect root ⟨i, s.bucket, path, text⟩ time answer) :
    Sound root ⟨s.bucket.put path text, s.flights.set i ⟨request, time, .done answer⟩,
      s.puts ++ [⟨i, s.bucket, path, text⟩]⟩ where
  bucket_eq := by rw [replay_concat, ← h.bucket_eq]
  faithful := faithful_concat.mpr ⟨h.faithful, h.bucket_eq⟩
  fair w hw := by
    rcases List.mem_append.mp hw with hw | hw
    · exact h.fair w hw
    · rw [List.mem_singleton.mp hw]
      exact Request.fair_of_effect heffect
  callers w hw := by
    rw [List.length_set]
    rcases List.mem_append.mp hw with hw | hw
    · exact h.callers w hw
    · rw [List.mem_singleton.mp hw]
      exact hlt
  flights j g hg := by
    unfold Accounted putsBy
    rw [putsBy_concat]
    rw [List.getElem?_set] at hg
    split at hg
    · subst j
      obtain rfl : _ = g := Option.some.inj (by simpa [hlt] using hg)
      rw [if_pos rfl, show s.puts.filter (fun w => w.caller == i) = [] from hnone]
      exact .inr ⟨answer, _, rfl, rfl, heffect⟩
    · rw [if_neg ‹_›, List.append_nil]
      rcases h.flights j g hg with ⟨hsafe, hputs⟩ | hdone
      · refine .inl ⟨hsafe.mono ?_, hputs⟩
        rintro o ⟨w, hw, rfl⟩
        exact ⟨w, List.mem_append_left _ hw, rfl⟩
      · exact .inr hdone

/-- An answer that wrote nothing. -/
theorem Sound.unwritten (h : Sound root s) {i : Nat} {question : BucketRequest}
    {next : question.Answer → Program objectInterface request.Answer}
    {answer : question.Answer} (hanswer : s.bucket.answer question = (answer, s.bucket))
    (hnone : question.written? answer = none) (hputs : s.putsBy i = [])
    (hsafe : Safe root request (Logged s.puts) time (next answer)) :
    Sound root ⟨(s.bucket.answer question).2,
      s.flights.set i ⟨request, time, next (s.bucket.answer question).1⟩, s.noted i question⟩ := by
  rw [noted, hanswer, hnone]
  exact h.advance (.inl ⟨hsafe, hputs⟩)

/-- An answer that wrote, after which the request is done. -/
theorem Sound.written (h : Sound root s) {i : Nat} {question : BucketRequest}
    {next : question.Answer → Program objectInterface request.Answer}
    {ok : question.Answer} {path : ObjectPath} {text : String} {answer : request.Answer}
    (hanswer : s.bucket.answer question = (ok, s.bucket.put path text))
    (hsome : question.written? ok = some (path, text)) (hdone : next ok = .done answer)
    (hlt : i < s.flights.length) (hputs : s.putsBy i = [])
    (heffect : request.Effect root ⟨i, s.bucket, path, text⟩ time answer) :
    Sound root ⟨(s.bucket.answer question).2,
      s.flights.set i ⟨request, time, next (s.bucket.answer question).1⟩, s.noted i question⟩ := by
  rw [noted, hanswer]
  dsimp only
  rw [hsome, hdone]
  exact h.put hlt hputs heffect

/-- Everything in the bucket was logged, and holds a record. -/
theorem Sound.logged (h : Sound root s) {path : ObjectPath} {o : StoredObject}
    (hfind : s.bucket.find? path = some o) : Logged s.puts o ∧ o.HoldsRecord root := by
  have hlogged : Logged s.puts o :=
    logged_of_mem h.faithful (h.bucket_eq ▸ (Bucket.find?_some hfind).1)
  refine ⟨hlogged, ?_⟩
  obtain ⟨w, hw, rfl⟩ := hlogged
  obtain ⟨r, hrecord, htext, -⟩ := h.fair w hw
  exact ⟨r.reread, r.civil_reread, hrecord, htext.trans r.print_reread.symm⟩

/-- The bucket answers a question of a request. -/
theorem Sound.answer (h : Sound root s) {i : Nat} {question : BucketRequest}
    {next : question.Answer → Program objectInterface request.Answer}
    (hi : s.flights[i]? = some ⟨request, time, .ask (.bucket question) next⟩) :
    Sound root ⟨(s.bucket.answer question).2,
      s.flights.set i ⟨request, time, next (s.bucket.answer question).1⟩, s.noted i question⟩ := by
  obtain ⟨hsafe, hputs⟩ := h.safe_of_ask hi
  have hlt : i < s.flights.length := (List.getElem?_eq_some_iff.mp hi).1
  cases question with
  | list above =>
    have hpaths : (s.bucket.listing above).Nodup :=
      Bucket.nodup_listing (h.bucket_eq ▸ distinct_replay s.puts) above
    exact h.unwritten rfl rfl hputs (hsafe.1 _ hpaths)
  | get path =>
    cases hfind : s.bucket.find? path with
    | none => exact h.unwritten (Bucket.answer_get_of_none hfind) rfl hputs (hsafe.2 _)
    | some o =>
      obtain ⟨hlogged, hholds⟩ := h.logged hfind
      refine h.unwritten (Bucket.answer_get_of_some hfind) rfl hputs ?_
      refine (hsafe.1 o (Bucket.find?_some hfind).2 hholds).mono fun x hx => ?_
      exact hx.elim (fun heq => heq ▸ hlogged) id
  | create path text =>
    cases hfind : s.bucket.find? path with
    | some o => exact h.unwritten (Bucket.answer_create_of_some hfind) rfl hputs (hsafe.2 _)
    | none =>
      obtain ⟨answer, hdone, heffect⟩ := hsafe.1
      exact h.written (Bucket.answer_create_of_none hfind) rfl hdone hlt hputs
        (heffect _ rfl rfl hfind)
  | replace path tag text =>
    by_cases hmatch : ∃ o, s.bucket.find? path = some o ∧ o.tag = tag
    · obtain ⟨o, hfind, htag⟩ := hmatch
      obtain ⟨x, answer, hseen, hxtag, hdone, heffect⟩ := hsafe.1
      -- A tag belongs to one write, so what is there now is what was read.
      obtain rfl : x = o :=
        Logged.eq_of_tag_eq h.faithful hseen (h.logged hfind).1 (hxtag.trans htag.symm)
      exact h.written (Bucket.answer_replace_of_tag hfind htag) rfl hdone hlt hputs
        (heffect _ rfl rfl hfind)
    · have hne : ∀ o, s.bucket.find? path = some o → o.tag ≠ tag :=
        fun o hfind htag => hmatch ⟨o, hfind, htag⟩
      exact h.unwritten (Bucket.answer_replace_of_ne hne) rfl hputs (hsafe.2 _)

/-- **Every step keeps the invariant.** -/
theorem sound_step {s' : Traffic} (h : Sound root s) (hs : Step root s s') : Sound root s' := by
  cases hs with
  | start request =>
    refine ⟨h.bucket_eq, h.faithful, h.fair, ?_, ?_⟩
    · intro w hw
      rw [List.length_append]
      exact Nat.lt_add_right _ (h.callers w hw)
    · intro i f hf
      rcases Nat.lt_or_ge i s.flights.length with hlt | hge
      · rw [List.getElem?_append_left hlt] at hf
        exact h.flights i f hf
      · rw [List.getElem?_append_right hge, List.getElem?_singleton] at hf
        split at hf
        · cases hf
          -- No write was made by the new request, as all callers came before it.
          refine .inl ⟨ObjectStore.safe_job root request _, List.filter_eq_nil_iff.mpr ?_⟩
          intro w hw hcaller
          have hlt := h.callers w hw
          rw [beq_iff_eq] at hcaller
          omega
        · cases hf
  | clock i request time next now hi =>
    obtain ⟨hsafe, hputs⟩ := h.safe_of_ask hi
    exact h.advance (.inl ⟨hsafe now, hputs⟩)
  | answer i request time question next hi => exact h.answer hi
  | refuse i request time question next fault hi =>
    obtain ⟨hsafe, hputs⟩ := h.safe_of_ask hi
    refine h.advance (.inl ⟨?_, hputs⟩)
    cases question with
    | list _ => exact hsafe.2 fault
    | get _ => exact hsafe.2 fault
    | create _ _ => exact hsafe.2 fault
    | replace _ _ _ => exact hsafe.2 fault

theorem sound {s : Traffic} (h : Reachable root s) : Sound root s := by
  induction h with
  | initial => exact sound_initial root
  | step _ hs ih => exact sound_step ih hs

end Traffic

/-! ## Versions count writes -/

/-- How often a path has been written. -/
def writesTo (path : ObjectPath) (puts : List Put) : Nat := puts.countP fun w => w.path == path

theorem writesTo_concat (path : ObjectPath) (puts : List Put) (w : Put) :
    writesTo path (puts ++ [w]) = writesTo path puts + if w.path = path then 1 else 0 := by
  simp [writesTo, List.countP_append, List.countP_cons]

theorem writesTo_of_absent {path : ObjectPath} {puts : List Put}
    (h : (replay puts).find? path = none) : writesTo path puts = 0 := by
  induction puts using List.reverseRecOn with
  | nil => rfl
  | append_singleton puts w ih =>
    rw [replay_concat, Bucket.find?_put] at h
    split at h
    · cases h
    · rw [writesTo_concat, ih h, if_neg fun heq => ‹¬path = w.path› heq.symm]

/-- **A stored record's version counts the writes to its path**, modulo the size of a word. -/
theorem version_eq_writesTo {puts : List Put} (h : Faithful puts)
    (hfair : ∀ w ∈ puts, w.Fair root) {path : ObjectPath} {r : Record}
    (hr : (replay puts).Stores path r) : r.version = UInt64.ofNat (writesTo path puts) := by
  induction puts using List.reverseRecOn generalizing r with
  | nil =>
    obtain ⟨o, ho, -⟩ := hr
    cases ho
  | append_singleton puts w ih =>
    obtain ⟨hputs, hw⟩ := faithful_concat.mp h
    have ih' := fun {r} => ih hputs (fun x hx => hfair x (List.mem_append_left _ hx)) (r := r)
    obtain ⟨o, ho, htext⟩ := hr
    rw [replay_concat, Bucket.find?_put] at ho
    rw [writesTo_concat]
    split at ho
    · subst path
      cases ho
      obtain ⟨x, -, hx, hversion⟩ := hfair w List.mem_concat_self
      rw [hx, Record.parse_print_eq] at htext
      obtain rfl : x.reread = r := Option.some.inj htext
      change x.version = _
      rw [if_pos rfl, UInt64.ofNat_add]
      -- A first version meets an unwritten path, and a next version its predecessor.
      rcases hversion with ⟨hnone, hone⟩ | ⟨stored, hstored, hnext⟩
      · rw [writesTo_of_absent (hw ▸ hnone), hone]
        rfl
      · rw [hnext, ih' (hw ▸ hstored)]
        rfl
    · rw [if_neg fun heq => ‹¬path = w.path› heq.symm, Nat.add_zero]
      exact ih' ⟨o, ho, htext⟩

/-- Two writes of a path that start from one version of its record are far apart. -/
theorem version_before_ne {puts : List Put} (h : Faithful puts) (hfair : ∀ w ∈ puts, w.Fair root)
    {earlier between later : List Put} {w w' : Put}
    (hputs : puts = earlier ++ w :: (between ++ w' :: later)) (hpath : w'.path = w.path)
    {r r' : Record} (hr : w.before.Stores w.path r) (hr' : w'.before.Stores w'.path r')
    (hversion : r.version = r'.version) : UInt64.size ≤ between.length + 1 := by
  have hputs' : puts = (earlier ++ w :: between) ++ w' :: later := by
    rw [hputs, List.append_assoc, List.cons_append]
  have hcount := version_eq_writesTo (h.of_append hputs)
    (fun x hx => hfair x (hputs ▸ List.mem_append_left _ hx)) (h _ _ _ hputs ▸ hr)
  have hcount' := version_eq_writesTo (h.of_append hputs')
    (fun x hx => hfair x (hputs' ▸ List.mem_append_left _ hx)) (h _ _ _ hputs' ▸ hr')
  have hmore : writesTo w'.path (earlier ++ w :: between) =
      writesTo w.path earlier + (writesTo w.path between + 1) := by
    simp [writesTo, hpath, List.countP_append]
  have hle : writesTo w.path between ≤ between.length := List.countP_le_length
  rw [hcount, hcount', hmore, ← UInt64.toNat_inj, UInt64.toNat_ofNat', UInt64.toNat_ofNat']
    at hversion
  unfold UInt64.size
  omega

/-! ## Atomicity -/

/-- **What is true of all requests to a store of objects together**, however their questions to the
bucket interleave. -/
structure Traffic.Atomic (root : ObjectPath) (s : Traffic) : Prop where
  /-- A request that succeeded in writing has written once, and its write is what its answer says,
  made from what was stored immediately before.  Any other request has written nothing. -/
  effect : ∀ i f, s.flights[i]? = some f →
    (∃ answer w, f.rest = .done answer ∧ f.request.Wrote answer ∧ s.putsBy i = [w] ∧
      f.request.Effect root w f.time answer) ∨
    (s.putsBy i = [] ∧ ∀ answer, f.rest = .done answer → ¬ f.request.Wrote answer)
  /-- Nothing but these writes changes the bucket. -/
  bucket_eq : s.bucket = replay s.puts
  /-- Every write has met what the earlier ones had made. -/
  faithful : Faithful s.puts
  /-- No two writes of a record have met the same object, nor both met none. -/
  object_ne : ∀ earlier w between w' later, s.puts = earlier ++ w :: (between ++ w' :: later) →
    w'.path = w.path → w'.before.find? w'.path ≠ w.before.find? w.path
  /-- Two writes of a record that start from the same version are at least `2^64` writes apart. -/
  version_ne : ∀ earlier w between w' later, s.puts = earlier ++ w :: (between ++ w' :: later) →
    w'.path = w.path → ∀ r r', w.before.Stores w.path r → w'.before.Stores w'.path r' →
      r.version = r'.version → UInt64.size ≤ between.length + 1

/-- **Requests are atomic.**  Whatever requests are on their way to a store of objects at once, in
whatever order their questions reach the bucket, whatever times they are shown and whichever
questions the bucket refuses, each takes effect at its one successful write or not at all. -/
theorem Traffic.atomic {s : Traffic} (h : Reachable root s) : s.Atomic root := by
  have hsound := sound h
  refine ⟨?_, hsound.bucket_eq, hsound.faithful, ?_, ?_⟩
  · intro i f hf
    rcases hsound.flights i f hf with ⟨hsafe, hputs⟩ | ⟨answer, w, hdone, hputs, heffect⟩
    · refine .inr ⟨hputs, fun answer hdone => ?_⟩
      rw [hdone] at hsafe
      exact hsafe
    · exact .inl ⟨answer, w, hdone, Request.wrote_of_effect heffect, hputs, heffect⟩
  · intro earlier w between w' later hputs hpath
    rw [hpath]
    exact find?_before_ne hsound.faithful hputs
  · intro earlier w between w' later hputs hpath r r' hr hr'
    exact version_before_ne hsound.faithful hsound.fair hputs hpath hr hr'

/-- A request that names no record as written has written nothing. -/
theorem Traffic.Atomic.putsBy_eq_nil {s : Traffic} (h : s.Atomic root) {i : Nat} {f : Flight}
    (hi : s.flights[i]? = some f) (hf : f.written? = none) : s.putsBy i = [] := by
  rcases h.effect i f hi with ⟨answer, w, hdone, hwrote, -⟩ | ⟨hputs, -⟩
  · have hsome := Request.isSome_written hwrote
    rw [Flight.written?, hdone] at hf
    rw [show f.request.written? answer = none from hf] at hsome
    cases hsome
  · exact hputs

/-- A new record of work. -/
def Traffic.work : Record := .unassigned ⟨"db", "WORK", "a"⟩ none .epoch

/-- A record is created (0).  Then two nodes claim work (1, 2) and a third means to update the new
record (3).  All three have read it before any of them writes, and the update was the first to read,
but the second claim is the first to write. -/
def Traffic.contest : List Event :=
  [.start (.create work), .answer 0,
    .start (.claim "db" "WORK" "node-a" (.seconds 60)),
    .start (.claim "db" "WORK" "node-b" (.seconds 60)),
    .start (.update work.firstVersion),
    .answer 1, .answer 3, .answer 2, .answer 2, .answer 1, .clock 1 .epoch, .clock 2 .epoch,
    .answer 2, .answer 3, .answer 1]

/-- Of the four requests two write the record.  The other two are done as well: they have found it
changed, and none of the writes is theirs. -/
theorem Traffic.atomic_contested : ∃ s : Traffic, Reachable .root s ∧
    s.flights.map (fun f => (f.isDone, f.written?)) =
      [(true, some work.firstVersion), (true, none),
        (true, some (work.firstVersion.claimed "node-b" .epoch (.seconds 60))), (true, none)] ∧
    s.putsBy 1 = [] ∧ s.putsBy 3 = [] := by
  have hreach : Reachable .root (initial.run .root contest) := Reachable.initial.run contest
  have hflights : (initial.run .root contest).flights.map (fun f => (f.isDone, f.written?)) =
      [(true, some work.firstVersion), (true, none),
        (true, some (work.firstVersion.claimed "node-b" .epoch (.seconds 60))), (true, none)] := by
    decide +kernel
  have hlost (i : Nat) (hi : (((initial.run .root contest).flights.map
      fun f => (f.isDone, f.written?))[i]?) = some (true, none)) :
      (initial.run .root contest).putsBy i = [] := by
    rw [List.getElem?_map] at hi
    obtain ⟨f, hf, hnone⟩ := Option.map_eq_some_iff.mp hi
    exact (Traffic.atomic hreach).putsBy_eq_nil hf (congrArg Prod.snd hnone)
  refine ⟨_, hreach, hflights, hlost 1 ?_, hlost 3 ?_⟩
  · rw [hflights]
    rfl
  · rw [hflights]
    rfl

end LeasedWork
