import LeasedWork.Proofs.Store.Buckets
import LeasedWork.Store.Objects
import Mathlib.Data.List.Induction

/-! # Many requests to one bucket at once

Requests to a store of objects are programs that ask the bucket one question at a time, so any
number of them may be on their way at once.  `Traffic` is the bucket with what is left of every
program, and `Traffic.Step` lets one of them ask its next question, in any order.  The clock may
show any time to anyone, and the bucket may also refuse a question without having done anything.

The traffic keeps a history of the writes that succeeded, each with its caller and the bucket that
it met.  The bucket is what these writes make of an empty one (`replay`).  Since every write has a
tag of its own, an object that was read once is known by its path and tag alone
(`Put.eq_of_tag_eq`): whoever replaces it by its tag has met exactly what was read.
-/
namespace LeasedWork

/-- A request on its way, or at its end. -/
structure Flight where
  request : Request
  /-- The time that the clock has shown it. -/
  time : Option Instant
  /-- What is left to do. -/
  rest : Program objectInterface request.Answer

/-- A write that succeeded. -/
structure Put where
  /-- The place of the request among all requests. -/
  caller : Nat
  /-- The bucket immediately before the write. -/
  before : Bucket
  path : ObjectPath
  text : String

/-- What a successful question to a bucket has written. -/
def BucketRequest.written? : (question : BucketRequest) → question.Answer →
    Option (ObjectPath × String)
  | .create path text, .ok _ => some (path, text)
  | .replace path _ text, .ok _ => some (path, text)
  | _, _ => none

/-- A bucket, the requests to the store in it, and the writes so far, the first write first. -/
structure Traffic where
  bucket : Bucket
  flights : List Flight
  puts : List Put

namespace Traffic

def initial : Traffic := ⟨Bucket.empty, [], []⟩

/-- The writes of one request. -/
def putsBy (s : Traffic) (i : Nat) : List Put := s.puts.filter fun w => w.caller == i

/-- The writes after a question of a request has been answered. -/
def noted (s : Traffic) (i : Nat) (question : BucketRequest) : List Put :=
  match question.written? (s.bucket.answer question).1 with
  | some (path, text) => s.puts ++ [⟨i, s.bucket, path, text⟩]
  | none => s.puts

/-- One thing happens: a request begins, the clock is read, or the bucket is asked. -/
inductive Step (root : ObjectPath) : Traffic → Traffic → Prop
  | start (s : Traffic) (request : Request) :
    Step root s { s with
      flights := s.flights ++ [⟨request, none, (ObjectStore.job root request).run⟩] }
  | clock (s : Traffic) (i : Nat) (request : Request) (time : Option Instant)
      (next : Instant → Program objectInterface request.Answer) (now : Instant)
      (h : s.flights[i]? = some ⟨request, time, .ask .now next⟩) :
    Step root s { s with flights := s.flights.set i ⟨request, some now, next now⟩ }
  | answer (s : Traffic) (i : Nat) (request : Request) (time : Option Instant)
      (question : BucketRequest)
      (next : question.Answer → Program objectInterface request.Answer)
      (h : s.flights[i]? = some ⟨request, time, .ask (.bucket question) next⟩) :
    Step root s ⟨(s.bucket.answer question).2,
      s.flights.set i ⟨request, time, next (s.bucket.answer question).1⟩, s.noted i question⟩
  | refuse (s : Traffic) (i : Nat) (request : Request) (time : Option Instant)
      (question : BucketRequest)
      (next : question.Answer → Program objectInterface request.Answer) (fault : BucketFault)
      (h : s.flights[i]? = some ⟨request, time, .ask (.bucket question) next⟩) :
    Step root s { s with flights := s.flights.set i ⟨request, time, next (.error fault)⟩ }

/-- Any requests to the store below a root, in any interleaving, from an empty bucket. -/
inductive Reachable (root : ObjectPath) : Traffic → Prop
  | initial : Reachable root initial
  | step {s s' : Traffic} (h : Reachable root s) (hs : Step root s s') : Reachable root s'

/-! A schedule of what happens can be run. -/

/-- What happens next: a request begins, or the request of a place reads the clock or gets an answer
from the bucket. -/
inductive Event
  | start (request : Request)
  | clock (i : Nat) (now : Instant)
  | answer (i : Nat)

/-- The traffic after an event; one that its request does not wait for changes nothing. -/
def after (root : ObjectPath) (s : Traffic) : Event → Traffic
  | .start request => { s with
      flights := s.flights ++ [⟨request, none, (ObjectStore.job root request).run⟩] }
  | .clock i now =>
    match s.flights[i]? with
    | some ⟨request, _, .ask .now next⟩ =>
      { s with flights := s.flights.set i ⟨request, some now, next now⟩ }
    | _ => s
  | .answer i =>
    match s.flights[i]? with
    | some ⟨request, time, .ask (.bucket question) next⟩ =>
      ⟨(s.bucket.answer question).2,
        s.flights.set i ⟨request, time, next (s.bucket.answer question).1⟩, s.noted i question⟩
    | _ => s

def run (root : ObjectPath) (s : Traffic) (events : List Event) : Traffic :=
  events.foldl (after root) s

variable {root : ObjectPath} {s : Traffic}

theorem Reachable.after (h : Reachable root s) (e : Event) : Reachable root (s.after root e) := by
  cases e with
  | start request => exact .step h (.start s request)
  | clock i now =>
    unfold Traffic.after
    dsimp only
    split
    · exact .step h (.clock s i _ _ _ now ‹_›)
    · exact h
  | answer i =>
    unfold Traffic.after
    dsimp only
    split
    · exact .step h (.answer s i _ _ _ _ ‹_›)
    · exact h

/-- **Whatever a schedule leads to is reachable.** -/
theorem Reachable.run (h : Reachable root s) (events : List Event) :
    Reachable root (s.run root events) := by
  induction events generalizing s with
  | nil => exact h
  | cons e rest ih => exact ih (h.after e)

end Traffic

/-! ## What a request says it has written -/

/-- The record that an answer says has been written. -/
def Request.written? : (request : Request) → request.Answer → Option Record
  | .create r, .ok true => some r.firstVersion
  | .update _, .ok r => some r
  | .claim _ _ _ _, .ok r => r
  | _, _ => none

/-- What a request that is done says it has written. -/
def Flight.written? (f : Flight) : Option Record :=
  match f.rest with
  | .done answer => f.request.written? answer
  | .ask _ _ => none

def Flight.isDone (f : Flight) : Bool :=
  match f.rest with
  | .done _ => true
  | .ask _ _ => false

/-! ## The history of writes -/

/-- The bucket that some writes make of an empty one. -/
def replay (puts : List Put) : Bucket :=
  puts.foldl (fun b w => b.put w.path w.text) Bucket.empty

/-- Every write has met what the earlier ones had made. -/
def Faithful (puts : List Put) : Prop :=
  ∀ earlier w later, puts = earlier ++ w :: later → w.before = replay earlier

namespace Put

/-- The object that a write leaves behind. -/
def object (w : Put) : StoredObject := ⟨w.path, w.text, w.before.nextTag⟩

end Put

/-- Some write left this object behind. -/
def Logged (puts : List Put) (o : StoredObject) : Prop := ∃ w ∈ puts, w.object = o

variable {puts : List Put} {w w' : Put}

theorem replay_concat (puts : List Put) (w : Put) :
    replay (puts ++ [w]) = (replay puts).put w.path w.text := by
  rw [replay, List.foldl_append]
  rfl

theorem nextTag_replay (puts : List Put) : (replay puts).nextTag = puts.length := by
  induction puts using List.reverseRecOn with
  | nil => rfl
  | append_singleton puts w ih =>
    rw [replay_concat, List.length_append, ← ih]
    rfl

theorem distinct_replay (puts : List Put) : (replay puts).Distinct := by
  induction puts using List.reverseRecOn with
  | nil => exact Bucket.distinct_empty
  | append_singleton puts w ih =>
    rw [replay_concat]
    exact Bucket.distinct_put ih _ _

theorem faithful_nil : Faithful [] := fun earlier _ _ h => by
  cases earlier <;> cases h

theorem faithful_concat : Faithful (puts ++ [w]) ↔ Faithful puts ∧ w.before = replay puts := by
  constructor
  · intro h
    refine ⟨fun earlier x later heq => h earlier x (later ++ [w]) ?_, h puts w [] rfl⟩
    rw [heq, List.append_assoc, List.cons_append]
  · rintro ⟨h, hw⟩ earlier x later heq
    rcases List.eq_nil_or_concat later with rfl | ⟨later, y, rfl⟩
    · obtain ⟨rfl, hx⟩ := List.append_inj' heq rfl
      rw [← (List.cons.inj hx).1, hw]
    · rw [List.concat_eq_append, ← List.cons_append, ← List.append_assoc] at heq
      exact h earlier x later (List.append_inj' heq rfl).1

/-- What a faithful history begins with is faithful. -/
theorem Faithful.of_append (h : Faithful puts) {first rest : List Put}
    (heq : puts = first ++ rest) : Faithful first := by
  intro earlier x later hx
  refine h earlier x (later ++ rest) ?_
  rw [heq, hx, List.append_assoc, List.cons_append]

/-- Whatever a faithful history leaves in the bucket, one of its writes has put there. -/
theorem logged_of_mem (h : Faithful puts) {o : StoredObject} (ho : o ∈ (replay puts).objects) :
    Logged puts o := by
  induction puts using List.reverseRecOn with
  | nil => exact absurd ho List.not_mem_nil
  | append_singleton puts w ih =>
    obtain ⟨hputs, hw⟩ := faithful_concat.mp h
    rw [replay_concat] at ho
    rcases List.mem_append.mp ho with ho | ho
    · obtain ⟨x, hx, rfl⟩ := ih hputs (List.mem_filter.mp ho).1
      exact ⟨x, List.mem_append_left _ hx, rfl⟩
    · rw [List.mem_singleton.mp ho, ← hw]
      exact ⟨w, List.mem_concat_self, rfl⟩

theorem tag_lt_length (h : Faithful puts) (hw : w ∈ puts) : w.before.nextTag < puts.length := by
  obtain ⟨earlier, later, rfl⟩ := List.append_of_mem hw
  rw [h earlier w later rfl, nextTag_replay, List.length_append, List.length_cons]
  omega

/-- **A tag belongs to one write.** -/
theorem Put.eq_of_tag_eq (h : Faithful puts) (hw : w ∈ puts) (hw' : w' ∈ puts)
    (htag : w.before.nextTag = w'.before.nextTag) : w = w' := by
  induction puts using List.reverseRecOn with
  | nil => exact absurd hw List.not_mem_nil
  | append_singleton puts x ih =>
    obtain ⟨hputs, hx⟩ := faithful_concat.mp h
    -- The last write has the tag that comes next, and all earlier ones have smaller tags.
    have hlast : x.before.nextTag = puts.length := by rw [hx, nextTag_replay]
    rcases List.mem_append.mp hw with hw | hw <;> rcases List.mem_append.mp hw' with hw' | hw'
    · exact ih hputs hw hw'
    · have hlt := tag_lt_length hputs hw
      rw [List.mem_singleton.mp hw'] at htag
      omega
    · have hlt := tag_lt_length hputs hw'
      rw [List.mem_singleton.mp hw] at htag
      omega
    · rw [List.mem_singleton.mp hw, List.mem_singleton.mp hw']

/-- What was put under a tag is known by the tag. -/
theorem Logged.eq_of_tag_eq (h : Faithful puts) {o o' : StoredObject} (ho : Logged puts o)
    (ho' : Logged puts o') (htag : o.tag = o'.tag) : o = o' := by
  obtain ⟨w, hw, rfl⟩ := ho
  obtain ⟨w', hw', rfl⟩ := ho'
  rw [Put.eq_of_tag_eq h hw hw' htag]

theorem tag_lt_of_mem (h : Faithful puts) {o : StoredObject} (ho : o ∈ (replay puts).objects) :
    o.tag < puts.length := by
  obtain ⟨w, hw, rfl⟩ := logged_of_mem h ho
  exact tag_lt_length h hw

/-- Under a path that has been written there stays an object, and its tag only grows. -/
theorem find?_replay_append {path : ObjectPath} {o : StoredObject}
    (ho : (replay puts).find? path = some o) {low : Nat} (hlow : low ≤ o.tag)
    (hlength : low ≤ puts.length) (later : List Put) :
    ∃ o', (replay (puts ++ later)).find? path = some o' ∧ low ≤ o'.tag := by
  induction later using List.reverseRecOn with
  | nil => exact ⟨o, by rwa [List.append_nil], hlow⟩
  | append_singleton later w ih =>
    rw [← List.append_assoc, replay_concat, Bucket.find?_put]
    by_cases hpath : path = w.path
    · have htag : low ≤ (replay (puts ++ later)).nextTag := by
        rw [nextTag_replay, List.length_append]
        omega
      exact ⟨_, if_pos hpath, htag⟩
    · rw [if_neg hpath]
      exact ih

/-- After a write its path holds an object that is not older than the write. -/
theorem find?_after {earlier between : List Put} (hw : w.before = replay earlier) :
    ∃ o, (replay (earlier ++ w :: between)).find? w.path = some o ∧ earlier.length ≤ o.tag := by
  have hput : (replay (earlier ++ [w])).find? w.path = some w.object := by
    rw [replay_concat, Bucket.find?_put, if_pos rfl, Put.object, hw]
  have hfirst : earlier.length ≤ w.object.tag := by
    rw [Put.object, hw]
    exact Nat.le_of_eq (nextTag_replay earlier).symm
  have hlength : earlier.length ≤ (earlier ++ [w]).length := by
    rw [List.length_append]
    omega
  rw [← List.singleton_append, ← List.append_assoc]
  exact find?_replay_append hput hfirst hlength between

/-- **No two writes of a path have met the same object there**, nor both met none. -/
theorem find?_before_ne (h : Faithful puts) {earlier between later : List Put}
    (hputs : puts = earlier ++ w :: (between ++ w' :: later)) :
    w'.before.find? w.path ≠ w.before.find? w.path := by
  have hw : w.before = replay earlier := h _ _ _ hputs
  have hw' : w'.before = replay (earlier ++ w :: between) :=
    h _ _ later (by rw [hputs, List.append_assoc, List.cons_append])
  -- The first write leaves an object with a tag that nothing before it had.
  obtain ⟨o, ho, htag⟩ := find?_after hw
  rw [hw', ho, hw]
  intro heq
  have hlt := tag_lt_of_mem (h.of_append hputs) (Bucket.find?_some heq.symm).1
  omega

end LeasedWork
