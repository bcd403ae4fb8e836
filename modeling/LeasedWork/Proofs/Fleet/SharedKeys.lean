import LeasedWork.Proofs.Fleet.Initialization
import LeasedWork.Proofs.Fleet.PlanAccounts
import LeasedWork.Proofs.Fleet.Worklists

/-! # The keys of shared state

A collection's own state is kept under its name, and its load status under the name after a prefix.
Both are shared state, so a collection may be named like the key of another one's load status.  Then
the two have one record between them, and whoever counts for the one writes over what is kept for
the other.  A collection has its name to itself (`Collection.OwnsName`) when it is not named so, and
its load status to itself (`Collection.OwnsStatus`) when no other one is.

Whoever works on a list of collections keeps the records where they belong (`Record.InPlace`).  An
account with it (`KeyAccount`) says which export it has claimed and which records it knows to be
there: it creates queries under the name of that collection only, and takes the collections for
created only when it knows their records.  This is how a bootstrap behaves, or an election
(`Candidate.Informed.keyed_election`), a pass over an export (`Work.keyed_pass`), and whoever counts
a loaded query (`LoadStatus.keyed_update`).
-/
namespace LeasedWork

/-! ## Whose a key is -/

namespace Collection

/-- No collection of a list has its load status under the collection's name. -/
def OwnsName (cs : List Collection) (c : Collection) : Prop :=
  ∀ c' ∈ cs, c.name ≠ LoadStatus.keyOf c'.name

/-- No collection of a list has a name under which the collection has its load status. -/
def OwnsStatus (cs : List Collection) (c : Collection) : Prop :=
  ∀ c' ∈ cs, c'.name ≠ LoadStatus.keyOf c.name

/-- What is read back for the collection from the keys of its queries. -/
def keyPart (c : Collection) : String :=
  String.ofList (c.name.toList.takeWhile (· != keySeparator))

/-- The shared state that is kept for some collections. -/
def sharedIds (source : String) (cs : List Collection) : List RecordId :=
  cs.flatMap fun c => c.configId source :: (c.exportSize.map fun _ => c.statusId source).toList

variable {source : String} {cs : List Collection} {c : Collection}

theorem configId_mem_sharedIds (hc : c ∈ cs) : c.configId source ∈ sharedIds source cs :=
  List.mem_flatMap.mpr ⟨c, hc, List.mem_cons_self⟩

theorem statusId_mem_sharedIds (hc : c ∈ cs) (hexport : c.exportSize.isSome = true) :
    c.statusId source ∈ sharedIds source cs := by
  obtain ⟨size, hsize⟩ := Option.isSome_iff_exists.mp hexport
  refine List.mem_flatMap.mpr ⟨c, hc, List.mem_cons_of_mem _ ?_⟩
  rw [hsize]
  exact List.mem_singleton_self _

/-- It is the collection's name just when that holds no separator. -/
theorem keyPart_eq_iff : c.keyPart = c.name ↔ keySeparator ∉ c.name.toList := by
  have hchars : c.keyPart = c.name ↔
      c.name.toList.takeWhile (· != keySeparator) = c.name.toList := by
    rw [keyPart, ← String.toList_inj, String.toList_ofList]
  rw [hchars, List.takeWhile_eq_self_iff]
  constructor
  · intro hall hmem
    exact absurd (hall _ hmem) (by simp)
  · exact Key.bne_of_notMem

end Collection

/-! ## Records in their places -/

/-- A record that is kept for some collections says what belongs under its key. -/
structure Record.InPlace (source : String) (cs : List Collection) (r : Record) : Prop where
  configs : ∀ c ∈ cs, c.OwnsName cs → r.id = c.configId source →
    ∃ time, time.Whole ∧ r.progress = some (c.pinText time)
  statuses : ∀ c ∈ cs, c.OwnsStatus cs → r.id = c.statusId source →
    ∃ s : LoadStatus, r.progress = some (sharedKind.text s.toMembers)
  exports : r.source = source → ∀ name, r.exported? = some name → ∃ c ∈ cs, c.name = name
  queries : r.source = source → r.kind = queryKind.tag → queryKind.KeptIn r

/-- Every record is in its place, and a leader's record that says that everything has been created
is right. -/
structure Table.InOrder (source : String) (cs : List Collection) (t : Table) : Prop where
  distinct : t.Distinct
  places : ∀ r ∈ t.rows, r.InPlace source cs
  noted : ∀ r ∈ t.rows, r.source = source → r.isInitialized = true →
    ∀ id ∈ Collection.sharedIds source cs, t.Has id

variable {source : String} {cs : List Collection} {c : Collection} {r r' : Record}

theorem Record.kind_of_exported {name : String} (h : r.exported? = some name) :
    r.kind = snapshotKind.tag := by
  by_contra hkind
  cases (Record.exported_of_kind hkind).symm.trans h

theorem Record.exported_of_id {name : String} {size : UInt64} {time : Instant}
    (htime : time.Whole)
    (hid : r.id = ⟨source, snapshotKind.tag, SnapshotId.key ⟨name, size, time⟩⟩) :
    r.exported? = some name := by
  have hkind : r.kind = snapshotKind.tag := congrArg RecordId.kind hid
  have hkey : r.key = SnapshotId.key ⟨name, size, time⟩ := congrArg RecordId.key hid
  rw [exported?, if_pos hkind, hkey, SnapshotId.readKey_key ⟨name, size, time⟩ htime]

theorem Record.isInitialized_iff : r.isInitialized = true ↔ r.kind = leaderKind.tag ∧
    r.key = Key.leader ∧
      ∃ x, Partition.readProgress? leaderKind r = .ok (some x) ∧ x.initialized = true := by
  unfold isInitialized Partition.ofRecord
  by_cases hkind : r.kind = leaderKind.tag
  · rw [if_neg (not_not_intro hkind)]
    by_cases hkey : r.key = Key.leader
    · have hread : leaderKind.identify r.key = .ok () := if_pos hkey
      rw [hread]
      dsimp only
      cases hprogress : Partition.readProgress? leaderKind r with
      | error failure => simp [Except.map]
      | ok progress =>
        cases progress with
        | none => simp [Except.map, Partition.isInitialized]
        | some x => simp [Except.map, Partition.isInitialized, hkind, hkey]
    · have hread : leaderKind.identify r.key = .error .notTheLeader := if_neg hkey
      rw [hread]
      simp [hkey]
  · rw [if_pos hkind]
    simp [hkind]

theorem Record.isInitialized_congr (hid : r.id = r'.id) (hprogress : r.progress = r'.progress) :
    r.isInitialized = r'.isInitialized := by
  have hkind : r.kind = r'.kind := congrArg RecordId.kind hid
  have hkey : r.key = r'.key := congrArg RecordId.key hid
  rw [Bool.eq_iff_iff, isInitialized_iff, isInitialized_iff, Partition.readProgress?,
    Partition.readProgress?, hkind, hkey, hprogress]

/-- What is written for a partition says that everything has been created only if the partition
does. -/
theorem Partition.isInitialized_of_record {p : Partition leaderKind}
    (hprogress : r.progress = p.progressText) (h : r.isInitialized = true) :
    p.isInitialized = true := by
  obtain ⟨-, -, x, hread, hx⟩ := Record.isInitialized_iff.mp h
  cases hp : p.progress with
  | none =>
    rw [progressText, hp] at hprogress
    rw [readProgress?, hprogress] at hread
    cases hread
  | some y =>
    rw [progressText, hp] at hprogress
    have hread' := readProgress?_of_keeps (PartitionKind.keeps_leader y) hprogress
    obtain rfl := Option.some.inj (Except.ok.inj (hread.symm.trans hread'))
    rw [isInitialized, hp]
    exact hx

namespace Record.InPlace

theorem congr (h : r.InPlace source cs) (hid : r'.id = r.id)
    (hprogress : r'.progress = r.progress) : r'.InPlace source cs where
  configs c hc howns hid' := by
    rw [hprogress]
    exact h.configs c hc howns (hid.symm.trans hid')
  statuses c hc howns hid' := by
    rw [hprogress]
    exact h.statuses c hc howns (hid.symm.trans hid')
  exports hsource name hname :=
    h.exports ((congrArg RecordId.source hid).symm.trans hsource) name
      ((Record.exported_congr hid).symm.trans hname)
  queries hsource hkind := by
    obtain ⟨x, hx, htext⟩ := h.queries ((congrArg RecordId.source hid).symm.trans hsource)
      ((congrArg RecordId.kind hid).symm.trans hkind)
    exact ⟨x, hx, hprogress.trans htext⟩

theorem of_kind (hshared : r.kind ≠ sharedKind.tag) (hexport : r.kind ≠ snapshotKind.tag)
    (hquery : r.kind ≠ queryKind.tag) : r.InPlace source cs where
  configs _ _ _ hid := absurd (congrArg RecordId.kind hid) hshared
  statuses _ _ _ hid := absurd (congrArg RecordId.kind hid) hshared
  exports _ _ hname := absurd (Record.kind_of_exported hname) hexport
  queries _ hkind := absurd hkind hquery

theorem of_leader (hkind : r.kind = leaderKind.tag) : r.InPlace source cs :=
  of_kind (hkind.trans_ne (by decide)) (hkind.trans_ne (by decide)) (hkind.trans_ne (by decide))

theorem of_query (hkind : r.kind = queryKind.tag) (hkept : queryKind.KeptIn r) :
    r.InPlace source cs where
  configs _ _ _ hid := absurd (hkind.symm.trans (congrArg RecordId.kind hid))
    (by decide : queryKind.tag ≠ sharedKind.tag)
  statuses _ _ _ hid := absurd (hkind.symm.trans (congrArg RecordId.kind hid))
    (by decide : queryKind.tag ≠ sharedKind.tag)
  exports _ _ hname := absurd (hkind.symm.trans (Record.kind_of_exported hname))
    (by decide : queryKind.tag ≠ snapshotKind.tag)
  queries _ _ := hkept

variable (hc : c ∈ cs)

include hc

theorem of_exported (hexported : r.exported? = some c.name) : r.InPlace source cs where
  configs _ _ _ hid := absurd ((congrArg RecordId.kind hid).symm.trans
    (Record.kind_of_exported hexported)) (by decide : sharedKind.tag ≠ snapshotKind.tag)
  statuses _ _ _ hid := absurd ((congrArg RecordId.kind hid).symm.trans
    (Record.kind_of_exported hexported)) (by decide : sharedKind.tag ≠ snapshotKind.tag)
  exports _ _ hname := ⟨c, hc, Option.some.inj (hexported.symm.trans hname)⟩
  queries _ hkind := absurd (hkind.symm.trans (Record.kind_of_exported hexported))
    (by decide : queryKind.tag ≠ snapshotKind.tag)

theorem of_status (hid : r.id = c.statusId source) {s : LoadStatus}
    (hprogress : r.progress = some (sharedKind.text s.toMembers)) : r.InPlace source cs where
  configs _ _ howns hid' := absurd (congrArg RecordId.key (hid'.symm.trans hid)) (howns c hc)
  statuses _ _ _ _ := ⟨s, hprogress⟩
  exports _ _ hname := absurd ((congrArg RecordId.kind hid).symm.trans
    (Record.kind_of_exported hname)) (by decide : sharedKind.tag ≠ snapshotKind.tag)
  queries _ hkind := absurd ((congrArg RecordId.kind hid).symm.trans hkind)
    (by decide : sharedKind.tag ≠ queryKind.tag)

theorem of_config (hnames : (cs.map Collection.name).Nodup) (hid : r.id = c.configId source)
    {time : Instant} (htime : time.Whole) (hprogress : r.progress = some (c.pinText time)) :
    r.InPlace source cs where
  configs c' hc' _ hid' := by
    have hname : c.name = c'.name := congrArg RecordId.key (hid.symm.trans hid')
    obtain rfl := List.inj_on_of_nodup_map hnames hc hc' hname
    exact ⟨time, htime, hprogress⟩
  statuses _ _ howns hid' := absurd (congrArg RecordId.key (hid.symm.trans hid')) (howns c hc)
  exports _ _ hname := absurd ((congrArg RecordId.kind hid).symm.trans
    (Record.kind_of_exported hname)) (by decide : sharedKind.tag ≠ snapshotKind.tag)
  queries _ hkind := absurd ((congrArg RecordId.kind hid).symm.trans hkind)
    (by decide : sharedKind.tag ≠ queryKind.tag)

end Record.InPlace

/-! ## The account -/

/-- What is known of somebody who works on collections. -/
structure KeyAccount where
  /-- The collection whose export it has claimed. -/
  claimed : Option String
  /-- The records that it knows to be stored. -/
  known : List RecordId

namespace KeyAccount

/-- Nothing has been done yet. -/
def opening : KeyAccount := ⟨none, []⟩

/-- All shared state of some collections is known to be stored. -/
def KnowsAll (source : String) (cs : List Collection) (g : KeyAccount) : Prop :=
  ∀ id ∈ Collection.sharedIds source cs, id ∈ g.known

/-- A record has been claimed.  If it is a leader's, what it says is right. -/
def claim (source : String) (cs : List Collection) (r : Record) (g : KeyAccount) : KeyAccount where
  claimed := g.claimed.or r.exported?
  known := if r.source = source ∧ r.isInitialized = true then
    Collection.sharedIds source cs ++ g.known else g.known

/-- A record may be written. -/
structure MayWrite (source : String) (cs : List Collection) (r : Record) (g : KeyAccount) :
    Prop where
  inPlace : r.InPlace source cs
  noted : r.source = source → r.isInitialized = true → g.KnowsAll source cs

/-- A record may be created: a load status counts nothing, and a query is for the collection whose
export has been claimed. -/
structure MayCreate (source : String) (cs : List Collection) (r : Record) (g : KeyAccount) : Prop
    extends MayWrite source cs r g where
  starting : ∀ c ∈ cs, c.OwnsStatus cs → r.id = c.statusId source →
    ∃ time, r.progress = some (sharedKind.text (LoadStatus.starting time).toMembers)
  planned : r.source = source → r.kind = queryKind.tag →
    ∃ name query, g.claimed = some name ∧ r.key = QueryId.key ⟨name, query⟩

/-- A record may be replaced by its next version, unless it is a collection's own state. -/
structure MayUpdate (source : String) (cs : List Collection) (r : Record) (g : KeyAccount) : Prop
    extends MayWrite source cs r g where
  spared : ∀ c ∈ cs, c.OwnsName cs → r.id ≠ c.configId source

/-- As much is known as before, and the claimed export is the same if there was one. -/
structure Later (g g' : KeyAccount) : Prop where
  claimed : ∀ name, g.claimed = some name → g'.claimed = some name
  known : ∀ id ∈ g.known, id ∈ g'.known

variable {g g' g'' : KeyAccount}

theorem later_refl (g : KeyAccount) : g.Later g := ⟨fun _ => id, fun _ => id⟩

theorem Later.trans (h : g.Later g') (h' : g'.Later g'') : g.Later g'' :=
  ⟨fun name hname => h'.claimed name (h.claimed name hname),
    fun id hid => h'.known id (h.known id hid)⟩

theorem later_opening (g : KeyAccount) : opening.Later g :=
  ⟨fun _ hname => (nomatch hname), fun _ hid => absurd hid List.not_mem_nil⟩

theorem KnowsAll.later (h : g.KnowsAll source cs) (hlater : g.Later g') : g'.KnowsAll source cs :=
  fun id hid => hlater.known id (h id hid)

theorem MayWrite.later (h : g.MayWrite source cs r) (hlater : g.Later g') :
    g'.MayWrite source cs r :=
  { h with noted := fun hsource hinit => (h.noted hsource hinit).later hlater }

end KeyAccount

/-- What surrounds somebody who works on the collections of a source. -/
def Surroundings.keyed (source : String) (cs : List Collection) : Surroundings where
  State := KeyAccount
  May g request :=
    match request with
    | .create r => g.MayCreate source cs r
    | .update r => g.MayUpdate source cs r
    | _ => True
  Tells g request told g' :=
    match request, told with
    | .create r, .ok _ => g' = { g with known := r.id :: g.known }
    | .update r, .ok written => written = r.nextVersion ∧ g' = g
    | .get id, .ok (some r) => r.id = id ∧ g' = g
    | .claim s kind _ _, .ok (some r) => r.source = s ∧ r.kind = kind ∧ r.InPlace source cs ∧
        g' = g.claim source cs r
    | _, _ => g' = g

namespace Surroundings

open KeyAccount

variable {E : Interface} {α : Type} {g g' : KeyAccount} {post : α → KeyAccount → Prop}
  {p : Program (Node.interface E) α}

/-- Whatever is told, nothing is forgotten. -/
theorem later_of_tells {request : Request} {told : request.Answer}
    (h : (keyed source cs).Tells g request told g') : g.Later g' := by
  match request, told with
  | .prepare, _ | .get _, .ok none | .get _, .error _ | .byStatus _ _ _ _, _ | .all _ _, _
  | .create _, .error _ | .update _, .error _ | .claim _ _ _ _, .ok none
  | .claim _ _ _ _, .error _ =>
    obtain rfl := h
    exact later_refl _
  | .update _, .ok _ | .get _, .ok (some _) =>
    obtain ⟨-, rfl⟩ := h
    exact later_refl _
  | .create r, .ok _ =>
    obtain rfl := h
    exact ⟨fun _ => id, fun _ => List.mem_cons_of_mem _⟩
  | .claim s kind owner lease, .ok (some r) =>
    obtain ⟨-, -, -, rfl⟩ := h
    refine ⟨fun name hname => ?_, fun id hid => ?_⟩
    · rw [KeyAccount.claim, hname, Option.some_or]
    · rw [KeyAccount.claim]
      split
      · exact List.mem_append_right _ hid
      · exact hid

/-- What may be asked may be asked later. -/
theorem may_of_later {request : Request} (h : (keyed source cs).May g request)
    (hlater : g.Later g') : (keyed source cs).May g' request := by
  cases request with
  | prepare | get _ | byStatus _ _ _ _ | all _ _ | claim _ _ _ _ => trivial
  | create r =>
    refine { h.toMayWrite.later hlater, h with planned := fun hsource hkind => ?_ }
    obtain ⟨name, query, hclaimed, hkey⟩ := h.planned hsource hkind
    exact ⟨name, query, hlater.claimed name hclaimed, hkey⟩
  | update r => exact { h.toMayWrite.later hlater, h with }

/-- A program forgets nothing. -/
theorem ensures_later (h : (keyed source cs).Ensures post p g) :
    (keyed source cs).Ensures (fun a g' => post a g' ∧ g.Later g') p g := by
  induction p generalizing g with
  | done a => exact ⟨h, later_refl g⟩
  | ask question next ih =>
    match question with
    | .store request =>
      refine ⟨h.1, fun answer g' htold => ?_⟩
      exact (ih answer (h.2 answer g' htold)).imp fun _ _ hpost =>
        ⟨hpost.1, (later_of_tells htold).trans hpost.2⟩
    | .now => exact fun now hnow => ih now (h now hnow)
    | .pause _ => exact ih () h
    | .other _ => exact fun answer => ih answer (h answer)

/-- Whoever asks only for what anybody may ask may do so at any time. -/
theorem ensures_asks (h : Accord.Asks ((keyed source cs).May .opening) p) :
    (keyed source cs).Ensures (fun _ _ => True) p g := by
  induction p generalizing g with
  | done a => trivial
  | ask question next ih =>
    match question with
    | .store request =>
      exact ⟨may_of_later h.1 (later_opening g), fun answer _ _ => ih answer (h.2 answer)⟩
    | .now => exact fun now _ => ih now (h now)
    | .pause _ => exact ih () h
    | .other _ => exact fun answer => ih answer (h answer)

variable {action : Node.Action E α} {fail : Failure → KeyAccount → Prop}

/-- An action forgets nothing. -/
theorem yields_later (h : (keyed source cs).Yields post fail action g) :
    (keyed source cs).Yields (fun a g' => post a g' ∧ g.Later g')
      (fun failure g' => fail failure g' ∧ g.Later g') action g := by
  refine (ensures_later h).imp fun x g' hx => ?_
  cases x with
  | ok a => exact hx
  | error failure => exact hx

/-- One action after another, in view of what is known by then. -/
theorem bind_later {β : Type} {post' : β → KeyAccount → Prop} {f : α → Node.Action E β}
    (h : (keyed source cs).Yields post (fun _ _ => True) action g)
    (hf : ∀ a g', post a g' → g.Later g' →
      (keyed source cs).Yields post' (fun _ _ => True) (f a) g') :
    (keyed source cs).Yields post' (fun _ _ => True) (action >>= f) g := by
  refine Yields.bind ((yields_later h).imp (fun _ _ hpost => hpost) fun _ _ _ => trivial) ?_
  exact fun a g' hpost => hf a g' hpost.1 hpost.2

/-- A creation is known from then on. -/
theorem keyed_create {k : PartitionKind} {n : Node} (p : Partition k)
    (h : ∀ now, g.MayCreate source cs (n.newRecord k.tag p.key k.leased p.progressText now)) :
    (keyed source cs).Yields (E := E) (fun _ g' => (⟨n.source, k.tag, p.key⟩ : RecordId) ∈ g'.known)
      (fun _ _ => True) (n.create p) g := by
  refine yields_create fun now => ⟨h now, ?_, fun _ _ _ => trivial⟩
  rintro isNew g' rfl
  rw [← n.id_newRecord k.tag p.key k.leased p.progressText now]
  exact List.mem_cons_self

end Surroundings

/-! ## What may be written -/

namespace KeyAccount

variable {g : KeyAccount}

theorem MayWrite.of_kind (hplace : r.InPlace source cs) (hkind : r.kind ≠ leaderKind.tag) :
    g.MayWrite source cs r where
  inPlace := hplace
  noted _ hinit := absurd (Record.isInitialized_iff.mp hinit).1 hkind

theorem MayCreate.of_kind (hwrite : g.MayWrite source cs r) (hshared : r.kind ≠ sharedKind.tag)
    (hquery : r.kind ≠ queryKind.tag) : g.MayCreate source cs r where
  toMayWrite := hwrite
  starting _ _ _ hid := absurd (congrArg RecordId.kind hid) hshared
  planned _ hkind := absurd hkind hquery

theorem MayUpdate.of_kind (hwrite : g.MayWrite source cs r) (hshared : r.kind ≠ sharedKind.tag) :
    g.MayUpdate source cs r where
  toMayWrite := hwrite
  spared _ _ _ hid := hshared (congrArg RecordId.kind hid)

/-- A leader's record may be written again, as long as what its partition says is known. -/
theorem MayUpdate.of_leader {p : Partition leaderKind} (hkind : r.kind = leaderKind.tag)
    (hnoted : p.isInitialized = true → g.KnowsAll source cs) (move : Transition) (now : Instant) :
    g.MayUpdate source cs (Node.proposal p move now r) := by
  have hkind' : (Node.proposal p move now r).kind = leaderKind.tag :=
    (congrArg RecordId.kind (Node.id_proposal p move now r)).trans hkind
  refine .of_kind ⟨.of_leader hkind', fun _ hinit => ?_⟩ (hkind'.trans_ne (by decide))
  exact hnoted (Partition.isInitialized_of_record (Node.progress_proposal p move now r) hinit)

end KeyAccount

end LeasedWork
