import LeasedWork.Proofs.Record.RoundTrip

/-! # Records of other writers

Records outlive the programs that write them.  A later writer may know more members than the reader,
an earlier one fewer, and each lays a record out in its own way.  `Record.Drift` is what may so
become of the members of a record: they change places, members of other names come in, and those go
that hold what a missing one stands for.  The reader looks only at which of the names that it knows
hold what (`Record.read_of_same`), so drift makes no difference to it.  A name that it knows must
occur once at most, and those of the identity and of the creation time must occur
(`Record.parse_tolerates_drift`).
-/
namespace LeasedWork.Record

open Json

/-- The members that must be there. -/
def requiredNames : List String :=
  ["sourceIdentifier", "partitionType", "partitionKey", "createdAt"]

/-- The members that may be missing, with what a missing one stands for. -/
def absentValues : List (String × Tree) :=
  [("status", .null), ("ownerId", .null), ("leaseExpiry", .null), ("reopenAt", .null),
   ("closedCount", .number (.integer 0)), ("progressState", .null),
   ("version", .number (.integer 0)), ("completedAt", .null), ("readOnly", .bool false)]

/-- What becomes of the members of a record among writers of several versions. -/
inductive Drift : List (Option String × Tree) → List (Option String × Tree) → Prop
  | reordered {ms ms' : List (Option String × Tree)} (h : ms.Perm ms') : Drift ms ms'
  | extended {before after : List (Option String × Tree)} {name : String}
    (hname : name ∉ fieldNames) (x : Tree) :
    Drift (before ++ after) (before ++ (some name, x) :: after)
  | reduced {before after : List (Option String × Tree)} {m : String × Tree}
    (hm : m ∈ absentValues) : Drift (before ++ (some m.1, m.2) :: after) (before ++ after)
  | trans {ms ms' ms'' : List (Option String × Tree)} (h : Drift ms ms') (h' : Drift ms' ms'') :
    Drift ms ms''

variable {ms ms' before after : List (Option String × Tree)} {name : String} {x : Tree}

/-! ## What a reader looks at -/

/-- All members have names, and those that the reader knows occur once at most. -/
structure Tidy (ms : List (Option String × Tree)) : Prop where
  named : ∀ m ∈ ms, m.1.isSome = true
  once : ∀ name ∈ fieldNames, Tree.countOf name ms ≤ 1

/-- What the reader finds in an object. -/
def found (ms : List (Option String × Tree)) : Found := fun name =>
  if name ∈ fieldNames then List.lookup (some name) ms else none

theorem fields_eq_some_iff {f : Found} :
    (Tree.object ms).fields? fieldNames = some f ↔ Tidy ms ∧ f = found ms := by
  have htidy : Tidy ms ↔ (ms.all (fun m => m.1.isSome) &&
      fieldNames.all fun name => Tree.countOf name ms ≤ 1) = true := by
    simp only [Bool.and_eq_true, List.all_eq_true, decide_eq_true_eq]
    exact ⟨fun h => ⟨h.named, h.once⟩, fun h => ⟨h.1, h.2⟩⟩
  rw [htidy, Tree.fields?]
  split
  · rename_i h
    rw [Option.some.injEq]
    exact ⟨fun hf => ⟨h, hf.symm⟩, fun hf => hf.2.symm⟩
  · rename_i h
    constructor
    · intro hf
      cases hf
    · exact fun hf => absurd hf.1 h

/-- An object that is not tidy is no record. -/
theorem read_eq_none_of_not_tidy (h : ¬ Tidy ms) : read (.object ms) = none := by
  have hfields : (Tree.object ms).fields? fieldNames = none := by
    cases hf : (Tree.object ms).fields? fieldNames with
    | none => rfl
    | some f => exact absurd (fields_eq_some_iff.mp hf).1 h
  rw [read, hfields]
  rfl

theorem tidy_of_read {r : Record} (h : read (.object ms) = some r) : Tidy ms := by
  by_contra hnot
  rw [read_eq_none_of_not_tidy hnot] at h
  cases h

/-- Two findings that differ in members only that may be missing and are missing in the second. -/
structure Agree (f f' : Found) : Prop where
  required : ∀ name ∈ requiredNames, f name = f' name
  optional : ∀ m ∈ absentValues, f m.1 = f' m.1 ∨ f m.1 = some m.2 ∧ f' m.1 = none

theorem required_congr {α : Type} {f f' : Found} (read : Reads α) (h : f name = f' name) :
    f.required name read = f'.required name read := by
  rw [Found.required, Found.required, h]

theorem withDefault_congr {α : Type} {f f' : Found} (read : Reads α) (absent : α)
    (h : f name = f' name ∨ f name = some x ∧ f' name = none) (hread : read x = some absent) :
    f.withDefault name read absent = f'.withDefault name read absent := by
  rcases h with h | ⟨h, h'⟩
  · rw [Found.withDefault, Found.withDefault, h]
  · rw [Found.withDefault_of_read absent h hread, Found.withDefault_of_absent absent h']

/-- **Findings that agree hold the same record.** -/
theorem read_congr {t t' : Tree} {f f' : Found} (ht : t.fields? fieldNames = some f)
    (ht' : t'.fields? fieldNames = some f') (h : Agree f f') : read t = read t' := by
  have hrequired := h.required
  have hoptional := h.optional
  simp only [requiredNames, absentValues, List.forall_mem_cons] at hrequired hoptional
  obtain ⟨hsource, hkind, hkey, hcreated, -⟩ := hrequired
  obtain ⟨hstatus, howner, hlease, hreopen, hclosed, hprogress, hversion, hdone, hreadOnly, -⟩ :=
    hoptional
  rw [read, read, ht, ht', Option.bind_eq_bind, Option.bind_some, Option.bind_some,
    required_congr Read.text hsource, required_congr Read.text hkind,
    required_congr Read.text hkey, required_congr Timestamp.read hcreated,
    withDefault_congr (Read.optional Status.read) none hstatus rfl,
    withDefault_congr (Read.optional Read.text) none howner rfl,
    withDefault_congr (Read.optional Timestamp.read) none hlease rfl,
    withDefault_congr (Read.optional Timestamp.read) none hreopen rfl,
    withDefault_congr Read.word 0 hclosed rfl,
    withDefault_congr (Read.optional Read.text) none hprogress rfl,
    withDefault_congr Read.word 0 hversion rfl,
    withDefault_congr (Read.optional Timestamp.read) none hdone rfl,
    withDefault_congr Read.bool false hreadOnly rfl]

theorem mem_fieldNames_of_required (h : name ∈ requiredNames) : name ∈ fieldNames := by
  have hall : ∀ name ∈ requiredNames, name ∈ fieldNames := by decide
  exact hall name h

theorem mem_fieldNames_of_absent {m : String × Tree} (h : m ∈ absentValues) : m.1 ∈ fieldNames := by
  have hall : ∀ name ∈ absentValues.map Prod.fst, name ∈ fieldNames := by decide
  exact hall m.1 (List.mem_map_of_mem h)

theorem Tidy.found_eq_some_iff (h : Tidy ms) (hname : name ∈ fieldNames) :
    found ms name = some x ↔ (some name, x) ∈ ms := by
  rw [found, if_pos hname, Tree.lookup_eq_some_iff (h.once name hname)]

/-- What is found depends on what has which of the known names. -/
theorem Tidy.found_congr (h : Tidy ms) (h' : Tidy ms') (hname : name ∈ fieldNames)
    (hmem : ∀ x, (some name, x) ∈ ms ↔ (some name, x) ∈ ms') : found ms name = found ms' name := by
  refine Option.ext fun x => ?_
  rw [h.found_eq_some_iff hname, h'.found_eq_some_iff hname]
  exact hmem x

/-! ## Drift makes no difference -/

/-- What is found may be found in two objects. -/
theorem read_of_agree {r : Record} (hread : read (.object ms) = some r) (h' : Tidy ms')
    (hagree : Agree (found ms) (found ms')) : read (.object ms') = some r := by
  rw [← hread]
  exact (read_congr (fields_eq_some_iff.mpr ⟨tidy_of_read hread, rfl⟩)
    (fields_eq_some_iff.mpr ⟨h', rfl⟩) hagree).symm

/-- Two objects in which the known names have the same values hold the same record. -/
theorem read_of_same {r : Record} (hread : read (.object ms) = some r) (h' : Tidy ms')
    (hmem : ∀ name ∈ fieldNames, ∀ x, (some name, x) ∈ ms ↔ (some name, x) ∈ ms') :
    read (.object ms') = some r := by
  have hfound : ∀ name ∈ fieldNames, found ms name = found ms' name :=
    fun name hname => (tidy_of_read hread).found_congr h' hname (hmem name hname)
  exact read_of_agree hread h'
    ⟨fun name hname => hfound name (mem_fieldNames_of_required hname),
      fun m hm => .inl (hfound m.1 (mem_fieldNames_of_absent hm))⟩

theorem read_reordered {r : Record} (h : ms.Perm ms') (hread : read (.object ms) = some r) :
    read (.object ms') = some r := by
  have htidy := tidy_of_read hread
  refine read_of_same hread ⟨fun m hm => htidy.named m (h.mem_iff.mpr hm), fun name hname => ?_⟩
    fun name _ x => h.mem_iff
  have hcount : Tree.countOf name ms' = Tree.countOf name ms := h.symm.countP_eq _
  rw [hcount]
  exact htidy.once name hname

theorem read_extended {r : Record} (hname : name ∉ fieldNames)
    (hread : read (.object (before ++ after)) = some r) :
    read (.object (before ++ (some name, x) :: after)) = some r := by
  have htidy := tidy_of_read hread
  -- The new member has a name that nobody asks for.
  have hne : ∀ other ∈ fieldNames, name ≠ other := by
    rintro other hother rfl
    exact hname hother
  refine read_of_same hread ⟨fun m hm => ?_, fun other hother => ?_⟩ fun other hother y => ?_
  · rcases List.mem_append.mp hm with hm | hm
    · exact htidy.named m (List.mem_append_left _ hm)
    · rcases List.mem_cons.mp hm with rfl | hm
      · rfl
      · exact htidy.named m (List.mem_append_right _ hm)
  · have honce := htidy.once other hother
    rw [Tree.countOf_append] at honce
    rw [Tree.countOf_append, Tree.countOf_cons, if_neg (by simpa using hne other hother)]
    exact honce
  · have hother : (some other, y) ≠ (some name, x) := by
      intro heq
      exact hne other hother (by simpa using (congrArg Prod.fst heq).symm)
    simp [List.mem_append, List.mem_cons, hother]

/-- Without a member, an object is as tidy as it was. -/
theorem Tidy.of_reduced {m : Option String × Tree} (h : Tidy (before ++ m :: after)) :
    Tidy (before ++ after) := by
  have hsub : (before ++ after).Sublist (before ++ m :: after) :=
    (List.sublist_cons_self m after).append_left before
  exact ⟨fun other hother => h.named other (hsub.mem hother),
    fun name hname => (hsub.countP_le).trans (h.once name hname)⟩

/-- A name that was there once is not there without its member. -/
theorem Tidy.found_reduced (h : Tidy (before ++ (some name, x) :: after))
    (hname : name ∈ fieldNames) : found (before ++ after) name = none := by
  have honce := h.once name hname
  rw [Tree.countOf_append, Tree.countOf_cons, if_pos rfl] at honce
  refine Option.eq_none_iff_forall_ne_some.mpr fun y hy => ?_
  refine Tree.notMem_of_countOf ?_ ((h.of_reduced.found_eq_some_iff hname).mp hy)
  rw [Tree.countOf_append]
  omega

/-- A name stands for one value when it is missing. -/
theorem eq_of_absent {m n : String × Tree} (hm : m ∈ absentValues) (hn : n ∈ absentValues)
    (h : m.1 = n.1) : m = n := by
  have hnodup : (absentValues.map Prod.fst).Nodup := by decide
  exact List.inj_on_of_nodup_map hnodup hm hn h

theorem read_reduced {r : Record} {m : String × Tree} (hm : m ∈ absentValues)
    (hread : read (.object (before ++ (some m.1, m.2) :: after)) = some r) :
    read (.object (before ++ after)) = some r := by
  have htidy := tidy_of_read hread
  have hother : ∀ other ∈ fieldNames, other ≠ m.1 →
      found (before ++ (some m.1, m.2) :: after) other = found (before ++ after) other := by
    intro other hother hne
    refine htidy.found_congr htidy.of_reduced hother fun y => ?_
    simp [List.mem_append, List.mem_cons, hne]
  refine read_of_agree hread htidy.of_reduced ⟨fun name hname => ?_, fun n hn => ?_⟩
  · refine hother name (mem_fieldNames_of_required hname) ?_
    have hapart : ∀ name ∈ requiredNames, name ∉ absentValues.map Prod.fst := by decide
    rintro rfl
    exact hapart _ hname (List.mem_map_of_mem hm)
  · by_cases hsame : n.1 = m.1
    · obtain rfl := eq_of_absent hn hm hsame
      have hknown := mem_fieldNames_of_absent hn
      exact .inr ⟨(htidy.found_eq_some_iff hknown).mpr (by simp), htidy.found_reduced hknown⟩
    · exact .inl (hother n.1 (mem_fieldNames_of_absent hn) hsame)

/-- **Drift makes no difference to the reader.** -/
theorem read_of_drift {r : Record} (h : Drift ms ms') (hread : read (.object ms) = some r) :
    read (.object ms') = some r := by
  induction h with
  | reordered h => exact read_reordered h hread
  | extended hname x => exact read_extended hname hread
  | reduced hm => exact read_reduced hm hread
  | trans _ _ ih ih' => exact ih' (ih hread)

/-! ## What a reader does not forgive -/

theorem read_repeated {y : Tree} (hname : name ∈ fieldNames)
    (hmem : (some name, y) ∈ before ++ after) :
    read (.object (before ++ (some name, x) :: after)) = none := by
  refine read_eq_none_of_not_tidy fun htidy => ?_
  have honce := htidy.once name hname
  have hpos : 0 < Tree.countOf name (before ++ after) :=
    List.countP_pos_iff.mpr ⟨_, hmem, by simp⟩
  rw [Tree.countOf_append] at hpos
  rw [Tree.countOf_append, Tree.countOf_cons, if_pos rfl] at honce
  omega

theorem ne_none_of_required {α : Type} {f : Found} {read : Reads α} {y : α}
    (h : f.required name read = some y) : f name ≠ none := by
  intro hnone
  rw [Found.required, hnone] at h
  cases h

/-- **What holds a record has the members that must be there.** -/
theorem required_of_read {r : Record} (hread : read (.object ms) = some r) :
    ∀ name ∈ requiredNames, found ms name ≠ none := by
  have hfields := fields_eq_some_iff.mpr ⟨tidy_of_read hread, rfl⟩
  rw [read, hfields, Option.bind_eq_bind, Option.bind_some] at hread
  obtain ⟨_, hsource, h⟩ := Option.bind_eq_some_iff.mp hread
  obtain ⟨_, hkind, h⟩ := Option.bind_eq_some_iff.mp h
  obtain ⟨_, hkey, h⟩ := Option.bind_eq_some_iff.mp h
  obtain ⟨_, -, h⟩ := Option.bind_eq_some_iff.mp h
  obtain ⟨_, -, h⟩ := Option.bind_eq_some_iff.mp h
  obtain ⟨_, -, h⟩ := Option.bind_eq_some_iff.mp h
  obtain ⟨_, -, h⟩ := Option.bind_eq_some_iff.mp h
  obtain ⟨_, -, h⟩ := Option.bind_eq_some_iff.mp h
  obtain ⟨_, -, h⟩ := Option.bind_eq_some_iff.mp h
  obtain ⟨_, -, h⟩ := Option.bind_eq_some_iff.mp h
  obtain ⟨_, hcreated, -⟩ := Option.bind_eq_some_iff.mp h
  simp only [requiredNames, List.forall_mem_cons]
  exact ⟨ne_none_of_required hsource, ne_none_of_required hkind, ne_none_of_required hkey,
    ne_none_of_required hcreated, by simp⟩

theorem read_incomplete (htidy : Tidy (before ++ (some name, x) :: after))
    (hname : name ∈ requiredNames) : read (.object (before ++ after)) = none := by
  by_contra hread
  obtain ⟨r, hr⟩ := Option.ne_none_iff_exists'.mp hread
  exact required_of_read hr name hname (htidy.found_reduced (mem_fieldNames_of_required hname))

/-! ## Texts -/

theorem parse_of_spelledBy {s : String} {t : Tree} (h : t.SpelledBy s) : parse? s = read t := by
  rw [parse?, Tree.ofString_eq_some_iff.mpr h, Option.bind_some]

/-- **A reader tolerates drift, and nothing else.**  Let a text spell an object that holds a record.
Then the same record is held by every text that spells what drift makes of the members: in any other
order, laid out with any white space and any escapes, with members of other names among them that
hold anything, and without members that hold what a missing one stands for.  But a text holds no
record in which a member of a known name occurs once more, whatever it holds there, or from which a
member of the identity or the creation time was taken away, or in which anything but white space
follows the object. -/
theorem parse_tolerates_drift {s : String} {r : Record} (hspelled : (Tree.object ms).SpelledBy s)
    (hparse : parse? s = some r) :
    (∀ ms' s', Drift ms ms' → (Tree.object ms').SpelledBy s' → parse? s' = some r) ∧
    (∀ before after name x s', ms = before ++ after → name ∈ fieldNames →
      (∃ y, (some name, y) ∈ ms) →
        (Tree.object (before ++ (some name, x) :: after)).SpelledBy s' → parse? s' = none) ∧
    (∀ before after name x s', ms = before ++ (some name, x) :: after → name ∈ requiredNames →
      (Tree.object (before ++ after)).SpelledBy s' → parse? s' = none) ∧
    ∀ extra : String, (∃ c ∈ extra.toList, isSpace c = false) → parse? (s ++ extra) = none := by
  have hread : read (.object ms) = some r := (parse_of_spelledBy hspelled).symm.trans hparse
  refine ⟨fun ms' s' hdrift hs' => ?_, fun before after name x s' hms hname hmem hs' => ?_,
    fun before after name x s' hms hname hs' => ?_, fun extra hextra => ?_⟩
  · rw [parse_of_spelledBy hs']
    exact read_of_drift hdrift hread
  · obtain ⟨y, hy⟩ := hmem
    rw [parse_of_spelledBy hs']
    exact read_repeated hname (hms ▸ hy)
  · rw [parse_of_spelledBy hs']
    exact read_incomplete (hms ▸ tidy_of_read hread) hname
  · have hlast : (Tree.object ms).tokens =
        (.openBrace :: Tree.memberTokens ms) ++ [.closeBrace] := rfl
    rw [parse?, Tree.ofString_append_eq_none hspelled hlast rfl hextra]
    rfl

/-- A record as an early writer wrote it. -/
def olderMembers : List (String × Json) :=
  [("sourceIdentifier", .text "s"), ("partitionType", .text "t"), ("partitionKey", .text "k"),
   ("createdAt", .text "1970-01-01T00:00:00Z"), ("readOnly", .bool false)]

/-- The same one from a writer that knows of notes and leaves out what it need not say. -/
def newerMembers : List (String × Json) :=
  [("createdAt", .text "1970-01-01T00:00:00Z"), ("note", .array [.null, .object []]),
   ("partitionKey", .text "k"), ("partitionType", .text "t"), ("sourceIdentifier", .text "s")]

theorem drift_newer : Drift (membersToTree olderMembers) (membersToTree newerMembers) := by
  have hreduced : Drift (membersToTree olderMembers) (membersToTree (olderMembers.take 4)) :=
    @Drift.reduced (membersToTree (olderMembers.take 4)) [] ("readOnly", .bool false)
      (by simp [absentValues])
  have hreordered : Drift (membersToTree (olderMembers.take 4))
      (membersToTree (olderMembers.take 4)).reverse := .reordered (List.reverse_perm _).symm
  have hextended : Drift (membersToTree (olderMembers.take 4)).reverse
      (membersToTree newerMembers) :=
    @Drift.extended (membersToTree (newerMembers.take 1)) (membersToTree (newerMembers.drop 2))
      "note" (by decide) (.array [.null, .object []])
  exact (hreduced.trans hreordered).trans hextended

/-- What the later writer wrote is the same record, and neither text may go on. -/
theorem parse_tolerates_drift_newer :
    ∃ r, parse? (Json.print (.object olderMembers)) = some r ∧
      parse? (Json.print (.object newerMembers)) = some r ∧
      parse? (Json.print (.object olderMembers) ++ " more") = none := by
  have hexact : Exact (.object olderMembers) := by simp [olderMembers, Exact, MembersExact]
  have hexact' : Exact (.object newerMembers) := by
    simp [newerMembers, Exact, MembersExact, ItemsExact]
  have holder := Tree.spelledBy_print hexact
  have hread : (read (Tree.object (membersToTree olderMembers))).isSome = true := by decide +kernel
  obtain ⟨r, hr⟩ := Option.isSome_iff_exists.mp hread
  have hparse := (parse_of_spelledBy holder).trans hr
  obtain ⟨hdrift, -, -, hmore⟩ := parse_tolerates_drift holder hparse
  exact ⟨r, hparse, hdrift _ _ drift_newer (Tree.spelledBy_print hexact'),
    hmore " more" ⟨'m', by decide, rfl⟩⟩

end LeasedWork.Record
