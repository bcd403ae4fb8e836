import LeasedWork.Proofs.Partition.Keys

/-! # The keys that are read

Which texts are keys of a built-in kind is said here by how they are spelled, and not by how they
are read (`Key.Fits`): an unsigned numeral may have a plus sign before its digits, a signed one
either sign, and both may have zeros in front.  The reader takes just these
(`Key.exists_identify_iff`).

A key may therefore be spelled in several ways.  Whatever the reader has found in one of them, it
finds in the key that is written for it (`BuiltIn.identify_key`).
-/
namespace LeasedWork

/-! ## Numerals -/

namespace Decimal

/-- Digits, one at least, that stand for a number. -/
structure Spells (cs : List Char) (n : Nat) : Prop where
  nonempty : cs ≠ []
  digits : ∀ c ∈ cs, isDigit c = true
  value : value cs = n

/-- An unsigned numeral. -/
inductive Unsigned : List Char → Nat → Prop
  | plain {cs : List Char} {n : Nat} (h : Spells cs n) : Unsigned cs n
  | plus {cs : List Char} {n : Nat} (h : Spells cs n) : Unsigned ('+' :: cs) n

/-- A signed numeral. -/
inductive Signed : List Char → Int → Prop
  | unsigned {cs : List Char} {n : Nat} (h : Unsigned cs n) : Signed cs n
  | minus {cs : List Char} {n : Nat} (h : Spells cs n) : Signed ('-' :: cs) (-n)

variable {bound acc n : Nat} {cs : List Char}

/-- What is read are digits, and their value stays below the bound. -/
theorem of_readBelow (hacc : acc < bound) (h : readBelow bound acc cs = .ok n) :
    (∀ c ∈ cs, isDigit c = true) ∧ valueFrom acc cs = n ∧ n < bound := by
  induction cs generalizing acc with
  | nil =>
    cases h
    exact ⟨List.forall_mem_nil _, rfl, hacc⟩
  | cons c cs ih =>
    rw [readBelow] at h
    split at h
    · rename_i hdigit
      split at h
      · rename_i hlt
        obtain ⟨hdigits, hvalue, hn⟩ := ih hlt h
        exact ⟨List.forall_mem_cons.mpr ⟨hdigit, hdigits⟩, hvalue, hn⟩
      · cases h
    · cases h

theorem readBelow_eq_ok_iff (hbound : 0 < bound) (hcs : cs ≠ []) :
    readBelow bound 0 cs = .ok n ↔ Spells cs n ∧ n < bound := by
  constructor
  · intro h
    obtain ⟨hdigits, hvalue, hn⟩ := of_readBelow hbound h
    exact ⟨⟨hcs, hdigits, hvalue⟩, hn⟩
  · rintro ⟨⟨-, hdigits, rfl⟩, hn⟩
    exact readBelow_digits hdigits hn

/-- A numeral begins with a digit, and no sign is one. -/
theorem Spells.head {c : Char} (h : Spells (c :: cs) n) : isDigit c = true :=
  h.digits c List.mem_cons_self

/-- **An unsigned numeral is read** if its value stays below the bound, and nothing else is. -/
theorem readUnsigned_eq_ok_iff (hbound : 0 < bound) :
    readUnsigned bound cs = .ok n ↔ Unsigned cs n ∧ n < bound := by
  constructor
  · intro h
    unfold readUnsigned at h
    split at h
    · cases h
    · cases h
    · rename_i ds hne
      obtain ⟨hspells, hn⟩ := (readBelow_eq_ok_iff hbound fun hnil => hne (hnil ▸ rfl)).mp h
      exact ⟨.plus hspells, hn⟩
    · rename_i hne _ _
      obtain ⟨hspells, hn⟩ := (readBelow_eq_ok_iff hbound hne).mp h
      exact ⟨.plain hspells, hn⟩
  · rintro ⟨hcs, hn⟩
    cases hcs with
    | plain h =>
      unfold readUnsigned
      split
      · exact absurd rfl h.nonempty
      · exact absurd h.head (by decide)
      · exact absurd h.head (by decide)
      · exact (readBelow_eq_ok_iff hbound h.nonempty).mpr ⟨h, hn⟩
    | @plus ds _ h =>
      obtain ⟨c, ds, rfl⟩ := List.exists_cons_of_ne_nil h.nonempty
      exact (readBelow_eq_ok_iff hbound h.nonempty).mpr ⟨h, hn⟩

theorem readWord_eq_ok_iff {w : UInt64} : readWord cs = .ok w ↔ Unsigned cs w.toNat := by
  rw [readWord]
  constructor
  · intro h
    cases hread : readUnsigned UInt64.size cs with
    | error fault =>
      rw [hread] at h
      cases h
    | ok n =>
      rw [hread] at h
      cases h
      obtain ⟨hcs, hn⟩ := (readUnsigned_eq_ok_iff (by decide)).mp hread
      rwa [UInt64.toNat_ofNat_of_lt' hn]
  · intro h
    rw [(readUnsigned_eq_ok_iff (by decide)).mpr ⟨h, w.toNat_lt_size⟩, Except.map,
      UInt64.ofNat_toNat]

/-- **A signed numeral is read** if its value fits into 64 bits, and nothing else is. -/
theorem readInt64_eq_some_iff {m : Int} : (∃ i, readInt64? cs = some i ∧ i.toInt = m) ↔
    Signed cs m ∧ Int64.minValue.toInt ≤ m ∧ m ≤ Int64.maxValue.toInt := by
  have hmin : Int64.minValue.toInt = -9223372036854775808 := rfl
  have hmax : Int64.maxValue.toInt = 9223372036854775807 := rfl
  have habs : Int64.minValue.toInt.natAbs = 9223372036854775808 := rfl
  constructor
  · rintro ⟨i, h, rfl⟩
    refine ⟨?_, i.minValue_le_toInt, i.toInt_le⟩
    unfold readInt64? at h
    split at h
    · cases h
    · rename_i ds hne
      cases hread : readBelow (Int64.minValue.toInt.natAbs + 1) 0 ds with
      | error fault =>
        rw [hread] at h
        cases h
      | ok n =>
        rw [hread] at h
        cases h
        obtain ⟨hspells, hn⟩ :=
          (readBelow_eq_ok_iff (by decide) fun hnil => hne (hnil ▸ rfl)).mp hread
        rw [Int64.toInt_ofInt_of_le (by omega) (by omega)]
        exact .minus hspells
    · cases hread : readUnsigned Int64.minValue.toInt.natAbs cs with
      | error fault =>
        rw [hread] at h
        cases h
      | ok n =>
        rw [hread] at h
        cases h
        obtain ⟨hunsigned, hn⟩ := (readUnsigned_eq_ok_iff (by decide)).mp hread
        rw [Int64.toInt_ofInt_of_le (by omega) (by omega)]
        exact .unsigned hunsigned
  · rintro ⟨hsigned, hlow, hhigh⟩
    refine ⟨Int64.ofInt m, ?_, Int64.toInt_ofInt_of_le hlow (Int.lt_of_le_sub_one hhigh)⟩
    cases hsigned with
    | @unsigned _ n h =>
      have hread : readUnsigned Int64.minValue.toInt.natAbs cs = .ok n :=
        (readUnsigned_eq_ok_iff (by decide)).mpr ⟨h, by omega⟩
      -- No unsigned numeral begins with a minus sign, so that the last branch is the one taken.
      have hminus : ∀ ds, cs ≠ '-' :: ds := by
        rintro ds rfl
        cases h with
        | plain h => exact absurd h.head (by decide)
      unfold readInt64?
      split
      · exact absurd rfl (hminus [])
      · exact absurd rfl (hminus _)
      · rw [hread]
        rfl
    | @minus ds n h =>
      obtain ⟨c, ds, rfl⟩ := List.exists_cons_of_ne_nil h.nonempty
      have hread : readBelow (Int64.minValue.toInt.natAbs + 1) 0 (c :: ds) = .ok n :=
        (readBelow_eq_ok_iff (by decide) h.nonempty).mpr ⟨h, by omega⟩
      rw [readInt64?, hread]
      · rfl
      · rintro ⟨⟩

theorem natChars_injective : Function.Injective natChars := by
  intro m n h
  rw [← value_natChars m, h, value_natChars]

/-- Numerals hold no separator. -/
theorem Spells.separator_notMem (h : Spells cs n) : keySeparator ∉ cs :=
  fun hmem => nomatch h.digits _ hmem

theorem Unsigned.separator_notMem (h : Unsigned cs n) : keySeparator ∉ cs := by
  cases h with
  | plain h => exact h.separator_notMem
  | plus h => exact List.not_mem_cons_of_ne_of_not_mem (by decide) h.separator_notMem

theorem Signed.separator_notMem {m : Int} (h : Signed cs m) : keySeparator ∉ cs := by
  cases h with
  | unsigned h => exact h.separator_notMem
  | minus h => exact List.not_mem_cons_of_ne_of_not_mem (by decide) h.separator_notMem

end Decimal

namespace Instant

/-- The first and the last millisecond of the range. -/
def minMillis : Int := minSecond * 1000

def maxMillis : Int := maxSecond * 1000 + 999

theorem exists_ofMillis_iff {ms : Int} :
    (∃ t, ofMillis? ms = some t) ↔ minMillis ≤ ms ∧ ms ≤ maxMillis := by
  unfold ofMillis? ofNanos? ofParts? minMillis maxMillis minSecond maxSecond nanosPerMilli
    nanosPerSecond
  split
  · simp
    omega
  · simp
    omega

end Instant

/-! ## Keys taken apart -/

namespace Key

variable {cs before after : List Char}

theorem splitFirst_eq_some_iff : splitFirst? cs = some (before, after) ↔
    cs = before ++ keySeparator :: after ∧ keySeparator ∉ before := by
  constructor
  · intro h
    unfold splitFirst? at h
    split at h
    · cases h
    · rename_i c rest hdrop
      cases h
      have hc : c = keySeparator := by
        have hhead := List.head_dropWhile_not (l := cs) (· != keySeparator) (by simp [hdrop])
        simpa [hdrop] using hhead
      refine ⟨?_, fun hmem => ?_⟩
      · have hsplit := List.takeWhile_append_dropWhile (p := (· != keySeparator)) (l := cs)
        rw [hdrop, hc] at hsplit
        exact hsplit.symm
      · simpa using List.mem_takeWhile_imp hmem
  · rintro ⟨rfl, h⟩
    exact splitFirst_append h

theorem splitLast_eq_some_iff : splitLast? cs = some (before, after) ↔
    cs = before ++ keySeparator :: after ∧ keySeparator ∉ after := by
  constructor
  · intro h
    obtain ⟨⟨back, front⟩, hsplit, heq⟩ := Option.map_eq_some_iff.mp h
    cases heq
    obtain ⟨hcs, hback⟩ := splitFirst_eq_some_iff.mp hsplit
    refine ⟨?_, fun hmem => hback (List.mem_reverse.mp hmem)⟩
    rw [← List.reverse_reverse cs, hcs]
    simp
  · rintro ⟨rfl, h⟩
    exact splitLast_append h

end Key

/-! ## The keys of each kind -/

namespace SnapshotId

/-- A spelling of a snapshot's key. -/
def Spelled (cs : List Char) (i : SnapshotId) : Prop :=
  ∃ size millis, cs = i.collection.toList ++ keySeparator :: (size ++ keySeparator :: millis) ∧
    Decimal.Unsigned size i.size.toNat ∧
    ∃ ms, Decimal.Signed millis ms ∧ Instant.ofMillis? ms = some i.time

theorem readMillis_eq_some_iff {cs : List Char} {t : Instant} :
    ((Decimal.readInt64? cs).bind fun ms => Instant.ofMillis? ms.toInt) = some t ↔
      ∃ ms, Decimal.Signed cs ms ∧ Instant.ofMillis? ms = some t := by
  rw [Option.bind_eq_some_iff]
  constructor
  · rintro ⟨i, hread, ht⟩
    exact ⟨i.toInt, (Decimal.readInt64_eq_some_iff.mp ⟨i, hread, rfl⟩).1, ht⟩
  · rintro ⟨ms, hsigned, ht⟩
    -- an instant's milliseconds fit into the 64 bits that the reader has for them
    have hrange := t.millis_range
    rw [Instant.millis_of_ofMillis ht] at hrange
    obtain ⟨i, hread, rfl⟩ := Decimal.readInt64_eq_some_iff.mpr ⟨hsigned, hrange⟩
    exact ⟨i, hread, ht⟩

theorem readKey_eq_ok_iff {key : String} {i : SnapshotId} :
    readKey key = .ok i ↔ Spelled key.toList i := by
  constructor
  · intro h
    unfold readKey at h
    split at h
    · rename_i hlast
      split at h
      · rename_i hfirst
        split at h
        · rename_i hsize
          split at h
          · rename_i htime
            cases h
            obtain ⟨hkey, -⟩ := Key.splitLast_eq_some_iff.mp hlast
            obtain ⟨rfl, -⟩ := Key.splitLast_eq_some_iff.mp hfirst
            refine ⟨_, _, ?_, Decimal.readWord_eq_ok_iff.mp hsize,
              readMillis_eq_some_iff.mp htime⟩
            rw [hkey, String.toList_ofList, List.append_assoc, List.cons_append]
          · cases h
        · cases h
      · cases h
    · cases h
  · rintro ⟨size, millis, hkey, hsize, hmillis⟩
    have hlast : Key.splitLast? key.toList =
        some (i.collection.toList ++ keySeparator :: size, millis) := by
      obtain ⟨ms, hsigned, -⟩ := hmillis
      rw [hkey, ← List.cons_append, ← List.append_assoc,
        Key.splitLast_append hsigned.separator_notMem]
    rw [readKey, hlast]
    dsimp only
    rw [Key.splitLast_append hsize.separator_notMem]
    dsimp only
    rw [Decimal.readWord_eq_ok_iff.mpr hsize]
    dsimp only
    rw [readMillis_eq_some_iff.mpr hmillis, String.ofList_toList]
    rfl

end SnapshotId

theorem QueryId.readKey_eq_ok_iff {key : String} {i : QueryId} : readKey key = .ok i ↔
    key.toList = i.keyChars ∧ keySeparator ∉ i.collection.toList := by
  constructor
  · intro h
    unfold readKey at h
    split at h
    · rename_i hsplit
      cases h
      obtain ⟨hkey, hfirst⟩ := Key.splitFirst_eq_some_iff.mp hsplit
      rw [keyChars, String.toList_ofList, String.toList_ofList]
      exact ⟨hkey, hfirst⟩
    · cases h
  · rintro ⟨hkey, hfirst⟩
    rw [readKey, hkey, keyChars, Key.splitFirst_append hfirst]
    dsimp only
    rw [String.ofList_toList, String.ofList_toList]
    rfl

theorem QueryId.key_eq_key_iff {i j : QueryId} (hi : keySeparator ∉ i.collection.toList)
    (hj : keySeparator ∉ j.collection.toList) : i.key = j.key ↔ i = j := by
  refine ⟨fun h => ?_, fun h => congrArg _ h⟩
  have hread := i.readKey_key hi
  rw [h, j.readKey_key hj, Except.ok.injEq] at hread
  exact hread.symm

/-- The texts that are keys of a built-in kind. -/
def Key.Fits : BuiltIn → String → Prop
  | .leader, key => key = Key.leader
  | .snapshot, key => ∃ (collection size millis : List Char) (n : Nat) (ms : Int),
      key.toList = collection ++ keySeparator :: (size ++ keySeparator :: millis) ∧
      Decimal.Unsigned size n ∧ n < UInt64.size ∧
      Decimal.Signed millis ms ∧ Instant.minMillis ≤ ms ∧ ms ≤ Instant.maxMillis
  | .query, key => keySeparator ∈ key.toList
  | .shared, _ => True
  | .stream, _ => True

/-- **The keys that are read** are those that fit their kind. -/
theorem Key.exists_identify_iff {b : BuiltIn} {key : String} :
    (∃ i, b.kind.identify key = .ok i) ↔ Key.Fits b key := by
  cases b with
  | leader =>
    dsimp only [BuiltIn.kind, Key.Fits]
    rw [Key.readLeader]
    split
    · exact ⟨fun _ => ‹_›, fun _ => ⟨(), rfl⟩⟩
    · exact ⟨fun ⟨_, h⟩ => (nomatch h), fun h => absurd h ‹_›⟩
  | shared => exact ⟨fun _ => trivial, fun _ => ⟨key, rfl⟩⟩
  | stream => exact ⟨fun _ => trivial, fun _ => ⟨key, rfl⟩⟩
  | snapshot =>
    constructor
    · rintro ⟨i, h⟩
      obtain ⟨size, millis, hkey, hsize, ms, hsigned, htime⟩ := SnapshotId.readKey_eq_ok_iff.mp h
      exact ⟨i.collection.toList, size, millis, i.size.toNat, ms, hkey, hsize,
        i.size.toNat_lt_size, hsigned, Instant.exists_ofMillis_iff.mp ⟨i.time, htime⟩⟩
    · rintro ⟨collection, size, millis, n, ms, hkey, hsize, hn, hsigned, hms⟩
      obtain ⟨t, ht⟩ := Instant.exists_ofMillis_iff.mpr hms
      refine ⟨⟨String.ofList collection, UInt64.ofNat n, t⟩, SnapshotId.readKey_eq_ok_iff.mpr
        ⟨size, millis, ?_, ?_, ms, hsigned, ht⟩⟩
      · rw [String.toList_ofList, hkey]
      · rwa [UInt64.toNat_ofNat_of_lt' hn]
  | query =>
    constructor
    · rintro ⟨i, h⟩
      dsimp only [Key.Fits]
      rw [(QueryId.readKey_eq_ok_iff.mp h).1, QueryId.keyChars]
      exact List.mem_append_right _ List.mem_cons_self
    · intro h
      obtain ⟨collection, query, hkey, hfirst⟩ := List.eq_append_cons_of_mem h
      refine ⟨⟨String.ofList collection, String.ofList query⟩,
        QueryId.readKey_eq_ok_iff.mpr ⟨?_, ?_⟩⟩
      · rw [hkey, QueryId.keyChars, String.toList_ofList, String.toList_ofList]
      · rwa [String.toList_ofList]

/-! ## Keys that are written -/

namespace Instant

/-- The instant without what lies below a millisecond. -/
def floorMilli (t : Instant) : Instant where
  second := t.second
  nano := t.nano - t.nano % nanosPerMilli
  second_ge := t.second_ge
  second_le := t.second_le
  nano_lt := Nat.lt_of_le_of_lt (Nat.sub_le _ _) t.nano_lt

/-- A leap second has the milliseconds of the second after it. -/
theorem ofMillis_millis (t : Instant) : ofMillis? t.millis =
    ofParts? (t.second + (t.nano / nanosPerSecond : Nat))
      (t.floorMilli.nano % nanosPerSecond) := by
  unfold ofMillis? ofNanos? millis floorMilli nanosPerMilli nanosPerSecond
  dsimp only
  congr 1 <;> omega

theorem ofMillis_of_not_isLeap {t : Instant} (h : t.isLeap = false) :
    ofMillis? t.millis = some t.floorMilli := by
  have hnano : t.nano < nanosPerSecond := Nat.not_le.mp (of_decide_eq_false h)
  have hfloor : t.floorMilli.nano < nanosPerSecond := Nat.lt_of_le_of_lt (Nat.sub_le _ _) hnano
  rw [ofMillis_millis, Nat.div_eq_of_lt hnano, Nat.mod_eq_of_lt hfloor, Int.natCast_zero,
    Int.add_zero, ofParts?, dif_pos ⟨⟨t.second_ge, t.second_le⟩, t.floorMilli.nano_lt⟩]
  rfl

/-- Within a leap second, the instant that its milliseconds stand for is of the second after it. -/
theorem ofMillis_of_isLeap {t u : Instant} (h : t.isLeap = true)
    (hsecond : u.second = t.second + 1)
    (hnano : u.nano + nanosPerSecond = t.floorMilli.nano) : ofMillis? t.millis = some u := by
  have hu : u.nano < nanosPerSecond := by
    have hlt := t.floorMilli.nano_lt
    omega
  have hdiv : t.nano / nanosPerSecond = 1 := by
    have hge : nanosPerSecond ≤ t.nano := of_decide_eq_true h
    have hlt := t.nano_lt
    unfold nanosPerSecond at *
    omega
  rw [ofMillis_millis, hdiv, ← hnano, Nat.add_mod_right, Nat.mod_eq_of_lt hu, Int.natCast_one,
    ← hsecond, ofParts?, dif_pos ⟨⟨u.second_ge, u.second_le⟩, u.nano_lt⟩]

/-- The milliseconds of the last leap second lie beyond the range. -/
theorem ofMillis_of_latest {t : Instant} (h : t.isLeap = true) (hsecond : t.second = maxSecond) :
    ofMillis? t.millis = none := by
  have hdiv : t.nano / nanosPerSecond = 1 := by
    have hge : nanosPerSecond ≤ t.nano := of_decide_eq_true h
    have hlt := t.nano_lt
    unfold nanosPerSecond at *
    omega
  rw [ofMillis_millis, hdiv, hsecond, ofParts?, dif_neg]
  rintro ⟨⟨-, hle⟩, -⟩
  exact absurd hle (by decide)

end Instant

namespace SnapshotId

/-- A key says no more of a time than its milliseconds. -/
theorem key_with_time (i : SnapshotId) {t : Instant} (h : Instant.ofMillis? i.time.millis = some t) :
    key { i with time := t } = i.key := by
  rw [key, key, keyChars, keyChars, Instant.millis_of_ofMillis h]

theorem readKey_key_of_some (i : SnapshotId) {t : Instant}
    (h : Instant.ofMillis? i.time.millis = some t) : readKey i.key = .ok { i with time := t } := by
  rw [← i.key_with_time h]
  exact readKey_key _ (Instant.whole_of_ofMillis h)

theorem splitLast_key (i : SnapshotId) : Key.splitLast? i.key.toList =
    some (i.collection.toList ++ keySeparator :: Decimal.natChars i.size.toNat,
      Decimal.intChars i.time.millis) := by
  rw [key, String.toList_ofList, keyChars, ← List.cons_append, ← List.append_assoc,
    Key.splitLast_append (separator_notMem_intChars _)]

theorem readKey_key_of_none (i : SnapshotId) (h : Instant.ofMillis? i.time.millis = none) :
    readKey i.key = .error .timeNotMillis := by
  rw [readKey, splitLast_key]
  dsimp only
  rw [Key.splitLast_append (separator_notMem_natChars _)]
  dsimp only
  rw [Decimal.readWord_natChars]
  dsimp only
  rw [Decimal.readInt64_intChars i.time.millis_range, Option.bind_some, i.time.toInt_millis, h]
  rfl

theorem key_eq_key_iff {i j : SnapshotId} : i.key = j.key ↔
    i.collection = j.collection ∧ i.size = j.size ∧ i.time.millis = j.time.millis := by
  constructor
  · intro h
    have hlast := i.splitLast_key
    rw [h, splitLast_key, Option.some.injEq, Prod.mk.injEq] at hlast
    have hfirst : Key.splitLast?
        (i.collection.toList ++ keySeparator :: Decimal.natChars i.size.toNat) =
          some (i.collection.toList, Decimal.natChars i.size.toNat) :=
      Key.splitLast_append (separator_notMem_natChars _)
    rw [← hlast.1, Key.splitLast_append (separator_notMem_natChars _), Option.some.injEq,
      Prod.mk.injEq] at hfirst
    have hmillis := Decimal.readInt64_intChars i.time.millis_range
    rw [← hlast.2, Decimal.readInt64_intChars j.time.millis_range, Option.some.injEq,
      ← Int64.toInt_inj, Instant.toInt_millis, Instant.toInt_millis] at hmillis
    exact ⟨String.toList_injective hfirst.1.symm,
      (UInt64.toNat_inj.mp (Decimal.natChars_injective hfirst.2)).symm, hmillis.symm⟩
  · rintro ⟨hcollection, hsize, hmillis⟩
    rw [key, key, keyChars, keyChars, hcollection, hsize, hmillis]

end SnapshotId

namespace BuiltIn

/-- **Keys that are read can be written again**: what is found in a key, however it is spelled, is
found in the key that is written for it. -/
theorem identify_key {b : BuiltIn} {key : String} {i : b.kind.Identity}
    (h : b.kind.identify key = .ok i) : b.kind.identify (b.kind.key i) = .ok i := by
  cases b with
  | leader => rfl
  | shared => rfl
  | stream => rfl
  | snapshot =>
    obtain ⟨_, _, -, -, ms, -, htime⟩ := SnapshotId.readKey_eq_ok_iff.mp h
    dsimp only
    exact SnapshotId.readKey_key i (Instant.whole_of_ofMillis htime)
  | query =>
    dsimp only
    exact QueryId.readKey_key i (QueryId.readKey_eq_ok_iff.mp h).2

end BuiltIn

namespace Partition

variable {k : PartitionKind} {r : Record} {i : k.Identity}

/-- What a record of a kind is read as when its key is. -/
theorem ofRecord_of_identify (hkind : r.kind = k.tag) (hkey : k.identify r.key = .ok i) :
    ofRecord k r = (readProgress? k r).map fun x => ⟨i, x, some r⟩ := by
  rw [ofRecord, if_neg (not_not_intro hkind), hkey]

theorem identify_of_ofRecord {p : Partition k} (h : ofRecord k r = .ok p) :
    r.kind = k.tag ∧ k.identify r.key = .ok p.identity ∧
      readProgress? k r = .ok p.progress ∧ p.record = some r := by
  unfold ofRecord at h
  split at h
  · cases h
  · rename_i hkind
    split at h
    · cases h
    · rename_i j hkey
      cases hprogress : readProgress? k r with
      | error e =>
        rw [hprogress] at h
        cases h
      | ok x =>
        rw [hprogress] at h
        cases h
        exact ⟨not_not.mp hkind, hkey, rfl, rfl⟩

theorem ofRecord_snapshot {i : SnapshotId} (hkind : r.kind = snapshotKind.tag)
    (hkey : SnapshotId.readKey r.key = .ok i) : ofRecord snapshotKind r =
      (readProgress? snapshotKind r).map fun x => ⟨i, x, some r⟩ := by
  refine ofRecord_of_identify hkind ?_
  dsimp only
  exact hkey

theorem ofRecord_snapshot_of_some {i : SnapshotId} {t : Instant} (hkind : r.kind = snapshotKind.tag)
    (hkey : r.key = snapshotKind.key i) (ht : Instant.ofMillis? i.time.millis = some t) :
    ofRecord snapshotKind r =
      (readProgress? snapshotKind r).map fun x => ⟨{ i with time := t }, x, some r⟩ := by
  refine ofRecord_snapshot hkind ?_
  rw [hkey]
  exact i.readKey_key_of_some ht

theorem ofRecord_snapshot_of_none {i : SnapshotId} (hkind : r.kind = snapshotKind.tag)
    (hkey : r.key = snapshotKind.key i) (ht : Instant.ofMillis? i.time.millis = none) :
    ofRecord snapshotKind r =
      .error (.invalidKey snapshotKind.tag r.key KeyFault.timeNotMillis.message) := by
  have hread : snapshotKind.identify r.key = .error .timeNotMillis := by
    rw [hkey]
    dsimp only
    exact i.readKey_key_of_none ht
  rw [ofRecord, if_neg (not_not_intro hkind), hread]

theorem ofRecord_query {i : QueryId} (hplain : keySeparator ∉ i.collection.toList)
    (hkind : r.kind = queryKind.tag) (hkey : r.key = queryKind.key i) :
    ofRecord queryKind r = (readProgress? queryKind r).map fun x => ⟨i, x, some r⟩ := by
  refine ofRecord_of_identify hkind ?_
  rw [hkey]
  exact PartitionKind.identify_query i hplain

theorem ofRecord_own_key {b : BuiltIn} {p : Partition b.kind} (h : ofRecord b.kind r = .ok p) :
    ofRecord b.kind { r with key := p.key } =
      .ok { p with record := some { r with key := p.key } } := by
  obtain ⟨hkind, hkey, hprogress, -⟩ := identify_of_ofRecord h
  have hread := ofRecord_of_identify (r := { r with key := p.key }) hkind
    (BuiltIn.identify_key hkey)
  have hsame : readProgress? b.kind { r with key := p.key } = readProgress? b.kind r := rfl
  rw [hread, hsame, hprogress]
  rfl

/-- **Keys decode to what they encode.**  A record with a snapshot's key is read as the snapshot
with its time rounded down to the millisecond, whatever the collection is called.  Inside a leap
second the time comes back one second later, for the milliseconds of a leap second are those of the
second after it; the last leap second has none after it, and its key is refused.  A query is read
back when its collection's name holds no separator.  So the keys of two snapshots are the same only
when collection, size and milliseconds are, and the keys of two such queries only when the queries
are.  And a partition that is read from a key in any spelling is read from its own key as well. -/
theorem keys_decode :
    (∀ (i : SnapshotId) (r : Record), r.kind = snapshotKind.tag → r.key = snapshotKind.key i →
      (i.time.isLeap = false → ofRecord snapshotKind r =
        (readProgress? snapshotKind r).map fun x =>
          ⟨{ i with time := i.time.floorMilli }, x, some r⟩) ∧
      (i.time.isLeap = true → ∀ t : Instant, t.second = i.time.second + 1 →
        t.nano + nanosPerSecond = i.time.floorMilli.nano → ofRecord snapshotKind r =
          (readProgress? snapshotKind r).map fun x => ⟨{ i with time := t }, x, some r⟩) ∧
      (i.time.isLeap = true → i.time.second = Instant.maxSecond → ofRecord snapshotKind r =
        .error (.invalidKey snapshotKind.tag r.key KeyFault.timeNotMillis.message))) ∧
    (∀ (i : QueryId) (r : Record), keySeparator ∉ i.collection.toList → r.kind = queryKind.tag →
      r.key = queryKind.key i →
      ofRecord queryKind r = (readProgress? queryKind r).map fun x => ⟨i, x, some r⟩) ∧
    (∀ i j : SnapshotId, snapshotKind.key i = snapshotKind.key j ↔
      i.collection = j.collection ∧ i.size = j.size ∧ i.time.millis = j.time.millis) ∧
    (∀ i j : QueryId, keySeparator ∉ i.collection.toList → keySeparator ∉ j.collection.toList →
      (queryKind.key i = queryKind.key j ↔ i = j)) ∧
    ∀ (b : BuiltIn) (r : Record) (p : Partition b.kind), ofRecord b.kind r = .ok p →
      ofRecord b.kind { r with key := p.key } =
        .ok { p with record := some { r with key := p.key } } := by
  refine ⟨fun i r hkind hkey => ⟨fun hleap => ?_, fun hleap t hsecond hnano => ?_,
    fun hleap hsecond => ?_⟩, fun i r => ofRecord_query, fun i j => SnapshotId.key_eq_key_iff,
    fun i j => QueryId.key_eq_key_iff, fun b r p => ofRecord_own_key⟩
  · exact ofRecord_snapshot_of_some hkind hkey (Instant.ofMillis_of_not_isLeap hleap)
  · exact ofRecord_snapshot_of_some hkind hkey (Instant.ofMillis_of_isLeap hleap hsecond hnano)
  · exact ofRecord_snapshot_of_none hkind hkey (Instant.ofMillis_of_latest hleap hsecond)

/-- A snapshot's record that has no progress. -/
def snapshotRecord (i : SnapshotId) : Record :=
  .unassigned ⟨"s", snapshotKind.tag, snapshotKind.key i⟩ none .epoch

/-- The middle of the second that was inserted before 2017. -/
def leapSecond : Instant := ⟨1483228799, 1500000000, by decide, by decide, by decide⟩

/-- Shortly before 1970. -/
def beforeEpoch : Instant := ⟨-11, 987654321, by decide, by decide, by decide⟩

/-- A query of which the key is `orders|a|b`. -/
def queryRecord : Record := .unassigned ⟨"s", queryKind.tag, "orders|a|b"⟩ none .epoch

/-- A size with a plus sign and zeros, and a time that is minus zero. -/
def respelled : Record := .unassigned ⟨"s", snapshotKind.tag, "|7||+007|-0"⟩ none .epoch

theorem keys_decode_oddKeys :
    ofRecord snapshotKind (snapshotRecord ⟨"|7|", 1, beforeEpoch⟩) =
      .ok ⟨⟨"|7|", 1, beforeEpoch.floorMilli⟩, none,
        some (snapshotRecord ⟨"|7|", 1, beforeEpoch⟩)⟩ ∧
    ofRecord snapshotKind (snapshotRecord ⟨"", 0, leapSecond⟩) =
      .ok ⟨⟨"", 0, ⟨1483228800, 500000000, by decide, by decide, by decide⟩⟩, none,
        some (snapshotRecord ⟨"", 0, leapSecond⟩)⟩ ∧
    ofRecord queryKind queryRecord = .ok ⟨⟨"orders", "a|b"⟩, none, some queryRecord⟩ ∧
    ofRecord snapshotKind { respelled with key := SnapshotId.key ⟨"|7|", 7, .epoch⟩ } =
      .ok ⟨⟨"|7|", 7, .epoch⟩, none,
        some { respelled with key := SnapshotId.key ⟨"|7|", 7, .epoch⟩ }⟩ := by
  refine ⟨?_, ?_, ?_, ?_⟩
  · rw [(keys_decode.1 _ _ rfl rfl).1 rfl]
    rfl
  · rw [(keys_decode.1 _ _ rfl rfl).2.1 rfl
      ⟨1483228800, 500000000, by decide, by decide, by decide⟩ rfl rfl]
    rfl
  · rw [keys_decode.2.1 ⟨"orders", "a|b"⟩ _ (by decide) rfl rfl]
    rfl
  · have hkey : SnapshotId.readKey respelled.key = .ok ⟨"|7|", 7, .epoch⟩ := by decide +kernel
    exact keys_decode.2.2.2.2 .snapshot respelled ⟨_, none, some respelled⟩
      (ofRecord_snapshot rfl hkey)

/-- **A time inside a leap second is not recovered**, not even the millisecond it is in. -/
theorem leapSecond_not_recovered :
    ¬ ∀ (i : SnapshotId) (r : Record), r.kind = snapshotKind.tag → r.key = snapshotKind.key i →
      r.progress = none →
      ∃ p, ofRecord snapshotKind r = .ok p ∧ p.identity = { i with time := i.time.floorMilli } := by
  intro h
  obtain ⟨p, hread, hidentity⟩ := h ⟨"db.orders", 100, leapSecond⟩
    (snapshotRecord ⟨"db.orders", 100, leapSecond⟩) rfl rfl rfl
  have hkey := (identify_of_ofRecord hread).2.1
  rw [hidentity] at hkey
  exact absurd hkey (by decide +kernel)

end Partition

end LeasedWork
