import LeasedWork.Partition.BuiltIn
import LeasedWork.Proofs.Text.Numerals
import Mathlib.Tactic.SplitIfs

/-! # Keys read back

The key of a snapshot says its collection, its size and its time in milliseconds, and all three are
read back from it (`SnapshotId.readKey_key`), whatever the collection's name is: numerals hold no
separator, so the last two separators are those that the key was put together with.  The time comes
back as it is when it has no part below a millisecond (`Instant.Whole`).  The key of a query is
taken apart at its first separator, so it is read back when the collection's name holds none
(`QueryId.readKey_key`); in any case, the queries of one collection have different keys.
-/
namespace LeasedWork

/-! ## Milliseconds -/

namespace Instant

theorem millis_range (t : Instant) :
    Int64.minValue.toInt ≤ t.millis ∧ t.millis ≤ Int64.maxValue.toInt := by
  have hge := t.second_ge
  have hle := t.second_le
  have hnano := t.nano_lt
  have hmin : Int64.minValue.toInt = -9223372036854775808 := rfl
  have hmax : Int64.maxValue.toInt = 9223372036854775807 := rfl
  rw [hmin, hmax, millis]
  unfold nanosPerSecond at hnano
  unfold nanosPerMilli
  omega

/-- Milliseconds fit into 64 bits. -/
theorem toInt_millis (t : Instant) : (Int64.ofInt t.millis).toInt = t.millis :=
  Int64.toInt_ofInt_of_le t.millis_range.1 (Int.lt_of_le_sub_one t.millis_range.2)

theorem millis_of_ofMillis {ms : Int} {t : Instant} (h : ofMillis? ms = some t) :
    t.millis = ms := by
  unfold ofMillis? ofNanos? ofParts? at h
  split at h
  · cases h
    unfold millis nanosPerMilli nanosPerSecond
    dsimp only
    omega
  · cases h

/-- Nothing of the time lies below a millisecond. -/
def Whole (t : Instant) : Prop := ofMillis? t.millis = some t

theorem whole_of_ofMillis {ms : Int} {t : Instant} (h : ofMillis? ms = some t) : t.Whole := by
  rw [Whole, millis_of_ofMillis h, h]

/-- Milliseconds stand for no leap second. -/
theorem Whole.civil {t : Instant} (h : t.Whole) : t.Civil := by
  intro hleap
  have hge : nanosPerSecond ≤ t.nano := of_decide_eq_true hleap
  unfold Whole ofMillis? ofNanos? ofParts? at h
  obtain ⟨_, ht⟩ := Option.dite_none_right_eq_some.mp h
  have hnano := congrArg Instant.nano (Option.some.inj ht)
  have hlt := Int.emod_lt_of_pos (t.millis * nanosPerMilli)
    (show (0 : Int) < nanosPerSecond by decide)
  dsimp only at hnano
  omega

end Instant

/-! ## Numerals -/

namespace Decimal

theorem le_valueFrom (acc : Nat) (cs : List Char) : acc ≤ valueFrom acc cs := by
  induction cs generalizing acc with
  | nil => exact Nat.le_refl acc
  | cons c cs ih =>
    have hnext : valueFrom acc (c :: cs) = valueFrom (10 * acc + digitValue c) cs := rfl
    have hle := ih (10 * acc + digitValue c)
    rw [hnext]
    omega

theorem readBelow_digits {bound acc : Nat} {cs : List Char} (hcs : ∀ c ∈ cs, isDigit c = true)
    (h : valueFrom acc cs < bound) : readBelow bound acc cs = .ok (valueFrom acc cs) := by
  induction cs generalizing acc with
  | nil => rfl
  | cons c cs ih =>
    obtain ⟨hc, hrest⟩ := List.forall_mem_cons.mp hcs
    have hnext : valueFrom acc (c :: cs) = valueFrom (10 * acc + digitValue c) cs := rfl
    rw [hnext] at h ⊢
    have hle := le_valueFrom (10 * acc + digitValue c) cs
    rw [readBelow, if_pos hc, if_pos (Nat.lt_of_le_of_lt hle h), ih hrest h]

theorem readBelow_natChars {bound n : Nat} (h : n < bound) :
    readBelow bound 0 (natChars n) = .ok n := by
  have hvalue : valueFrom 0 (natChars n) = n := value_natChars n
  rw [readBelow_digits (fun _ => isDigit_of_mem_natChars) (hvalue.symm ▸ h), hvalue]

/-- A numeral begins with a digit, so it has no sign. -/
theorem natChars_eq_cons (n : Nat) : ∃ c cs, natChars n = c :: cs ∧ c ≠ '+' ∧ c ≠ '-' := by
  cases h : natChars n with
  | nil => exact absurd h (natChars_ne_nil n)
  | cons c cs =>
    have hc : isDigit c = true := isDigit_of_mem_natChars (h ▸ List.mem_cons_self)
    refine ⟨c, cs, rfl, ?_, ?_⟩ <;> rintro rfl <;> cases hc

theorem readUnsigned_natChars {bound n : Nat} (h : n < bound) :
    readUnsigned bound (natChars n) = .ok n := by
  obtain ⟨c, cs, hcs, hplus, -⟩ := natChars_eq_cons n
  have hread := readBelow_natChars h
  rw [hcs] at hread ⊢
  unfold readUnsigned
  split
  · cases ‹c :: cs = []›
  · exact absurd (List.cons.inj ‹c :: cs = ['+']›).1 hplus
  · exact absurd (List.cons.inj ‹c :: cs = '+' :: _›).1 hplus
  · exact hread

theorem readWord_natChars (n : UInt64) : readWord (natChars n.toNat) = .ok n := by
  rw [readWord, readUnsigned_natChars n.toNat_lt_size, Except.map, UInt64.ofNat_toNat]

theorem readInt64_intChars {i : Int}
    (h : Int64.minValue.toInt ≤ i ∧ i ≤ Int64.maxValue.toInt) :
    readInt64? (intChars i) = some (Int64.ofInt i) := by
  have hmin : Int64.minValue.toInt.natAbs = 9223372036854775808 := rfl
  have hmin' : Int64.minValue.toInt = -9223372036854775808 := rfl
  have hmax : Int64.maxValue.toInt = 9223372036854775807 := rfl
  -- The branch is told by the first character, which is a minus sign for the negative numbers only.
  cases i with
  | ofNat n =>
    obtain ⟨c, cs, hcs, -, hminus⟩ := natChars_eq_cons n
    have hle : (n : Int) ≤ Int64.maxValue.toInt := h.2
    have hread : readUnsigned Int64.minValue.toInt.natAbs (natChars n) = .ok n :=
      readUnsigned_natChars (by rw [hmin]; omega)
    rw [intChars, hcs] at *
    unfold readInt64?
    split
    · exact absurd (List.cons.inj ‹c :: cs = ['-']›).1 hminus
    · exact absurd (List.cons.inj ‹c :: cs = '-' :: _›).1 hminus
    · rw [hread]
      rfl
  | negSucc n =>
    obtain ⟨c, cs, hcs, -, -⟩ := natChars_eq_cons (n + 1)
    have hread : readBelow (Int64.minValue.toInt.natAbs + 1) 0 (natChars (n + 1)) = .ok (n + 1) :=
      readBelow_natChars (by rw [hmin]; omega)
    rw [intChars, hcs] at *
    unfold readInt64?
    split
    · rename_i hlone
      cases (List.cons.inj hlone).2
    · rename_i rest _ hsigned
      obtain rfl := (List.cons.inj hsigned).2
      rw [hread]
      rfl
    · rename_i hplain
      exact absurd rfl (hplain _)

end Decimal

/-! ## Keys -/

namespace Key

theorem bne_of_notMem {cs : List Char} (h : keySeparator ∉ cs) :
    ∀ c ∈ cs, (c != keySeparator) = true := by
  intro c hc
  rw [bne_iff_ne]
  rintro rfl
  exact h hc

theorem takeWhile_append {before : List Char} (h : keySeparator ∉ before) (after : List Char) :
    (before ++ keySeparator :: after).takeWhile (· != keySeparator) = before := by
  rw [List.takeWhile_append_of_pos (bne_of_notMem h), List.takeWhile_cons_of_neg (by simp),
    List.append_nil]

theorem splitFirst_append {before after : List Char} (h : keySeparator ∉ before) :
    splitFirst? (before ++ keySeparator :: after) = some (before, after) := by
  rw [splitFirst?, takeWhile_append h, List.dropWhile_append_of_pos (bne_of_notMem h),
    List.dropWhile_cons_of_neg (by simp)]

/-- What stands before the first separator, wherever that is. -/
theorem fst_splitFirst (before after : List Char) : ∃ rest,
    splitFirst? (before ++ keySeparator :: after) =
      some (before.takeWhile (· != keySeparator), rest) := by
  by_cases h : keySeparator ∈ before
  · obtain ⟨front, back, rfl, hfront⟩ := List.eq_append_cons_of_mem h
    rw [takeWhile_append hfront, List.append_assoc]
    exact ⟨_, splitFirst_append hfront⟩
  · rw [List.takeWhile_eq_self_iff.mpr (bne_of_notMem h)]
    exact ⟨after, splitFirst_append h⟩

theorem splitLast_append {before after : List Char} (h : keySeparator ∉ after) :
    splitLast? (before ++ keySeparator :: after) = some (before, after) := by
  have hrev : (before ++ keySeparator :: after).reverse =
      after.reverse ++ keySeparator :: before.reverse := by simp
  rw [splitLast?, hrev, splitFirst_append (fun hmem => h (List.mem_reverse.mp hmem)),
    Option.map_some]
  dsimp only
  rw [List.reverse_reverse, List.reverse_reverse]

end Key

theorem separator_notMem_natChars (n : Nat) : keySeparator ∉ Decimal.natChars n :=
  fun h => nomatch Decimal.isDigit_of_mem_natChars h

theorem separator_notMem_intChars (i : Int) : keySeparator ∉ Decimal.intChars i := by
  cases i with
  | ofNat n => exact separator_notMem_natChars n
  | negSucc n =>
    intro h
    rcases List.mem_cons.mp h with heq | hmem
    · cases heq
    · exact separator_notMem_natChars _ hmem

/-- The parts of a snapshot's key, with separators between them. -/
theorem SnapshotId.key_eq (i : SnapshotId) :
    i.key = i.collection ++ "|" ++ toString i.size.toNat ++ "|" ++ toString i.time.millis := by
  rw [key, keyChars, ← Decimal.ofList_natChars, ← Decimal.ofList_intChars]
  apply String.toList_injective
  simp [keySeparator]

/-- **A snapshot's key reads back.** -/
theorem SnapshotId.readKey_key (i : SnapshotId) (h : i.time.Whole) : readKey i.key = .ok i := by
  have hmillis : (Decimal.readInt64? (Decimal.intChars i.time.millis)).bind
      (fun ms => Instant.ofMillis? ms.toInt) = some i.time := by
    rw [Decimal.readInt64_intChars i.time.millis_range, Option.bind_some, i.time.toInt_millis, h]
  have hchars : i.key.toList = (i.collection.toList ++ keySeparator ::
      Decimal.natChars i.size.toNat) ++ keySeparator :: Decimal.intChars i.time.millis := by
    rw [key, String.toList_ofList, keyChars, List.append_assoc, List.cons_append]
  rw [readKey, hchars, Key.splitLast_append (separator_notMem_intChars _)]
  dsimp only
  rw [Key.splitLast_append (separator_notMem_natChars _)]
  dsimp only
  rw [Decimal.readWord_natChars]
  dsimp only
  rw [hmillis, String.ofList_toList]
  rfl

namespace QueryId

/-- **A query's key reads back**, unless the collection's name holds a separator. -/
theorem readKey_key (i : QueryId) (h : keySeparator ∉ i.collection.toList) :
    readKey i.key = .ok i := by
  rw [readKey, key, String.toList_ofList, keyChars, Key.splitFirst_append h]
  dsimp only
  rw [String.ofList_toList, String.ofList_toList]
  rfl

/-- In any case, the part of the name before a separator is read back. -/
theorem readKey_takeWhile (i : QueryId) : ∃ j, readKey i.key = .ok j ∧
    j.collection = String.ofList (i.collection.toList.takeWhile (· != keySeparator)) := by
  obtain ⟨rest, hsplit⟩ := Key.fst_splitFirst i.collection.toList i.query.toList
  rw [readKey, key, String.toList_ofList, keyChars, hsplit]
  exact ⟨_, rfl, rfl⟩

theorem key_injective {collection query query' : String}
    (h : key ⟨collection, query⟩ = key ⟨collection, query'⟩) : query = query' := by
  have hchars : keyChars ⟨collection, query⟩ = keyChars ⟨collection, query'⟩ :=
    String.ofList_injective h
  rw [keyChars, keyChars, List.append_cancel_left_eq, List.cons.injEq] at hchars
  exact String.toList_injective hchars.2

end QueryId

namespace PartitionKind

theorem identify_snapshot (i : SnapshotId) (h : i.time.Whole) :
    snapshotKind.identify (snapshotKind.key i) = .ok i := by
  dsimp only
  exact i.readKey_key h

theorem identify_query (i : QueryId) (h : keySeparator ∉ i.collection.toList) :
    queryKind.identify (queryKind.key i) = .ok i := by
  dsimp only
  exact i.readKey_key h

end PartitionKind

end LeasedWork
