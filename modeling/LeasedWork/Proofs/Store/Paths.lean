import LeasedWork.Store.ObjectPath
import Mathlib.Data.List.Basic

/-! # Paths tell records apart

A segment can be decoded, so different texts have different segments (`Percent.encode_injective`).
A path is built from its root one segment at a time, and the last step can be undone
(`ObjectPath.child_inj`), although the empty text adds nothing to the empty path.  Hence below one
root no two records share a path (`ObjectPath.ofRecord_inj`), and the path of a record lies below
that of its source and kind (`ObjectPath.isAbove_ofRecord`), which is how a listing finds it.
-/
namespace LeasedWork

namespace Percent

theorem hexValue_hexDigit {n : Nat} (h : n < 16) : hexValue? (hexDigit n) = some n := by
  have hall : ∀ n < 16, hexValue? (hexDigit n) = some n := by decide
  exact hall n h

/-- A byte that stands for itself is a character below 127 and no percent sign. -/
theorem toNat_of_isKept {b : UInt8} (h : isKept b = true) :
    Char.ofNat b.toNat ≠ '%' ∧ (Char.ofNat b.toNat).toNat = b.toNat ∧ b.toNat < 127 := by
  have hall : ∀ n < 127, isKept (UInt8.ofNat n) = true →
      Char.ofNat n ≠ '%' ∧ (Char.ofNat n).toNat = n := by decide
  have hlt : b.toNat < 127 := by
    simp only [isKept, Bool.and_eq_true, decide_eq_true_eq] at h
    exact h.1.2
  obtain ⟨hne, hval⟩ := hall b.toNat hlt (by rwa [UInt8.ofNat_toNat])
  exact ⟨hne, hval, hlt⟩

theorem decode_cons {c : Char} (h : c ≠ '%') (hlt : c.toNat < 127) (rest : List Char) :
    decode (c :: rest) = (decode rest).map (UInt8.ofNat c.toNat :: ·) := by
  rw [decode]
  · cases decode rest with
    | none => rfl
    | some bs => simp [h, Nat.not_le.mpr hlt]
  · rintro a b rest rfl
    exact absurd rfl h

theorem decode_escaped (b : UInt8) (rest : List Char) :
    decode (escaped b ++ rest) = (decode rest).map (b :: ·) := by
  have hb : b.toNat < 256 := b.toNat_lt
  have hhigh : hexValue? (hexDigit (b.toNat / 16)) = some (b.toNat / 16) :=
    hexValue_hexDigit (by omega)
  have hlow : hexValue? (hexDigit (b.toNat % 16)) = some (b.toNat % 16) :=
    hexValue_hexDigit (by omega)
  have hvalue : UInt8.ofNat (16 * (b.toNat / 16) + b.toNat % 16) = b := by
    rw [Nat.div_add_mod, UInt8.ofNat_toNat]
  simp only [escaped, List.cons_append, List.nil_append, decode, hhigh, hlow,
    Option.bind_eq_bind, Option.bind_some, hvalue]
  cases decode rest <;> rfl

theorem decode_encodeByte (b : UInt8) (rest : List Char) :
    decode (encodeByte b ++ rest) = (decode rest).map (b :: ·) := by
  unfold encodeByte
  by_cases h : isKept b = true
  · obtain ⟨hne, hval, hlt⟩ := toNat_of_isKept h
    rw [if_pos h, List.cons_append, List.nil_append, decode_cons hne (by rwa [hval]), hval,
      UInt8.ofNat_toNat]
  · rw [if_neg h, decode_escaped]

/-- Bytes are read back from any writing that can be undone byte by byte. -/
theorem decode_flatMap {write : UInt8 → List Char}
    (h : ∀ b rest, decode (write b ++ rest) = (decode rest).map (b :: ·)) (bs : List UInt8) :
    decode (bs.flatMap write) = some bs := by
  induction bs with
  | nil => rfl
  | cons b rest ih => rw [List.flatMap_cons, h, ih, Option.map_some]

/-- **A segment stands for exactly the bytes of its text.** -/
theorem decode_encode (s : String) : decode (encode s).toList = some (bytes s) := by
  unfold encode
  split
  · rw [String.toList_ofList, decode_flatMap decode_escaped]
  · rw [String.toList_ofList, encodeBytes, decode_flatMap decode_encodeByte]

theorem bytes_injective : Function.Injective bytes := by
  intro s t h
  rw [bytes, bytes, Array.toList_inj] at h
  exact String.toByteArray_inj.mp (ByteArray.ext h)

theorem encode_injective : Function.Injective encode := by
  intro s t h
  have hbytes := decode_encode s
  rw [h, decode_encode] at hbytes
  exact bytes_injective (Option.some.inj hbytes.symm)

end Percent

namespace ObjectPath

theorem child_of_eq_root {p : ObjectPath} (hp : p.segments = []) : p.child "" = p :=
  if_pos ⟨hp, rfl⟩

theorem segments_child {p : ObjectPath} {name : String} (h : ¬ (p.segments = [] ∧ name = "")) :
    (p.child name).segments = p.segments ++ [Percent.encode name] := by
  rw [child, if_neg h]

theorem child_ne_root {p : ObjectPath} {name : String} (h : ¬ (p.segments = [] ∧ name = "")) :
    (p.child name).segments ≠ [] := by
  rw [segments_child h]
  exact List.append_ne_nil_of_right_ne_nil _ (List.cons_ne_nil _ _)

/-- **The last step down a path can be undone**, whatever lies above it. -/
theorem child_inj {p q : ObjectPath} {a b : String} (h : p.child a = q.child b) :
    p = q ∧ a = b := by
  by_cases ha : p.segments = [] ∧ a = "" <;> by_cases hb : q.segments = [] ∧ b = ""
  · obtain ⟨⟨hp, rfl⟩, hq, rfl⟩ := And.intro ha hb
    rw [child_of_eq_root hp, child_of_eq_root hq] at h
    exact ⟨h, rfl⟩
  · obtain ⟨hp, rfl⟩ := ha
    rw [child_of_eq_root hp] at h
    exact absurd (h ▸ hp) (child_ne_root hb)
  · obtain ⟨hq, rfl⟩ := hb
    rw [child_of_eq_root hq] at h
    exact absurd (h.symm ▸ hq) (child_ne_root ha)
  · have hsegments := congrArg segments h
    rw [segments_child ha, segments_child hb] at hsegments
    obtain ⟨habove, hlast⟩ := List.append_inj' hsegments rfl
    refine ⟨?_, Percent.encode_injective (List.cons.inj hlast).1⟩
    cases p; cases q
    exact congrArg ObjectPath.mk habove

theorem fileName_ne_empty (key : String) : key ++ ".json" ≠ "" := by
  intro h
  have hlength := congrArg String.length h
  rw [String.length_append] at hlength
  exact absurd hlength (by simp)

/-- **Below one root every record has a path of its own.** -/
theorem ofRecord_inj {root : ObjectPath} {a b : RecordId} :
    ofRecord root a = ofRecord root b ↔ a = b := by
  refine ⟨fun h => ?_, fun h => h ▸ rfl⟩
  obtain ⟨hkinds, hname⟩ := child_inj h
  obtain ⟨hsources, hkind⟩ := child_inj hkinds
  obtain ⟨-, hsource⟩ := child_inj hsources
  have hkey : a.key = b.key := (String.append_left_inj ".json").mp hname
  cases a; cases b
  simp_all

/-- **A listing of a source and kind shows every record of them.** -/
theorem isAbove_ofRecord (root : ObjectPath) (id : RecordId) :
    (ofKind root id.source id.kind).isAbove (ofRecord root id) = true := by
  have h : ¬ ((ofKind root id.source id.kind).segments = [] ∧ id.key ++ ".json" = "") :=
    fun h => fileName_ne_empty id.key h.2
  rw [isAbove, ofRecord, segments_child h, Bool.and_eq_true, List.isPrefixOf_iff_prefix,
    decide_eq_true_eq, List.length_append]
  exact ⟨List.prefix_append _ _, Nat.lt_succ_self _⟩

end ObjectPath

end LeasedWork
