import LeasedWork.Proofs.Partition.Grammars
import LeasedWork.Proofs.Partition.Schemas

/-! # Which records are accepted

A partition of a built-in kind is made of a record just when the record has the kind's tag, a key
that fits it (`Key.Fits`) and no progress or a text that holds what the kind's schema asks for
(`BuiltIn.Reads`).  The three are looked at in this order, and the first that is wrong is what the
failure names (`AnyPartition.accepted`).
-/
namespace LeasedWork

namespace BuiltIn

variable {b : BuiltIn} {tag : String}

theorem ofTag_tag (b : BuiltIn) : ofTag? b.kind.tag = some b := by
  cases b <;> decide

theorem ofTag_eq_some_iff : ofTag? tag = some b ↔ tag = b.kind.tag := by
  constructor
  · intro h
    have hfound := List.find?_some h
    exact (eq_of_beq hfound).symm
  · rintro rfl
    exact ofTag_tag b

/-- Different kinds have different tags. -/
theorem tag_injective {b c : BuiltIn} (h : b.kind.tag = c.kind.tag) : b = c :=
  Option.some.inj ((ofTag_tag b).symm.trans (h ▸ ofTag_tag c))

/-- The progress of a record that a kind can read: none, or the text of a tree that fits. -/
def Reads (b : BuiltIn) : Option String → Prop
  | none => True
  | some text => ∃ t, Json.Tree.ofString? text = some t ∧ b.schema t

end BuiltIn

namespace Partition

variable {b : BuiltIn} {r : Record}

theorem exists_progress_iff {text : String} :
    (∃ x, (Json.Tree.ofString? text).bind b.kind.read = some x) ↔ b.Reads (some text) := by
  constructor
  · rintro ⟨x, h⟩
    obtain ⟨t, ht, hx⟩ := Option.bind_eq_some_iff.mp h
    exact ⟨t, ht, (b.takes_read t).mp ⟨x, hx⟩⟩
  · rintro ⟨t, ht, hschema⟩
    obtain ⟨x, hx⟩ := (b.takes_read t).mpr hschema
    exact ⟨x, Option.bind_eq_some_iff.mpr ⟨t, ht, hx⟩⟩

theorem readProgress_cases (b : BuiltIn) (r : Record) :
    (b.Reads r.progress ∧ ∃ x, readProgress? b.kind r = .ok x) ∨
    (¬ b.Reads r.progress ∧ readProgress? b.kind r = .error .unreadable) := by
  unfold readProgress?
  cases r.progress with
  | none => exact .inl ⟨trivial, none, rfl⟩
  | some text =>
    rw [← exists_progress_iff]
    dsimp only
    split
    · rename_i x hx
      exact .inl ⟨⟨x, hx⟩, some x, rfl⟩
    · rename_i hnone
      refine .inr ⟨?_, rfl⟩
      rintro ⟨x, hx⟩
      exact nomatch hnone.symm.trans hx

/-- What becomes of a record with the tag of a kind: the key is looked at first. -/
theorem ofRecord_cases (hkind : r.kind = b.kind.tag) :
    (Key.Fits b r.key ∧ b.Reads r.progress ∧ ∃ p, ofRecord b.kind r = .ok p) ∨
    (¬ Key.Fits b r.key ∧
      ∃ fault : KeyFault, ofRecord b.kind r = .error (.invalidKey r.kind r.key fault.message)) ∨
    (Key.Fits b r.key ∧ ¬ b.Reads r.progress ∧ ofRecord b.kind r = .error .unreadable) := by
  rw [← Key.exists_identify_iff]
  cases hkey : b.kind.identify r.key with
  | error fault =>
    refine .inr (.inl ⟨fun ⟨_, h⟩ => (nomatch h), fault, ?_⟩)
    rw [Partition.ofRecord, if_neg (not_not_intro hkind), hkey, hkind]
  | ok i =>
    rw [ofRecord_of_identify hkind hkey]
    rcases readProgress_cases b r with ⟨hreads, x, hx⟩ | ⟨hreads, hx⟩
    · exact .inl ⟨⟨i, rfl⟩, hreads, ⟨i, x, some r⟩, by rw [hx]; rfl⟩
    · exact .inr (.inr ⟨⟨i, rfl⟩, hreads, by rw [hx]; rfl⟩)

theorem ofRecord_of_other (hkind : r.kind ≠ b.kind.tag) :
    ofRecord b.kind r = .error (.unknownKind r.kind) := if_pos hkind

end Partition

namespace AnyPartition

variable {b : BuiltIn} {r : Record}

theorem ofRecord_of_tag (hkind : r.kind = b.kind.tag) :
    ofRecord r = (Partition.ofRecord b.kind r).map (mk b) := by
  rw [ofRecord, BuiltIn.ofTag_eq_some_iff.mpr hkind]

theorem ofRecord_of_unknown (hkind : ∀ b : BuiltIn, r.kind ≠ b.kind.tag) :
    ofRecord r = .error (.unknownKind r.kind) := by
  cases htag : BuiltIn.ofTag? r.kind with
  | none => rw [ofRecord, htag]
  | some b => exact absurd (BuiltIn.ofTag_eq_some_iff.mp htag) (hkind b)

/-- A record has one kind at most. -/
theorem exists_tag_iff {P : BuiltIn → Prop} (hkind : r.kind = b.kind.tag) :
    (∃ c : BuiltIn, r.kind = c.kind.tag ∧ P c) ↔ P b := by
  constructor
  · rintro ⟨c, hc, h⟩
    obtain rfl := BuiltIn.tag_injective (hkind.symm.trans hc)
    exact h
  · exact fun h => ⟨b, hkind, h⟩

theorem of_ofRecord {p : AnyPartition} (h : ofRecord r = .ok p) :
    r.kind = p.builtIn.kind.tag ∧ Partition.ofRecord p.builtIn.kind r = .ok p.partition := by
  cases htag : BuiltIn.ofTag? r.kind with
  | none =>
    rw [ofRecord, htag] at h
    cases h
  | some b =>
    have hkind := BuiltIn.ofTag_eq_some_iff.mp htag
    rw [ofRecord_of_tag hkind] at h
    cases hread : Partition.ofRecord b.kind r with
    | error e =>
      rw [hread] at h
      cases h
    | ok q =>
      rw [hread] at h
      cases h
      exact ⟨hkind, hread⟩

/-- **The records that are accepted.**  A partition is made of a record just when the record has the
tag of a built-in kind, a key that fits the kind and a progress that the kind reads; and a failure
names the first of the three that is not so.  What is made is a partition of the record's own kind,
with the record unchanged behind it, and it is what this kind makes of the record; every other kind
refuses it. -/
theorem accepted (r : Record) :
    ((∃ p, ofRecord r = .ok p) ↔
      ∃ b : BuiltIn, r.kind = b.kind.tag ∧ Key.Fits b r.key ∧ b.Reads r.progress) ∧
    (ofRecord r = .error (.unknownKind r.kind) ↔ ∀ b : BuiltIn, r.kind ≠ b.kind.tag) ∧
    ((∃ fault : KeyFault, ofRecord r = .error (.invalidKey r.kind r.key fault.message)) ↔
      ∃ b : BuiltIn, r.kind = b.kind.tag ∧ ¬ Key.Fits b r.key) ∧
    (ofRecord r = .error .unreadable ↔
      ∃ b : BuiltIn, r.kind = b.kind.tag ∧ Key.Fits b r.key ∧ ¬ b.Reads r.progress) ∧
    ∀ p, ofRecord r = .ok p → r.kind = p.builtIn.kind.tag ∧ p.partition.record = some r ∧
      Partition.ofRecord p.builtIn.kind r = .ok p.partition ∧
      ∀ b, b ≠ p.builtIn → Partition.ofRecord b.kind r = .error (.unknownKind r.kind) := by
  have hmade : ∀ p, ofRecord r = .ok p → r.kind = p.builtIn.kind.tag ∧
      p.partition.record = some r ∧ Partition.ofRecord p.builtIn.kind r = .ok p.partition ∧
      ∀ b, b ≠ p.builtIn → Partition.ofRecord b.kind r = .error (.unknownKind r.kind) := by
    intro p h
    obtain ⟨hkind, hread⟩ := of_ofRecord h
    refine ⟨hkind, (Partition.identify_of_ofRecord hread).2.2.2, hread, fun b hb => ?_⟩
    exact Partition.ofRecord_of_other fun htag =>
      hb (BuiltIn.tag_injective (htag.symm.trans hkind))
  by_cases hknown : ∃ b : BuiltIn, r.kind = b.kind.tag
  · have ⟨b, hkind⟩ := hknown
    have hread := ofRecord_of_tag hkind
    simp only [exists_tag_iff hkind]
    rcases Partition.ofRecord_cases hkind with
      ⟨hkey, hreads, q, hq⟩ | ⟨hkey, fault, hq⟩ | ⟨hkey, hreads, hq⟩
    · rw [hq, Except.map] at hread
      refine ⟨?_, ?_, ?_, ?_, hmade⟩ <;> simp [hread, hkey, hreads, hknown]
    · rw [hq, Except.map] at hread
      refine ⟨?_, ?_, ?_, ?_, hmade⟩ <;> simp [hread, hkey, hknown]
    · rw [hq, Except.map] at hread
      refine ⟨?_, ?_, ?_, ?_, hmade⟩ <;> simp [hread, hkey, hreads, hknown]
  · have hunknown : ∀ b : BuiltIn, r.kind ≠ b.kind.tag := not_exists.mp hknown
    simp [ofRecord_of_unknown hunknown, hunknown]

/-- A stream's record of which the progress is an array: a start and no token. -/
def streamRecord : Record :=
  .unassigned ⟨"s", streamKind.tag, "db|orders"⟩ (some "[-5, null]") .epoch

theorem accepted_streamRecord :
    ∃ p, ofRecord streamRecord = .ok p ∧ p.partition.record = some streamRecord := by
  have hschema : Schema.stream (.array [.number (.integer (-5)), .null]) :=
    .array ⟨⟨-5, rfl, by decide, by decide⟩, .inl rfl, by simp [Json.Positional]⟩
  obtain ⟨p, hp⟩ := (accepted streamRecord).1.mpr ⟨.stream, rfl, trivial, _, rfl, hschema⟩
  exact ⟨p, hp, ((accepted streamRecord).2.2.2.2 p hp).2.1⟩

end AnyPartition

end LeasedWork
