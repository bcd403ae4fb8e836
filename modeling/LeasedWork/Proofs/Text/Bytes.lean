import LeasedWork.Text.Percent
import Mathlib.Algebra.Group.Nat.Defs
import Mathlib.Data.List.Basic
import Mathlib.Tactic.SplitIfs

/-! # The order of texts is that of their bytes

Texts are compared by their characters, and UTF-8 is made so that it does not matter whether
characters or bytes are compared.  A character is a leading byte and some digits to the base 64,
each of them a byte too.  Of two characters with the same number of digits the greater one has the
greater leading byte, or the greater of the first two digits that differ; and more digits mean a
greater leading byte.  So two texts are as their bytes are (`bytes_lt_iff`).
-/
namespace LeasedWork.Percent

/-- The last digits of a number to the base 64, each as a byte behind the mark of a digit. -/
def digits (v : Nat) : Nat → List UInt8
  | 0 => []
  | k + 1 => UInt8.ofNat (v / 64 ^ k % 64 + 128) :: digits v k

/-- A digit behind a mark is a byte. -/
theorem toNat_marked (v : Nat) {base mark : Nat} (h : 0 < base ∧ base + mark ≤ 256) :
    (UInt8.ofNat (v % base + mark)).toNat = v % base + mark := by
  have hlt := Nat.mod_lt v h.1
  rw [UInt8.toNat_ofNat', Nat.mod_eq_of_lt]
  omega

theorem marked_lt {u v base mark : Nat} (h : 0 < base ∧ base + mark ≤ 256)
    (huv : u % base < v % base) :
    UInt8.ofNat (u % base + mark) < UInt8.ofNat (v % base + mark) := by
  rw [UInt8.lt_iff_toNat_lt, toNat_marked u h, toNat_marked v h]
  exact Nat.add_lt_add_right huv mark

/-- Numbers that agree but for some digits are as these digits are. -/
theorem digits_lt {m n : Nat} (h : m < n) {k : Nat} (hsame : m / 64 ^ k = n / 64 ^ k)
    (x y : List UInt8) : digits m k ++ x < digits n k ++ y := by
  induction k with
  | zero =>
    rw [Nat.pow_zero, Nat.div_one, Nat.div_one] at hsame
    exact absurd hsame (Nat.ne_of_lt h)
  | succ k ih =>
    rw [Nat.pow_succ, ← Nat.div_div_eq_div_mul, ← Nat.div_div_eq_div_mul] at hsame
    have hle : m / 64 ^ k ≤ n / 64 ^ k := Nat.div_le_div_right (Nat.le_of_lt h)
    rcases Nat.eq_or_lt_of_le hle with heq | hlt
    · rw [digits, digits, heq]
      exact List.cons_lt_cons_iff.mpr (.inr ⟨rfl, ih heq⟩)
    · refine List.cons_lt_cons_iff.mpr (.inl (marked_lt (by decide) ?_))
      omega

/-- A leading byte and some digits. -/
def encoding (base mark k v : Nat) : List UInt8 :=
  UInt8.ofNat (v / 64 ^ k % base + mark) :: digits v k

/-- Of two numbers with as many digits the lesser one has the lesser encoding. -/
theorem encoding_lt {m n : Nat} (h : m < n) {base mark k : Nat}
    (hbyte : 0 < base ∧ base + mark ≤ 256) (hn : n < 64 ^ k * base) (x y : List UInt8) :
    encoding base mark k m ++ x < encoding base mark k n ++ y := by
  have hle : m / 64 ^ k ≤ n / 64 ^ k := Nat.div_le_div_right (Nat.le_of_lt h)
  rcases Nat.eq_or_lt_of_le hle with heq | hlt
  · rw [encoding, encoding, heq]
    exact List.cons_lt_cons_iff.mpr (.inr ⟨rfl, digits_lt h heq x y⟩)
  · have hfits : n / 64 ^ k < base := Nat.div_lt_of_lt_mul hn
    refine List.cons_lt_cons_iff.mpr (.inl (marked_lt hbyte ?_))
    rwa [Nat.mod_eq_of_lt hfits, Nat.mod_eq_of_lt (Nat.lt_trans hlt hfits)]

/-- Behind a greater mark the encoding is greater, whatever number it is of. -/
theorem encoding_lt_of_mark {base mark base' mark' : Nat} (hbyte : 0 < base ∧ base + mark ≤ mark')
    (hbyte' : 0 < base' ∧ base' + mark' ≤ 256) (k k' m n : Nat) (x y : List UInt8) :
    encoding base mark k m ++ x < encoding base' mark' k' n ++ y := by
  have hlead := Nat.mod_lt (m / 64 ^ k) hbyte.1
  refine List.cons_lt_cons_iff.mpr (.inl ?_)
  rw [UInt8.lt_iff_toNat_lt, toNat_marked _ ⟨hbyte.1, by omega⟩, toNat_marked _ hbyte']
  omega

/-! ## Characters and texts -/

/-- A character is encoded by its number. -/
theorem utf8_eq (c : Char) : String.utf8EncodeChar c =
    if c.val.toNat ≤ 127 then encoding 128 0 0 c.val.toNat
    else if c.val.toNat ≤ 2047 then encoding 32 192 1 c.val.toNat
    else if c.val.toNat ≤ 65535 then encoding 16 224 2 c.val.toNat
    else encoding 8 240 3 c.val.toNat := by
  unfold String.utf8EncodeChar
  dsimp only
  generalize c.val.toNat = v
  split_ifs with h
  · have hmod : v % 128 = v := Nat.mod_eq_of_lt (Nat.lt_succ_of_le h)
    simp [encoding, digits, hmod]
  · simp [encoding, digits]
  · simp [encoding, digits]
  · simp [encoding, digits]

/-- Whatever follows them, different characters are told apart by their bytes. -/
theorem utf8_lt {c d : Char} (h : c < d) (x y : List UInt8) :
    String.utf8EncodeChar c ++ x < String.utf8EncodeChar d ++ y := by
  have hlt : c.val.toNat < d.val.toNat := h
  have hd : d.val.toNat < 1114112 := by
    rcases d.valid with h | h
    · exact Nat.lt_trans h (by decide)
    · exact h.2
  rw [utf8_eq, utf8_eq]
  generalize c.val.toNat = m at *
  generalize d.val.toNat = n at *
  -- Either both characters have as many digits, or the second one has more of them.
  split_ifs <;> first
    | omega
    | exact encoding_lt hlt (by decide) (by omega) x y
    | exact encoding_lt_of_mark (by decide) (by decide) _ _ _ _ x y

theorem bytes_eq (s : String) : bytes s = s.toList.flatMap String.utf8EncodeChar := by
  have harray : s.toByteArray = (s.toList.flatMap String.utf8EncodeChar).toByteArray :=
    String.utf8Encode_toList.symm
  rw [bytes, String.toUTF8, harray, List.toList_data_toByteArray]

theorem flatMap_lt {l l' : List Char} (h : l < l') :
    l.flatMap String.utf8EncodeChar < l'.flatMap String.utf8EncodeChar := by
  induction h with
  | @nil c rest =>
    obtain ⟨first, others, hbytes⟩ :=
      List.exists_cons_of_ne_nil (String.utf8EncodeChar_ne_nil (c := c))
    rw [List.flatMap_cons, List.flatMap_nil, hbytes]
    exact List.nil_lt_cons _ _
  | rel h => exact utf8_lt h _ _
  | cons _ ih =>
    rw [List.flatMap_cons, List.flatMap_cons]
    exact List.append_left_lt ih

/-- **Texts are as their bytes are.** -/
theorem bytes_lt_iff {s t : String} : bytes s < bytes t ↔ s < t := by
  have hmono : ∀ s t : String, s < t → bytes s < bytes t := fun s t h => by
    rw [bytes_eq, bytes_eq]
    exact flatMap_lt (String.lt_iff.mp h)
  refine ⟨fun h => ?_, hmono s t⟩
  rcases Std.lt_trichotomy s t with hlt | rfl | hgt
  · exact hlt
  · exact absurd h (List.lt_irrefl _)
  · exact absurd h (List.lt_asymm (hmono t s hgt))

end LeasedWork.Percent
