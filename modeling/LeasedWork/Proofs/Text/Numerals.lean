import LeasedWork.Text.Decimal
import Mathlib.Algebra.Group.Nat.Defs
import Mathlib.Data.List.TakeWhile
import Mathlib.Tactic.SplitIfs

/-! # Decimal numerals read back

`natChars` and `padded` write digits only, and at least one of them.  `value` reads either form
back (`value_natChars`, `value_padded`), and a numeral below `10 ^ width` fills its width exactly
(`length_padded`).  A scanner that takes digits stops at the first character that is none
(`takeWhile_digits_append`).
-/
namespace LeasedWork.Decimal

theorem isDigit_iff {c : Char} : isDigit c = true ↔ 48 ≤ c.toNat ∧ c.toNat ≤ 57 := by
  simp [isDigit]

theorem isDigit_cases {c : Char} (h : isDigit c = true) :
    c ∈ ['0', '1', '2', '3', '4', '5', '6', '7', '8', '9'] := by
  obtain ⟨hlow, hhigh⟩ := isDigit_iff.mp h
  have hall : ∀ n < 58, 48 ≤ n →
      Char.ofNat n ∈ ['0', '1', '2', '3', '4', '5', '6', '7', '8', '9'] := by decide
  have hc := hall c.toNat (by omega) hlow
  rwa [Char.ofNat_toNat] at hc

theorem isDigit_of_mem_natChars {n : Nat} {c : Char} (h : c ∈ natChars n) : isDigit c = true := by
  have hc : c.isDigit = true := Nat.isDigit_of_mem_toDigits (by decide) (by decide) h
  simp only [Char.isDigit, Bool.and_eq_true, decide_eq_true_eq, UInt32.le_iff_toNat_le,
    ge_iff_le] at hc
  exact isDigit_iff.mpr hc

theorem natChars_ne_nil (n : Nat) : natChars n ≠ [] := Nat.toDigits_ne_nil

theorem ofList_natChars (n : Nat) : String.ofList (natChars n) = toString n := rfl

theorem ofList_intChars (i : Int) : String.ofList (intChars i) = toString i := by
  cases i with
  | ofNat n => rfl
  | negSucc n =>
    rw [intChars, ← List.singleton_append, String.ofList_append]
    rfl

theorem valueFrom_eq (acc : Nat) (cs : List Char) :
    valueFrom acc cs = Nat.ofDigitChars 10 cs acc := rfl

@[simp] theorem value_natChars (n : Nat) : value (natChars n) = n :=
  Nat.ofDigitChars_ten_toDigits

/-- A numeral with a leading zero is the zero itself. -/
theorem natChars_head {n : Nat} (h : (natChars n).head? = some '0') : natChars n = ['0'] := by
  unfold natChars at *
  induction n using Nat.strongRecOn with
  | ind n ih =>
    rw [Nat.toDigits_eq_if (by decide)] at h ⊢
    split_ifs at h ⊢ with hn
    · exact congrArg (fun c => [c]) (Option.some.inj h)
    · exfalso
      have hhead : (Nat.toDigits 10 (n / 10)).head? = some '0' := by
        cases hds : Nat.toDigits 10 (n / 10) with
        | nil => exact absurd hds Nat.toDigits_ne_nil
        | cons d ds => rwa [hds, List.cons_append] at h
      have hzero := congrArg value (ih (n / 10) (by omega) hhead)
      have hvalue : value (Nat.toDigits 10 (n / 10)) = n / 10 := value_natChars _
      have : n / 10 = 0 := hvalue.symm.trans hzero
      omega

@[simp] theorem value_padded (width n : Nat) : value (padded width n) = n := by
  unfold value padded
  rw [valueFrom_eq, Nat.ofDigitChars_append, Nat.ofDigitChars_replicate_zero, Nat.mul_zero]
  exact value_natChars n

theorem isDigit_of_mem_padded {width n : Nat} {c : Char} (h : c ∈ padded width n) :
    isDigit c = true := by
  rcases List.mem_append.mp h with hz | hn
  · rw [List.eq_of_mem_replicate hz]
    rfl
  · exact isDigit_of_mem_natChars hn

theorem padded_ne_nil (width n : Nat) : padded width n ≠ [] := by
  intro h
  exact natChars_ne_nil n (List.append_eq_nil_iff.mp h).2

theorem length_padded {width n : Nat} (hw : 0 < width) (h : n < 10 ^ width) :
    (padded width n).length = width := by
  have hle : (natChars n).length ≤ width := (Nat.length_toDigits_le_iff (by decide) hw).mpr h
  rw [padded, List.length_append, List.length_replicate]
  omega

theorem valueFrom_lt {ds : List Char} (hds : ∀ d ∈ ds, isDigit d = true) (acc : Nat) :
    valueFrom acc ds < (acc + 1) * 10 ^ ds.length := by
  induction ds generalizing acc with
  | nil => exact Nat.lt_of_lt_of_eq (Nat.lt_succ_self acc) (Nat.mul_one _).symm
  | cons d ds ih =>
    obtain ⟨hd, hrest⟩ := List.forall_mem_cons.mp hds
    have hdigit : digitValue d ≤ 9 := by
      have hhigh := (isDigit_iff.mp hd).2
      rw [digitValue, show '0'.toNat = 48 from rfl]
      omega
    calc valueFrom acc (d :: ds) = valueFrom (10 * acc + digitValue d) ds := rfl
      _ < (10 * acc + digitValue d + 1) * 10 ^ ds.length := ih hrest _
      _ ≤ (acc + 1) * 10 * 10 ^ ds.length := Nat.mul_le_mul_right _ (by omega)
      _ = (acc + 1) * 10 ^ (ds.length + 1) := by rw [Nat.pow_succ', Nat.mul_assoc]

/-- Digits spell a number below the power of ten of their count. -/
theorem value_lt {ds : List Char} (hds : ∀ d ∈ ds, isDigit d = true) :
    value ds < 10 ^ ds.length := by
  have h := valueFrom_lt hds 0
  rwa [Nat.zero_add, Nat.one_mul] at h

/-! ## Scanning digits -/

/-- A text that no digit begins, so that a numeral before it ends there. -/
def EndsDigits (rest : List Char) : Prop := ∀ c ∈ rest.head?, isDigit c = false

theorem endsDigits_nil : EndsDigits [] := by
  intro c hc
  cases hc

theorem endsDigits_cons {c : Char} {rest : List Char} (h : isDigit c = false) :
    EndsDigits (c :: rest) := by
  rintro d ⟨⟩
  exact h

theorem takeWhile_digits_append {ds rest : List Char} (hds : ∀ d ∈ ds, isDigit d = true)
    (hrest : EndsDigits rest) : (ds ++ rest).takeWhile isDigit = ds := by
  rw [List.takeWhile_append_of_pos hds]
  cases rest with
  | nil => exact List.append_nil ds
  | cons c rest =>
    rw [List.takeWhile_cons_of_neg (by simp [hrest c rfl]), List.append_nil]

theorem dropWhile_digits_append {ds rest : List Char} (hds : ∀ d ∈ ds, isDigit d = true)
    (hrest : EndsDigits rest) : (ds ++ rest).dropWhile isDigit = rest := by
  rw [List.dropWhile_append_of_pos hds]
  cases rest with
  | nil => rfl
  | cons c rest => rw [List.dropWhile_cons_of_neg (by simp [hrest c rfl])]

end LeasedWork.Decimal
