import LeasedWork.Proofs.Json.Members

/-! # Plain values

A value is *plain* within so many levels of nesting if it holds no floating-point number, its
integers have 64 bits, its objects name each member once, and no array or object lies deeper
(`Json.Plain`).  A reader that goes that deep finds a plain value again in its own text.
-/
namespace LeasedWork.Json

/-- Values that are read back where so many levels of nesting are left. -/
def Plain : Nat → Json → Prop
  | _, .null | _, .bool _ | _, .text _ => True
  | _, .integer i => Int64.minValue.toInt ≤ i ∧ i < UInt64.size
  | _, .real _ | 0, .array _ | 0, .object _ => False
  | depth + 1, .array items => ∀ x ∈ items, Plain depth x
  | depth + 1, .object members => Members.Sorted members ∧ ∀ m ∈ members, Plain depth m.2

variable {depth : Nat} {x : Json} {items : List Json}

theorem itemsExact_iff : ItemsExact items ↔ ∀ x ∈ items, Exact x := by
  induction items with
  | nil => exact iff_of_true trivial fun _ h => nomatch h
  | cons x rest ih => rw [ItemsExact, List.forall_mem_cons, ih]

theorem ofItems_itemsToTree (h : ∀ x ∈ items, Restores depth x) :
    ofItems? depth (itemsToTree items) = some items := by
  induction items with
  | nil => rfl
  | cons x rest ih =>
    obtain ⟨hfirst, hrest⟩ := List.forall_mem_cons.mp h
    have hvalue : ofTree? depth x.toTree = some x := hfirst
    simp only [itemsToTree, ofItems?, hvalue, ih hrest]
    rfl

/-- An array is found again in its own tree. -/
theorem restores_array (h : ∀ x ∈ items, Restores depth x) :
    Restores (depth + 1) (.array items) := by
  rw [Restores, toTree, ofTree?, if_neg (Nat.succ_ne_zero depth), Nat.add_sub_cancel,
    ofItems_itemsToTree h, Option.map_some]

theorem Plain.exact (h : Plain depth x) : Exact x := by
  induction depth generalizing x with
  | zero =>
    cases x with
    | integer i => exact h
    | null | bool _ | text _ => trivial
    | real _ | array _ | object _ => exact h.elim
  | succ depth ih =>
    cases x with
    | integer i => exact h
    | null | bool _ | text _ => trivial
    | real _ => exact h.elim
    | array items => exact itemsExact_iff.mpr fun x hx => ih (h x hx)
    | object members => exact membersExact_iff.mpr fun m hm => ih (h.2 m hm)

/-- **A plain value is found again in its own tree.** -/
theorem Plain.restores (h : Plain depth x) : Restores depth x := by
  induction depth generalizing x with
  | zero =>
    cases x with
    | null | bool _ | integer _ | text _ => rfl
    | real _ | array _ | object _ => exact h.elim
  | succ depth ih =>
    cases x with
    | null | bool _ | integer _ | text _ => rfl
    | real _ => exact h.elim
    | array items => exact restores_array fun x hx => ih (h x hx)
    | object members => exact restores_object h.1 fun m hm => ih (h.2 m hm)

end LeasedWork.Json
