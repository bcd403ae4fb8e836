import LeasedWork.Json.Value

/-!
# Structures in JSON

A structure with named fields is written as an object, or as an array of its fields in their
declared order. A reader finds each field's tree, if it is present, and leaves everything else
unread: a member of another name may hold anything. What it does not forgive is a name without a
value, a field that occurs twice, and more array entries than fields.
-/

namespace LeasedWork.Json

/-- A reader of one value. -/
abbrev Reads (α : Type) := Tree → Option α

/-- The fields that are present. -/
abbrev Found := String → Option Tree

namespace Tree

/-- How many members have a name. -/
def countOf (name : String) (members : List (Option String × Tree)) : Nat :=
  members.countP fun m => m.1 == some name

section Names

variable {name : String} {members before after : List (Option String × Tree)} {t : Tree}

theorem countOf_cons (m : Option String × Tree) :
    countOf name (m :: members) = countOf name members + if m.1 = some name then 1 else 0 := by
  simp [countOf, List.countP_cons]

theorem countOf_append :
    countOf name (before ++ after) = countOf name before + countOf name after :=
  List.countP_append

theorem notMem_of_countOf (h : countOf name members = 0) : (some name, t) ∉ members := by
  intro hmem
  have hname := List.countP_eq_zero.mp h _ hmem
  simp at hname

/-- What is found under a name that occurs once at most is what has the name. -/
theorem lookup_eq_some_iff (h : countOf name members ≤ 1) :
    List.lookup (some name) members = some t ↔ (some name, t) ∈ members := by
  induction members with
  | nil => simp
  | cons m rest ih =>
    obtain ⟨key, u⟩ := m
    rw [countOf_cons] at h
    rw [List.lookup_cons, List.mem_cons]
    by_cases hkey : key = some name
    · -- the others have other names
      subst hkey
      have hrest : countOf name rest = 0 := by
        rw [if_pos rfl] at h
        omega
      have hnot : (some name, t) ∉ rest := notMem_of_countOf hrest
      simp [hnot, eq_comm]
    · have hne : (some name == key) = false := by simpa using Ne.symm hkey
      rw [if_neg hkey] at h
      rw [hne, ih h]
      simp [Ne.symm hkey]

end Names

/-- Finds the fields of a structure with the given field names. -/
def fields? (names : List String) : Reads Found
  | .object members =>
    if members.all (fun m => m.1.isSome) && names.all (fun name => countOf name members ≤ 1) then
      some fun name => if name ∈ names then List.lookup (some name) members else none
    else none
  | .array items =>
    if items.length ≤ names.length then some fun name => List.lookup name (names.zip items)
    else none
  | _ => none

end Tree

namespace Found

/-- A field that must be present. -/
def required {α : Type} (f : Found) (name : String) (read : Reads α) : Option α :=
  (f name).bind read

/-- A field that has a value of its own when it is absent. -/
def withDefault {α : Type} (f : Found) (name : String) (read : Reads α) (absent : α) : Option α :=
  match f name with
  | none => some absent
  | some t => read t

end Found

/-! ## Readers of single values -/

namespace Read

def text : Reads String
  | .text s => s
  | _ => none

def bool : Reads Bool
  | .bool b => some b
  | _ => none

/-- An unsigned 64-bit number, written as an integer. -/
def word : Reads UInt64
  | .number (.integer i) => if 0 ≤ i ∧ i < UInt64.size then some (UInt64.ofNat i.toNat) else none
  | _ => none

/-- A signed 64-bit number, written as an integer. -/
def signed : Reads Int64
  | .number (.integer i) =>
    if Int64.minValue.toInt ≤ i ∧ i ≤ Int64.maxValue.toInt then some (Int64.ofInt i) else none
  | _ => none

/-- Nothing for `null`, and a value for anything else. -/
def optional {α : Type} (read : Reads α) : Reads (Option α)
  | .null => some none
  | t => (read t).map some

/-- One of the named alternatives: its name as a text, or an object whose one member has that name
and holds `null`. -/
def choice {α : Type} (ofName? : String → Option α) : Reads α
  | .text s => s.bind ofName?
  | .object [(some name, .null)] => ofName? name
  | _ => none

/-- Every entry of an array. -/
def list {α : Type} (read : Reads α) : Reads (List α)
  | .array items => items.mapM read
  | _ => none

end Read

/-- An unsigned number as a value. -/
def word (n : UInt64) : Json := .integer n.toNat

/-- A signed number as a value. -/
def signed (n : Int64) : Json := .integer n.toInt

/-- `null` for nothing. -/
def optional {α : Type} (write : α → Json) : Option α → Json
  | none => .null
  | some x => write x

end LeasedWork.Json
