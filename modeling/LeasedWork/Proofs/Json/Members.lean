import LeasedWork.Json.Value
import LeasedWork.Proofs.Json.Tokens
import Mathlib.Data.List.Induction
import Mathlib.Data.String.Basic

/-! # Members of objects

The members of a value are kept in the order of their names, each name once (`Members.Sorted`), and
putting a member in its place keeps them so.  Putting the members of such a list in their places one
after the other therefore gives the same list again (`Members.ofList_of_sorted`), which is why an
object whose members are sorted is found again in its own tree (`restores_object`).
-/
namespace LeasedWork.Json

namespace Members

/-- In the order of their names, each name once. -/
def Sorted (ms : Members) : Prop := ms.Pairwise fun a b => a.1 < b.1

variable {name : String} {value : Json} {ms : Members}

theorem mem_insert {m : String × Json} (h : m ∈ insert name value ms) :
    m = (name, value) ∨ m ∈ ms := by
  induction ms with
  | nil => exact .inl (List.mem_singleton.mp h)
  | cons first rest ih =>
    rw [insert] at h
    split at h
    · exact (List.mem_cons.mp h).imp_right (List.mem_cons_of_mem _)
    · split at h
      · exact List.mem_cons.mp h
      · rcases List.mem_cons.mp h with rfl | hrest
        · exact .inr List.mem_cons_self
        · exact (ih hrest).imp_right (List.mem_cons_of_mem _)

theorem mem_insert_self (name : String) (value : Json) (ms : Members) :
    (name, value) ∈ insert name value ms := by
  induction ms with
  | nil => exact List.mem_cons_self
  | cons first rest ih =>
    rw [insert]
    split
    · exact List.mem_cons_self
    · split
      · exact List.mem_cons_self
      · exact List.mem_cons_of_mem _ ih

theorem mem_insert_of_ne {m : String × Json} (h : m ∈ ms) (hne : m.1 ≠ name) :
    m ∈ insert name value ms := by
  induction ms with
  | nil => cases h
  | cons first rest ih =>
    rw [insert]
    split
    · rename_i heq
      rcases List.mem_cons.mp h with rfl | hrest
      · exact absurd heq.symm hne
      · exact List.mem_cons_of_mem _ hrest
    · split
      · exact List.mem_cons_of_mem _ h
      · rcases List.mem_cons.mp h with rfl | hrest
        · exact List.mem_cons_self
        · exact List.mem_cons_of_mem _ (ih hrest)

theorem sorted_insert (h : ms.Sorted) : (insert name value ms).Sorted := by
  induction ms with
  | nil => exact List.pairwise_singleton _ _
  | cons first rest ih =>
    obtain ⟨hfirst, hrest⟩ := List.pairwise_cons.mp h
    rw [insert]
    split
    · rename_i heq
      exact List.pairwise_cons.mpr ⟨heq ▸ hfirst, hrest⟩
    · rename_i hne
      split
      · rename_i hlt
        refine List.pairwise_cons.mpr ⟨fun m hm => ?_, h⟩
        rcases List.mem_cons.mp hm with rfl | hm
        · exact hlt
        · exact hlt.trans (hfirst m hm)
      · rename_i hnlt
        refine List.pairwise_cons.mpr ⟨fun m hm => ?_, ih hrest⟩
        rcases mem_insert hm with rfl | hm
        · exact lt_of_le_of_ne (not_lt.mp hnlt) (Ne.symm hne)
        · exact hfirst m hm

/-- A name after all others goes to the end. -/
theorem insert_of_forall_lt (h : ∀ m ∈ ms, m.1 < name) :
    insert name value ms = ms ++ [(name, value)] := by
  induction ms with
  | nil => rfl
  | cons first rest ih =>
    obtain ⟨hfirst, hrest⟩ := List.forall_mem_cons.mp h
    rw [insert, if_neg hfirst.ne', if_neg hfirst.not_gt, ih hrest, List.cons_append]

theorem get?_insert_self (name : String) (value : Json) (ms : Members) :
    (insert name value ms).get? name = some value := by
  unfold get?
  induction ms with
  | nil => rw [insert, List.lookup_cons, beq_self_eq_true]
  | cons first rest ih =>
    rw [insert]
    split
    · rw [List.lookup_cons, beq_self_eq_true]
    · rename_i hne
      split
      · rw [List.lookup_cons, beq_self_eq_true]
      · rw [List.lookup_cons, beq_eq_false_iff_ne.mpr hne, ih]

/-! ## Lists of entries -/

variable {entries : List (String × Json)}

theorem ofList_induction {motive : Members → Prop} (hnil : motive [])
    (hinsert : ∀ m ∈ entries, ∀ ms, motive ms → motive (insert m.1 m.2 ms)) :
    motive (ofList entries) := by
  suffices h : ∀ ms, motive ms → motive (entries.foldl (fun ms m => insert m.1 m.2 ms) ms) from
    h [] hnil
  induction entries with
  | nil => exact fun ms h => h
  | cons first rest ih =>
    obtain ⟨hfirst, hrest⟩ := List.forall_mem_cons.mp hinsert
    exact fun ms h => ih hrest _ (hfirst ms h)

theorem sorted_ofList (entries : List (String × Json)) : (ofList entries).Sorted :=
  ofList_induction List.Pairwise.nil fun _ _ _ => sorted_insert

theorem mem_of_mem_ofList {m : String × Json} : m ∈ ofList entries → m ∈ entries :=
  ofList_induction (motive := fun ms => m ∈ ms → m ∈ entries) (fun h => nomatch h)
    fun _ hmem _ ih h => (mem_insert h).elim (fun heq => heq ▸ hmem) ih

theorem mem_ofList {m : String × Json} (hnodup : (entries.map Prod.fst).Nodup) (h : m ∈ entries) :
    m ∈ ofList entries := by
  induction entries using List.reverseRecOn with
  | nil => cases h
  | append_singleton earlier last ih =>
    have hlast : ofList (earlier ++ [last]) = insert last.1 last.2 (ofList earlier) :=
      List.foldl_append
    rw [List.map_append, List.nodup_append] at hnodup
    rw [hlast]
    rcases List.mem_append.mp h with hearlier | hm
    · refine mem_insert_of_ne (ih hnodup.1 hearlier) ?_
      exact hnodup.2.2 _ (List.mem_map_of_mem hearlier) _ List.mem_cons_self
    · obtain rfl := List.mem_singleton.mp hm
      exact mem_insert_self _ _ _

/-- Each name stands once. -/
theorem Sorted.nodup (h : ms.Sorted) : (ms.map Prod.fst).Nodup :=
  List.pairwise_map.mpr (h.imp fun hlt => hlt.ne)

/-- **Sorted members stay as they are.** -/
theorem ofList_of_sorted (h : ms.Sorted) : ofList ms = ms := by
  suffices hfold : ∀ done rest : Members, Sorted (done ++ rest) →
      rest.foldl (fun ms m => insert m.1 m.2 ms) done = done ++ rest from hfold [] ms h
  intro done rest hsorted
  induction rest generalizing done with
  | nil => exact (List.append_nil done).symm
  | cons m rest ih =>
    have hlast : ∀ x ∈ done, x.1 < m.1 := fun x hx =>
      (List.pairwise_append.mp hsorted).2.2 x hx m List.mem_cons_self
    have happend : done ++ m :: rest = done ++ [m] ++ rest := by
      rw [List.append_assoc, List.singleton_append]
    rw [List.foldl_cons, insert_of_forall_lt hlast, happend]
    exact ih (done ++ [m]) (happend ▸ hsorted)

end Members

/-! ## Values in trees -/

/-- A value is found again in its own tree, where so many levels of nesting are left. -/
def Restores (depth : Nat) (x : Json) : Prop := ofTree? depth x.toTree = some x

variable {depth : Nat} {ms : Members}

theorem ofMembers_membersToTree (h : ∀ m ∈ ms, Restores depth m.2) :
    ofMembers? depth (membersToTree ms) = some ms := by
  induction ms with
  | nil => rfl
  | cons m rest ih =>
    obtain ⟨hfirst, hrest⟩ := List.forall_mem_cons.mp h
    have hvalue : ofTree? depth m.2.toTree = some m.2 := hfirst
    obtain ⟨name, x⟩ := m
    simp only [membersToTree, ofMembers?, hvalue, ih hrest]
    rfl

/-- **An object of sorted members is found again in its own tree.** -/
theorem restores_object (hsorted : ms.Sorted) (h : ∀ m ∈ ms, Restores depth m.2) :
    Restores (depth + 1) (.object ms) := by
  rw [Restores, toTree, ofTree?, if_neg (Nat.succ_ne_zero depth), Nat.add_sub_cancel,
    ofMembers_membersToTree h, Option.map_some, Members.ofList_of_sorted hsorted]

theorem Members.ofTree_toTree (h : Restores maxDepth (.object ms)) :
    Members.ofTree? (Json.object ms).toTree = some ms := by
  have htree : Json.ofTree? maxDepth (Json.object ms).toTree = some (.object ms) := h
  rw [Members.ofTree?, htree]

theorem membersExact_iff : MembersExact ms ↔ ∀ m ∈ ms, Exact m.2 := by
  induction ms with
  | nil => exact iff_of_true trivial fun _ h => nomatch h
  | cons m rest ih => rw [MembersExact, List.forall_mem_cons, ih]

end LeasedWork.Json
