import LeasedWork.Json.Value
import LeasedWork.Proofs.Text.Numerals

/-! # Reading tokens

A word or a number has no end of its own: it ends where the next character does not belong to it.
So what the lexer has read is known when it is flushed, and a separator flushes it
(`Token.step_of_flush`).  `Json.Exact` says which values a text holds as they are.
-/
namespace LeasedWork.Json

mutual

/-- Integers of 64 bits, signed or unsigned, and no floating-point number anywhere. -/
def Exact : Json → Prop
  | .integer i => Int64.minValue.toInt ≤ i ∧ i < UInt64.size
  | .real _ => False
  | .array items => ItemsExact items
  | .object members => MembersExact members
  | _ => True

def ItemsExact : List Json → Prop
  | [] => True
  | x :: rest => Exact x ∧ ItemsExact rest

def MembersExact : List (String × Json) → Prop
  | [] => True
  | (_, x) :: rest => Exact x ∧ MembersExact rest

end

/-! ## Reading characters -/

namespace Token

/-- A separator ends what may still be open before it. -/
theorem step_of_flush {r : Reading} {ts : List Token} {c : Char} (h : flush r = some ts)
    (hletter : isLetter c = false) (hnumeral : Numeral.isNumeralChar c = false) :
    step r c = start ts c := by
  obtain ⟨tokens, mode⟩ := r
  cases mode with
  | between => cases h; rfl
  | word letters => simp only [step, hletter, h, Bool.false_eq_true, if_false, Option.bind_some]
  | number chars => simp only [step, hnumeral, h, Bool.false_eq_true, if_false, Option.bind_some]
  | quoted _ | escape _ | units _ _ _ => cases h

theorem start_digit (ts : List Token) {c : Char} (h : Decimal.isDigit c = true) :
    start ts c = some ⟨ts, .number [c]⟩ := by
  have hc := Decimal.isDigit_cases h
  simp only [List.mem_cons, List.not_mem_nil, or_false] at hc
  rcases hc with rfl | rfl | rfl | rfl | rfl | rfl | rfl | rfl | rfl | rfl <;> rfl

theorem foldlM_numeral (ts : List Token) {cs : List Char} (acc : List Char)
    (h : ∀ c ∈ cs, Numeral.isNumeralChar c = true) :
    cs.foldlM step ⟨ts, .number acc⟩ = some ⟨ts, .number (cs.reverse ++ acc)⟩ := by
  induction cs generalizing acc with
  | nil => rfl
  | cons c cs ih =>
    rw [List.foldlM_cons]
    simp only [step, h c List.mem_cons_self, if_true, Option.bind_eq_bind, Option.bind_some]
    rw [ih (c :: acc) (fun d hd => h d (List.mem_cons_of_mem c hd)), List.reverse_cons,
      List.append_assoc]
    rfl

end Token

end LeasedWork.Json
