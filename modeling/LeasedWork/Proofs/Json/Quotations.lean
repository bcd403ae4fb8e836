import LeasedWork.Json.Printer
import LeasedWork.Proofs.Json.Tokens
import Mathlib.Tactic.SplitIfs

/-! # How texts are quoted

Between its quotes a text is made of pieces (`Token.Piece`): characters, written as they are or by a
letter after a backslash, and units of sixteen bits, written by four digits.  Two units may be the
halves of one character, and a half without the other gives the whole text no value
(`Token.charsOf`).  The lexer keeps just the pieces (`Token.SpelledPieces.foldlM`), and what it has
kept at the end is what the pieces stand for (`Token.token_foldl_add`).  Printed texts are such
pieces (`Token.exists_spelled_escaped`).
-/
namespace LeasedWork.Json.Token

/-- What a quoted text is made of. -/
inductive Piece
  | char (c : Char)
  /-- Sixteen bits, which may be half of a character. -/
  | unit (n : Nat)

open Quoted (isFirstHalf isSecondHalf joined)

/-- The characters that pieces stand for, unless one is half of a character whose other half is
missing. -/
def charsOf : List Piece → Option (List Char)
  | [] => some []
  | .char c :: rest => (charsOf rest).map (c :: ·)
  | .unit n :: rest =>
    if isFirstHalf n then
      match rest with
      | .unit m :: rest => if isSecondHalf m then (charsOf rest).map (joined n m :: ·) else none
      | _ => none
    else if isSecondHalf n then none
    else (charsOf rest).map (Char.ofNat n :: ·)

/-- The number that hexadecimal digits spell. -/
def hexNumber? (ds : List Char) : Option Nat :=
  ds.foldlM (fun n d => (hexValue? d).map (16 * n + ·)) 0

/-- How a piece is written. -/
inductive SpelledPiece : Piece → List Char → Prop
  | plain {c : Char} (hquote : c ≠ '"') (hbackslash : c ≠ '\\') (hcontrol : 0x20 ≤ c.toNat) :
    SpelledPiece (.char c) [c]
  | letter {c d : Char} (h : unescaped? c = some d) : SpelledPiece (.char d) ['\\', c]
  | digits {ds : List Char} {n : Nat} (hlength : ds.length = 4) (h : hexNumber? ds = some n) :
    SpelledPiece (.unit n) ('\\' :: 'u' :: ds)

/-- How pieces are written, one after the other. -/
inductive SpelledPieces : List Piece → List Char → Prop
  | nil : SpelledPieces [] []
  | cons {p : Piece} {ps : List Piece} {cs rest : List Char} (h : SpelledPiece p cs)
    (hrest : SpelledPieces ps rest) : SpelledPieces (p :: ps) (cs ++ rest)

/-- The text so far with one more piece. -/
def Quoted.add (q : Quoted) : Piece → Quoted
  | .char c => q.push c
  | .unit n => q.pushUnit n

variable {p : Piece} {ps : List Piece} {cs : List Char} {q : Quoted}

theorem SpelledPieces.append {qs : List Piece} {rest : List Char} (h : SpelledPieces ps cs)
    (hrest : SpelledPieces qs rest) : SpelledPieces (ps ++ qs) (cs ++ rest) := by
  induction h with
  | nil => exact hrest
  | cons hp _ ih =>
    rw [List.cons_append, List.append_assoc]
    exact .cons hp ih

theorem SpelledPieces.append_singleton {rest : List Char} (h : SpelledPieces ps cs)
    (hp : SpelledPiece p rest) : SpelledPieces (ps ++ [p]) (cs ++ rest) := by
  have hlast : SpelledPieces [p] (rest ++ []) := .cons hp .nil
  rw [List.append_nil] at hlast
  exact h.append hlast

/-! ## What the pieces stand for -/

theorem not_isSecondHalf_of_isFirstHalf {n : Nat} (h : isFirstHalf n = true) :
    isSecondHalf n = false := by
  simp only [isFirstHalf, Bool.and_eq_true, decide_eq_true_eq] at h
  simp only [isSecondHalf, Bool.and_eq_false_iff, decide_eq_false_iff_not]
  omega

theorem isFirstHalf_of_isSecondHalf {n : Nat} (h : isSecondHalf n = true) :
    isFirstHalf n = false := by
  by_contra hfirst
  rw [not_isSecondHalf_of_isFirstHalf (Bool.not_eq_false _ ▸ hfirst)] at h
  cases h

section Units

variable {n k : Nat} {rest : List Piece}

/-- A unit that is no half is a character. -/
theorem charsOf_whole (hfirst : isFirstHalf n = false) (hsecond : isSecondHalf n = false) :
    charsOf (.unit n :: rest) = (charsOf rest).map (Char.ofNat n :: ·) := by
  rw [charsOf.eq_def]
  simp [hfirst, hsecond]

theorem charsOf_second (hsecond : isSecondHalf n = true) : charsOf (.unit n :: rest) = none := by
  rw [charsOf.eq_def]
  simp [isFirstHalf_of_isSecondHalf hsecond, hsecond]

/-- Two halves are a character together. -/
theorem charsOf_halves (hfirst : isFirstHalf k = true) (hsecond : isSecondHalf n = true) :
    charsOf (.unit k :: .unit n :: rest) = (charsOf rest).map (joined k n :: ·) := by
  rw [charsOf.eq_def]
  simp [hfirst, hsecond]

theorem charsOf_first (hfirst : isFirstHalf k = true) (hsecond : isSecondHalf n = false) :
    charsOf (.unit k :: .unit n :: rest) = none := by
  rw [charsOf.eq_def]
  simp [hfirst, hsecond]

theorem charsOf_first_char (hfirst : isFirstHalf k = true) (c : Char) :
    charsOf (.unit k :: .char c :: rest) = none := by
  rw [charsOf.eq_def]
  simp [hfirst]

end Units

/-- What has no value gets none. -/
theorem settled_foldl_of_none {half : Option Nat} :
    (ps.foldl Quoted.add ⟨none, half⟩).settled = none := by
  have hsettled : ∀ half : Option Nat, Quoted.settled ⟨none, half⟩ = none := by
    rintro (_ | n) <;> rfl
  induction ps generalizing half with
  | nil => exact hsettled half
  | cons p rest ih =>
    rw [List.foldl_cons]
    cases p with
    | char c =>
      rw [Quoted.add, Quoted.push, hsettled]
      exact ih
    | unit n =>
      rw [Quoted.add, Quoted.pushUnit, Quoted.push, hsettled]
      split
      · exact ih
      · split
        · cases half <;> exact ih
        · exact ih

/-- What is kept of the pieces, after the half that is still waiting. -/
theorem settled_foldl_add {acc : List Char} {half : Option Nat}
    (hhalf : ∀ n ∈ half, isFirstHalf n = true) :
    (ps.foldl Quoted.add ⟨some acc, half⟩).settled =
      (charsOf (half.toList.map .unit ++ ps)).map fun new => new.reverse ++ acc := by
  induction ps generalizing acc half with
  | nil =>
    cases half with
    | none => rfl
    | some n => simp [Quoted.settled, charsOf, hhalf n rfl]
  | cons p rest ih =>
    rw [List.foldl_cons]
    -- a character after which no half is waiting
    have hnext : ∀ c, (rest.foldl Quoted.add ⟨some (c :: acc), none⟩).settled =
        ((charsOf rest).map (c :: ·)).map fun new => new.reverse ++ acc := by
      intro c
      rw [ih (by simp), Option.map_map]
      simp [Function.comp_def]
    cases half with
    | none =>
      cases p with
      | char c => exact hnext c
      | unit n =>
        show ((rest.foldl Quoted.add (Quoted.pushUnit ⟨some acc, none⟩ n)).settled =
          (charsOf (.unit n :: rest)).map fun new => new.reverse ++ acc)
        unfold Quoted.pushUnit
        split_ifs with hfirst hsecond
        · exact ih (by simpa using hfirst)
        · rw [charsOf_second hsecond]
          exact settled_foldl_of_none
        · rw [charsOf_whole (Bool.eq_false_iff.mpr hfirst) (Bool.eq_false_iff.mpr hsecond)]
          exact hnext (Char.ofNat n)
    | some k =>
      have hk : isFirstHalf k = true := hhalf k rfl
      cases p with
      | char c =>
        -- the half that is waiting has no partner
        show (rest.foldl Quoted.add ⟨none, none⟩).settled =
          (charsOf (.unit k :: .char c :: rest)).map fun new => new.reverse ++ acc
        rw [charsOf_first_char hk]
        exact settled_foldl_of_none
      | unit n =>
        show ((rest.foldl Quoted.add (Quoted.pushUnit ⟨some acc, some k⟩ n)).settled =
          (charsOf (.unit k :: .unit n :: rest)).map fun new => new.reverse ++ acc)
        unfold Quoted.pushUnit
        split_ifs with hfirst hsecond
        · rw [charsOf_first hk (not_isSecondHalf_of_isFirstHalf hfirst)]
          exact settled_foldl_of_none
        · rw [charsOf_halves hk hsecond]
          exact hnext (joined k n)
        · rw [charsOf_first hk (Bool.eq_false_iff.mpr hsecond)]
          exact settled_foldl_of_none

/-- **A quoted text is what its pieces stand for.** -/
theorem token_foldl_add (ps : List Piece) :
    (ps.foldl Quoted.add ⟨some [], none⟩).token = .text ((charsOf ps).map String.ofList) := by
  rw [Quoted.token, settled_foldl_add (by simp), Option.map_map]
  simp [Function.comp_def]

/-! ## Reading pieces -/

/-- Digits go on with the number that is read. -/
theorem foldlM_digits (ts : List Token) {ds : List Char} {value n : Nat} (hne : ds ≠ [])
    (h : ds.foldlM (fun n d => (hexValue? d).map (16 * n + ·)) value = some n) :
    ds.foldlM step ⟨ts, .units q value ds.length⟩ = some ⟨ts, .quoted (q.pushUnit n)⟩ := by
  induction ds generalizing value with
  | nil => exact absurd rfl hne
  | cons d rest ih =>
    obtain ⟨next, hnext, hrest⟩ := Option.bind_eq_some_iff.mp h
    obtain ⟨v, hv, rfl⟩ := Option.map_eq_some_iff.mp hnext
    rw [List.foldlM_cons]
    cases rest with
    | nil =>
      cases hrest
      simp [step, hv]
    | cons e rest =>
      have hread := ih (List.cons_ne_nil _ _) hrest
      simpa [step, hv] using hread

/-- A piece is read as it is written. -/
theorem SpelledPiece.foldlM (ts : List Token) (h : SpelledPiece p cs) :
    cs.foldlM step ⟨ts, .quoted q⟩ = some ⟨ts, .quoted (q.add p)⟩ := by
  cases h with
  | plain hquote hbackslash hcontrol =>
    simp [step, hquote, hbackslash, Nat.not_lt.mpr hcontrol, Quoted.add]
  | @letter c d hc =>
    have hne : c ≠ 'u' := by
      rintro rfl
      cases hc
    simp [step, hc, hne, Quoted.add]
  | @digits ds n hlength hn =>
    have hread := foldlM_digits (q := q) ts (by rintro rfl; cases hlength) hn
    rw [hlength] at hread
    exact hread

/-- **Pieces are read one after the other.** -/
theorem SpelledPieces.foldlM (ts : List Token) (h : SpelledPieces ps cs) :
    cs.foldlM step ⟨ts, .quoted q⟩ = some ⟨ts, .quoted (ps.foldl Quoted.add q)⟩ := by
  induction h generalizing q with
  | nil => rfl
  | cons hp _ ih =>
    rw [List.foldlM_append, hp.foldlM ts, List.foldl_cons]
    exact ih

/-! ## Printed texts -/

theorem hexValue_hexDigit {n : Nat} (h : n < 16) : hexValue? (hexDigit n) = some n := by
  have hall : ∀ n < 16, hexValue? (hexDigit n) = some n := by decide
  exact hall n h

/-- A control character is written by its two hexadecimal digits. -/
theorem spelled_control {c : Char} (h : c.toNat < 0x20) :
    SpelledPiece (.unit c.toNat)
      ['\\', 'u', '0', '0', hexDigit (c.toNat / 16), hexDigit (c.toNat % 16)] := by
  have hhigh := hexValue_hexDigit (show c.toNat / 16 < 16 by omega)
  have hlow := hexValue_hexDigit (show c.toNat % 16 < 16 by omega)
  have hzero : hexValue? '0' = some 0 := rfl
  refine .digits rfl ?_
  simp [hexNumber?, hhigh, hlow, hzero, Nat.div_add_mod]

/-- **Every character is printed as a piece that stands for it.** -/
theorem exists_spelled_escapedChar (c : Char) :
    ∃ p, SpelledPiece p (escapedChar c) ∧
      ∀ rest, charsOf (p :: rest) = (charsOf rest).map (c :: ·) := by
  unfold escapedChar
  split
  case h_8 hquote hbackslash _ _ _ _ _ =>
    split_ifs with hc
    · have hfirst : isFirstHalf c.toNat = false := by
        simp [isFirstHalf]
        omega
      have hsecond : isSecondHalf c.toNat = false := by
        simp [isSecondHalf]
        omega
      refine ⟨_, spelled_control hc, fun rest => ?_⟩
      rw [charsOf_whole hfirst hsecond, Char.ofNat_toNat]
    · exact ⟨.char c, .plain (fun h => hquote h) (fun h => hbackslash h) (Nat.not_lt.mp hc),
        fun _ => rfl⟩
  all_goals exact ⟨_, .letter rfl, fun _ => rfl⟩

theorem exists_spelled_escaped (cs : List Char) :
    ∃ ps, SpelledPieces ps (cs.flatMap escapedChar) ∧ charsOf ps = some cs := by
  induction cs with
  | nil => exact ⟨[], .nil, rfl⟩
  | cons c rest ih =>
    obtain ⟨p, hp, hvalue⟩ := exists_spelled_escapedChar c
    obtain ⟨ps, hps, hrest⟩ := ih
    exact ⟨p :: ps, .cons hp hps, by rw [hvalue, hrest]; rfl⟩

end LeasedWork.Json.Token
