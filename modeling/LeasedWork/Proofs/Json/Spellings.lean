import LeasedWork.Proofs.Json.Numbers
import LeasedWork.Proofs.Json.Quotations
import LeasedWork.Proofs.Json.Trees
import Mathlib.Data.List.Chain

/-! # How JSON is written

A text spells tokens when each of them is written as it may be, with any white space around it
(`Json.Spelled`).  The lexer reads a spelled text as its tokens, unless words or numbers stand next
to each other (`Token.ofChars_of_spelled`), and what it reads was spelled
(`Token.spelled_of_ofChars`).  The tokens of a tree keep words and numbers apart.  So a tree is read
from the texts that spell it, and from no others (`Tree.ofString_eq_some_iff`).

A printed value spells its own tree, for every value whose integers have 64 bits and that holds no
floating-point number (`Tree.spelledBy_print`).
-/
namespace LeasedWork.Json

/-- Nothing but JSON's white space. -/
def Blank (cs : List Char) : Prop := ∀ c ∈ cs, isSpace c = true

/-- How a token is written. -/
inductive Lexeme : Token → List Char → Prop
  | openBrace : Lexeme .openBrace ['\x7b']
  | closeBrace : Lexeme .closeBrace ['\x7d']
  | openBracket : Lexeme .openBracket ['[']
  | closeBracket : Lexeme .closeBracket [']']
  | comma : Lexeme .comma [',']
  | colon : Lexeme .colon [':']
  | null : Lexeme .null "null".toList
  | true : Lexeme (.bool true) "true".toList
  | false : Lexeme (.bool false) "false".toList
  | number {p : Numeral.Parts} {cs : List Char} (h : Numeral.Spelled p cs) :
    Lexeme (.number p.numeral) cs
  | text {ps : List Token.Piece} {cs : List Char} (h : Token.SpelledPieces ps cs) :
    Lexeme (.text ((Token.charsOf ps).map String.ofList)) ('"' :: (cs ++ ['"']))

/-- How tokens are written one after the other, with white space before, between and after them. -/
inductive Spelled : List Token → List Char → Prop
  | nil {ws : List Char} (hws : Blank ws) : Spelled [] ws
  | cons {token : Token} {tokens : List Token} {ws cs rest : List Char} (hws : Blank ws)
    (h : Lexeme token cs) (hrest : Spelled tokens rest) :
    Spelled (token :: tokens) (ws ++ cs ++ rest)

namespace Token

variable {ts before : List Token} {token : Token} {cs ws : List Char} {r : Reading} {c : Char}

/-- A word or a number, which has no end of its own. -/
def isOpen : Token → Bool
  | .null | .bool _ | .number _ => true
  | _ => false

/-- No two words or numbers stand next to each other. -/
def Separated (ts : List Token) : Prop :=
  ts.IsChain fun t next => t.isOpen = true → next.isOpen = false

/-! ## Spelled texts are read -/

/-- White space and punctuation end what is still open. -/
theorem step_of_space (hflush : flush r = some before) (hc : isSpace c = true) :
    step r c = some ⟨before, .between⟩ := by
  have hcases : c = ' ' ∨ c = '\n' ∨ c = '\t' ∨ c = '\r' := by simpa [isSpace, or_assoc] using hc
  rcases hcases with rfl | rfl | rfl | rfl <;> rw [step_of_flush hflush rfl rfl] <;> rfl

theorem foldlM_blank (hflush : flush r = some before) (hws : Blank ws) :
    ∃ r', ws.foldlM step r = some r' ∧ flush r' = some before ∧
      (r.mode = .between → r'.mode = .between) := by
  induction ws generalizing r with
  | nil => exact ⟨r, rfl, hflush, id⟩
  | cons c rest ih =>
    obtain ⟨hc, hrest⟩ := List.forall_mem_cons.mp hws
    obtain ⟨r', hr', hflush', hmode⟩ := ih (r := ⟨before, .between⟩) rfl hrest
    refine ⟨r', ?_, hflush', fun _ => hmode rfl⟩
    rw [List.foldlM_cons, step_of_space hflush hc]
    exact hr'

theorem eq_of_flush (hflush : flush r = some before) (hmode : r.mode = .between) :
    r = ⟨before, .between⟩ := by
  obtain ⟨tokens, mode⟩ := r
  obtain rfl : mode = .between := hmode
  cases hflush
  rfl

/-- What ends by itself leaves nothing open. -/
theorem mode_of_flush (hflush : flush r = some (token :: before)) (h : token.isOpen = false) :
    r.mode = .between := by
  obtain ⟨tokens, mode⟩ := r
  cases mode with
  | between => rfl
  | word letters =>
    obtain ⟨t, ht, heq⟩ := Option.map_eq_some_iff.mp hflush
    obtain ⟨rfl, rfl⟩ := List.cons.inj heq
    unfold ofWord? at ht
    split_ifs at ht <;> cases ht <;> cases h
  | number chars =>
    obtain ⟨n, hn, heq⟩ := Option.map_eq_some_iff.mp hflush
    obtain ⟨rfl, rfl⟩ := List.cons.inj heq
    cases h
  | quoted _ | escape _ | units _ _ _ => cases hflush

/-- A token is read as it is written, and a word or a number only where nothing is open. -/
theorem foldlM_lexeme (h : Lexeme token cs) (hflush : flush r = some before)
    (hmode : r.mode = .between ∨ token.isOpen = false) :
    ∃ r', cs.foldlM step r = some r' ∧ flush r' = some (token :: before) := by
  have hsingle : ∀ {t : Token} {c : Char}, isLetter c = false → Numeral.isNumeralChar c = false →
      start before c = some ⟨t :: before, .between⟩ →
        ∃ r', [c].foldlM step r = some r' ∧ flush r' = some (t :: before) := by
    intro t c hletter hnumeral hstart
    refine ⟨⟨t :: before, .between⟩, ?_, rfl⟩
    rw [List.foldlM_cons, step_of_flush hflush hletter hnumeral, hstart]
    rfl
  have hbetween : token.isOpen = true → r = ⟨before, .between⟩ := fun hopen =>
    eq_of_flush hflush (hmode.resolve_right (by simp [hopen]))
  cases h with
  | openBrace | closeBrace | openBracket | closeBracket | comma | colon => exact hsingle rfl rfl rfl
  | null | true | false =>
    obtain rfl := hbetween rfl
    exact ⟨_, rfl, rfl⟩
  | number hspelled =>
    obtain rfl := hbetween rfl
    obtain ⟨c, rest, rfl, hc⟩ := hspelled.eq_cons
    have hstart : start before c = some ⟨before, .number [c]⟩ := by
      rcases Bool.or_eq_true_iff.mp hc with hdigit | hminus
      · exact start_digit before hdigit
      · obtain rfl := beq_iff_eq.mp hminus
        rfl
    have hrest := foldlM_numeral before [c] fun d hd =>
      hspelled.isNumeralChar d (List.mem_cons_of_mem c hd)
    refine ⟨⟨before, .number (rest.reverse ++ [c])⟩, ?_, ?_⟩
    · rw [List.foldlM_cons, show step ⟨before, .between⟩ c = start before c from rfl, hstart]
      exact hrest
    · rw [← List.reverse_cons]
      show (Numeral.read? (c :: rest).reverse.reverse).map _ = _
      rw [List.reverse_reverse, Numeral.read_eq_some_iff.mpr ⟨_, hspelled, rfl⟩]
      rfl
  | text hpieces =>
    refine ⟨⟨_ :: before, .between⟩, ?_, rfl⟩
    rw [List.foldlM_cons, step_of_flush hflush rfl rfl]
    show (_ ++ ['"']).foldlM step ⟨before, .quoted ⟨some [], none⟩⟩ = _
    rw [List.foldlM_append, hpieces.foldlM]
    simp [step, token_foldl_add]

/-- **A spelled text is read as its tokens**, after others of which the last may still be open. -/
theorem foldlM_spelled (h : Spelled ts cs) (hsep : Separated ts) (hflush : flush r = some before)
    (hmode : r.mode = .between ∨ ∀ t ∈ ts.head?, t.isOpen = false) :
    ∃ r', cs.foldlM step r = some r' ∧ flush r' = some (ts.reverse ++ before) := by
  induction h generalizing r before with
  | nil hws =>
    obtain ⟨r', hr', hflush', -⟩ := foldlM_blank hflush hws
    exact ⟨r', hr', hflush'⟩
  | @cons token tokens ws cs rest hws hlexeme _ ih =>
    obtain ⟨hhead, htail⟩ := List.isChain_cons.mp hsep
    obtain ⟨r₁, hr₁, hflush₁, hmode₁⟩ := foldlM_blank hflush hws
    obtain ⟨r₂, hr₂, hflush₂⟩ := foldlM_lexeme hlexeme hflush₁
      (hmode.imp hmode₁ fun hhead => hhead token rfl)
    -- after a word or a number comes something that ends it
    have hmode₂ : r₂.mode = .between ∨ ∀ t ∈ tokens.head?, t.isOpen = false := by
      by_cases hopen : token.isOpen = true
      · exact .inr fun t ht => hhead t ht hopen
      · exact .inl (mode_of_flush hflush₂ (Bool.eq_false_iff.mpr hopen))
    obtain ⟨r₃, hr₃, hflush₃⟩ := ih htail hflush₂ hmode₂
    refine ⟨r₃, ?_, by rw [hflush₃]; simp⟩
    rw [List.foldlM_append, List.foldlM_append, hr₁]
    simp only [Option.bind_eq_bind, Option.bind_some, hr₂, hr₃]

/-! ## What is read was spelled -/

theorem spelled_append {ts' : List Token} {cs' : List Char} (h : Spelled ts cs)
    (h' : Spelled ts' cs') : Spelled (ts ++ ts') (cs ++ cs') := by
  induction h with
  | nil hws =>
    cases h' with
    | nil hws' => exact .nil (List.forall_mem_append.mpr ⟨hws, hws'⟩)
    | cons hws' hcs hrest =>
      rw [← List.append_assoc, ← List.append_assoc, List.nil_append]
      exact .cons (List.forall_mem_append.mpr ⟨hws, hws'⟩) hcs hrest
  | cons hws hcs _ ih =>
    rw [List.append_assoc]
    exact .cons hws hcs ih

theorem blank_nil : Blank [] := fun _ hc => nomatch hc

theorem spelled_lexeme (h : Lexeme token cs) : Spelled [token] cs := by
  have hspelled : Spelled [token] ([] ++ cs ++ []) := .cons blank_nil h (.nil blank_nil)
  rwa [List.nil_append, List.append_nil] at hspelled

/-- What the characters of the token that is begun are. -/
def Begun : Mode → List Char → Prop
  | .between, cs => cs = []
  | .word letters, cs => cs = letters.reverse
  | .number chars, cs => cs = chars.reverse
  | .quoted q, cs => ∃ ps body, SpelledPieces ps body ∧ q = ps.foldl Quoted.add ⟨some [], none⟩ ∧
      cs = '"' :: body
  | .escape q, cs => ∃ ps body, SpelledPieces ps body ∧ q = ps.foldl Quoted.add ⟨some [], none⟩ ∧
      cs = '"' :: (body ++ ['\\'])
  | .units q value left, cs => ∃ ps body ds, SpelledPieces ps body ∧
      q = ps.foldl Quoted.add ⟨some [], none⟩ ∧ hexNumber? ds = some value ∧
      ds.length + left = 4 ∧ 0 < left ∧ cs = '"' :: (body ++ '\\' :: 'u' :: ds)

/-- A reading that has come from `before` by the characters `cs`. -/
def Came (before : List Token) (cs : List Char) (r : Reading) : Prop :=
  ∃ new done rest, cs = done ++ rest ∧ Spelled new done ∧ r.tokens = new.reverse ++ before ∧
    Begun r.mode rest

theorem Came.flush (h : Came before cs r) (hflush : flush r = some ts) :
    ∃ new, Spelled new cs ∧ ts = new.reverse ++ before := by
  obtain ⟨new, done, rest, rfl, hdone, htokens, hbegun⟩ := h
  obtain ⟨tokens, mode⟩ := r
  obtain rfl : tokens = new.reverse ++ before := htokens
  have hone : ∀ {t : Token} {cs : List Char}, Lexeme t cs →
      ∃ new', Spelled new' (done ++ cs) ∧
        t :: (new.reverse ++ before) = new'.reverse ++ before := by
    intro t cs ht
    exact ⟨new ++ [t], spelled_append hdone (spelled_lexeme ht), by simp⟩
  cases mode with
  | between =>
    obtain rfl : rest = [] := hbegun
    cases hflush
    exact ⟨new, by rwa [List.append_nil], rfl⟩
  | word letters =>
    obtain rfl : rest = letters.reverse := hbegun
    obtain ⟨t, ht, rfl⟩ := Option.map_eq_some_iff.mp hflush
    refine hone ?_
    unfold ofWord? at ht
    split_ifs at ht with hnull htrue hfalse <;> obtain rfl := Option.some.inj ht
    · rw [hnull]
      exact .null
    · rw [htrue]
      exact .true
    · rw [hfalse]
      exact .false
  | number chars =>
    obtain rfl : rest = chars.reverse := hbegun
    obtain ⟨n, hn, rfl⟩ := Option.map_eq_some_iff.mp hflush
    obtain ⟨p, hp, rfl⟩ := Numeral.read_eq_some_iff.mp hn
    exact hone (.number hp)
  | quoted _ | escape _ | units _ _ _ => cases hflush

theorem came_start {new : List Token} (h : Spelled new cs)
    (hstart : start (new.reverse ++ before) c = some r) : Came before (cs ++ [c]) r := by
  have hone : ∀ {t : Token}, Lexeme t [c] →
      Came before (cs ++ [c]) ⟨t :: (new.reverse ++ before), .between⟩ := by
    intro t ht
    exact ⟨new ++ [t], cs ++ [c], [], (List.append_nil _).symm,
      spelled_append h (spelled_lexeme ht), by simp, rfl⟩
  unfold start at hstart
  split at hstart
  case h_1 => exact Option.some.inj hstart ▸ hone .openBrace
  case h_2 => exact Option.some.inj hstart ▸ hone .closeBrace
  case h_3 => exact Option.some.inj hstart ▸ hone .openBracket
  case h_4 => exact Option.some.inj hstart ▸ hone .closeBracket
  case h_5 => exact Option.some.inj hstart ▸ hone .comma
  case h_6 => exact Option.some.inj hstart ▸ hone .colon
  case h_7 =>
    obtain rfl := Option.some.inj hstart
    exact ⟨new, cs, ['"'], rfl, h, rfl, [], [], .nil, rfl, rfl⟩
  case h_8 =>
    split_ifs at hstart with hspace hletter hnumber <;> obtain rfl := Option.some.inj hstart
    · have hblank : Blank [c] := List.forall_mem_singleton.mpr hspace
      have hspelled := spelled_append h (.nil hblank)
      rw [List.append_nil] at hspelled
      exact ⟨new, cs ++ [c], [], (List.append_nil _).symm, hspelled, rfl, rfl⟩
    · exact ⟨new, cs, [c], rfl, h, rfl, rfl⟩
    · exact ⟨new, cs, [c], rfl, h, rfl, rfl⟩

/-- **A character more has been read.** -/
theorem Came.step (h : Came before cs r) {r' : Reading} (hstep : Token.step r c = some r') :
    Came before (cs ++ [c]) r' := by
  -- what is open ends before the character, which begins something new
  have hends : ∀ {ts : List Token}, Token.flush r = some ts → start ts c = some r' →
      Came before (cs ++ [c]) r' := by
    intro ts hflush hstart
    obtain ⟨new, hnew, rfl⟩ := h.flush hflush
    exact came_start hnew hstart
  obtain ⟨new, done, rest, rfl, hdone, htokens, hbegun⟩ := id h
  obtain ⟨tokens, mode⟩ := r
  obtain rfl : tokens = new.reverse ++ before := htokens
  -- the character goes on with what is open
  have hgoes : ∀ {mode : Mode}, Begun mode (rest ++ [c]) →
      Came before (done ++ rest ++ [c]) ⟨new.reverse ++ before, mode⟩ :=
    fun hmode => ⟨new, done, rest ++ [c], List.append_assoc _ _ _, hdone, rfl, hmode⟩
  unfold Token.step at hstep
  cases mode with
  | between => exact hends rfl hstep
  | word letters =>
    obtain rfl : rest = letters.reverse := hbegun
    dsimp only at hstep
    split at hstep
    · exact Option.some.inj hstep ▸ hgoes List.reverse_cons.symm
    · obtain ⟨ts, hflush, hstart⟩ := Option.bind_eq_some_iff.mp hstep
      exact hends hflush hstart
  | number chars =>
    obtain rfl : rest = chars.reverse := hbegun
    dsimp only at hstep
    split at hstep
    · exact Option.some.inj hstep ▸ hgoes List.reverse_cons.symm
    · obtain ⟨ts, hflush, hstart⟩ := Option.bind_eq_some_iff.mp hstep
      exact hends hflush hstart
  | quoted q =>
    obtain ⟨ps, body, hbody, rfl, rfl⟩ := hbegun
    dsimp only at hstep
    split_ifs at hstep with hquote hbackslash hcontrol <;> obtain rfl := Option.some.inj hstep
    · subst hquote
      refine ⟨new ++ [_], done ++ '"' :: (body ++ ['"']), [], by simp,
        spelled_append hdone (spelled_lexeme (.text hbody)), ?_, rfl⟩
      rw [token_foldl_add, List.reverse_append]
      rfl
    · subst hbackslash
      exact hgoes ⟨ps, body, hbody, rfl, rfl⟩
    · exact hgoes ⟨ps ++ [.char c], body ++ [c],
        hbody.append_singleton (.plain hquote hbackslash (Nat.not_lt.mp hcontrol)),
        by rw [List.foldl_append]; rfl, rfl⟩
  | escape q =>
    obtain ⟨ps, body, hbody, rfl, rfl⟩ := hbegun
    dsimp only at hstep
    split_ifs at hstep with hunit
    · obtain rfl := Option.some.inj hstep
      subst hunit
      exact hgoes ⟨ps, body, [], hbody, rfl, rfl, rfl, by decide, by simp⟩
    · obtain ⟨d, hd, rfl⟩ := Option.map_eq_some_iff.mp hstep
      exact hgoes ⟨ps ++ [.char d], body ++ ['\\', c], hbody.append_singleton (.letter hd),
        by rw [List.foldl_append]; rfl, by simp⟩
  | units q value left =>
    obtain ⟨ps, body, ds, hbody, rfl, hvalue, hlength, hleft, rfl⟩ := hbegun
    obtain ⟨d, hd, heq⟩ := Option.map_eq_some_iff.mp hstep
    have hnext : hexNumber? (ds ++ [c]) = some (16 * value + d) := by
      rw [hexNumber?, List.foldlM_append, ← hexNumber?, hvalue]
      simp [hd]
    split_ifs at heq with hlast <;> obtain rfl := heq
    · have hfour : (ds ++ [c]).length = 4 := by
        rw [List.length_append, List.length_singleton]
        omega
      exact hgoes ⟨ps ++ [.unit (16 * value + d)], body ++ '\\' :: 'u' :: (ds ++ [c]),
        hbody.append_singleton (.digits hfour hnext), by rw [List.foldl_append]; rfl, by simp⟩
    · refine hgoes ⟨ps, body, ds ++ [c], hbody, rfl, hnext, ?_, by omega, by simp⟩
      rw [List.length_append, List.length_singleton]
      omega

theorem Came.foldlM {new : List Char} {r' : Reading} (h : Came before cs r)
    (hrun : new.foldlM Token.step r = some r') : Came before (cs ++ new) r' := by
  induction new generalizing cs r with
  | nil =>
    cases hrun
    rwa [List.append_nil]
  | cons c rest ih =>
    obtain ⟨next, hnext, hrest⟩ := Option.bind_eq_some_iff.mp hrun
    rw [List.append_cons]
    exact ih (h.step hnext) hrest

/-- **What is read was spelled.** -/
theorem spelled_of_flush (hrun : cs.foldlM step ⟨before, .between⟩ = some r)
    (hflush : flush r = some ts) : ∃ new, Spelled new cs ∧ ts = new.reverse ++ before := by
  have hbefore : Came before [] ⟨before, .between⟩ :=
    ⟨[], [], [], rfl, .nil blank_nil, rfl, rfl⟩
  exact (hbefore.foldlM hrun).flush hflush

/-- **A text is read as tokens that it spells.** -/
theorem spelled_of_ofChars (h : ofChars? cs = some ts) : Spelled ts cs := by
  obtain ⟨read, hread, rfl⟩ := Option.map_eq_some_iff.mp h
  obtain ⟨r, hrun, hflush⟩ := Option.bind_eq_some_iff.mp hread
  obtain ⟨new, hnew, rfl⟩ := spelled_of_flush hrun hflush
  rwa [List.append_nil, List.reverse_reverse]

theorem ofChars_of_spelled (h : Spelled ts cs) (hsep : Separated ts) : ofChars? cs = some ts := by
  obtain ⟨r, hrun, hflush⟩ := foldlM_spelled h hsep (r := ⟨[], .between⟩) rfl (.inl rfl)
  rw [ofChars?, hrun, Option.bind_some, hflush, Option.map_some, List.append_nil,
    List.reverse_reverse]

end Token

namespace Tree

open Token (Separated isOpen)

variable {phase next later : Phase} {t u : Token} {ts : List Token} {x : Tree} {cs : List Char}

theorem step_receive (x : Tree) (outer : List Frame) (h : u.isOpen = true) :
    step (receive x outer) u = none := by
  cases outer with
  | nil => rfl
  | cons f outer => cases f <;> cases u <;> first | rfl | cases h

/-- After a word or a number something else comes. -/
theorem step_of_isOpen (hstep : step phase t = some next) (ht : t.isOpen = true)
    (hu : u.isOpen = true) : step next u = none := by
  have hvalue : ∀ {outer : List Frame}, startValue outer t = some next → step next u = none := by
    intro outer hstart
    cases t with
    | null | bool b | number n => exact Option.some.inj hstart ▸ step_receive _ outer hu
    | openBrace | closeBrace | openBracket | closeBracket | comma | colon | text s => cases ht
  unfold step at hstep
  split at hstep
  case h_1 | h_3 => exact hvalue hstep
  case h_12 => cases hstep
  all_goals cases ht

/-- What is read as a tree keeps words and numbers apart. -/
theorem separated_of_foldlM (h : ts.foldlM step phase = some later) : Separated ts := by
  induction ts generalizing phase with
  | nil => exact .nil
  | cons t rest ih =>
    obtain ⟨next, hnext, hrest⟩ := Option.bind_eq_some_iff.mp h
    refine List.isChain_cons.mpr ⟨fun u hu ht => ?_, ih hrest⟩
    obtain ⟨tail, rfl⟩ : ∃ tail, rest = u :: tail := by
      cases rest with
      | nil => cases hu
      | cons v tail => exact ⟨tail, by rw [Option.some.inj hu]⟩
    obtain ⟨after, hafter, -⟩ := Option.bind_eq_some_iff.mp hrest
    by_contra hopen
    rw [step_of_isOpen hnext ht (by simpa using hopen)] at hafter
    cases hafter

theorem separated_tokens (x : Tree) : Separated x.tokens :=
  separated_of_foldlM (foldlM_tokens x [])

/-- **A tree is read from the texts that spell it**, and from no others. -/
theorem ofChars_eq_some_iff : ofChars? cs = some x ↔ Spelled x.tokens cs := by
  rw [ofChars?, Option.bind_eq_some_iff]
  constructor
  · rintro ⟨ts, hts, hx⟩
    rw [← ofTokens_eq_some_iff.mp hx]
    exact Token.spelled_of_ofChars hts
  · intro h
    exact ⟨x.tokens, Token.ofChars_of_spelled h x.separated_tokens, ofTokens_eq_some_iff.mpr rfl⟩

/-- A text that spells a tree, with any white space between its tokens. -/
def SpelledBy (x : Tree) (s : String) : Prop := Spelled x.tokens s.toList

theorem ofString_eq_some_iff {s : String} : ofString? s = some x ↔ x.SpelledBy s :=
  ofChars_eq_some_iff

/-- After a whole tree there is no further token. -/
theorem foldlM_tokens_append (x : Tree) (ts : List Token) (hne : ts ≠ []) :
    ofTokens? (x.tokens ++ ts) = none := by
  have hrun : (x.tokens ++ ts).foldlM step (.value []) = none := by
    cases ts with
    | nil => exact absurd rfl hne
    | cons t rest =>
      rw [List.foldlM_append, foldlM_tokens]
      rfl
  rw [ofTokens?, hrun]

/-- **Nothing may follow a text that ends by itself**, other than white space. -/
theorem ofString_append_eq_none {s extra : String} (h : x.SpelledBy s) {ts : List Token}
    (hlast : x.tokens = ts ++ [t]) (hend : t.isOpen = false)
    (hextra : ∃ c ∈ extra.toList, isSpace c = false) : ofString? (s ++ extra) = none := by
  obtain ⟨r, hr, hflush⟩ :=
    Token.foldlM_spelled h x.separated_tokens (r := ⟨[], .between⟩) rfl (.inl rfl)
  rw [List.append_nil] at hflush
  have hclosed : Token.flush r = some (t :: ts.reverse) := by
    rw [hflush, hlast, List.reverse_append]
    rfl
  have hbetween : r = ⟨x.tokens.reverse, .between⟩ :=
    Token.eq_of_flush hflush (Token.mode_of_flush hclosed hend)
  by_contra hread
  obtain ⟨y, hy⟩ := Option.ne_none_iff_exists'.mp hread
  rw [ofString?, ofChars?, String.toList_append, Option.bind_eq_some_iff] at hy
  obtain ⟨tokens, htokens, hy⟩ := hy
  rw [Token.ofChars?, List.foldlM_append, hr, hbetween] at htokens
  obtain ⟨read, hread, rfl⟩ := Option.map_eq_some_iff.mp htokens
  obtain ⟨r', hr', hflush'⟩ := Option.bind_eq_some_iff.mp hread
  obtain ⟨new, hnew, rfl⟩ := Token.spelled_of_flush hr' hflush'
  -- what follows has a token, because it is not blank
  have hne : new ≠ [] := by
    rintro rfl
    obtain ⟨c, hc, hspace⟩ := hextra
    cases hnew with
    | nil hws =>
      rw [hws c hc] at hspace
      cases hspace
  rw [List.reverse_append, List.reverse_reverse, List.reverse_reverse,
    foldlM_tokens_append x new hne] at hy
  cases hy

end Tree

/-! ## Printed values -/

theorem spelled_quoted (s : String) : Spelled [.text (some s)] (quoted s) := by
  obtain ⟨ps, hps, hvalue⟩ := Token.exists_spelled_escaped s.toList
  have hlexeme := Lexeme.text hps
  rw [hvalue, Option.map_some, String.ofList_toList] at hlexeme
  exact Token.spelled_lexeme hlexeme

theorem spelled_intChars {i : Int} (h : Exact (.integer i)) :
    Spelled [.number (.integer i)] (Decimal.intChars i) := by
  obtain ⟨p, hp, hvalue⟩ := Numeral.exists_spelled_intChars h
  rw [← hvalue]
  exact Token.spelled_lexeme (.number hp)

section Printed

open Token (spelled_append spelled_lexeme)

mutual

/-- **A printed value spells its tree.** -/
theorem spelled_chars : ∀ j : Json, Exact j → Spelled j.toTree.tokens j.chars
  | .null, _ => spelled_lexeme .null
  | .bool true, _ => spelled_lexeme .true
  | .bool false, _ => spelled_lexeme .false
  | .integer i, h => by
    unfold chars
    exact spelled_intChars h
  | .real _, h => h.elim
  | .text s, _ => by
    unfold chars
    exact spelled_quoted s
  | .array items, h => by
    unfold chars toTree Tree.tokens
    exact spelled_append (spelled_lexeme .openBracket)
      (spelled_append (spelled_itemChars items h) (spelled_lexeme .closeBracket))
  | .object members, h => by
    unfold chars toTree Tree.tokens
    exact spelled_append (spelled_lexeme .openBrace)
      (spelled_append (spelled_memberChars members h) (spelled_lexeme .closeBrace))

theorem spelled_itemChars : ∀ items : List Json, ItemsExact items →
    Spelled (Tree.itemTokens (itemsToTree items)) (itemChars items)
  | [], _ => .nil Token.blank_nil
  | [x], h => spelled_chars x h.1
  | x :: y :: rest, h =>
    spelled_append (spelled_chars x h.1)
      (spelled_append (spelled_lexeme .comma) (spelled_itemChars (y :: rest) h.2))

theorem spelled_memberChars : ∀ members : List (String × Json), MembersExact members →
    Spelled (Tree.memberTokens (membersToTree members)) (memberChars members)
  | [], _ => .nil Token.blank_nil
  | [(name, x)], h =>
    spelled_append (spelled_quoted name)
      (spelled_append (spelled_lexeme .colon) (spelled_chars x h.1))
  | (name, x) :: y :: rest, h =>
    spelled_append (spelled_quoted name) (spelled_append (spelled_lexeme .colon)
      (spelled_append (spelled_chars x h.1)
        (spelled_append (spelled_lexeme .comma) (spelled_memberChars (y :: rest) h.2))))

end

end Printed

theorem Tree.spelledBy_print {j : Json} (h : Exact j) : j.toTree.SpelledBy j.print := by
  rw [SpelledBy, print, String.toList_ofList]
  exact spelled_chars j h

/-- **A printed value is read as its own tree.** -/
theorem Tree.ofString_print {j : Json} (h : Exact j) : ofString? j.print = some j.toTree :=
  ofString_eq_some_iff.mpr (spelledBy_print h)

end LeasedWork.Json
