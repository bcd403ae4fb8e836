import LeasedWork.Json.Tree

/-! # Trees and their tokens

`Json.Tree.tokens` says which tokens a tree is made of.  The reader makes the tree of just these
tokens (`Tree.ofTokens_eq_some_iff`): whatever containers are open around it, a tree's tokens make
it up (`Tree.foldlM_tokens`), and in every phase the tokens read so far are those of what is done
and of what is still open (`Tree.Reached.step`).
-/
namespace LeasedWork.Json

namespace Tree

mutual

/-- The tokens of a tree. -/
def tokens : Tree → List Token
  | .null => [.null]
  | .bool b => [.bool b]
  | .number n => [.number n]
  | .text s => [.text s]
  | .array items => .openBracket :: (itemTokens items ++ [.closeBracket])
  | .object members => .openBrace :: (memberTokens members ++ [.closeBrace])

def itemTokens : List Tree → List Token
  | [] => []
  | [x] => tokens x
  | x :: y :: rest => tokens x ++ .comma :: itemTokens (y :: rest)

def memberTokens : List (Option String × Tree) → List Token
  | [] => []
  | [(name, x)] => .text name :: .colon :: tokens x
  | (name, x) :: y :: rest =>
    .text name :: .colon :: (tokens x ++ .comma :: memberTokens (y :: rest))

end

/-! ## The tokens of a tree are read as the tree -/

/-- A tree begins with a token that closes nothing. -/
theorem tokens_eq_cons (x : Tree) :
    ∃ t ts, x.tokens = t :: ts ∧ ∀ outer, step (.firstItem outer) t =
      step (.value (.items [] :: outer)) t := by
  cases x <;> exact ⟨_, _, rfl, fun _ => rfl⟩

/-- The first item of an array is read like any other. -/
theorem foldlM_firstItem (x : Tree) (ts : List Token) (outer : List Frame) :
    (x.tokens ++ ts).foldlM step (.firstItem outer) =
      (x.tokens ++ ts).foldlM step (.value (.items [] :: outer)) := by
  obtain ⟨t, rest, h, hstep⟩ := tokens_eq_cons x
  rw [h, List.cons_append, List.foldlM_cons, List.foldlM_cons, hstep]

/-- A member's name and colon lead to its value. -/
theorem foldlM_name (name : Option String) (ts : List Token) (done : List (Option String × Tree))
    (outer : List Frame) :
    (.text name :: .colon :: ts).foldlM step (.nextName done outer) =
      ts.foldlM step (.value (.members done name :: outer)) := rfl

mutual

/-- **The tokens of a tree make it up**, and the innermost open container receives it. -/
theorem foldlM_tokens : ∀ (x : Tree) (outer : List Frame),
    x.tokens.foldlM step (.value outer) = some (receive x outer)
  | .null, _ | .bool _, _ | .number _, _ | .text _, _ => rfl
  | .array [], _ => rfl
  | .array (x :: rest), outer => by
    have h := foldlM_itemTokens (x :: rest) (List.cons_ne_nil _ _) [] outer
    unfold tokens
    rw [List.foldlM_cons, show step (.value outer) .openBracket = some (.firstItem outer) from rfl]
    cases rest with
    | nil => exact (foldlM_firstItem x _ outer).trans h
    | cons y rest =>
      rw [itemTokens, List.append_assoc] at h ⊢
      exact (foldlM_firstItem x _ outer).trans h
  | .object [], _ => rfl
  | .object ((name, x) :: rest), outer => by
    have h := foldlM_memberTokens ((name, x) :: rest) (List.cons_ne_nil _ _) [] outer
    unfold tokens
    rw [List.foldlM_cons, show step (.value outer) .openBrace = some (.firstName outer) from rfl]
    cases rest with
    | nil => exact h
    | cons m rest => exact h

theorem foldlM_itemTokens : ∀ (items : List Tree), items ≠ [] →
    ∀ (done : List Tree) (outer : List Frame),
    (itemTokens items ++ [Token.closeBracket]).foldlM step (.value (.items done :: outer)) =
      some (receive (.array (done.reverse ++ items)) outer)
  | [], hne, _, _ => absurd rfl hne
  | [x], _, done, outer => by
    rw [itemTokens, List.foldlM_append, foldlM_tokens x]
    simp [receive, step]
  | x :: y :: rest, _, done, outer => by
    have h := foldlM_itemTokens (y :: rest) (List.cons_ne_nil _ _) (x :: done) outer
    rw [List.reverse_cons, List.append_assoc] at h
    rw [itemTokens, List.append_assoc, List.foldlM_append, foldlM_tokens x]
    exact h

theorem foldlM_memberTokens : ∀ (members : List (Option String × Tree)), members ≠ [] →
    ∀ (done : List (Option String × Tree)) (outer : List Frame),
    (memberTokens members ++ [Token.closeBrace]).foldlM step (.nextName done outer) =
      some (receive (.object (done.reverse ++ members)) outer)
  | [], hne, _, _ => absurd rfl hne
  | [(name, x)], _, done, outer => by
    rw [memberTokens, List.cons_append, List.cons_append, foldlM_name, List.foldlM_append,
      foldlM_tokens x]
    simp [receive, step]
  | (name, x) :: m :: rest, _, done, outer => by
    have h := foldlM_memberTokens (m :: rest) (List.cons_ne_nil _ _) ((name, x) :: done) outer
    rw [List.reverse_cons, List.append_assoc] at h
    rw [memberTokens, List.cons_append, List.cons_append, foldlM_name, List.append_assoc,
      List.foldlM_append, foldlM_tokens x]
    exact h

end

/-! ## Nothing else is read as the tree -/

/-- The tokens of an item or a member that others follow. -/
def entryTokens : Option String × Tree → List Token
  | (name, x) => .text name :: .colon :: (x.tokens ++ [.comma])

theorem itemTokens_append_singleton (items : List Tree) (x : Tree) :
    itemTokens (items ++ [x]) = items.flatMap (fun y => y.tokens ++ [.comma]) ++ x.tokens := by
  induction items with
  | nil => rw [List.nil_append, itemTokens]; rfl
  | cons y rest ih =>
    rw [List.flatMap_cons, List.append_assoc, ← ih]
    cases rest with
    | nil => simp [itemTokens]
    | cons z rest => simp [itemTokens]

theorem memberTokens_append_singleton (members : List (Option String × Tree)) (name : Option String)
    (x : Tree) :
    memberTokens (members ++ [(name, x)]) =
      members.flatMap entryTokens ++ .text name :: .colon :: x.tokens := by
  induction members with
  | nil => rw [List.nil_append, memberTokens]; rfl
  | cons m rest ih =>
    obtain ⟨first, y⟩ := m
    rw [List.flatMap_cons, List.append_assoc, ← ih, entryTokens]
    cases rest with
    | nil => simp [memberTokens]
    | cons z rest => simp [memberTokens]

/-- The tokens of an open container, up to where it waits for a value. -/
def Frame.tokens : Frame → List Token
  | .items done => .openBracket :: done.reverse.flatMap fun x => x.tokens ++ [.comma]
  | .members done name =>
    .openBrace :: (done.reverse.flatMap entryTokens ++ [.text name, .colon])

/-- The tokens of all open containers, the innermost one first in the list. -/
def outerTokens : List Frame → List Token
  | [] => []
  | f :: outer => outerTokens outer ++ f.tokens

/-- The tokens that lead to a phase. -/
def Reached (ts : List Token) : Phase → Prop
  | .value outer => ts = outerTokens outer
  | .firstItem outer => ts = outerTokens outer ++ [.openBracket]
  | .firstName outer => ts = outerTokens outer ++ [.openBrace]
  | .nextName done outer =>
    ts = outerTokens outer ++ .openBrace :: done.reverse.flatMap entryTokens
  | .colon done name outer =>
    ts = outerTokens outer ++ .openBrace :: (done.reverse.flatMap entryTokens ++ [.text name])
  | .afterItem done outer =>
    ∃ x rest, done = x :: rest ∧ ts = outerTokens (.items rest :: outer) ++ x.tokens
  | .afterMember done outer =>
    ∃ name x rest, done = (name, x) :: rest ∧
      ts = outerTokens (.members rest name :: outer) ++ x.tokens
  | .finished x => ts = x.tokens

variable {ts : List Token} {outer : List Frame} {phase later : Phase} {token : Token}

/-- After a value the container around it has it. -/
theorem reached_receive (x : Tree) (outer : List Frame) :
    Reached (outerTokens outer ++ x.tokens) (receive x outer) := by
  cases outer with
  | nil => rfl
  | cons f outer =>
    cases f with
    | items done => exact ⟨x, done, rfl, rfl⟩
    | members done name => exact ⟨name, x, done, rfl, rfl⟩

theorem reached_startValue (h : startValue outer token = some later) :
    Reached (outerTokens outer ++ [token]) later := by
  unfold startValue at h
  split at h <;> cases h
  case h_1 => exact reached_receive .null outer
  case h_2 b => exact reached_receive (.bool b) outer
  case h_3 n => exact reached_receive (.number n) outer
  case h_4 s => exact reached_receive (.text s) outer
  case h_5 | h_6 => rfl

/-- The tokens of an array are those of the open array with its last item, and a bracket. -/
theorem tokens_array_reverse (x : Tree) (done : List Tree) :
    (array (x :: done).reverse).tokens =
      (Frame.items done).tokens ++ x.tokens ++ [.closeBracket] := by
  rw [List.reverse_cons, tokens, itemTokens_append_singleton, Frame.tokens]
  simp only [List.cons_append, List.append_assoc]

theorem tokens_object_reverse (name : Option String) (x : Tree)
    (done : List (Option String × Tree)) :
    (object ((name, x) :: done).reverse).tokens =
      (Frame.members done name).tokens ++ x.tokens ++ [.closeBrace] := by
  rw [List.reverse_cons, tokens, memberTokens_append_singleton, Frame.tokens]
  simp only [List.cons_append, List.append_assoc, List.nil_append]

/-- **In every phase the tokens read so far are those of what is done and of what is open.** -/
theorem Reached.step (h : Reached ts phase) (hstep : Tree.step phase token = some later) :
    Reached (ts ++ [token]) later := by
  -- One case for each transition, and the last one for a token that is out of place.
  unfold Tree.step at hstep
  split at hstep
  case h_1 =>
    obtain rfl := h
    exact reached_startValue hstep
  case h_2 outer =>
    obtain rfl := h
    obtain rfl := Option.some.inj hstep
    rw [List.append_assoc]
    exact reached_receive (.array []) outer
  case h_3 outer _ =>
    obtain rfl := h
    have hstarted : Reached (outerTokens (.items [] :: outer) ++ [token]) later :=
      reached_startValue hstep
    exact hstarted
  case h_4 outer =>
    obtain rfl := h
    obtain rfl := Option.some.inj hstep
    rw [List.append_assoc]
    exact reached_receive (.object []) outer
  case h_5 | h_6 =>
    obtain rfl := h
    obtain rfl := Option.some.inj hstep
    simp [Reached]
  case h_7 =>
    obtain rfl := h
    obtain rfl := Option.some.inj hstep
    simp [Reached, outerTokens, Frame.tokens]
  case h_8 =>
    obtain ⟨x, rest, rfl, rfl⟩ := h
    obtain rfl := Option.some.inj hstep
    simp [Reached, outerTokens, Frame.tokens]
  case h_9 =>
    obtain ⟨x, rest, rfl, rfl⟩ := h
    obtain rfl := Option.some.inj hstep
    -- A closed array is a value of what is open around it.
    have hreceived := reached_receive (array (x :: rest).reverse) ‹_›
    rwa [tokens_array_reverse, ← List.append_assoc, ← List.append_assoc] at hreceived
  case h_10 =>
    obtain ⟨name, x, rest, rfl, rfl⟩ := h
    obtain rfl := Option.some.inj hstep
    simp [Reached, outerTokens, Frame.tokens, entryTokens]
  case h_11 =>
    obtain ⟨name, x, rest, rfl, rfl⟩ := h
    obtain rfl := Option.some.inj hstep
    have hreceived := reached_receive (object ((name, x) :: rest).reverse) ‹_›
    rwa [tokens_object_reverse, ← List.append_assoc, ← List.append_assoc] at hreceived
  case h_12 => cases hstep

theorem Reached.foldlM {new : List Token} (h : Reached ts phase)
    (hrun : new.foldlM Tree.step phase = some later) : Reached (ts ++ new) later := by
  induction new generalizing ts phase with
  | nil =>
    cases hrun
    rwa [List.append_nil]
  | cons token rest ih =>
    obtain ⟨next, hnext, hrest⟩ := Option.bind_eq_some_iff.mp hrun
    rw [List.append_cons]
    exact ih (h.step hnext) hrest

/-- **Tokens are read as a tree when they are the tree's own.** -/
theorem ofTokens_eq_some_iff {x : Tree} : ofTokens? ts = some x ↔ ts = x.tokens := by
  constructor
  · intro h
    unfold ofTokens? at h
    split at h
    · rename_i hrun
      obtain rfl := Option.some.inj h
      have hbegun : Reached [] (.value []) := rfl
      exact hbegun.foldlM hrun
    · cases h
  · rintro rfl
    rw [ofTokens?, foldlM_tokens]
    rfl

end Tree

end LeasedWork.Json
