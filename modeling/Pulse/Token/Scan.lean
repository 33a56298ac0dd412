/-
From a source text to its tokens.

At every place the first pattern of the table that takes something cuts a piece off the text. The
piece becomes a token, or nothing, or an error; the position moves behind it. Every piece is
nonempty, so the text gets shorter and the walk ends, with a token for the end of input.
-/
import Pulse.Source.SyntaxError
import Pulse.Token.Pattern

set_option autoImplicit false

namespace Pulse

/-! ## Every piece is nonempty -/

theorem pos_of_nonzero_eq_some {m n : Nat} (h : nonzero m = some n) : 0 < n := by
  unfold nonzero at h
  split at h
  · simp at h
  · simp only [Option.some.injEq] at h
    omega

theorem pos_of_floatLength?_eq_some {cs : List Char} {n : Nat} (h : floatLength? cs = some n) :
    0 < n := by
  unfold floatLength? at h
  dsimp only at h
  split at h
  · split at h
    · simp at h
    · simp only [Option.some.injEq] at h
      omega
  · split at h
    · simp at h
    · simp only [Option.some.injEq] at h
      omega

theorem pos_of_integerLength?_eq_some {cs : List Char} {n : Nat}
    (h : integerLength? cs = some n) : 0 < n := by
  unfold integerLength? at h
  cases hm : markedLength? cs with
  | none =>
    rw [hm] at h
    exact pos_of_nonzero_eq_some h
  | some m =>
    rw [hm] at h
    simp only [Option.orElse_some, Option.some.injEq] at h
    unfold markedLength? at hm
    split at hm <;> simp at hm <;> grind

theorem pos_of_charLiteral?_eq_some {cs : List Char} {n : Nat} {c : Char}
    (h : charLiteral? cs = some (n, c)) : 0 < n := by
  unfold charLiteral? at h
  grind

/-- A pattern that takes something takes at least one character. -/
theorem Pattern.pos_of_length?_eq_some {p : Pattern} {cs : List Char} {n : Nat}
    (h : p.length? cs = some n) : 0 < n := by
  unfold Pattern.length? at h
  split at h
  · exact pos_of_nonzero_eq_some h
  · simp only [Option.some.injEq] at h
    omega
  · obtain ⟨m, -, rfl⟩ := Option.map_eq_some_iff.1 h
    omega
  · simp only [Option.some.injEq] at h
    omega
  · split at h
    · simp only [Option.some.injEq] at h
      omega
    · simp at h
  · exact pos_of_floatLength?_eq_some h
  · exact pos_of_integerLength?_eq_some h
  · obtain ⟨⟨m, c⟩, hm, rfl⟩ := Option.map_eq_some_iff.1 h
    exact pos_of_charLiteral?_eq_some hm
  · split at h
    · exact pos_of_nonzero_eq_some h
    · simp at h
  · simp at h

/-- So does the first pattern of the table that takes something. -/
theorem Pattern.pos_of_first?_eq_some {cs : List Char} {p : Pattern} {n : Nat}
    (h : Pattern.first? cs = some (p, n)) : 0 < n := by
  obtain ⟨q, -, hq⟩ := List.exists_of_findSome?_eq_some h
  obtain ⟨m, hm, he⟩ := Option.map_eq_some_iff.1 hq
  cases he
  exact Pattern.pos_of_length?_eq_some hm

/-! ## Tokens of pieces -/

/-- The words that are no identifiers, with their kinds (`RESERVED_LOOKUP`). -/
def reservedWords : List (String × Kind) :=
  [("const", .kwConst), ("else", .kwElse), ("function", .kwFunction), ("if", .kwIf),
   ("print", .kwPrint), ("return", .kwReturn), ("while", .kwWhile), ("var", .kwVar),
   ("true", .bool), ("false", .bool)]

/-- The kind of a word. -/
def wordKind (s : String) : Kind := (reservedWords.lookup s).getD .identifier

/-- What a piece cut by a pattern at position `p` turns into (`RegexHandler`): nothing for blanks
and comments, a token, or an error. A character literal stands for a single byte. Tokens and errors
hold positions that are cut to words. -/
def Pattern.read (pattern : Pattern) (p : Position) (piece : List Char) :
    Except SyntaxError (Option Token) :=
  let text := String.ofList piece
  let token (kind : Kind) (value : String) : Option Token := some ⟨kind, value, p.spanOver piece⟩
  match pattern with
  | .blanks | .lineComment | .blockComment => .ok none
  | .openComment => .error ⟨.unterminatedComment, p.stored⟩
  | .word => .ok (token (wordKind text) text)
  | .float => .ok (token .float text)
  | .integer => .ok (token .integer text)
  | .charLiteral =>
    match charLiteral? piece with
    | some (_, c) =>
      if c.toNat ≤ 0xFF then .ok (token .char (String.singleton c))
      else .error ⟨.wideCharacter text, p.stored⟩
    | none => .error ⟨.wideCharacter text, p.stored⟩
  | .fixed kind spelling => .ok (token kind spelling)

/-! ## The walk -/

/-- The tokens of a text that starts at position `p`. The walk itself counts exactly. -/
def scan (p : Position) (cs : List Char) : Except SyntaxError (List Token) :=
  match cs with
  | [] => .ok [Token.endOfInput p.stored]
  | c :: cs =>
    match _h : Pattern.first? (c :: cs) with
    | none => .error ⟨.unrecognised (String.singleton c), p.stored⟩
    | some (pattern, n) => do
      let piece := (c :: cs).take n
      let token ← pattern.read p piece
      let tokens ← scan (p.past piece) ((c :: cs).drop n)
      return token.toList ++ tokens
termination_by cs.length
decreasing_by
  have := Pattern.pos_of_first?_eq_some _h
  simp only [List.length_drop, List.length_cons]
  omega

/-- The tokens of a source text, the end of input last; or the first syntax error in it. -/
def tokenize (source : String) : Except SyntaxError (List Token) :=
  scan .origin source.toList

end Pulse
