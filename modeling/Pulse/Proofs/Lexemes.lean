/-
The texts of tokens and what may stand between them.

The forms are given as one would write them down for a reader of the language: a number is a list of
digits with a mark, a comment a body between its brackets. Nothing here says how such a text is
found at the front of a longer one.
-/
import Pulse.Token.Scan

set_option autoImplicit false

namespace Pulse

/-! ## Numbers, words and characters -/

/-- A text of one character or more, all of a class. -/
structure RunOf (p : Char → Bool) (cs : List Char) : Prop where
  ne_nil : cs ≠ []
  all : ∀ c ∈ cs, p c

/-- The texts of integers: decimal digits, or a radix mark and digits of that radix. -/
inductive IntegerText : List Char → Prop where
  | decimal {ds : List Char} (h : RunOf Char.isDigit ds) : IntegerText ds
  | hexadecimal {ds : List Char} (h : RunOf isHexDigit ds) : IntegerText ('0' :: 'x' :: ds)
  | binary {ds : List Char} (h : RunOf isBinaryDigit ds) : IntegerText ('0' :: 'b' :: ds)
  | octal {ds : List Char} (h : RunOf isOctalDigit ds) : IntegerText ('0' :: 'o' :: ds)

/-- An exponent: a mark of either case, a sign or none, and digits. -/
inductive Exponent : List Char → Prop where
  | mk {e : Char} {sign ds : List Char} (he : e = 'e' ∨ e = 'E')
      (hsign : sign = [] ∨ sign = ['+'] ∨ sign = ['-']) (hds : RunOf Char.isDigit ds) :
      Exponent (e :: (sign ++ ds))

/-- The texts of floats: digits with a point among, before or behind them and an exponent or none,
or digits with an exponent. -/
inductive FloatText : List Char → Prop where
  | point {whole fraction exponent : List Char} (hwhole : ∀ c ∈ whole, c.isDigit)
      (hfraction : ∀ c ∈ fraction, c.isDigit) (hne : whole ≠ [] ∨ fraction ≠ [])
      (hexponent : exponent = [] ∨ Exponent exponent) :
      FloatText (whole ++ '.' :: (fraction ++ exponent))
  | scaled {whole exponent : List Char} (hwhole : RunOf Char.isDigit whole)
      (hexponent : Exponent exponent) : FloatText (whole ++ exponent)

/-- Character literals and the characters that they stand for. -/
inductive CharLiteral : List Char → Char → Prop where
  | newline : CharLiteral ['\'', '\\', 'n', '\''] '\n'
  | quote : CharLiteral ['\'', '\\', '\'', '\''] '\''
  | backslash : CharLiteral ['\'', '\\', '\\', '\''] '\\'
  | code {h l : Char} {high low : Nat} (hhigh : Number.hexDigit? h = some high)
      (hlow : Number.hexDigit? l = some low) :
      CharLiteral ['\'', '\\', 'x', h, l, '\''] (Char.ofNat (16 * high + low))
  | plain {c : Char} (hquote : c ≠ '\'') (hbackslash : c ≠ '\\') (hnewline : c ≠ '\n') :
      CharLiteral ['\'', c, '\''] c

/-- Words: reserved ones and names. -/
inductive WordText : List Char → Prop where
  | mk {c : Char} {cs : List Char} (hc : isWordStart c) (hcs : ∀ d ∈ cs, isWordPart d) :
      WordText (c :: cs)

/-- The words that are no names. -/
def reservedNames : List String :=
  ["const", "else", "function", "if", "print", "return", "while", "var", "true", "false"]

/-- The one spelling of a kind, if there is just one. -/
def Kind.spelling? : Kind → Option String
  | openCurly => some "\x7b"
  | closeCurly => some "\x7d"
  | openParen => some "("
  | closeParen => some ")"
  | assignment => some "<-"
  | equals => some "="
  | not => some "!"
  | notEquals => some "!="
  | less => some "<"
  | lessEquals => some "<="
  | greater => some ">"
  | greaterEquals => some ">="
  | or => some "||"
  | and => some "&&"
  | semicolon => some ";"
  | comma => some ","
  | plus => some "+"
  | dash => some "-"
  | slash => some "/"
  | star => some "*"
  | kwConst => some "const"
  | kwElse => some "else"
  | kwFunction => some "function"
  | kwIf => some "if"
  | kwPrint => some "print"
  | kwReturn => some "return"
  | kwWhile => some "while"
  | kwVar => some "var"
  | eof | integer | float | char | bool | identifier => none

/-- **The spellings of a kind of token, with the value of each.** A character literal has the
character it stands for as its value, and this is a single byte. -/
inductive Spells : Kind → List Char → String → Prop where
  | fixed {k : Kind} {s : String} (h : k.spelling? = some s) : Spells k s.toList s
  | truth {s : String} (h : s = "true" ∨ s = "false") : Spells .bool s.toList s
  | name {cs : List Char} (h : WordText cs) (hfree : String.ofList cs ∉ reservedNames) :
      Spells .identifier cs (String.ofList cs)
  | integer {cs : List Char} (h : IntegerText cs) : Spells .integer cs (String.ofList cs)
  | float {cs : List Char} (h : FloatText cs) : Spells .float cs (String.ofList cs)
  | char {cs : List Char} {c : Char} (h : CharLiteral cs c) (hc : c.toNat ≤ 0xFF) :
      Spells .char cs (String.singleton c)

/-! ## What stands between tokens -/

/-- A piece of text that makes no token. The body of a comment does not hold what ends it. -/
inductive Filler where
  | blank (c : Char) (h : isBlank c)
  | lineComment (body : List Char) (h : '\n' ∉ body)
  | blockComment (body : List Char) (h : ¬ ['*', '/'] <:+: body)

/-- The text of a filler. -/
def Filler.text : Filler → List Char
  | blank c _ => [c]
  | lineComment body _ => '/' :: '/' :: body
  | blockComment body _ => '/' :: '*' :: (body ++ ['*', '/'])

/-- The text of a filler that something else can stand behind: a line comment has its newline. -/
def Filler.closedText : Filler → List Char
  | lineComment body _ => '/' :: '/' :: (body ++ ['\n'])
  | f => f.text

/-- A text that makes no token. -/
def Trivia (cs : List Char) : Prop := ∃ fillers : List Filler, cs = fillers.flatMap Filler.text

/-- The empty text makes no token. -/
theorem trivia_nil : Trivia [] := ⟨[], rfl⟩

/-- Two texts that make no token make none together. -/
theorem Trivia.append {cs ds : List Char} (hcs : Trivia cs) (hds : Trivia ds) :
    Trivia (cs ++ ds) := by
  obtain ⟨fs, rfl⟩ := hcs
  obtain ⟨gs, rfl⟩ := hds
  exact ⟨fs ++ gs, List.flatMap_append.symm⟩

/-- A filler makes no token. -/
theorem Filler.trivia (f : Filler) : Trivia f.text := ⟨[f], (List.flatMap_singleton ..).symm⟩

/-! ## Texts of tokens -/

section Texts

variable {k : Kind} {cs : List Char} {v : String}

/-- A text of one class has no character that is not of it. -/
theorem notMem_of_all {p : Char → Bool} {c : Char} (h : ∀ d ∈ cs, p d) (hc : p c = false) :
    c ∉ cs := by
  intro hmem
  rw [h c hmem] at hc
  cases hc

/-- An integer has a text. -/
theorem IntegerText.ne_nil (h : IntegerText cs) : cs ≠ [] := by
  cases h with
  | decimal h => exact h.ne_nil
  | hexadecimal | binary | octal => exact List.cons_ne_nil _ _

/-- A float has a text. -/
theorem FloatText.ne_nil (h : FloatText cs) : cs ≠ [] := by
  cases h with
  | point => simp
  | scaled hwhole => simp [hwhole.ne_nil]

/-- Every token has a text. -/
theorem Spells.ne_nil (h : Spells k cs v) : cs ≠ [] := by
  cases h with
  | fixed h => cases k <;> cases h <;> decide
  | truth h => rcases h with rfl | rfl <;> decide
  | name h =>
    cases h
    exact List.cons_ne_nil _ _
  | integer h => exact h.ne_nil
  | float h => exact h.ne_nil
  | char h => cases h <;> exact List.cons_ne_nil _ _

/-- No exponent goes over the end of a line. -/
theorem Exponent.newline_notMem (h : Exponent cs) : '\n' ∉ cs := by
  obtain ⟨he, hsign, hds⟩ := h
  have hdigits := notMem_of_all hds.all (c := '\n') rfl
  rcases he with rfl | rfl <;> rcases hsign with rfl | rfl | rfl <;> simp [hdigits]

/-- No integer goes over the end of a line. -/
theorem IntegerText.newline_notMem (h : IntegerText cs) : '\n' ∉ cs := by
  cases h with
  | decimal h => exact notMem_of_all h.all rfl
  | hexadecimal h | binary h | octal h => simp [notMem_of_all h.all (c := '\n') rfl]

/-- No float goes over the end of a line. -/
theorem FloatText.newline_notMem (h : FloatText cs) : '\n' ∉ cs := by
  cases h with
  | point hwhole hfraction _ hexponent =>
    have hexponent' : '\n' ∉ _ := hexponent.elim (fun h => h ▸ List.not_mem_nil)
      Exponent.newline_notMem
    simp [notMem_of_all hwhole (c := '\n') rfl, notMem_of_all hfraction (c := '\n') rfl, hexponent']
  | scaled hwhole hexponent =>
    simp [notMem_of_all hwhole.all (c := '\n') rfl, hexponent.newline_notMem]

/-- No character literal goes over the end of a line. That of a newline spells it out. -/
theorem CharLiteral.newline_notMem {c : Char} (h : CharLiteral cs c) : '\n' ∉ cs := by
  cases h with
  | newline | quote | backslash => decide
  -- The two digits of a code are of radix sixteen.
  | @code h l _ _ hhigh hlow =>
    have hh : h ≠ '\n' := by
      rintro rfl
      cases hhigh
    have hl : l ≠ '\n' := by
      rintro rfl
      cases hlow
    simp [hh.symm, hl.symm]
  | plain _ _ hnewline => simp [hnewline.symm]

/-- No token goes over the end of a line. So a token starts and ends on one line. -/
theorem Spells.newline_notMem (h : Spells k cs v) : '\n' ∉ cs := by
  cases h with
  | fixed h => cases k <;> cases h <;> decide
  | truth h => rcases h with rfl | rfl <;> decide
  | name h =>
    obtain ⟨hc, hcs⟩ := h
    have hnewline : isWordStart '\n' = false := rfl
    rw [List.mem_cons, not_or]
    refine ⟨?_, notMem_of_all hcs rfl⟩
    rintro rfl
    rw [hnewline] at hc
    cases hc
  | integer h => exact h.newline_notMem
  | float h => exact h.newline_notMem
  | char h => exact h.newline_notMem

/-! ## Values -/

/-- The end of input has no spelling. -/
theorem Spells.ne_eof (h : Spells k cs v) : k ≠ .eof := by
  rintro rfl
  cases h with
  | fixed h => cases h

/-- The value is the text, except for a character literal. -/
theorem Spells.value_eq (h : Spells k cs v) (hk : k ≠ .char) : v = String.ofList cs := by
  cases h with
  | fixed | truth => rw [String.ofList_toList]
  | name | integer | float => rfl
  | char => exact absurd rfl hk

/-- A spelling of a character stands for a character that fits in a byte, which is its value. -/
theorem Spells.charLiteral (h : Spells .char cs v) :
    ∃ c, CharLiteral cs c ∧ c.toNat ≤ 0xFF ∧ v = String.singleton c := by
  cases h with
  | fixed h => cases h
  | char h hc => exact ⟨_, h, hc, rfl⟩

end Texts

end Pulse
