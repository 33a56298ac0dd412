/-
Reading words back.

What a reader does with written words is said once, in one form: from a tape that shows the words it
comes to the tape behind them, with a value of the wanted kind, provided that the token behind the
words is as expected. A reader is a chain of smaller ones, so such statements are put together link
by link; the token that one link expects is the first token of the next.

Expressions need one thing more. The reader of an expression takes a head and then tail after tail,
and a left operand is the head and some of the tails of the operation it belongs to. So what is
shown of an expression is that reading comes to the tape behind it in the middle of the tails, with
the expression as what has been read.
-/
import Mathlib.Data.List.Forall2
import Pulse.Proofs.Printing

set_option autoImplicit false

namespace Pulse

/-! ## Tapes that show words -/

/-- A tape shows words, and behind them it is another tape. -/
def Tape.Passes (t : Tape) : List Word → Tape → Prop
  | [], t' => t = t'
  | w :: ws, t' => t.current.Spells w ∧ t.advance.Passes ws t'

/-- The current token of a tape that shows words is of the kind of the first. -/
theorem Tape.Passes.kind {t t' : Tape} {w : Word} {ws : List Word} (h : t.Passes (w :: ws) t') :
    t.kind = w.kind := h.1.1

/-- Words are shown part by part. So a reader for a sequence is put together from readers for its
parts. -/
theorem Tape.passes_append {t t' : Tape} {ws ws' : List Word} :
    t.Passes (ws ++ ws') t' ↔ ∃ m, t.Passes ws m ∧ m.Passes ws' t' := by
  induction ws generalizing t with
  | nil => simp [Tape.Passes]
  | cons w ws ih =>
    simp only [List.cons_append, Tape.Passes, ih]
    constructor
    · rintro ⟨hw, m, hm, hm'⟩
      exact ⟨m, ⟨hw, hm⟩, hm'⟩
    · rintro ⟨m, ⟨hw, hm⟩, hm'⟩
      exact ⟨hw, m, hm, hm'⟩

/-- The tape of tokens that spell words, with another token behind them. No word is the end of
input, so the tape can be advanced past each of the tokens. -/
theorem Tape.exists_passes {us : List Token} {ws : List Word} (h : List.Forall₂ Token.Spells us ws)
    {t : Tape} {last : Token} (ht : t.current :: t.rest = us ++ [last]) :
    ∃ t', t.Passes ws t' ∧ t'.current = last := by
  induction h generalizing t with
  | nil => exact ⟨t, rfl, (List.cons.inj ht).1⟩
  | @cons u w us ws hu hus ih =>
    rw [List.cons_append] at ht
    obtain ⟨hcurrent, hrest⟩ := List.cons.inj ht
    obtain ⟨next, rest, hnext⟩ : ∃ next rest, us ++ [last] = next :: rest := by
      cases us with
      | nil => exact ⟨last, [], rfl⟩
      | cons v vs => exact ⟨v, vs ++ [last], rfl⟩
    -- The token is not the end of input, so the tape goes on to the next one.
    have hkind : t.kind ≠ .eof := by
      rw [Tape.kind, hcurrent, hu.1]
      exact w.ne_eof
    have hadvance : t.advance = ⟨next, rest, t.current.span.stop, false⟩ := by
      rw [Tape.advance, if_neg hkind, hrest, hnext]
    have htokens : t.advance.current :: t.advance.rest = us ++ [last] := by
      rw [hadvance, hnext]
    obtain ⟨t', hpasses, hlast⟩ := ih htokens
    refine ⟨t', ⟨?_, hpasses⟩, hlast⟩
    rw [hcurrent]
    exact hu

/-- The tapes that show words have a first token as wanted, if the token behind them is. -/
def Leads (ws : List Word) (next first : Kind → Prop) : Prop :=
  ∀ t t' : Tape, t.Passes ws t' → next t'.kind → first t.kind

/-- Where there are words, the first decides. -/
theorem leads_cons {w : Word} {ws : List Word} {next first : Kind → Prop} (h : first w.kind) :
    Leads (w :: ws) next first := by
  intro t t' ht _
  rw [ht.kind]
  exact h

/-- Where there are none, the token behind them does. -/
theorem leads_nil {next first : Kind → Prop} (h : ∀ k, next k → first k) : Leads [] next first := by
  intro t t' ht hnext
  obtain rfl : t = t' := ht
  exact h _ hnext

/-! ## Readers that take words -/

namespace Reader

variable {α β : Type}

/-- A reader takes words: where the token behind them is as expected, it comes to the tape behind
them with a value of a kind. -/
def Takes (r : Reader α) (ws : List Word) (next : Kind → Prop) (P : α → Prop) : Prop :=
  ∀ t t' : Tape, t.Passes ws t' → next t'.kind → ∃ a, r t = .ok a t' ∧ P a

section Takes

variable {r : Reader α} {f : α → Reader β} {w : Word} {ws ws' : List Word}
  {next mid : Kind → Prop} {P : α → Prop} {Q : β → Prop}

/-- A value that was read goes to the next reader, with the tape behind it. -/
theorem bind_of_ok {t t' : Tape} {a : α} (h : r t = .ok a t') : (r >>= f) t = f a t' := by
  show Reader.bind r f t = f a t'
  rw [Reader.bind, h]

/-- A value that is there already takes no words. -/
theorem takes_pure {a : α} (h : P a) : (pure a : Reader α).Takes [] next P := by
  intro t t' ht _
  obtain rfl : t = t' := ht
  exact ⟨a, rfl, h⟩

theorem takes_pure_bind {a : α} (h : (f a).Takes ws next Q) : (pure a >>= f).Takes ws next Q := h

/-- One reader behind the other. -/
theorem Takes.bind (hr : r.Takes ws mid P) (hlead : Leads ws' next mid)
    (hf : ∀ a, P a → (f a).Takes ws' next Q) : (r >>= f).Takes (ws ++ ws') next Q := by
  intro t t' ht hnext
  obtain ⟨m, hm, hm'⟩ := Tape.passes_append.mp ht
  obtain ⟨a, ha, hPa⟩ := hr t m hm (hlead m t' hm' hnext)
  rw [bind_of_ok ha]
  exact hf a hPa m t' hm' hnext

/-- The last reader of a chain that takes words. -/
theorem Takes.last (hr : r.Takes ws mid P) (hmid : ∀ k, next k → mid k)
    (hf : ∀ a, P a → (f a).Takes [] next Q) : (r >>= f).Takes ws next Q := by
  rw [← List.append_nil ws]
  exact hr.bind (leads_nil hmid) hf

/-- A reader that asks the tape takes nothing. -/
theorem takes_ask {g : Tape → α} (hf : ∀ t, (f (g t)).Takes ws next Q) :
    (ask g >>= f).Takes ws next Q :=
  fun t t' ht hnext => hf t t t' ht hnext

/-- What the kind of the current token can be is known from what follows. -/
theorem takes_kind {f : Kind → Reader β} {first : Kind → Prop} (hlead : Leads ws next first)
    (hf : ∀ k, first k → (f k).Takes ws next Q) : (kind >>= f).Takes ws next Q :=
  fun t t' ht hnext => hf t.kind (hlead t t' ht hnext) t t' ht hnext

/-- In front of a word it is the kind of the word. -/
theorem takes_firstKind {f : Kind → Reader β} {k : Kind} (hk : w.kind = k)
    (hf : (f k).Takes (w :: ws) next Q) : (kind >>= f).Takes (w :: ws) next Q := by
  have hlead : Leads (w :: ws) next (· = k) := leads_cons hk
  refine takes_kind hlead ?_
  rintro _ rfl
  exact hf

/-- Looking at the current token takes nothing; it is one that spells the first word. -/
theorem takes_current {f : Token → Reader β} (hf : ∀ u, u.Spells w → (f u).Takes (w :: ws) next Q) :
    (current >>= f).Takes (w :: ws) next Q :=
  fun t t' ht hnext => hf t.current ht.1 t t' ht hnext

/-- Passing a token takes the word it spells. -/
theorem takes_advance {f : Token → Reader β} (hf : ∀ u, u.Spells w → (f u).Takes ws next Q) :
    (advance >>= f).Takes (w :: ws) next Q :=
  fun t t' ht hnext => hf t.current ht.1 t.advance t' ht.2 hnext

/-- A reader that goes on where the kind of the current token is right. -/
theorem takes_checked {f : Token → Reader β} {other : Reader Token} {k : Kind} (hk : w.kind = k)
    (hf : ∀ u, u.Spells w → (f u).Takes ws next Q) :
    ((do if (← kind) = k then advance else other : Reader Token) >>= f).Takes (w :: ws) next Q := by
  intro t t' ht hnext
  have hread : (do if (← kind) = k then advance else other : Reader Token) t =
      .ok t.current t.advance := by
    have hkind : t.kind = k := ht.kind.trans hk
    show (if t.kind = k then advance else other) t = _
    rw [if_pos hkind]
    rfl
  rw [bind_of_ok hread]
  exact hf t.current ht.1 t.advance t' ht.2 hnext

/-- So does passing a token of the right kind. -/
theorem takes_expect {f : Token → Reader β} {k : Kind} (hk : w.kind = k)
    (hf : ∀ u, u.Spells w → (f u).Takes ws next Q) : (expect k >>= f).Takes (w :: ws) next Q :=
  takes_checked hk hf

theorem takes_expectWhere {f : Token → Reader β} {k : Kind} {message : String} (hk : w.kind = k)
    (hf : ∀ u, u.Spells w → (f u).Takes ws next Q) :
    (expectWhere k message >>= f).Takes (w :: ws) next Q :=
  takes_checked hk hf

end Takes

end Reader

/-! ## Numbers -/

namespace Number

/-- A decimal digit has the value that the library gives it, its distance from zero in the table of
characters. -/
theorem digit?_ten {c : Char} (h : c.isDigit = true) :
    digit? 10 c = some (c.toNat - '0'.toNat) := by
  have hrange : '0' ≤ c ∧ c ≤ '9' := by
    simpa [Char.isDigit, Char.le_def] using h
  have hval : c.toNat - 48 < 10 := by
    have hle : c.toNat ≤ '9'.toNat := hrange.2
    have hnine : '9'.toNat = 57 := rfl
    omega
  -- Digits are read as hexadecimal ones and then cut to the base, which keeps those below ten.
  rw [digit?, hexDigit?, if_pos hrange]
  simp only [Option.filter_some, decide_eq_true hval, if_true]
  rfl

/-- Digits are read as the library writes them. -/
theorem extend?_ten {cs : List Char} (h : ∀ c ∈ cs, c.isDigit = true) (n : Nat) :
    extend? 10 n cs = some (Nat.ofDigitChars 10 cs n) := by
  induction cs generalizing n with
  | nil => rw [extend?, Nat.ofDigitChars_nil]
  | cons c cs ih =>
    rw [extend?, digit?_ten (h c List.mem_cons_self), Option.bind_some,
      ih fun d hd => h d (List.mem_cons_of_mem c hd), Nat.ofDigitChars_cons, Nat.mul_comm]

/-- Digits have neither a mark nor a sign in front. So they are read in base ten, as one number,
which may be out of range. -/
theorem readInteger?_digits {cs : List Char} (h : ∀ c ∈ cs, c.isDigit = true) (hcs : cs ≠ []) :
    readInteger? cs = toInt32? (Nat.ofDigitChars 10 cs 0) := by
  have hradix : splitRadix cs = (10, cs) := by
    unfold splitRadix
    split
    · exact absurd (h 'x' (by simp)) (by decide)
    · exact absurd (h 'b' (by simp)) (by decide)
    · exact absurd (h 'o' (by simp)) (by decide)
    · rfl
  have hsigned : signed? 10 cs = (natural? 10 cs).map Int.ofNat := by
    unfold signed?
    split
    · exact absurd (h '-' (by simp)) (by decide)
    · exact absurd (h '+' (by simp)) (by decide)
    · rfl
  have hnonempty : cs.isEmpty = false := by simpa using hcs
  rw [readInteger?, hradix]
  simp only [hsigned, natural?, hnonempty, Bool.false_eq_true, if_false, extend?_ten h,
    Option.map_some, Option.bind_some]
  rfl

/-- An integer from zero on is read back from its digits. -/
theorem readInteger?_repr {v : Int32} (h : 0 ≤ v.toInt) :
    readInteger? (Nat.repr v.toInt.toNat).toList = some v := by
  have hdigits : ∀ c ∈ Nat.toDigits 10 v.toInt.toNat, c.isDigit = true :=
    fun c hc => Nat.isDigit_of_mem_toDigits (by omega) (by omega) hc
  have hlt : v.toInt < 2147483648 := Int32.toInt_lt v
  rw [Nat.toList_repr, readInteger?_digits hdigits Nat.toDigits_ne_nil,
    Nat.ofDigitChars_ten_toDigits, Int.toNat_of_nonneg h, toInt32?, if_pos (by omega),
    Int32.ofInt_toInt]

end Number

/-- The character of a byte. -/
theorem toNat_ofNat_toNat (v : UInt8) : (Char.ofNat v.toNat).toNat = v.toNat := by
  have hlt : v.toNat < 256 := UInt8.toNat_lt v
  have hvalid : v.toNat.isValidChar := .inl (by omega)
  rw [Char.ofNat, dif_pos hvalid]
  rfl

/-! ## Heads -/

open Reader Number

section Heads

variable {spell : Binary64 → String} {next : Kind → Prop}

/-- A literal is read back from its word. One case for each type. Integers and floats are read back
by hypothesis, characters by their code. -/
theorem readPrimary_literal {v : Literal} (h : v.Writable spell) :
    readPrimary.Takes [v.word spell] next (·.bare = .literal .nowhere v) := by
  apply takes_current
  rintro u ⟨hkind, htext⟩
  cases v with
  | int v =>
    have hvalue : u.value = Nat.repr v.toInt.toNat := htext rfl
    have hread : readInteger? u.value.toList = some v := by
      rw [hvalue]
      exact readInteger?_repr h
    simp only [hkind, Literal.word, hread]
    exact takes_advance fun _ _ => takes_pure rfl
  | float v =>
    have hvalue : u.value = spell v := htext rfl
    have hread : readDecimal? u.value.toList = some v := by
      rw [hvalue]
      exact h
    simp only [hkind, Literal.word, hread]
    exact takes_advance fun _ _ => takes_pure rfl
  | char v =>
    have hvalue : u.value = String.singleton (Char.ofNat v.toNat) := htext rfl
    simp only [hkind, Literal.word]
    refine takes_advance fun _ _ => takes_pure ?_
    rw [hvalue, String.toList_singleton, List.headD_cons, toNat_ofNat_toNat, UInt8.ofNat_toNat]
    rfl
  | bool v =>
    have hvalue : u.value = if v then "true" else "false" := htext rfl
    simp only [hkind, Literal.word]
    refine takes_advance fun _ _ => takes_pure ?_
    rw [hvalue]
    cases v <;> rfl

end Heads

end Pulse
