/-
The language that is accepted, and where an error is reported.

Every list of tokens is settled one way or the other, and what the rules derive is read, so the
accepted lists are exactly those that the rules derive. The rules are those of the wider grammar:
a name in parentheses can be called.

What stands in front of the token of an error can be gone on with to a text that the rules derive,
so it can be gone on with to an accepted one. No reader looks further than that token, so whatever
stands behind it, the error is the same.
-/
import Pulse.Proofs.PhraseReading
import Pulse.Proofs.ProgramVerdicts

set_option autoImplicit false

namespace Pulse

open Ebnf

/-! ## What is accepted -/

section Accepted

variable {body : List Token} {last : Token}

/-- Tokens that give a program are a phrase of the grammar. Reading settles every list one way or
the other, and a list that is rejected gives no program. -/
theorem phrase_of_ofTokens (hbody : ∀ u ∈ body, u.kind ≠ .eof) (hlast : last.kind = .eof)
    {p : Program} (h : Program.ofTokens (body ++ [last]) = .ok p) :
    Phrase (.rule .program) body := by
  rcases ofTokens_settled hbody hlast with ⟨-, hphrase⟩ | ⟨e, us, u, vs, htokens, -, -, -, herror⟩
  · exact hphrase
  · rw [htokens, herror vs] at h
    cases h

/-- **The accepted tokens are those that the rules derive.** Among them, the documented ones are
those in which no closing parenthesis has an opening one right behind it. -/
theorem accepted_iff_derived (hbody : ∀ u ∈ body, u.kind ≠ .eof) (hlast : last.kind = .eof) :
    ((∃ p, Program.ofTokens (body ++ [last]) = .ok p) ↔
      Derives lenient (.rule .program) (body.map Token.kind) ∧ ∀ u ∈ body, u.Legible) ∧
    ((∃ p, Program.ofTokens (body ++ [last]) = .ok p) →
      (Derives documented (.rule .program) (body.map Token.kind) ↔
        ¬ [.closeParen, .openParen] <:+: body.map Token.kind)) := by
  have hderives : ∀ p, Program.ofTokens (body ++ [last]) = .ok p → Phrase (.rule .program) body :=
    fun _ hp => phrase_of_ofTokens hbody hlast hp
  refine ⟨⟨?_, ?_⟩, ?_⟩
  · rintro ⟨p, hp⟩
    exact ⟨(hderives p hp).derives, (hderives p hp).legible⟩
  · rintro ⟨hphrase, hlegible⟩
    exact ofTokens_phrase ⟨hphrase, hlegible⟩ hbody hlast
  · rintro ⟨p, hp⟩
    rw [derives_documented_iff]
    exact and_iff_right (hderives p hp).derives

end Accepted

/-- The tokens of a text that calls a name in parentheses. -/
def calledGroup : List Token :=
  [⟨.kwPrint, "print", .nowhere⟩, ⟨.openParen, "(", .nowhere⟩, ⟨.openParen, "(", .nowhere⟩,
   ⟨.identifier, "f", .nowhere⟩, ⟨.closeParen, ")", .nowhere⟩, ⟨.openParen, "(", .nowhere⟩,
   ⟨.integer, "1", .nowhere⟩, ⟨.closeParen, ")", .nowhere⟩, ⟨.closeParen, ")", .nowhere⟩,
   ⟨.semicolon, ";", .nowhere⟩]

/-- It is accepted, though it is none of the documented ones. -/
theorem calledGroup_accepted :
    (∃ p, Program.ofTokens (calledGroup ++ [.endOfInput .nowhere]) = .ok p) ∧
      ¬ Derives documented (.rule .program) (calledGroup.map Token.kind) := by
  refine ⟨⟨_, rfl⟩, fun h => ?_⟩
  -- The tokens have a closing parenthesis with an opening one right behind it.
  exact (derives_documented_iff.mp h).2 (by decide)

/-- The call of a grouped name, which shows that the two conditions on tokens can be met. -/
theorem calledGroup_derived :
    (∀ u ∈ calledGroup, u.kind ≠ .eof) ∧ (Token.endOfInput .nowhere).kind = .eof ∧
    ((∃ p, Program.ofTokens (calledGroup ++ [.endOfInput .nowhere]) = .ok p) ↔
      Derives lenient (.rule .program) (calledGroup.map Token.kind) ∧
        ∀ u ∈ calledGroup, u.Legible) ∧
    ((∃ p, Program.ofTokens (calledGroup ++ [.endOfInput .nowhere]) = .ok p) →
      (Derives documented (.rule .program) (calledGroup.map Token.kind) ↔
        ¬ [.closeParen, .openParen] <:+: calledGroup.map Token.kind)) := by
  have hbody : ∀ u ∈ calledGroup, u.kind ≠ .eof := by decide
  exact ⟨hbody, rfl, accepted_iff_derived hbody rfl⟩

/-! ## Where errors are -/

/-- A token of a kind, with a text that is a number of either kind. -/
def Token.sample (k : Kind) : Token := ⟨k, "0", .nowhere⟩

/-- A sample of any kind can be read: its text is a numeral for integers and for floats alike. -/
theorem Token.legible_sample (k : Kind) : (Token.sample k).Legible := by
  have hinteger : (Number.readInteger? "0".toList).isSome := by decide +kernel
  have hfloat : (Number.readDecimal? "0".toList).isSome := by decide +kernel
  cases k with
  | integer => exact hinteger
  | float => exact hfloat
  | _ => trivial

/-- What can be gone on with by the rules can be gone on with to an accepted text. The rules speak
of kinds of tokens, so one token of each kind is enough to go on with. -/
theorem Opening.exists_accepted {us : List Token} (h : Opening (.rule .program) us) :
    ∃ more last, (∀ u ∈ us ++ more, u.kind ≠ .eof) ∧ last.kind = .eof ∧
      ∃ p, Program.ofTokens (us ++ more ++ [last]) = .ok p := by
  obtain ⟨ks, hks⟩ := h.derives
  -- The kinds that complete the phrase are known; any tokens of these kinds will do.
  have hkinds : (us ++ ks.map Token.sample).map Token.kind = us.map Token.kind ++ ks := by
    have hsample : Token.kind ∘ Token.sample = id := rfl
    rw [List.map_append, List.map_map, hsample, List.map_id]
  have hphrase : Phrase (.rule .program) (us ++ ks.map Token.sample) := by
    refine ⟨by rw [hkinds]; exact hks, List.forall_mem_append.mpr ⟨h.legible, ?_⟩⟩
    intro u hu
    obtain ⟨k, -, rfl⟩ := List.mem_map.mp hu
    exact Token.legible_sample k
  have hbody : ∀ u ∈ us ++ ks.map Token.sample, u.kind ≠ .eof :=
    fun u hu => hphrase.derives.ne_eof (List.mem_map_of_mem hu)
  exact ⟨ks.map Token.sample, .endOfInput .nowhere, hbody, rfl, ofTokens_phrase hphrase hbody rfl⟩

/-- **An error is at the first token that no accepted text goes on with.** What stands in front of
the token can be gone on with to an accepted text, and every text that has the token there is
rejected with the same error. -/
theorem error_at_first_hopeless_token {body : List Token} {last : Token}
    (hbody : ∀ u ∈ body, u.kind ≠ .eof) (hlast : last.kind = .eof) {failure : Program.Failure}
    (h : Program.ofTokens (body ++ [last]) = .error failure) :
    ∃ e us u vs, failure = .invalid e ∧ body ++ [last] = us ++ u :: vs ∧
      e.position = u.span.start ∧
      (∃ more last', (∀ v ∈ us ++ more, v.kind ≠ .eof) ∧ last'.kind = .eof ∧
        ∃ p, Program.ofTokens (us ++ more ++ [last']) = .ok p) ∧
      ∀ rest, Program.ofTokens (us ++ u :: rest) = .error failure := by
  rcases ofTokens_settled hbody hlast with
    ⟨⟨p, hp⟩, -⟩ | ⟨e, us, u, vs, htokens, -, hopening, hposition, herror⟩
  · rw [hp] at h
    cases h
  · rw [htokens, herror vs] at h
    cases h
    exact ⟨e, us, u, vs, rfl, htokens, hposition, hopening.exists_accepted, herror⟩

/-- The tokens of a sum without its second operand. -/
def brokenSum : List Token :=
  [⟨.kwPrint, "print", ⟨⟨0, 1⟩, ⟨5, 1⟩⟩⟩, ⟨.openParen, "(", ⟨⟨5, 1⟩, ⟨6, 1⟩⟩⟩,
   ⟨.integer, "1", ⟨⟨6, 1⟩, ⟨7, 1⟩⟩⟩, ⟨.plus, "+", ⟨⟨8, 1⟩, ⟨9, 1⟩⟩⟩,
   ⟨.closeParen, ")", ⟨⟨10, 1⟩, ⟨11, 1⟩⟩⟩, ⟨.semicolon, ";", ⟨⟨11, 1⟩, ⟨12, 1⟩⟩⟩]

/-- A sum that breaks off: the error is at the parenthesis, since an operand could have stood
there. -/
theorem brokenSum_error :
    (∀ u ∈ brokenSum, u.kind ≠ .eof) ∧ (Token.endOfInput ⟨12, 1⟩).kind = .eof ∧
    Program.ofTokens (brokenSum ++ [.endOfInput ⟨12, 1⟩]) =
      .error (.invalid ⟨.unexpectedWhere ")" "expected an expression", ⟨10, 1⟩⟩) ∧
    ∃ e us u vs, Program.Failure.invalid
        ⟨.unexpectedWhere ")" "expected an expression", ⟨10, 1⟩⟩ = .invalid e ∧
      brokenSum ++ [.endOfInput ⟨12, 1⟩] = us ++ u :: vs ∧ e.position = u.span.start ∧
      (∃ more last', (∀ v ∈ us ++ more, v.kind ≠ .eof) ∧ last'.kind = .eof ∧
        ∃ p, Program.ofTokens (us ++ more ++ [last']) = .ok p) ∧
      ∀ rest, Program.ofTokens (us ++ u :: rest) =
        .error (.invalid ⟨.unexpectedWhere ")" "expected an expression", ⟨10, 1⟩⟩) := by
  have hbody : ∀ u ∈ brokenSum, u.kind ≠ .eof := by decide
  have herror : Program.ofTokens (brokenSum ++ [.endOfInput ⟨12, 1⟩]) =
      .error (.invalid ⟨.unexpectedWhere ")" "expected an expression", ⟨10, 1⟩⟩) := rfl
  exact ⟨hbody, rfl, herror, error_at_first_hopeless_token hbody rfl herror⟩

end Pulse
