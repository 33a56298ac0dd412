/-
The scanner as a loop.

A scan is a walk over a text. Here it is taken apart into rounds, each of which ends the scan or
cuts off one piece and goes on behind it. A piece has a byte or more, so there are no more rounds
than bytes, and one for the end.
-/
import Pulse.Proofs.Layouts

set_option autoImplicit false

namespace Pulse

open Pattern

/-- A scan at work: where it is, the text behind that place, and the tokens so far. -/
structure Scanner where
  position : Position
  rest : List Char
  tokens : List Token

namespace Scanner

/-- In front of a source. -/
def start (source : String) : Scanner := ⟨.origin, source.toList, []⟩

/-- One round: the scan ends with tokens or an error, or it goes on behind the piece that the first
pattern cuts off. -/
def round (s : Scanner) : Except SyntaxError (List Token) ⊕ Scanner :=
  match s.rest with
  | [] => .inl (.ok (s.tokens ++ [.endOfInput s.position.stored]))
  | c :: cs =>
    match first? (c :: cs) with
    | none => .inl (.error ⟨.unrecognised (String.singleton c), s.position.stored⟩)
    | some (pattern, n) =>
      let piece := (c :: cs).take n
      match pattern.read s.position piece with
      | .error e => .inl (.error e)
      | .ok token => .inr ⟨s.position.past piece, (c :: cs).drop n, s.tokens ++ token.toList⟩

/-- So many rounds at most, and the result if the scan ends with one of them. -/
def run (s : Scanner) : Nat → Option (Except SyntaxError (List Token))
  | 0 => none
  | n + 1 =>
    match s.round with
    | .inl result => some result
    | .inr s' => s'.run n

/-- What a scan at work ends with. -/
def result (s : Scanner) : Except SyntaxError (List Token) :=
  (scan s.position s.rest).map (s.tokens ++ ·)

variable {s s' : Scanner}

/-- A round ends the scan, or cuts off what the first pattern takes. A scan ends where the text
does, where no pattern takes anything, and where a piece cannot be read (`tokenize`). -/
theorem round_cases (s : Scanner) :
    s.round = .inl s.result ∨
    ∃ pattern n token, first? s.rest = some (pattern, n) ∧
      pattern.read s.position (s.rest.take n) = .ok token ∧
      s.round = .inr ⟨s.position.past (s.rest.take n), s.rest.drop n,
        s.tokens ++ token.toList⟩ := by
  obtain ⟨p, cs, tokens⟩ := s
  cases cs with
  | nil =>
    left
    rw [result, scan]
    rfl
  | cons c cs =>
    -- A round that ends the scan does what the scan does; one that does not leaves the rest of it
    -- to do.
    cases hfirst : first? (c :: cs) with
    | none =>
      left
      simp only [round, result, scan_cons, hfirst]
      rfl
    | some found =>
      obtain ⟨pattern, n⟩ := found
      cases hread : pattern.read p ((c :: cs).take n) with
      | error e =>
        left
        simp only [round, result, scan_cons, hfirst, hread]
        rfl
      | ok token =>
        right
        refine ⟨pattern, n, token, rfl, hread, ?_⟩
        simp only [round, hfirst, hread]

/-- A round that does not end the scan takes a byte or more. No pattern takes an empty piece, and
every character has a byte or more. -/
theorem exists_piece_of_round (h : s.round = .inr s') :
    ∃ piece, 0 < Text.byteSize piece ∧ s.rest = piece ++ s'.rest ∧
      s'.position = s.position.past piece := by
  rcases round_cases s with hend | ⟨pattern, n, token, hfirst, -, hround⟩
  · rw [hend] at h
    cases h
  · rw [hround] at h
    cases h
    refine ⟨s.rest.take n, ?_, (List.take_append_drop n s.rest).symm, rfl⟩
    have hpos := pos_of_first?_eq_some hfirst
    cases hrest : s.rest with
    | nil =>
      rw [hrest] at hfirst
      cases hfirst
    | cons c cs =>
      obtain ⟨m, rfl⟩ := Nat.exists_eq_add_of_lt hpos
      have hchar := c.utf8Size_pos
      rw [Nat.zero_add, List.take_succ_cons, Text.byteSize_cons]
      omega

/-- **Every round ends the scan or moves its position forward.** So there are at most as many rounds
as the text has bytes, and one more to end. -/
theorem offset_lt_of_round (h : s.round = .inr s') : s.position.offset < s'.position.offset := by
  obtain ⟨piece, hpos, -, hposition⟩ := exists_piece_of_round h
  rw [hposition]
  exact Nat.lt_add_of_pos_right hpos

/-- Rounds do not change what the scan ends with. -/
theorem result_of_round (h : s.round = .inr s') : s.result = s'.result := by
  rcases round_cases s with hend | ⟨pattern, n, token, hfirst, hread, hround⟩
  · rw [hend] at h
    cases h
  · rw [hround] at h
    cases h
    rw [result, scan_of_first? hfirst hread, map_append_append, result]

/-- **A scan takes no more rounds than there are bytes left, and one.** So a bound on the rounds is
found without running them. -/
theorem run_eq_result {n : Nat} (h : Text.byteSize s.rest < n) : s.run n = some s.result := by
  induction n generalizing s with
  | zero => omega
  | succ n ih =>
    rw [run]
    cases hround : s.round with
    | inl result =>
      rcases round_cases s with hend | ⟨_, _, _, -, -, hgoes⟩
      · rw [hend] at hround
        cases hround
        rfl
      · rw [hgoes] at hround
        cases hround
    | inr s' =>
      obtain ⟨piece, hpos, hrest, -⟩ := exists_piece_of_round hround
      rw [hrest, Text.byteSize_append] at h
      rw [result_of_round hround]
      exact ih (by omega)

/-- A scan that has no tokens so far ends as the scan of its text does. -/
theorem result_mk (p : Position) (cs : List Char) : (mk p cs []).result = scan p cs := by
  unfold result
  cases scan p cs <;> rfl

/-- A scan in front of a source ends with its tokens. -/
theorem result_start (source : String) : (start source).result = tokenize source :=
  result_mk .origin source.toList

/-- With rounds enough, the loop gives the tokens of a text, wherever it starts. -/
theorem scan_eq_of_run {p : Position} {cs : List Char} {n : Nat}
    {r : Except SyntaxError (List Token)} (hn : Text.byteSize cs < n)
    (h : (mk p cs []).run n = some r) : scan p cs = r := by
  have hrun : (mk p cs []).run n = some (mk p cs []).result := run_eq_result hn
  rw [hrun, result_mk] at h
  exact Option.some.inj h

/-- So it does for a source. -/
theorem tokenize_eq_of_run {source : String} {n : Nat} {r : Except SyntaxError (List Token)}
    (hn : Text.byteSize source.toList < n) (h : (start source).run n = some r) :
    tokenize source = r :=
  scan_eq_of_run hn h

end Scanner

end Pulse
