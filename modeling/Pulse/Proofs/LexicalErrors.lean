/-
Scans fail at the first bad place.

A scan that fails has cut off good pieces up to the place that it reports. They are cut off in the
same way when the text ends there, so the text in front of the place scans; and what stands at the
place is all that the error depends on.
-/
import Pulse.Proofs.LongestMatch
import Pulse.Proofs.Tiling

set_option autoImplicit false

namespace Pulse

open Pattern

/-- What a scan fails on, with the text behind it, and the cause that it names. -/
inductive Offending : List Char → List Char → SyntaxError.Cause → Prop where
  /-- A character that no pattern takes. -/
  | character {c : Char} {after : List Char}
      (h : ∀ q ∈ table, q.length? (c :: after) = none) :
      Offending [c] after (.unrecognised (String.singleton c))
  /-- A literal of a character that is wider than a byte. -/
  | literal {piece : List Char} {c : Char} {after : List Char} (h : CharLiteral piece c)
      (hwide : 0xFF < c.toNat) : Offending piece after (.wideCharacter (String.ofList piece))
  /-- A comment that is not closed, and so has the whole rest of the text in it. -/
  | comment {body : List Char} (h : ¬ ['*', '/'] <:+: body) :
      Offending ('/' :: '*' :: body) [] .unterminatedComment

section Steps

variable {p : Position} {cs bad after : List Char} {pattern : Pattern} {n : Nat} {e : SyntaxError}
  {cause : SyntaxError.Cause}

/-- A scan fails on at least one character. -/
theorem Offending.ne_nil (h : Offending bad after cause) : bad ≠ [] := by
  cases h with
  | literal hliteral _ => cases hliteral <;> exact List.cons_ne_nil _ _
  | _ => exact List.cons_ne_nil _ _

/-- A piece that cannot be read ends the scan. -/
theorem scan_of_read_error (hfirst : first? cs = some (pattern, n))
    (hread : pattern.read p (cs.take n) = .error e) : scan p cs = .error e := by
  cases cs with
  | nil => cases hfirst
  | cons c cs =>
    rw [scan_cons, hfirst]
    dsimp only
    rw [hread]
    rfl

/-- No comment is closed where one is found open. The pattern of closed comments stands in front of
that of open ones. -/
theorem not_closed_of_first? (h : first? ('/' :: '*' :: cs) = some (.openComment, n)) :
    ¬ ['*', '/'] <:+: cs := by
  rintro ⟨body, rest, rfl⟩
  have hmatch : Pattern.blockComment.regex.Matches ('/' :: '*' :: (body ++ ['*', '/'])) :=
    matches_blockComment.mpr ⟨body, rfl⟩
  obtain ⟨m, hm, -⟩ := reach_blockComment hmatch rest
  -- A closed comment would be longer than the two characters that open it.
  have hlt := lt_of_first? h (q := .blockComment) (by decide) (by decide) (by simpa using hm)
  obtain ⟨body', htake, -⟩ := exists_blockComment hm
  have hlength := congrArg List.length htake
  obtain ⟨_, -, rfl⟩ := exists_openComment (length?_of_first? h)
  simp only [List.length_take, List.length_cons, List.length_append] at hlength
  omega

/-- A piece that cannot be read is one that a scan fails on, whatever stands behind it. There are
two such pieces: a comment that is not closed, up to the end of the text, and a character literal
for a character that does not fit into a byte. -/
theorem exists_offending (hfirst : first? cs = some (pattern, n))
    (hread : pattern.read p (cs.take n) = .error e) :
    ∃ bad after, cs = bad ++ after ∧ n ≤ bad.length ∧ Offending bad after e.cause ∧
      e.position = p.stored := by
  have hlength := length?_of_first? hfirst
  cases pattern with
  | openComment =>
    cases hread
    obtain ⟨ds, rfl, rfl⟩ := exists_openComment hlength
    exact ⟨_, [], (List.append_nil _).symm, by simp, .comment (not_closed_of_first? hfirst), rfl⟩
  | charLiteral =>
    refine ⟨cs.take n, cs.drop n, (List.take_append_drop n cs).symm, ?_, ?_⟩
    · rw [List.length_take_of_le (le_of_length? hlength)]
    · obtain ⟨⟨m, c⟩, hliteral, rfl⟩ := Option.map_eq_some_iff.mp hlength
      have hpiece := charLiteral_of_length? hliteral
      rw [hpiece.read_eq] at hread
      split at hread
      · cases hread
      · rename_i hwide
        cases hread
        exact ⟨.literal hpiece (by omega), rfl⟩
  | _ => cases hread

/-- A piece is cut off in the same way from a text that is cut somewhere behind it. A pattern never
takes more from a shorter text. -/
theorem scan_cut {token : Option Token} {rest : List Char} (hfirst : first? cs = some (pattern, n))
    (hread : pattern.read p (cs.take n) = .ok token) (h : cs.drop n = rest ++ after) :
    scan p (cs.take n ++ rest) = (scan (p.past (cs.take n)) rest).map (token.toList ++ ·) := by
  have hlength : (cs.take n).length = n :=
    List.length_take_of_le (le_of_length? (length?_of_first? hfirst))
  have hwhole : cs = (cs.take n ++ rest) ++ after := by
    rw [List.append_assoc, ← h, List.take_append_drop]
  refine scan_piece ?_ hread
  rw [hlength]
  exact first?_cut (hwhole ▸ hfirst) (by rw [List.length_append]; omega)

/-- **A scan fails at the first bad place**: the text in front of it scans, and no text behind what
it fails on is needed to fail. -/
theorem scan_error (h : scan p cs = .error e) :
    ∃ before bad after, cs = before ++ (bad ++ after) ∧ Offending bad after e.cause ∧
      e.position = (p.past before).stored ∧ (∃ tokens, scan p before = .ok tokens) ∧
      scan p (before ++ bad) = .error e := by
  have hempty (p : Position) : ∃ tokens, scan p [] = .ok tokens := ⟨_, by rw [scan]⟩
  induction p, cs using scan.induct with
  | case1 p =>
    rw [scan] at h
    cases h
  -- No pattern takes anything: the scan fails on one character.
  | case2 p c cs hnone =>
    rw [scan_cons, hnone] at h
    cases h
    have hcut : first? [c] = none := @first?_cut_none [c] cs hnone
    refine ⟨[], [c], cs, rfl, .character (first?_eq_none_iff.mp hnone), ?_, hempty p, ?_⟩
    · rw [Position.past_nil]
    · rw [List.nil_append, scan_cons, hcut]
  -- A piece is cut off. Either it cannot be read, or the scan goes on behind it.
  | case3 p c cs pattern n hfirst piece ih =>
    cases hread : pattern.read p ((c :: cs).take n) with
    | error e' =>
      rw [scan_of_read_error hfirst hread] at h
      cases h
      obtain ⟨bad, after, hbad, hn, hoffending, hposition⟩ := exists_offending hfirst hread
      rw [hbad] at hfirst hread ⊢
      rw [List.take_append_of_le_length hn] at hread
      refine ⟨[], bad, after, rfl, hoffending, ?_, hempty p, ?_⟩
      · rw [Position.past_nil, hposition]
      · exact scan_of_read_error (first?_cut hfirst hn) hread
    | ok token =>
      rw [scan_of_first? hfirst hread] at h
      -- The error comes from behind the piece, which is good in front of any text.
      cases hscan : scan (p.past ((c :: cs).take n)) ((c :: cs).drop n) with
      | ok tokens =>
        rw [hscan] at h
        cases h
      | error e' =>
        rw [hscan] at h
        cases h
        obtain ⟨before, bad, after, hrest, hbad, hposition, ⟨tokens, hbefore⟩, herror⟩ := ih hscan
        refine ⟨(c :: cs).take n ++ before, bad, after, ?_, hbad, ?_, ?_, ?_⟩
        · rw [List.append_assoc, ← hrest, List.take_append_drop]
        · rw [hposition, Position.past_append]
        · exact ⟨token.toList ++ tokens, by rw [scan_cut hfirst hread hrest, hbefore]; rfl⟩
        · rw [← List.append_assoc] at hrest
          rw [List.append_assoc, scan_cut hfirst hread hrest, herror]
          rfl

end Steps

section Sources

variable {source : String} {e : SyntaxError}

/-- **Lexical errors are reported at the first bad position**, in words of 32 bits. The position is
in front of what the scan fails on. Up to there the source scans, and has its end of input at the
position that is reported; with what stands there it fails in the same way, whatever is behind. In a
source shorter than 2^32 bytes the offset is the exact number of bytes in front, and the line is the
one that the newlines in front count. In a longer one the offset is only told up to a multiple of
2^32. -/
theorem tokenize_error_first (h : tokenize source = .error e) :
    ∃ before bad after, source.toList = before ++ (bad ++ after) ∧
      Offending bad after e.cause ∧
      Text.byteSize before < Text.byteSize source.toList ∧
      e.position.offset = Text.byteSize before % Position.wordCount ∧
      (Text.byteSize source.toList < Position.wordCount →
        e.position.offset = Text.byteSize before ∧
        e.position.offset < Text.byteSize source.toList ∧
        e.position.line = 1 + before.count '\n' ∧ e.position.line < Position.wordCount) ∧
      (∃ body, tokenize (String.ofList before) = .ok (body ++ [.endOfInput e.position]) ∧
        ∀ t ∈ body, t.kind ≠ .eof) ∧
      tokenize (String.ofList (before ++ bad)) = .error e := by
  obtain ⟨before, bad, after, hsource, hbad, hposition, ⟨tokens, hbefore⟩, herror⟩ := scan_error h
  -- What the scan fails on has at least one byte, and it is behind the position.
  have hinside : Text.byteSize before < Text.byteSize source.toList := by
    obtain ⟨c, ds, rfl⟩ := List.exists_cons_of_ne_nil hbad.ne_nil
    have hpos := c.utf8Size_pos
    rw [hsource, Text.byteSize_append, List.cons_append, Text.byteSize_cons]
    omega
  have hoffset : e.position.offset = Text.byteSize before % Position.wordCount := by
    rw [hposition, Position.stored, Position.past, Position.origin, Nat.zero_add]
  refine ⟨before, bad, after, hsource, hbad, hinside, hoffset, fun hsize => ?_, ?_, ?_⟩
  · have hexact := hoffset.trans (Nat.mod_eq_of_lt (Nat.lt_trans hinside hsize))
    have hline : e.position.line = 1 + before.count '\n' := by
      rw [hposition]
      rfl
    -- Each line in front has a byte for its newline, and what the scan fails on has another one.
    have hcount : before.count '\n' ≤ before.length := List.count_le_length
    have hlength := Text.length_le_byteSize before
    exact ⟨hexact, hexact ▸ hinside, hline, by omega⟩
  · obtain ⟨body, rfl, hbody⟩ := exists_body_of_scan hbefore
    refine ⟨body, ?_, hbody⟩
    rw [tokenize, String.toList_ofList, hbefore, hposition]
  · rw [tokenize, String.toList_ofList, herror]

end Sources

/-- A letter that does not fit in a byte, behind a comment of two lines with a letter of two bytes.
The error is on the second line, and its offset counts bytes. -/
theorem greek_literal_first :
    tokenize "/* ä\n */'λ' x" = .error ⟨.wideCharacter "'λ'", ⟨9, 2⟩⟩ ∧
    Text.byteSize "/* ä\n */'λ' x".toList < Position.wordCount ∧
    ∃ before bad after, "/* ä\n */'λ' x".toList = before ++ (bad ++ after) ∧
      Offending bad after (.wideCharacter "'λ'") ∧ 9 = Text.byteSize before ∧
      2 = 1 + before.count '\n' ∧
      (∃ body, tokenize (String.ofList before) = .ok (body ++ [.endOfInput ⟨9, 2⟩])) ∧
      tokenize (String.ofList (before ++ bad)) = .error ⟨.wideCharacter "'λ'", ⟨9, 2⟩⟩ := by
  have hsource : "/* ä\n */'λ' x".toList =
      accentedLead.flatMap Filler.closedText ++ "'λ' x".toList := by decide
  have hfirst : first? "'λ' x".toList = some (.charLiteral, 3) := rfl
  have herror : tokenize "/* ä\n */'λ' x" = .error ⟨.wideCharacter "'λ'", ⟨9, 2⟩⟩ := by
    rw [tokenize, hsource, scan_fillers]
    exact scan_of_read_error hfirst rfl
  have hsize : Text.byteSize "/* ä\n */'λ' x".toList < Position.wordCount := by decide
  obtain ⟨before, bad, after, happend, hbad, -, -, hshort, ⟨body, hbody, -⟩, hcut⟩ :=
    tokenize_error_first herror
  obtain ⟨hoffset, -, hline, -⟩ := hshort hsize
  exact ⟨herror, hsize, before, bad, after, happend, hbad, hoffset, hline, ⟨body, hbody⟩, hcut⟩

/-! ## Sources that are too long -/

/-- Blanks are walked over, however many there are; the position behind them is stored. -/
theorem tokenize_blanks_hash {blanks : List Char} (h : RunOf isBlank blanks) :
    tokenize (String.ofList (blanks ++ ['#'])) =
      .error ⟨.unrecognised "#", (Position.past .origin blanks).stored⟩ := by
  have hnone : first? ['#'] = none := rfl
  have hrest : ∀ d ∈ ['#'].head?, isBlank d = false := by
    rintro d ⟨⟩
    rfl
  rw [tokenize, String.toList_ofList, scan_blanks h hrest, scan_cons, hnone]
  rfl

/-- Five newlines and blanks up to 2^32 bytes: the offset of the sign behind them is cut to zero,
and in front of offset zero there are no newlines that could make up its line. -/
theorem error_behind_words_misplaced :
    ∃ source e, Text.byteSize source.toList = Position.wordCount + 1 ∧
      tokenize source = .error e ∧ e.position = ⟨0, 6⟩ ∧
      ∀ before after, source.toList = before ++ after →
        Text.byteSize before = e.position.offset → e.position.line ≠ 1 + before.count '\n' := by
  have hblanks (n : Nat) : RunOf isBlank (List.replicate 5 '\n' ++ List.replicate n ' ') := by
    refine ⟨List.append_ne_nil_of_left_ne_nil (List.cons_ne_nil _ _) _, ?_⟩
    refine List.forall_mem_append.mpr ⟨fun c hc => ?_, fun c hc => ?_⟩
    · rw [List.eq_of_mem_replicate hc]
      rfl
    · rw [List.eq_of_mem_replicate hc]
      rfl
  have hbytes (n : Nat) :
      Text.byteSize (List.replicate 5 '\n' ++ List.replicate n ' ') = 5 + n := by
    rw [Text.byteSize_append, Text.byteSize_replicate, Text.byteSize_replicate]
    exact congrArg (5 + ·) (Nat.mul_one n)
  -- The number of blanks stays a variable as long as it can: nothing may unfold a text of this
  -- length.
  have hposition (n : Nat) (hn : 5 + n = Position.wordCount) :
      (Position.past .origin (List.replicate 5 '\n' ++ List.replicate n ' ')).stored = ⟨0, 6⟩ := by
    have hcount : (List.replicate 5 '\n' ++ List.replicate n ' ').count '\n' = 5 := by
      rw [List.count_append, List.count_replicate_self, List.count_replicate, if_neg (by decide)]
    rw [Position.past, hbytes, hcount, hn]
    rfl
  obtain ⟨n, hn⟩ : ∃ n, 5 + n = Position.wordCount := ⟨4294967291, rfl⟩
  refine ⟨_, _, ?_, tokenize_blanks_hash (hblanks n), hposition n hn, ?_⟩
  · rw [String.toList_ofList, Text.byteSize_append, hbytes, hn]
    rfl
  · intro before after _ hoffset
    rw [hposition n hn] at hoffset ⊢
    rw [Text.byteSize_eq_zero hoffset]
    decide

end Pulse
