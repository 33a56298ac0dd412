/-
Texts are scanned line by line.

A newline ends every piece but blanks and block comments, so no piece reaches from one line to the
next that does not end with one of them. Where the first of two texts scans to its end, with no
comment left open, a newline behind it keeps the two apart: the second is scanned as if it stood
alone, only that its positions lie further back.

Positions that lie further back are cut to words again. As long as the two texts together are
shorter than 2^32 bytes, there is nothing to cut.
-/
import Pulse.Proofs.LexicalErrors

set_option autoImplicit false

namespace Pulse

open Pattern

/-! ## Positions moved back -/

/-- A position so many bytes and lines further back. -/
def Position.moved (bytes lines : Nat) (p : Position) : Position :=
  ⟨p.offset + bytes, p.line + lines⟩

/-- A token further back. -/
def Token.moved (bytes lines : Nat) (t : Token) : Token :=
  { t with span := ⟨t.span.start.moved bytes lines, t.span.stop.moved bytes lines⟩ }

/-- An error further back. -/
def SyntaxError.moved (bytes lines : Nat) (e : SyntaxError) : SyntaxError :=
  { e with position := e.position.moved bytes lines }

/-- An error as a scan reports it, with its position cut to words. -/
def SyntaxError.stored (e : SyntaxError) : SyntaxError := { e with position := e.position.stored }

/-- What a scan ends with when its text lies further back. -/
def movedResult (bytes lines : Nat) :
    Except SyntaxError (List Token) → Except SyntaxError (List Token)
  | .ok tokens => .ok (tokens.map fun t => (t.moved bytes lines).stored)
  | .error e => .error (e.moved bytes lines).stored

section Moved

variable (bytes lines : Nat) (p : Position)

/-- Walking over a text and moving it back can be done in either order. -/
theorem past_moved (cs : List Char) :
    (p.moved bytes lines).past cs = (p.past cs).moved bytes lines := by
  simp only [Position.past, Position.moved, Position.mk.injEq]
  omega

/-- A cut in front of a move is lost in the cut behind it. -/
theorem stored_moved : (p.stored.moved bytes lines).stored = (p.moved bytes lines).stored := by
  simp only [Position.stored, Position.moved, Nat.mod_add_mod]

/-- A walk over a text can stop anywhere and go on. -/
theorem past_take_drop (n : Nat) (cs : List Char) :
    (p.past (cs.take n)).past (cs.drop n) = p.past cs := by
  rw [← Position.past_append, List.take_append_drop]

/-- What is read from a piece does not depend on where it stands. Its position goes into the token
or the error and nowhere else, and is stored there. -/
theorem read_moved (pattern : Pattern) (piece : List Char) :
    pattern.read (p.moved bytes lines) piece =
      ((pattern.read p piece).map (Option.map fun t => (t.moved bytes lines).stored)).mapError
        fun e => (e.moved bytes lines).stored := by
  have htoken (k : Kind) (v : String) :
      (⟨k, v, (p.moved bytes lines).spanOver piece⟩ : Token) =
        ((⟨k, v, p.spanOver piece⟩ : Token).moved bytes lines).stored := by
    simp only [Token.moved, Token.stored, Position.spanOver, past_moved, stored_moved]
  have herror (cause : SyntaxError.Cause) :
      (⟨cause, (p.moved bytes lines).stored⟩ : SyntaxError) =
        ((⟨cause, p.stored⟩ : SyntaxError).moved bytes lines).stored := by
    simp only [SyntaxError.moved, SyntaxError.stored, stored_moved]
  cases pattern with
  | charLiteral =>
    simp only [Pattern.read, htoken, herror]
    split
    · split <;> rfl
    · rfl
  | _ =>
    simp only [Pattern.read, htoken, herror]
    rfl

/-- **Nor do the tokens of a text.** They lie further back by as much as the text does, and are cut
as the positions there are. -/
theorem scan_moved (cs : List Char) :
    scan (p.moved bytes lines) cs = movedResult bytes lines (scan p cs) := by
  induction p, cs using scan.induct with
  | case1 p =>
    rw [scan, scan, ← stored_moved]
    rfl
  | case2 p c cs hnone =>
    rw [scan_cons, scan_cons, hnone, ← stored_moved]
    rfl
  | case3 p c cs pattern n hfirst piece ih =>
    rw [scan_cons, scan_cons, hfirst]
    dsimp only
    rw [read_moved, past_moved, ih]
    cases hread : pattern.read p ((c :: cs).take n) with
    | error e => rfl
    | ok token =>
      cases hscan : scan (p.past ((c :: cs).take n)) ((c :: cs).drop n) with
      | error e => rfl
      | ok tokens => cases token <;> rfl

end Moved

/-! ## Newlines keep pieces apart -/

section Newlines

variable {p : Position} {pattern : Pattern} {c : Char} {cs rest : List Char} {n : Nat}
  {tokens : List Token}

/-- Only blanks and block comments have newlines in them. A line comment ends in front of its
newline, and a comment that is left open is cut off at its bracket. -/
theorem newline_notMem_of_length? (hp : pattern ∈ table) (hblanks : pattern ≠ .blanks)
    (hblock : pattern ≠ .blockComment) (h : pattern.length? cs = some n) :
    '\n' ∉ cs.take n := by
  cases pattern with
  | blanks => exact absurd rfl hblanks
  | blockComment => exact absurd rfl hblock
  | lineComment =>
    obtain ⟨body, htake, hbody⟩ := exists_lineComment h
    rw [htake]
    simpa using hbody
  | openComment =>
    obtain ⟨ds, rfl, rfl⟩ := exists_openComment h
    simp
  | word => exact (spells_wordKind (wordText_of_length? h)).newline_notMem
  | float => exact (floatText_of_length? h).newline_notMem
  | integer => exact (integerText_of_length? h).newline_notMem
  | charLiteral =>
    obtain ⟨⟨m, c⟩, hliteral, rfl⟩ := Option.map_eq_some_iff.mp h
    exact (charLiteral_of_length? hliteral).newline_notMem
  | fixed k s =>
    rw [take_of_fixed h]
    exact (Spells.fixed (spelling?_of_mem hp)).newline_notMem

/-- A beginning without a newline ends in front of the first one. -/
theorem prefix_of_newline_notMem {u : List Char} (h : u <+: cs ++ '\n' :: rest) (hu : '\n' ∉ u) :
    u <+: cs := by
  have hline : cs ++ ['\n'] <+: cs ++ '\n' :: rest := ⟨rest, by simp⟩
  rcases List.prefix_or_prefix_of_prefix h hline with hshort | hlong
  · rcases List.prefix_concat_iff.mp hshort with rfl | hfront
    · simp at hu
    · exact hfront
  · exact absurd (hlong.subset (by simp)) hu

/-- A block comment that goes on behind a newline was left open in front of it. If it is closed in
front of the newline, then it ends there, as block comments end as soon as they can. -/
theorem le_of_blockComment_newline (hopen : ∀ n, first? cs ≠ some (.openComment, n))
    (h : blockComment.length? (cs ++ '\n' :: rest) = some n) : n ≤ cs.length := by
  obtain ⟨body, htake, -⟩ := exists_blockComment h
  have hstart : ['/', '*'] <+: cs ++ '\n' :: rest := by
    refine List.IsPrefix.trans ?_ (List.take_prefix n _)
    exact ⟨body ++ ['*', '/'], htake.symm⟩
  obtain ⟨ds, rfl⟩ := prefix_of_newline_notMem hstart (by decide)
  cases hclosed : blockComment.length? ('/' :: '*' :: ds) with
  | none =>
    refine absurd (first?_eq [.blanks, .lineComment, .blockComment] rfl ?_ rfl) (hopen 2)
    exact List.forall_mem_cons.mpr ⟨.inl rfl, List.forall_mem_cons.mpr ⟨.inr rfl,
      List.forall_mem_singleton.mpr (.inr hclosed)⟩⟩
  | some m =>
    have hshortest := (shortest_of_length? h).shortest _
      ((List.take_prefix m _).trans (List.prefix_append _ _)) (matches_of_length? hclosed)
    exact hshortest.trans (List.length_take_le' m _)

/-- **A newline behind a text does not change its first match**, unless it starts with a blank or
leaves a comment open. In these two cases what is behind the newline may become part of the
match. -/
theorem first?_newline (hc : isBlank c = false)
    (hopen : ∀ n, first? (c :: cs) ≠ some (.openComment, n)) (rest : List Char) :
    first? (c :: cs ++ '\n' :: rest) = first? (c :: cs) := by
  refine first?_append fun q hq m hm => ?_
  by_cases hblock : q = .blockComment
  · subst hblock
    exact le_of_blockComment_newline hopen hm
  · have hblanks : q ≠ .blanks := by
      rintro rfl
      obtain ⟨d, ds, hcons, hd⟩ := exists_opens hm
      cases hcons
      exact absurd (hc.symm.trans hd) Bool.false_ne_true
    have hpiece := newline_notMem_of_length? hq hblanks hblock hm
    have hle := (prefix_of_newline_notMem (List.take_prefix m _) hpiece).length_le
    rwa [List.length_take_of_le (le_of_length? hm)] at hle

/-- One step of the scanner, in front of a newline. The pattern takes what it took without the
newline, so what follows the newline is not looked at. -/
theorem scan_step_newline {token : Option Token} (hc : isBlank c = false)
    (hfirst : first? (c :: cs) = some (pattern, n))
    (hread : pattern.read p ((c :: cs).take n) = .ok token) (rest : List Char) :
    scan p (c :: cs ++ '\n' :: rest) =
      (scan (p.past ((c :: cs).take n)) ((c :: cs).drop n ++ '\n' :: rest)).map
        (token.toList ++ ·) := by
  have hopen : ∀ m, first? (c :: cs) ≠ some (.openComment, m) := by
    intro m hm
    rw [hfirst] at hm
    cases hm
    cases hread
  have hn := le_of_length? (length?_of_first? hfirst)
  have htake : (c :: cs ++ '\n' :: rest).take n = (c :: cs).take n :=
    List.take_append_of_le_length hn
  have hstep := (first?_newline hc hopen rest).trans hfirst
  rw [scan_of_first? hstep (by rw [htake]; exact hread), htake, List.drop_append_of_le_length hn]

/-- **A text that scans to its end is scanned in the same way in front of a newline**, and the scan
goes on behind it. -/
theorem scan_newline (h : scan p cs = .ok tokens) :
    ∃ body, tokens = body ++ [.endOfInput (p.past cs).stored] ∧
      ∀ rest, scan p (cs ++ '\n' :: rest) =
        (scan ((p.past cs).past ['\n']) rest).map (body ++ ·) := by
  -- By the length of the text: each step of the scan cuts off a piece of it.
  induction hlen : cs.length using Nat.strongRecOn generalizing p cs tokens with
  | ind length ih =>
    cases cs with
    | nil =>
      rw [scan] at h
      cases h
      refine ⟨[], by rw [Position.past_nil]; rfl, fun rest => ?_⟩
      rw [List.nil_append, scan_blank rfl, Position.past_nil]
      cases scan (p.past ['\n']) rest <;> rfl
    | cons c cs =>
      by_cases hc : isBlank c
      · -- Blanks go one by one: a run of them may go on behind the newline.
        rw [scan_blank hc] at h
        obtain ⟨body, htokens, hrest⟩ := ih cs.length (by rw [← hlen]; simp) h rfl
        rw [← Position.past_append p [c] cs] at htokens hrest
        exact ⟨body, htokens, fun rest => by rw [List.cons_append, scan_blank hc, hrest]; rfl⟩
      · obtain ⟨pattern, n, token, others, hfirst, hread, hscan, rfl⟩ :=
          exists_step (List.cons_ne_nil c cs) h
        have hpos := pos_of_first?_eq_some hfirst
        have hshorter : ((c :: cs).drop n).length < length := by
          rw [List.length_drop, ← hlen]
          exact Nat.sub_lt (Nat.zero_lt_succ _) hpos
        obtain ⟨body, rfl, hrest⟩ := ih _ hshorter hscan rfl
        rw [past_take_drop] at hrest ⊢
        refine ⟨token.toList ++ body, (List.append_assoc ..).symm, fun rest => ?_⟩
        rw [scan_step_newline (Bool.not_eq_true _ ▸ hc) hfirst hread, hrest, map_append_append]

end Newlines

section Joined

variable {above : String} {tokens : List Token}

/-- The scan of two texts with a newline between them, from the scans of both. The second text is
scanned as on its own, from a position that is further by the first text and the newline. -/
theorem tokenize_newline (h : tokenize above = .ok tokens) :
    ∃ body, tokens = body ++ [.endOfInput (Position.past .origin above.toList).stored] ∧
      ∀ below : String, tokenize (above ++ "\n" ++ below) =
        (movedResult (Text.byteSize above.toList + 1) (1 + above.toList.count '\n')
          (tokenize below)).map (body ++ ·) := by
  obtain ⟨body, rfl, hrest⟩ := scan_newline h
  refine ⟨body, rfl, fun below => ?_⟩
  have htext : (above ++ "\n" ++ below).toList = above.toList ++ '\n' :: below.toList := by
    simp
  have hstart : (Position.past .origin above.toList).past ['\n'] =
      Position.moved (Text.byteSize above.toList + 1) (1 + above.toList.count '\n') .origin := by
    have hsize : '\n'.utf8Size = 1 := by decide
    simp only [Position.past, Position.moved, Position.origin, Text.byteSize_cons,
      Text.byteSize_nil, hsize, List.count_singleton_self, Position.mk.injEq]
    omega
  rw [tokenize, htext, hrest, hstart, scan_moved]
  rfl

/-- As long as it stays inside a short text, a token that lies further back is not cut. The offsets
of the joined text are still below the number of words. -/
theorem moved_stored_of_scan {bytes : Nat} (lines : Nat) {cs : List Char}
    (hsize : bytes + Text.byteSize cs < Position.wordCount) (h : scan .origin cs = .ok tokens) :
    ∀ t ∈ tokens, (t.moved bytes lines).stored = t.moved bytes lines := by
  intro t ht
  have horigin : Position.origin.offset + Text.byteSize cs = Text.byteSize cs := Nat.zero_add _
  obtain ⟨hstart, hstop⟩ := (scan_tiled h (by omega)).le_end t ht
  have hmoved (p : Position) (hp : p.offset ≤ Text.byteSize cs) :
      (p.moved bytes lines).offset < Position.wordCount := by
    have hoffset : (p.moved bytes lines).offset = p.offset + bytes := rfl
    omega
  exact Token.stored_eq (hmoved _ (by omega)) (hmoved _ (by omega))

/-- Nor is an error. -/
theorem moved_stored_of_scan_error {bytes lines : Nat} {cs : List Char} {e : SyntaxError}
    (hsize : bytes + Text.byteSize cs < Position.wordCount) (h : scan .origin cs = .error e) :
    (e.moved bytes lines).stored = e.moved bytes lines := by
  obtain ⟨before, bad, after, rfl, -, hposition, -⟩ := scan_error h
  have hle : e.position.offset ≤ Text.byteSize before := by
    rw [hposition, Position.stored, Position.past, Position.origin, Nat.zero_add]
    exact Nat.mod_le _ _
  have hmoved : (e.position.moved bytes lines).offset < Position.wordCount := by
    have hoffset : (e.position.moved bytes lines).offset = e.position.offset + bytes := rfl
    rw [Text.byteSize_append] at hsize
    omega
  rw [SyntaxError.stored, SyntaxError.moved, Position.stored_eq hmoved]

end Joined

end Pulse
