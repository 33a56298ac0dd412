/-
Tokens tile their source.

A scan cuts its text into pieces, one behind the other, and every piece is a token or makes none.
From this relation between a text and its tokens everything is read off that the rest of the
compiler assumes of positions: where a token starts and ends, on which line, what its text is, and
what may stand between two of them.

The relation is one of exact positions. Those of the tokens that a scan makes are cut to words, and
the two are the same in a text that is shorter than the words can count.
-/
import Pulse.Proofs.Layouts

set_option autoImplicit false

namespace Pulse

open Pattern

/-! ## Pieces of a source -/

/-- The piece of a text between two offsets in bytes. Both fall between characters. -/
def Slice (source : List Char) (start stop : Nat) (piece : List Char) : Prop :=
  ∃ before after, source = before ++ piece ++ after ∧ Text.byteSize before = start ∧
    Text.byteSize (before ++ piece) = stop

/-- **Tokens that tile a source.** -/
structure Tiling (source : List Char) (tokens : List Token) : Prop where
  /-- The last token is the end of input, with the empty stretch at the end, and no other is. -/
  last : ∃ body stop, tokens = body ++ [stop] ∧ (∀ t ∈ body, t.kind ≠ .eof) ∧ stop.kind = .eof ∧
    stop.span.start = stop.span.stop ∧ stop.span.start.offset = Text.byteSize source
  /-- All others take a byte or more. -/
  nonempty : ∀ t ∈ tokens, t.kind ≠ .eof → t.span.start.offset < t.span.stop.offset
  /-- They stand in their order, and do not overlap. -/
  ordered : tokens.Pairwise fun s t => s.span.stop.offset ≤ t.span.start.offset
  /-- A token was cut from a spelling of its kind, which is its value unless it is a character. -/
  spelled : ∀ t ∈ tokens, t.kind ≠ .eof → ∃ piece,
    Slice source t.span.start.offset t.span.stop.offset piece ∧ Spells t.kind piece t.value ∧
    (t.kind ≠ .char → t.value = String.ofList piece) ∧
    (t.kind = .char → ∃ c, CharLiteral piece c ∧ t.value = String.singleton c)
  /-- Nothing but blanks and comments is in front of the first token. -/
  leading : ∀ t ∈ tokens.head?, ∃ gap, Slice source 0 t.span.start.offset gap ∧ Trivia gap
  /-- Nor is anything else between two tokens. -/
  between : ∀ s t, [s, t] <:+: tokens →
    ∃ gap, Slice source s.span.stop.offset t.span.start.offset gap ∧ Trivia gap
  /-- A token is on one line, the one that its start is on. -/
  lines : ∀ t ∈ tokens, ∃ before, Slice source 0 t.span.start.offset before ∧
    t.span.start.line = 1 + before.count '\n' ∧ t.span.stop.line = 1 + before.count '\n'

/-- A position in a source, with the text that is behind it. -/
def At (source : List Char) (p : Position) (cs : List Char) : Prop :=
  ∃ before, source = before ++ cs ∧ p = Position.past .origin before

section At

variable {source cs piece rest : List Char} {p : Position}

/-- The whole source stands behind its first position. -/
theorem at_origin (source : List Char) : At source .origin source :=
  ⟨[], rfl, (Position.past_nil _).symm⟩

/-- Behind a piece stands the rest of the text. -/
theorem At.past (h : At source p (piece ++ rest)) : At source (p.past piece) rest := by
  obtain ⟨before, rfl, rfl⟩ := h
  exact ⟨before ++ piece, (List.append_assoc ..).symm, (Position.past_append ..).symm⟩

/-- The piece that stands at a position is the part of the source from there to the position past
it. -/
theorem At.slice (h : At source p (piece ++ rest)) :
    Slice source p.offset (p.past piece).offset piece := by
  obtain ⟨before, rfl, rfl⟩ := h
  refine ⟨before, rest, (List.append_assoc ..).symm, ?_, ?_⟩
  · simp [Position.past, Position.origin]
  · simp [Position.past, Position.origin]

/-- The line of a position counts the newlines in front of it. -/
theorem At.line (h : At source p cs) :
    ∃ before, Slice source 0 p.offset before ∧ p.line = 1 + before.count '\n' := by
  obtain ⟨before, rfl, rfl⟩ := h
  refine ⟨before, ⟨[], cs, rfl, rfl, ?_⟩, rfl⟩
  simp [Position.past, Position.origin]

/-- Where no text is left, all bytes of the source are in front. -/
theorem At.offset_end (h : At source p []) : p.offset = Text.byteSize source := by
  obtain ⟨before, rfl, rfl⟩ := h
  simp [Position.past, Position.origin]

/-- The text in front of a position and the text behind it make up the source, so their bytes do. -/
theorem At.offset_add (h : At source p cs) :
    p.offset + Text.byteSize cs = Text.byteSize source := by
  obtain ⟨before, rfl, rfl⟩ := h
  simp [Position.past, Position.origin]

/-- **Inside a short text nothing is lost when a position is stored.** No offset in it is above the
size of the text, so all of them fit into words. -/
theorem At.stored_eq (h : At source p cs) (hsize : Text.byteSize source < Position.wordCount) :
    p.stored = p := by
  have hoffset := h.offset_add
  exact Position.stored_eq (by omega)

/-- A line is as far down as there are newlines, and every newline takes a byte. So in a short text
the number of a line fits into a word, unless the text is nothing but newlines, as many as it can
have, and the line is the one behind the last of them. -/
theorem At.line_lt (h : At source p cs) (hsize : Text.byteSize source < Position.wordCount) :
    p.line < Position.wordCount ∨
      source = List.replicate (Position.wordCount - 1) '\n' ∧ cs = [] := by
  obtain ⟨before, rfl, rfl⟩ := h
  have hline : (Position.past .origin before).line = 1 + before.count '\n' := rfl
  rw [hline]
  rw [Text.byteSize_append] at hsize
  have hcount : before.count '\n' ≤ before.length := List.count_le_length
  have hbytes : before.length ≤ Text.byteSize before := Text.length_le_byteSize before
  by_cases hfits : 1 + before.count '\n' < Position.wordCount
  · exact .inl hfits
  · -- There is no byte left that is not a newline in front of the position.
    have hrest : cs = [] := by
      have hzero : Text.byteSize cs = 0 := by omega
      exact Text.byteSize_eq_zero hzero
    have hlength : before.length = Position.wordCount - 1 := by omega
    have hall : before.count '\n' = before.length := by omega
    refine .inr ⟨?_, hrest⟩
    rw [hrest, List.append_nil, ← hlength]
    exact List.eq_replicate_iff.mpr ⟨rfl, fun c hc => (List.count_eq_length.mp hall c hc).symm⟩

end At

/-! ## Texts cut into pieces -/

/-- A text at a position is cut into pieces: fillers, spellings of tokens, and the end of input.
Each token has the positions where its piece starts and ends, as the walk counts them. -/
inductive Tiled : Position → List Char → List Token → Prop where
  | done (p : Position) : Tiled p [] [.endOfInput p]
  | skip {p : Position} {gap rest : List Char} {tokens : List Token} (hgap : Trivia gap)
      (h : Tiled (p.past gap) rest tokens) : Tiled p (gap ++ rest) tokens
  | token {p : Position} {piece rest : List Char} {tokens : List Token} {k : Kind} {v : String}
      (hspells : Spells k piece v) (h : Tiled (p.past piece) rest tokens) :
      Tiled p (piece ++ rest) (⟨k, v, ⟨p, p.past piece⟩⟩ :: tokens)

/-- A token as a scan makes it, with its positions cut to words. -/
def Token.stored (t : Token) : Token :=
  { t with span := ⟨t.span.start.stored, t.span.stop.stored⟩ }

/-- Nothing of a token is lost if both of its offsets fit into words. -/
theorem Token.stored_eq {t : Token} (hstart : t.span.start.offset < Position.wordCount)
    (hstop : t.span.stop.offset < Position.wordCount) : t.stored = t := by
  rw [Token.stored, Position.stored_eq hstart, Position.stored_eq hstop]

namespace Tiled

variable {source cs : List Char} {p : Position} {tokens : List Token}

/-- No piece leads back. -/
theorem offset_past (p : Position) (piece : List Char) : p.offset ≤ (p.past piece).offset :=
  Nat.le_add_right _ _

/-- No token starts in front of the text. -/
theorem le_start (h : Tiled p cs tokens) : ∀ t ∈ tokens, p.offset ≤ t.span.start.offset := by
  induction h with
  | done p =>
    rw [List.forall_mem_singleton]
    exact Nat.le_refl _
  | @skip p gap _ _ _ _ ih => exact fun t ht => Nat.le_trans (offset_past p gap) (ih t ht)
  | @token p piece _ _ _ _ _ _ ih =>
    refine List.forall_mem_cons.mpr ⟨Nat.le_refl _, fun t ht => ?_⟩
    exact Nat.le_trans (offset_past p piece) (ih t ht)

/-- The tokens of a text end with one for the end of input, which is empty and stands behind all
bytes. No other token is of its kind. -/
theorem last (h : Tiled p cs tokens) (hat : At source p cs) :
    ∃ body stop, tokens = body ++ [stop] ∧ (∀ t ∈ body, t.kind ≠ .eof) ∧ stop.kind = .eof ∧
      stop.span.start = stop.span.stop ∧ stop.span.start.offset = Text.byteSize source := by
  induction h with
  | done p => exact ⟨[], .endOfInput p, rfl, by simp, rfl, rfl, hat.offset_end⟩
  | skip _ _ ih => exact ih hat.past
  | token hspells _ ih =>
    obtain ⟨body, stop, rfl, hbody, hstop⟩ := ih hat.past
    exact ⟨_ :: body, stop, rfl, List.forall_mem_cons.mpr ⟨hspells.ne_eof, hbody⟩, hstop⟩

/-- The end of input stands behind the whole text. It is the only token that stands for no piece of
the text. -/
theorem exists_body (h : Tiled p cs tokens) :
    ∃ body, tokens = body ++ [.endOfInput (p.past cs)] ∧ ∀ t ∈ body, t.kind ≠ .eof := by
  induction h with
  | done p => exact ⟨[], by rw [Position.past_nil]; rfl, by simp⟩
  | skip _ _ ih =>
    rw [Position.past_append]
    exact ih
  | token hspells _ ih =>
    obtain ⟨body, rfl, hbody⟩ := ih
    rw [Position.past_append]
    exact ⟨_ :: body, rfl, List.forall_mem_cons.mpr ⟨hspells.ne_eof, hbody⟩⟩

/-- Every token that stands for a piece has at least one byte. No kind of token is spelled by the
empty text, and every character has a byte. -/
theorem nonempty (h : Tiled p cs tokens) :
    ∀ t ∈ tokens, t.kind ≠ .eof → t.span.start.offset < t.span.stop.offset := by
  induction h with
  | done p =>
    rw [List.forall_mem_singleton]
    exact fun hkind => absurd rfl hkind
  | skip _ _ ih => exact ih
  | @token p piece _ _ _ _ hspells _ ih =>
    refine List.forall_mem_cons.mpr ⟨fun _ => ?_, ih⟩
    obtain ⟨c, cs, rfl⟩ := List.exists_cons_of_ne_nil hspells.ne_nil
    have hpos := c.utf8Size_pos
    simp only [Position.past, Text.byteSize_cons]
    omega

/-- A token starts where the one in front of it ended, or behind. So tokens do not overlap, and they
stand in the order of the text. -/
theorem ordered (h : Tiled p cs tokens) :
    tokens.Pairwise fun s t => s.span.stop.offset ≤ t.span.start.offset := by
  induction h with
  | done p => exact List.pairwise_singleton _ _
  | skip _ _ ih => exact ih
  | token _ h ih => exact List.pairwise_cons.mpr ⟨h.le_start, ih⟩

/-- The text of a token, between its two offsets, is a spelling of it. -/
theorem spelled (h : Tiled p cs tokens) (hat : At source p cs) :
    ∀ t ∈ tokens, t.kind ≠ .eof → ∃ piece,
      Slice source t.span.start.offset t.span.stop.offset piece ∧ Spells t.kind piece t.value := by
  induction h with
  | done p =>
    rw [List.forall_mem_singleton]
    exact fun hkind => absurd rfl hkind
  | skip _ _ ih => exact ih hat.past
  | token hspells _ ih =>
    exact List.forall_mem_cons.mpr ⟨fun _ => ⟨_, hat.slice, hspells⟩, ih hat.past⟩

/-- Wherever the text stands, its tokens are cut from spellings of them. -/
theorem exists_spells (h : Tiled p cs tokens) :
    ∀ t ∈ tokens, t.kind ≠ .eof → ∃ piece, Spells t.kind piece t.value := by
  induction h with
  | done p =>
    rw [List.forall_mem_singleton]
    exact fun hkind => absurd rfl hkind
  | skip _ _ ih => exact ih
  | token hspells _ ih => exact List.forall_mem_cons.mpr ⟨fun _ => ⟨_, hspells⟩, ih⟩

/-- The text starts with what stands in front of the first token. By induction on the tiling: gaps
add up until the first piece of a token. -/
theorem leading (h : Tiled p cs tokens) : ∀ t ∈ tokens.head?,
    ∃ gap rest, cs = gap ++ rest ∧ Trivia gap ∧ t.span.start = p.past gap := by
  induction h with
  | done p =>
    intro t ht
    cases ht
    exact ⟨[], [], rfl, trivia_nil, (Position.past_nil p).symm⟩
  | @skip p gap rest tokens hgap _ ih =>
    intro t ht
    obtain ⟨gap', rest', rfl, hgap', hstart⟩ := ih t ht
    refine ⟨gap ++ gap', rest', (List.append_assoc ..).symm, hgap.append hgap', ?_⟩
    rw [hstart, Position.past_append]
  | @token p piece rest tokens k v hspells _ _ =>
    intro t ht
    cases ht
    exact ⟨[], piece ++ rest, rfl, trivia_nil, (Position.past_nil p).symm⟩

/-- A gap from a position to the first token behind it. -/
theorem gap (h : Tiled p cs tokens) (hat : At source p cs) : ∀ t ∈ tokens.head?,
    ∃ gap, Slice source p.offset t.span.start.offset gap ∧ Trivia gap := by
  intro t ht
  obtain ⟨gap, rest, rfl, hgap, hstart⟩ := h.leading t ht
  refine ⟨gap, ?_, hgap⟩
  rw [hstart]
  exact hat.slice

/-- Between a token and the next one stand blanks and comments only. They are cut out of the text by
the end of the one and the start of the other. -/
theorem between (h : Tiled p cs tokens) (hat : At source p cs) : ∀ s t, [s, t] <:+: tokens →
    ∃ gap, Slice source s.span.stop.offset t.span.start.offset gap ∧ Trivia gap := by
  induction h with
  | done p =>
    intro s t hinfix
    have hlength := hinfix.length_le
    simp at hlength
  | skip _ _ ih => exact ih hat.past
  | token _ h ih =>
    intro s t hinfix
    -- Either the first of the two tokens is the one cut off here, or both are in the rest.
    rcases List.infix_cons_iff.mp hinfix with hfirst | hothers
    · obtain ⟨rfl, others, rfl⟩ := List.cons_prefix_cons.mp hfirst
      exact h.gap hat.past t rfl
    · exact ih hat.past s t hothers

/-- Both lines of a token count the newlines in front of its start. They are the same, as no
spelling has a newline in it. -/
theorem lines (h : Tiled p cs tokens) (hat : At source p cs) :
    ∀ t ∈ tokens, ∃ before, Slice source 0 t.span.start.offset before ∧
      t.span.start.line = 1 + before.count '\n' ∧ t.span.stop.line = 1 + before.count '\n' := by
  induction h with
  | done p =>
    rw [List.forall_mem_singleton]
    obtain ⟨before, hslice, hline⟩ := hat.line
    exact ⟨before, hslice, hline, hline⟩
  | skip _ _ ih => exact ih hat.past
  | token hspells _ ih =>
    refine List.forall_mem_cons.mpr ⟨?_, ih hat.past⟩
    obtain ⟨before, hslice, hline⟩ := hat.line
    -- The end of the token is past its spelling, which has no newline.
    refine ⟨before, hslice, hline, ?_⟩
    -- A token has no newline in it.
    rw [← hline, Position.past, List.count_eq_zero.mpr hspells.newline_notMem, Nat.add_zero]

/-- No token reaches beyond the text. The end of input stands right behind the text, so it reaches
its end. -/
theorem le_end (h : Tiled p cs tokens) : ∀ t ∈ tokens,
    t.span.start.offset ≤ p.offset + Text.byteSize cs ∧
      t.span.stop.offset ≤ p.offset + Text.byteSize cs := by
  induction h with
  | done p =>
    rw [List.forall_mem_singleton]
    exact ⟨Nat.le_add_right _ _, Nat.le_add_right _ _⟩
  | @skip p gap rest _ _ _ ih =>
    rw [Text.byteSize_append, ← Nat.add_assoc]
    exact ih
  | @token p piece rest _ _ _ _ _ ih =>
    rw [Text.byteSize_append, ← Nat.add_assoc]
    refine List.forall_mem_cons.mpr ⟨⟨?_, Nat.le_add_right _ _⟩, ih⟩
    exact Nat.le_trans (offset_past p piece) (Nat.le_add_right _ _)

/-- **In a short text the tokens have exact positions.** No token of it reaches beyond the end of
the text. -/
theorem map_stored (h : Tiled p cs tokens)
    (hsize : p.offset + Text.byteSize cs < Position.wordCount) :
    tokens.map Token.stored = tokens := by
  have hall : ∀ t ∈ tokens, t.stored = id t := by
    intro t ht
    obtain ⟨hstart, hstop⟩ := h.le_end t ht
    exact Token.stored_eq (Nat.lt_of_le_of_lt hstart hsize) (Nat.lt_of_le_of_lt hstop hsize)
  rw [List.map_congr_left hall, List.map_id]

end Tiled

/-! ## What a scan cuts off -/

section Scans

variable {p : Position} {cs : List Char} {pattern : Pattern} {n : Nat} {token : Option Token}
  {tokens : List Token}

/-- Blanks make no token, however many there are. -/
theorem trivia_of_blanks (h : ∀ c ∈ cs, isBlank c) : Trivia cs := by
  induction cs with
  | nil => exact trivia_nil
  | cons c cs ih =>
    obtain ⟨hc, hcs⟩ := List.forall_mem_cons.mp h
    exact (Filler.blank c hc).trivia.append (ih hcs)

/-- **Every piece that is cut off is a spelling of the token it makes, or makes none.** One case for
each pattern of the table, by what the pattern can cut off. -/
theorem cut_sound (hfirst : first? cs = some (pattern, n))
    (hread : pattern.read p (cs.take n) = .ok token) :
    token = none ∧ Trivia (cs.take n) ∨
      ∃ k v, token = some ⟨k, v, p.spanOver (cs.take n)⟩ ∧ Spells k (cs.take n) v := by
  obtain ⟨q, hmem, hq⟩ := List.exists_of_findSome?_eq_some hfirst
  obtain ⟨m, hlength, heq⟩ := Option.map_eq_some_iff.mp hq
  cases heq
  cases pattern with
  | blanks =>
    cases hread
    exact .inl ⟨rfl, trivia_of_blanks (runOf_of_nonzero hlength).all⟩
  | lineComment =>
    cases hread
    obtain ⟨body, htake, hbody⟩ := exists_lineComment hlength
    rw [htake]
    exact .inl ⟨rfl, (Filler.lineComment body hbody).trivia⟩
  | blockComment =>
    cases hread
    obtain ⟨body, htake, hbody⟩ := exists_blockComment hlength
    rw [htake]
    exact .inl ⟨rfl, (Filler.blockComment body hbody).trivia⟩
  -- A comment that is left open is an error.
  | openComment => cases hread
  | word =>
    cases hread
    exact .inr ⟨_, _, rfl, spells_wordKind (wordText_of_length? hlength)⟩
  | float =>
    cases hread
    exact .inr ⟨_, _, rfl, .float (floatText_of_length? hlength)⟩
  | integer =>
    cases hread
    exact .inr ⟨_, _, rfl, .integer (integerText_of_length? hlength)⟩
  | charLiteral =>
    obtain ⟨⟨m, c⟩, hliteral, rfl⟩ := Option.map_eq_some_iff.mp hlength
    have hpiece := charLiteral_of_length? hliteral
    rw [hpiece.read_eq] at hread
    split at hread
    · rename_i hc
      cases hread
      exact .inr ⟨_, _, rfl, .char hpiece hc⟩
    · cases hread
  | fixed k s =>
    cases hread
    rw [take_of_fixed hlength]
    exact .inr ⟨_, _, rfl, .fixed (spelling?_of_mem hmem)⟩

/-- **A scan that succeeds tiles its text**, and stores the positions that it walks through. By
induction on the length of the text, piece by piece. The exact positions are those of the walk,
which never wraps. -/
theorem exists_tiled (h : scan p cs = .ok tokens) :
    ∃ exact, Tiled p cs exact ∧ tokens = exact.map Token.stored := by
  induction hlen : cs.length using Nat.strongRecOn generalizing p cs tokens with
  | ind length ih =>
    by_cases hcs : cs = []
    · subst hcs
      rw [scan] at h
      cases h
      exact ⟨_, .done p, rfl⟩
    · obtain ⟨pattern, n, token, others, hfirst, hread, hscan, rfl⟩ := exists_step hcs h
      have hpos := pos_of_first?_eq_some hfirst
      have hshorter : (cs.drop n).length < length := by
        have hlength := List.length_pos_iff.mpr hcs
        rw [List.length_drop]
        omega
      obtain ⟨exact, htail, rfl⟩ := ih _ hshorter hscan rfl
      rw [← List.take_append_drop n cs]
      rcases cut_sound hfirst hread with ⟨rfl, htrivia⟩ | ⟨k, v, rfl, hspells⟩
      · exact ⟨exact, .skip htrivia htail, rfl⟩
      · exact ⟨_, .token hspells htail, rfl⟩

/-- The tokens of a short text tile it as they are. -/
theorem scan_tiled (h : scan p cs = .ok tokens)
    (hsize : p.offset + Text.byteSize cs < Position.wordCount) : Tiled p cs tokens := by
  obtain ⟨exact, htiled, rfl⟩ := exists_tiled h
  rwa [htiled.map_stored hsize]

/-- A scan of any text ends with the end of input, behind the whole text, and has no other. -/
theorem exists_body_of_scan (h : scan p cs = .ok tokens) :
    ∃ body, tokens = body ++ [.endOfInput (p.past cs).stored] ∧ ∀ t ∈ body, t.kind ≠ .eof := by
  obtain ⟨exact, htiled, rfl⟩ := exists_tiled h
  obtain ⟨body, rfl, hbody⟩ := htiled.exists_body
  refine ⟨body.map Token.stored, ?_, List.forall_mem_map.mpr hbody⟩
  rw [List.map_append]
  rfl

/-- Every token of a scan was cut from a spelling of it, however long the text is. -/
theorem exists_spells_of_scan (h : scan p cs = .ok tokens) :
    ∀ t ∈ tokens, t.kind ≠ .eof → ∃ piece, Spells t.kind piece t.value := by
  obtain ⟨exact, htiled, rfl⟩ := exists_tiled h
  exact List.forall_mem_map.mpr htiled.exists_spells

end Scans

end Pulse
