/-
What a shown error points at.

An error is at the start of a token or of what is none, or at the end of input. Its position has an
offset and a line, the one that the scanner counted. When the error is shown, the line is looked up
again, by the offset alone. The two agree everywhere but at the end of a text that is closed by a
newline: there the scanner is on a line of its own, and what is shown is the line before.

Below the line stands an arrow. It is as long as the text that the line has in front of the
offending character has bytes, so its head is under this character just when all of that text is of
one byte per character. Two more things can go wrong. The character may be white space that ends its
line, which is not shown, and an arrow can be too long to be shown at all.

All of this is said of texts shorter than 2^32 bytes. In a longer one the offset of an error is cut
to a word, and it can lead to another line.
-/
import Mathlib.Data.List.DropRight
import Pulse.Compilation
import Pulse.Proofs.ErrorTokens
import Pulse.Proofs.LexicalErrors
import Pulse.Proofs.LinePlaces
import Pulse.Source.Excerpt

set_option autoImplicit false

namespace Pulse

open Pattern

/-! ## Where errors are -/

section Positions

variable {source cs : List Char} {p : Position} {k : Kind} {v : String} {c : Char}
  {tokens : List Token}

/-- A token does not start with a blank. So an error about a token is at a character that trimming
the front of a line does not remove. -/
theorem Spells.isBlank_eq_false (h : Spells k (c :: cs) v) : isBlank c = false := by
  have hdigit {d : Char} (hd : d.isDigit) : isBlank d = false := Pulse.isBlank_eq_false hd rfl
  -- The forms of the tokens, one by one, by what they start with.
  generalize htext : c :: cs = text at h
  cases h with
  | fixed h =>
    cases k <;> cases h <;> cases htext <;> rfl
  | truth h => rcases h with rfl | rfl <;> cases htext <;> rfl
  | name h =>
    cases h with
    | mk hc =>
      cases htext
      exact Pulse.isBlank_eq_false hc rfl
  | integer h =>
    cases h with
    | decimal h => exact hdigit (h.all c (htext ▸ List.mem_cons_self))
    | hexadecimal | binary | octal => cases htext; rfl
  | float h =>
    cases h with
    | @point whole _ _ hwhole =>
      cases whole with
      | nil => cases htext; rfl
      | cons d whole =>
        cases htext
        exact hdigit (hwhole c List.mem_cons_self)
    | @scaled whole _ hwhole =>
      cases whole with
      | nil => exact absurd rfl hwhole.ne_nil
      | cons d whole =>
        cases htext
        exact hdigit (hwhole.all c List.mem_cons_self)
  | char h => cases h <;> cases htext <;> rfl

/-- Every token starts at a position of its source, and no blank is there. The token at the end of
input is at the end of the source, where there is nothing at all. -/
theorem Tiled.exists_at (h : Tiled p cs tokens) (hat : At source p cs) : ∀ t ∈ tokens,
    ∃ rest, At source t.span.start rest ∧ ∀ c ∈ rest.head?, isBlank c = false := by
  induction h with
  | done p =>
    rw [List.forall_mem_singleton]
    exact ⟨[], hat, fun c hc => by cases hc⟩
  | skip _ _ ih => exact ih hat.past
  | @token p piece rest tokens k v hspells _ ih =>
    refine List.forall_mem_cons.mpr ⟨⟨piece ++ rest, hat, fun c hc => ?_⟩, ih hat.past⟩
    obtain ⟨d, ds, rfl⟩ := List.exists_cons_of_ne_nil hspells.ne_nil
    cases hc
    exact hspells.isBlank_eq_false

/-- A scan does not fail on a blank. -/
theorem Offending.isBlank_eq_false {after : List Char} {cause : SyntaxError.Cause}
    (h : Offending (c :: cs) after cause) : isBlank c = false := by
  cases h with
  | character hnone =>
    rw [← Bool.not_eq_true]
    intro hblank
    have hblanks : nonzero (run isBlank (c :: after)) = none := hnone .blanks (by decide)
    simp [run, hblank, nonzero] at hblanks
  | literal h => cases h <;> rfl
  | comment => rfl

/-- A syntax error is at the start of one of the tokens. -/
theorem SyntaxError.Names.position_mem {e : SyntaxError} (h : e.Names tokens) :
    ∃ t ∈ tokens, e.position = t.span.start := by
  cases h with
  | unexpected hu => exact ⟨_, hu, rfl⟩
  | unexpectedWhere hu => exact ⟨_, hu, rfl⟩
  | invalidNumber hu => exact ⟨_, hu, rfl⟩

/-- **The error of a source is at one of its positions**, and no blank is there. An error of the
scan is where the offending text starts, and an error of the parser where one of the tokens does. -/
theorem exists_at_of_invalid {source : String} {e : SyntaxError}
    (h : (Compilation.ofSource source).result = .error (.invalid e))
    (hsize : Text.byteSize source.toList < Position.wordCount) :
    ∃ rest, At source.toList e.position rest ∧ ∀ c ∈ rest.head?, isBlank c = false := by
  rw [Compilation.ofSource] at h
  split at h
  · rename_i e' htokens
    cases h
    -- The scan failed: the error is where the offending text starts.
    obtain ⟨before, bad, after, hsource, hbad, hposition, -⟩ := scan_error htokens
    have hat : At source.toList (Position.past .origin before) (bad ++ after) :=
      ⟨before, hsource, rfl⟩
    rw [hposition, hat.stored_eq hsize]
    refine ⟨bad ++ after, hat, ?_⟩
    intro c hc
    obtain ⟨d, ds, rfl⟩ := List.exists_cons_of_ne_nil hbad.ne_nil
    cases hc
    exact hbad.isBlank_eq_false
  · rename_i tokens htokens
    -- The scan succeeded: the error is about one of its tokens.
    dsimp only [Compilation.ofTokens] at h
    split at h
    · rename_i e' hprogram
      cases h
      obtain ⟨t, ht, hposition⟩ := (names_of_ofTokens_eq_invalid hprogram).position_mem
      have htiled : Tiled .origin source.toList tokens :=
        scan_tiled htokens (by rwa [Position.origin, Nat.zero_add])
      rw [hposition]
      exact htiled.exists_at (at_origin _) t ht
    · cases h

/-- What is behind the offset of a position decides whether it is the end. So an error is at the end
of the text or at one of its characters. -/
theorem At.offset_eq_iff {rest : List Char} (h : At source p rest) :
    p.offset = Text.byteSize source ↔ rest = [] := by
  obtain ⟨before, rfl, rfl⟩ := h
  have hoffset : (Position.past .origin before).offset = Text.byteSize before := by
    simp [Position.past, Position.origin]
  rw [hoffset, Text.byteSize_append]
  constructor
  · intro heq
    exact Text.byteSize_eq_zero (by omega)
  · rintro rfl
    rfl

end Positions

/-! ## The line that is shown -/

section Lines

variable {source : List Char} {p : Position} {rest : List Char}

/-- **The line that an offset leads to** is the line of its position, except at the end of a text
that is closed by a newline. -/
theorem At.exists_lineAt (h : At source p rest) :
    ∃ place, Text.lineAt source p.offset = some place ∧
      place.number + (if rest = [] ∧ source.getLast? = some '\n' then 1 else 0) = p.line := by
  obtain ⟨before, rfl, rfl⟩ := h
  have hoffset : (Position.past .origin before).offset = Text.byteSize before := by
    simp [Position.past, Position.origin]
  have hline : (Position.past .origin before).line = 1 + before.count '\n' := rfl
  rw [hoffset, hline]
  cases rest with
  | nil =>
    -- At the end there is no character to find the line of, and the last line counts.
    rw [List.append_nil]
    refine ⟨Text.placeAtEnd before, Text.lineAt_byteSize before, ?_⟩
    rw [Text.placeAtEnd_number]
    by_cases hlast : before.getLast? = some '\n'
    · rw [if_pos hlast, if_pos ⟨rfl, hlast⟩]
      omega
    · rw [if_neg hlast, if_neg fun hand => hlast hand.2]
      omega
  | cons c rest =>
    -- Before the end the line is the one that has the next character.
    obtain ⟨earlier, front, back, later, hlines, hbefore⟩ :=
      Text.exists_lines_of_append (rfl : before ++ c :: rest = before ++ c :: rest)
    have hcolumn : Text.byteSize front < Text.byteSize (front ++ c :: back) := by
      have hpos := c.utf8Size_pos
      rw [Text.byteSize_append, Text.byteSize_cons]
      omega
    have hplace := Text.lineAt_of_lines hlines hcolumn
    rw [← Text.byteSize_append, ← hbefore] at hplace
    refine ⟨_, hplace, ?_⟩
    rw [if_neg fun hand => List.cons_ne_nil _ _ hand.1, hbefore, Text.count_newline_front hlines,
      Nat.add_zero]

end Lines

/-! ## Texts that point -/

section Points

/-- **A text that points.** It ends with two lines, and in the last one the head of an arrow stands
behind so many characters. -/
def Points (text : String) (above : List Char) (column : Nat) : Prop :=
  ∃ front shaft, text.toList = front ++ '\n' :: (above ++ '\n' :: (shaft ++ ['^', '\n'])) ∧
    '\n' ∉ above ∧ '\n' ∉ shaft ∧ '^' ∉ shaft ∧ shaft.length = column

/-- What a text points at is told by the text. So what is claimed of an arrow cannot be met by
reading the text in another way. -/
theorem Points.unique {text : String} {above above' : List Char} {column column' : Nat}
    (h : Points text above column) (h' : Points text above' column') :
    above = above' ∧ column = column' := by
  obtain ⟨front, shaft, htext, habove, hshaft, -, rfl⟩ := h
  obtain ⟨front', shaft', htext', habove', hshaft', -, rfl⟩ := h'
  rw [htext] at htext'
  have hlines : (front ++ '\n' :: above) ++ '\n' :: shaft =
      (front' ++ '\n' :: above') ++ '\n' :: shaft' := by
    have hends : ((front ++ '\n' :: above) ++ '\n' :: shaft) ++ ['^', '\n'] =
        ((front' ++ '\n' :: above') ++ '\n' :: shaft') ++ ['^', '\n'] := by
      simpa only [List.append_assoc, List.cons_append] using htext'
    exact List.append_cancel_right hends
  -- Newlines are nowhere but between the lines, so equal texts have equal lines, from the last on.
  obtain ⟨hupper, rfl⟩ := Text.append_newline_inj hshaft hshaft' hlines
  obtain ⟨-, rfl⟩ := Text.append_newline_inj habove habove' hupper
  exact ⟨rfl, rfl⟩

end Points

/-! ## Lines as they are shown -/

section Shown

/-- White space at the end of a line is all that is not shown of it. -/
theorem trimEnd_isPrefix (cs : List Char) : Text.trimEnd cs <+: cs :=
  List.rdropWhile_prefix _ _

/-- The newline that closes a line is not shown. -/
theorem trimEnd_append_newline (cs : List Char) : Text.trimEnd (cs ++ ['\n']) = Text.trimEnd cs :=
  List.rdropWhile_concat_pos _ _ _ (by decide)

/-- A character is shown just when it is not part of the white space at the end. This is the
character itself or any one behind it: white space in the middle of a line is shown. -/
theorem exists_trimEnd_eq_iff {cs ds : List Char} {c : Char} :
    (∃ es, Text.trimEnd (cs ++ c :: ds) = cs ++ c :: es) ↔
      ∃ d ∈ c :: ds, Text.isWhiteSpace d = false := by
  have hink : (∃ d ∈ c :: ds, Text.isWhiteSpace d = false) ↔
      ¬ ∀ d ∈ (c :: ds).reverse, Text.isWhiteSpace d = true := by
    simp only [List.mem_reverse, not_forall, Bool.not_eq_true, exists_prop]
  rw [hink]
  by_cases hblank : ∀ d ∈ (c :: ds).reverse, Text.isWhiteSpace d = true
  · refine iff_of_false ?_ (not_not_intro hblank)
    rintro ⟨es, hes⟩
    rw [Text.trimEnd, List.reverse_append, List.dropWhile_append_of_pos hblank] at hes
    have hlength := (List.rdropWhile_prefix Text.isWhiteSpace cs).length_le
    rw [List.rdropWhile, hes, List.length_append, List.length_cons] at hlength
    omega
  · refine iff_of_true ?_ hblank
    -- Dropping from the end stops behind the front.
    have hstop : ((c :: ds).reverse.dropWhile Text.isWhiteSpace).isEmpty = false := by
      rw [List.isEmpty_eq_false_iff, Ne, List.dropWhile_eq_nil_iff]
      exact hblank
    have htrim : Text.trimEnd (cs ++ c :: ds) = cs ++ Text.trimEnd (c :: ds) := by
      rw [Text.trimEnd, List.reverse_append, List.dropWhile_append, hstop]
      simp [Text.trimEnd]
    have hne : Text.trimEnd (c :: ds) ≠ [] := by
      rw [Text.trimEnd, Ne, List.reverse_eq_nil_iff, ← List.isEmpty_iff, hstop]
      decide
    obtain ⟨d, es, hes⟩ := List.exists_cons_of_ne_nil hne
    have hhead : d = c := (List.cons_prefix_cons.mp (hes ▸ trimEnd_isPrefix (c :: ds))).1
    exact ⟨es, by rw [htrim, hes, hhead]⟩

open SyntaxError

/-- The number in front of a line that is shown, and the bar behind it. -/
def margin (n : Nat) : List Char := (toString n).toList ++ [' ', '|', ' ']

/-- What is in front of the head of an arrow: a bar below that of the margin, and the shaft. -/
def arrow (n shaft : Nat) : List Char :=
  bar (toString n).toList.length ++ [' '] ++ List.replicate shaft '-'

/-- The margin is part of one line. -/
theorem newline_notMem_margin (n : Nat) : '\n' ∉ margin n := by
  have hdigits : '\n' ∉ Nat.toDigits 10 n := fun hmem =>
    absurd (Nat.isDigit_of_mem_toDigits (by omega) (by omega) hmem) (by decide)
  simpa [margin] using hdigits

/-- An arrow is made of three characters, up to its head. -/
theorem notMem_arrow {n shaft : Nat} {c : Char} (h : c ∉ [' ', '|', '-']) : c ∉ arrow n shaft := by
  simp only [List.mem_cons, List.not_mem_nil, or_false, not_or] at h
  simp [arrow, bar, h]

/-- The head of an arrow stands behind the margin by the length of its shaft. -/
theorem length_arrow (n shaft : Nat) : (arrow n shaft).length = (margin n).length + shaft := by
  simp only [arrow, bar, margin, List.length_append, List.length_replicate, List.length_cons,
    List.length_nil]

end Shown

/-! ## The line of an error -/

/-- **The line of an error**: the character at its position stands behind the indentation of the
line and whatever else the line has in front of it. -/
structure ErrorLine (source : List Char) (p : Position) where
  earlier : List (List Char)
  indent : List Char
  lead : List Char
  char : Char
  back : List Char
  later : List (List Char)
  lines_eq : Text.lines source = earlier ++ (indent ++ (lead ++ char :: back)) :: later
  position_eq : p = Position.past .origin (earlier.flatten ++ (indent ++ lead))
  indented : ∀ c ∈ indent, SyntaxError.isIndent c
  lead_head : ∀ c ∈ lead.head?, SyntaxError.isIndent c = false
  char_blank : isBlank char = false

namespace ErrorLine

open SyntaxError

variable {source : List Char} {p : Position} (l : ErrorLine source p)

/-- The whole line. -/
def text : List Char := l.indent ++ (l.lead ++ l.char :: l.back)

/-- What is shown of the line. -/
def shown : List Char := Text.trimEnd (l.lead ++ l.char :: l.back)

/-- The indentation is the longest one: what is behind it starts with no space and no tab. -/
theorem isIndent_head : ∀ c ∈ (l.lead ++ l.char :: l.back).head?, isIndent c = false := by
  have hchar : isIndent l.char = false := by
    have hblank := l.char_blank
    simp only [isBlank, isIndent, Bool.or_eq_false_iff] at hblank ⊢
    exact hblank.1.1
  have hhead := l.lead_head
  cases hlead : l.lead with
  | nil => simpa [hlead] using hchar
  | cons d ds => simpa [hlead] using hhead

/-- The indentation is what the line is searched for. -/
theorem takeWhile_isIndent : l.text.takeWhile isIndent = l.indent := by
  rw [text, List.takeWhile_append_of_pos l.indented]
  cases hrest : l.lead ++ l.char :: l.back with
  | nil => simp at hrest
  | cons c cs =>
    -- The character of the error is no blank, so there is something behind the indentation.
    have hc := l.isIndent_head c (by rw [hrest]; rfl)
    simp [hc]

/-- What the line has behind its indentation. -/
theorem dropWhile_isIndent : l.text.dropWhile isIndent = l.lead ++ l.char :: l.back := by
  rw [text, List.dropWhile_append_of_pos l.indented]
  cases hrest : l.lead ++ l.char :: l.back with
  | nil => simp at hrest
  | cons c cs =>
    have hc := l.isIndent_head c (by rw [hrest]; rfl)
    simp [hc]

/-- Spaces and tabs are of one byte each. -/
theorem byteSize_indent : Text.byteSize l.indent = l.indent.length := by
  refine Text.byteSize_eq_length_iff.mpr fun c hc => ?_
  have hindent := l.indented c hc
  simp only [isIndent, Bool.or_eq_true, decide_eq_true_eq] at hindent
  rcases hindent with rfl | rfl <;> decide

/-- The line is the one that the position is on, and the place of its offset is found on it. Both
count the same lines in front, the one by newlines and the other by offsets
(`get_line_at_position`). -/
theorem lineAt_eq : Text.lineAt source p.offset =
    some ⟨p.line, l.text, Text.byteSize (l.indent ++ l.lead)⟩ := by
  have hlines : Text.lines source =
      l.earlier ++ ((l.indent ++ l.lead) ++ l.char :: l.back) :: l.later := by
    rw [l.lines_eq, List.append_assoc]
  have hcolumn : Text.byteSize (l.indent ++ l.lead) <
      Text.byteSize ((l.indent ++ l.lead) ++ l.char :: l.back) := by
    have hpos := l.char.utf8Size_pos
    rw [Text.byteSize_append (l.indent ++ l.lead), Text.byteSize_cons]
    omega
  have hoffset : p.offset =
      Text.byteSize l.earlier.flatten + Text.byteSize (l.indent ++ l.lead) := by
    have hposition := congrArg Position.offset l.position_eq
    simpa [Position.past, Position.origin] using hposition
  have hline : p.line = 1 + l.earlier.length := by
    have hposition := congrArg Position.line l.position_eq
    rwa [Position.past, Text.count_newline_front hlines] at hposition
  rw [hoffset, hline, Text.lineAt_of_lines hlines hcolumn, text, List.append_assoc]

/-- The excerpt of the line has an arrow as long as the bytes in front of the character. The blanks
in front of the line are dropped from the line and from the arrow. An arrow that is too long for the
formatter makes no excerpt (`format_error`). -/
theorem excerpt?_eq (n : Nat) :
    excerpt? ⟨n, l.text, Text.byteSize (l.indent ++ l.lead)⟩ =
      if maxArrow ≤ Text.byteSize l.lead then none
      else some (bar (toString n).toList.length ++ '\n' ::
        (margin n ++ l.shown ++ '\n' :: (arrow n (Text.byteSize l.lead) ++ ['^', '\n']))) := by
  have hshaft : Text.byteSize (l.indent ++ l.lead) - l.indent.length = Text.byteSize l.lead := by
    rw [Text.byteSize_append, byteSize_indent]
    omega
  simp only [excerpt?, takeWhile_isIndent, dropWhile_isIndent, hshaft]
  by_cases hlong : maxArrow ≤ Text.byteSize l.lead
  · rw [if_pos hlong, if_pos hlong]
  · rw [if_neg hlong, if_neg hlong]
    simp only [margin, arrow, shown, List.append_assoc, List.cons_append, List.nil_append]

/-- What is shown of a line is on one line. The newline that closes the line is white space at its
end, and there is no other. -/
theorem newline_notMem_shown : '\n' ∉ l.shown := by
  obtain ⟨body, hbody, htext⟩ := Text.exists_body_of_lines l.lines_eq
  -- Either the line has no newline, or it ends with its only one, which is not shown.
  rcases htext with htext | ⟨htext, -, -⟩
  · obtain ⟨rest, hrest⟩ : ∃ rest, l.lead ++ l.char :: l.back = rest ++ ['\n'] := by
      rcases List.append_eq_append_iff.mp htext with ⟨ms, -, hms⟩ | ⟨ms, -, hms⟩
      · exact ⟨ms, hms⟩
      · cases ms with
        | nil => exact ⟨[], by simpa using hms.symm⟩
        | cons m ms => simp at hms
    rw [shown, hrest, trimEnd_append_newline]
    intro hmem
    have hsub : l.indent ++ rest = body := by
      rw [hrest, ← List.append_assoc] at htext
      exact List.append_cancel_right htext
    exact hbody (hsub ▸ List.mem_append_right _ ((trimEnd_isPrefix rest).subset hmem))
  · intro hmem
    refine hbody (htext ▸ List.mem_append_right _ ?_)
    exact (trimEnd_isPrefix _).subset hmem

end ErrorLine

/-- Where no blank is, there is a line with the character on it. -/
theorem At.nonempty_errorLine {source rest : List Char} {p : Position} {c : Char}
    (h : At source p (c :: rest)) (hc : isBlank c = false) : Nonempty (ErrorLine source p) := by
  obtain ⟨before, hsource, hposition⟩ := h
  obtain ⟨earlier, front, back, later, hlines, rfl⟩ := Text.exists_lines_of_append hsource
  have hfront : front.takeWhile SyntaxError.isIndent ++ front.dropWhile SyntaxError.isIndent =
      front := List.takeWhile_append_dropWhile
  refine ⟨⟨earlier, front.takeWhile SyntaxError.isIndent, front.dropWhile SyntaxError.isIndent, c,
    back, later, ?_, ?_, fun d hd => List.mem_takeWhile_imp hd, fun d hd => ?_, hc⟩⟩
  · rw [hlines, ← List.append_assoc, hfront]
  · rw [hposition, hfront]
  · simpa [Option.mem_def.mp hd] using List.head?_dropWhile_not SyntaxError.isIndent front

/-! ## Shown errors -/

section Renderings

open SyntaxError

variable {source : String} {e : SyntaxError}

/-- The header of an error ends with the unit and the line. -/
theorem exists_header_eq (unit : String) (e : SyntaxError) :
    ∃ title, e.header unit =
      title ++ ("\n-> " ++ unit ++ ":" ++ toString e.position.line ++ "\n").toList := by
  cases htip : e.cause.tip? with
  | none => exact ⟨("Error: " ++ e.cause.name).toList, by simp [header, htip]⟩
  | some tip => exact ⟨("Error: " ++ e.cause.name ++ (" (" ++ tip ++ ")")).toList,
      by simp [header, htip]⟩

/-- An excerpt starts with a bar, and below it with the number of its line. -/
theorem exists_of_excerpt? {place : Text.Place} {cs : List Char} (h : excerpt? place = some cs) :
    ∃ rest, cs = bar (toString place.number).toList.length ++ '\n' ::
      (margin place.number ++ rest) := by
  simp only [excerpt?] at h
  split at h
  · cases h
  · cases h
    exact ⟨_, by simp only [margin, List.append_assoc, List.cons_append, List.nil_append]; rfl⟩

/-- **The line of a shown error is the line that is shown**, except for an error at the end of a
text that is closed by a newline. There the line that is shown is the one before. This holds in
texts shorter than 2^32 bytes, whose offsets are exact. -/
theorem excerpt_line_iff (h : (Compilation.ofSource source).result = .error (.invalid e))
    (hsize : Text.byteSize source.toList < Position.wordCount) :
    ∃ place, Text.lineAt source.toList e.position.offset = some place ∧
      (place.number = e.position.line ↔ ¬ (e.position.offset = Text.byteSize source.toList ∧
        source.toList.getLast? = some '\n')) ∧
      (place.number ≠ e.position.line → place.number + 1 = e.position.line) ∧
      ∀ unit text, e.render? unit source = some text → ∃ title rest,
        text.toList = title ++
          ("\n-> " ++ unit ++ ":" ++ toString e.position.line ++ "\n").toList ++
          (bar (toString place.number).toList.length ++ '\n' :: (margin place.number ++ rest)) := by
  obtain ⟨rest, hat, -⟩ := exists_at_of_invalid h hsize
  -- The two numbers differ by one at most, and where they do is known from the text alone.
  obtain ⟨place, hplace, hnumber⟩ := hat.exists_lineAt
  refine ⟨place, hplace, ?_, ?_, ?_⟩
  · rw [hat.offset_eq_iff]
    split at hnumber
    · rename_i hclosed
      exact iff_of_false (by omega) (not_not_intro hclosed)
    · rename_i hclosed
      exact iff_of_true hnumber hclosed
  · intro hne
    split at hnumber
    · exact hnumber
    · exact absurd hnumber hne
  · intro unit text htext
    rw [render?, hplace, Option.map_eq_some_iff] at htext
    obtain ⟨body, hbody, rfl⟩ := htext
    obtain ⟨title, htitle⟩ := exists_header_eq unit e
    obtain ⟨rest, hrest⟩ := exists_of_excerpt? hbody
    exact ⟨title, rest, by rw [String.toList_ofList, htitle, hrest]⟩

/-- An error at the end of a text that no newline closes. Both lines are the second one. The end of
input stands behind the name on this line. -/
theorem halfDeclaration_line :
    ∃ e place, (Compilation.ofSource "var\nx").result = .error (.invalid e) ∧
      Text.byteSize "var\nx".toList < Position.wordCount ∧ e.position = ⟨5, 2⟩ ∧
      Text.lineAt "var\nx".toList 5 = some place ∧ place.number = 2 := by
  have hword : first? "var\nx".toList = some (.word, 3) := rfl
  have hblank : first? "\nx".toList = some (.blanks, 1) := rfl
  have hname : first? "x".toList = some (.word, 1) := rfl
  have htokens : tokenize "var\nx" = .ok [⟨.kwVar, "var", ⟨⟨0, 1⟩, ⟨3, 1⟩⟩⟩,
      ⟨.identifier, "x", ⟨⟨4, 2⟩, ⟨5, 2⟩⟩⟩, .endOfInput ⟨5, 2⟩] := by
    rw [tokenize, scan_of_first? hword rfl,
      show List.drop 3 "var\nx".toList = "\nx".toList from rfl, scan_of_first? hblank rfl,
      show List.drop 1 "\nx".toList = "x".toList from rfl, scan_of_first? hname rfl,
      show List.drop 1 "x".toList = [] from rfl, scan]
    rfl
  have hresult : (Compilation.ofSource "var\nx").result = .error (.invalid
      ⟨.unexpectedWhere "EOF" "expected a type name", ⟨5, 2⟩⟩) := by
    rw [Compilation.ofSource, htokens]
    rfl
  have hsize : Text.byteSize "var\nx".toList < Position.wordCount := by decide
  obtain ⟨place, hplace, hline, -⟩ := excerpt_line_iff hresult hsize
  exact ⟨_, place, hresult, hsize, rfl, hplace, hline.mpr (by decide +kernel)⟩

/-- The end of input is on the second line here, and the first line is shown. The newline closes the
first line, and no line starts behind it. -/
theorem closedDeclaration_line_before :
    ∃ e place, (Compilation.ofSource "var\n").result = .error (.invalid e) ∧
      Text.lineAt "var\n".toList e.position.offset = some place ∧
      e.position.line = 2 ∧ place.number = 1 ∧
      e.render? "test.pulse" "var\n" = some ("Error: UnexpectedTokenDetailed " ++
        "(Unexpected token: `EOF`, expected identifier during variable declaration)\n" ++
        "-> test.pulse:2\n  |\n1 | var\n  | ----^\n") := by
  have hword : first? "var\n".toList = some (.word, 3) := rfl
  have hblank : first? "\n".toList = some (.blanks, 1) := rfl
  have htokens : tokenize "var\n" =
      .ok [⟨.kwVar, "var", ⟨⟨0, 1⟩, ⟨3, 1⟩⟩⟩, .endOfInput ⟨4, 2⟩] := by
    rw [tokenize, scan_of_first? hword rfl,
      show List.drop 3 "var\n".toList = "\n".toList from rfl, scan_of_first? hblank rfl,
      show List.drop 1 "\n".toList = [] from rfl, scan]
    rfl
  have hresult : (Compilation.ofSource "var\n").result = .error (.invalid
      ⟨.unexpectedWhere "EOF" "expected identifier during variable declaration", ⟨4, 2⟩⟩) := by
    rw [Compilation.ofSource, htokens]
    rfl
  exact ⟨_, ⟨1, "var\n".toList, 4⟩, hresult, by decide +kernel, rfl, rfl, by decide +kernel⟩

/-- An error inside the text is shown with an arrow, unless it is too far to the right. Its column
is counted in bytes from the first character of the line that is no blank. -/
theorem ErrorLine.render?_eq (l : ErrorLine source.toList e.position) (unit : String) :
    if maxArrow ≤ Text.byteSize l.lead then e.render? unit source = none
    else ∃ text, e.render? unit source = some text ∧
      Points text (margin e.position.line ++ l.shown)
        ((margin e.position.line).length + Text.byteSize l.lead) := by
  rw [render?, l.lineAt_eq]
  dsimp only
  rw [l.excerpt?_eq]
  split
  · rfl
  · refine ⟨_, rfl, e.header unit ++ bar (toString e.position.line).toList.length,
      arrow e.position.line (Text.byteSize l.lead), ?_, ?_, notMem_arrow (by decide),
      notMem_arrow (by decide), length_arrow _ _⟩
    · simp only [String.toList_ofList, List.append_assoc]
    · rw [List.mem_append, not_or]
      exact ⟨newline_notMem_margin _, l.newline_notMem_shown⟩

/-- **The arrow of a shown error.** It reaches as many characters to the right as there are bytes in
front of the offending one, so its head is under this character just when all of these are of one
byte, the character is not part of the white space that ends its line, and the arrow is not too
long. This holds in texts shorter than 2^32 bytes, whose offsets are exact. -/
theorem arrow_under_error_iff (unit : String)
    (h : (Compilation.ofSource source).result = .error (.invalid e))
    (hsize : Text.byteSize source.toList < Position.wordCount)
    (hinside : e.position.offset < Text.byteSize source.toList) :
    ∃ l : ErrorLine source.toList e.position,
      (e.render? unit source = none ↔ maxArrow ≤ Text.byteSize l.lead) ∧
      (∀ text, e.render? unit source = some text →
        Points text (margin e.position.line ++ l.shown)
          ((margin e.position.line).length + Text.byteSize l.lead)) ∧
      ((∃ text behind, e.render? unit source = some text ∧
          Points text (margin e.position.line ++ l.lead ++ l.char :: behind)
            (margin e.position.line ++ l.lead).length) ↔
        (∀ c ∈ l.lead, c.toNat < 128) ∧
          (∃ c ∈ l.char :: l.back, Text.isWhiteSpace c = false) ∧ l.lead.length < maxArrow) := by
  obtain ⟨rest, hat, hblank⟩ := exists_at_of_invalid h hsize
  obtain ⟨c, cs, rfl⟩ : ∃ c cs, rest = c :: cs := by
    -- Inside of the text there is a character at the position.
    refine List.exists_cons_of_ne_nil fun hnil => ?_
    have hend := hat.offset_eq_iff.mpr hnil
    omega
  obtain ⟨l⟩ := hat.nonempty_errorLine (hblank c rfl)
  have hrender := l.render?_eq unit
  split at hrender
  · rename_i hlong
    refine ⟨l, iff_of_true hrender hlong, ?_, iff_of_false ?_ ?_⟩
    · intro text htext
      rw [hrender] at htext
      cases htext
    · rintro ⟨text, behind, htext, -⟩
      rw [hrender] at htext
      cases htext
    · rintro ⟨hascii, -, hlt⟩
      rw [← Text.byteSize_eq_length_iff.mpr hascii] at hlt
      omega
  · rename_i hshort
    obtain ⟨text, htext, hpoints⟩ := hrender
    have honly : ∀ text', e.render? unit source = some text' → text' = text := by
      intro text' htext'
      rw [htext] at htext'
      exact (Option.some.inj htext').symm
    refine ⟨l, iff_of_false (by rw [htext]; exact Option.some_ne_none _) hshort, ?_, ?_⟩
    · intro text' htext'
      rw [honly text' htext']
      exact hpoints
    · constructor
      · rintro ⟨text', behind, htext', hpoints'⟩
        rw [honly text' htext'] at hpoints'
        obtain ⟨hshown, hcolumn⟩ := hpoints.unique hpoints'
        rw [List.append_assoc, List.append_cancel_left_eq] at hshown
        rw [List.length_append, Nat.add_left_cancel_iff] at hcolumn
        refine ⟨Text.byteSize_eq_length_iff.mp hcolumn,
          exists_trimEnd_eq_iff.mp ⟨behind, hshown⟩, ?_⟩
        omega
      · rintro ⟨hascii, hink, -⟩
        obtain ⟨behind, hshown⟩ := exists_trimEnd_eq_iff.mpr hink
        refine ⟨text, behind, htext, ?_⟩
        rw [ErrorLine.shown, hshown, Text.byteSize_eq_length_iff.mpr hascii] at hpoints
        rwa [List.append_assoc, List.length_append]

/-- An error behind a tab and behind a comment with a letter of two bytes. The comment is on another
line, so the arrow is not affected by it. -/
theorem indentedLiteral_arrow :
    ∃ e, (Compilation.ofSource "// ß\n\tx 'λ'").result = .error (.invalid e) ∧
      Text.byteSize "// ß\n\tx 'λ'".toList < Position.wordCount ∧
      e.position = ⟨9, 2⟩ ∧ 9 < Text.byteSize "// ß\n\tx 'λ'".toList ∧
      ∃ l : ErrorLine "// ß\n\tx 'λ'".toList e.position,
        (e.render? "shell" "// ß\n\tx 'λ'" = none ↔ maxArrow ≤ Text.byteSize l.lead) ∧
        ∀ text, e.render? "shell" "// ß\n\tx 'λ'" = some text →
          Points text (margin 2 ++ l.shown) ((margin 2).length + Text.byteSize l.lead) := by
  have hcomment : first? "// ß\n\tx 'λ'".toList = some (.lineComment, 4) := rfl
  have hblanks : first? "\n\tx 'λ'".toList = some (.blanks, 2) := rfl
  have hword : first? "x 'λ'".toList = some (.word, 1) := rfl
  have hblank : first? " 'λ'".toList = some (.blanks, 1) := rfl
  have hliteral : first? "'λ'".toList = some (.charLiteral, 3) := rfl
  have htokens : tokenize "// ß\n\tx 'λ'" = .error ⟨.wideCharacter "'λ'", ⟨9, 2⟩⟩ := by
    rw [tokenize, scan_of_first? hcomment rfl,
      show List.drop 4 "// ß\n\tx 'λ'".toList = "\n\tx 'λ'".toList from rfl,
      scan_of_first? hblanks rfl, show List.drop 2 "\n\tx 'λ'".toList = "x 'λ'".toList from rfl,
      scan_of_first? hword rfl, show List.drop 1 "x 'λ'".toList = " 'λ'".toList from rfl,
      scan_of_first? hblank rfl, show List.drop 1 " 'λ'".toList = "'λ'".toList from rfl,
      scan_of_read_error hliteral rfl]
    rfl
  have hresult : (Compilation.ofSource "// ß\n\tx 'λ'").result =
      .error (.invalid ⟨.wideCharacter "'λ'", ⟨9, 2⟩⟩) := by
    rw [Compilation.ofSource, htokens]
  have hinside : 9 < Text.byteSize "// ß\n\tx 'λ'".toList := by decide
  have hsize : Text.byteSize "// ß\n\tx 'λ'".toList < Position.wordCount := by decide
  obtain ⟨l, hnone, hpoints, -⟩ := arrow_under_error_iff "shell" hresult hsize hinside
  exact ⟨_, hresult, hsize, rfl, hinside, l, hnone, hpoints⟩

/-- The accented letter has two bytes, so the head of the arrow is one character too far. The dashes
are counted in bytes and the line is shown in characters. -/
theorem accentedComment_arrow_beyond :
    ∃ e text, (Compilation.ofSource "/* é */ #").result = .error (.invalid e) ∧
      e.position.offset < Text.byteSize "/* é */ #".toList ∧
      e.render? "test.pulse" "/* é */ #" = some text ∧
      Points text ("1 | /* é */ ".toList ++ ['#']) 13 ∧ "1 | /* é */ ".toList.length = 12 := by
  have hcomment : first? "/* é */ #".toList = some (.blockComment, 7) := rfl
  have hblank : first? " #".toList = some (.blanks, 1) := rfl
  have hnone : first? ['#'] = none := rfl
  have htokens : tokenize "/* é */ #" = .error ⟨.unrecognised "#", ⟨9, 1⟩⟩ := by
    rw [tokenize, scan_of_first? hcomment rfl,
      show List.drop 7 "/* é */ #".toList = " #".toList from rfl, scan_of_first? hblank rfl,
      show List.drop 1 " #".toList = ['#'] from rfl, scan_cons, hnone]
    rfl
  have hresult : (Compilation.ofSource "/* é */ #").result =
      .error (.invalid ⟨.unrecognised "#", ⟨9, 1⟩⟩) := by
    rw [Compilation.ofSource, htokens]
  have hpoints : Points ("Error: UnrecognisedToken\n-> test.pulse:1\n  |\n" ++
      "1 | /* é */ #\n  | ---------^\n") ("1 | /* é */ ".toList ++ ['#']) 13 :=
    ⟨"Error: UnrecognisedToken\n-> test.pulse:1\n  |".toList, "  | ---------".toList,
      by decide +kernel, by decide, by decide, by decide, rfl⟩
  exact ⟨_, _, hresult, by decide, by decide +kernel, hpoints, rfl⟩

end Renderings

end Pulse
