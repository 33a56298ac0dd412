/-
Scanning undoes spelling, whatever the layout.

Between tokens may stand blanks and comments in any number and order. A run of blanks is cut off as
one piece, so one filler is not one step of the scanner; but where the run is split makes no
difference, and each filler can be dropped from the front of a text on its own.
-/
import Pulse.Proofs.Cuts

set_option autoImplicit false

namespace Pulse

open Pattern

/-! ## Steps of the scanner -/

section Steps

variable {p : Position} {cs piece rest : List Char} {pattern : Pattern} {token : Option Token}
  {n : Nat}

/-- The scanner cuts off what the first pattern takes. -/
theorem scan_cons (p : Position) (c : Char) (cs : List Char) :
    scan p (c :: cs) = match first? (c :: cs) with
      | none => .error ⟨.unrecognised (String.singleton c), p.stored⟩
      | some (pattern, n) => do
        let token ← pattern.read p ((c :: cs).take n)
        let tokens ← scan (p.past ((c :: cs).take n)) ((c :: cs).drop n)
        return token.toList ++ tokens := by
  rw [scan]
  split
  · rename_i hnone
    rw [hnone]
  · rename_i hsome
    rw [hsome]

/-- One step of the scanner. -/
theorem scan_of_first? (hfirst : first? cs = some (pattern, n))
    (hread : pattern.read p (cs.take n) = .ok token) :
    scan p cs = (scan (p.past (cs.take n)) (cs.drop n)).map (token.toList ++ ·) := by
  cases cs with
  | nil => cases hfirst
  | cons c cs =>
    rw [scan_cons, hfirst]
    dsimp only
    rw [hread]
    cases scan (p.past ((c :: cs).take n)) ((c :: cs).drop n) <;> rfl

/-- Tokens put in front of a result one after the other. -/
theorem map_append_append (result : Except SyntaxError (List Token)) (us vs : List Token) :
    (result.map (vs ++ ·)).map (us ++ ·) = result.map ((us ++ vs) ++ ·) := by
  cases result with
  | error e => rfl
  | ok tokens => exact congrArg Except.ok (List.append_assoc ..).symm

/-- A scan that succeeds makes such a step. The first pattern takes a piece, the piece is read, and
the rest is scanned from behind it. -/
theorem exists_step {tokens : List Token} (hcs : cs ≠ []) (h : scan p cs = .ok tokens) :
    ∃ pattern n token others, first? cs = some (pattern, n) ∧
      pattern.read p (cs.take n) = .ok token ∧
      scan (p.past (cs.take n)) (cs.drop n) = .ok others ∧ tokens = token.toList ++ others := by
  obtain ⟨c, cs, rfl⟩ := List.exists_cons_of_ne_nil hcs
  rw [scan_cons] at h
  split at h
  · cases h
  · rename_i pattern n hfirst
    cases hread : pattern.read p ((c :: cs).take n) with
    | error e =>
      rw [hread] at h
      cases h
    | ok token =>
      cases hscan : scan (p.past ((c :: cs).take n)) ((c :: cs).drop n) with
      | error e =>
        rw [hread, hscan] at h
        cases h
      | ok others =>
        rw [hread, hscan] at h
        cases h
        exact ⟨pattern, n, token, others, hfirst, hread, hscan, rfl⟩

/-- Such a step, where the piece is known. -/
theorem scan_piece (hfirst : first? (piece ++ rest) = some (pattern, piece.length))
    (hread : pattern.read p piece = .ok token) :
    scan p (piece ++ rest) = (scan (p.past piece) rest).map (token.toList ++ ·) := by
  have hstep := scan_of_first? (p := p) hfirst (by rw [List.take_left]; exact hread)
  rwa [List.take_left, List.drop_left] at hstep

/-- A piece that makes no token. -/
theorem scan_skip (hfirst : first? (piece ++ rest) = some (pattern, piece.length))
    (hread : pattern.read p piece = .ok none) :
    scan p (piece ++ rest) = scan (p.past piece) rest := by
  rw [scan_piece hfirst hread]
  cases scan (p.past piece) rest <;> rfl

end Steps

/-! ## Fillers -/

section Fillers

variable {p : Position} {c : Char} {cs rest : List Char}

/-- A run of blanks is cut off as a whole. -/
theorem first?_blanks (h : RunOf isBlank cs) (hrest : ∀ d ∈ rest.head?, isBlank d = false) :
    first? (cs ++ rest) = some (.blanks, cs.length) := by
  have hlength : Pattern.blanks.length? (cs ++ rest) = some cs.length := by
    rw [length?, run_append h.all hrest]
    exact nonzero_of_pos (List.length_pos_iff.mpr h.ne_nil)
  obtain ⟨c, cs, rfl⟩ := List.exists_cons_of_ne_nil h.ne_nil
  exact first?_eq [] rfl (by simp) hlength

/-- A run of blanks can be dropped as a whole. -/
theorem scan_blanks (h : RunOf isBlank cs) (hrest : ∀ d ∈ rest.head?, isBlank d = false)
    (p : Position) : scan p (cs ++ rest) = scan (p.past cs) rest :=
  scan_skip (first?_blanks h hrest) rfl

/-- A blank can be dropped on its own. A run of blanks is cut off at once, so the rest of the run
has to be cut off once more, or is empty. -/
theorem scan_blank (h : isBlank c) (p : Position) (cs : List Char) :
    scan p (c :: cs) = scan (p.past [c]) cs := by
  have hmore : ∀ d ∈ cs.takeWhile isBlank, isBlank d := fun d hd => List.mem_takeWhile_imp hd
  have hrest : ∀ d ∈ (cs.dropWhile isBlank).head?, isBlank d = false := by
    intro d hd
    have hhead := List.head?_dropWhile_not isBlank cs
    rw [Option.mem_def.mp hd] at hhead
    exact hhead
  have hall : RunOf isBlank (c :: cs.takeWhile isBlank) :=
    ⟨List.cons_ne_nil _ _, List.forall_mem_cons.mpr ⟨h, hmore⟩⟩
  have hscan := scan_blanks hall hrest p
  rw [List.cons_append, List.takeWhile_append_dropWhile] at hscan
  by_cases hnil : cs.takeWhile isBlank = []
  · have hcs := List.takeWhile_append_dropWhile (p := isBlank) (l := cs)
    rw [hnil, List.nil_append] at hcs
    rw [hscan, hnil, hcs]
  · have hscan' := scan_blanks ⟨hnil, hmore⟩ hrest (p.past [c])
    rw [List.takeWhile_append_dropWhile, ← Position.past_append] at hscan'
    rw [hscan, hscan']
    rfl

/-- A line comment ends in front of its newline. -/
theorem first?_lineComment {body : List Char} (h : '\n' ∉ body) :
    first? ('/' :: '/' :: (body ++ '\n' :: rest)) = some (.lineComment, body.length + 2) := by
  have hrun : run (· ≠ '\n') (body ++ '\n' :: rest) = body.length := by
    refine run_append (fun c hc => ?_) (by simp)
    simpa using ne_of_mem_of_not_mem hc h
  have hlength : Pattern.lineComment.length? ('/' :: '/' :: (body ++ '\n' :: rest)) =
      some (body.length + 2) := by
    rw [length?, hrun, Nat.add_comm]
  exact first?_eq [.blanks] rfl (List.forall_mem_singleton.mpr (.inl rfl)) hlength

/-- A block comment ends with its closing bracket. -/
theorem first?_blockComment {body : List Char} (h : ¬ ['*', '/'] <:+: body) :
    first? ('/' :: '*' :: (body ++ '*' :: '/' :: rest)) =
      some (.blockComment, body.length + 4) := by
  have hlength : Pattern.blockComment.length? ('/' :: '*' :: (body ++ '*' :: '/' :: rest)) =
      some (body.length + 4) := by
    rw [length?, untilClose?_append h]
    rfl
  refine first?_eq [.blanks, .lineComment] rfl ?_ hlength
  exact List.forall_mem_cons.mpr ⟨.inl rfl, List.forall_mem_singleton.mpr (.inr rfl)⟩

/-- Every filler can be dropped on its own. A line comment comes with the newline that closes it,
and this is a blank. -/
theorem scan_filler (f : Filler) (p : Position) (rest : List Char) :
    scan p (f.closedText ++ rest) = scan (p.past f.closedText) rest := by
  cases f with
  | blank c h => exact scan_blank h p rest
  | lineComment body h =>
    have hskip : scan p (('/' :: '/' :: body) ++ '\n' :: rest) =
        scan (p.past ('/' :: '/' :: body)) ('\n' :: rest) :=
      scan_skip (first?_lineComment h) rfl
    rw [scan_blank rfl, ← Position.past_append] at hskip
    simpa [Filler.closedText] using hskip
  | blockComment body h =>
    have hfirst : first? ((Filler.blockComment body h).closedText ++ rest) =
        some (.blockComment, (Filler.blockComment body h).closedText.length) := by
      simpa [Filler.closedText, Filler.text] using first?_blockComment h
    exact scan_skip hfirst rfl

/-- So can any number of them, in any order. -/
theorem scan_fillers (fs : List Filler) (p : Position) (rest : List Char) :
    scan p (fs.flatMap Filler.closedText ++ rest) =
      scan (p.past (fs.flatMap Filler.closedText)) rest := by
  induction fs generalizing p with
  | nil => rw [List.flatMap_nil, List.nil_append, Position.past_nil]
  | cons f fs ih =>
    rw [List.flatMap_cons, List.append_assoc, scan_filler, ih, Position.past_append]

end Fillers

/-! ## Texts with any layout -/

/-- A spelling of a token. -/
structure Lexeme where
  kind : Kind
  text : List Char
  value : String
  spells : Spells kind text value

/-- What stands behind a token: a blank, and any fillers. -/
structure Gap where
  blank : Char
  isBlank : isBlank blank
  fillers : List Filler

/-- The text of a gap. -/
def Gap.text (g : Gap) : List Char := g.blank :: g.fillers.flatMap Filler.closedText

/-- The text of tokens with gaps behind them. -/
def spelled (items : List (Lexeme × Gap)) : List Char :=
  items.flatMap fun item => item.1.text ++ item.2.text

/-- What stands behind a token can be dropped. -/
theorem scan_gap (g : Gap) (p : Position) (rest : List Char) :
    scan p (g.text ++ rest) = scan (p.past g.text) rest := by
  rw [Gap.text, List.cons_append, scan_blank g.isBlank, scan_fillers, ← Position.past_append]
  rfl

/-- A token and the gap behind it, of which only the token is left. -/
theorem scan_lexeme (x : Lexeme) (g : Gap) (p : Position) (rest : List Char) :
    scan p (x.text ++ g.text ++ rest) =
      (scan (p.past (x.text ++ g.text)) rest).map
        (⟨x.kind, x.value, p.spanOver x.text⟩ :: ·) := by
  obtain ⟨pattern, hfirst, hread⟩ :=
    x.spells.cut g.isBlank (g.fillers.flatMap Filler.closedText ++ rest)
  rw [List.append_assoc, Position.past_append, ← scan_gap]
  exact scan_piece hfirst (hread p)

/-- The tokens of a text are those that it was spelled from, wherever it stands. By induction on the
tokens. The gap behind each of them keeps it from going on. -/
theorem scan_spelled (items : List (Lexeme × Gap)) (p : Position) :
    ∃ tokens, scan p (spelled items) = .ok tokens ∧
      tokens.map (fun t => (t.kind, t.value)) =
        items.map (fun item => (item.1.kind, item.1.value)) ++ [(.eof, "EOF")] := by
  induction items generalizing p with
  | nil =>
    refine ⟨[.endOfInput p.stored], ?_, rfl⟩
    rw [spelled, List.flatMap_nil, scan]
  | cons item items ih =>
    obtain ⟨x, g⟩ := item
    obtain ⟨tokens, hscan, htokens⟩ := ih (p.past (x.text ++ g.text))
    refine ⟨⟨x.kind, x.value, p.spanOver x.text⟩ :: tokens, ?_, ?_⟩
    · rw [spelled, List.flatMap_cons, ← spelled, scan_lexeme, hscan]
      rfl
    · rw [List.map_cons, htokens, List.map_cons, List.cons_append]

/-- **Scanning undoes spelling, whatever the layout.** Blanks and comments may stand in front of
everything and between any two tokens. All that is asked for is one blank right behind each token,
so that it does not run into what follows. -/
theorem tokenize_spelled (lead : List Filler) (items : List (Lexeme × Gap)) :
    ∃ tokens,
      tokenize (String.ofList (lead.flatMap Filler.closedText ++ spelled items)) = .ok tokens ∧
      tokens.map (fun t => (t.kind, t.value)) =
        items.map (fun item => (item.1.kind, item.1.value)) ++ [(.eof, "EOF")] := by
  rw [tokenize, String.toList_ofList, scan_fillers]
  exact scan_spelled items _

/-- A comment in front, with a newline in it. -/
def accentedLead : List Filler := [.blockComment " ä\n ".toList (by decide)]

/-- Tokens with characters of several bytes in them and between them. -/
def accentedItems : List (Lexeme × Gap) :=
  [(⟨.char, "'é'".toList, _, .char (.plain (by decide) (by decide) (by decide)) (by decide)⟩,
    ⟨' ', rfl, [.lineComment " ß".toList (by decide)]⟩),
   (⟨.assignment, "<-".toList, _, .fixed rfl⟩, ⟨' ', rfl, []⟩),
   (⟨.integer, "0x1F".toList, _, .integer (.hexadecimal ⟨by decide, List.all_eq_true.mp rfl⟩)⟩,
    ⟨'\n', rfl, []⟩)]

example : accentedLead.flatMap Filler.closedText ++ spelled accentedItems =
    "/* ä\n */'é' // ß\n<- 0x1F\n".toList := by decide

end Pulse
