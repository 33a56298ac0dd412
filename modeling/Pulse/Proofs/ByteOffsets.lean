/-
Byte offsets and lines tell the same place.

A byte offset of a text is looked up by walking over its lines. That the walk is right is said here
without it: the offset is the bytes of the earlier lines and the column, and the number of the line
is told by the newlines among the bytes in front of the offset. Bytes are those of the encoded text,
where an offset may also fall inside a character. A newline is one byte and no other character has
this byte in it, so it is the same to count newlines in bytes or in characters.

What the lines of a text are is not a matter of the function that cuts it either: there is only one
way to cut a text behind each of its newlines.
-/
import Pulse.Proofs.LinePlaces
import Mathlib.Algebra.GroupWithZero.Nat

set_option autoImplicit false

namespace Pulse.Text

/-! ## The bytes of a text -/

/-- The bytes of a text. -/
def bytes (cs : List Char) : List UInt8 := cs.flatMap String.utf8EncodeChar

/-- The byte of a newline. -/
def newlineByte : UInt8 := 10

@[simp] theorem bytes_append (cs ds : List Char) : bytes (cs ++ ds) = bytes cs ++ bytes ds :=
  List.flatMap_append

/-- The bytes of a text are those of its first character, followed by those of the others. -/
theorem bytes_cons (c : Char) (cs : List Char) :
    bytes (c :: cs) = String.utf8EncodeChar c ++ bytes cs :=
  List.flatMap_cons

/-- The encoding of a text is as long as its byte length says. -/
@[simp] theorem length_bytes (cs : List Char) : (bytes cs).length = byteSize cs := by
  induction cs with
  | nil => rfl
  | cons c cs ih =>
    rw [bytes_cons, List.length_append, String.length_utf8EncodeChar, ih, byteSize_cons]

/-- The byte of a newline is in no other character: all bytes of a longer one are above 127. So
newlines can be counted byte by byte, as offsets ask for. -/
theorem newlineByte_notMem {c : Char} (h : c ≠ '\n') : newlineByte ∉ String.utf8EncodeChar c := by
  have hval : c.val.toNat ≠ 10 := fun hval => h (Char.ext (UInt32.toNat_inj.mp hval))
  have hbyte : ∀ n : Nat, n % 256 ≠ 10 → newlineByte ≠ UInt8.ofNat n := by
    intro n hn heq
    have hnat := congrArg UInt8.toNat heq
    rw [UInt8.toNat_ofNat'] at hnat
    exact hn hnat.symm
  unfold String.utf8EncodeChar
  dsimp only
  -- One case for each length of the encoding.
  split
  · rw [List.mem_singleton]
    exact hbyte _ (by omega)
  · split
    · rw [List.mem_pair, not_or]
      exact ⟨hbyte _ (by omega), hbyte _ (by omega)⟩
    · split
      · rw [List.mem_cons, List.mem_pair, not_or, not_or]
        exact ⟨hbyte _ (by omega), hbyte _ (by omega), hbyte _ (by omega)⟩
      · rw [List.mem_cons, List.mem_cons, List.mem_pair, not_or, not_or, not_or]
        exact ⟨hbyte _ (by omega), hbyte _ (by omega), hbyte _ (by omega), hbyte _ (by omega)⟩

/-- Newlines are the same in number as bytes and as characters. -/
theorem count_newlineByte (cs : List Char) : (bytes cs).count newlineByte = cs.count '\n' := by
  induction cs with
  | nil => rfl
  | cons c cs ih =>
    rw [bytes_cons, List.count_append, ih]
    by_cases hc : c = '\n'
    · subst hc
      rw [List.count_cons_self, Nat.add_comm]
      rfl
    · rw [List.count_cons_of_ne hc, List.count_eq_zero.mpr (newlineByte_notMem hc), Nat.zero_add]

/-- A character begins at every offset, or in front of it. By induction on the text, with the bytes
of its first character taken off the offset. -/
theorem exists_char_at {cs : List Char} {p : Nat} (h : p < byteSize cs) :
    ∃ before c after, cs = before ++ c :: after ∧ byteSize before ≤ p ∧
      p < byteSize before + c.utf8Size := by
  induction cs generalizing p with
  | nil => exact absurd h (Nat.not_lt_zero p)
  | cons c cs ih =>
    rw [byteSize_cons] at h
    by_cases hfirst : p < c.utf8Size
    · exact ⟨[], c, cs, rfl, Nat.zero_le p, by simpa using hfirst⟩
    · obtain ⟨before, d, after, rfl, hle, hlt⟩ := ih (p := p - c.utf8Size) (by omega)
      refine ⟨c :: before, d, after, rfl, ?_, ?_⟩ <;> rw [byteSize_cons] <;> omega

/-- The newlines in front of an offset are those in front of the character that it falls in. An
offset may fall inside of a character, and there the bytes in front of it in this character count
for nothing. -/
theorem count_newlineByte_take {before after : List Char} {c : Char} {p : Nat}
    (hle : byteSize before ≤ p) (hlt : p < byteSize before + c.utf8Size) :
    ((bytes (before ++ c :: after)).take p).count newlineByte = before.count '\n' := by
  have hinside : ((String.utf8EncodeChar c).take (p - byteSize before)).count newlineByte = 0 := by
    rw [List.count_eq_zero]
    by_cases hc : c = '\n'
    · -- A newline has one byte, so the offset is in front of it.
      subst hc
      have hsize : '\n'.utf8Size = 1 := rfl
      have hzero : p - byteSize before = 0 := by omega
      rw [hzero]
      exact List.not_mem_nil
    · exact fun hmem => newlineByte_notMem hc (List.mem_of_mem_take hmem)
  have hrest : p - byteSize before - c.utf8Size = 0 := by omega
  rw [bytes_append, bytes_cons, List.take_append, List.take_append,
    List.take_of_length_le (by rwa [length_bytes]), length_bytes, String.length_utf8EncodeChar,
    hrest, List.take_zero, List.append_nil, List.count_append, hinside, count_newlineByte,
    Nat.add_zero]

/-! ## Cutting behind newlines -/

/-- **A text cut behind each of its newlines.** No piece is empty, no piece has a newline that is
not its last character, and only the last piece can be without one. -/
structure CutBehindNewlines (cs : List Char) (ls : List (List Char)) : Prop where
  whole : ls.flatten = cs
  filled : ∀ l ∈ ls, l ≠ []
  inside : ∀ l ∈ ls, '\n' ∉ l.dropLast
  closed : ∀ l ∈ ls.dropLast, l.getLast? = some '\n'

namespace CutBehindNewlines

/-- The rest of a cut text is cut in the same way. -/
theorem tail {cs l : List Char} {ls : List (List Char)} (h : CutBehindNewlines cs (l :: ls)) :
    CutBehindNewlines ls.flatten ls where
  whole := rfl
  filled := fun m hm => h.filled m (List.mem_cons_of_mem _ hm)
  inside := fun m hm => h.inside m (List.mem_cons_of_mem _ hm)
  closed := by
    intro m hm
    cases ls with
    | nil => cases hm
    | cons l' ls => exact h.closed m (List.mem_cons_of_mem _ hm)

/-- If the first piece of one cut goes on in the first piece of another, it is the same piece. It
would end with a newline inside of the longer piece, where none may be. -/
theorem head_eq {cs l more : List Char} {ls ls' : List (List Char)}
    (h : CutBehindNewlines cs (l :: ls)) (h' : CutBehindNewlines cs ((l ++ more) :: ls')) :
    more = [] := by
  by_contra hmore
  cases ls with
  | nil =>
    have hwhole := h.whole.trans h'.whole.symm
    simp only [List.flatten_cons, List.flatten_nil, List.append_nil, List.append_assoc] at hwhole
    exact hmore (List.append_eq_nil_iff.mp (List.append_right_eq_self.mp hwhole.symm)).1
  | cons m ls =>
    -- The newline at the end of the shorter piece is inside the longer one.
    have hlast : '\n' ∈ l := List.mem_of_getLast? (h.closed l List.mem_cons_self)
    refine h'.inside _ List.mem_cons_self ?_
    rw [List.dropLast_append_of_ne_nil hmore]
    exact List.mem_append_left _ hlast

/-- **There is one way to cut a text behind each of its newlines.** Two first pieces of one text are
beginnings of each other, and each ends with the only newline in it. -/
theorem unique {cs : List Char} {ls ls' : List (List Char)} (h : CutBehindNewlines cs ls)
    (h' : CutBehindNewlines cs ls') : ls = ls' := by
  -- A cut of nothing has no pieces, since no piece is empty.
  have hempty : ∀ {l : List Char} {rest : List (List Char)},
      CutBehindNewlines [] (l :: rest) → False := by
    intro l rest hcut
    exact hcut.filled l List.mem_cons_self (List.append_eq_nil_iff.mp hcut.whole).1
  induction ls generalizing cs ls' with
  | nil =>
    obtain rfl : [] = cs := h.whole
    cases ls' with
    | nil => rfl
    | cons l' ls' => exact (hempty h').elim
  | cons l ls ih =>
    cases ls' with
    | nil =>
      obtain rfl : [] = cs := h'.whole
      exact (hempty h).elim
    | cons l' ls' =>
      have hwhole : l ++ ls.flatten = l' ++ ls'.flatten := h.whole.trans h'.whole.symm
      have hhead : l = l' := by
        -- One of the two first pieces goes on in the other.
        rcases List.append_eq_append_iff.mp hwhole with ⟨more, rfl, -⟩ | ⟨more, rfl, -⟩
        · rw [head_eq h h', List.append_nil]
        · rw [head_eq h' h, List.append_nil]
      subst hhead
      rw [List.append_cancel_left_eq] at hwhole
      rw [ih h.tail (hwhole ▸ h'.tail)]

end CutBehindNewlines

/-- The lines of a text are such a cut. What a line looks like is known from `exists_body_of_lines`:
some text without newlines, and then a newline unless the line is the last one. -/
theorem cutBehindNewlines_lines (cs : List Char) : CutBehindNewlines cs (lines cs) where
  whole := flatten_lines cs
  filled := by
    intro l hl
    obtain ⟨earlier, later, hlines⟩ := List.append_of_mem hl
    obtain ⟨body, -, rfl | ⟨rfl, hne, -⟩⟩ := exists_body_of_lines hlines
    · exact List.append_ne_nil_of_right_ne_nil _ (List.cons_ne_nil _ _)
    · exact hne
  inside := by
    intro l hl
    obtain ⟨earlier, later, hlines⟩ := List.append_of_mem hl
    obtain ⟨body, hbody, rfl | ⟨rfl, -, -⟩⟩ := exists_body_of_lines hlines
    · rwa [List.dropLast_concat]
    · exact fun hmem => hbody (List.dropLast_subset _ hmem)
  closed := by
    intro l hl
    obtain ⟨earlier, later, hfront⟩ := List.append_of_mem hl
    have hne : lines cs ≠ [] := by
      intro hnil
      rw [hnil] at hl
      cases hl
    -- A line that is not the last one has another line behind it.
    have hlines : lines cs = earlier ++ l :: (later ++ [(lines cs).getLast hne]) := by
      conv_lhs => rw [← List.dropLast_append_getLast hne, hfront]
      simp
    obtain ⟨body, -, rfl | ⟨-, -, hlast⟩⟩ := exists_body_of_lines hlines
    · exact List.getLast?_concat
    · simp at hlast

/-! ## Places and offsets -/

/-- The bytes of several lines. -/
theorem byteSize_flatten (ls : List (List Char)) :
    byteSize ls.flatten = (ls.map fun l => (bytes l).length).sum := by
  induction ls with
  | nil => rfl
  | cons l ls ih =>
    rw [List.flatten_cons, byteSize_append, ih, List.map_cons, List.sum_cons, length_bytes]

/-- The line that an offset falls on, and the newlines in front of it. All that is said of lines is
said of characters, so the offset is taken to its character first. -/
theorem exists_line_of_lt {cs : List Char} {p : Nat} (h : p < byteSize cs) :
    ∃ earlier l later column, lines cs = earlier ++ l :: later ∧ column < byteSize l ∧
      byteSize earlier.flatten + column = p ∧
      ((bytes cs).take p).count newlineByte = earlier.length := by
  -- The offset may fall inside a character; lines are told by where that character starts.
  obtain ⟨before, c, after, rfl, hle, hlt⟩ := exists_char_at h
  obtain ⟨earlier, front, back, later, hlines, rfl⟩ :=
    exists_lines_of_append (Eq.refl (before ++ c :: after))
  rw [byteSize_append] at hle hlt
  refine ⟨earlier, front ++ c :: back, later, p - byteSize earlier.flatten, hlines, ?_,
    by omega, ?_⟩
  · rw [byteSize_append, byteSize_cons]
    omega
  · rw [count_newlineByte_take (by rwa [byteSize_append]) (by rwa [byteSize_append]),
      count_newline_front hlines]

/-- Only the offsets past the end of a text have no place. -/
theorem lineAt_eq_none_iff {cs : List Char} {p : Nat} : lineAt cs p = none ↔ byteSize cs < p := by
  rw [lineAt]
  split
  · simpa
  · simpa using by omega

/-- The number of the last line, which is one in a text without lines. -/
theorem number_placeAtEnd (cs : List Char) :
    (placeAtEnd cs).number = if cs = [] then 1 else (lines cs).length := by
  split
  · rename_i hcs
    rw [hcs]
    rfl
  · rename_i hcs
    obtain ⟨earlier, l, hlines, -⟩ := exists_last_of_lines hcs
    have hpos : 1 ≤ (lines cs).length := by simp [hlines]
    exact Nat.max_eq_left hpos

/-- **A byte offset and its place tell each other.** The lines of a text are the one way to cut it
behind each of its newlines. An offset has no place if and only if it is past the end. Below the
end, the number of the line is one more than there are newlines in front of the offset, the text is
that of the line of this number, the column falls on this line, and the bytes of the earlier lines
and the column are the offset. The end itself is behind the last line; a text without lines counts
as one line with nothing on it. -/
theorem lineAt_inverts_lines (cs : List Char) (p : Nat) :
    (∀ ls, CutBehindNewlines cs ls ↔ ls = lines cs) ∧
      (lineAt cs p = none ↔ (bytes cs).length < p) ∧
      (p < (bytes cs).length → ∃ place, lineAt cs p = some place ∧
        place.number = 1 + ((bytes cs).take p).count newlineByte ∧
        (lines cs)[place.number - 1]? = some place.text ∧
        place.column < (bytes place.text).length ∧
        (((lines cs).take (place.number - 1)).map fun l => (bytes l).length).sum + place.column =
          p) ∧
      (p = (bytes cs).length → ∃ place, lineAt cs p = some place ∧
        place.number = (if cs = [] then 1 else (lines cs).length) ∧
        place.text = (lines cs).getLast?.getD [] ∧ place.column = (bytes place.text).length) := by
  refine ⟨fun ls => ⟨fun h => h.unique (cutBehindNewlines_lines cs), ?_⟩, ?_, fun hlt => ?_, ?_⟩
  · rintro rfl
    exact cutBehindNewlines_lines cs
  · rw [length_bytes, lineAt_eq_none_iff]
  · rw [length_bytes] at hlt
    obtain ⟨earlier, l, later, column, hlines, hcolumn, rfl, hcount⟩ := exists_line_of_lt hlt
    refine ⟨_, lineAt_of_lines hlines hcolumn, by rw [hcount], ?_, by rwa [length_bytes], ?_⟩
    · rw [hlines, Nat.add_sub_cancel_left, List.getElem?_append_right (Nat.le_refl _), Nat.sub_self]
      rfl
    · rw [hlines, Nat.add_sub_cancel_left, List.take_left, byteSize_flatten]
  · rintro rfl
    rw [length_bytes, lineAt_byteSize]
    exact ⟨_, rfl, number_placeAtEnd cs, rfl, (length_bytes _).symm⟩

/-- An offset inside a letter of two bytes, behind an empty line, and the end of the text. -/
theorem lineAt_inside_letter :
    (∃ place, lineAt "a\n\nbß\n".toList 5 = some place ∧
      place.number = 1 + ((bytes "a\n\nbß\n".toList).take 5).count newlineByte ∧
      place.column < (bytes place.text).length) ∧
    ∃ place, lineAt "a\n\nbß\n".toList 7 = some place ∧ place.number = 3 ∧
      place.column = (bytes place.text).length := by
  have hsize : (bytes "a\n\nbß\n".toList).length = 7 := by decide
  obtain ⟨place, hplace, hnumber, -, hcolumn, -⟩ :=
    (lineAt_inverts_lines "a\n\nbß\n".toList 5).2.2.1 (by rw [hsize]; decide)
  obtain ⟨place', hplace', hnumber', -, hcolumn'⟩ :=
    (lineAt_inverts_lines "a\n\nbß\n".toList 7).2.2.2 hsize.symm
  exact ⟨⟨place, hplace, hnumber, hcolumn⟩, place', hplace', hnumber', hcolumn'⟩

end Pulse.Text
