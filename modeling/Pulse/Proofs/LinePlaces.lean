/-
Lines of a text and the places on them.

Cut into lines, a text is in front of every line what the earlier lines make up, and these have one
newline each. So the number of a line is told by the newlines in front of it, and a byte offset by
a line and a column on it. Behind the last byte there is no line to find. The end of the text is
placed behind its last line, which is the line that the newlines count only if that line is not
closed by a newline itself.
-/
import Pulse.Text.Lines
import Mathlib.Algebra.BigOperators.Group.List.Basic

set_option autoImplicit false

namespace Pulse.Text

/-! ## Texts and bytes -/

/-- A text is cut at the last of its newlines in one way. What is behind that newline has none,
which is what tells the last one. -/
theorem append_newline_inj {xs ys zs ws : List Char} (hys : '\n' ∉ ys) (hws : '\n' ∉ ws)
    (h : xs ++ '\n' :: ys = zs ++ '\n' :: ws) : xs = zs ∧ ys = ws := by
  rcases List.append_eq_append_iff.mp h with ⟨ms, rfl, hms⟩ | ⟨ms, rfl, hms⟩
  · cases ms with
    | nil => simpa using hms
    | cons m ms =>
      rw [(List.cons.inj hms).2] at hys
      simp at hys
  · cases ms with
    | nil => simpa using hms.symm
    | cons m ms =>
      rw [(List.cons.inj hms).2] at hws
      simp at hws

/-- A text has as many bytes as characters just when all of them are of one byte. Otherwise there
are more bytes, since no character has none. -/
theorem byteSize_eq_length_iff {cs : List Char} :
    byteSize cs = cs.length ↔ ∀ c ∈ cs, c.toNat < 128 := by
  have hsize (c : Char) : c.utf8Size = 1 ↔ c.toNat < 128 := by
    rw [Char.utf8Size_eq_one_iff, UInt32.le_iff_toNat_le]
    exact Nat.lt_succ_iff.symm
  induction cs with
  | nil => simp
  | cons c cs ih =>
    have hcons : byteSize (c :: cs) = (c :: cs).length ↔
        c.utf8Size = 1 ∧ byteSize cs = cs.length := by
      have hpos := c.utf8Size_pos
      have hrest := length_le_byteSize cs
      rw [byteSize_cons, List.length_cons]
      omega
    rw [hcons, List.forall_mem_cons]
    exact and_congr (hsize c) ih

/-! ## The shape of lines -/

section Shape

variable {cs l : List Char} {earlier later : List (List Char)}

/-- A line has no newline but the one that closes it, and only the last line can be open. By
induction on the text, along its first character: a newline closes a line at once, and any other
character goes in front of the first line of the rest. -/
theorem exists_body_of_lines (h : lines cs = earlier ++ l :: later) :
    ∃ body, '\n' ∉ body ∧ (l = body ++ ['\n'] ∨ l = body ∧ body ≠ [] ∧ later = []) := by
  induction cs generalizing l earlier with
  | nil => simp [lines] at h
  | cons c cs ih =>
    rw [lines] at h
    split at h
    · rename_i hc
      cases earlier with
      | nil =>
        obtain ⟨rfl, -⟩ := List.cons.inj h
        exact ⟨[], List.not_mem_nil, .inl (by rw [hc]; rfl)⟩
      | cons _ earlier => exact ih (List.cons.inj h).2
    · rename_i hc
      split at h
      · -- The text is one open line of one character.
        cases earlier with
        | nil =>
          obtain ⟨rfl, rfl⟩ := List.cons.inj h
          exact ⟨[c], by simpa using Ne.symm hc, .inr ⟨rfl, List.cons_ne_nil _ _, rfl⟩⟩
        | cons _ earlier => simp at h
      · rename_i first others hlines
        cases earlier with
        | nil =>
          obtain ⟨rfl, rfl⟩ := List.cons.inj h
          obtain ⟨body, hbody, hshape⟩ := @ih first [] hlines
          refine ⟨c :: body, by simpa [hbody] using Ne.symm hc, ?_⟩
          rcases hshape with rfl | ⟨rfl, -, hlast⟩
          · exact .inl rfl
          · exact .inr ⟨rfl, List.cons_ne_nil _ _, hlast⟩
        | cons _ earlier =>
          refine @ih l (first :: earlier) ?_
          rw [hlines, (List.cons.inj h).2]
          rfl

/-- A line that has another one behind it is closed. -/
theorem count_newline_of_lines (h : lines cs = earlier ++ l :: later) (hlater : later ≠ []) :
    l.count '\n' = 1 := by
  obtain ⟨body, hbody, rfl | ⟨-, -, hlast⟩⟩ := exists_body_of_lines h
  · rw [List.count_append, List.count_eq_zero.mpr hbody]
    rfl
  · exact absurd hlast hlater

/-- **In front of a line there is one newline for every line.** Every line but the last is closed by
its only newline. -/
theorem count_newline_flatten (h : lines cs = earlier ++ l :: later) :
    earlier.flatten.count '\n' = earlier.length := by
  have hone : ∀ n ∈ earlier.map (List.count '\n'), n = 1 := by
    intro n hn
    obtain ⟨m, hm, rfl⟩ := List.mem_map.mp hn
    obtain ⟨before, after, rfl⟩ := List.append_of_mem hm
    rw [List.append_assoc, List.cons_append] at h
    exact count_newline_of_lines h (by simp)
  rw [List.count_flatten, List.sum_eq_card_nsmul _ 1 hone, List.length_map, Nat.nsmul_eq_mul,
    Nat.mul_one]

/-- The newline of a line is its last character, so it is not in a proper front of the line. -/
theorem newline_notMem_front {front back : List Char} {c : Char}
    (h : lines cs = earlier ++ (front ++ c :: back) :: later) : '\n' ∉ front := by
  obtain ⟨body, hbody, heq | ⟨heq, -⟩⟩ := exists_body_of_lines h
  · have hfront : front <+: body := by
      refine List.prefix_of_prefix_length_le ⟨c :: back, heq⟩ (List.prefix_append _ _) ?_
      have hlength := congrArg List.length heq
      simp only [List.length_append, List.length_cons, List.length_nil] at hlength
      omega
    exact fun hmem => hbody (hfront.subset hmem)
  · rw [← heq] at hbody
    exact fun hmem => hbody (List.mem_append_left _ hmem)

/-- **In front of a character there is one newline for every earlier line.** The part of its own
line in front of it has none. -/
theorem count_newline_front {front back : List Char} {c : Char}
    (h : lines cs = earlier ++ (front ++ c :: back) :: later) :
    (earlier.flatten ++ front).count '\n' = earlier.length := by
  rw [List.count_append, count_newline_flatten h, List.count_eq_zero.mpr (newline_notMem_front h),
    Nat.add_zero]

/-- Every character is on one of the lines. And the text in front of it is the lines before this
one, with the front of this one. -/
theorem exists_lines_of_append {before after : List Char} {c : Char}
    (h : cs = before ++ c :: after) :
    ∃ earlier front back later, lines cs = earlier ++ (front ++ c :: back) :: later ∧
      before = earlier.flatten ++ front := by
  induction cs generalizing before with
  | nil => simp at h
  | cons d cs ih =>
    cases before with
    | nil =>
      obtain ⟨rfl, rfl⟩ := List.cons.inj h
      rw [lines]
      split
      · exact ⟨[], [], [], lines cs, rfl, rfl⟩
      · split
        · exact ⟨[], [], [], [], rfl, rfl⟩
        · rename_i l ls _
          exact ⟨[], [], l, ls, rfl, rfl⟩
    -- The first character is on the same line as the next one, or on a line of its own if it is a
    -- newline.
    | cons _ before =>
      obtain ⟨rfl, hcs⟩ := List.cons.inj h
      obtain ⟨earlier, front, back, later, hlines, rfl⟩ := ih hcs
      rw [lines, hlines]
      split
      · exact ⟨[d] :: earlier, front, back, later, rfl, rfl⟩
      · -- The new character is at the front of the first line, which may be the one in question.
        cases earlier with
        | nil => exact ⟨[], d :: front, back, later, rfl, rfl⟩
        | cons l earlier => exact ⟨(d :: l) :: earlier, front, back, later, rfl, rfl⟩

/-- A text that is not empty has a last line, and the rest of it in front. It is the line that the
end of the text is placed behind. -/
theorem exists_last_of_lines (h : cs ≠ []) :
    ∃ earlier l, lines cs = earlier ++ [l] ∧ cs = earlier.flatten ++ l := by
  have hne : lines cs ≠ [] := by
    intro hnil
    have hflatten := flatten_lines cs
    rw [hnil] at hflatten
    exact h hflatten.symm
  refine ⟨(lines cs).dropLast, (lines cs).getLast hne, ?_, ?_⟩
  · rw [List.dropLast_append_getLast]
  · conv_lhs => rw [← flatten_lines cs, ← List.dropLast_append_getLast hne]
    simp

end Shape

/-! ## Offsets by lines -/

section Places

variable {cs l : List Char} {earlier later : List (List Char)} {offset n column : Nat}

/-- The walk over the lines stops at the line of an offset. Every line before it is passed with its
bytes. -/
theorem placeAmong_append (hcolumn : column < byteSize l) :
    placeAmong (byteSize earlier.flatten + column) n (earlier ++ l :: later) =
      some ⟨n + earlier.length, l, column⟩ := by
  induction earlier generalizing n with
  | nil => simp [placeAmong, hcolumn]
  | cons m earlier ih =>
    have hbehind : ¬ byteSize m + byteSize earlier.flatten + column < byteSize m := by omega
    have hrest : byteSize m + byteSize earlier.flatten + column - byteSize m =
        byteSize earlier.flatten + column := by omega
    rw [List.flatten_cons, byteSize_append, List.cons_append, placeAmong, if_neg hbehind, hrest, ih,
      List.length_cons]
    congr 2
    omega

/-- The walk finds nothing behind the lines: there the offset is too large for each of them. -/
theorem placeAmong_eq_none {ls : List (List Char)} (h : byteSize ls.flatten ≤ offset) :
    placeAmong offset n ls = none := by
  induction ls generalizing offset n with
  | nil => rfl
  | cons l ls ih =>
    rw [List.flatten_cons, byteSize_append] at h
    rw [placeAmong, if_neg (by omega)]
    exact ih (by omega)

/-- **The place of an offset on a line**: the line, counted from one, and the bytes of the line in
front of it. -/
theorem lineAt_of_lines (h : lines cs = earlier ++ l :: later) (hcolumn : column < byteSize l) :
    lineAt cs (byteSize earlier.flatten + column) = some ⟨1 + earlier.length, l, column⟩ := by
  have hle : ¬ byteSize cs < byteSize earlier.flatten + column := by
    rw [← flatten_lines cs, h, List.flatten_append, List.flatten_cons, byteSize_append,
      byteSize_append]
    omega
  rw [lineAt, if_neg hle, h, placeAmong_append hcolumn, Option.getD_some]

/-- **The place of the end**, which is behind the last line and not on a line of its own. No line
reaches beyond the end, so the search among the lines finds nothing (`get_line_at_position`). -/
theorem lineAt_byteSize (cs : List Char) : lineAt cs (byteSize cs) = some (placeAtEnd cs) := by
  rw [lineAt, if_neg (Nat.lt_irrefl _),
    placeAmong_eq_none (Nat.le_of_eq (by rw [flatten_lines])), Option.getD_none]

/-- **The number of the place of the end.** The last line is one line short of what the newlines
count if it is closed. -/
theorem placeAtEnd_number (cs : List Char) :
    (placeAtEnd cs).number = cs.count '\n' + if cs.getLast? = some '\n' then 0 else 1 := by
  by_cases hcs : cs = []
  · subst hcs
    rfl
  · obtain ⟨earlier, l, hlines, rfl⟩ := exists_last_of_lines hcs
    have hnumber : (placeAtEnd (earlier.flatten ++ l)).number = earlier.length + 1 := by
      simp [placeAtEnd, hlines]
    rw [hnumber, List.count_append, count_newline_flatten hlines]
    obtain ⟨body, hbody, rfl | ⟨rfl, hne, -⟩⟩ := exists_body_of_lines hlines
    · simp [List.count_eq_zero.mpr hbody]
    · have hlast : (earlier.flatten ++ l).getLast? ≠ some '\n' := by
        rw [List.getLast?_append_of_ne_nil _ hne]
        exact fun h => hbody (List.mem_of_getLast? h)
      rw [if_neg hlast, List.count_eq_zero.mpr hbody]

end Places

end Pulse.Text
