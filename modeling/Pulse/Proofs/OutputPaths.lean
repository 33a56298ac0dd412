/-
Where the result of a command goes, and whether that is the input itself.

Unless an output is given, the path of the result is that of the input with another extension. It is
the same path if the input has no name that could be changed, or if its name has the extension of
the result already; for an executable that is no extension at all. Nothing else makes the two paths
the same, with one exception that goes the other way: a name that starts with two points has no
extension left to replace once the old one is cut off.

Texts that differ can be one path. Paths are therefore compared by their components.
-/
import Pulse.Command.Options
import Pulse.Proofs.LinePlaces
import Mathlib.Data.List.TakeWhile

set_option autoImplicit false

namespace Pulse

namespace Path

/-! ## Components -/

/-- The texts between the slashes of a path. -/
def pieces : List Char → List (List Char)
  | [] => [[]]
  | c :: cs => if c = '/' then [] :: pieces cs else (pieces cs).modifyHead (c :: ·)

/-- Whether a piece names nothing. -/
def isIdle (piece : List Char) : Bool := piece = [] || piece = ['.']

/-- The pieces that count. A point that stands alone counts in front of all others. -/
def named : List (List Char) → List (List Char)
  | [] => []
  | first :: others => (if first = [] then [] else [first]) ++ others.filter (!isIdle ·)

/-- Whether a path starts at the root, and its components. -/
def components (path : List Char) : Bool × List (List Char) :=
  (path.head? = some '/', named (pieces path))

/-- **Two texts are the same path.** -/
def Same (path other : List Char) : Prop := components path = components other

instance (path other : List Char) : Decidable (Same path other) :=
  inferInstanceAs (Decidable (components path = components other))

/-- A path has at least one piece, which may be empty. -/
theorem pieces_ne_nil (path : List Char) : pieces path ≠ [] := by
  induction path with
  | nil => exact List.cons_ne_nil _ _
  | cons c cs ih =>
    rw [pieces]
    split
    · exact List.cons_ne_nil _ _
    · simpa using ih

/-- A text without a slash is one piece. -/
theorem pieces_of_notMem {piece : List Char} (h : '/' ∉ piece) : pieces piece = [piece] := by
  induction piece with
  | nil => rfl
  | cons c cs ih =>
    rw [List.mem_cons, not_or] at h
    rw [pieces, if_neg (Ne.symm h.1), ih h.2]
    rfl

/-- A slash divides the pieces in front of it and behind it. -/
theorem pieces_append (path other : List Char) :
    pieces (path ++ '/' :: other) = pieces path ++ pieces other := by
  induction path with
  | nil => rfl
  | cons c cs ih =>
    rw [List.cons_append, pieces, pieces, ih]
    split
    · rfl
    · cases hcs : pieces cs with
      | nil => exact absurd hcs (pieces_ne_nil cs)
      | cons p ps => rfl

/-- Behind the first piece, points that stand alone never count. -/
theorem named_append {ps : List (List Char)} (h : ps ≠ []) (qs : List (List Char)) :
    named (ps ++ qs) = named ps ++ qs.filter (!isIdle ·) := by
  cases ps with
  | nil => exact absurd rfl h
  | cons p ps => simp [named]

/-! ## Ends that name nothing -/

/-- Slashes and points behind them, which name nothing at the end of a path. -/
inductive Idle : List Char → Prop where
  | nil : Idle []
  | slash {cs : List Char} (h : Idle cs) : Idle ('/' :: cs)
  | point {cs : List Char} (h : Idle cs) : Idle ('/' :: '.' :: cs)

namespace Idle

variable {cs ds : List Char}

/-- Ends that name nothing name nothing together. -/
theorem append (h : Idle cs) (h' : Idle ds) : Idle (cs ++ ds) := by
  induction h with
  | nil => exact h'
  | slash _ ih => exact .slash ih
  | point _ ih => exact .point ih

/-- Nor does the beginning of such an end. By induction on the end, from its front. -/
theorem of_append (h : Idle (cs ++ ds)) : Idle cs := by
  -- The beginning may end anywhere, also between a slash and the point behind it.
  generalize hwhole : cs ++ ds = whole at h
  induction h generalizing cs with
  | nil =>
    rw [(List.append_eq_nil_iff.mp hwhole).1]
    exact .nil
  | slash _ ih =>
    cases cs with
    | nil => exact .nil
    | cons c cs =>
      obtain ⟨rfl, hrest⟩ := List.cons.inj hwhole
      exact .slash (ih hrest)
  | point _ ih =>
    cases cs with
    | nil => exact .nil
    | cons c cs =>
      obtain ⟨rfl, hrest⟩ := List.cons.inj hwhole
      cases cs with
      | nil => exact .slash .nil
      | cons d cs =>
        obtain ⟨rfl, hbehind⟩ := List.cons.inj hrest
        exact .point (ih hbehind)

/-- All pieces behind the first slash name nothing. By induction on the end, which is made of
slashes and of slashes with a point behind them. -/
theorem exists_pieces (h : Idle cs) :
    ∃ ps, pieces cs = [] :: ps ∧ ps.filter (!isIdle ·) = [] := by
  induction h with
  | nil => exact ⟨[], rfl, rfl⟩
  | slash _ ih =>
    obtain ⟨ps, hps, hidle⟩ := ih
    refine ⟨[] :: ps, ?_, ?_⟩
    · rw [pieces, if_pos rfl, hps]
    · rw [List.filter_cons_of_neg (by decide), hidle]
  | point _ ih =>
    obtain ⟨ps, hps, hidle⟩ := ih
    refine ⟨['.'] :: ps, ?_, ?_⟩
    · rw [pieces, if_pos rfl, pieces, if_neg (by decide), hps]
      rfl
    · rw [List.filter_cons_of_neg (by decide), hidle]

/-- Such an end makes no other path. Its pieces name nothing, and whether the path starts with a
slash is settled in front of it. -/
theorem components_append (h : Idle ds) (hcs : cs ≠ []) :
    components (cs ++ ds) = components cs := by
  have hhead : (cs ++ ds).head? = cs.head? := List.head?_append_of_ne_nil _ hcs
  have hpieces : named (pieces (cs ++ ds)) = named (pieces cs) := by
    cases ds with
    | nil => rw [List.append_nil]
    | cons d ds =>
      obtain rfl : d = '/' := by cases h <;> rfl
      obtain ⟨ps, hps, hidle⟩ := h.exists_pieces
      rw [pieces, if_pos rfl] at hps
      rw [pieces_append, (List.cons.inj hps).2, named_append (pieces_ne_nil cs), hidle,
        List.append_nil]
  rw [components, hhead, hpieces, components]

/-- An end that names nothing is dropped as a whole. -/
theorem dropIdle_append (h : Idle cs) (rest : List Char) :
    dropIdle (cs.reverse ++ rest) = dropIdle rest := by
  induction h generalizing rest with
  | nil => rfl
  | slash _ ih =>
    rw [List.reverse_cons, List.append_assoc, ih]
    rfl
  | point _ ih =>
    rw [List.reverse_cons, List.reverse_cons, List.append_assoc, List.append_assoc, ih]
    rfl

end Idle

/-- Only what names nothing is dropped. The path is read from its end, where slashes and points that
stand alone are dropped as long as there are some. -/
theorem exists_idle_of_dropIdle (backwards : List Char) :
    ∃ idle, Idle idle ∧ backwards = idle.reverse ++ dropIdle backwards := by
  fun_induction dropIdle backwards with
  | case1 cs ih =>
    obtain ⟨idle, hidle, hcs⟩ := ih
    refine ⟨idle ++ ['/'], hidle.append (.slash .nil), ?_⟩
    rw [List.reverse_append, List.append_assoc, ← hcs]
    rfl
  | case2 cs ih =>
    obtain ⟨idle, hidle, hcs⟩ := ih
    refine ⟨idle ++ ['/', '.'], hidle.append (.point .nil), ?_⟩
    rw [List.reverse_append, List.append_assoc, ← hcs]
    rfl
  | case3 cs => exact ⟨[], .nil, rfl⟩

/-! ## The parts of a path -/

/-- **The parts of a path with a name**: what stands in front of the name, the name, and an end that
names nothing. -/
structure Parts (path parent name idle : List Char) : Prop where
  whole : path = parent ++ name ++ idle
  parent : parent = [] ∨ ∃ front, parent = front ++ ['/']
  slash : '/' ∉ name
  filled : name ≠ []
  point : name ≠ ['.']
  points : name ≠ ['.', '.']
  idle : Idle idle

section Names

variable {path parent name idle : List Char}

/-- Nothing is dropped behind a name, be it two points. A name has no slash, and it is not the
single point, so the search from the back stops at once. -/
theorem dropIdle_name (hslash : '/' ∉ name) (hfilled : name ≠ []) (hpoint : name ≠ ['.'])
    (parent : List Char) : dropIdle (name.reverse ++ parent) = name.reverse ++ parent := by
  have hback : '/' ∉ name.reverse := by rwa [List.mem_reverse]
  have hne : name.reverse ≠ ['.'] := fun h => hpoint (List.reverse_eq_iff.mp h)
  cases hname : name.reverse with
  | nil => exact absurd (List.reverse_eq_nil_iff.mp hname) hfilled
  | cons c cs =>
    rw [hname] at hback hne
    rw [List.mem_cons, not_or] at hback
    rw [List.cons_append, dropIdle]
    · intro ds h
      exact hback.1 (List.cons.inj h).1.symm
    · intro ds h
      obtain ⟨rfl, hrest⟩ := List.cons.inj h
      cases cs with
      | nil => exact hne rfl
      | cons d cs =>
        obtain ⟨rfl, -⟩ := List.cons.inj hrest
        exact hback.2 List.mem_cons_self

/-- What is left when a text is cut in front of a character starts with it. -/
theorem dropWhile_ne_eq (c : Char) (cs : List Char) :
    cs.dropWhile (· ≠ c) = [] ∨ ∃ ds, cs.dropWhile (· ≠ c) = c :: ds := by
  induction cs with
  | nil => exact .inl rfl
  | cons d cs ih =>
    by_cases hd : d = c
    · exact .inr ⟨cs, by simp [hd]⟩
    · rwa [List.dropWhile_cons_of_pos (by simpa using hd)]

/-- A text is cut, from its end, in front of the last place where it has a character. -/
theorem cut_reverse {c : Char} {behind : List Char} (hbehind : c ∉ behind) {front : List Char}
    (hfront : front = [] ∨ ∃ cs, front = cs ++ [c]) :
    (behind.reverse ++ front.reverse).takeWhile (· ≠ c) = behind.reverse ∧
      (behind.reverse ++ front.reverse).dropWhile (· ≠ c) = front.reverse := by
  have hall : ∀ d ∈ behind.reverse, decide (d ≠ c) = true := by
    intro d hd
    refine decide_eq_true ?_
    rintro rfl
    exact hbehind (List.mem_reverse.mp hd)
  rw [List.takeWhile_append_of_pos hall, List.dropWhile_append_of_pos hall]
  rcases hfront with rfl | ⟨cs, rfl⟩ <;> simp

/-- **How a path is split at its name.** What names nothing behind it is dropped, and then it
reaches back to the last slash. Two points name no file. -/
theorem splitName?_eq (hparent : parent = [] ∨ ∃ front, parent = front ++ ['/'])
    (hslash : '/' ∉ name) (hfilled : name ≠ []) (hpoint : name ≠ ['.']) (hidle : Idle idle) :
    splitName? (parent ++ name ++ idle) =
      if name = ['.', '.'] then none else some (parent, name) := by
  obtain ⟨htake, hdrop⟩ := cut_reverse hslash hparent
  rw [splitName?, List.reverse_append, hidle.dropIdle_append, List.reverse_append,
    dropIdle_name hslash hfilled hpoint, htake, hdrop, List.reverse_reverse, List.reverse_reverse]
  simp [hfilled, hpoint]

/-- Two points are no name, since they lead to the directory above. -/
theorem splitName?_points (hparent : parent = [] ∨ ∃ front, parent = front ++ ['/']) :
    splitName? (parent ++ ['.', '.']) = none := by
  have hslash : '/' ∉ ['.', '.'] := by decide
  have hsplit := splitName?_eq hparent hslash (by decide) (by decide) Idle.nil
  rwa [if_pos rfl, List.append_nil] at hsplit

/-- A path with a name is split at it. -/
theorem splitName?_of_parts (h : Parts path parent name idle) :
    splitName? path = some (parent, name) := by
  rw [h.whole, splitName?_eq h.parent h.slash h.filled h.point h.idle, if_neg h.points]

/-- A path that is split at a name has these parts. The parent ends with a slash or is empty, and
the name has none. -/
theorem exists_parts (h : splitName? path = some (parent, name)) :
    ∃ idle, Parts path parent name idle := by
  rw [splitName?] at h
  split at h
  · cases h
  · rename_i hname
    rw [not_or, not_or] at hname
    obtain ⟨hfilled, hpoint, hpoints⟩ := hname
    obtain ⟨rfl, rfl⟩ := Prod.mk.inj (Option.some.inj h)
    obtain ⟨idle, hidle, hpath⟩ := exists_idle_of_dropIdle path.reverse
    refine ⟨idle, ?_, ?_, ?_, hfilled, hpoint, hpoints, hidle⟩
    · rw [← List.reverse_append, List.takeWhile_append_dropWhile, ← List.reverse_reverse idle,
        ← List.reverse_append, ← hpath, List.reverse_reverse]
    · rcases dropWhile_ne_eq '/' (dropIdle path.reverse) with hdrop | ⟨front, hdrop⟩
      · exact .inl (by rw [hdrop]; rfl)
      · exact .inr ⟨front.reverse, by rw [hdrop, List.reverse_cons]⟩
    · intro hmem
      simpa using List.mem_takeWhile_imp (List.mem_reverse.mp hmem)

/-! ## Extensions -/

/-- The end of a name with an extension. -/
def suffix (extension : List Char) : List Char :=
  if extension = [] then [] else '.' :: extension

/-- The extension is what stands behind the last point, if something stands in front of it. -/
theorem splitExtension_of_point {stem extension : List Char} (hstem : stem ≠ [])
    (hextension : '.' ∉ extension) :
    splitExtension (stem ++ '.' :: extension) = (stem, some extension) := by
  obtain ⟨htake, hdrop⟩ := cut_reverse hextension (.inr ⟨stem, rfl⟩)
  have hname : (stem ++ '.' :: extension).reverse =
      extension.reverse ++ (stem ++ ['.']).reverse := by
    simp
  rw [splitExtension, hname, htake, hdrop]
  simp [hstem]

/-- A name has no extension, or it is divided by its last point. A point at the front of a name does
not count, since nothing would be left of the name. -/
theorem splitExtension_cases (name : List Char) :
    splitExtension name = (name, none) ∨
      ∃ stem extension, stem ≠ [] ∧ '.' ∉ extension ∧ name = stem ++ '.' :: extension := by
  rw [splitExtension]
  split
  · exact .inl rfl
  · rename_i hstem
    have hparts := List.takeWhile_append_dropWhile (p := fun c => decide (c ≠ '.'))
      (l := name.reverse)
    rcases dropWhile_ne_eq '.' name.reverse with hdrop | ⟨stem, hdrop⟩
    · rw [hdrop] at hstem
      exact absurd rfl hstem
    · rw [hdrop] at hstem hparts
      refine .inr ⟨stem.reverse, (name.reverse.takeWhile (· ≠ '.')).reverse, ?_, ?_, ?_⟩
      · simpa using hstem
      · intro hmem
        simpa using List.mem_takeWhile_imp (List.mem_reverse.mp hmem)
      · exact (List.reverse_eq_iff.mp hparts.symm).trans (by simp)

/-- Bytes are cut off as whole characters. A character is dropped if all of its bytes fit into what
is still to be cut. -/
theorem exists_dropped (n : Nat) (cs : List Char) :
    ∃ dropped, cs = dropped ++ dropWithin n cs ∧ Text.byteSize dropped ≤ n := by
  induction cs generalizing n with
  | nil => exact ⟨[], rfl, Nat.zero_le n⟩
  | cons c cs ih =>
    rw [dropWithin]
    split
    · obtain ⟨dropped, hcs, hsize⟩ := ih (n - c.utf8Size)
      refine ⟨c :: dropped, by rw [List.cons_append, ← hcs], ?_⟩
      rw [Text.byteSize_cons]
      omega
    · exact ⟨[], rfl, Nat.zero_le n⟩

/-- As many bytes as the front has are dropped with it. -/
theorem dropWithin_append (cs ds : List Char) : dropWithin (Text.byteSize cs) (cs ++ ds) = ds := by
  induction cs with
  | nil =>
    cases ds with
    | nil => rfl
    | cons d ds =>
      have hpos := d.utf8Size_pos
      rw [List.nil_append, dropWithin, if_neg (by rw [Text.byteSize_nil]; omega)]
  | cons c cs ih =>
    rw [Text.byteSize_cons, List.cons_append, dropWithin, if_pos (Nat.le_add_right _ _),
      Nat.add_sub_cancel_left, ih]

/-- A text has the same bytes from its end. -/
theorem byteSize_reverse (cs : List Char) : Text.byteSize cs.reverse = Text.byteSize cs := by
  induction cs with
  | nil => rfl
  | cons c cs ih =>
    rw [List.reverse_cons, Text.byteSize_append, ih, Text.byteSize_cons, Text.byteSize_cons,
      Text.byteSize_nil, Nat.add_zero, Nat.add_comm]

/-- **Cutting an extension off the end of a path.** All that stands in front of the extension is
kept, and nothing of it and of what follows is left just when nothing follows it. -/
theorem exists_cut (front extension idle : List Char) :
    ∃ kept, (dropWithin (Text.byteSize extension)
        (front ++ (extension ++ idle)).reverse).reverse = front ++ kept ∧
      kept <+: extension ++ idle ∧ (kept = [] ↔ idle = []) := by
  obtain ⟨dropped, hdropped, hsize⟩ :=
    exists_dropped (Text.byteSize extension) (front ++ (extension ++ idle)).reverse
  have hnone : idle = [] → dropWithin (Text.byteSize extension)
      (front ++ (extension ++ idle)).reverse = front.reverse := by
    rintro rfl
    rw [List.append_nil, List.reverse_append, ← byteSize_reverse extension, dropWithin_append]
  generalize dropWithin (Text.byteSize extension) (front ++ (extension ++ idle)).reverse = rest at *
  rw [List.reverse_eq_iff, List.reverse_append] at hdropped
  rw [← byteSize_reverse dropped] at hsize
  rcases List.append_eq_append_iff.mp hdropped with ⟨kept, hrest, hkept⟩ | ⟨more, hfront, hmore⟩
  · refine ⟨kept, hrest, ⟨_, hkept.symm⟩, fun hnil => ?_, fun hnil => ?_⟩
    · rw [hnil, List.nil_append] at hkept
      rw [← hkept, Text.byteSize_append] at hsize
      exact Text.byteSize_eq_zero (by omega)
    · rw [hnone hnil, List.reverse_reverse] at hrest
      simpa using hrest
  · -- Not even a byte in front of the extension is dropped.
    rw [hmore, Text.byteSize_append, Text.byteSize_append] at hsize
    have hnil : more = [] := Text.byteSize_eq_zero (by omega)
    have hidle : idle = [] := Text.byteSize_eq_zero (by omega)
    rw [hnil, List.append_nil] at hfront
    exact ⟨[], by rw [List.append_nil, hfront], List.nil_prefix, iff_of_true rfl hidle⟩

/-- A new extension goes behind the stem of the name, and the end that names nothing is lost. -/
theorem setExtension_of_parts (h : Parts path parent name idle) (extension : List Char) :
    setExtension path extension = parent ++ ((splitExtension name).1 ++ suffix extension) := by
  rw [setExtension, splitName?_of_parts h, ← List.append_assoc]
  rfl

/-- What is left of a path behind a stem has the stem in its name, unless this is two points. The
cut may fall into the old extension or behind it. In the first case a part of the extension stays in
the name. -/
theorem exists_parts_of_cut {stem old kept : List Char} (h : Parts path parent name idle)
    (hname : name = stem ++ '.' :: old) (hstem : stem ≠ []) (hkept : kept <+: old ++ idle)
    (hpoints : ¬ (stem = ['.'] ∧ kept = [])) :
    ∃ part rest, Parts (parent ++ stem ++ ['.'] ++ kept) parent (stem ++ '.' :: part) rest ∧
      part <+: old := by
  -- What is kept ends inside of the old extension, or behind it in what names nothing.
  have hold : ∃ part rest, kept = part ++ rest ∧ part <+: old ∧ Idle rest ∧
      (rest = [] ∨ part = old) := by
    obtain ⟨more, hmore⟩ := hkept
    rcases List.append_eq_append_iff.mp hmore with ⟨a, hkept, -⟩ | ⟨a, hkept, hidle⟩
    · exact ⟨kept, [], (List.append_nil _).symm, ⟨a, hkept.symm⟩, .nil, .inl rfl⟩
    · exact ⟨old, a, hkept, List.prefix_rfl, .of_append (hidle ▸ h.idle), .inr rfl⟩
  obtain ⟨part, rest, rfl, hpart, hrest, hwhere⟩ := hold
  have hlength : 0 < stem.length := List.length_pos_of_ne_nil hstem
  refine ⟨part, rest, ⟨by simp, h.parent, ?_, by simp, fun heq => ?_, fun heq => ?_, hrest⟩, hpart⟩
  · intro hmem
    have hslash := h.slash
    rw [hname, List.mem_append, List.mem_cons] at hslash
    rw [List.mem_append, List.mem_cons] at hmem
    exact hslash (hmem.imp_right fun hmem => hmem.imp_right fun hmem => hpart.subset hmem)
  · have hone := congrArg List.length heq
    simp only [List.length_append, List.length_cons, List.length_nil] at hone
    omega
  · -- The name is two points only if all but the stem is cut off.
    cases stem with
    | nil => exact hstem rfl
    | cons c cs =>
      obtain ⟨rfl, htail⟩ := List.cons.inj heq
      cases cs with
      | nil =>
        obtain rfl : part = [] := (List.cons.inj htail).2
        rcases hwhere with rfl | rfl
        · exact hpoints ⟨rfl, rfl⟩
        · exact h.points hname
      | cons d cs => simp at htail

/-- **A path with another extension.** A name that starts with a point and has its extension behind
the second one is cut down to two points, unless something follows it. -/
theorem withExtension_of_parts (h : Parts path parent name idle) (extension : List Char) :
    withExtension path extension =
      if (splitExtension name).1 = ['.'] ∧ idle = [] then parent ++ ['.', '.']
      else parent ++ ((splitExtension name).1 ++ suffix extension) := by
  have hold : extension? path = (splitExtension name).2 := by
    rw [extension?, name?, splitName?_of_parts h]
    rfl
  -- Without an old extension nothing is cut off first.
  rcases splitExtension_cases name with hsplit | ⟨stem, old, hstem, hpoint, hname⟩
  · have hne : ¬ ((splitExtension name).1 = ['.'] ∧ idle = []) := by
      rw [hsplit]
      exact fun h' => h.point h'.1
    rw [withExtension, hold, if_neg hne, ← setExtension_of_parts h, hsplit]
  · have hsplit : splitExtension name = (stem, some old) := by
      rw [hname, splitExtension_of_point hstem hpoint]
    have hwhole : path = (parent ++ stem ++ ['.']) ++ (old ++ idle) := by
      rw [h.whole, hname]
      simp
    obtain ⟨kept, hcut, hkept, hnone⟩ := exists_cut (parent ++ stem ++ ['.']) old idle
    rw [← hwhole] at hcut
    rw [withExtension, hold, hsplit]
    dsimp only
    rw [hcut]
    by_cases hspecial : stem = ['.'] ∧ kept = []
    · rw [if_pos ⟨hspecial.1, hnone.mp hspecial.2⟩]
      obtain ⟨rfl, rfl⟩ := hspecial
      have hpoints : parent ++ ['.'] ++ ['.'] ++ [] = parent ++ ['.', '.'] := by simp
      rw [hpoints, setExtension, splitName?_points h.parent]
    · rw [if_neg fun hcase => hspecial ⟨hcase.1, hnone.mpr hcase.2⟩]
      obtain ⟨part, rest, hparts, hpart⟩ := exists_parts_of_cut h hname hstem hkept hspecial
      have hsplitPart := splitExtension_of_point hstem fun hmem => hpoint (hpart.subset hmem)
      rw [setExtension_of_parts hparts, hsplitPart]

/-! ## The same path with another extension -/

/-- Paths that differ in their names only are the same if the names are. The parent gives the same
components in both. -/
theorem components_append_iff {other : List Char}
    (hparent : parent = [] ∨ ∃ front, parent = front ++ ['/']) (hslash : '/' ∉ other)
    (hfilled : other ≠ []) (hname : '/' ∉ name) (hidle : isIdle name = false) :
    components (parent ++ other) = components (parent ++ name) ↔ other = name := by
  refine ⟨fun h => ?_, fun h => by rw [h]⟩
  have hnamed : named (pieces (parent ++ other)) = named (pieces (parent ++ name)) :=
    (Prod.mk.inj h).2
  rcases hparent with rfl | ⟨front, rfl⟩
  · have hne : name ≠ [] := by
      rintro rfl
      cases hidle
    rw [List.nil_append, List.nil_append, pieces_of_notMem hslash, pieces_of_notMem hname] at hnamed
    simpa [named, hfilled, hne] using hnamed
  · rw [List.append_assoc, List.append_assoc, List.singleton_append, List.singleton_append,
      pieces_append, pieces_append, pieces_of_notMem hslash, pieces_of_notMem hname,
      named_append (pieces_ne_nil front), named_append (pieces_ne_nil front),
      List.append_cancel_left_eq] at hnamed
    cases hother : isIdle other with
    | true => simp [hother, hidle] at hnamed
    | false => simpa [hother, hidle] using hnamed

/-- The last piece of a path is its name, unless something that names nothing follows it. Behind a
slash there is another piece, be it empty. -/
theorem getLast?_pieces_iff (h : Parts path parent name idle) {piece : List Char}
    (hpiece : isIdle piece = false) :
    (pieces path).getLast? = some piece ↔ idle = [] ∧ piece = name := by
  cases idle with
  | nil =>
    have hlast : (pieces path).getLast? = some name := by
      rw [h.whole, List.append_nil]
      rcases h.parent with rfl | ⟨front, rfl⟩
      · rw [List.nil_append, pieces_of_notMem h.slash]
        rfl
      · rw [List.append_assoc, List.singleton_append, pieces_append, pieces_of_notMem h.slash,
          List.getLast?_concat]
    rw [hlast, Option.some.injEq, eq_comm]
    exact ⟨fun h => ⟨rfl, h⟩, fun h => h.2⟩
  | cons c cs =>
    refine iff_of_false (fun hlast => ?_) (fun h => List.cons_ne_nil _ _ h.1)
    obtain rfl : c = '/' := by
      cases h.idle <;> rfl
    obtain ⟨ps, hps, hidle⟩ := h.idle.exists_pieces
    rw [pieces, if_pos rfl] at hps
    obtain rfl : pieces cs = ps := (List.cons.inj hps).2
    rw [h.whole, pieces_append, List.getLast?_append_of_ne_nil _ (pieces_ne_nil cs)] at hlast
    have hall := List.filter_eq_nil_iff.mp hidle piece (List.mem_of_getLast? hlast)
    simp [hpiece] at hall

/-- **A path keeps its name under an extension**: there is no name, or the name has this extension
already, where the empty extension is none at all. A path that ends with two points and the
extension is an exception. -/
def Carries (path extension : List Char) : Prop :=
  name? path = none ∨
    extension? path = (if extension = [] then none else some extension) ∧
      (pieces path).getLast? ≠ some ('.' :: '.' :: extension)

instance (path extension : List Char) : Decidable (Carries path extension) :=
  inferInstanceAs (Decidable (_ ∨ _))

/-- The stem of a name is not empty. -/
theorem stem_ne_nil (h : name ≠ []) : (splitExtension name).1 ≠ [] := by
  rcases splitExtension_cases name with hsplit | ⟨stem, old, hstem, hpoint, rfl⟩
  · rwa [hsplit]
  · rwa [splitExtension_of_point hstem hpoint]

/-- An extension brings no new character but the point. -/
theorem notMem_suffix {c : Char} {extension : List Char} (h : c ∉ extension) (hc : c ≠ '.') :
    c ∉ suffix extension := by
  rw [suffix]
  split
  · exact List.not_mem_nil
  · rw [List.mem_cons, not_or]
    exact ⟨hc, h⟩

/-- The stem of a name is part of it. -/
theorem mem_of_mem_stem {c : Char} (h : c ∈ (splitExtension name).1) : c ∈ name := by
  rcases splitExtension_cases name with hsplit | ⟨stem, old, hstem, hpoint, rfl⟩
  · rwa [hsplit] at h
  · rw [splitExtension_of_point hstem hpoint] at h
    exact List.mem_append_left _ h

/-- A name stays the same under the extension that it has. -/
theorem stem_append_suffix_iff (name extension : List Char) :
    (splitExtension name).1 ++ suffix extension = name ↔
      (splitExtension name).2 = if extension = [] then none else some extension := by
  rcases splitExtension_cases name with hsplit | ⟨stem, old, hstem, hpoint, rfl⟩
  · rw [hsplit]
    by_cases hextension : extension = [] <;> simp [suffix, hextension]
  · rw [splitExtension_of_point hstem hpoint]
    by_cases hextension : extension = []
    · simp [suffix, hextension]
    · simp [suffix, hextension, eq_comm]

/-- **Another extension gives the same path just when the path carries it.** This is asked of paths
and not of texts: components that name nothing do not count (`Options::output_path`). -/
theorem same_withExtension_iff {extension : List Char} (hpoint : '.' ∉ extension)
    (hslash : '/' ∉ extension) (path : List Char) :
    Same (withExtension path extension) path ↔ Carries path extension := by
  cases hsplit : splitName? path with
  | none =>
    have hname : name? path = none := by rw [name?, hsplit]; rfl
    have hkept : withExtension path extension = path := by
      rw [withExtension, extension?, hname]
      dsimp only [Option.bind_none]
      rw [setExtension, hsplit]
    rw [hkept]
    exact iff_of_true rfl (.inl hname)
  | some found =>
    obtain ⟨parent, name⟩ := found
    obtain ⟨idle, h⟩ := exists_parts hsplit
    have hname : name? path = some name := by rw [name?, hsplit]; rfl
    have hold : extension? path = (splitExtension name).2 := by rw [extension?, hname]; rfl
    have hplain : isIdle name = false := by simp [isIdle, h.filled, h.point]
    have hlast : (pieces path).getLast? = some ('.' :: '.' :: extension) ↔
        idle = [] ∧ '.' :: '.' :: extension = name := getLast?_pieces_iff h rfl
    have hpath : components path = components (parent ++ name) := by
      rw [h.whole, h.idle.components_append (by simp [h.filled])]
    rw [Same, hpath, withExtension_of_parts h, Carries, hname, hold, ← stem_append_suffix_iff]
    by_cases hspecial : (splitExtension name).1 = ['.'] ∧ idle = []
    · rw [if_pos hspecial, components_append_iff h.parent (by decide) (by decide) h.slash hplain]
      refine iff_of_false (Ne.symm h.points) ?_
      rintro (⟨⟨⟩⟩ | ⟨hsame, hne⟩)
      -- The name is two points and the extension, with nothing behind it.
      refine hne (hlast.mpr ⟨hspecial.2, ?_⟩)
      rw [hspecial.1, suffix] at hsame
      split at hsame
      · exact absurd hsame.symm h.point
      · exact hsame
    · have hother : '/' ∉ (splitExtension name).1 ++ suffix extension := by
        rw [List.mem_append, not_or]
        exact ⟨fun hmem => h.slash (mem_of_mem_stem hmem), notMem_suffix hslash (by decide)⟩
      have hfilled : (splitExtension name).1 ++ suffix extension ≠ [] :=
        List.append_ne_nil_of_left_ne_nil (stem_ne_nil h.filled) _
      rw [if_neg hspecial, components_append_iff h.parent hother hfilled h.slash hplain]
      refine ⟨fun hsame => .inr ⟨hsame, fun hend => hspecial ?_⟩, ?_⟩
      · obtain ⟨hidle, rfl⟩ := hlast.mp hend
        exact ⟨congrArg Prod.fst (splitExtension_of_point (List.cons_ne_nil '.' []) hpoint), hidle⟩
      · rintro (⟨⟨⟩⟩ | ⟨hsame, -⟩)
        exact hsame

end Names

end Path

/-! ## Arguments -/

namespace Options

/-- The stage that an argument asks for. -/
def stageOf? (arg : String) : Option Stage :=
  if arg = "--ir" then some .listing
  else if arg = "--llvm" then some .assembly
  else if arg = "-c" then some .object
  else none

section Arguments

variable {tools : Tools} {input : Option String} {stage : Stage} {arg : String}
  {args : List String} {o : Options}

/-- An argument for a stage replaces the stages of earlier ones. So the last such argument decides
(`Options::parse_args`). -/
theorem parseFrom_of_stage {asked : Stage} (h : stageOf? arg = some asked) :
    parseFrom tools input none stage (arg :: args) = parseFrom tools input none asked args := by
  unfold stageOf? at h
  split at h
  · rename_i harg
    rw [harg, parseFrom, Option.some.inj h]
  · split at h
    · rename_i harg
      rw [harg, parseFrom, Option.some.inj h]
    · split at h
      · rename_i harg
        rw [harg, parseFrom, Option.some.inj h]
      · cases h

/-- Any other argument is the input, if there is none so far. A second one is an error, and so is
one that starts like a flag (`Options::parse_args`). -/
theorem parseFrom_of_input (h : stageOf? arg = none) (hout : arg ≠ "-o")
    (hok : parseFrom tools input none stage (arg :: args) = .ok o) :
    input = none ∧ parseFrom tools (some arg) none stage args = .ok o := by
  have hflags : arg ∉ flags := by
    intro hmem
    simp only [flags, List.mem_cons, List.not_mem_nil, or_false] at hmem
    rcases hmem with rfl | rfl | rfl | rfl
    · cases h
    · cases h
    · cases h
    · exact hout rfl
  rw [parseFrom_of_notMem_flags hflags] at hok
  split at hok
  · cases hok
  · cases input with
    | some input => cases hok
    | none => exact ⟨rfl, hok⟩

/-- **Arguments without an output.** The last stage counts, and there is one argument that is no
stage, which is the input. -/
theorem parseFrom_eq_ok (hout : "-o" ∉ args)
    (hok : parseFrom tools input none stage args = .ok o) :
    o.output = none ∧ o.stage = (args.filterMap stageOf?).getLastD stage ∧
      input.toList ++ args.filter (fun arg => (stageOf? arg).isNone) = [o.input] := by
  induction args generalizing input stage with
  | nil =>
    cases input with
    | none =>
      rw [parseFrom] at hok
      cases hok
    | some input =>
      rw [parseFrom] at hok
      cases hok
      exact ⟨rfl, rfl, rfl⟩
  | cons arg args ih =>
    rw [List.mem_cons, not_or] at hout
    cases hstage : stageOf? arg with
    | some asked =>
      rw [parseFrom_of_stage hstage] at hok
      rw [List.filterMap_cons_some hstage, List.getLastD_cons,
        List.filter_cons_of_neg (by simp [hstage])]
      exact ih hout.2 hok
    | none =>
      obtain ⟨rfl, hrest⟩ := parseFrom_of_input hstage (Ne.symm hout.1) hok
      rw [List.filterMap_cons_none hstage, List.filter_cons_of_pos (by simp [hstage])]
      exact ih hout.2 hrest

end Arguments

/-- Where no output is given, only a listing has no path: it is printed. -/
theorem outputPath_eq_none_iff {o : Options} (h : o.output = none) :
    o.outputPath = none ↔ o.stage = .listing := by
  rw [outputPath, h]
  cases o.stage <;> simp [extensionOf]

/-- **When the result would replace the input.** Of arguments without an output the last stage
counts, and the one argument that asks for no stage is the input. A listing goes to no file. What
another stage makes goes to a path that is the input itself if and only if the input carries the
extension of the stage. -/
theorem output_replaces_input_iff {tools : Tools} {args : List String} {o : Options}
    (hok : parse tools args = .ok o) (hout : "-o" ∉ args) :
    o.stage = (args.filterMap stageOf?).getLastD .executable ∧
      args.filter (fun arg => (stageOf? arg).isNone) = [o.input] ∧
      (o.outputPath = none ↔ o.stage = .listing) ∧
      ∀ extension, extensionOf o.stage = some extension →
        ∃ output, o.outputPath = some output ∧
          (Path.Same output.toList o.input.toList ↔
            Path.Carries o.input.toList extension.toList) := by
  obtain ⟨houtput, hstage, hinput⟩ := parseFrom_eq_ok hout hok
  refine ⟨hstage, hinput, outputPath_eq_none_iff houtput, fun extension hextension => ?_⟩
  refine ⟨String.ofList (Path.withExtension o.input.toList extension.toList), ?_, ?_⟩
  · rw [outputPath, houtput, hextension]
    rfl
  · rw [String.toList_ofList]
    have hplain : '.' ∉ extension.toList ∧ '/' ∉ extension.toList := by
      cases hs : o.stage <;> rw [hs] at hextension <;> cases hextension <;> decide
    exact Path.same_withExtension_iff hplain.1 hplain.2 _

/-- A path with points in its name and an end that names nothing. The last stage counts, and the
result goes elsewhere. -/
theorem nestedSource_kept :
    ∃ o, parse .standard ["-c", "dir/a.v2.pulse/.", "--llvm"] = .ok o ∧
      "-o" ∉ ["-c", "dir/a.v2.pulse/.", "--llvm"] ∧ o.stage = .assembly ∧
      o.input = "dir/a.v2.pulse/." ∧ ∃ output, o.outputPath = some output ∧
        ¬ Path.Same output.toList o.input.toList := by
  have hok : parse .standard ["-c", "dir/a.v2.pulse/.", "--llvm"] =
      .ok ⟨"dir/a.v2.pulse/.", none, .assembly, .standard⟩ := rfl
  have hout : "-o" ∉ ["-c", "dir/a.v2.pulse/.", "--llvm"] := by decide
  obtain ⟨hstage, -, -, hpaths⟩ := output_replaces_input_iff hok hout
  obtain ⟨output, houtput, hsame⟩ := hpaths "ll" rfl
  have hother : ¬ Path.Carries "dir/a.v2.pulse/.".toList "ll".toList := by decide +kernel
  exact ⟨_, hok, hout, hstage, rfl, output, houtput, fun h => hother (hsame.mp h)⟩

/-- The executable of a source without an extension goes where the source is. -/
theorem bareSource_replaced :
    ∃ o, parse .standard ["prog"] = .ok o ∧ "-o" ∉ ["prog"] ∧ o.outputPath = some o.input :=
  ⟨⟨"prog", none, .executable, .standard⟩, rfl, by decide, by decide +kernel⟩

end Options

end Pulse
