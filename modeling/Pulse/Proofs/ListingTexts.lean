/-
Listings read back.

A listing is lines, and the line of an instruction is words. No word has a blank in it and no line
is empty, so the listing tells its functions apart, a function its lines, and an instruction its
words. A name may look like a register, a label or an operation: which word is a name is told by
its place behind the first word, and this word is that of one operation only.

One thing is not written: whether the location of a load or a store is in the frame or belongs to
the program. Up to this, a listing has just one assembly.
-/
import Pulse.Code.Listing
import Pulse.Proofs.Cuts
import Pulse.Proofs.NumberTexts

set_option autoImplicit false

namespace Pulse

/-- All characters of a name may stand in words. -/
theorem WordText.all {cs : List Char} (h : WordText cs) : ∀ c ∈ cs, isWordPart c := by
  cases h with
  | @mk c cs hc hcs =>
    refine List.forall_mem_cons.mpr ⟨?_, hcs⟩
    simp only [isWordStart, isWordPart, Char.isAlphanum, Bool.or_eq_true] at hc ⊢
    tauto

/-- A name has none of the characters that stand around names. -/
theorem WordText.notMem {cs : List Char} (h : WordText cs) {c : Char} (hc : isWordPart c = false) :
    c ∉ cs := fun hmem => by simp [h.all c hmem] at hc

namespace Code

open Pulse.Number (Binary64)

/-! ## Pieces of a text -/

section Pieces

variable {α : Type} {t : α} {sep tail : List α}

/-- A text is cut at the first place of a character in one way only. This is what tells names from
the marks behind them. -/
theorem append_cons_inj_first {xs ys us vs : List α} (hxs : t ∉ xs) (hys : t ∉ ys)
    (h : xs ++ t :: us = ys ++ t :: vs) : xs = ys ∧ us = vs := by
  induction xs generalizing ys with
  | nil =>
    cases ys with
    | nil => exact ⟨rfl, (List.cons.inj h).2⟩
    | cons y ys => exact absurd (List.cons.inj h).1 fun hy => hys (hy ▸ List.mem_cons_self)
  | cons x xs ih =>
    cases ys with
    | nil => exact absurd (List.cons.inj h).1 fun hx => hxs (hx ▸ List.mem_cons_self)
    | cons y ys =>
      obtain ⟨rfl, hrest⟩ := List.cons.inj h
      obtain ⟨rfl, rfl⟩ := ih (fun hm => hxs (.tail _ hm)) (fun hm => hys (.tail _ hm)) hrest
      exact ⟨rfl, rfl⟩

/-- Pieces that all end with one mark are told by the text that they make, if the mark starts with
a character that no piece has. -/
theorem eq_of_flatten_marked {xs ys : List (List α)} (hxs : ∀ x ∈ xs, t ∉ x)
    (hys : ∀ y ∈ ys, t ∉ y)
    (h : (xs.map (· ++ t :: tail)).flatten = (ys.map (· ++ t :: tail)).flatten) : xs = ys := by
  -- The first place of the character ends the first piece on both sides.
  induction xs generalizing ys with
  | nil =>
    cases ys with
    | nil => rfl
    | cons y ys => simp at h
  | cons x xs ih =>
    cases ys with
    | nil => simp at h
    | cons y ys =>
      obtain ⟨hx, hxs'⟩ := List.forall_mem_cons.mp hxs
      obtain ⟨hy, hys'⟩ := List.forall_mem_cons.mp hys
      simp only [List.map_cons, List.flatten_cons, List.append_assoc, List.cons_append] at h
      obtain ⟨rfl, hrest⟩ := append_cons_inj_first hx hy h
      rw [ih hxs' hys' (List.append_cancel_left hrest)]

/-- Pieces with a mark between them, and the mark once more. -/
theorem intercalate_append_mark {xs : List (List α)} (h : xs ≠ []) :
    sep.intercalate xs ++ sep = (xs.map (· ++ sep)).flatten := by
  induction xs with
  | nil => exact absurd rfl h
  | cons x xs ih =>
    by_cases hxs : xs = []
    · simp [hxs]
    · rw [List.intercalate_cons_of_ne_nil hxs, List.append_assoc, ih hxs]
      simp

/-- A character that is in no piece and not in the mark is not in the text. -/
theorem notMem_intercalate {xs : List (List α)} (hsep : t ∉ sep) (h : ∀ x ∈ xs, t ∉ x) :
    t ∉ sep.intercalate xs := by
  intro ht
  by_cases hxs : xs = []
  · rw [hxs] at ht
    exact List.not_mem_nil ht
  · have hmem : t ∈ (xs.map (· ++ sep)).flatten := by
      rw [← intercalate_append_mark hxs]
      exact List.mem_append_left _ ht
    obtain ⟨x, hx, htx⟩ := List.mem_flatMap.mp hmem
    exact (List.mem_append.mp htx).elim (h x hx) hsep

/-- Pieces are told by the text that has a mark between them. -/
theorem eq_of_intercalate_eq {xs ys : List (List α)} (hne : xs ≠ []) (hne' : ys ≠ [])
    (hxs : ∀ x ∈ xs, t ∉ x) (hys : ∀ y ∈ ys, t ∉ y)
    (h : (t :: tail).intercalate xs = (t :: tail).intercalate ys) : xs = ys := by
  refine @eq_of_flatten_marked _ t tail _ _ hxs hys ?_
  rw [← intercalate_append_mark hne, ← intercalate_append_mark hne', h]

/-- The text of pieces is not empty if the first one is not. -/
theorem intercalate_ne_nil {x : List α} {xs : List (List α)} (h : x ≠ []) :
    sep.intercalate (x :: xs) ≠ [] := by
  by_cases hxs : xs = []
  · rw [hxs, List.intercalate_singleton]
    exact h
  · rw [List.intercalate_cons_of_ne_nil hxs]
    simp [h]

end Pieces

/-- If one image tells what the other is, then so do lists of images. -/
theorem map_eq_map_of_forall {α β γ : Type} {P : α → Prop} {f : α → β} {g : α → γ}
    {xs ys : List α} (hfg : ∀ x y, P x → P y → f x = f y → g x = g y) (hxs : ∀ x ∈ xs, P x)
    (hys : ∀ y ∈ ys, P y) (h : xs.map f = ys.map f) : xs.map g = ys.map g := by
  induction xs generalizing ys with
  | nil => rw [List.map_eq_nil_iff.mp h.symm]
  | cons x xs ih =>
    obtain ⟨y, ys, rfl, hy, hrest⟩ := List.map_eq_cons_iff.mp h.symm
    obtain ⟨hx, hxs'⟩ := List.forall_mem_cons.mp hxs
    obtain ⟨hy', hys'⟩ := List.forall_mem_cons.mp hys
    rw [List.map_cons, List.map_cons, hfg x y hx hy' hy.symm, ih hxs' hys' hrest.symm]

/-- A list is told by its images if its members are. -/
theorem eq_of_map_eq_map {α β : Type} {P : α → Prop} {f : α → β} {xs ys : List α}
    (hf : ∀ x y, P x → P y → f x = f y → x = y) (hxs : ∀ x ∈ xs, P x) (hys : ∀ y ∈ ys, P y)
    (h : xs.map f = ys.map f) : xs = ys := by
  simpa using map_eq_map_of_forall (g := id) hf hxs hys h

/-! ## Texts of operands -/

/-- The digits of a number are digits only. -/
theorem notMem_digits {n : Nat} {c : Char} (h : c.isDigit = false) : c ∉ (toString n).toList := by
  rw [Nat.toString_eq_repr, Nat.toList_repr]
  exact fun hc => by simp [Nat.isDigit_of_mem_toDigits (by decide) (by decide) hc] at h

/-- A number is told by its digits. -/
theorem toString_nat_inj {m n : Nat} (h : toString m = toString n) : m = n := by
  have hdigits := congrArg (fun s : String => Nat.ofDigitChars 10 s.toList 0) h
  simpa only [Nat.toString_eq_repr, Nat.toList_repr, Nat.ofDigitChars_ten_toDigits] using hdigits

/-- A number with a sign is told by its text. -/
theorem toString_int_inj {m n : Int} (h : toString m = toString n) : m = n := by
  have hparts := congrArg (fun s : String => Number.exponentPart? ('e' :: s.toList)) h
  simpa only [Number.exponentPart?_toString, Option.some.injEq] using hparts

/-- A register is told by its text. -/
theorem Register.text_inj {r r' : Register} : r.text = r'.text ↔ r = r' := by
  refine ⟨fun h => ?_, congrArg text⟩
  have hindex := toString_nat_inj ((String.append_right_inj "R").mp h)
  cases r
  cases r'
  exact congrArg mk hindex

/-- A label is told by its text. -/
theorem Label.text_inj {l l' : Label} : l.text = l'.text ↔ l = l' := by
  refine ⟨fun h => ?_, congrArg text⟩
  have hindex := toString_nat_inj ((String.append_right_inj "L").mp h)
  cases l
  cases l'
  exact congrArg mk hindex

/-- A machine type is told by its letter. -/
theorem MachineTy.letter_inj {ty ty' : MachineTy} : ty.letter = ty'.letter ↔ ty = ty' := by
  cases ty <;> cases ty' <;> decide

/-- A comparison is told by its symbol. -/
theorem symbol_inj {op op' : CompareOp} : op.symbol = op'.symbol ↔ op = op' := by
  cases op <;> cases op' <;> decide

/-- A value that is a number. -/
def Immediate.IsNumber : Immediate → Prop
  | float x => x.isNaN = false
  | _ => True

/-- Values of one machine type are told by their texts. -/
theorem Immediate.eq_of_text_eq {v w : Immediate} (hv : v.IsNumber) (hw : w.IsNumber)
    (hty : v.ty = w.ty) (h : v.text = w.text) : v = w := by
  cases v <;> cases w <;> simp only [Immediate.ty, reduceCtorEq] at hty
  case int.int => exact congrArg int (Int32.toInt_inj.mp (toString_int_inj h))
  case float.float => exact congrArg float (Binary64.eq_of_text_eq hv hw h)
  case byte.byte => exact congrArg byte (UInt8.toNat_inj.mp (toString_nat_inj h))

/-! ## Words of instructions -/

/-- What the first word of an instruction says: the operation, and the machine type if there is
one. -/
inductive Opcode where
  | move (ty : MachineTy)
  | arith (op : ArithOp) (ty : MachineTy)
  | bitwise (op : BitOp)
  | compare (ty : MachineTy)
  | global (ty : MachineTy)
  | alloc (ty : MachineTy)
  | load (ty : MachineTy)
  | store (ty : MachineTy)
  | print (ty : MachineTy)
  | label
  | jump
  | branch
  | call
  | ret (ty : MachineTy)
deriving DecidableEq

namespace Opcode

/-- The word of an operation. -/
def word : Opcode → String
  | move ty => "MOV" ++ ty.letter
  | arith op ty => arithWord op ++ ty.letter
  | bitwise op => op.word
  | compare ty => "CMP" ++ ty.letter
  | global ty => "VAR" ++ ty.letter
  | alloc ty => "ALLOC" ++ ty.letter
  | load ty => "LOAD" ++ ty.letter
  | store ty => "STORE" ++ ty.letter
  | print ty => "PRINT" ++ ty.letter
  | label => "LABEL"
  | jump => "BRANCH"
  | branch => "CBRANCH"
  | call => "CALL"
  | ret ty => "RET" ++ ty.letter

/-- The operations on a machine type. -/
def typed (ty : MachineTy) : List Opcode :=
  [move ty, arith .add ty, arith .sub ty, arith .mul ty, arith .div ty, compare ty, global ty,
    alloc ty, load ty, store ty, print ty, ret ty]

/-- All operations. -/
def all : List Opcode :=
  typed .int ++ typed .float ++ typed .byte ++
    [bitwise .and, bitwise .or, bitwise .xor, label, jump, branch, call]

/-- The list of all operations is complete. -/
theorem mem_all (o : Opcode) : o ∈ all := by
  cases o with
  | arith op ty => cases op <;> cases ty <;> decide
  | bitwise op => cases op <;> decide
  | label | jump | branch | call => decide
  | move ty | compare ty | global ty | alloc ty | load ty | store ty | print ty | ret ty =>
    cases ty <;> decide

/-- No two operations have one word. So the first word of a line tells what the other words are. -/
theorem word_inj {o o' : Opcode} (h : o.word = o'.word) : o = o' := by
  have hnodup : (all.map word).Nodup := by decide +kernel
  exact List.inj_on_of_nodup_map hnodup (mem_all o) (mem_all o') h

end Opcode

namespace Instr

/-- What the first word of an instruction says. -/
def opcode : Instr → Opcode
  | move v _ => .move v.ty
  | arith op ty _ _ _ => .arith op ty
  | bitwise op _ _ _ => .bitwise op
  | compare _ ty _ _ _ => .compare ty
  | global ty _ => .global ty
  | alloc ty _ => .alloc ty
  | load ty _ _ => .load ty
  | store ty _ _ => .store ty
  | print ty _ => .print ty
  | label _ => .label
  | jump _ => .jump
  | branch _ _ _ => .branch
  | call _ _ _ => .call
  | ret ty _ => .ret ty

/-- The other words of an instruction. -/
def operands : Instr → List String
  | move v t => [v.text, t.text]
  | arith _ _ l r t => [l.text, r.text, t.text]
  | bitwise _ l r t => [l.text, r.text, t.text]
  | compare op _ l r t => [op.symbol, l.text, r.text, t.text]
  | global _ name => [name]
  | alloc _ name => [name]
  | load _ source t => [source.name, t.text]
  | store _ v target => [v.text, target.name]
  | print _ v => [v.text]
  | label l => [l.text]
  | jump l => [l.text]
  | branch c t f => [c.text, t.text, f.text]
  | call name as t => name :: (as.map Register.text ++ [t.text])
  | ret _ v => [v.text]

/-- The words of an instruction are that of its operation and those of its operands. -/
theorem words_eq (i : Instr) : i.words = i.opcode.word :: i.operands := by
  cases i <;> rfl

/-- An instruction as far as its text tells: without the kind of its location. -/
def unplaced : Instr → Instr
  | load ty source t => load ty (.global source.name) t
  | store ty v target => store ty v (.global target.name)
  | i => i

/-- The names of an instruction are words of the source language, and its values are numbers. -/
def Plain : Instr → Prop
  | move v _ => v.IsNumber
  | global _ name => WordText name.toList
  | alloc _ name => WordText name.toList
  | load _ source _ => WordText source.name.toList
  | store _ _ target => WordText target.name.toList
  | call name _ _ => WordText name.toList
  | _ => True

/-- **An instruction is told by its words**, up to the kind of its location. The first word tells
the operation and the types; the others are the operands, each of which is told by its text. A name
does not say whether it is a variable of the function or of the program. -/
theorem unplaced_eq_of_words {i j : Instr} (hi : i.Plain) (hj : j.Plain)
    (h : i.words = j.words) : i.unplaced = j.unplaced := by
  rw [words_eq, words_eq, List.cons.injEq] at h
  obtain ⟨hword, hoperands⟩ := h
  have hopcode := Opcode.word_inj hword
  -- Instructions of two kinds have two operations.
  cases i <;> cases j <;> simp only [opcode, reduceCtorEq] at hopcode
  case move =>
    simp only [Opcode.move.injEq] at hopcode
    simp only [operands, List.cons.injEq, Register.text_inj] at hoperands
    rw [Immediate.eq_of_text_eq hi hj hopcode hoperands.1, hoperands.2.1]
  case call =>
    obtain ⟨rfl, hregisters⟩ := List.cons.inj hoperands
    obtain ⟨harguments, htarget⟩ := List.append_inj' hregisters rfl
    rw [(List.map_inj_right fun _ _ => Register.text_inj.mp).mp harguments,
      Register.text_inj.mp (List.cons.inj htarget).1]
  all_goals
    simp_all only [operands, unplaced, List.cons.injEq, Register.text_inj, Label.text_inj,
      symbol_inj, Opcode.arith.injEq, Opcode.bitwise.injEq, Opcode.compare.injEq,
      Opcode.global.injEq, Opcode.alloc.injEq, Opcode.load.injEq, Opcode.store.injEq,
      Opcode.print.injEq, Opcode.ret.injEq]

end Instr

/-! ## Words without blanks -/

/-- A text without blanks: one word of a line. -/
def Solid (s : String) : Prop := ∀ c ∈ s.toList, isBlank c = false

/-- No blank is in a word of a line. -/
theorem Solid.notMem {s : String} (h : Solid s) {c : Char} (hc : isBlank c) : c ∉ s.toList :=
  fun hmem => by simp [h c hmem] at hc

/-- Words put together without a blank are one word. -/
theorem Solid.append {s s' : String} (h : Solid s) (h' : Solid s') : Solid (s ++ s') := by
  intro c hc
  rw [String.toList_append, List.mem_append] at hc
  exact hc.elim (h c) (h' c)

/-- Whether a given text has blanks can be computed. -/
theorem solid_of_all {s : String} (h : s.toList.all (!isBlank ·) = true) : Solid s := by
  intro c hc
  simpa using List.all_eq_true.mp h c hc

/-- Names have no blanks. -/
theorem solid_name {x : String} (h : WordText x.toList) : Solid x :=
  fun c hc => isBlank_eq_false (h.all c hc) (by decide)

/-- Numbers have no blanks. -/
theorem solid_digits (n : Nat) : Solid (toString n) := by
  intro c hc
  cases hblank : isBlank c with
  | false => rfl
  | true => exact absurd hc (notMem_digits (isDigit_of_isBlank hblank))

/-- Registers have no blanks. -/
theorem Register.solid_text (r : Register) : Solid r.text :=
  Solid.append (solid_of_all rfl) (solid_digits r.index)

/-- Labels have no blanks. -/
theorem Label.solid_text (l : Label) : Solid l.text :=
  Solid.append (solid_of_all rfl) (solid_digits l.index)

/-- Comparisons have no blanks. -/
theorem solid_symbol (op : CompareOp) : Solid op.symbol :=
  solid_of_all (by cases op <;> decide)

/-- Operations have no blanks. -/
theorem Opcode.solid_word (o : Opcode) : Solid o.word := by
  -- All operations are few enough to look at each of them.
  have hall : all.all (fun o => o.word.toList.all (!isBlank ·)) = true := by decide +kernel
  exact solid_of_all (List.all_eq_true.mp hall o (mem_all o))

/-- Values have no blanks, whether they are integers or floats. So the words of a line can be told
apart by the blanks between them. -/
theorem Immediate.solid_text (v : Immediate) : Solid v.text := by
  intro c hc
  cases hblank : isBlank c with
  | false => rfl
  | true =>
    -- The characters of both kinds of numbers are digits, a sign, a point or letters, and no blank
    -- is one of them.
    have hdigit := isDigit_of_isBlank hblank
    cases v with
    | int v =>
      rcases Number.mem_toString hc with h | rfl
      · rw [hdigit] at h
        cases h
      · exact absurd hblank (by decide)
    | float v =>
      refine absurd hc (Binary64.notMem_text hdigit fun hmem => ?_)
      have hmarks : ['.', 'e', '-', 'i', 'n', 'f', 'N', 'a', '0'].all (!isBlank ·) = true := rfl
      simpa [hblank] using List.all_eq_true.mp hmarks c hmem
    | byte v => exact absurd hc (notMem_digits hdigit)

namespace Instr

variable {i j : Instr}

/-- Every word of an instruction is one word of its line. Registers, labels and types are texts
without blanks, and names are plain by hypothesis. -/
theorem solid_of_mem_words (hi : i.Plain) : ∀ w ∈ i.words, Solid w := by
  rw [words_eq]
  refine List.forall_mem_cons.mpr ⟨i.opcode.solid_word, ?_⟩
  cases i with
  | move v t => simp [operands, v.solid_text, t.solid_text]
  | arith op ty l r t => simp [operands, Register.solid_text]
  | bitwise op l r t => simp [operands, Register.solid_text]
  | compare op ty l r t => simp [operands, Register.solid_text, solid_symbol]
  | global ty name | alloc ty name => simpa [operands] using solid_name hi
  | load ty source t => simpa [operands, Register.solid_text] using solid_name hi
  | store ty v target => simpa [operands, Register.solid_text] using solid_name hi
  | print ty v | ret ty v => simp [operands, Register.solid_text]
  | label l | jump l => simp [operands, Label.solid_text]
  | branch c t f => simp [operands, Register.solid_text, Label.solid_text]
  | call name as t =>
    intro w hw
    simp only [operands, List.mem_cons, List.mem_append, List.mem_map, List.not_mem_nil,
      or_false] at hw
    rcases hw with rfl | ⟨r, -, rfl⟩ | rfl
    exacts [solid_name hi, r.solid_text, t.solid_text]

/-- The text of an instruction is its words with a blank between them. -/
theorem toList_text (i : Instr) : i.text.toList = [' '].intercalate (i.words.map String.toList) :=
  String.toList_intercalate

/-- An instruction has a first word. -/
theorem words_ne_nil (i : Instr) : i.words ≠ [] := by
  rw [words_eq]
  exact List.cons_ne_nil _ _

/-- The words of an instruction are told by its text. The line is cut at its blanks, and no word has
one in it. -/
theorem words_eq_of_text (hi : i.Plain) (hj : j.Plain) (h : i.text = j.text) :
    i.words = j.words := by
  have hwords : ∀ {k : Instr}, k.Plain → ∀ cs ∈ k.words.map String.toList, ' ' ∉ cs := by
    intro k hk cs hcs
    obtain ⟨w, hw, rfl⟩ := List.mem_map.mp hcs
    exact (solid_of_mem_words hk w hw).notMem rfl
  have hchars : [' '].intercalate (i.words.map String.toList) =
      [' '].intercalate (j.words.map String.toList) := by
    rw [← toList_text, ← toList_text, h]
  have hpieces := eq_of_intercalate_eq (List.map_eq_nil_iff.not.mpr i.words_ne_nil)
    (List.map_eq_nil_iff.not.mpr j.words_ne_nil) (hwords hi) (hwords hj) hchars
  exact (List.map_inj_right fun _ _ => String.toList_inj.mp).mp hpieces

/-- An instruction is on one line. -/
theorem newline_notMem_text (hi : i.Plain) : '\n' ∉ i.text.toList := by
  rw [toList_text]
  refine notMem_intercalate (by decide) fun cs hcs => ?_
  obtain ⟨w, hw, rfl⟩ := List.mem_map.mp hcs
  exact (solid_of_mem_words hi w hw).notMem rfl

end Instr

/-! ## Headers -/

/-- A parameter in a header. -/
def paramChars (p : String × MachineTy) : List Char := p.1.toList ++ ':' :: p.2.letter.toList

/-- A parameter is told by its text. The name ends at the first colon, since there is none in a
name. -/
theorem paramChars_inj {p q : String × MachineTy} (hp : WordText p.1.toList)
    (hq : WordText q.1.toList) (h : paramChars p = paramChars q) : p = q := by
  obtain ⟨hname, hletter⟩ := append_cons_inj_first (hp.notMem rfl) (hq.notMem rfl) h
  exact Prod.ext (String.toList_inj.mp hname)
    (MachineTy.letter_inj.mp (String.toList_inj.mp hletter))

/-- Parameters have no commas. -/
theorem comma_notMem_paramChars {p : String × MachineTy} (hp : WordText p.1.toList) :
    ',' ∉ paramChars p := by
  have hletter : ',' ∉ p.2.letter.toList := by cases p.2 <;> decide
  simp [paramChars, hp.notMem (c := ',') rfl, hletter]

namespace Function

/-- The names of a function are words of the source language, as are those of its instructions. -/
structure Plain (f : Function) : Prop where
  name : WordText f.name.toList
  params : ∀ p ∈ f.params, WordText p.1.toList
  code : ∀ i ∈ f.code, i.Plain

variable {f g : Function}

/-- The text of a header: a name, parameters in parentheses, and a result behind an arrow. -/
theorem toList_header (f : Function) : f.header.toList = f.name.toList ++
    '(' :: ([',', ' '].intercalate (f.params.map paramChars) ++
      (") -> ".toList ++ f.returns.letter.toList)) := by
  have hparams : (f.params.map fun p => p.1 ++ ":" ++ p.2.letter).map String.toList =
      f.params.map paramChars := by
    rw [List.map_map]
    exact List.map_congr_left fun p _ => by simp [paramChars]
  simp [header, String.toList_intercalate, -List.map_map, hparams]

/-- Parameters are told by their text. The text is cut at the commas, which no parameter has in
it. -/
theorem params_inj (hf : f.Plain) (hg : g.Plain)
    (h : [',', ' '].intercalate (f.params.map paramChars) =
      [',', ' '].intercalate (g.params.map paramChars)) : f.params = g.params := by
  have hcomma : ∀ {k : Function}, k.Plain → ∀ cs ∈ k.params.map paramChars, ',' ∉ cs := by
    intro k hk cs hcs
    obtain ⟨p, hp, rfl⟩ := List.mem_map.mp hcs
    exact comma_notMem_paramChars (hk.params p hp)
  -- Between two parameters there is a comma. That there are none is told by the empty text, which
  -- one parameter alone does not make.
  have hchars : f.params.map paramChars = g.params.map paramChars := by
    -- Both have none, or neither does.
    cases hps : f.params with
    | nil =>
      cases hqs : g.params with
      | nil => rfl
      | cons q qs =>
        rw [hps, hqs] at h
        exact absurd h.symm (intercalate_ne_nil (by simp [paramChars]))
    | cons p ps =>
      cases hqs : g.params with
      | nil =>
        rw [hps, hqs] at h
        exact absurd h (intercalate_ne_nil (by simp [paramChars]))
      | cons q qs =>
        rw [← hps, ← hqs]
        exact eq_of_intercalate_eq (by simp [hps]) (by simp [hqs]) (hcomma hf) (hcomma hg) h
  exact eq_of_map_eq_map (fun _ _ => paramChars_inj) hf.params hg.params hchars

/-- Name, parameters and result are told by the header. The name ends at the first parenthesis. -/
theorem header_inj (hf : f.Plain) (hg : g.Plain) (h : f.header = g.header) :
    f.name = g.name ∧ f.params = g.params ∧ f.returns = g.returns := by
  have hchars := String.toList_inj.mpr h
  rw [toList_header, toList_header] at hchars
  obtain ⟨hname, hrest⟩ := append_cons_inj_first (hf.name.notMem rfl) (hg.name.notMem rfl) hchars
  -- What is behind the parameters always has the same length, so it is cut off from the end.
  have hlength : ∀ ty : MachineTy, ty.letter.toList.length = 1 := by intro ty; cases ty <;> rfl
  obtain ⟨hparams, hend⟩ := List.append_inj' hrest (by simp only [List.length_append, hlength])
  have hreturns := List.append_cancel_left hend
  exact ⟨String.toList_inj.mp hname, params_inj hf hg hparams,
    MachineTy.letter_inj.mp (String.toList_inj.mp hreturns)⟩

/-! ## Functions and assemblies -/

/-- The lines of a function. -/
def lines (f : Function) : List (List Char) :=
  f.header.toList :: f.code.map fun i => "    ".toList ++ i.text.toList

/-- The text of a function is its lines, each of them closed. -/
theorem toList_listing (f : Function) : f.listing.toList = (f.lines.map (· ++ ['\n'])).flatten := by
  simp [listing, lines, String.toList_join, List.flatMap, Function.comp_def]

/-- A header is on one line. -/
theorem newline_notMem_header (hf : f.Plain) : '\n' ∉ f.header.toList := by
  have hletter : ∀ ty : MachineTy, '\n' ∉ ty.letter.toList := by intro ty; cases ty <;> decide
  have hparams : '\n' ∉ [',', ' '].intercalate (f.params.map paramChars) := by
    refine notMem_intercalate (by decide) fun cs hcs => ?_
    obtain ⟨p, hp, rfl⟩ := List.mem_map.mp hcs
    simp [paramChars, (hf.params p hp).notMem (c := '\n') rfl, hletter]
  rw [toList_header]
  simp [hf.name.notMem (c := '\n') rfl, hparams, hletter]

/-- No line of a function has a newline in it. -/
theorem newline_notMem_lines (hf : f.Plain) : ∀ line ∈ f.lines, '\n' ∉ line := by
  refine List.forall_mem_cons.mpr ⟨newline_notMem_header hf, fun line hline => ?_⟩
  obtain ⟨i, hi, rfl⟩ := List.mem_map.mp hline
  simp [Instr.newline_notMem_text (hf.code i hi)]

/-- No line of a function is empty. -/
theorem ne_nil_of_mem_lines : ∀ line ∈ f.lines, line ≠ [] := by
  refine List.forall_mem_cons.mpr ⟨?_, ?_⟩
  · rw [toList_header]
    simp
  · simp

/-- A function as far as its text tells. -/
def unplaced (f : Function) : Function := { f with code := f.code.map Instr.unplaced }

/-- A function is told by its lines, up to the kinds of its locations. -/
theorem unplaced_eq_of_lines (hf : f.Plain) (hg : g.Plain) (h : f.lines = g.lines) :
    f.unplaced = g.unplaced := by
  obtain ⟨hheader, hlines⟩ := List.cons.inj h
  obtain ⟨hname, hparams, hreturns⟩ := header_inj hf hg (String.toList_inj.mp hheader)
  have hcode : f.code.map Instr.unplaced = g.code.map Instr.unplaced := by
    refine map_eq_map_of_forall (fun i j hi hj hij => ?_) hf.code hg.code hlines
    have htext := String.toList_inj.mp (List.append_cancel_left hij)
    exact Instr.unplaced_eq_of_words hi hj (Instr.words_eq_of_text hi hj htext)
  rw [unplaced, unplaced, hname, hparams, hreturns, hcode]

end Function

namespace Assembly

variable {a b : Assembly}

/-- The lines of all functions, with an empty one behind each function. -/
def lines (a : Assembly) : List (List Char) :=
  ((a.functions.map Function.lines).map (· ++ [[]])).flatten

/-- With one more newline, the text of an assembly is its lines, each of them closed. An empty line
is behind each function, and the text lacks that of the last one. -/
theorem toList_listing_newline (h : a.functions ≠ []) :
    a.listing.toList ++ ['\n'] = (a.lines.map (· ++ ['\n'])).flatten := by
  have hpieces : a.listing.toList =
      ['\n'].intercalate (a.functions.map fun f => f.listing.toList) := by
    rw [listing, String.toList_intercalate, List.map_map]
    rfl
  rw [hpieces, intercalate_append_mark (List.map_eq_nil_iff.not.mpr h), lines]
  simp [Function.toList_listing, List.map_flatten, List.flatten_flatten, Function.comp_def]

/-- No line of an assembly has a newline in it. -/
theorem newline_notMem_lines (h : ∀ f ∈ a.functions, f.Plain) :
    ∀ line ∈ a.lines, '\n' ∉ line := by
  intro line hline
  simp only [lines, List.map_map, List.mem_flatten, List.mem_map] at hline
  obtain ⟨_, ⟨f, hf, rfl⟩, hmem⟩ := hline
  rcases List.mem_append.mp hmem with hmem | hmem
  · exact Function.newline_notMem_lines (h f hf) line hmem
  · rw [List.mem_singleton.mp hmem]
    exact List.not_mem_nil

/-- **A listing tells its functions**, up to the kinds of locations. A line has no newline in it and
no line of a function is empty, so the text is cut in one way only. -/
theorem unplaced_eq_of_listing (ha : ∀ f ∈ a.functions, f.Plain) (hb : ∀ f ∈ b.functions, f.Plain)
    (hne : a.functions ≠ []) (hne' : b.functions ≠ []) (h : a.listing = b.listing) :
    a.functions.map Function.unplaced = b.functions.map Function.unplaced := by
  have hempty : ∀ c : Assembly, ∀ lines ∈ c.functions.map Function.lines, [] ∉ lines := by
    intro c lines hlines hmem
    obtain ⟨f, -, rfl⟩ := List.mem_map.mp hlines
    exact Function.ne_nil_of_mem_lines [] hmem rfl
  have hchars : (a.lines.map (· ++ ['\n'])).flatten = (b.lines.map (· ++ ['\n'])).flatten := by
    rw [← toList_listing_newline hne, ← toList_listing_newline hne', h]
  -- The empty lines are lines as well: the text is cut into lines first, and then the lines into
  -- functions at the empty ones.
  have hlines : a.lines = b.lines :=
    eq_of_flatten_marked (newline_notMem_lines ha) (newline_notMem_lines hb) hchars
  have hfunctions := eq_of_flatten_marked (hempty a) (hempty b) hlines
  exact map_eq_map_of_forall (fun _ _ => Function.unplaced_eq_of_lines) ha hb hfunctions

end Assembly

end Code

end Pulse
