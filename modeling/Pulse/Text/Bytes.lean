/-
Texts measured in UTF-8 bytes.

Every offset of the compiler counts bytes, while every rule on texts looks at characters. A text
is a list of characters here, so that the rules recurse on it, and this file is the bridge: how
many bytes a text takes, and what is left of it after so many bytes. A cut inside a character has
no answer, which is why `dropBytes?` is partial.
-/
set_option autoImplicit false

namespace Pulse.Text

/-- The length of a text in UTF-8 bytes. -/
def byteSize : List Char → Nat
  | [] => 0
  | c :: cs => c.utf8Size + byteSize cs

/-- What is left of a text after its first `n` bytes. There is no answer when the text is shorter,
nor when the cut falls inside a character. -/
def dropBytes? : Nat → List Char → Option (List Char)
  | 0, cs => some cs
  | _ + 1, [] => none
  | n + 1, c :: cs =>
    if c.utf8Size ≤ n + 1 then dropBytes? (n + 1 - c.utf8Size) cs else none

@[simp] theorem byteSize_nil : byteSize [] = 0 := rfl

@[simp] theorem byteSize_cons (c : Char) (cs : List Char) :
    byteSize (c :: cs) = c.utf8Size + byteSize cs := rfl

/-- Byte lengths add up over concatenation. -/
@[simp] theorem byteSize_append (cs ds : List Char) :
    byteSize (cs ++ ds) = byteSize cs + byteSize ds := by
  induction cs with
  | nil => simp
  | cons c cs ih => simp [ih, Nat.add_assoc]

/-- The bytes of a character that is repeated. -/
theorem byteSize_replicate (n : Nat) (c : Char) :
    byteSize (List.replicate n c) = n * c.utf8Size := by
  induction n with
  | zero => rw [List.replicate_zero, byteSize_nil, Nat.zero_mul]
  | succ n ih => rw [List.replicate_succ, byteSize_cons, ih, Nat.succ_mul, Nat.add_comm]

/-- Every character takes a byte or more. -/
theorem length_le_byteSize (cs : List Char) : cs.length ≤ byteSize cs := by
  induction cs with
  | nil => exact Nat.le_refl 0
  | cons c cs ih =>
    have hpos := c.utf8Size_pos
    rw [List.length_cons, byteSize_cons]
    omega

/-- A text without bytes has no characters. -/
theorem byteSize_eq_zero {cs : List Char} (h : byteSize cs = 0) : cs = [] := by
  have hle := length_le_byteSize cs
  exact List.length_eq_zero_iff.mp (by omega)

end Pulse.Text
