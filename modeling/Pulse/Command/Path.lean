/-
Paths as texts: the name at the end of a path, and paths with another extension.

Components are separated by slashes. Slashes at the end, and points that stand alone behind a
slash, name nothing; a path whose last component is one or two points has no name. The extension of
a name is what stands behind its last point, unless that point is the first character.
-/
import Pulse.Text.Bytes

set_option autoImplicit false

namespace Pulse.Path

/-! ## The name of a path -/

/-- Drops what names nothing from the end of a path. The path is given backwards. -/
def dropIdle : List Char → List Char
  | '/' :: cs => dropIdle cs
  | '.' :: '/' :: cs => dropIdle cs
  | cs => cs

/-- Splits a path into what stands before its name, and the name. -/
def splitName? (path : List Char) : Option (List Char × List Char) :=
  let backwards := dropIdle path.reverse
  let name := (backwards.takeWhile (· ≠ '/')).reverse
  if name = [] ∨ name = ['.'] ∨ name = ['.', '.'] then none
  else some ((backwards.dropWhile (· ≠ '/')).reverse, name)

/-- Splits a name into its stem and its extension, if it has one. -/
def splitExtension (name : List Char) : List Char × Option (List Char) :=
  let extension := (name.reverse.takeWhile (· ≠ '.')).reverse
  let stem := (name.reverse.dropWhile (· ≠ '.')).drop 1
  if stem = [] then (name, none) else (stem.reverse, some extension)

/-- The name at the end of a path. -/
def name? (path : List Char) : Option (List Char) := (splitName? path).map Prod.snd

/-- The name at the end of a path without its extension. -/
def stem? (path : List Char) : Option (List Char) :=
  (name? path).map fun name => (splitExtension name).1

/-- The extension of the name at the end of a path. -/
def extension? (path : List Char) : Option (List Char) :=
  (name? path).bind fun name => (splitExtension name).2

/-! ## Another extension -/

/-- Drops as many whole characters as fit into `n` bytes. -/
def dropWithin : Nat → List Char → List Char
  | _, [] => []
  | n, c :: cs => if c.utf8Size ≤ n then dropWithin (n - c.utf8Size) cs else c :: cs

/-- The path up to the stem of its name, with an extension behind it unless that is empty. A path
without a name stays as it is. -/
def setExtension (path extension : List Char) : List Char :=
  match splitName? path with
  | none => path
  | some (parent, name) =>
    parent ++ (splitExtension name).1 ++ (if extension = [] then [] else '.' :: extension)

/-- The path with another extension. As many bytes as the old extension has are cut from the end
of the path first. -/
def withExtension (path extension : List Char) : List Char :=
  match extension? path with
  | none => setExtension path extension
  | some old => setExtension (dropWithin (Text.byteSize old) path.reverse).reverse extension

end Pulse.Path
