/-
The files below the directory a command runs in, as a value.

A path is walked component by component: an empty one and a single point stay, two points go up, any
other must be a directory, unless it is the last. The walk may leave the tree for the host around
it, which is a parameter. A file out there that is no device does not exist until it is written, and
is forgotten then. Reading and writing fail the way a file system does, and `FileError` says how.
-/
import Pulse.Command.Host

set_option autoImplicit false

namespace Pulse

/-! ## The tree -/

/-- Files and directories by their components below the working directory. The directories on the
way to an entry exist with it. -/
structure FileTree where
  files : List (List String × ByteArray)
  directories : List (List String)

namespace FileTree

/-- The longest name of a file, in bytes. -/
def maxName : Nat := 255

/-- Paths are shorter than this, in bytes. -/
def maxPath : Nat := 4096

/-- The content of a file. -/
def file? (t : FileTree) (place : List String) : Option ByteArray := t.files.lookup place

/-- Whether there is a directory, of its own or on the way to an entry. -/
def isDirectory (t : FileTree) (place : List String) : Bool :=
  place.isEmpty || t.directories.any (place.isPrefixOf ·)
    || t.files.any fun f => place.isPrefixOf f.1 && place ≠ f.1

/-- The tree with a file replaced or added. -/
def put (t : FileTree) (place : List String) (content : ByteArray) : FileTree :=
  { t with files := t.files.filter (·.1 ≠ place) ++ [(place, content)] }

/-! ## Walking a path -/

/-- Goes from a directory into the one that a component names. -/
def enter (host : Host) (t : FileTree) (place : Place) (component : String) :
    Except FileError Place :=
  if component = "." then .ok place
  else if component = ".." then .ok (host.up place)
  else if maxName < component.utf8ByteSize then .error .nameTooLong
  else
    match place with
    | .inside names =>
      let inside := names ++ [component]
      if (t.file? inside).isSome then .error .notDirectory
      else if t.isDirectory inside then .ok (.inside inside)
      else .error .notFound
    | .outside names => host.enter (names ++ [component])

/-- A path taken apart: the directory that holds its last component, that component, and whether
slashes follow it. A path without components is the root directory. -/
def locate (host : Host) (t : FileTree) (path : String) :
    Except FileError (Place × Option String × Bool) := do
  if path.utf8ByteSize = 0 then .error .notFound
  else if maxPath ≤ path.utf8ByteSize then .error .nameTooLong
  else
    let cs := path.toList
    let start : Place := if cs.head? = some '/' then .outside [] else .inside []
    let components := (path.splitOn "/").filter (· ≠ "")
    let parent ← components.dropLast.foldlM (t.enter host) start
    return (parent, components.getLast?, cs.getLast? = some '/')

/-! ## Reading and writing -/

/-- The content of the file at a path. -/
def read (host : Host) (t : FileTree) (path : String) : Except FileError ByteArray := do
  let (parent, last, slash) ← t.locate host path
  match last with
  | none => .error .isDirectory
  | some name =>
    if name = "." ∨ name = ".." then .error .isDirectory
    else if maxName < name.utf8ByteSize then .error .nameTooLong
    else
      match parent with
      | .inside names =>
        match t.file? (names ++ [name]) with
        | some content => if slash then .error .notDirectory else .ok content
        | none => if t.isDirectory (names ++ [name]) then .error .isDirectory else .error .notFound
      | .outside names =>
        match host.device? (names ++ [name]) with
        | some device => if slash then .error .notDirectory else device.read
        | none =>
          if host.directories.contains (names ++ [name]) then .error .isDirectory
          else .error .notFound

/-- Where a written text goes: to a file of the tree, to a device, or to a file outside of the
tree. -/
inductive Destination where
  | file (place : List String)
  | device (d : Device)
  | elsewhere
deriving DecidableEq

/-- What a path stands for when it is written to. -/
def destination (host : Host) (t : FileTree) (path : String) :
    Except FileError Destination := do
  let (parent, last, slash) ← t.locate host path
  match last with
  | none => .error .isDirectory
  | some name =>
    -- With a slash behind it the last component can only be a directory, even if it is a file.
    if name = "." ∨ name = ".." ∨ slash then .error .isDirectory
    else if maxName < name.utf8ByteSize then .error .nameTooLong
    else
      match parent with
      | .inside names =>
        let place := names ++ [name]
        if t.isDirectory place then .error .isDirectory else .ok (.file place)
      | .outside names =>
        let place := names ++ [name]
        match host.device? place with
        | some device => .ok (.device device)
        | none =>
          if host.directories.contains place then .error .isDirectory
          else
            host.creatable place
            return .elsewhere

end FileTree

end Pulse
