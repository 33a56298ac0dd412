/-
The host of a command: what there is around the directory that it runs in.

A command line may name files outside of this directory, and devices: the streams of the command
have names in the file system like everything else, so it may ask to read the standard input or to
write to the standard output as if they were files. Which devices and directories there are is not
up to the command. A `Host` lists them, and everything that reads or writes files takes it as a
parameter.
-/
set_option autoImplicit false

namespace Pulse

/-- Why a file cannot be read or written. -/
inductive FileError where
  | notFound
  | noDevice
  | denied
  | notDirectory
  | isDirectory
  | noSpace
  | nameTooLong
  | notText
  | other (message : String)
deriving DecidableEq

/-- The message of a file error. -/
def FileError.message : FileError → String
  | notFound => "No such file or directory (os error 2)"
  | noDevice => "No such device or address (os error 6)"
  | denied => "Permission denied (os error 13)"
  | notDirectory => "Not a directory (os error 20)"
  | isDirectory => "Is a directory (os error 21)"
  | noSpace => "No space left on device (os error 28)"
  | nameTooLong => "File name too long (os error 36)"
  | notText => "stream did not contain valid UTF-8"
  | other message => message

/-- What can be opened although it is no file: a sink that takes everything, a device that is
always full, the three streams of the command, and the terminal it does not have. -/
inductive Device where
  | sink
  | full
  | input
  | output
  | errors
  | terminal
deriving DecidableEq

/-- What there is to read from a device: nothing. -/
def Device.read : Device → Except FileError ByteArray
  | terminal => .error .noDevice
  | _ => .ok .empty

/-- A directory: of the tree of the command, or below the root directory. -/
inductive Place where
  | inside (names : List String)
  | outside (names : List String)
deriving DecidableEq

/-- What there is outside of the directory that the command runs in, by components below the root
directory. A link is a directory that stands for another one. In a closed directory, which is right
below the root, no file can be made. -/
structure Host where
  around : List String
  here : List (List String)
  devices : List (List String × Device)
  directories : List (List String)
  links : List (List String × List String)
  closed : List (String × FileError)

namespace Host

/-- A host with the streams of the command, a sink and a full device, and no more directories than
it takes to get to them and to the command. -/
def plain : Host where
  around := ["tmp"]
  here := []
  devices :=
    [(["dev", "null"], .sink), (["dev", "full"], .full), (["dev", "stdin"], .input),
     (["dev", "stdout"], .output), (["dev", "stderr"], .errors)]
  directories := [[], ["dev"], ["tmp"]]
  links := []
  closed := []

/-- The device at a place below the root directory. -/
def device? (host : Host) (names : List String) : Option Device := host.devices.lookup names

/-- The directory around a directory. The root directory is its own. -/
def up (host : Host) : Place → Place
  | .inside [] => .outside host.around
  | .inside names => .inside names.dropLast
  | .outside names => .outside names.dropLast

/-- Goes into the directory at a place below the root directory. -/
def enter (host : Host) (names : List String) : Except FileError Place :=
  if (host.device? names).isSome then .error .notDirectory
  else if host.here.contains names then .ok (.inside [])
  else
    match host.links.lookup names with
    | some names => .ok (.outside names)
    | none => if host.directories.contains names then .ok (.outside names) else .error .notFound

/-- Whether a new file can be made at a place below the root directory. -/
def creatable (host : Host) (names : List String) : Except FileError Unit :=
  match names.head?.bind fun name => host.closed.lookup name with
  | some e => .error e
  | none => .ok ()

end Host

end Pulse
