/-
The command as a program: it reads and writes real files and prints what the command reports.
-/
import Pulse.Command.Compile

set_option autoImplicit false

namespace Pulse.Main

/-- The words of the system for an error, with its number. -/
def systemError (code : UInt32) (details : String) : FileError :=
  .other (details ++ " (os error " ++ toString code ++ ")")

/-- The file error behind an error of the file system. -/
def fileError (e : IO.Error) : FileError :=
  match e with
  | .noFileOrDirectory _ _ _ => .notFound
  | .inappropriateType _ 20 _ => .notDirectory
  | .inappropriateType _ 21 _ => .isDirectory
  | .invalidArgument _ 36 _ => .nameTooLong
  | .alreadyExists _ code details => systemError code details
  | .inappropriateType _ code details => systemError code details
  | .interrupted _ code details => systemError code details
  | .invalidArgument _ code details => systemError code details
  | .permissionDenied _ code details => systemError code details
  | .resourceExhausted _ code details => systemError code details
  | .noSuchThing _ code details => systemError code details
  | .otherError code details => systemError code details
  | .resourceBusy code details => systemError code details
  | .unsupportedOperation code details => systemError code details
  | .hardwareFault code details => systemError code details
  | .illegalOperation code details => systemError code details
  | e => .other (toString e)

/-- Runs an action on files. -/
def attempt {α : Type} (action : IO α) : IO (Except FileError α) := do
  try
    return .ok (← action)
  catch e =>
    return .error (fileError e)

/-- The bytes of a file. -/
def readBytes (path : String) : IO ByteArray := do
  let file ← IO.FS.Handle.mk path .read
  file.readBinToEnd

/-- Writes a text to a file. -/
def writeText (path content : String) : IO Unit := do
  let file ← IO.FS.Handle.mk path .write
  file.putStr content
  -- What is still in the buffer when the file is closed would fail without notice.
  file.flush

/-- Carries out a plan. -/
def execute : Command.Plan → IO Command.Report
  | .done report => return report
  | .write path content => return .ofWrite path (← attempt (writeText path content))

/-- The tools, which the environment can replace. -/
def tools : IO Tools := do
  let compiler := (← IO.getEnv "PULSEC_LLC").getD Tools.standard.compiler
  let linker := (← IO.getEnv "PULSEC_CLANG").getD Tools.standard.linker
  return ⟨compiler, linker⟩

/-- Runs the command with arguments. -/
def runWith (args : List String) : IO Command.Report := do
  match Options.parse (← tools) args with
  | .error e => return .failure (e.message ++ "\n")
  | .ok o => execute (Command.plan o (← attempt (readBytes o.input)))

end Pulse.Main

/-- Runs the command, prints its report and ends with its status. -/
def main (args : List String) : IO UInt32 := do
  let report ← Pulse.Main.runWith args
  IO.print report.output
  IO.eprint report.errors
  return report.status.toUInt32
