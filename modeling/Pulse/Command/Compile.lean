/-
The command: from a command line and an input file to messages, an output and an exit status.

A syntax error is shown against the source, faults are listed one per line, and a listing is
printed or written. Reading and writing are left to the caller: `plan` says what to do with the
content of the input file, `Report.ofWrite` what to tell of the attempt to write. Put together over
a tree of files on a host they are the whole command, `runOn`.
-/
import Pulse.Code.BackendError
import Pulse.Code.Listing
import Pulse.Command.FileTree
import Pulse.Command.Options
import Pulse.Compilation
import Pulse.Source.Excerpt

set_option autoImplicit false

namespace Pulse.Command

/-- Why a compilation ended early, apart from syntax errors, which are shown against the source
(`DriverError`). -/
inductive Failure where
  | unreadable (path : String) (e : FileError)
  | unwritable (path : String) (e : FileError)
  | faulty (diagnostics : Nat)
  | refused (r : Code.Refusal)
  | backend (e : Code.BackendError)

/-- The message of a failure. -/
def Failure.message : Failure → String
  | unreadable path e => "failed to read '" ++ path ++ "': " ++ e.message
  | unwritable path e => "failed to write '" ++ path ++ "': " ++ e.message
  | faulty n => "compilation failed with " ++ toString n ++ " error(s)"
  | refused r => r.message
  | backend e => e.message

/-- What a run of the command leaves: exit status, standard output and standard error. -/
structure Report where
  status : Nat
  output : String
  errors : String
deriving DecidableEq

namespace Report

/-- A run that did its work. -/
def success (output : String) : Report := ⟨0, output, ""⟩

/-- A run that ended with messages. -/
def failure (errors : String) : Report := ⟨1, "", errors⟩

/-- A run that ended with a failure, behind other messages. -/
def ofFailure (messages : String) (f : Failure) : Report :=
  failure (messages ++ "error: " ++ f.message ++ "\n")

/-- A run that wrote its output to a file, or tried to. -/
def ofWrite (path : String) : Except FileError Unit → Report
  | .ok () => success ""
  | .error e => ofFailure "" (.unwritable path e)

/-- A run that ended with an error it cannot show. -/
def unshown : Report := ⟨101, "", "the error is too far to the right to be shown\n"⟩

end Report

/-- What is left to do: nothing, or to write a file. -/
inductive Plan where
  | done (report : Report)
  | write (path : String) (content : String)

/-- What becomes of the code of a program. -/
def planCode (o : Options) (code : Code.Assembly) : Plan :=
  match o.stage with
  | .listing =>
    match o.outputPath with
    | some path => .write path code.listing
    | none => .done (.success code.listing)
  | _ => .done (.ofFailure "" (.backend (.target "no code generator is available")))

/-- What becomes of a source text. -/
def planSource (o : Options) (source : String) : Plan :=
  match (Compilation.ofSource source).result with
  | .error (.invalid e) =>
    match e.render? o.unitName source with
    | some text => .done (.failure text)
    | none => .done .unshown
  | .error _ => .done (.failure "")
  | .ok a =>
    if a.isOk then
      match Code.generate a with
      | .ok code => planCode o code
      | .error r => .done (.ofFailure "" (.refused r))
    else
      let messages := a.diagnostics.map fun d => d.describe (some o.unitName) ++ "\n"
      .done (.ofFailure (String.join messages) (.faulty a.diagnostics.length))

/-- What becomes of the content of the input file. -/
def plan (o : Options) (content : Except FileError ByteArray) : Plan :=
  match content with
  | .error e => .done (.ofFailure "" (.unreadable o.input e))
  | .ok bytes =>
    match String.fromUTF8? bytes with
    | some source => planSource o source
    | none => .done (.ofFailure "" (.unreadable o.input .notText))

/-- Writes a text to a path of a tree of files. What goes to the streams of the command is part of
its report. -/
def deliver (host : Host) (files : FileTree) (path content : String) : FileTree × Report :=
  match files.destination host path with
  | .error e => (files, .ofWrite path (.error e))
  | .ok (.file place) => (files.put place content.toUTF8, .ofWrite path (.ok ()))
  | .ok .elsewhere => (files, .ofWrite path (.ok ()))
  | .ok (.device .sink) | .ok (.device .input) => (files, .ofWrite path (.ok ()))
  | .ok (.device .full) => (files, .ofWrite path (.error .noSpace))
  | .ok (.device .terminal) => (files, .ofWrite path (.error .noDevice))
  | .ok (.device .output) => (files, .success content)
  | .ok (.device .errors) => (files, ⟨0, "", content⟩)

/-- The whole command over a tree of files on a host (`run`). -/
def runOn (host : Host) (files : FileTree) (args : List String) : FileTree × Report :=
  match Options.parse .standard args with
  | .error e => (files, .failure (e.message ++ "\n"))
  | .ok o =>
    match plan o (files.read host o.input) with
    | .done report => (files, report)
    | .write path content => deliver host files path content

/-- The whole command where nothing else is known of the host. -/
def run (files : FileTree) (args : List String) : FileTree × Report := runOn .plain files args

end Pulse.Command
