/-
The command line.

One input file, an output file if one is given, the last stage to run, and the tools of the stages
behind the listing. Of several stages or outputs the last one counts.
-/
import Pulse.Command.Path

set_option autoImplicit false

namespace Pulse

/-- The last stage to run (`Emit`). -/
inductive Stage where
  | listing
  | assembly
  | object
  | executable
deriving DecidableEq

/-- The programs that make object code and executables. -/
structure Tools where
  compiler : String
  linker : String
deriving DecidableEq

/-- What the command line asks for. -/
structure Options where
  input : String
  output : Option String
  stage : Stage
  tools : Tools
deriving DecidableEq

/-- Why a command line is not understood. -/
inductive UsageError where
  | missingOutput
  | invalidFlag (flag : String)
  | unexpectedArgument (argument : String)
  | noInput
deriving DecidableEq

/-- The tools that are used unless others are given. -/
def Tools.standard : Tools := ⟨"llc", "clang"⟩

namespace UsageError

/-- How the command is used. -/
def usage : String := "usage: pulsec <file> [--ir | --llvm | -c] [-o <output>]"

/-- The message of an error, with the usage below it. -/
def message (e : UsageError) : String :=
  let reason :=
    match e with
    | missingOutput => "missing file name after '-o'"
    | invalidFlag flag => "invalid flag '" ++ flag ++ "'"
    | unexpectedArgument argument => "unexpected argument '" ++ argument ++ "'"
    | noInput => "no input file"
  reason ++ "\n" ++ usage

end UsageError

namespace Options

/-- Reads the arguments behind what the earlier ones asked for. -/
def parseFrom (tools : Tools) (input output : Option String) (stage : Stage) :
    List String → Except UsageError Options
  | [] =>
    match input with
    | some input => .ok ⟨input, output, stage, tools⟩
    | none => .error .noInput
  | "--ir" :: args => parseFrom tools input output .listing args
  | "--llvm" :: args => parseFrom tools input output .assembly args
  | "-c" :: args => parseFrom tools input output .object args
  | ["-o"] => .error .missingOutput
  | "-o" :: path :: args => parseFrom tools input (some path) stage args
  | arg :: args =>
    if arg.toList.head? = some '-' then .error (.invalidFlag arg)
    else
      match input with
      | some _ => .error (.unexpectedArgument arg)
      | none => parseFrom tools (some arg) output stage args

/-- The arguments that are read as such, before any other. -/
def flags : List String := ["--ir", "--llvm", "-c", "-o"]

/-- The last case of `parseFrom`: an argument that is no flag is the input, unless it looks like a
flag or there is an input already. -/
theorem parseFrom_of_notMem_flags {tools : Tools} {input output : Option String} {stage : Stage}
    {arg : String} {args : List String} (h : arg ∉ flags) :
    parseFrom tools input output stage (arg :: args) =
      if arg.toList.head? = some '-' then .error (.invalidFlag arg)
      else input.elim (parseFrom tools (some arg) output stage args)
        fun _ => .error (.unexpectedArgument arg) := by
  simp only [flags, List.mem_cons, List.not_mem_nil, or_false, not_or] at h
  cases input <;> simp [parseFrom, h]

/-- Reads the arguments of the command (`Options::parse_args`). -/
def parse (tools : Tools) (args : List String) : Except UsageError Options :=
  parseFrom tools none none .executable args

/-- The name of the unit in messages: the name of the input file, or else its path. -/
def unitName (o : Options) : String :=
  ((Path.name? o.input.toList).map String.ofList).getD o.input

/-- The name of the module that is made (`Options::module_name`): the input file's name without its
extension. -/
def moduleName (o : Options) : String :=
  ((Path.stem? o.input.toList).map String.ofList).getD "main"

/-- The extension of what a stage makes; a listing goes to the standard output. -/
def extensionOf : Stage → Option String
  | .listing => none
  | .assembly => some "ll"
  | .object => some "o"
  | .executable => some ""

/-- Where the result goes; nowhere in the file system means the standard output
(`Options::output_path`). -/
def outputPath (o : Options) : Option String :=
  match o.output with
  | some path => some path
  | none =>
    (extensionOf o.stage).map fun extension =>
      String.ofList (Path.withExtension o.input.toList extension.toList)

end Options

end Pulse
