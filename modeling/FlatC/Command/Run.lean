import FlatC.Session
import FlatC.Command.Arguments
import FlatC.Command.FileTree

/-!
# Running a command line

A command line compiles one file. Everything that it prints, and the file that it
writes, is a function of the arguments and the file that it reads:
`Invocation.compile` says what is to be written where, and `Outcome.finish` what is
printed once that has been tried. The exit code tells what happened: 0 for code,
1 for errors in the program, 2 for wrong arguments, 3 and 4 for a file that could not
be read or written.
-/

namespace FlatC

/-- What a command line leaves behind. -/
structure Response where
  exit : Nat
  stdout : String
  /-- The lines about the program. -/
  diagnostics : List String
  /-- Why a file could not be read or written. -/
  failure : Option String
  deriving DecidableEq, Repr

namespace Response

/-- What is printed beside the standard output: the failure behind the diagnostics. -/
def stderr (r : Response) : String :=
  String.join ((r.diagnostics ++ r.failure.toList).map (· ++ "\n"))

def versionText : String := "cflatc 0.1.0\n"

def helpText : String := "Usage: cflatc [OPTIONS] <INPUT>\n"

def version : Response := ⟨0, versionText, [], none⟩

def help : Response := ⟨0, helpText, [], none⟩

/-- The response to wrong arguments. -/
def usage : Response := ⟨2, "", [], none⟩

/-- The response to a file that cannot be read. -/
def unreadable (path : String) (f : FileFault) : Response :=
  ⟨3, "", [], some ("Error: Cannot read " ++ path ++ ": " ++ f.message)⟩

end Response

/-- What is to be done when a file has been compiled. -/
structure Outcome where
  stdout : String
  diagnostics : List String
  /-- The path and the code to write, if there is code. -/
  output : Option (String × Code)
  /-- What to print when the code has been written. -/
  success : String

namespace Invocation

def has (i : Invocation) (f : Flag) : Bool := i.flags.contains f

def options (i : Invocation) : Options := { comments := !i.has .noComments }

/-- Where the code goes. -/
def outputPath (i : Invocation) : String := i.output.getD (Path.withExtension i.input "s")

/-- The name of the source file. -/
def fileName (i : Invocation) : String := (Path.fileName? i.input).getD "<input>"

/-- The program as it is printed on request. -/
def printed (i : Invocation) (p : Program) : Except Defect String := do
  let plain := if i.has .print then p.print Ident.name else ""
  if i.has .printBound then return plain ++ (← printBound p)
  return plain

/-- The lines for the diagnostics of a session. -/
def complaints (i : Invocation) (s : Session) : List String :=
  if i.has .long then s.diagnostics.flatMap (·.extended s.source i.fileName)
  else s.diagnostics.map (·.text)

/-- What is printed about code that has been written. -/
def successText (i : Invocation) (code : Code) : String :=
  (if i.has .verbose then "Generated " ++ toString code.length ++ " lines of assembly\n" else "") ++
    "Compiled " ++ i.fileName ++ " -> " ++ i.outputPath ++ "\n"

/-- What is to be done with the outcome of a compilation. -/
def outcome (i : Invocation) (stdout : String) (code? : Option Code) (s : Session) : Outcome :=
  { stdout
    diagnostics := i.complaints s
    output := code?.map (i.outputPath, ·)
    success := (code?.map i.successText).getD "" }

/-- Compiles a source text. -/
def compile (i : Invocation) (source : String) : Except Defect Outcome :=
  match (Session.new source).parse source with
  | (none, s) => .ok (i.outcome "" none s)
  | (some p, s) => do
    let stdout ← i.printed p
    let (code?, s) := s.compileProgram i.options p
    return i.outcome stdout (← code?) s

end Invocation

namespace Outcome

/-- The response when the program has errors. -/
def failed (o : Outcome) : Response := ⟨1, o.stdout, o.diagnostics, none⟩

/-- The response when the code has been written, or could not be. -/
def finish (o : Outcome) (path : String) : Option FileFault → Response
  | none => ⟨0, o.stdout ++ o.success, o.diagnostics, none⟩
  | some f =>
    ⟨4, o.stdout, o.diagnostics, some ("Error: Cannot write " ++ path ++ ": " ++ f.message)⟩

end Outcome

/-- The text of a file's bytes. -/
def textOf (bytes : List UInt8) : Except FileFault String :=
  match String.fromUTF8? ⟨bytes.toArray⟩ with
  | some s => .ok s
  | none => .error .notText

/-- A file of a tree as text. -/
def FileTree.readText (t : FileTree) (path : String) : Except FileFault String := do
  textOf (← t.read path)

/-- What running a command line on a file tree gives: the response, and the file
that was written, with its bytes. -/
structure Run where
  response : Response
  written : Option (List String × List UInt8)

/-- Runs a compilation on a file tree. -/
def Invocation.run (i : Invocation) (t : FileTree) : Except Defect Run :=
  match t.readText i.input with
  | .error f => .ok ⟨.unreadable i.input f, none⟩
  | .ok source => do
    let o ← i.compile source
    match o.output with
    | none => return ⟨o.failed, none⟩
    | some (path, code) =>
      let bytes := code.fileText.toUTF8.toList
      match t.write path bytes with
      | .error f => return ⟨o.finish path (some f), none⟩
      | .ok (place, _) => return ⟨o.finish path none, some (place, bytes)⟩

/-- **Runs a command line on a file tree.** -/
def runOn (t : FileTree) (args : List String) : Except Defect Run :=
  match Request.ofArguments args with
  | .error _ => .ok ⟨.usage, none⟩
  | .ok .version => .ok ⟨.version, none⟩
  | .ok .help => .ok ⟨.help, none⟩
  | .ok (.compile i) => i.run t

end FlatC
