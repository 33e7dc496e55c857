import FlatC.Command.Run

/-!
# The command line

The outer layer: it reads and writes files and prints what `Invocation.compile` and
`Outcome.finish` say.
-/

namespace FlatC

/-- The cause of a failed file operation. -/
def FileFault.ofError : IO.Error → FileFault
  | .noFileOrDirectory _ number details => .system details number.toNat
  | .inappropriateType _ number details => .system details number.toNat
  | .permissionDenied _ number details => .system details number.toNat
  | .alreadyExists _ number details => .system details number.toNat
  | .resourceExhausted _ number details => .system details number.toNat
  | .invalidArgument _ number details => .system details number.toNat
  | .otherError number details => .system details number.toNat
  | e => .system (toString e) 0

/-- Prints a response and gives its exit code. -/
def Response.print (r : Response) : IO UInt32 := do
  IO.print r.stdout
  IO.eprint r.stderr
  return r.exit.toUInt32

/-- Reads a file as text. -/
def readText (path : String) : IO (Except FileFault String) := do
  try
    let bytes ← IO.FS.withFile path .read (·.readBinToEnd)
    return textOf bytes.toList
  catch e => return .error (.ofError e)

/-- Writes a file; gives the cause if that fails. -/
def writeText (path text : String) : IO (Option FileFault) := do
  try
    IO.FS.writeFile path text
    return none
  catch e => return some (.ofError e)

def Invocation.main (i : Invocation) : IO UInt32 := do
  match ← readText i.input with
  | .error f => (Response.unreadable i.input f).print
  | .ok source =>
    match i.compile source with
    | .error d => throw (IO.userError d.message)
    | .ok o =>
      match o.output with
      | none => o.failed.print
      | some (path, code) => (o.finish path (← writeText path code.fileText)).print

end FlatC

def main (args : List String) : IO UInt32 :=
  match FlatC.Request.ofArguments args with
  | .error _ => do
    IO.eprintln FlatC.Response.helpText
    FlatC.Response.usage.print
  | .ok .version => FlatC.Response.version.print
  | .ok .help => FlatC.Response.help.print
  | .ok (.compile i) => i.main
