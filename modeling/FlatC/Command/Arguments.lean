/-!
# Command line arguments

`Request.ofArguments` reads the arguments of a command line: options in their short
and long forms, and the path of the source file. Arguments are read from left to
right; the first one that is wrong, or that asks for something other than a
compilation, decides.
-/

namespace FlatC

/-- What can be wrong with the arguments. -/
inductive UsageError where
  | unknownOption (text : String)
  | unexpectedArgument (text : String)
  | repeated (option : String)
  | missingValue (option : String)
  | unexpectedValue (option : String)
  | missingInput
  deriving DecidableEq, Repr

/-- The options that are either there or not. -/
inductive Flag where
  | verbose
  | print
  | printBound
  | long
  | noComments
  deriving DecidableEq, Repr

namespace Flag

def name : Flag → String
  | verbose => "verbose"
  | print => "unparse"
  | printBound => "unparse-resolved"
  | long => "pretty"
  | noComments => "no-comments"

def all : List Flag := [verbose, print, printBound, long, noComments]

end Flag

/-- What a command line asks for. -/
structure Invocation where
  input : String
  output : Option String
  flags : List Flag
  deriving DecidableEq, Repr

inductive Request where
  | compile (i : Invocation)
  | version
  | help
  deriving DecidableEq, Repr

namespace Arguments

/-- What has been read of the arguments. -/
structure Draft where
  input : Option String := none
  output : Option String := none
  flags : List Flag := []
  deriving DecidableEq, Repr

/-- What reading an argument leads to: more reading, or a request at once. -/
inductive Progress where
  | go (d : Draft)
  /-- The next argument is the value of the output option. -/
  | needOutput (d : Draft)
  | stop (r : Request)
  deriving DecidableEq, Repr

def setFlag (d : Draft) (f : Flag) : Except UsageError Draft :=
  if f ∈ d.flags then .error (.repeated f.name) else .ok { d with flags := f :: d.flags }

def setOutput (d : Draft) (value : String) : Except UsageError Draft :=
  if d.output.isSome then .error (.repeated "output")
  else if value = "" then .error (.missingValue "output")
  else .ok { d with output := some value }

def setInput (d : Draft) (value : String) : Except UsageError Draft :=
  if d.input.isSome || value = "" then .error (.unexpectedArgument value)
  else .ok { d with input := some value }

/-- Reads a long option, with the value behind its equals sign if there is one. -/
def long (d : Draft) (name : String) (value : Option String) : Except UsageError Progress := do
  if name = "output" then
    match value with
    | some v => return .go (← setOutput d v)
    | none => return .needOutput d
  else if name = "version" || name = "help" then
    if value.isSome then throw (.unexpectedValue name)
    return .stop (if name = "version" then .version else .help)
  else
    match Flag.all.find? (·.name == name) with
    | none => throw (.unknownOption name)
    | some f =>
      if value.isSome then throw (.unexpectedValue name)
      return .go (← setFlag d f)

/-- Reads the letters of short options. The letter of the output option takes the
rest as its value, behind an equals sign if there is one. -/
def short (d : Draft) : List Char → Except UsageError Progress
  | [] => return .go d
  | 'v' :: cs => do short (← setFlag d .verbose) cs
  | 'V' :: _ => return .stop .version
  | 'h' :: _ => return .stop .help
  | ['o'] => return .needOutput d
  | 'o' :: '=' :: cs => do return .go (← setOutput d (String.ofList cs))
  | 'o' :: cs => do return .go (← setOutput d (String.ofList cs))
  | c :: _ => throw (.unknownOption (String.ofList [c]))

/-- Reads one argument. -/
def one (d : Draft) (arg : String) : Except UsageError Progress :=
  match arg.toList with
  | '-' :: '-' :: cs =>
    let name := cs.takeWhile (· != '=')
    let value := match cs.dropWhile (· != '=') with
      | [] => none
      | _ :: v => some (String.ofList v)
    long d (String.ofList name) value
  | '-' :: c :: cs => short d (c :: cs)
  | _ => do return .go (← setInput d arg)

/-- The argument can be the value of an option. -/
def isValue (arg : String) : Bool :=
  match arg.toList with
  | '-' :: _ :: _ => false
  | _ => true

def finish (d : Draft) : Except UsageError Request :=
  match d.input with
  | none => .error .missingInput
  | some input => .ok (.compile ⟨input, d.output, d.flags⟩)

/-- Reads the arguments behind `--`, none of which is an option. -/
def plain (d : Draft) : List String → Except UsageError Request
  | [] => finish d
  | arg :: args => do plain (← setInput d arg) args

/-- Reads all arguments. -/
def all (d : Draft) : List String → Except UsageError Request
  | [] => finish d
  | "--" :: args => plain d args
  | arg :: args => do
    match ← one d arg with
    | .go d => all d args
    | .stop r => return r
    | .needOutput d =>
      match args with
      | [] => throw (.missingValue "output")
      | value :: args =>
        if isValue value then all (← setOutput d value) args else throw (.missingValue "output")

end Arguments

/-- **What a command line asks for.** -/
def Request.ofArguments (args : List String) : Except UsageError Request := Arguments.all {} args

end FlatC
