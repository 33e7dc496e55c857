import FlatC.Span
import FlatC.Position
import FlatC.Diagnostic.Code

/-!
# Reports and diagnostics

A stage reports what it found in terms of spans. A **report** does not know the
source text; placed in a source it becomes a **diagnostic**, with a line and a
column to show. Positions are computed only there, so two texts with the same
tree give the same reports up to their spans.
-/

namespace FlatC

/-- An error at a place in the source. -/
structure Problem where
  code : ErrorCode
  message : String
  span : Span
  /-- Advice for the reader. -/
  hint : Option String := none
  deriving DecidableEq, Repr

/-- The one-line form of a problem. -/
def Problem.summary (p : Problem) : String := "[" ++ p.code.text ++ "] " ++ p.message

/-- A remark at a place in the source that stops nothing. -/
structure Warning where
  code : WarningCode
  message : String
  span : Span
  deriving DecidableEq, Repr

/-- One entry of a stage's findings. -/
inductive Report where
  | problem (p : Problem)
  /-- An error of the program as a whole, which stands nowhere. -/
  | program (code : ErrorCode) (message : String)
  | warning (w : Warning)
  deriving DecidableEq, Repr

/-- Errors stop the stages that follow, warnings do not. -/
def Report.isError : Report → Bool
  | .warning _ => false
  | _ => true

/-- Some report among `rs` is an error. -/
def anyError (rs : List Report) : Bool := rs.any Report.isError

inductive Severity where
  | error
  | warning
  deriving DecidableEq, Repr

/-- A report placed in a source text. -/
structure Diagnostic where
  severity : Severity
  code : String
  message : String
  span : Span
  /-- Counted from 1; 0 for the program as a whole. -/
  line : Nat
  /-- Counted from 1; 0 for the program as a whole. -/
  column : Nat
  deriving DecidableEq, Repr

/-- Finds the line and the column of a report. -/
def Report.locate (source : String) : Report → Diagnostic
  | .problem p =>
    let pos := Position.ofOffset source p.span.start
    ⟨.error, p.code.text, p.message, p.span, pos.line, pos.column⟩
  | .program code message => ⟨.error, code.text, message, .zero, 0, 0⟩
  | .warning w =>
    let pos := Position.ofOffset source w.span.start
    ⟨.warning, w.code.text, w.message, w.span, pos.line, pos.column⟩

namespace Diagnostic

def tag : Severity → String
  | .error => "***ERROR***"
  | .warning => "***WARNING***"

/-- The line that is printed for a diagnostic. -/
def text (d : Diagnostic) : String :=
  toString d.line ++ ":" ++ toString d.column ++ " " ++ tag d.severity ++ " " ++ d.message

/-- The listing of several diagnostics, one a line. -/
def listing (ds : List Diagnostic) : String := String.join (ds.map (·.text ++ "\n"))

/-- The heading of a diagnostic in the long form of output. -/
def heading (d : Diagnostic) : String :=
  let kind := match d.severity with
    | .error => "Error"
    | .warning => "Warning"
  "[" ++ d.code ++ "] " ++ kind ++ ": " ++ d.message

/-- The long form of a diagnostic: its heading and, if it has a place, where that is
on the page of `file`, with every byte counted as a character. -/
def extended (source file : String) (d : Diagnostic) : List String :=
  if d.line = 0 then [d.heading]
  else
    let (line, column) := pagePosition 1 1 d.span.start source.toList
    [d.heading, file ++ ":" ++ toString line ++ ":" ++ toString column]

end Diagnostic

end FlatC
