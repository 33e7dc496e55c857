import FlatC.Token.Lexer
import FlatC.Parser.Program
import FlatC.Tree.Printer
import FlatC.Binding
import FlatC.Typing.Program
import FlatC.Layout
import FlatC.Code.Program

/-!
# Sessions

A session is the life of one compilation, or of several that share their reports
and label numbers. The stages run in order, and a stage runs only if no error has
been reported in the session so far, by whichever program.

`Session.compile` is the whole way from text to code. `compile` is that in a new
session.
-/

namespace FlatC

structure Session where
  /-- The text in which reports are placed. -/
  source : String
  reports : List Report
  nextLabel : Nat
  deriving Repr

namespace Session

def new (source : String) : Session := ⟨source, [], 0⟩

def report (s : Session) (rs : List Report) : Session := { s with reports := s.reports ++ rs }

/-- An error has been reported. -/
def failed (s : Session) : Bool := anyError s.reports

/-- The reports, placed in the source. -/
def diagnostics (s : Session) : List Diagnostic := s.reports.map (Report.locate s.source)

def errorCount (s : Session) : Nat := (s.reports.filter Report.isError).length

def warningCount (s : Session) : Nat := (s.reports.filter (!·.isError)).length

/-- Hands out a label number. -/
def takeLabel (s : Session) : Nat × Session := (s.nextLabel, { s with nextLabel := s.nextLabel + 1 })

/-! ## The stages -/

/-- Reads a program, and reports why if there is none. -/
def parse (s : Session) (source : String) : Option Program × Session :=
  match tokenize source with
  | .error e => (none, s.report [.problem e])
  | .ok ts =>
    let s := s.report (ts.warnings.map Report.warning)
    match FlatC.parse ts.lexemes with
    | .error e => (none, s.report [.problem e])
    | .ok p => (some p, s)

/-- Binds the names of a program; tells if all of them could be. -/
def bind (s : Session) (p : Program) (notes : Annotations) :
    Except Defect (Bool × Annotations) × Session :=
  match bindNames p notes with
  | .error d => (.error d, s)
  | .ok (notes, rs) => (.ok (rs.isEmpty, notes), s.report rs)

/-- Checks the types of a program; tells if nothing was wrong. -/
def check (s : Session) (p : Program) (notes : Annotations) :
    Except Defect (Bool × Annotations) × Session :=
  let (result, notes, rs) := checkTypes p notes
  (result.map fun _ => (rs.isEmpty, notes), s.report rs)

/-- Writes the code of a program. -/
def generate (s : Session) (o : Options) (p : Program) (notes : Annotations) :
    Except Defect Code × Session :=
  match FlatC.generate o p notes s.nextLabel with
  | .error d => (.error d, s)
  | .ok (code, nextLabel) => (.ok code, { s with nextLabel })

/-- Places the variables of a program and writes its code. -/
def placeAndGenerate (s : Session) (o : Options) (p : Program) (notes : Annotations) :
    Except Defect Code × Session :=
  match placeSymbols p notes with
  | .error d => (.error d, s)
  | .ok notes => s.generate o p notes

/-- Checks a program whose names are bound and writes its code. -/
def checkAndGenerate (s : Session) (o : Options) (p : Program) (notes : Annotations) :
    Except Defect (Option Code) × Session :=
  match s.check p notes with
  | (.error d, s) => (.error d, s)
  | (.ok (_, notes), s) =>
    if s.failed then (.ok none, s)
    else
      let (code, s) := s.placeAndGenerate o p notes
      (code.map some, s)

/-- **Compiles a program**, unless an error has been reported. -/
def compileProgram (s : Session) (o : Options) (p : Program) :
    Except Defect (Option Code) × Session :=
  match s.bind p .empty with
  | (.error d, s) => (.error d, s)
  | (.ok (_, notes), s) => if s.failed then (.ok none, s) else s.checkAndGenerate o p notes

/-- **Compiles a source text**, unless an error has been reported. -/
def compile (s : Session) (o : Options) (source : String) :
    Except Defect (Option Code) × Session :=
  match s.parse source with
  | (none, s) => (.ok none, s)
  | (some p, s) => s.compileProgram o p

end Session

/-- **Compiles a source text** in a new session. -/
def compile (source : String) (o : Options) : Except Defect (Option Code) × Session :=
  (Session.new source).compile o source

/-- The source text of a program with the type of each name behind it. -/
def printBound (p : Program) : Except Defect String :=
  match bindNames p .empty with
  | .error d => .error d
  | .ok (notes, _) => .ok (p.print notes.printIdent)

end FlatC
