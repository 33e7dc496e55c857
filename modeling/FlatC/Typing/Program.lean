import FlatC.Symbol
import FlatC.Typing.Operator

/-!
# The types of programs

Every expression of every function is given a type, which is recorded under its
node id, and every statement is checked. Operands come before the operation,
arguments before the function they are passed to. `main` has to be a function
without parameters.
-/

namespace FlatC

namespace Typing

variable (notes : Annotations)

/-- The type of the symbol that a name is bound to. -/
def ident (i : Ident) : Checked Ty :=
  match notes.symbolOf? i.id with
  | some s => return s.ty
  | none => Checked.defect (.unresolvedName i.name)

/-- Records a type and gives it back. -/
def recorded (node : Node) (ty : Ty) : Checked Ty := do
  Checked.record node.id ty
  return ty

/-- The type of a place. -/
def place : Place → Checked Ty
  | .var node name => do recorded node (← ident notes name)
  | .field node base name => do
    let _ ← place base
    recorded node (← ident notes name)

/-- The reports about arguments that do not fit the parameters. -/
def argumentReports : List Operand → List Ty → List Report
  | x :: xs, p :: ps =>
    (if x.ty.isError || x.ty.compatible p then [] else [TypeFault.argumentType.report x.span]) ++
      argumentReports xs ps
  | _, _ => []

/-- A report about the arguments of a call points at one of them. -/
theorem exists_of_mem_argumentReports {xs : List Operand} {ps : List Ty} {r : Report}
    (h : r ∈ argumentReports xs ps) : ∃ x ∈ xs, r = TypeFault.argumentType.report x.span := by
  induction xs generalizing ps with
  | nil => simp [argumentReports] at h
  | cons x xs ih =>
    cases ps with
    | nil => simp [argumentReports] at h
    | cons p ps =>
      rcases List.mem_append.1 h with h | h
      · split at h
        · cases h
        · exact ⟨x, .head xs, List.mem_singleton.1 h⟩
      · obtain ⟨y, hy, hr⟩ := ih h
        exact ⟨y, .tail x hy, hr⟩

/-- The type of a call of something of type `callee`, named at `span`. -/
def call (callee : Ty) (span : Span) (args : List Operand) : Checked Ty :=
  match callee with
  | .fn params ret =>
    if params.length = args.length then ⟨.ok ret, argumentReports args params, []⟩
    else do
      Checked.report (TypeFault.argumentCount.report span)
      return ret
  | _ => do
    Checked.report (TypeFault.callOfNonFunction.report span)
    return .error

mutual

/-- The type of an expression, which is recorded with those of its parts. -/
def expr : Expr → Checked Ty
  | .int node _ => recorded node .int
  | .str node _ => recorded node .string
  | .bool node _ => recorded node .bool
  | .place p => place notes p
  | .assign node target value => do
    let t ← place notes target
    let v ← expr value
    recorded node (← Ty.combine Ty.assignmentFault? t v t target.root.span)
  | .call node callee args => do
    let xs ← operands args
    recorded node (← call (← ident notes callee) callee.span xs)
  | .unary node op operand => do
    let x ← expr operand
    recorded node (← op.check ⟨x, operand.reportSpan⟩)
  | .binary node op left right => do
    let l ← expr left
    let r ← expr right
    let ty ← op.check ⟨l, left.reportSpan⟩ ⟨r, right.reportSpan⟩
      (Expr.binary node op left right).reportSpan
    recorded node ty

def operands : List Expr → Checked (List Operand)
  | [] => return []
  | e :: es => do
    let ty ← expr e
    let xs ← operands es
    return ⟨ty, e.reportSpan⟩ :: xs

end

/-- Checks a condition. -/
def condition (e : Expr) : Checked Unit := do
  let ty ← expr notes e
  if !ty.isError && !ty.isBool then Checked.report (TypeFault.condition.report e.reportSpan)

/-- Checks the place of a `++` or `--`. -/
def step (target : Place) : Checked Unit := do
  let ty ← place notes target
  let _ ← Operand.arithmetic [⟨ty, target.root.span⟩]

/-- Checks what is read into. -/
def read (target : Place) : Checked Unit := do
  let ty ← place notes target
  match ty.composite? with
  | some kind => Checked.report ((TypeFault.read kind).report target.root.span)
  | none => return

/-- Checks what is written. -/
def write (value : Expr) : Checked Unit := do
  let ty ← expr notes value
  match ty.composite? with
  | some kind => Checked.report ((TypeFault.write kind).report value.reportSpan)
  | none => if ty.isVoid then Checked.report (TypeFault.writeVoid.report value.reportSpan)

/-- Checks a `return` in a function whose type is `expected`. -/
def ret (expected : Ty) : Option Expr → Checked Unit
  | none => do
    if !expected.isVoid then Checked.report TypeFault.missingReturnValue.ofProgram
  | some value => do
    let ty ← expr notes value
    if expected.isVoid then Checked.report (TypeFault.returnValueInVoid.report value.reportSpan)
    else if !ty.isError && !ty.compatible expected then
      Checked.report (TypeFault.badReturnValue.report value.reportSpan)

mutual

/-- Checks a statement of a function that returns `expected`. -/
def stmt (expected : Ty) : Stmt → Checked Unit
  | .assign _ node target value => do
    let _ ← expr notes (.assign node target value)
  | .increment _ target | .decrement _ target => step notes target
  | .read _ target => read notes target
  | .write _ value => write notes value
  | .ifThen _ cond thenBody => do
    condition notes cond
    body expected thenBody
  | .ifElse _ cond thenBody elseBody => do
    condition notes cond
    body expected thenBody
    body expected elseBody
  | .whileLoop _ cond loopBody => do
    condition notes cond
    body expected loopBody
  | .call _ node callee args => do
    let _ ← expr notes (.call node callee args)
  | .ret _ value => ret notes expected value

def body (expected : Ty) : Body → Checked Unit
  | .block _ ss => stmts expected ss

def stmts (expected : Ty) : List Stmt → Checked Unit
  | [] => return
  | s :: ss => do
    stmt expected s
    stmts expected ss

end

def functions : List FnDecl → Checked Unit
  | [] => return
  | f :: fs => do
    body notes (.ofScalar f.returns) f.body
    functions fs

/-- The program has a function `main` without parameters. -/
def hasMain (p : Program) : Bool :=
  p.main?.any fun f =>
    ((notes.symbolOf? f.name.id).bind Symbol.fnInfo?).any (·.params.isEmpty)

def program (p : Program) : Checked Unit := do
  functions notes p.functions
  if !hasMain notes p then Checked.report TypeFault.noMain.ofProgram

end Typing

namespace Annotations

/-- Adds the types that were recorded. -/
def withTypes (a : Annotations) (ts : List (NodeId × Ty)) : Annotations :=
  ts.foldl (fun a t => a.setType t.1 t.2) a

end Annotations

/-- **Checks the types of a program** whose names are bound, and adds the types of
its expressions to `notes`. -/
def checkTypes (p : Program) (notes : Annotations) :
    Except Defect Unit × Annotations × List Report :=
  let c := Typing.program notes p
  (c.result, notes.withTypes c.types, c.reports)

end FlatC
