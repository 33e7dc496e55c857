import FlatC.Typing.Checked
import FlatC.Typing.Fault

/-!
# The types of operations

The rules for operators and assignments, on the types of the operands. An operand
of type `error` has been reported before: the result is `error`, and nothing more
is said about it.
-/

namespace FlatC

/-- An operand's type, and where to report what is wrong with it. -/
structure Operand where
  ty : Ty
  span : Span
  deriving DecidableEq, Repr

namespace Operand

/-- The reports about an operand that has to satisfy `accepts`. -/
def complaint (accepts : Ty → Bool) (fault : TypeFault) (x : Operand) : List Report :=
  if x.ty.isError || accepts x.ty then [] else [fault.report x.span]

/-- Operands that all have to satisfy `accepts`, for the result `ty`. -/
def all (accepts : Ty → Bool) (fault : TypeFault) (ty : Ty) (xs : List Operand) : Checked Ty where
  result := .ok (if xs.all fun x => !x.ty.isError && accepts x.ty then ty else .error)
  reports := xs.flatMap (complaint accepts fault)
  types := []

/-- Operands of an arithmetic operation. -/
def arithmetic (xs : List Operand) : Checked Ty := all Ty.isInt .arithmeticOperand .int xs

/-- Operands of a logical operation. -/
def logical (xs : List Operand) : Checked Ty := all Ty.isBool .logicalOperand .bool xs

end Operand

namespace Ty

/-- The kind of composite that both types are. -/
def bothComposite? (a b : Ty) : Option Composite :=
  match a.composite?, b.composite? with
  | some x, some y => if x = y then some x else none
  | _, _ => none

/-- What is wrong with the comparison of two types, none of them `error`. -/
def equalityFault? (a b : Ty) : Option TypeFault :=
  if a.isVoid && b.isVoid then some .equalityOfVoid
  else
    match bothComposite? a b with
    | some kind => some (.equality kind)
    | none => if a.compatible b then none else some .mismatch

/-- What is wrong with an assignment of `value` to `target`, none of them `error`. -/
def assignmentFault? (target value : Ty) : Option TypeFault :=
  match bothComposite? target value with
  | some kind => some (.assignment kind)
  | none => if target.compatible value then none else some .mismatch

/-- The result `ty` of an operation on `a` and `b`, unless `fault?` finds a fault. -/
def combine (fault? : Ty → Ty → Option TypeFault) (a b ty : Ty) (span : Span) : Checked Ty :=
  if a.isError || b.isError then return .error
  else
    match fault? a b with
    | some f => do
      Checked.report (f.report span)
      return .error
    | none => return ty

end Ty

/-- The type of an operation with one operand. -/
def UnaryOp.check : UnaryOp → Operand → Checked Ty
  | .negate, x => Operand.arithmetic [x]
  | .not, x => Operand.logical [x]

/-- The type of an operation with two operands; `span` is where a comparison of
operands that do not fit is reported. -/
def BinaryOp.check (op : BinaryOp) (left right : Operand) (span : Span) : Checked Ty :=
  match op with
  | .arith _ => Operand.arithmetic [left, right]
  | .logical _ => Operand.logical [left, right]
  | .order _ => Operand.all Ty.isInt .relationalOperand .bool [left, right]
  | .equality _ => Ty.combine Ty.equalityFault? left.ty right.ty .bool span

end FlatC
