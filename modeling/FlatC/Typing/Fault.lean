import FlatC.Ty
import FlatC.Diagnostic.Report

/-!
# Type errors

What can be wrong with the types of a program. The types without a value of one
word, apart from `void`, are the **composite** ones; they can be neither
compared nor assigned, read or written as a whole.
-/

namespace FlatC

/-- The kinds of composite types. -/
inductive Composite where
  | function
  | structName
  | structVariable
  deriving DecidableEq, Repr

namespace Composite

/-- The name of a kind, with a capital letter. -/
def title : Composite → String
  | function => "Function"
  | structName => "Struct name"
  | structVariable => "Struct variable"

def singular : Composite → String
  | function => "a function"
  | structName => "a struct name"
  | structVariable => "a struct variable"

def plural : Composite → String
  | function => "functions"
  | structName => "struct names"
  | structVariable => "struct variables"

end Composite

/-- The kind of a composite type. -/
def Ty.composite? : Ty → Option Composite
  | .fn _ _ => some .function
  | .structDef _ => some .structName
  | .struct _ => some .structVariable
  | _ => none

/-- What can be wrong with a type. -/
inductive TypeFault where
  | arithmeticOperand
  | logicalOperand
  | relationalOperand
  | equalityOfVoid
  | equality (kind : Composite)
  | mismatch
  | assignment (kind : Composite)
  | callOfNonFunction
  | argumentCount
  | argumentType
  | missingReturnValue
  | returnValueInVoid
  | badReturnValue
  | read (kind : Composite)
  | write (kind : Composite)
  | writeVoid
  | condition
  | noMain
  deriving DecidableEq, Repr

namespace TypeFault

def code : TypeFault → ErrorCode
  | arithmeticOperand => .arithmeticOperand
  | logicalOperand => .logicalOperand
  | relationalOperand => .relationalOperand
  | equalityOfVoid | equality _ => .equalityOperand
  | mismatch => .typeMismatch
  | assignment _ => .invalidAssignment
  | callOfNonFunction => .notAFunction
  | argumentCount => .wrongNumberOfArguments
  | argumentType => .argumentTypeMismatch
  | missingReturnValue => .missingReturnValue
  | returnValueInVoid => .returnValueInVoidFunction
  | badReturnValue => .badReturnValue
  | read _ => .illegalRead
  | write _ | writeVoid => .illegalWrite
  | condition => .nonBoolCondition
  | noMain => .noMainFunction

def message : TypeFault → String
  | arithmeticOperand => "Arithmetic operator applied to non-numeric operand"
  | logicalOperand => "Logical operator applied to non-bool operand"
  | relationalOperand => "Relational operator applied to non-numeric operand"
  | equalityOfVoid => "Equality operator applied to void functions"
  | equality kind => "Equality operator applied to " ++ kind.plural
  | mismatch => "Type mismatch"
  | assignment kind => kind.title ++ " assignment"
  | callOfNonFunction => "Attempt to call a non-function"
  | argumentCount => "Function call with wrong number of args"
  | argumentType => "Type of actual does not match type of formal"
  | missingReturnValue => "Missing return value"
  | returnValueInVoid => "Return with a value in a void function"
  | badReturnValue => "Bad return value"
  | read kind => "Attempt to read " ++ kind.singular
  | write kind => "Attempt to write " ++ kind.singular
  | writeVoid => "Attempt to write void"
  | condition => "Non-bool expression used as a condition"
  | noMain => "No main function"

/-- A fault at a place in the source. -/
def report (f : TypeFault) (span : Span) : Report :=
  .problem { code := f.code, message := f.message, span }

/-- A fault of the program as a whole. -/
def ofProgram (f : TypeFault) : Report := .program f.code f.message

end TypeFault

end FlatC
