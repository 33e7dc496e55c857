/-!
# Error codes

Every error has a code, written `E` and three digits. The first digit tells the
stage that found it.
-/

namespace FlatC

/-- The stage an error belongs to. -/
inductive Category where
  | lexical
  | grammar
  | name
  | type
  deriving DecidableEq, Repr

/-- The name under which a category is shown. -/
def Category.label : Category → String
  | .lexical => "LexicalError"
  | .grammar => "SyntaxError"
  | .name => "NameError"
  | .type => "TypeError"

/-- The kinds of error. -/
inductive ErrorCode where
  | invalidCharacter
  | unterminatedString
  | invalidEscapeSequence
  | unexpectedToken
  | unexpectedEndOfFile
  | expectedExpression
  | expectedIdentifier
  | expectedType
  | invalidAssignmentTarget
  | nonAssociativeComparison
  | emptyStructBody
  | undeclaredIdentifier
  | multiplyDeclared
  | invalidStructType
  | invalidStructField
  | dotAccessOfNonStruct
  | nonFunctionDeclaredVoid
  | arithmeticOperand
  | logicalOperand
  | relationalOperand
  | equalityOperand
  | typeMismatch
  | invalidAssignment
  | notAFunction
  | wrongNumberOfArguments
  | argumentTypeMismatch
  | missingReturnValue
  | returnValueInVoidFunction
  | badReturnValue
  | illegalRead
  | illegalWrite
  | nonBoolCondition
  | noMainFunction
  deriving DecidableEq, Repr

namespace ErrorCode

def category : ErrorCode → Category
  | invalidCharacter | unterminatedString | invalidEscapeSequence => .lexical
  | unexpectedToken | unexpectedEndOfFile | expectedExpression | expectedIdentifier
  | expectedType | invalidAssignmentTarget | nonAssociativeComparison | emptyStructBody =>
    .grammar
  | undeclaredIdentifier | multiplyDeclared | invalidStructType | invalidStructField
  | dotAccessOfNonStruct | nonFunctionDeclaredVoid => .name
  | _ => .type

/-- The code as it is printed. -/
def text : ErrorCode → String
  | invalidCharacter => "E001"
  | unterminatedString => "E010"
  | invalidEscapeSequence => "E012"
  | unexpectedToken => "E100"
  | unexpectedEndOfFile => "E101"
  | expectedExpression => "E103"
  | expectedIdentifier => "E105"
  | expectedType => "E106"
  | invalidAssignmentTarget => "E109"
  | nonAssociativeComparison => "E111"
  | emptyStructBody => "E112"
  | undeclaredIdentifier => "E200"
  | multiplyDeclared => "E201"
  | invalidStructType => "E202"
  | invalidStructField => "E203"
  | dotAccessOfNonStruct => "E204"
  | nonFunctionDeclaredVoid => "E205"
  | arithmeticOperand => "E300"
  | logicalOperand => "E301"
  | relationalOperand => "E302"
  | equalityOperand => "E303"
  | typeMismatch => "E310"
  | invalidAssignment => "E311"
  | notAFunction => "E320"
  | wrongNumberOfArguments => "E321"
  | argumentTypeMismatch => "E322"
  | missingReturnValue => "E325"
  | returnValueInVoidFunction => "E326"
  | badReturnValue => "E327"
  | illegalRead => "E330"
  | illegalWrite => "E331"
  | nonBoolCondition => "E340"
  | noMainFunction => "E341"

end ErrorCode

/-- The kinds of warning. -/
inductive WarningCode where
  | integerLiteralTooLarge
  deriving DecidableEq, Repr

/-- The code as it is printed. -/
def WarningCode.text : WarningCode → String
  | .integerLiteralTooLarge => "W001"

end FlatC
