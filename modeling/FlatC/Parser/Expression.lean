import FlatC.Parser.Cursor

/-!
# Reading expressions

The levels from loose to tight: assignment (to the right), `||`, `&&`, one
comparison at most, `+ -`, `* /` (all to the left), the signs `- !`, and the
primary expressions. Each level is a function of `nested`, the parser for an
expression inside another one: in parentheses, as an argument, or to the right of
an assignment. A nested expression starts behind a token of the outer one, so
nesting is bounded by the tokens that are left: `expressionWithin bound` reads any
expression of no more tokens than `bound` has.

An expression gets its node id when its last token has been read, so it comes
after everything inside it.
-/

namespace FlatC.Parser

/-- Builds a binary expression that covers its operands. -/
def binary (left : Expr) (op : BinaryOp) (right : Expr) : Parser Expr := do
  let node ← freshNode (left.span.merge right.span)
  return .binary node op left right

/-- Reads an operator and an operand as long as there is an operator, and joins them
to the left. -/
def chainWithin (operand : Parser Expr) (op? : Token → Option BinaryOp) (left : Expr) :
    List Lexeme → Parser Expr
  | [] => pure left
  | _ :: bound => do
    match ← acceptMap op? with
    | none => return left
    | some op =>
      let right ← operand
      chainWithin operand op? (← binary left op right) bound

/-- Reads operands with operators between them, joined to the left. -/
def chain (operand : Parser Expr) (op? : Token → Option BinaryOp) : Parser Expr := do
  let left ← operand
  bounded (chainWithin operand op? left)

def orOp? : Token → Option BinaryOp
  | .mark .orOr => some (.logical .or)
  | _ => none

def andOp? : Token → Option BinaryOp
  | .mark .andAnd => some (.logical .and)
  | _ => none

def comparisonOp? : Token → Option BinaryOp
  | .mark .equalEqual => some (.equality .equal)
  | .mark .bangEqual => some (.equality .notEqual)
  | .mark .less => some (.order .less)
  | .mark .greater => some (.order .greater)
  | .mark .lessEqual => some (.order .lessEqual)
  | .mark .greaterEqual => some (.order .greaterEqual)
  | _ => none

def additiveOp? : Token → Option BinaryOp
  | .mark .plus => some (.arith .add)
  | .mark .minus => some (.arith .sub)
  | _ => none

def multiplicativeOp? : Token → Option BinaryOp
  | .mark .star => some (.arith .mul)
  | .mark .slash => some (.arith .div)
  | _ => none

def signOp? : Token → Option UnaryOp
  | .mark .minus => some .negate
  | .mark .bang => some .not
  | _ => none

/-- Reads the field names behind a place. -/
def fieldsWithin (base : Place) : List Lexeme → Parser Place
  | [] => pure base
  | _ :: bound => do
    if ← accept (.mark .dot) then
      let name ← identifier "Expected field name after '.'"
      let node ← freshNode (base.span.merge name.span)
      fieldsWithin (.field node base name) bound
    else return base

/-- Reads the field names behind a place. -/
def fields (base : Place) : Parser Place := bounded (fieldsWithin base)

section Levels

variable (nested : Parser Expr)

/-- Reads the arguments of a call, up to the closing parenthesis. -/
def argumentsOf : Parser (List Expr) := do
  if ← look (·.check (.mark .rightParen)) then return []
  commaList nested

/-- Reads a call or a place. -/
def identifierExprOf : Parser Expr := do
  let name ← identifier "Expected identifier"
  if ← accept (.mark .leftParen) then
    let args ← argumentsOf nested
    let stop ← expect (.mark .rightParen) "Expected ')' after arguments"
    return .call (← freshNode (name.span.merge stop)) name args
  let node ← freshNode name.span
  return .place (← fields (.var node name))

/-- Reads a token as an expression of its own. -/
def literal (make : Node → Expr) : Parser Expr := do
  let span ← look Cursor.here
  let _ ← advance
  return make (← freshNode span)

def primaryOf : Parser Expr := do
  match ← look Cursor.peek? with
  | some (.int value) => literal (.int · value)
  | some (.str text) => literal (.str · text)
  | some (.word .trueWord) => literal (.bool · true)
  | some (.word .falseWord) => literal (.bool · false)
  | some (.ident _) => identifierExprOf nested
  | some (.mark .leftParen) =>
    let _ ← advance
    let inner ← nested
    let _ ← expect (.mark .rightParen) "Expected ')' after expression"
    return inner
  | some _ => fail .expectedExpression "Expected expression"
  | none => unexpected "Expected expression"

/-- Reads signs and the primary expression behind them. -/
def unaryWithin : List Lexeme → Parser Expr
  | [] => primaryOf nested
  | _ :: bound => do
    let span ← look Cursor.here
    match ← acceptMap signOp? with
    | none => primaryOf nested
    | some op =>
      let operand ← unaryWithin bound
      return .unary (← freshNode (span.merge operand.span)) op operand

def unaryOf : Parser Expr := bounded (unaryWithin nested)

def multiplicativeOf : Parser Expr := chain (unaryOf nested) multiplicativeOp?

def additiveOf : Parser Expr := chain (multiplicativeOf nested) additiveOp?

/-- Reads two operands with a comparison between them, or one operand. -/
def comparisonOf : Parser Expr := do
  let left ← additiveOf nested
  match ← acceptMap comparisonOp? with
  | none => return left
  | some op =>
    let right ← additiveOf nested
    let e ← binary left op right
    if ← look (fun s => (s.peek?.bind comparisonOp?).isSome) then
      fail .nonAssociativeComparison "Comparison operators cannot be chained"
    return e

def conjunctionOf : Parser Expr := chain (comparisonOf nested) andOp?

def disjunctionOf : Parser Expr := chain (conjunctionOf nested) orOp?

/-- Reads an assignment, or an expression that is none. -/
def assignmentOf : Parser Expr := do
  let left ← disjunctionOf nested
  if ← look (·.check (.mark .equal)) then
    match left.place? with
    | none =>
      failWith fun _ =>
        { code := .invalidAssignmentTarget
          message := "Left side of '=' must be a variable or field"
          span := left.span }
    | some target =>
      let _ ← advance
      let value ← nested
      return .assign (← freshNode (target.span.merge value.span)) target value
  else return left

end Levels

/-- Reads an expression of no more tokens than `bound` has. Where no token is left
there is none. -/
def expressionWithin : List Lexeme → Parser Expr
  | [] => unexpected "Expected expression"
  | _ :: bound => assignmentOf (expressionWithin bound)

/-- **Reads an expression.** -/
def expression : Parser Expr := bounded expressionWithin

/-- Runs one level, with `expression` for what is nested in it. -/
def atLevel {α : Type} (level : Parser Expr → Parser α) : Parser α :=
  bounded fun bound => level (expressionWithin bound)

def arguments : Parser (List Expr) := atLevel argumentsOf

def identifierExpr : Parser Expr := atLevel identifierExprOf

def primary : Parser Expr := atLevel primaryOf

def unary : Parser Expr := atLevel unaryOf

def multiplicative : Parser Expr := atLevel multiplicativeOf

def additive : Parser Expr := atLevel additiveOf

def comparison : Parser Expr := atLevel comparisonOf

def conjunction : Parser Expr := atLevel conjunctionOf

def disjunction : Parser Expr := atLevel disjunctionOf

def assignment : Parser Expr := atLevel assignmentOf

end FlatC.Parser
