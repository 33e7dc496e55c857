import FlatC.Parser.Expression

/-!
# Reading types, variable declarations, statements and blocks

A block holds statements and statements hold blocks. As with expressions,
`bodyWithin bound` reads any block of no more tokens than `bound` has, with a smaller
bound for the blocks inside, each of which starts behind a token of the outer one.
-/

namespace FlatC.Parser

/-- The type that a reserved word names on its own. -/
def scalar? : Token → Option Scalar
  | .word .int => some .int
  | .word .bool => some .bool
  | .word .void => some .void
  | _ => none

/-- The next token starts a variable declaration. -/
def startsVarDecl (t : Token) : Bool := t.isTypeKeyword || t == .word .struct

/-- Reads a type. -/
def typeSpec : Parser TypeSpec := do
  match ← acceptMap scalar? with
  | some s => return .scalar s
  | none =>
    if ← accept (.word .struct) then
      return .struct (← identifier "Expected struct name after 'struct'")
    failWith fun s =>
      match s.peek? with
      | some found => s.problem .expectedType ("Expected a type, found " ++ found.display)
      | none => s.unexpected "Expected a type"

/-- Reads a variable declaration with its semicolon. -/
def varDecl : Parser VarDecl := do
  let start ← look Cursor.here
  let type ← typeSpec
  let name ← identifier "Expected variable name"
  let stop ← expect (.mark .semicolon) "Expected ';' after variable declaration"
  return ⟨type, name, start.merge stop⟩

/-- Reads the semicolon of a statement that began at `start`. -/
def finishStatement (start : Span) : Parser Span := do
  return start.merge (← expect (.mark .semicolon) "Expected ';' after statement")

/-- Turns an expression at the head of a statement into the statement. -/
def finishExpression (start : Span) (e : Expr) : Parser Stmt := do
  match e with
  | .assign node target value => return .assign (← finishStatement start) node target value
  | .call node callee args => return .call (← finishStatement start) node callee args
  | _ =>
    failWith fun _ =>
      { code := .unexpectedToken
        message := "Expected assignment, call, '++' or '--'"
        span := e.span }

/-- Reads an assignment, a step or a call. -/
def identifierStatement (start : Span) : Parser Stmt := do
  let e ← expression
  match e.place? with
  | some target =>
    if ← accept (.mark .plusPlus) then return .increment (← finishStatement start) target
    if ← accept (.mark .minusMinus) then return .decrement (← finishStatement start) target
    finishExpression start e
  | none => finishExpression start e

/-- Reads `cin >> place;`. -/
def readStatement (start : Span) : Parser Stmt := do
  let _ ← advance
  let _ ← expect (.mark .shiftRight) "Expected '>>' after 'cin'"
  let e ← expression
  match e.place? with
  | some target => return .read (← finishStatement start) target
  | none =>
    failWith fun _ =>
      { code := .invalidAssignmentTarget
        message := "'cin >>' needs a variable or field"
        span := e.span }

/-- Reads `cout << expression;`. -/
def writeStatement (start : Span) : Parser Stmt := do
  let _ ← advance
  let _ ← expect (.mark .shiftLeft) "Expected '<<' after 'cout'"
  let value ← expression
  return .write (← finishStatement start) value

/-- Reads `return;` or `return expression;`. -/
def returnStatement (start : Span) : Parser Stmt := do
  let _ ← advance
  if ← look (·.check (.mark .semicolon)) then
    return .ret (← finishStatement start) none
  let value ← expression
  return .ret (← finishStatement start) (some value)

/-- Reads a condition in parentheses, with `message` for a missing first one. -/
def condition (message : String) : Parser Expr := do
  let _ ← advance
  let _ ← expect (.mark .leftParen) message
  let cond ← expression
  let _ ← expect (.mark .rightParen) "Expected ')' after condition"
  return cond

section Nested

variable (nested : Parser Body)

def ifStatementOf (start : Span) : Parser Stmt := do
  let cond ← condition "Expected '(' after 'if'"
  let thenBody ← nested
  if ← accept (.word .elseWord) then
    let elseBody ← nested
    return .ifElse (start.merge (← look Cursor.previousSpan)) cond thenBody elseBody
  return .ifThen (start.merge (← look Cursor.previousSpan)) cond thenBody

def whileStatementOf (start : Span) : Parser Stmt := do
  let cond ← condition "Expected '(' after 'while'"
  let body ← nested
  return .whileLoop (start.merge (← look Cursor.previousSpan)) cond body

/-- Reads a statement, with `nested` for the blocks in it. -/
def statementOf : Parser Stmt := do
  let start ← look Cursor.here
  match ← look Cursor.peek? with
  | some (.ident _) => identifierStatement start
  | some (.word .cin) => readStatement start
  | some (.word .cout) => writeStatement start
  | some (.word .ifWord) => ifStatementOf nested start
  | some (.word .whileWord) => whileStatementOf nested start
  | some (.word .returnWord) => returnStatement start
  | _ => unexpected "Expected statement"

/-- Reads a block, with `nested` for the blocks in it. -/
def bodyOf : Parser Body := do
  let _ ← expect (.mark .leftBrace) "Expected '\x7b'"
  let decls ← repeatWhile startsVarDecl varDecl
  let stmts ← repeatWhile (!·.sameKind (.mark .rightBrace)) (statementOf nested)
  let _ ← expect (.mark .rightBrace) "Expected '\x7d'"
  return .block decls stmts

end Nested

/-- Reads a block of no more tokens than `bound` has. Where no token is left there is
none. -/
def bodyWithin : List Lexeme → Parser Body
  | [] => unexpected "Expected '\x7b'"
  | _ :: bound => bodyOf (bodyWithin bound)

/-- **Reads a block.** -/
def body : Parser Body := bounded bodyWithin

/-- **Reads a statement.** -/
def statement : Parser Stmt := bounded fun bound => statementOf (bodyWithin bound)

end FlatC.Parser
