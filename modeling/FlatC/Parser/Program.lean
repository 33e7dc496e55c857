import FlatC.Parser.Statement

/-!
# Reading programs

A program is a list of declarations: structs, variables and functions. `struct`,
a name and a brace start a struct; everything else starts with a type, and an
opening parenthesis after the name makes it a function.
-/

namespace FlatC.Parser

/-- Reads a struct declaration behind the word `struct`, which stood at `start`. -/
def structDecl (start : Span) : Parser StructDecl := do
  let name ← identifier "Expected struct name"
  let _ ← expect (.mark .leftBrace) "Expected '\x7b' after struct name"
  let fields ← repeatWhile startsVarDecl varDecl
  if fields.isEmpty then
    fail .emptyStructBody "A struct must declare at least one field"
  let _ ← expect (.mark .rightBrace) "Expected '\x7d' after struct fields"
  let stop ← expect (.mark .semicolon) "Expected ';' after struct declaration"
  return ⟨name, fields, start.merge stop⟩

/-- Reads a parameter: a scalar type and a name. -/
def param : Parser Param := do
  let start ← look Cursor.here
  match ← acceptMap scalar? with
  | none => fail .expectedType "Expected parameter type int, bool or void"
  | some type =>
    let name ← identifier "Expected parameter name"
    return ⟨type, name, start.merge name.span⟩

/-- Reads the parameters of a function, up to the closing parenthesis. -/
def params : Parser (List Param) := do
  if ← look (·.check (.mark .rightParen)) then return []
  commaList param

/-- Reads a function behind its return type, which stood at `start`, and its name. -/
def fnDecl (returns : Scalar) (name : Ident) (start : Span) : Parser FnDecl := do
  let _ ← expect (.mark .leftParen) "Expected '(' after function name"
  let params ← params
  let _ ← expect (.mark .rightParen) "Expected ')' after parameters"
  let body ← body
  return ⟨returns, name, params, body, start.merge (← look Cursor.previousSpan)⟩

/-- The next tokens start a struct declaration. -/
def startsStructDecl (s : Cursor) : Bool :=
  match s.ahead? 0, s.ahead? 1, s.ahead? 2 with
  | some (.word .struct), some (.ident _), some (.mark .leftBrace) => true
  | _, _, _ => false

/-- Reads a declaration. -/
def decl : Parser Decl := do
  let start ← look Cursor.here
  if ← look startsStructDecl then
    let _ ← advance
    return .struct (← structDecl start)
  let type ← typeSpec
  let name ← identifier "Expected declaration name"
  if ← look (·.check (.mark .leftParen)) then
    match type with
    | .scalar returns => return .fn (← fnDecl returns name start)
    | .struct _ =>
      failWith fun _ =>
        { code := .expectedType
          message := "Functions must return int, bool or void"
          span := start }
  let stop ← expect (.mark .semicolon) "Expected ';' after variable declaration"
  return .var ⟨type, name, start.merge stop⟩

/-- **Reads all that is left as a program.** -/
def program : Parser Program := do
  let decls ← repeatWhile (fun _ => true) decl
  return ⟨decls, ← look Cursor.nextId⟩

end FlatC.Parser

namespace FlatC

/-- **The program that a list of tokens spells**, or the first thing that is wrong
with it. -/
def parse (tokens : List Lexeme) : Except Problem Program :=
  match Parser.program (.start tokens) with
  | .ok p _ => .ok p
  | .error e _ => .error e

end FlatC
