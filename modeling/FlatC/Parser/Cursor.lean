import FlatC.Token
import FlatC.Tree.Basic
import FlatC.Diagnostic.Report

/-!
# Where a parser stands

A **cursor** holds the tokens still to be read, the span of the token read last,
and the next free node id. A parsing operation moves the cursor forward; if it
fails it leaves the cursor where it stopped, so that a caller can look at it and
go on.

The steps in this file look at one token at most. `expect` and `identifier` are
the two that can fail.
-/

namespace FlatC

/-- The tokens ahead and what was handed out so far. -/
structure Cursor where
  /-- The span of the token before `rest`, if there is one. -/
  last : Option Span
  rest : List Lexeme
  nextId : NodeId
  deriving DecidableEq, Repr

/-- An operation that reads tokens. It moves the cursor also when it fails. -/
abbrev Parser := EStateM Problem Cursor

namespace Cursor

/-- The cursor in front of a list of tokens. -/
def start (tokens : List Lexeme) : Cursor := ⟨none, tokens, 0⟩

def atEnd (s : Cursor) : Bool := s.rest.isEmpty

def peek? (s : Cursor) : Option Token := s.rest.head?.map Lexeme.token

def peekSpan? (s : Cursor) : Option Span := s.rest.head?.map Lexeme.span

/-- The token `n` places ahead. -/
def ahead? (s : Cursor) (n : Nat) : Option Token := s.rest[n]?.map Lexeme.token

/-- The span of the token read last. Before the first token it is that token's. -/
def previousSpan (s : Cursor) : Span := s.last.getD (s.peekSpan?.getD .zero)

/-- Where a report points: at the next token, or at the last one if none is left. -/
def here (s : Cursor) : Span := s.peekSpan?.getD s.previousSpan

/-- The next token is of the kind of `t`. -/
def check (s : Cursor) (t : Token) : Bool := s.peek?.any (·.sameKind t)

/-- The cursor behind the next token. -/
def next (s : Cursor) : Cursor :=
  match s.rest with
  | [] => s
  | l :: rest => { s with last := some l.span, rest }

/-- A problem at the next token. -/
def problem (s : Cursor) (code : ErrorCode) (message : String) : Problem :=
  { code, message, span := s.here }

/-- The problem that something else was expected than what comes next. -/
def unexpected (s : Cursor) (message : String) : Problem :=
  match s.peek? with
  | some found => s.problem .unexpectedToken (message ++ ", found " ++ found.display)
  | none => s.problem .unexpectedEndOfFile (message ++ ", found end of file")

/-- As `unexpected`, where a name was expected. -/
def expectedIdent (s : Cursor) (message : String) : Problem :=
  match s.peek? with
  | some _ => { s.unexpected message with code := .expectedIdentifier }
  | none => s.unexpected message

@[simp] theorem rest_next (s : Cursor) : s.next.rest = s.rest.tail := by
  unfold next; cases h : s.rest <;> simp [h]

@[simp] theorem nextId_next (s : Cursor) : s.next.nextId = s.nextId := by
  unfold next; cases s.rest <;> rfl

end Cursor

namespace Parser

/-- Stops with a problem that depends on where the cursor stands. -/
def failWith {α : Type} (problem : Cursor → Problem) : Parser α := fun s => .error (problem s) s

/-- Stops at the next token. -/
def fail {α : Type} (code : ErrorCode) (message : String) : Parser α :=
  failWith (·.problem code message)

/-- Stops because something else was expected. -/
def unexpected {α : Type} (message : String) : Parser α := failWith (·.unexpected message)

/-- Looks at the cursor. -/
def look {α : Type} (f : Cursor → α) : Parser α := fun s => .ok (f s) s

/-- Reads the next token, if there is one. -/
def advance : Parser (Option Lexeme) := fun s => .ok s.rest.head? s.next

/-- Reads the next token if it is of the kind of `t`. -/
def accept (t : Token) : Parser Bool := fun s =>
  if s.check t then .ok true s.next else .ok false s

/-- Reads a token of the kind of `t`. -/
def expect (t : Token) (message : String) : Parser Span := fun s =>
  if s.check t then .ok s.here s.next else .error (s.unexpected message) s

/-- Hands out a node id. -/
def freshId : Parser NodeId := fun s => .ok s.nextId { s with nextId := s.nextId + 1 }

/-- Hands out the node of an expression at `span`. -/
def freshNode (span : Span) : Parser Node := do return ⟨← freshId, span⟩

/-- Reads a name. -/
def identifier (message : String) : Parser Ident := fun s =>
  match s.rest with
  | ⟨.ident name, span⟩ :: _ =>
    .ok ⟨s.nextId, name, span⟩ { s.next with nextId := s.nextId + 1 }
  | _ => .error (s.expectedIdent message) s

/-- Reads the next token if `f` finds something in it. -/
def acceptMap {α : Type} (f : Token → Option α) : Parser (Option α) := fun s =>
  match s.peek?.bind f with
  | some a => .ok (some a) s.next
  | none => .ok none s

/-! ## Repetition

A repetition takes a token in every round, so it ends within as many rounds as there
are tokens left. It recurses on that list of tokens, its `bound`. -/

/-- Runs a parser with the tokens that are left as its bound. -/
def bounded {α : Type} (p : List Lexeme → Parser α) : Parser α := fun s => p s.rest s

/-- Reads items for as long as the next token satisfies `more`, one for each token of
`bound` at most. -/
def repeatWithin {α : Type} (more : Token → Bool) (item : Parser α) :
    List Lexeme → Parser (List α)
  | [] => pure []
  | _ :: bound => do
    if ← look (·.peek?.any more) then
      let a ← item
      return a :: (← repeatWithin more item bound)
    else return []

/-- Reads items for as long as the next token satisfies `more`. -/
def repeatWhile {α : Type} (more : Token → Bool) (item : Parser α) : Parser (List α) :=
  bounded (repeatWithin more item)

/-- Reads items that each stand behind a comma, one for each token of `bound` at
most. -/
def moreItemsWithin {α : Type} (item : Parser α) : List Lexeme → Parser (List α)
  | [] => pure []
  | _ :: bound => do
    if ← accept (.mark .comma) then
      let a ← item
      return a :: (← moreItemsWithin item bound)
    else return []

/-- Reads one item or more, with commas between them. -/
def commaList {α : Type} (item : Parser α) : Parser (List α) := do
  let first ← item
  let others ← bounded (moreItemsWithin item)
  return first :: others

end Parser

end FlatC
