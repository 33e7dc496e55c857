import FlatC.Position
import FlatC.Token
import FlatC.Diagnostic.Report

/-!
# From text to tokens

The text is cut into **pieces**, each the longest one of its class that starts
where the piece before it ended: gaps (blanks and comments), tokens, and text
that is no token at all. The first character of a piece decides its class, but
for `/`, which starts a comment if another `/` follows.

* `piece` cuts one piece; `piece_append` says that nothing is lost, and
  `piece_text_ne_nil` that the cut moves on.
* `tokenize` collects the tokens of a whole text with the warnings about them,
  or the first thing that is wrong.
-/

namespace FlatC

namespace Lexer

/-- The blank characters between tokens. -/
def isBlank (c : Char) : Bool :=
  c == ' ' || c == '\t' || c == '\r' || c == '\n' || c == '\x0c'

/-- A character that can start a name. -/
def isLetter (c : Char) : Bool := c.isAlpha || c == '_'

/-- A character that can go on in a name. -/
def isWordChar (c : Char) : Bool := isLetter c || c.isDigit

/-- A character of a comment: all that stand on its line. -/
def inLine (c : Char) : Bool := c != '\n'

/-- The value of a run of decimal digits. -/
def decimal (cs : List Char) : Nat := cs.foldl (fun n c => 10 * n + (c.toNat - '0'.toNat)) 0

/-- The greatest value of an integer literal. -/
def maxInt : Nat := 2147483647

/-- The inside of a string literal and what follows it: up to a quote, the end of
the line, or a backslash with nothing on its line to escape. -/
def stringBody : List Char → List Char × List Char
  | [] => ([], [])
  | c :: cs =>
    if c == '"' || c == '\n' then ([], c :: cs)
    else if c == '\\' then
      match cs with
      | [] => ([], [c])
      | d :: ds =>
        if d == '\n' then ([], c :: d :: ds)
        else
          let (body, rest) := stringBody ds
          (c :: d :: body, rest)
    else
      let (body, rest) := stringBody cs
      (c :: body, rest)

/-- The inside of a string literal and the rest of the text make up the text. -/
theorem stringBody_append (cs : List Char) : (stringBody cs).1 ++ (stringBody cs).2 = cs := by
  fun_induction stringBody cs <;> simp_all

/-- The characters that may follow a backslash. -/
def isEscapable (c : Char) : Bool :=
  c == 'n' || c == 't' || c == '\x27' || c == '"' || c == '\\'

/-- The first character of a literal that a backslash must not stand before. -/
def badEscape? : List Char → Option Char
  | [] => none
  | '\\' :: c :: cs => if isEscapable c then badEscape? cs else some c
  | _ :: cs => badEscape? cs

/-- The classes of pieces. -/
inductive Class where
  | gap
  | int
  | str (body : List Char)
  | unterminated
  | word
  | mark (m : Mark)
  | illegal
  deriving DecidableEq, Repr

/-- A stretch of text of one class. -/
structure Piece where
  kind : Class
  text : List Char
  deriving DecidableEq, Repr

/-- Cuts `c` and the characters after it that belong to `p`. -/
def run (kind : Class) (p : Char → Bool) (c : Char) (cs : List Char) : Piece × List Char :=
  (⟨kind, c :: cs.takeWhile p⟩, cs.dropWhile p)

/-- Cuts a string literal behind its opening quote. -/
def stringPiece (cs : List Char) : Piece × List Char :=
  match stringBody cs with
  | (body, '"' :: rest) => (⟨.str body, '"' :: (body ++ ['"'])⟩, rest)
  | (body, rest) => (⟨.unterminated, '"' :: body⟩, rest)

/-- Cuts a mark, or one character that starts nothing. -/
def markPiece (c : Char) (cs : List Char) : Piece × List Char :=
  match Mark.longest? (c :: cs) with
  | some m => (⟨.mark m, m.chars⟩, (c :: cs).drop m.chars.length)
  | none => (⟨.illegal, [c]⟩, cs)

/-- Cuts the longest piece at the head of a text. -/
def piece (c : Char) (cs : List Char) : Piece × List Char :=
  if isBlank c then run .gap isBlank c cs
  else if c == '#' then run .gap inLine c cs
  else if c == '/' && cs.head? == some '/' then run .gap inLine c cs
  else if isLetter c then run .word isWordChar c cs
  else if c.isDigit then run .int Char.isDigit c cs
  else if c == '"' then stringPiece cs
  else markPiece c cs

theorem run_append (kind : Class) (p : Char → Bool) (c : Char) (cs : List Char) :
    (run kind p c cs).1.text ++ (run kind p c cs).2 = c :: cs := by
  simp [run, List.takeWhile_append_dropWhile]

theorem stringPiece_append (cs : List Char) :
    (stringPiece cs).1.text ++ (stringPiece cs).2 = '"' :: cs := by
  have h := stringBody_append cs
  unfold stringPiece
  split
  next body rest heq => rw [heq] at h; simp [← h]
  next body rest _ heq => rw [heq] at h; simp [← h]

theorem markPiece_append (c : Char) (cs : List Char) :
    (markPiece c cs).1.text ++ (markPiece c cs).2 = c :: cs := by
  unfold markPiece
  split
  next m h =>
    have := List.find?_some h
    rw [List.isPrefixOf_iff_prefix] at this
    obtain ⟨rest, hrest⟩ := this
    simp [← hrest]
  next => rfl

/-- A piece and the rest of the text make up the text. -/
theorem piece_append (c : Char) (cs : List Char) :
    (piece c cs).1.text ++ (piece c cs).2 = c :: cs := by
  unfold piece
  split; · exact run_append ..
  split; · exact run_append ..
  split; · exact run_append ..
  split; · exact run_append ..
  split; · exact run_append ..
  split
  next h => rw [beq_iff_eq] at h; rw [h]; exact stringPiece_append cs
  next => exact markPiece_append c cs

/-- No piece is empty. -/
theorem piece_text_ne_nil (c : Char) (cs : List Char) : (piece c cs).1.text ≠ [] := by
  have hmark : (markPiece c cs).1.text ≠ [] := by
    unfold markPiece
    split
    next m _ => cases m <;> simp [Mark.chars]
    next => simp
  have hstr : (stringPiece cs).1.text ≠ [] := by
    unfold stringPiece; split <;> simp
  unfold piece
  (repeat' split) <;> first | exact hmark | exact hstr | simp [run]

/-- Cutting a piece leaves less text. -/
theorem length_piece_rest_lt (c : Char) (cs : List Char) :
    (piece c cs).2.length < (c :: cs).length := by
  have h := congrArg List.length (piece_append c cs)
  have hne := List.length_pos_iff.2 (piece_text_ne_nil c cs)
  rw [List.length_append] at h
  omega

/-- What is wrong with a piece of text. -/
inductive Fault where
  | illegalCharacter (text : String)
  | unterminatedString (text : String)
  | badEscape (c : Char)
  deriving DecidableEq, Repr

namespace Fault

def code : Fault → ErrorCode
  | illegalCharacter _ => .invalidCharacter
  | unterminatedString _ => .unterminatedString
  | badEscape _ => .invalidEscapeSequence

def message : Fault → String
  | illegalCharacter text => "ignoring illegal character: " ++ text
  | unterminatedString text => "unterminated string literal ignored: " ++ text
  | badEscape c => "string literal with bad escaped character ignored: \\" ++ c.toString

/-- A fault at a place in the text. -/
def problem (f : Fault) (span : Span) : Problem := { code := f.code, message := f.message, span }

end Fault

/-- The token that a piece stands for: none for a gap. -/
def Piece.token? (p : Piece) : Except Fault (Option Token) :=
  match p.kind with
  | .gap => .ok none
  | .int => .ok (some (.int (min (decimal p.text) maxInt)))
  | .str body =>
    match badEscape? body with
    | some c => .error (.badEscape c)
    | none => .ok (some (.str (String.ofList body)))
  | .unterminated => .error (.unterminatedString (String.ofList p.text))
  | .word =>
    let s := String.ofList p.text
    match Keyword.ofSpelling? s with
    | some w => .ok (some (.word w))
    | none => .ok (some (.ident s))
  | .mark m => .ok (some (.mark m))
  | .illegal => .error (.illegalCharacter (String.ofList p.text))

/-- A piece is an integer literal above `maxInt`. -/
def Piece.tooLarge (p : Piece) : Bool :=
  match p.kind with
  | .int => decide (maxInt < decimal p.text)
  | _ => false

/-- The tokens of a text and the warnings about them. -/
structure Tokens where
  lexemes : List Lexeme
  warnings : List Warning
  deriving DecidableEq, Repr

/-- The warning about an integer literal at `span` above `maxInt`. -/
def tooLargeWarning (span : Span) : Warning :=
  ⟨.integerLiteralTooLarge, "integer literal too large; using max value", span⟩

/-- Puts the token of `p` at `span` in front of the tokens after it. -/
def Tokens.cons (p : Piece) (span : Span) (token? : Option Token) (ts : Tokens) : Tokens where
  lexemes := match token? with
    | some t => ⟨t, span⟩ :: ts.lexemes
    | none => ts.lexemes
  warnings := if p.tooLarge then tooLargeWarning span :: ts.warnings else ts.warnings

/-- The tokens of a text whose first byte has the offset `start`. -/
def tokenizeFrom (start : Nat) : List Char → Except Problem Tokens
  | [] => .ok ⟨[], []⟩
  | c :: cs =>
    let cut := piece c cs
    let span : Span := ⟨start, start + byteLength cut.1.text⟩
    match cut.1.token? with
    | .error f => .error (f.problem span)
    | .ok token? =>
      match tokenizeFrom span.stop cut.2 with
      | .error e => .error e
      | .ok ts => .ok (ts.cons cut.1 span token?)
  termination_by cs => cs.length
  decreasing_by exact length_piece_rest_lt c cs

end Lexer

/-- **The tokens of a source text**, with the warnings about them, or the first
thing that is no token. -/
def tokenize (source : String) : Except Problem Lexer.Tokens :=
  Lexer.tokenizeFrom 0 source.toList

end FlatC
