import FlatC.Span

/-!
# Tokens

A token is a literal, an identifier, a reserved word or a punctuation mark. Words
and marks are spelled in one way each (`Keyword.spelling`, `Mark.spelling`); the
lexer and the messages both read those spellings.
-/

namespace FlatC

/-- The reserved words. -/
inductive Keyword where
  | int
  | bool
  | void
  | struct
  | trueWord
  | falseWord
  | cin
  | cout
  | ifWord
  | elseWord
  | whileWord
  | returnWord
  deriving DecidableEq, Repr

namespace Keyword

def spelling : Keyword → String
  | int => "int"
  | bool => "bool"
  | void => "void"
  | struct => "struct"
  | trueWord => "true"
  | falseWord => "false"
  | cin => "cin"
  | cout => "cout"
  | ifWord => "if"
  | elseWord => "else"
  | whileWord => "while"
  | returnWord => "return"

/-- Every reserved word. -/
def all : List Keyword :=
  [int, bool, void, struct, trueWord, falseWord, cin, cout, ifWord, elseWord, whileWord, returnWord]

theorem mem_all (w : Keyword) : w ∈ all := by cases w <;> simp [all]

/-- The reserved word with a given spelling. -/
def ofSpelling? (s : String) : Option Keyword := all.find? (·.spelling == s)

end Keyword

/-- Punctuation and operator signs. -/
inductive Mark where
  | leftBrace
  | rightBrace
  | leftParen
  | rightParen
  | semicolon
  | comma
  | dot
  | shiftLeft
  | shiftRight
  | plusPlus
  | minusMinus
  | plus
  | minus
  | star
  | slash
  | bang
  | andAnd
  | orOr
  | equalEqual
  | bangEqual
  | less
  | greater
  | lessEqual
  | greaterEqual
  | equal
  deriving DecidableEq, Repr

namespace Mark

/-- The characters of a mark. -/
def chars : Mark → List Char
  | leftBrace => ['\x7b']
  | rightBrace => ['\x7d']
  | leftParen => ['(']
  | rightParen => [')']
  | semicolon => [';']
  | comma => [',']
  | dot => ['.']
  | shiftLeft => ['<', '<']
  | shiftRight => ['>', '>']
  | plusPlus => ['+', '+']
  | minusMinus => ['-', '-']
  | plus => ['+']
  | minus => ['-']
  | star => ['*']
  | slash => ['/']
  | bang => ['!']
  | andAnd => ['&', '&']
  | orOr => ['|', '|']
  | equalEqual => ['=', '=']
  | bangEqual => ['!', '=']
  | less => ['<']
  | greater => ['>']
  | lessEqual => ['<', '=']
  | greaterEqual => ['>', '=']
  | equal => ['=']

def spelling (m : Mark) : String := String.ofList m.chars

/-- Every mark, the longer ones first. -/
def all : List Mark :=
  [shiftLeft, shiftRight, plusPlus, minusMinus, andAnd, orOr, equalEqual, bangEqual, lessEqual,
    greaterEqual, leftBrace, rightBrace, leftParen, rightParen, semicolon, comma, dot, plus, minus,
    star, slash, bang, less, greater, equal]

theorem mem_all (m : Mark) : m ∈ all := by cases m <;> simp [all]

/-- The longest mark that a text starts with. -/
def longest? (cs : List Char) : Option Mark := all.find? (·.chars.isPrefixOf cs)

end Mark

/-- A unit of the language. -/
inductive Token where
  | int (value : Int)
  /-- A string literal, with its escapes as they are written. -/
  | str (text : String)
  /-- A string literal that is not closed on its line. -/
  | unterminated
  | ident (name : String)
  | word (w : Keyword)
  | mark (m : Mark)
  deriving DecidableEq, Repr

namespace Token

/-- What a token is called in a list of expectations. -/
def name : Token → String
  | int _ => "integer literal"
  | str _ => "string literal"
  | unterminated => "unterminated string"
  | ident _ => "identifier"
  | word w => "'" ++ w.spelling ++ "'"
  | mark m => "'" ++ m.spelling ++ "'"

/-- A token as messages show it: literals and identifiers by what they stand for. -/
def display : Token → String
  | int value => toString value
  | str text => "\"" ++ text ++ "\""
  | ident n => n
  | t => t.name

/-- A token names a type on its own. -/
def isTypeKeyword : Token → Bool
  | word .int | word .bool | word .void => true
  | _ => false

/-- Two tokens are alike if they differ at most in the value they carry. -/
def sameKind : Token → Token → Bool
  | int _, int _ => true
  | str _, str _ => true
  | unterminated, unterminated => true
  | ident _, ident _ => true
  | word a, word b => a == b
  | mark a, mark b => a == b
  | _, _ => false

end Token

/-- A token and where it stands. -/
structure Lexeme where
  token : Token
  span : Span
  deriving DecidableEq, Repr

end FlatC
