import FlatC.Span
import FlatC.Tree.Operator

/-!
# The tree of a program

Every identifier occurrence and every expression has a number of its own, its
**node id**, under which later stages record what they learn about it.

A **place** is a variable followed by any number of field names. Only a place can
be assigned to, read into or stepped, and the types say so; an expression that
is a place reads it.
-/

namespace FlatC

/-- The number of an identifier occurrence or an expression. -/
abbrev NodeId := Nat

/-- One occurrence of a name. -/
structure Ident where
  id : NodeId
  name : String
  span : Span
  deriving DecidableEq, Repr

/-- What every expression has: its number and where it stands. -/
structure Node where
  id : NodeId
  span : Span
  deriving DecidableEq, Repr

/-- The types without parts. -/
inductive Scalar where
  | int
  | bool
  | void
  deriving DecidableEq, Repr

/-- A type as it is written. -/
inductive TypeSpec where
  | scalar (s : Scalar)
  | struct (name : Ident)
  deriving DecidableEq, Repr

/-- A variable, or a field of a place. -/
inductive Place where
  | var (node : Node) (name : Ident)
  | field (node : Node) (base : Place) (name : Ident)
  deriving DecidableEq, Repr

inductive Expr where
  | int (node : Node) (value : Int)
  /-- A string literal, with its escapes as they are written. -/
  | str (node : Node) (text : String)
  | bool (node : Node) (value : Bool)
  | place (p : Place)
  | assign (node : Node) (target : Place) (value : Expr)
  | call (node : Node) (callee : Ident) (args : List Expr)
  | unary (node : Node) (op : UnaryOp) (operand : Expr)
  | binary (node : Node) (op : BinaryOp) (left right : Expr)
  deriving Repr

structure VarDecl where
  type : TypeSpec
  name : Ident
  span : Span
  deriving DecidableEq, Repr

/-- A formal parameter. -/
structure Param where
  type : Scalar
  name : Ident
  span : Span
  deriving DecidableEq, Repr

/-- A parameter declares a variable. -/
def Param.decl (p : Param) : VarDecl := ⟨.scalar p.type, p.name, p.span⟩

mutual

inductive Stmt where
  /-- `node` is the assignment itself, seen as an expression. -/
  | assign (span : Span) (node : Node) (target : Place) (value : Expr)
  | increment (span : Span) (target : Place)
  | decrement (span : Span) (target : Place)
  | read (span : Span) (target : Place)
  | write (span : Span) (value : Expr)
  | ifThen (span : Span) (cond : Expr) (body : Body)
  | ifElse (span : Span) (cond : Expr) (thenBody elseBody : Body)
  | whileLoop (span : Span) (cond : Expr) (body : Body)
  /-- `node` is the call itself, seen as an expression. -/
  | call (span : Span) (node : Node) (callee : Ident) (args : List Expr)
  | ret (span : Span) (value : Option Expr)
  deriving Repr

/-- A block: declarations, then statements. -/
inductive Body where
  | block (decls : List VarDecl) (stmts : List Stmt)
  deriving Repr

end

namespace Body

def decls : Body → List VarDecl
  | block ds _ => ds

def stmts : Body → List Stmt
  | block _ ss => ss

def isEmpty (b : Body) : Bool := b.decls.isEmpty && b.stmts.isEmpty

end Body

structure StructDecl where
  name : Ident
  fields : List VarDecl
  span : Span
  deriving Repr

structure FnDecl where
  returns : Scalar
  name : Ident
  params : List Param
  body : Body
  span : Span
  deriving Repr

/-- The function where a program starts. -/
def FnDecl.isMain (f : FnDecl) : Bool := f.name.name == "main"

inductive Decl where
  | var (d : VarDecl)
  | struct (d : StructDecl)
  | fn (d : FnDecl)
  deriving Repr

namespace Decl

def span : Decl → Span
  | var d => d.span
  | struct d => d.span
  | fn d => d.span

def name : Decl → Ident
  | var d => d.name
  | struct d => d.name
  | fn d => d.name

/-- The function that a declaration declares. -/
def fn? : Decl → Option FnDecl
  | fn d => some d
  | _ => none

end Decl

structure Program where
  decls : List Decl
  /-- The node ids of the program lie below this number. -/
  nodeCount : Nat
  deriving Repr

namespace Program

def empty : Program := ⟨[], 0⟩

def functions (p : Program) : List FnDecl := p.decls.filterMap Decl.fn?

/-- The first function named `main`. -/
def main? (p : Program) : Option FnDecl := p.functions.find? FnDecl.isMain

end Program

namespace Place

def node : Place → Node
  | var n _ => n
  | field n _ _ => n

def span (p : Place) : Span := p.node.span

/-- The variable that a place starts with. -/
def root : Place → Ident
  | var _ name => name
  | field _ base _ => base.root

end Place

namespace Expr

def node : Expr → Node
  | int n _ => n
  | str n _ => n
  | bool n _ => n
  | place p => p.node
  | assign n _ _ => n
  | call n _ _ => n
  | unary n _ _ => n
  | binary n _ _ _ => n

def id (e : Expr) : NodeId := e.node.id

def span (e : Expr) : Span := e.node.span

/-- The place that an expression is. -/
def place? : Expr → Option Place
  | place p => some p
  | _ => none

/-- The leftmost identifier, where a reader looks for the expression. -/
def firstIdent? : Expr → Option Ident
  | int .. | str .. | bool .. => none
  | place p => some p.root
  | assign _ target _ => some target.root
  | call _ callee _ => some callee
  | unary _ _ operand => operand.firstIdent?
  | binary _ _ left _ => left.firstIdent?

/-- Where a report about an expression points: at its leftmost identifier, if it
has one. -/
def reportSpan (e : Expr) : Span :=
  match e.firstIdent? with
  | some ident => ident.span
  | none => e.span

end Expr

end FlatC
