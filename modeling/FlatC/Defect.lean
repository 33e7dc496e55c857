import FlatC.Scope
import FlatC.Tree.Basic

/-!
# Defects

A stage relies on what the stages before it have recorded. A **defect** is what
it stops with if that is missing. A program that comes from a source text and
goes through the stages in order meets none, as long as numbers are exact: layout in
machine words can also stop because a number does not fit.
-/

namespace FlatC

/-- An operation on machine words. -/
inductive WordOp where
  | add
  | subtract
  | multiply
  | negate
  deriving DecidableEq, Repr

def WordOp.name : WordOp → String
  | add => "add"
  | subtract => "subtract"
  | multiply => "multiply"
  | negate => "negate"

inductive Defect where
  | unresolvedNode (id : NodeId)
  | unresolvedName (name : String)
  | untyped (id : NodeId)
  | unresolvedGlobal (name : String)
  | notAFunction (name : String)
  /-- There is no symbol of that number. -/
  | noSymbol (id : SymbolId)
  /-- A block ended that was not open. -/
  | noScope
  /-- A name could not be declared in a block. -/
  | scope (key : String) (cause : ScopeError)
  /-- A name could not be declared in a struct. -/
  | field (name : String) (cause : ScopeError)
  /-- A result does not fit into a machine word. -/
  | overflow (op : WordOp)
  deriving DecidableEq, Repr

def Defect.message : Defect → String
  | unresolvedNode id => "node #" ++ toString id ++ " was never resolved"
  | unresolvedName name => "identifier '" ++ name ++ "' was never resolved"
  | untyped id => "expression #" ++ toString id ++ " was never typed"
  | unresolvedGlobal name => "global '" ++ name ++ "' was never resolved"
  | notAFunction name => "'" ++ name ++ "' is not a resolved function"
  | noSymbol id => "symbol #" ++ toString id ++ " does not exist"
  | noScope => "scope stack underflow during name resolution"
  | scope key cause => "unexpected symbol table failure for '" ++ key ++ "': " ++ cause.message
  | field name cause => "unexpected field table failure for '" ++ name ++ "': " ++ cause.message
  | overflow op => "attempt to " ++ op.name ++ " with overflow"

end FlatC
