import FlatC.Code.Basic

/-!
# Code for expressions

The code of an expression leaves its value on top of the stack and touches nothing
below. Operands are evaluated from left to right; `&&` and `||` leave the left
operand on the stack as the result if it decides.
-/

namespace FlatC.Code

/-- The operation on two words that computes an arithmetic operation. -/
def arithAlu : ArithOp → AluOp
  | .add => .add
  | .sub => .sub
  | .mul => .mul
  | .div => .div

def equalityAlu : EqOp → AluOp
  | .equal => .seq
  | .notEqual => .sne

def orderAlu : OrderOp → AluOp
  | .less => .slt
  | .greater => .sgt
  | .lessEqual => .sle
  | .greaterEqual => .sge

/-- The instruction of a sign, on `$t0`. -/
def sign : UnaryOp → Instr
  | .negate => .neg .t0 .t0
  | .not => .alu .seq .t0 .t0 (.imm 0)

/-- The word of the label where a connective ends. -/
def connectiveStem : Connective → String
  | .and => "and_end"
  | .or => "or_end"

/-- The value of the left operand that decides a connective. -/
def decisive : Connective → Int
  | .and => 0
  | .or => 1

variable (o : Options) (notes : Annotations)

/-- The symbol that a name is bound to. -/
def symbolOf (i : Ident) : Gen Symbol :=
  match notes.symbolOf? i.id with
  | some s => return s
  | none => throw (.unresolvedName i.name)

/-- Where a place is kept. -/
def location : Place → Gen Location
  | .var _ name => do
    let s ← symbolOf notes name
    return if s.isGlobal then .global (Label.global name.name) 0 else .frame s.offset
  | .field _ base name => do
    let s ← symbolOf notes name
    return (← location base).field s.fieldOffset

/-- Pushes the address of a string literal, which is put into the data section. -/
def stringLiteral (text : String) : Gen Code := do
  let label ← Gen.label "str"
  return [.data, .datum label (.asciiz (quoted text)), .text, bare (.la .t0 label)] ++ push o .t0

/-- Takes two operands from the stack and pushes the result of an operation. -/
def operate (op : AluOp) : Code :=
  pop o .t1 ++ pop o .t0 ++ [bare (.alu op .t0 .t0 (.reg .t1))] ++ push o .t0

mutual

/-- Pushes the value of an expression. -/
def expr : Expr → Gen Code
  | .int _ value => return immediate o value
  | .str _ text => stringLiteral o text
  | .bool _ value => return immediate o (if value then 1 else 0)
  | .place p => do return load .t0 (← location notes p) ++ push o .t0
  | .assign _ target value => do
    let v ← expr value
    let l ← location notes target
    return v ++ peek o .t0 ++ store .t0 l
  | .call _ callee args => do
    let xs ← exprs args
    return xs ++ [bare (.jal (Label.function callee.name))] ++ push o .v0
  | .unary _ op operand => do
    let x ← expr operand
    return x ++ pop o .t0 ++ [bare (sign op)] ++ push o .t0
  | .binary _ (.arith op) left right => do
    let l ← expr left
    let r ← expr right
    return l ++ r ++ operate o (arithAlu op)
  | .binary _ (.equality op) left right => do
    let l ← expr left
    let r ← expr right
    return l ++ r ++ operate o (equalityAlu op)
  | .binary _ (.order op) left right => do
    let l ← expr left
    let r ← expr right
    return l ++ r ++ operate o (orderAlu op)
  | .binary _ (.logical op) left right => do
    let stop ← Gen.label (connectiveStem op)
    let l ← expr left
    let r ← expr right
    return l ++ peek o .t0 ++ [bare (.beq .t0 (decisive op) stop)] ++ discard o ++ r ++
      [.label stop]

/-- Pushes the values of several expressions. -/
def exprs : List Expr → Gen Code
  | [] => return []
  | e :: es => do
    let x ← expr e
    let xs ← exprs es
    return x ++ xs

end

end FlatC.Code
