/-!
# Operators

The binary operators come in four families, and each stage treats a family as
one: arithmetic, equality, order, and the two connectives that evaluate their
right operand only if they must.
-/

namespace FlatC

inductive UnaryOp where
  | negate
  | not
  deriving DecidableEq, Repr

def UnaryOp.spelling : UnaryOp → String
  | .negate => "-"
  | .not => "!"

inductive ArithOp where
  | add
  | sub
  | mul
  | div
  deriving DecidableEq, Repr

inductive EqOp where
  | equal
  | notEqual
  deriving DecidableEq, Repr

inductive OrderOp where
  | less
  | greater
  | lessEqual
  | greaterEqual
  deriving DecidableEq, Repr

/-- The connectives that stop at the left operand if it decides. -/
inductive Connective where
  | and
  | or
  deriving DecidableEq, Repr

inductive BinaryOp where
  | arith (op : ArithOp)
  | equality (op : EqOp)
  | order (op : OrderOp)
  | logical (op : Connective)
  deriving DecidableEq, Repr

namespace BinaryOp

def spelling : BinaryOp → String
  | arith .add => "+"
  | arith .sub => "-"
  | arith .mul => "*"
  | arith .div => "/"
  | equality .equal => "=="
  | equality .notEqual => "!="
  | order .less => "<"
  | order .greater => ">"
  | order .lessEqual => "<="
  | order .greaterEqual => ">="
  | logical .and => "&&"
  | logical .or => "||"

/-- Every binary operator. -/
def all : List BinaryOp :=
  [arith .add, arith .sub, arith .mul, arith .div, logical .and, logical .or, equality .equal,
    equality .notEqual, order .less, order .greater, order .lessEqual, order .greaterEqual]

def isArithmetic : BinaryOp → Bool
  | arith _ => true
  | _ => false

def isEquality : BinaryOp → Bool
  | equality _ => true
  | _ => false

def isRelational : BinaryOp → Bool
  | order _ => true
  | _ => false

def isLogical : BinaryOp → Bool
  | logical _ => true
  | _ => false

end BinaryOp

end FlatC
