import Mathlib
import FlatC.Code.Expression

/-!
# Words and characters

What programs and the machine agree on: the arithmetic of words, which has no result where 32
bits do not hold it, and the characters that a text with escapes stands for.
-/

namespace FlatC

/-! ## Arithmetic -/

/-- The number, if 32 bits hold it with its sign. -/
def word? (n : Int) : Option Int := if -2 ^ 31 ≤ n ∧ n < 2 ^ 31 then some n else none

/-- The result of an arithmetic operation. Division goes towards zero. -/
def ArithOp.eval : ArithOp → Int → Int → Option Int
  | add, x, y => word? (x + y)
  | sub, x, y => word? (x - y)
  | mul, x, y => word? (x * y)
  | div, x, y => if y = 0 then none else word? (x.tdiv y)

def OrderOp.holds : OrderOp → Int → Int → Bool
  | less, x, y => x < y
  | greater, x, y => y < x
  | lessEqual, x, y => x ≤ y
  | greaterEqual, x, y => y ≤ x

/-- The result of an equality, from whether the operands are the same. -/
def EqOp.holds : EqOp → Bool → Bool
  | equal, same => same
  | notEqual, same => !same

/-- The result of an operation on two words. A comparison gives one or zero. -/
def AluOp.eval : AluOp → Int → Int → Option Int
  | add, x, y => ArithOp.add.eval x y
  | sub, x, y => ArithOp.sub.eval x y
  | mul, x, y => ArithOp.mul.eval x y
  | div, x, y => ArithOp.div.eval x y
  | seq, x, y => some (x == y).toInt
  | sne, x, y => some (x != y).toInt
  | slt, x, y => some (OrderOp.less.holds x y).toInt
  | sgt, x, y => some (OrderOp.greater.holds x y).toInt
  | sle, x, y => some (OrderOp.lessEqual.holds x y).toInt
  | sge, x, y => some (OrderOp.greaterEqual.holds x y).toInt

namespace Code

theorem eval_arithAlu (op : ArithOp) (x y : Int) : (arithAlu op).eval x y = op.eval x y := by
  cases op <;> rfl

theorem eval_orderAlu (op : OrderOp) (x y : Int) :
    (orderAlu op).eval x y = some (op.holds x y).toInt := by
  cases op <;> rfl

theorem eval_equalityAlu (op : EqOp) (x y : Int) :
    (equalityAlu op).eval x y = some (op.holds (x == y)).toInt := by
  cases op <;> rfl

end Code

/-! ## Characters -/

/-- The characters that a text stands for. Behind a backslash, `escape` tells what a character
stands for; where it tells nothing, the backslash stands for itself. -/
def unescape (escape : Char → Option Char) : List Char → List Char
  | [] => []
  | [c] => [c]
  | c :: d :: cs =>
    if c = '\\' then
      match escape d with
      | some x => x :: unescape escape cs
      | none => c :: d :: unescape escape cs
    else c :: unescape escape (d :: cs)

/-- The escapes of the assembler. -/
def assemblerEscape : Char → Option Char
  | 'n' => some '\n'
  | 't' => some '\t'
  | '"' => some '"'
  | '\\' => some '\\'
  | _ => none

/-- The escapes of string literals. -/
def literalEscape (c : Char) : Option Char :=
  if c = '\x27' then some '\x27' else assemblerEscape c

/-- The text that a string literal stands for. -/
def literalText (text : String) : String := String.ofList (unescape literalEscape text.toList)

/-- The text that a text in quotes stands for in the notation of the assembler. -/
def quotedText (quoted : String) : String :=
  String.ofList (unescape assemblerEscape (quoted.toList.drop 1).dropLast)

theorem unescape_cons {escape : Char → Option Char} {c : Char} (h : c ≠ '\\') (cs : List Char) :
    unescape escape (c :: cs) = c :: unescape escape cs := by
  cases cs with
  | nil => rfl
  | cons d cs => rw [unescape, if_neg h]

/-- The assembler reads what a literal stands for. -/
theorem unescape_asciizBody (cs : List Char) :
    unescape assemblerEscape (Code.asciizBody cs) = unescape literalEscape cs := by
  induction cs using Code.asciizBody.induct with
  | case1 => rfl
  | case2 c => rfl
  | case3 cs ih =>
    have hquote : Code.asciizBody ('\\' :: '\x27' :: cs) = '\x27' :: Code.asciizBody cs := rfl
    rw [hquote, unescape_cons (by decide), ih]
    rfl
  | case4 d cs hd ih =>
    have hkept : Code.asciizBody ('\\' :: d :: cs) = '\\' :: d :: Code.asciizBody cs := by
      rw [Code.asciizBody, if_pos rfl, if_neg hd]
    rw [hkept, unescape, unescape, if_pos rfl, if_pos rfl, literalEscape, if_neg hd, ih]
  | case5 c d cs hc ih =>
    rw [Code.asciizBody, if_neg hc, unescape_cons hc, unescape_cons hc, ih]

theorem quotedText_quoted (text : String) : quotedText (Code.quoted text) = literalText text := by
  have hbody : ((Code.quoted text).toList.drop 1).dropLast = Code.asciizBody text.toList := by
    simp [Code.quoted]
  rw [quotedText, hbody, unescape_asciizBody]
  rfl

end FlatC
