import Mathlib
import FlatC.Code.Program
import FlatC.Proofs.Yields

/-!
# Where the parts of a function stand

The code of a statement or an expression is put together from that of its parts. `Part.split` goes
down one level: it gives the parts in the order in which they are written, once the labels are made.
`Part.code_eq` says that this is how code is written.

`Part.At` goes down any number of levels. It tells the position of every statement and expression
in the code of a function, and the label number that its own code starts with; `Part.At.stands`
says that its code is found there.
-/

namespace FlatC.Code

/-- A stretch of code: that of a statement or an expression, or one that a statement or an
expression adds to its parts. -/
inductive Part where
  | own (g : Gen Code)
  | expr (e : Expr)
  | exprs (es : List Expr)
  | stmt (s : Stmt)
  | stmts (ss : List Stmt)

namespace Part

/-- Code that is known. -/
abbrev items (c : Code) : Part := own (pure c)

variable (o : Options) (b : Annotations) (exit : String)

def code : Part → Gen Code
  | own g => g
  | expr e => Code.expr o b e
  | exprs es => Code.exprs o b es
  | stmt s => Code.stmt o b exit s
  | stmts ss => Code.stmts o b exit ss

/-- The code of several parts, one behind the other. -/
def codes : List Part → Gen Code
  | [] => return []
  | x :: xs => do
    let c ← x.code o b exit
    let cs ← codes xs
    return c ++ cs

def splitExpr : Expr → Gen (List Part)
  | .assign _ target value =>
    return [expr value, own do return peek o .t0 ++ store .t0 (← location b target)]
  | .call _ callee args =>
    return [exprs args, items ([bare (.jal (Label.function callee.name))] ++ push o .v0)]
  | .unary _ op operand =>
    return [expr operand, items (pop o .t0 ++ [bare (sign op)] ++ push o .t0)]
  | .binary _ (.arith op) left right =>
    return [expr left, expr right, items (operate o (arithAlu op))]
  | .binary _ (.equality op) left right =>
    return [expr left, expr right, items (operate o (equalityAlu op))]
  | .binary _ (.order op) left right =>
    return [expr left, expr right, items (operate o (orderAlu op))]
  | .binary _ (.logical op) left right => do
    let stop ← Gen.label (connectiveStem op)
    return [expr left, items (peek o .t0 ++ [bare (.beq .t0 (decisive op) stop)] ++ discard o),
      expr right, items [.label stop]]
  | e => return [own (Code.expr o b e)]

def splitStmt : Stmt → Gen (List Part)
  | .assign _ node target value =>
    return [items (remark o "ASSIGN"), expr (.assign node target value), items (discard o)]
  | .write _ value => do
    let number ← printCall b value
    return [items (remark o "WRITE"), expr value,
      items (pop o .a0 ++ [bare (.li .v0 number), bare .syscall])]
  | .ifThen _ cond thenBody => do
    let stop ← Gen.label "if_end"
    return [items (remark o "IF"), expr cond, items (pop o .t0 ++ [bare (.beq .t0 0 stop)]),
      stmts thenBody.stmts, items [.label stop]]
  | .ifElse _ cond thenBody elseBody => do
    let other ← Gen.label "else"
    let stop ← Gen.label "if_end"
    return [items (remark o "IF"), expr cond, items (pop o .t0 ++ [bare (.beq .t0 0 other)]),
      stmts thenBody.stmts, items [bare (.b stop), .label other], stmts elseBody.stmts,
      items [.label stop]]
  | .whileLoop _ cond loopBody => do
    let start ← Gen.label "while"
    let stop ← Gen.label "while_end"
    return [items (remark o "WHILE" ++ [.label start]), expr cond,
      items (pop o .t0 ++ [bare (.beq .t0 0 stop)]), stmts loopBody.stmts,
      items [bare (.b start), .label stop]]
  | .call _ node callee args =>
    return [items (remark o "CALL"), expr (.call node callee args), items (discard o)]
  | .ret _ (some value) =>
    return [items (remark o "RETURN"), expr value, items (pop o .v0 ++ [bare (.b exit)])]
  | s => return [own (Code.stmt o b exit s)]

/-- The parts of a part, once its labels are made. -/
def split : Part → Gen (List Part)
  | own g => return [own g]
  | expr e => splitExpr o b e
  | exprs [] | stmts [] => return []
  | exprs (e :: es) => return [expr e, exprs es]
  | stmt s => splitStmt o b exit s
  | stmts (s :: ss) => return [stmt s, stmts ss]

variable {o b exit}

theorem body_eq (t : Body) : Code.body o b exit t = Code.stmts o b exit t.stmts := by
  cases t
  rfl

theorem codes_append (xs ys : List Part) : codes o b exit (xs ++ ys) = do
    let c ← codes o b exit xs
    let c' ← codes o b exit ys
    return c ++ c' := by
  induction xs with
  | nil => simp [codes]
  | cons x xs ih =>
    simp only [List.cons_append, codes, ih, bind_assoc, pure_bind, List.append_assoc]

theorem splitExpr_eq (e : Expr) :
    Code.expr o b e = splitExpr o b e >>= codes o b exit := by
  cases e with
  | int | str | bool | place => simp [splitExpr, codes, code]
  | assign | call | unary => simp [splitExpr, codes, code, Code.expr]
  | binary _ op left right => cases op <;> simp [splitExpr, codes, code, Code.expr]

theorem splitStmt_eq (s : Stmt) :
    Code.stmt o b exit s = splitStmt o b exit s >>= codes o b exit := by
  cases s with
  | increment | decrement | read => simp [splitStmt, codes, code]
  | assign | call => simp [splitStmt, codes, code, Code.stmt]
  | write => simp [splitStmt, codes, code, Code.stmt, Code.write]
  | ifThen | ifElse | whileLoop =>
    simp [splitStmt, codes, code, Code.stmt, Code.branchUnless, body_eq]
  | ret _ value =>
    cases value with
    | none => simp [splitStmt, codes, code]
    | some e => simp [splitStmt, codes, code, Code.stmt, Code.returnValue]

/-- **The code of a part is that of its parts.** -/
theorem code_eq (x : Part) : x.code o b exit = x.split o b exit >>= codes o b exit := by
  cases x with
  | own g => simp [split, codes, code]
  | expr e => exact splitExpr_eq e
  | stmt s => exact splitStmt_eq s
  | exprs es => cases es <;> simp [split, codes, code, Code.exprs]
  | stmts ss => cases ss <;> simp [split, codes, code, Code.stmts]

variable (o b exit)

/-- `At root n₀ x n pos`: in the code of `root`, made from the label number `n₀` on, the part `x`
stands at the position `pos`, and its labels have the numbers from `n` on. -/
inductive At (root : Part) (n₀ : Nat) : Part → Nat → Nat → Prop where
  | root : At root n₀ root n₀ 0
  | part {x y : Part} {before after : List Part} {n m k pos : Nat} {c : Code}
      (hx : At root n₀ x n pos) (hsplit : (x.split o b exit).run n = .ok (before ++ y :: after, m))
      (hbefore : (codes o b exit before).run m = .ok (c, k)) : At root n₀ y k (pos + c.length)

variable {o b exit}

/-- The code of a part of a part stands behind that of the parts in front of it. -/
theorem code_of_split {x y : Part} {before after : List Part} {n m m' : Nat} {cx : Code}
    (hx : (x.code o b exit).run n = .ok (cx, m'))
    (hsplit : (x.split o b exit).run n = .ok (before ++ y :: after, m)) :
    ∃ c k cy my post, (codes o b exit before).run m = .ok (c, k) ∧
      (y.code o b exit).run k = .ok (cy, my) ∧ cx = c ++ (cy ++ post) := by
  rw [code_eq, run_bind_ok] at hx
  obtain ⟨parts, l, hparts, hcodes⟩ := hx
  obtain ⟨rfl, rfl⟩ := Prod.mk.inj (Except.ok.inj (hparts.symm.trans hsplit))
  simp only [codes_append, codes, run_bind_ok, run_pure_ok] at hcodes
  obtain ⟨c, k, hc, _, _, ⟨cy, my, hy, post, ms, hpost, rfl, rfl⟩, rfl, rfl⟩ := hcodes
  exact ⟨c, k, cy, my, post, hc, hy, rfl⟩

/-- **Every part stands where it should.** -/
theorem At.stands {root x : Part} {n₀ n pos m₀ : Nat} {c₀ : Code} (h : At o b exit root n₀ x n pos)
    (hroot : (root.code o b exit).run n₀ = .ok (c₀, m₀)) :
    ∃ pre c post m, c₀ = pre ++ (c ++ post) ∧ pre.length = pos ∧
      (x.code o b exit).run n = .ok (c, m) := by
  induction h with
  | root => exact ⟨[], c₀, [], m₀, by simp, rfl, hroot⟩
  | @part x y before after n m k pos c _ hsplit hbefore ih =>
    obtain ⟨pre, cx, post, mx, rfl, rfl, hx⟩ := ih
    obtain ⟨c', k', cy, my, post', hc', hy, rfl⟩ := code_of_split hx hsplit
    obtain ⟨rfl, rfl⟩ := Prod.mk.inj (Except.ok.inj (hc'.symm.trans hbefore))
    exact ⟨pre ++ c', cy, post' ++ post, my, by simp, by simp, hy⟩

/-- No part is left out: the parts of a part that stands in the code stand there as well. -/
theorem At.exists_part {root x y : Part} (before : List Part) {after : List Part}
    {n₀ n m pos m₀ : Nat} {c₀ : Code} (h : At o b exit root n₀ x n pos)
    (hroot : (root.code o b exit).run n₀ = .ok (c₀, m₀))
    (hsplit : (x.split o b exit).run n = .ok (before ++ y :: after, m)) :
    ∃ k pos', At o b exit root n₀ y k pos' := by
  obtain ⟨-, cx, -, mx, -, -, hx⟩ := h.stands hroot
  obtain ⟨c, k, -, -, -, hc, -, -⟩ := code_of_split hx hsplit
  exact ⟨k, pos + c.length, .part h hsplit hc⟩

/-- What holds of the parts of each part that it holds of holds of all parts. -/
theorem At.induct {root : Part} {n₀ : Nat} {P : Part → Prop}
    (hsplit : ∀ x, P x → Preserves (fun _ => True) (x.split o b exit) fun ys => ∀ y ∈ ys, P y)
    (hroot : P root) {x : Part} {n pos : Nat} (h : At o b exit root n₀ x n pos) : P x := by
  induction h with
  | root => exact hroot
  | @part x y before after n m k pos c _ hx _ ih =>
    exact (hsplit x ih n _ m trivial hx).2 y (by simp)

end Part

end FlatC.Code
