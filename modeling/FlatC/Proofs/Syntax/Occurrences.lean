import FlatC.Proofs.Syntax.Numbering

/-!
# The ids of names and the ids of expressions

The ids of a tree are those of its identifier occurrences (`nameIds`), under which links are noted,
and those of its expressions (`exprIds`), under which types are noted. Each id is one of the two
(`Program.count_ids`). Expressions come in the order in which they are checked, operands first.

Types, variable declarations and parameters hold names only, so for them `ids` will do.
-/

namespace FlatC

def Place.nameIds : Place → List NodeId
  | .var _ name => [name.id]
  | .field _ base name => base.nameIds ++ [name.id]

/-- A place has the places in front of its field names as parts. -/
def Place.exprIds : Place → List NodeId
  | .var node _ => [node.id]
  | .field node base _ => base.exprIds ++ [node.id]

mutual

def Expr.nameIds : Expr → List NodeId
  | .int .. | .str .. | .bool .. => []
  | .place p => p.nameIds
  | .assign _ target value => target.nameIds ++ value.nameIds
  | .call _ callee args => callee.id :: Expr.allNameIds args
  | .unary _ _ operand => operand.nameIds
  | .binary _ _ left right => left.nameIds ++ right.nameIds

def Expr.allNameIds : List Expr → List NodeId
  | [] => []
  | e :: es => e.nameIds ++ Expr.allNameIds es

end

mutual

def Expr.exprIds : Expr → List NodeId
  | .int node _ | .str node _ | .bool node _ => [node.id]
  | .place p => p.exprIds
  | .assign node target value => target.exprIds ++ value.exprIds ++ [node.id]
  | .call node _ args => Expr.allExprIds args ++ [node.id]
  | .unary node _ operand => operand.exprIds ++ [node.id]
  | .binary node _ left right => left.exprIds ++ right.exprIds ++ [node.id]

def Expr.allExprIds : List Expr → List NodeId
  | [] => []
  | e :: es => e.exprIds ++ Expr.allExprIds es

end

mutual

def Stmt.nameIds : Stmt → List NodeId
  | .assign _ _ target value => target.nameIds ++ value.nameIds
  | .increment _ target | .decrement _ target | .read _ target => target.nameIds
  | .write _ value => value.nameIds
  | .ifThen _ cond body => cond.nameIds ++ body.nameIds
  | .ifElse _ cond thenBody elseBody => cond.nameIds ++ thenBody.nameIds ++ elseBody.nameIds
  | .whileLoop _ cond body => cond.nameIds ++ body.nameIds
  | .call _ _ callee args => callee.id :: Expr.allNameIds args
  | .ret _ none => []
  | .ret _ (some value) => value.nameIds

def Body.nameIds : Body → List NodeId
  | .block decls stmts => decls.flatMap VarDecl.ids ++ Stmt.allNameIds stmts

def Stmt.allNameIds : List Stmt → List NodeId
  | [] => []
  | s :: ss => s.nameIds ++ Stmt.allNameIds ss

end

mutual

/-- An assignment and a call are expressions where they are statements, too. -/
def Stmt.exprIds : Stmt → List NodeId
  | .assign _ node target value => target.exprIds ++ value.exprIds ++ [node.id]
  | .increment _ target | .decrement _ target | .read _ target => target.exprIds
  | .write _ value => value.exprIds
  | .ifThen _ cond body => cond.exprIds ++ body.exprIds
  | .ifElse _ cond thenBody elseBody => cond.exprIds ++ thenBody.exprIds ++ elseBody.exprIds
  | .whileLoop _ cond body => cond.exprIds ++ body.exprIds
  | .call _ node _ args => Expr.allExprIds args ++ [node.id]
  | .ret _ none => []
  | .ret _ (some value) => value.exprIds

def Body.exprIds : Body → List NodeId
  | .block _ stmts => Stmt.allExprIds stmts

def Stmt.allExprIds : List Stmt → List NodeId
  | [] => []
  | s :: ss => s.exprIds ++ Stmt.allExprIds ss

end

def Decl.nameIds : Decl → List NodeId
  | .var d => d.ids
  | .struct d => d.name.id :: d.fields.flatMap VarDecl.ids
  | .fn d => d.name.id :: (d.params.flatMap Param.ids ++ d.body.nameIds)

def Decl.exprIds : Decl → List NodeId
  | .var _ | .struct _ => []
  | .fn d => d.body.exprIds

def Program.nameIds (p : Program) : List NodeId := p.decls.flatMap Decl.nameIds

def Program.exprIds (p : Program) : List NodeId := p.decls.flatMap Decl.exprIds

/-! ## Every id is one of the two -/

section

variable (i : NodeId)

theorem Place.count_ids (p : Place) : p.ids.count i = p.nameIds.count i + p.exprIds.count i := by
  induction p with
  | var => simp [ids, nameIds, exprIds, List.count_cons]; omega
  | field _ _ _ ih => simp [ids, nameIds, exprIds, List.count_cons, ih]; omega

mutual

theorem Expr.count_ids : ∀ e : Expr, e.ids.count i = e.nameIds.count i + e.exprIds.count i
  | .int .. | .str .. | .bool .. => by simp [ids, nameIds, exprIds]
  | .place p => p.count_ids i
  | .assign _ target value => by
    simp only [ids, nameIds, exprIds, List.count_append, target.count_ids i, value.count_ids]
    omega
  | .call _ callee args => by
    simp only [ids, nameIds, exprIds, List.count_append, List.count_cons, Expr.count_allIds args]
    omega
  | .unary _ _ operand => by
    simp only [ids, nameIds, exprIds, List.count_append, operand.count_ids]
    omega
  | .binary _ _ left right => by
    simp only [ids, nameIds, exprIds, List.count_append, left.count_ids, right.count_ids]
    omega

theorem Expr.count_allIds : ∀ es : List Expr,
    (allIds es).count i = (allNameIds es).count i + (allExprIds es).count i
  | [] => rfl
  | e :: es => by
    simp only [allIds, allNameIds, allExprIds, List.count_append, e.count_ids,
      Expr.count_allIds es]
    omega

end

mutual

theorem Stmt.count_ids : ∀ s : Stmt, s.ids.count i = s.nameIds.count i + s.exprIds.count i
  | .assign _ node target value => (Expr.assign node target value).count_ids i
  | .increment _ target | .decrement _ target | .read _ target => target.count_ids i
  | .write _ value => value.count_ids i
  | .ifThen _ cond body | .whileLoop _ cond body => by
    simp only [Stmt.ids, Stmt.nameIds, Stmt.exprIds, List.count_append, cond.count_ids i,
      body.count_ids]
    omega
  | .ifElse _ cond thenBody elseBody => by
    simp only [Stmt.ids, Stmt.nameIds, Stmt.exprIds, List.count_append, cond.count_ids i,
      thenBody.count_ids, elseBody.count_ids]
    omega
  | .call _ node callee args => (Expr.call node callee args).count_ids i
  | .ret _ none => rfl
  | .ret _ (some value) => value.count_ids i

theorem Body.count_ids : ∀ b : Body, b.ids.count i = b.nameIds.count i + b.exprIds.count i
  | .block decls stmts => by
    simp only [Body.ids, Body.nameIds, Body.exprIds, List.count_append,
      Stmt.count_allIds stmts]
    omega

theorem Stmt.count_allIds : ∀ ss : List Stmt,
    (Stmt.allIds ss).count i = (Stmt.allNameIds ss).count i + (Stmt.allExprIds ss).count i
  | [] => rfl
  | s :: ss => by
    simp only [Stmt.allIds, Stmt.allNameIds, Stmt.allExprIds, List.count_append, s.count_ids,
      Stmt.count_allIds ss]
    omega

end

theorem Decl.count_ids (d : Decl) : d.ids.count i = d.nameIds.count i + d.exprIds.count i := by
  cases d with
  | var | struct => rfl
  | fn d =>
    simp only [ids, nameIds, exprIds, List.count_append, List.count_cons, d.body.count_ids i]
    omega

theorem Decl.count_flatMap_ids (ds : List Decl) : (ds.flatMap ids).count i =
    (ds.flatMap nameIds).count i + (ds.flatMap exprIds).count i := by
  induction ds with
  | nil => rfl
  | cons d ds ih =>
    simp only [List.flatMap_cons, List.count_append, d.count_ids i, ih]
    omega

/-- **Every id of a program is that of a name or that of an expression**, as often as it comes. -/
theorem Program.count_ids (p : Program) :
    p.ids.count i = p.nameIds.count i + p.exprIds.count i :=
  Decl.count_flatMap_ids i p.decls

end

end FlatC
