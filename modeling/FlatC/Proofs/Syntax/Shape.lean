import FlatC.Tree.Basic

/-!
# Trees without their spans

The **shape** of a tree is the tree with all spans set to zero: its names, literals and
node ids, and how they are put together. Two trees that differ in spans alone have
the same shape.
-/

namespace FlatC

def Ident.shape (i : Ident) : Ident := { i with span := .zero }

def Node.shape (n : Node) : Node := { n with span := .zero }

def TypeSpec.shape : TypeSpec → TypeSpec
  | .scalar s => .scalar s
  | .struct name => .struct name.shape

def Place.shape : Place → Place
  | .var node name => .var node.shape name.shape
  | .field node base name => .field node.shape base.shape name.shape

mutual

def Expr.shape : Expr → Expr
  | .int node value => .int node.shape value
  | .str node text => .str node.shape text
  | .bool node value => .bool node.shape value
  | .place p => .place p.shape
  | .assign node target value => .assign node.shape target.shape value.shape
  | .call node callee args => .call node.shape callee.shape (Expr.shapes args)
  | .unary node op operand => .unary node.shape op operand.shape
  | .binary node op left right => .binary node.shape op left.shape right.shape

def Expr.shapes : List Expr → List Expr
  | [] => []
  | e :: es => e.shape :: Expr.shapes es

end

def VarDecl.shape (d : VarDecl) : VarDecl := ⟨d.type.shape, d.name.shape, .zero⟩

def Param.shape (p : Param) : Param := ⟨p.type, p.name.shape, .zero⟩

mutual

def Stmt.shape : Stmt → Stmt
  | .assign _ node target value => .assign .zero node.shape target.shape value.shape
  | .increment _ target => .increment .zero target.shape
  | .decrement _ target => .decrement .zero target.shape
  | .read _ target => .read .zero target.shape
  | .write _ value => .write .zero value.shape
  | .ifThen _ cond body => .ifThen .zero cond.shape body.shape
  | .ifElse _ cond thenBody elseBody => .ifElse .zero cond.shape thenBody.shape elseBody.shape
  | .whileLoop _ cond body => .whileLoop .zero cond.shape body.shape
  | .call _ node callee args => .call .zero node.shape callee.shape (Expr.shapes args)
  | .ret _ none => .ret .zero none
  | .ret _ (some value) => .ret .zero (some value.shape)

def Body.shape : Body → Body
  | .block decls stmts => .block (decls.map VarDecl.shape) (Stmt.shapes stmts)

def Stmt.shapes : List Stmt → List Stmt
  | [] => []
  | s :: ss => s.shape :: Stmt.shapes ss

end

def StructDecl.shape (d : StructDecl) : StructDecl :=
  ⟨d.name.shape, d.fields.map VarDecl.shape, .zero⟩

def FnDecl.shape (d : FnDecl) : FnDecl :=
  ⟨d.returns, d.name.shape, d.params.map Param.shape, d.body.shape, .zero⟩

def Decl.shape : Decl → Decl
  | .var d => .var d.shape
  | .struct d => .struct d.shape
  | .fn d => .fn d.shape

def Program.shape (p : Program) : Program := ⟨p.decls.map Decl.shape, p.nodeCount⟩

/-- An expression of the shape of a place is a place. -/
theorem Expr.eq_place_of_shape {e : Expr} {p : Place} (h : e.shape = .place p) :
    ∃ q, e = .place q ∧ q.shape = p := by
  cases e <;> simp_all [Expr.shape]

theorem Expr.place?_shape (e : Expr) : e.shape.place? = e.place?.map Place.shape := by
  cases e <;> rfl

/-- An expression of the shape of one that is no place is none. -/
theorem Expr.place?_eq_none_of_shape {e e' : Expr} (h : e'.shape = e.shape)
    (he : e.place? = none) : e'.place? = none := by
  have := congrArg Expr.place? h
  rwa [place?_shape, place?_shape, he, Option.map_none, Option.map_eq_none_iff] at this

end FlatC
