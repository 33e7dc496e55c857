import FlatC.Tree.Basic

/-!
# Trees with other names

`rename r` puts the name `r x` wherever a tree has the name `x`, declared or used. The node ids and
the spans stay, so what is noted about a tree can be compared with what is noted about the renamed
one.
-/

namespace FlatC

section

variable (r : String → String)

def Ident.rename (i : Ident) : Ident := { i with name := r i.name }

def TypeSpec.rename : TypeSpec → TypeSpec
  | .scalar s => .scalar s
  | .struct name => .struct (name.rename r)

def Place.rename : Place → Place
  | .var node name => .var node (name.rename r)
  | .field node base name => .field node base.rename (name.rename r)

mutual

def Expr.rename : Expr → Expr
  | .int node value => .int node value
  | .str node text => .str node text
  | .bool node value => .bool node value
  | .place q => .place (q.rename r)
  | .assign node target value => .assign node (target.rename r) value.rename
  | .call node callee args => .call node (callee.rename r) (Expr.renameAll args)
  | .unary node op operand => .unary node op operand.rename
  | .binary node op left right => .binary node op left.rename right.rename

def Expr.renameAll : List Expr → List Expr
  | [] => []
  | e :: es => e.rename :: Expr.renameAll es

end

def VarDecl.rename (d : VarDecl) : VarDecl := ⟨d.type.rename r, d.name.rename r, d.span⟩

def Param.rename (p : Param) : Param := { p with name := p.name.rename r }

mutual

def Stmt.rename : Stmt → Stmt
  | .assign span node target value => .assign span node (target.rename r) (value.rename r)
  | .increment span target => .increment span (target.rename r)
  | .decrement span target => .decrement span (target.rename r)
  | .read span target => .read span (target.rename r)
  | .write span value => .write span (value.rename r)
  | .ifThen span cond body => .ifThen span (cond.rename r) body.rename
  | .ifElse span cond thenBody elseBody =>
    .ifElse span (cond.rename r) thenBody.rename elseBody.rename
  | .whileLoop span cond body => .whileLoop span (cond.rename r) body.rename
  | .call span node callee args => .call span node (callee.rename r) (Expr.renameAll r args)
  | .ret span none => .ret span none
  | .ret span (some value) => .ret span (some (value.rename r))

def Body.rename : Body → Body
  | .block decls stmts => .block (decls.map (VarDecl.rename r)) (Stmt.renameAll stmts)

def Stmt.renameAll : List Stmt → List Stmt
  | [] => []
  | s :: ss => s.rename :: Stmt.renameAll ss

end

def StructDecl.rename (d : StructDecl) : StructDecl :=
  { d with name := d.name.rename r, fields := d.fields.map (VarDecl.rename r) }

def FnDecl.rename (d : FnDecl) : FnDecl :=
  { d with
    name := d.name.rename r
    params := d.params.map (Param.rename r)
    body := d.body.rename r }

def Decl.rename : Decl → Decl
  | .var d => .var (d.rename r)
  | .struct d => .struct (d.rename r)
  | .fn d => .fn (d.rename r)

/-- The program with every name `x` in it replaced by `r x`. -/
def Program.rename (p : Program) : Program := { p with decls := p.decls.map (Decl.rename r) }

end

/-! ## What stays -/

section

variable {r : String → String}

@[simp] theorem Place.node_rename (q : Place) : (q.rename r).node = q.node := by
  cases q <;> rfl

@[simp] theorem Place.root_rename (q : Place) : (q.rename r).root = q.root.rename r := by
  induction q with
  | var node name => rfl
  | field node base name ih => exact ih

theorem Expr.node_rename (e : Expr) : (e.rename r).node = e.node := by
  cases e with
  | place q => exact q.node_rename
  | int | str | bool | assign | call | unary | binary => rfl

@[simp] theorem Expr.id_rename (e : Expr) : (e.rename r).id = e.id :=
  congrArg Node.id e.node_rename

theorem Expr.firstIdent?_rename : ∀ e : Expr,
    (e.rename r).firstIdent? = e.firstIdent?.map (Ident.rename r)
  | .int .. | .str .. | .bool .. | .call .. => rfl
  | .place q | .assign _ q _ => congrArg some q.root_rename
  | .unary _ _ operand => firstIdent?_rename operand
  | .binary _ _ left _ => firstIdent?_rename left

@[simp] theorem Expr.reportSpan_rename (e : Expr) : (e.rename r).reportSpan = e.reportSpan := by
  unfold reportSpan
  rw [firstIdent?_rename]
  cases e.firstIdent? with
  | none => exact congrArg Node.span e.node_rename
  | some i => rfl

theorem Program.functions_rename (p : Program) :
    (p.rename r).functions = p.functions.map (FnDecl.rename r) := by
  have hfn : ∀ d : Decl, (d.rename r).fn? = d.fn?.map (FnDecl.rename r) := by
    intro d
    cases d <;> rfl
  unfold functions rename
  rw [List.filterMap_map, List.map_filterMap]
  exact congrFun (congrArg List.filterMap (funext hfn)) p.decls

end

/-! ## Renaming nothing -/

theorem Place.rename_self (q : Place) : q.rename (fun x => x) = q := by
  induction q with
  | var node name => rfl
  | field node base name ih => rw [Place.rename, ih]; rfl

mutual

theorem Expr.rename_self : ∀ e : Expr, e.rename (fun x => x) = e
  | .int .. | .str .. | .bool .. => rfl
  | .place q => congrArg Expr.place q.rename_self
  | .assign node target value => by
    rw [Expr.rename, target.rename_self, Expr.rename_self value]
  | .call node callee args => congrArg (Expr.call node callee) (Expr.renameAll_self args)
  | .unary node op operand => congrArg (Expr.unary node op) (Expr.rename_self operand)
  | .binary node op left right => by
    rw [Expr.rename, Expr.rename_self left, Expr.rename_self right]

theorem Expr.renameAll_self : ∀ es : List Expr, Expr.renameAll (fun x => x) es = es
  | [] => rfl
  | e :: es => by rw [Expr.renameAll, Expr.rename_self e, Expr.renameAll_self es]

end

theorem VarDecl.rename_self (d : VarDecl) : d.rename (fun x => x) = d := by
  obtain ⟨type, name, span⟩ := d
  cases type <;> rfl

theorem VarDecl.map_rename_self (ds : List VarDecl) : ds.map (VarDecl.rename fun x => x) = ds :=
  List.map_id'' VarDecl.rename_self ds

mutual

theorem Stmt.rename_self : ∀ s : Stmt, s.rename (fun x => x) = s
  | .assign _ _ target value => by rw [Stmt.rename, target.rename_self, value.rename_self]
  | .increment _ target | .decrement _ target | .read _ target => by
    rw [Stmt.rename, target.rename_self]
  | .write _ value => by rw [Stmt.rename, value.rename_self]
  | .ifThen _ cond body | .whileLoop _ cond body => by
    rw [Stmt.rename, cond.rename_self, Body.rename_self body]
  | .ifElse _ cond b b' => by
    rw [Stmt.rename, cond.rename_self, Body.rename_self b, Body.rename_self b']
  | .call span node callee args => congrArg (Stmt.call span node callee) (Expr.renameAll_self args)
  | .ret _ none => rfl
  | .ret _ (some value) => by rw [Stmt.rename, value.rename_self]

theorem Body.rename_self : ∀ b : Body, b.rename (fun x => x) = b
  | .block decls ss => by rw [Body.rename, VarDecl.map_rename_self decls, Stmt.renameAll_self ss]

theorem Stmt.renameAll_self : ∀ ss : List Stmt, Stmt.renameAll (fun x => x) ss = ss
  | [] => rfl
  | s :: ss => by rw [Stmt.renameAll, Stmt.rename_self s, Stmt.renameAll_self ss]

end

theorem FnDecl.rename_self (d : FnDecl) : d.rename (fun x => x) = d := by
  have hparams : d.params.map (Param.rename fun x => x) = d.params :=
    List.map_id'' (fun _ => rfl) d.params
  rw [FnDecl.rename, hparams, d.body.rename_self]
  rfl

theorem Decl.rename_self (d : Decl) : d.rename (fun x => x) = d := by
  cases d with
  | var d => exact congrArg Decl.var d.rename_self
  | struct d => rw [Decl.rename, StructDecl.rename, VarDecl.map_rename_self]; rfl
  | fn d => exact congrArg Decl.fn d.rename_self

end FlatC
