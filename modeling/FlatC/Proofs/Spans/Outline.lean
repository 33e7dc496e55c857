import FlatC.Parser.Program

/-!
# The outline of a tree

What a tree says about where its parts stand is its **outline**: the span of each node, where a
report about it points, and the parts. `Outline.All P` says that all these spans satisfy `P`.
-/

namespace FlatC

/-- Where the nodes of a tree stand. -/
inductive Outline where
  /-- `mark` is where a report about the node points. -/
  | node (span mark : Span) (parts : List Outline)

namespace Outline

def span : Outline → Span
  | node s _ _ => s

def mark : Outline → Span
  | node _ m _ => m

end Outline

/-! ## The outlines of trees -/

def Ident.outline (i : Ident) : Outline := .node i.span i.span []

def Place.outline : Place → Outline
  | .var node name => .node node.span name.span [name.outline]
  | .field node base name => .node node.span base.root.span [base.outline, name.outline]

mutual

def Expr.outline : Expr → Outline
  | .int node _ | .str node _ | .bool node _ => .node node.span node.span []
  | .place p => p.outline
  | .assign node target value =>
    .node node.span (assign node target value).reportSpan [target.outline, value.outline]
  | .call node callee args =>
    .node node.span (call node callee args).reportSpan (callee.outline :: Expr.outlines args)
  | .unary node op operand =>
    .node node.span (unary node op operand).reportSpan [operand.outline]
  | .binary node op left right =>
    .node node.span (binary node op left right).reportSpan [left.outline, right.outline]

def Expr.outlines : List Expr → List Outline
  | [] => []
  | e :: es => e.outline :: Expr.outlines es

end

/-- A type has a part if it names a struct. -/
def TypeSpec.outlines : TypeSpec → List Outline
  | .scalar _ => []
  | .struct name => [name.outline]

def VarDecl.outline (d : VarDecl) : Outline :=
  .node d.span d.span (d.type.outlines ++ [d.name.outline])

def Param.outline (p : Param) : Outline := .node p.span p.span [p.name.outline]

mutual

def Stmt.outline : Stmt → Outline
  | .assign span node target value => .node span span [(Expr.assign node target value).outline]
  | .increment span target | .decrement span target | .read span target =>
    .node span span [target.outline]
  | .write span value => .node span span [value.outline]
  | .ifThen span cond body | .whileLoop span cond body =>
    .node span span (cond.outline :: body.outlines)
  | .ifElse span cond thenBody elseBody =>
    .node span span (cond.outline :: (thenBody.outlines ++ elseBody.outlines))
  | .call span node callee args => .node span span [(Expr.call node callee args).outline]
  | .ret span none => .node span span []
  | .ret span (some value) => .node span span [value.outline]

/-- The declarations and the statements of a block, which has no span of its own. -/
def Body.outlines : Body → List Outline
  | .block decls ss => decls.map VarDecl.outline ++ Stmt.outlines ss

def Stmt.outlines : List Stmt → List Outline
  | [] => []
  | s :: ss => s.outline :: Stmt.outlines ss

end

def Decl.outline : Decl → Outline
  | .var d => d.outline
  | .struct d => .node d.span d.span (d.name.outline :: d.fields.map VarDecl.outline)
  | .fn d =>
    .node d.span d.span (d.name.outline :: (d.params.map Param.outline ++ d.body.outlines))

/-- The outlines of the declarations of a program, which has no span of its own. -/
def Program.outlines (p : Program) : List Outline := p.decls.map Decl.outline

theorem Program.mem_functions {p : Program} {g : FnDecl} :
    g ∈ p.functions ↔ Decl.fn g ∈ p.decls := by
  simp only [functions, List.mem_filterMap]
  constructor
  · rintro ⟨d, hd, hg⟩
    cases d with
    | fn f => exact Option.some.inj hg ▸ hd
    | var | struct => cases hg
  · exact fun h => ⟨_, h, rfl⟩

@[simp] theorem Ident.span_outline (i : Ident) : i.outline.span = i.span := rfl

@[simp] theorem Place.span_outline (p : Place) : p.outline.span = p.span := by
  cases p <;> rfl

@[simp] theorem Place.mark_outline (p : Place) : p.outline.mark = p.root.span := by
  cases p <;> rfl

@[simp] theorem Expr.span_outline (e : Expr) : e.outline.span = e.span := by
  cases e with
  | place p => exact p.span_outline
  | _ => rfl

/-- A report about an expression points where its outline says. -/
@[simp] theorem Expr.mark_outline (e : Expr) : e.outline.mark = e.reportSpan := by
  cases e with
  | place p => exact p.mark_outline
  | _ => rfl

theorem Expr.outline_of_place? {e : Expr} {q : Place} (h : e.place? = some q) :
    e.outline = q.outline := by
  cases e with
  | place q' =>
    obtain rfl := Option.some.inj h
    rfl
  | _ => cases h

/-- A report about an expression whose first name is in a part of it points where one about the part
does. -/
theorem Expr.reportSpan_of_part {e e' : Expr} (h : e.firstIdent? = e'.firstIdent?) :
    e.reportSpan = e'.outline.mark ∨ e.reportSpan = e.span := by
  rw [mark_outline, reportSpan, reportSpan, h]
  cases e'.firstIdent? with
  | none => exact .inr rfl
  | some name => exact .inl rfl

theorem Expr.outlines_eq (es : List Expr) : Expr.outlines es = es.map Expr.outline := by
  induction es with
  | nil => rfl
  | cons e es ih => rw [outlines, ih, List.map_cons]

theorem Stmt.outlines_eq (ss : List Stmt) : Stmt.outlines ss = ss.map Stmt.outline := by
  induction ss with
  | nil => rfl
  | cons s ss ih => rw [outlines, ih, List.map_cons]

/-! ## The spans in a tree -/

/-- `P` holds of the span of every node, and of where a report about it points. -/
inductive Outline.All (P : Span → Prop) : Outline → Prop where
  | node {span mark : Span} {parts : List Outline} (hspan : P span) (hmark : P mark)
      (hparts : ∀ o ∈ parts, o.All P) : All P (.node span mark parts)

section

variable {P : Span → Prop} {o : Outline} {os : List Outline}

namespace Outline.All

theorem span (h : o.All P) : P o.span := by
  cases h with
  | node hspan => exact hspan

theorem mark (h : o.All P) : P o.mark := by
  cases h with
  | node _ hmark => exact hmark

theorem parts {s m : Span} (h : (Outline.node s m os).All P) : ∀ o ∈ os, o.All P := by
  cases h with
  | node _ _ hparts => exact hparts

theorem root {q : Place} (h : q.outline.All P) : P q.root.span := by
  rw [← Place.mark_outline]
  exact h.mark

theorem report {e : Expr} (h : e.outline.All P) : P e.reportSpan := by
  rw [← Expr.mark_outline]
  exact h.mark

theorem of_forall (hP : ∀ s, P s) : ∀ o : Outline, o.All P
  | .node s m os => .node (hP s) (hP m) fun o _ => of_forall hP o

theorem name {d : VarDecl} (h : d.outline.All P) : P d.name.span :=
  (h.parts _ (List.mem_append_right _ List.mem_cons_self)).span

theorem struct {d : VarDecl} {name : Ident} (h : d.outline.All P)
    (hd : d.type = .struct name) : P name.span := by
  refine (h.parts name.outline (List.mem_append_left _ ?_)).span
  rw [hd]
  exact List.mem_cons_self

end Outline.All

end

end FlatC
