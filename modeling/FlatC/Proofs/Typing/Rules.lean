import FlatC.Proofs.Scoping.Surroundings

/-!
# The rules of the type system

`HasType v e ty`: in the surroundings `v`, the expression `e` has the type `ty`. The type of a
name is that of the declaration that it stands for, and two types are the same if they are
printed alike. `StmtTyped` and `Program.WellTyped` are the rules for statements and programs.

The rules say nothing about how faults are found or reported, and no rule gives the type `error`.
-/

namespace FlatC

namespace Ty

/-- Functions, struct names and structs are no values of one word. -/
inductive IsComposite : Ty → Prop where
  | fn {params : List Ty} {ret : Ty} : IsComposite (.fn params ret)
  | structDef {x : String} : IsComposite (.structDef x)
  | struct {x : String} : IsComposite (.struct x)

/-- Both types are composite, of one kind. -/
inductive BothComposite : Ty → Ty → Prop where
  | fn {params params' : List Ty} {ret ret' : Ty} :
      BothComposite (.fn params ret) (.fn params' ret')
  | structDef {x y : String} : BothComposite (.structDef x) (.structDef y)
  | struct {x y : String} : BothComposite (.struct x) (.struct y)

/-- Both types are printed alike. -/
def Same (s t : Ty) : Prop := s.text = t.text

end Ty

/-- The type of what a declaration declares. -/
def Decl.ty : Decl → Ty
  | var d => .ofSpec d.type
  | struct d => .structDef d.name.name
  | fn f => .fn (f.params.map (.ofScalar ·.type)) (.ofScalar f.returns)

/-! ## Expressions -/

mutual

inductive HasType (v : Surroundings) : Expr → Ty → Prop where
  | int {node : Node} {value : Int} : HasType v (.int node value) .int
  | str {node : Node} {text : String} : HasType v (.str node text) .string
  | bool {node : Node} {value : Bool} : HasType v (.bool node value) .bool
  | place {q : Place} {d : Decl} (hq : v.Denotes q d) : HasType v (.place q) d.ty
  | assign {node : Node} {q : Place} {e : Expr} {d : Decl} {ty : Ty} (hq : v.Denotes q d)
      (he : HasType v e ty) (hkind : ¬ d.ty.BothComposite ty) (hsame : d.ty.Same ty) :
      HasType v (.assign node q e) d.ty
  | call {node : Node} {callee : Ident} {args : List Expr} {d : Decl} {params tys : List Ty}
      {ret : Ty} (hd : v.Means callee.name d) (hfn : d.ty = .fn params ret)
      (hargs : HasTypes v args tys) (hsame : List.Forall₂ Ty.Same tys params) :
      HasType v (.call node callee args) ret
  | negate {node : Node} {e : Expr} (he : HasType v e .int) :
      HasType v (.unary node .negate e) .int
  | not {node : Node} {e : Expr} (he : HasType v e .bool) : HasType v (.unary node .not e) .bool
  | arith {node : Node} {op : ArithOp} {l r : Expr} (hl : HasType v l .int)
      (hr : HasType v r .int) : HasType v (.binary node (.arith op) l r) .int
  | logical {node : Node} {op : Connective} {l r : Expr} (hl : HasType v l .bool)
      (hr : HasType v r .bool) : HasType v (.binary node (.logical op) l r) .bool
  | order {node : Node} {op : OrderOp} {l r : Expr} (hl : HasType v l .int)
      (hr : HasType v r .int) : HasType v (.binary node (.order op) l r) .bool
  | equality {node : Node} {op : EqOp} {l r : Expr} {s t : Ty} (hl : HasType v l s)
      (hr : HasType v r t) (hvoid : ¬ (s = .void ∧ t = .void)) (hkind : ¬ s.BothComposite t)
      (hsame : s.Same t) : HasType v (.binary node (.equality op) l r) .bool

inductive HasTypes (v : Surroundings) : List Expr → List Ty → Prop where
  | nil : HasTypes v [] []
  | cons {e : Expr} {es : List Expr} {ty : Ty} {tys : List Ty} (h : HasType v e ty)
      (hs : HasTypes v es tys) : HasTypes v (e :: es) (ty :: tys)

end

/-! ## Statements and programs -/

mutual

/-- The statement is well typed in a function that returns `ret`. -/
inductive StmtTyped (ret : Ty) : Surroundings → Stmt → Prop where
  | assign {v : Surroundings} {span : Span} {node : Node} {q : Place} {e : Expr} {ty : Ty}
      (h : HasType v (.assign node q e) ty) : StmtTyped ret v (.assign span node q e)
  | increment {v : Surroundings} {span : Span} {q : Place} (h : HasType v (.place q) .int) :
      StmtTyped ret v (.increment span q)
  | decrement {v : Surroundings} {span : Span} {q : Place} (h : HasType v (.place q) .int) :
      StmtTyped ret v (.decrement span q)
  | read {v : Surroundings} {span : Span} {q : Place} {ty : Ty} (h : HasType v (.place q) ty)
      (hkind : ¬ ty.IsComposite) : StmtTyped ret v (.read span q)
  | write {v : Surroundings} {span : Span} {e : Expr} {ty : Ty} (h : HasType v e ty)
      (hkind : ¬ ty.IsComposite) (hvoid : ty ≠ .void) : StmtTyped ret v (.write span e)
  | ifThen {v : Surroundings} {span : Span} {e : Expr} {b : Body} (he : HasType v e .bool)
      (hb : BodyTyped ret v b) : StmtTyped ret v (.ifThen span e b)
  | ifElse {v : Surroundings} {span : Span} {e : Expr} {b b' : Body} (he : HasType v e .bool)
      (hb : BodyTyped ret v b) (hb' : BodyTyped ret v b') : StmtTyped ret v (.ifElse span e b b')
  | whileLoop {v : Surroundings} {span : Span} {e : Expr} {b : Body} (he : HasType v e .bool)
      (hb : BodyTyped ret v b) : StmtTyped ret v (.whileLoop span e b)
  | call {v : Surroundings} {span : Span} {node : Node} {callee : Ident} {args : List Expr}
      {ty : Ty} (h : HasType v (.call node callee args) ty) :
      StmtTyped ret v (.call span node callee args)
  | ret {v : Surroundings} {span : Span} (hvoid : ret = .void) : StmtTyped ret v (.ret span none)
  | retValue {v : Surroundings} {span : Span} {e : Expr} {ty : Ty} (hvoid : ret ≠ .void)
      (he : HasType v e ty) (hsame : ty.Same ret) : StmtTyped ret v (.ret span (some e))

inductive BodyTyped (ret : Ty) : Surroundings → Body → Prop where
  | block {v : Surroundings} {ds : List VarDecl} {ss : List Stmt}
      (h : StmtsTyped ret (v.enter ds) ss) : BodyTyped ret v (.block ds ss)

inductive StmtsTyped (ret : Ty) : Surroundings → List Stmt → Prop where
  | nil {v : Surroundings} : StmtsTyped ret v []
  | cons {v : Surroundings} {s : Stmt} {ss : List Stmt} (h : StmtTyped ret v s)
      (hs : StmtsTyped ret v ss) : StmtsTyped ret v (s :: ss)

end

/-- A function that stands behind the declarations `before`. -/
def FnDecl.WellTyped (before : List Decl) (f : FnDecl) : Prop :=
  StmtsTyped (.ofScalar f.returns) (f.surroundings before) f.body.stmts

/-- **The functions of a program are well typed**, and one of them is `main`, without parameters. -/
structure Program.WellTyped (p : Program) : Prop where
  fns : ∀ before f after, p.decls = before ++ .fn f :: after → f.WellTyped before
  main : ∃ f, Decl.fn f ∈ p.decls ∧ f.name.name = "main" ∧ f.params = []

/-! ## What a type can be -/

theorem Decl.ty_ne_error (d : Decl) : d.ty ≠ .error := by
  cases d with
  | var d =>
    cases htype : d.type with
    | scalar s => simpa [Decl.ty, htype, Ty.ofSpec] using Ty.ofScalar_ne_error s
    | struct i => simp [Decl.ty, htype, Ty.ofSpec]
  | struct d => simp [Decl.ty]
  | fn f => simp [Decl.ty]

theorem Decl.fn_of_ty {d : Decl} {params : List Ty} {ret : Ty} (h : d.ty = .fn params ret) :
    ∃ f, d = .fn f ∧ params = f.params.map (.ofScalar ·.type) ∧ ret = .ofScalar f.returns := by
  cases d with
  | var d =>
    cases htype : d.type with
    | scalar s => cases s <;> simp [Decl.ty, htype, Ty.ofSpec, Ty.ofScalar] at h
    | struct i => simp [Decl.ty, htype, Ty.ofSpec] at h
  | struct d => simp [Decl.ty] at h
  | fn f =>
    obtain ⟨rfl, rfl⟩ := Ty.fn.inj h
    exact ⟨f, rfl, rfl, rfl⟩

/-- Nothing that has a type is wrong. -/
theorem HasType.ne_error {v : Surroundings} {e : Expr} {ty : Ty} (h : HasType v e ty) :
    ty ≠ .error := by
  cases h with
  | place | assign => exact Decl.ty_ne_error _
  | call _ hfn =>
    obtain ⟨f, -, -, rfl⟩ := Decl.fn_of_ty hfn
    exact Ty.ofScalar_ne_error _
  | int | str | bool | negate | not | arith | logical | order | equality => simp

theorem HasTypes.ne_error {v : Surroundings} {es : List Expr} {tys : List Ty}
    (h : HasTypes v es tys) : ∀ ty ∈ tys, ty ≠ .error := by
  induction tys generalizing es with
  | nil => simp
  | cons ty tys ih =>
    cases h with
    | cons he hes =>
      rw [List.forall_mem_cons]
      exact ⟨he.ne_error, ih hes⟩

/-- The parameters of a function have types. -/
theorem Decl.params_ne_error {d : Decl} {params : List Ty} {ret : Ty}
    (h : d.ty = .fn params ret) : ∀ ty ∈ params, ty ≠ .error := by
  obtain ⟨f, -, rfl, -⟩ := Decl.fn_of_ty h
  rw [List.forall_mem_map]
  exact fun x _ => Ty.ofScalar_ne_error x.type

end FlatC
