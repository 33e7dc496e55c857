import FlatC.Binding
import FlatC.Proofs.Syntax.Shape

/-!
# Binding does not look at spans

Symbols and reports carry spans, too; their **shapes** have them set to zero. A step **mirrors**
another one if it does to shapes what the other one does to what has them. Binding the shape of a
tree mirrors binding the tree (`Binding.program_mirrors`): spans are handed on, and no decision
depends on them.
-/

namespace FlatC

def Report.shape : Report → Report
  | .problem p => .problem { p with span := .zero }
  | .program code message => .program code message
  | .warning w => .warning { w with span := .zero }

def Symbol.shape (s : Symbol) : Symbol := { s with span := .zero }

def Annotations.shape (a : Annotations) : Annotations :=
  { a with symbols := a.symbols.map Symbol.shape }

namespace Annotations

variable {a : Annotations} {k : SymbolId}

@[simp] theorem symbol?_shape : a.shape.symbol? k = (a.symbol? k).map Symbol.shape := by
  simp [shape, symbol?]

@[simp] theorem linked?_shape {i : NodeId} : a.shape.linked? i = a.linked? i := rfl

@[simp] theorem typeOf?_shape {i : NodeId} : a.shape.typeOf? i = a.typeOf? i := rfl

@[simp] theorem symbolOf?_shape {i : NodeId} :
    a.shape.symbolOf? i = (a.symbolOf? i).map Symbol.shape := by
  unfold symbolOf?
  rw [linked?_shape]
  cases a.linked? i with
  | none => rfl
  | some k => exact symbol?_shape

@[simp] theorem shape_empty : empty.shape = empty := by
  simp [shape, empty]

theorem shape_update {f : Symbol → Symbol} (hf : ∀ s : Symbol, (f s).shape = f s.shape) :
    (a.update k f).shape = a.shape.update k f := by
  simp [update, shape, map_modify a.symbols k hf]

end Annotations

/-! ## Steps on shapes -/

section Mirrors

variable {σ ε α β : Type} {shape : σ → σ} {g : α → α} {h : β → β}

/-- The step `y` does to shapes what `x` does to what has them; `g` is the shape of the result. -/
def Mirrors (shape : σ → σ) (g : α → α) (x y : StateT σ (Except ε) α) : Prop :=
  ∀ s, y.run (shape s) = (x.run s).map fun r => (g r.1, shape r.2)

namespace Mirrors

variable {x y : StateT σ (Except ε) α} {f f' : α → StateT σ (Except ε) β}

theorem bind (hx : Mirrors shape g x y) (hf : ∀ a, Mirrors shape h (f a) (f' (g a))) :
    Mirrors shape h (x >>= f) (y >>= f') := by
  intro s
  rw [StateT.run_bind, StateT.run_bind, hx s]
  cases x.run s with
  | error e => rfl
  | ok r => exact hf r.1 r.2

theorem pure {a b : α} (h : b = g a) :
    Mirrors shape g (pure a : StateT σ (Except ε) α) (pure b) := by
  intro s
  rw [h]
  rfl

theorem throw {e : ε} :
    Mirrors shape g (throw e : StateT σ (Except ε) α) (throw e : StateT σ (Except ε) α) :=
  fun _ => rfl

theorem getBind {f f' : σ → StateT σ (Except ε) β}
    (hf : ∀ s, Mirrors shape h (f s) (f' (shape s))) : Mirrors shape h (get >>= f) (get >>= f') :=
  fun s => hf s s

theorem modify {u u' : σ → σ} (hu : ∀ s, u' (shape s) = shape (u s)) :
    Mirrors shape id (modify u : StateT σ (Except ε) PUnit) (modify u') := by
  intro s
  show Except.ok (PUnit.unit, u' (shape s)) = .ok (PUnit.unit, shape (u s))
  rw [hu s]

theorem foldlM {γ : Type} {k : γ → γ} {u u' : β → γ → StateT σ (Except ε) β}
    (hu : ∀ b c, Mirrors shape id (u b c) (u' b (k c))) (cs : List γ) (b : β) :
    Mirrors shape id (cs.foldlM u b) ((cs.map k).foldlM u' b) := by
  induction cs generalizing b with
  | nil => exact pure rfl
  | cons c cs ih =>
    rw [List.map_cons, List.foldlM_cons, List.foldlM_cons]
    exact bind (hu b c) fun b' => ih b'

end Mirrors

end Mirrors

namespace Binding

def State.shape (s : State) : State := ⟨s.notes.shape, s.reports.map Report.shape⟩

def Access.shape : Access → Access
  | .plain _ => .plain .zero
  | a => a

variable {t : ScopeTable}

theorem report_mirrors (f : NameFault) (span : Span) :
    Mirrors State.shape id (report f span) (report f .zero) := by
  refine .modify fun s => ?_
  simp [State.shape, NameFault.report, Report.shape]

theorem link_mirrors (node : NodeId) (k : SymbolId) :
    Mirrors State.shape id (link node k) (link node k) :=
  .modify fun _ => rfl

theorem symbol_mirrors (k : SymbolId) :
    Mirrors State.shape Symbol.shape (symbol k) (symbol k) := by
  refine .getBind fun s => ?_
  have hk : s.shape.notes.symbol? k = (s.notes.symbol? k).map Symbol.shape :=
    Annotations.symbol?_shape
  rw [hk]
  cases s.notes.symbol? k with
  | none => exact .throw
  | some sy => exact .pure rfl

theorem add_mirrors (sy : Symbol) : Mirrors State.shape id (add sy) (add sy.shape) := by
  intro s
  show Except.ok (s.shape.notes.symbols.size,
      (⟨(s.shape.notes.add sy.shape).2, s.shape.reports⟩ : State)) =
    .ok (s.notes.symbols.size, State.shape ⟨(s.notes.add sy).2, s.reports⟩)
  simp [State.shape, Annotations.shape, Annotations.add]

theorem setParams_mirrors (k? : Option SymbolId) (ps : List Param) :
    Mirrors State.shape id (setParams k? ps) (setParams k? (ps.map Param.shape)) := by
  cases k? with
  | none => exact .pure rfl
  | some k =>
    have htypes : (ps.map Param.shape).map (fun p => Ty.ofScalar p.type) =
        ps.map fun p => Ty.ofScalar p.type := by
      simp [Param.shape, Function.comp_def]
    have hshape : ∀ s : Symbol, (s.setParams (ps.map fun p => .ofScalar p.type)).shape =
        s.shape.setParams (ps.map fun p => .ofScalar p.type) := by
      intro s
      cases hk : s.kind <;> simp [Symbol.setParams, Symbol.shape, hk]
    refine .bind (symbol_mirrors k) fun _ => .modify fun s => ?_
    rw [htypes]
    exact congrArg (State.mk · _) (Annotations.shape_update hshape).symm

theorem declare_mirrors (key : String) (name : Ident) (k : SymbolId) :
    Mirrors State.shape id (declare t key name k) (declare t key name.shape k) := by
  unfold declare
  split
  · exact .throw
  · exact .bind (link_mirrors name.id k) fun _ => .pure rfl

/-! ## Declarations -/

theorem structOf?_mirrors (i : Ident) :
    Mirrors State.shape id (structOf? t i) (structOf? t i.shape) := by
  unfold structOf?
  have hname : i.shape.name = i.name := rfl
  rw [hname]
  split
  · exact .pure rfl
  · exact .bind (symbol_mirrors _) fun _ => .pure rfl

theorem ofType?_mirrors (d : VarDecl) :
    Mirrors State.shape (Option.map Symbol.shape) (ofType? t d) (ofType? t d.shape) := by
  obtain ⟨type, name, span⟩ := d
  unfold ofType?
  cases type with
  | scalar sc =>
    cases sc with
    | void => exact .bind (report_mirrors .declaredVoid name.span) fun _ => .pure rfl
    | int | bool => exact .pure rfl
  | struct i =>
    refine .bind (structOf?_mirrors i) fun k? => ?_
    cases k? with
    | none => exact .bind (report_mirrors .invalidStruct i.span) fun _ => .pure rfl
    | some k => exact .bind (link_mirrors i.id k) fun _ => .pure rfl

theorem symbolFor?_mirrors (taken : Bool) (d : VarDecl) :
    Mirrors State.shape (Option.map Symbol.shape) (symbolFor? t taken d)
      (symbolFor? t taken d.shape) := by
  refine .bind (ofType?_mirrors d) fun sy? => ?_
  cases taken with
  | true => exact .bind (report_mirrors .redeclared d.name.span) fun _ => .pure rfl
  | false => exact .pure rfl

theorem varDecl_mirrors (t : ScopeTable) (d : VarDecl) :
    Mirrors State.shape id (varDecl t d) (varDecl t d.shape) := by
  refine .bind (symbolFor?_mirrors _ d) fun sy? => ?_
  cases sy? with
  | none => exact .pure rfl
  | some sy => exact .bind (add_mirrors _) fun k => declare_mirrors _ d.name k

theorem fieldDecl_mirrors (fields : Scope) (d : VarDecl) :
    Mirrors State.shape id (fieldDecl t fields d) (fieldDecl t fields d.shape) := by
  refine .bind (symbolFor?_mirrors _ d) fun sy? => ?_
  cases sy? with
  | none => exact .pure rfl
  | some sy =>
    have hname : d.shape.name.name = d.name.name := rfl
    refine .bind (add_mirrors sy) fun k => ?_
    simp only [id_eq, hname]
    cases fields.declare d.name.name k with
    | error e => exact .throw
    | ok fields => exact .bind (link_mirrors d.name.id k) fun _ => .pure rfl

/-! ## Uses -/

theorem ident_mirrors (i : Ident) : Mirrors State.shape id (ident t i) (ident t i.shape) := by
  unfold ident
  have hname : i.shape.name = i.name := rfl
  rw [hname]
  split
  · exact .bind (link_mirrors i.id _) fun _ => .pure rfl
  · exact .bind (report_mirrors .undeclared i.span) fun _ => .pure rfl

theorem access_mirrors (k : SymbolId) (span : Span) :
    Mirrors State.shape Access.shape (access k span) (access k .zero) := by
  refine .bind (symbol_mirrors k) fun s => ?_
  have hdef : s.shape.definition? = s.definition? := rfl
  rw [hdef]
  cases s.definition? with
  | none => exact .pure rfl
  | some d => exact .pure rfl

theorem place_mirrors (p : Place) :
    Mirrors State.shape Access.shape (place t p) (place t p.shape) := by
  induction p with
  | var node name =>
    refine .bind (ident_mirrors name) fun k? => ?_
    cases k? with
    | none => exact .pure rfl
    | some k => exact access_mirrors k name.span
  | field node base name ih =>
    refine .bind ih fun acc => ?_
    cases acc with
    | bad => exact .pure rfl
    | plain span => exact .bind (report_mirrors .dotOfNonStruct span) fun _ => .pure rfl
    | struct definition =>
      have hfield : Mirrors State.shape id (field? definition name.name)
          (field? definition name.name) := .bind (symbol_mirrors definition) fun _ => .pure rfl
      refine .bind hfield fun k? => ?_
      cases k? with
      | none => exact .bind (report_mirrors .invalidField name.span) fun _ => .pure rfl
      | some k => exact .bind (link_mirrors name.id k) fun _ => access_mirrors k name.span

mutual

theorem expr_mirrors : ∀ e : Expr, Mirrors State.shape id (expr t e) (expr t e.shape)
  | .int .. | .str .. | .bool .. => .pure rfl
  | .place p => .bind (place_mirrors p) fun _ => .pure rfl
  | .assign _ target value => .bind (place_mirrors target) fun _ => expr_mirrors value
  | .call _ callee args => .bind (ident_mirrors callee) fun _ => exprs_mirrors args
  | .unary _ _ operand => expr_mirrors operand
  | .binary _ _ left right => .bind (expr_mirrors left) fun _ => expr_mirrors right

theorem exprs_mirrors : ∀ es : List Expr,
    Mirrors State.shape id (exprs t es) (exprs t (Expr.shapes es))
  | [] => .pure rfl
  | e :: es => .bind (expr_mirrors e) fun _ => exprs_mirrors es

end

/-! ## Statements and programs -/

theorem leave_mirrors (t : ScopeTable) : Mirrors State.shape id (leave t) (leave t) := by
  unfold leave
  split
  · exact .pure rfl
  · exact .throw

mutual

theorem stmt_mirrors : ∀ (s : Stmt) (t : ScopeTable),
    Mirrors State.shape id (stmt t s) (stmt t s.shape)
  | .assign _ node target value, _ =>
    .bind (expr_mirrors (.assign node target value)) fun _ => .pure rfl
  | .increment _ target, _ | .decrement _ target, _ | .read _ target, _ =>
    .bind (place_mirrors target) fun _ => .pure rfl
  | .write _ value, _ => .bind (expr_mirrors value) fun _ => .pure rfl
  | .ifThen _ cond b, _ | .whileLoop _ cond b, _ =>
    .bind (expr_mirrors cond) fun _ => .bind (body_mirrors b _) fun _ => leave_mirrors _
  | .ifElse _ cond b b', _ =>
    .bind (expr_mirrors cond) fun _ => .bind (body_mirrors b _) fun _ =>
      .bind (leave_mirrors _) fun _ => .bind (body_mirrors b' _) fun _ => leave_mirrors _
  | .call _ node callee args, _ =>
    .bind (expr_mirrors (.call node callee args)) fun _ => .pure rfl
  | .ret _ none, _ => .pure rfl
  | .ret _ (some value), _ => .bind (expr_mirrors value) fun _ => .pure rfl

theorem body_mirrors : ∀ (b : Body) (t : ScopeTable),
    Mirrors State.shape id (body t b) (body t b.shape)
  | .block decls ss, t =>
    .bind (.foldlM varDecl_mirrors decls t) fun _ => stmts_mirrors ss _

theorem stmts_mirrors : ∀ (ss : List Stmt) (t : ScopeTable),
    Mirrors State.shape id (stmts t ss) (stmts t (Stmt.shapes ss))
  | [], _ => .pure rfl
  | s :: ss, t => .bind (stmt_mirrors s t) fun _ => stmts_mirrors ss _

end

theorem fnName_mirrors (d : FnDecl) :
    Mirrors State.shape id (fnName t d) (fnName t d.shape) := by
  unfold fnName
  have hname : d.shape.name.name = d.name.name := rfl
  rw [hname]
  split
  · exact .bind (report_mirrors .redeclared d.name.span) fun _ => .pure rfl
  · exact .bind (add_mirrors _) fun k => .bind (declare_mirrors _ d.name k) fun _ => .pure rfl

theorem fnDecl_mirrors (t : ScopeTable) (d : FnDecl) :
    Mirrors State.shape id (fnDecl t d) (fnDecl t d.shape) := by
  have hparams : (d.params.map Param.shape).map Param.decl =
      (d.params.map Param.decl).map VarDecl.shape := by
    simp [Param.shape, Param.decl, VarDecl.shape, TypeSpec.shape, Function.comp_def]
  refine .bind (fnName_mirrors d) fun r => ?_
  show Mirrors State.shape id _ (do
    let t ← ((d.params.map Param.shape).map Param.decl).foldlM varDecl r.2.enter
    setParams r.1 (d.params.map Param.shape)
    leave (← body t d.body.shape))
  rw [hparams]
  refine .bind (.foldlM varDecl_mirrors _ r.2.enter) fun t => ?_
  refine .bind (setParams_mirrors r.1 d.params) fun _ => ?_
  exact .bind (body_mirrors d.body t) fun _ => leave_mirrors _

theorem structDecl_mirrors (t : ScopeTable) (d : StructDecl) :
    Mirrors State.shape id (structDecl t d) (structDecl t d.shape) := by
  have hfields : Mirrors State.shape id (d.fields.foldlM (fieldDecl t) .empty)
      (d.shape.fields.foldlM (fieldDecl t) .empty) := .foldlM fieldDecl_mirrors d.fields .empty
  have hname : d.shape.name.name = d.name.name := rfl
  unfold structDecl
  rw [hname]
  cases htaken : (t.lookupLocal (structKey d.name.name)).isSome with
  | true =>
    simp only [htaken, if_true]
    refine .bind (report_mirrors .redeclared d.name.span) fun _ => ?_
    exact .bind hfields fun _ => .pure rfl
  | false =>
    simp only [htaken, Bool.false_eq_true, if_false]
    refine .bind hfields fun fields => ?_
    exact .bind (add_mirrors _) fun k => declare_mirrors _ d.name k

theorem decl_mirrors (t : ScopeTable) (d : Decl) :
    Mirrors State.shape id (decl t d) (decl t d.shape) := by
  cases d with
  | var d => exact varDecl_mirrors t d
  | struct d => exact structDecl_mirrors t d
  | fn d => exact fnDecl_mirrors t d

theorem program_mirrors (p : Program) :
    Mirrors State.shape id (program p) (program p.shape) :=
  .foldlM decl_mirrors p.decls .initial

end Binding

/-- What binding a tree finds depends on its spans only in that it hands them on. -/
theorem bindNames_shape (p : Program) :
    bindNames p.shape .empty =
      (bindNames p .empty).map fun r => (r.1.shape, r.2.map Report.shape) := by
  have hrun := Binding.program_mirrors p ⟨.empty, []⟩
  have hstart : Binding.State.shape ⟨.empty, []⟩ = ⟨.empty, []⟩ := by simp [Binding.State.shape]
  rw [hstart] at hrun
  unfold bindNames
  rw [hrun]
  cases (Binding.program p).run ⟨.empty, []⟩ with
  | error d => rfl
  | ok r => rfl

end FlatC
