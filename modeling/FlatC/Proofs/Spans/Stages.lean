import FlatC.Layout
import FlatC.Typing.Program
import FlatC.Code.Program
import FlatC.Proofs.Spans.Binding

/-!
# The later stages do not look at spans

Checking hands spans on to its reports and layout to its symbols, and code has none. So the shapes
of a program and of its notes have the same types and places as these themselves, and the same
code (`checkTypes_shape`, `placeSymbols_shape`, `generate_shape`).
-/

namespace FlatC

/-! ## Names and places in shapes -/

@[simp] theorem Place.root_shape (p : Place) : p.shape.root = p.root.shape := by
  induction p with
  | var node name => rfl
  | field node base name ih => exact ih

@[simp] theorem Expr.id_shape (e : Expr) : e.shape.id = e.id := by
  cases e with
  | place p => cases p <;> rfl
  | int | str | bool | assign | call | unary | binary => rfl

theorem Expr.firstIdent?_shape : ∀ e : Expr, e.shape.firstIdent? = e.firstIdent?.map Ident.shape
  | .int .. | .str .. | .bool .. | .call .. => rfl
  | .place p | .assign _ p _ => congrArg some p.root_shape
  | .unary _ _ operand => firstIdent?_shape operand
  | .binary _ _ left _ => firstIdent?_shape left

@[simp] theorem Expr.reportSpan_shape (e : Expr) : e.shape.reportSpan = .zero := by
  have hspan : e.shape.span = .zero := by
    cases e with
    | place p => cases p <;> rfl
    | int | str | bool | assign | call | unary | binary => rfl
  unfold reportSpan
  rw [firstIdent?_shape]
  cases e.firstIdent? with
  | none => exact hspan
  | some i => rfl

/-! ## Checking -/

namespace Checked

variable {α β : Type} {g : α → α} {h : β → β} {x y : Checked α} {f f' : α → Checked β}

/-- The step `y` gives, reports and records what `x` does, without the spans; `g` is the shape of
the result. -/
structure Mirrors (g : α → α) (x y : Checked α) : Prop where
  result : y.result = x.result.map g
  reports : y.reports = x.reports.map Report.shape
  types : y.types = x.types

namespace Mirrors

theorem bind (hx : Mirrors g x y) (hf : ∀ a, Mirrors h (f a) (f' (g a))) :
    Mirrors h (x >>= f) (y >>= f') := by
  obtain ⟨result, reports, types⟩ := x
  obtain ⟨result', reports', types'⟩ := y
  obtain ⟨hresult, hreports, htypes⟩ := hx
  dsimp only at hresult hreports htypes
  subst hresult hreports htypes
  cases result with
  | error d => exact ⟨rfl, rfl, rfl⟩
  | ok a =>
    obtain ⟨hresult, hreports, htypes⟩ := hf a
    simp only [bind_eq, Except.map, andThen_ok]
    exact ⟨hresult, by simp [hreports], by simp [htypes]⟩

theorem pure {a b : α} (hb : b = g a) : Mirrors g (pure a : Checked α) (pure b) :=
  ⟨by rw [hb]; rfl, rfl, rfl⟩

theorem report (f : TypeFault) (span : Span) :
    Mirrors id (report (f.report span)) (report (f.report .zero)) :=
  ⟨rfl, rfl, rfl⟩

/-- A complaint, or none. -/
theorem complaint {c : Bool} (f : TypeFault) (span : Span) :
    Mirrors id (if c then Checked.report (f.report span) else Pure.pure ())
      (if c then Checked.report (f.report .zero) else Pure.pure ()) := by
  cases c with
  | true => exact report f span
  | false => exact pure rfl

end Mirrors

end Checked

def Operand.shape (x : Operand) : Operand := { x with span := .zero }

namespace Typing

variable (a : Annotations)

theorem all_mirrors (accepts : Ty → Bool) (fault : TypeFault) (ty : Ty) (xs : List Operand) :
    Checked.Mirrors id (Operand.all accepts fault ty xs)
      (Operand.all accepts fault ty (xs.map Operand.shape)) := by
  have hcomplaint : ∀ x : Operand, Operand.complaint accepts fault x.shape =
      (Operand.complaint accepts fault x).map Report.shape := by
    intro x
    unfold Operand.complaint
    have hty : x.shape.ty = x.ty := rfl
    rw [hty]
    split <;> rfl
  refine ⟨?_, ?_, rfl⟩
  · simp only [Operand.all, List.all_map, Except.map, id_eq]
    rfl
  · simp [Operand.all, List.flatMap_map, List.map_flatMap, hcomplaint]

theorem combine_mirrors (fault? : Ty → Ty → Option TypeFault) (t u ty : Ty) (span : Span) :
    Checked.Mirrors id (Ty.combine fault? t u ty span) (Ty.combine fault? t u ty .zero) := by
  unfold Ty.combine
  split
  · exact .pure rfl
  · split
    · exact .bind (.report _ span) fun _ => .pure rfl
    · exact .pure rfl

theorem unary_mirrors (op : UnaryOp) (x : Operand) :
    Checked.Mirrors id (op.check x) (op.check x.shape) := by
  cases op <;> exact all_mirrors _ _ _ [x]

theorem binary_mirrors (op : BinaryOp) (x y : Operand) (span : Span) :
    Checked.Mirrors id (op.check x y span) (op.check x.shape y.shape .zero) := by
  cases op with
  | arith | logical | order => exact all_mirrors _ _ _ [x, y]
  | equality => exact combine_mirrors _ _ _ _ span

theorem argumentReports_shape (xs : List Operand) (ps : List Ty) :
    argumentReports (xs.map Operand.shape) ps = (argumentReports xs ps).map Report.shape := by
  induction xs generalizing ps with
  | nil => rfl
  | cons x xs ih =>
    cases ps with
    | nil => rfl
    | cons p ps =>
      have hty : x.shape.ty = x.ty := rfl
      simp only [List.map_cons, argumentReports, List.map_append, ih, hty]
      congr 1
      split <;> rfl

theorem call_mirrors (callee : Ty) (span : Span) (args : List Operand) :
    Checked.Mirrors id (call callee span args) (call callee .zero (args.map Operand.shape)) := by
  unfold call
  split
  · rw [List.length_map]
    split
    · exact ⟨rfl, argumentReports_shape args _, rfl⟩
    · exact .bind (.report _ span) fun _ => .pure rfl
  · exact .bind (.report _ span) fun _ => .pure rfl

theorem recorded_mirrors (node : Node) (ty : Ty) :
    Checked.Mirrors id (recorded node ty) (recorded node.shape ty) :=
  ⟨rfl, rfl, rfl⟩

theorem ident_mirrors (i : Ident) : Checked.Mirrors id (ident a i) (ident a.shape i.shape) := by
  unfold ident
  have hsymbol : a.shape.symbolOf? i.shape.id = (a.symbolOf? i.id).map Symbol.shape :=
    Annotations.symbolOf?_shape
  rw [hsymbol]
  cases a.symbolOf? i.id with
  | none => exact ⟨rfl, rfl, rfl⟩
  | some s => exact .pure rfl

theorem place_mirrors (p : Place) : Checked.Mirrors id (place a p) (place a.shape p.shape) := by
  induction p with
  | var node name => exact .bind (ident_mirrors a name) fun _ => recorded_mirrors node _
  | field node base name ih =>
    exact .bind ih fun _ => .bind (ident_mirrors a name) fun _ => recorded_mirrors node _

mutual

theorem expr_mirrors : ∀ e : Expr, Checked.Mirrors id (expr a e) (expr a.shape e.shape)
  | .int node _ | .str node _ | .bool node _ => recorded_mirrors node _
  | .place p => place_mirrors a p
  | .assign node target value => by
    refine .bind (place_mirrors a target) fun t => .bind (expr_mirrors value) fun v => ?_
    rw [target.root_shape]
    exact .bind (combine_mirrors _ t v t _) fun _ => recorded_mirrors node _
  | .call node callee args =>
    .bind (operands_mirrors args) fun xs => .bind (ident_mirrors a callee) fun ty =>
      .bind (call_mirrors ty callee.span xs) fun _ => recorded_mirrors node _
  | .unary node op operand => by
    refine .bind (expr_mirrors operand) fun ty => ?_
    rw [operand.reportSpan_shape]
    exact .bind (unary_mirrors op ⟨ty, operand.reportSpan⟩) fun _ => recorded_mirrors node _
  | .binary node op left right => by
    have hspan : (Expr.binary node.shape op left.shape right.shape).reportSpan = .zero :=
      (Expr.binary node op left right).reportSpan_shape
    refine .bind (expr_mirrors left) fun l => .bind (expr_mirrors right) fun r => ?_
    rw [left.reportSpan_shape, right.reportSpan_shape, hspan]
    exact .bind (binary_mirrors op ⟨l, left.reportSpan⟩ ⟨r, right.reportSpan⟩ _) fun _ =>
      recorded_mirrors node _

theorem operands_mirrors : ∀ es : List Expr,
    Checked.Mirrors (List.map Operand.shape) (operands a es) (operands a.shape (Expr.shapes es))
  | [] => .pure rfl
  | e :: es =>
    .bind (expr_mirrors e) fun ty => .bind (operands_mirrors es) fun xs => .pure (by
      simp [Operand.shape])

end

theorem condition_mirrors (e : Expr) :
    Checked.Mirrors id (condition a e) (condition a.shape e.shape) := by
  refine .bind (expr_mirrors a e) fun ty => ?_
  rw [e.reportSpan_shape]
  exact .complaint _ _

theorem step_mirrors (p : Place) : Checked.Mirrors id (step a p) (step a.shape p.shape) := by
  refine .bind (place_mirrors a p) fun ty => ?_
  rw [p.root_shape]
  exact .bind (all_mirrors _ _ _ [⟨ty, p.root.span⟩]) fun _ => .pure rfl

theorem read_mirrors (p : Place) : Checked.Mirrors id (read a p) (read a.shape p.shape) := by
  refine .bind (place_mirrors a p) fun ty => ?_
  rw [p.root_shape, id_eq]
  cases ty.composite? with
  | some kind => exact .report _ _
  | none => exact .pure rfl

theorem write_mirrors (e : Expr) : Checked.Mirrors id (write a e) (write a.shape e.shape) := by
  refine .bind (expr_mirrors a e) fun ty => ?_
  rw [e.reportSpan_shape, id_eq]
  cases ty.composite? with
  | some kind => exact .report _ _
  | none => exact .complaint _ _

theorem ret_mirrors (expected : Ty) (e? : Option Expr) :
    Checked.Mirrors id (ret a expected e?) (ret a.shape expected (e?.map Expr.shape)) := by
  cases e? with
  | none =>
    unfold ret
    cases expected.isVoid <;> exact ⟨rfl, rfl, rfl⟩
  | some e =>
    refine .bind (expr_mirrors a e) fun ty => ?_
    rw [e.reportSpan_shape]
    cases expected.isVoid with
    | true => exact .report _ _
    | false => exact .complaint _ _

mutual

theorem stmt_mirrors (expected : Ty) : ∀ s : Stmt,
    Checked.Mirrors id (stmt a expected s) (stmt a.shape expected s.shape)
  | .assign _ node target value =>
    .bind (expr_mirrors a (.assign node target value)) fun _ => .pure rfl
  | .increment _ target | .decrement _ target => step_mirrors a target
  | .read _ target => read_mirrors a target
  | .write _ value => write_mirrors a value
  | .ifThen _ cond b | .whileLoop _ cond b =>
    .bind (condition_mirrors a cond) fun _ => body_mirrors expected b
  | .ifElse _ cond b b' =>
    .bind (condition_mirrors a cond) fun _ => .bind (body_mirrors expected b) fun _ =>
      body_mirrors expected b'
  | .call _ node callee args => .bind (expr_mirrors a (.call node callee args)) fun _ => .pure rfl
  | .ret _ none => ret_mirrors a expected none
  | .ret _ (some value) => ret_mirrors a expected (some value)

theorem body_mirrors (expected : Ty) : ∀ b : Body,
    Checked.Mirrors id (body a expected b) (body a.shape expected b.shape)
  | .block _ ss => stmts_mirrors expected ss

theorem stmts_mirrors (expected : Ty) : ∀ ss : List Stmt,
    Checked.Mirrors id (stmts a expected ss) (stmts a.shape expected (Stmt.shapes ss))
  | [] => .pure rfl
  | s :: ss => .bind (stmt_mirrors expected s) fun _ => stmts_mirrors expected ss

end

theorem functions_mirrors (fs : List FnDecl) :
    Checked.Mirrors id (functions a fs) (functions a.shape (fs.map FnDecl.shape)) := by
  induction fs with
  | nil => exact .pure rfl
  | cons f fs ih => exact .bind (body_mirrors a _ f.body) fun _ => ih

end Typing

theorem Program.functions_shape (p : Program) :
    p.shape.functions = p.functions.map FnDecl.shape := by
  obtain ⟨ds, n⟩ := p
  induction ds with
  | nil => rfl
  | cons d ds ih =>
    simp only [functions, shape, List.map_cons] at ih ⊢
    cases d with
    | var d => exact ih
    | struct d => exact ih
    | fn d => exact congrArg (d.shape :: ·) ih

theorem Program.main?_shape (p : Program) : p.shape.main? = p.main?.map FnDecl.shape := by
  rw [main?, main?, functions_shape, List.find?_map]
  rfl

theorem Typing.hasMain_shape (a : Annotations) (p : Program) :
    hasMain a.shape p.shape = hasMain a p := by
  unfold hasMain
  rw [p.main?_shape]
  cases p.main? with
  | none => rfl
  | some f =>
    have hsymbol : a.shape.symbolOf? f.shape.name.id = (a.symbolOf? f.name.id).map Symbol.shape :=
      Annotations.symbolOf?_shape
    simp only [Option.map_some, Option.any_some, hsymbol]
    cases a.symbolOf? f.name.id with
    | none => rfl
    | some s => rfl

theorem Typing.program_mirrors (a : Annotations) (p : Program) :
    Checked.Mirrors id (program a p) (program a.shape p.shape) := by
  unfold program
  rw [p.functions_shape, hasMain_shape]
  refine .bind (functions_mirrors a p.functions) fun _ => ?_
  cases hasMain a p <;> exact ⟨rfl, rfl, rfl⟩

theorem Annotations.shape_withTypes (a : Annotations) (ts : List (NodeId × Ty)) :
    (a.withTypes ts).shape = a.shape.withTypes ts := by
  induction ts generalizing a with
  | nil => rfl
  | cons t ts ih => exact ih (a.setType t.1 t.2)

theorem checkTypes_shape (p : Program) (a : Annotations) :
    checkTypes p.shape a.shape =
      ((checkTypes p a).1, (checkTypes p a).2.1.shape, (checkTypes p a).2.2.map Report.shape) := by
  obtain ⟨hresult, hreports, htypes⟩ := Typing.program_mirrors a p
  have hid : (Typing.program a p).result.map id = (Typing.program a p).result := by
    cases (Typing.program a p).result <;> rfl
  simp only [checkTypes, hresult, hid, hreports, htypes, Annotations.shape_withTypes]

/-! ## Layout -/

namespace Layout

theorem symbol_mirrors (k : SymbolId) :
    Mirrors Annotations.shape Symbol.shape (symbol k) (symbol k) := by
  refine .getBind fun a => ?_
  rw [Annotations.symbol?_shape]
  cases a.symbol? k with
  | none => exact .throw
  | some s => exact .pure rfl

theorem update_mirrors (k : SymbolId) {f : Symbol → Symbol}
    (hf : ∀ s : Symbol, (f s).shape = f s.shape) :
    Mirrors Annotations.shape id (update k f) (update k f) :=
  .bind (symbol_mirrors k) fun _ => .modify fun _ => (Annotations.shape_update hf).symm

theorem resolved_mirrors (i : Ident) :
    Mirrors Annotations.shape id (resolved i) (resolved i.shape) := by
  refine .getBind fun a => ?_
  have hlinked : a.shape.linked? i.shape.id = a.linked? i.id := rfl
  rw [hlinked]
  cases a.linked? i.id with
  | none => exact .throw
  | some k => exact .pure rfl

theorem sizeOf_mirrors (k : SymbolId) :
    Mirrors Annotations.shape id (sizeOf k) (sizeOf k) := by
  refine .bind (symbol_mirrors k) fun s => ?_
  have hdef : s.shape.definition? = s.definition? := rfl
  rw [hdef]
  cases s.definition? with
  | none => exact .pure rfl
  | some d => exact .bind (symbol_mirrors d) fun _ => .pure rfl

theorem sized_mirrors (d : VarDecl) :
    Mirrors Annotations.shape id (sized d) (sized d.shape) :=
  .bind (resolved_mirrors d.name) fun k => .bind (sizeOf_mirrors k) fun _ =>
    .bind (update_mirrors k fun _ => rfl) fun _ => .pure rfl

theorem fields_mirrors (ds : List VarDecl) (used : Nat) :
    Mirrors Annotations.shape id (fields used ds) (fields used (ds.map VarDecl.shape)) := by
  induction ds generalizing used with
  | nil => exact .pure rfl
  | cons d ds ih =>
    exact .bind (sized_mirrors d) fun r => .bind (update_mirrors r.1 fun _ => rfl) fun _ => ih _

theorem params_mirrors (ps : List Param) (offset : Int) :
    Mirrors Annotations.shape id (params offset ps) (params offset (ps.map Param.shape)) := by
  induction ps generalizing offset with
  | nil => exact .pure rfl
  | cons p ps ih =>
    refine .bind (sized_mirrors p.decl) fun r => ?_
    exact .bind (update_mirrors r.1 fun _ => rfl) fun _ => ih _

theorem locals_mirrors (ds : List VarDecl) (offset : Int) :
    Mirrors Annotations.shape id (locals offset ds) (locals offset (ds.map VarDecl.shape)) := by
  induction ds generalizing offset with
  | nil => exact .pure rfl
  | cons d ds ih =>
    exact .bind (sized_mirrors d) fun r => .bind (update_mirrors r.1 fun _ => rfl) fun _ => ih _

mutual

theorem body_mirrors : ∀ (b : Body) (offset : Int),
    Mirrors Annotations.shape id (body offset b) (body offset b.shape)
  | .block decls ss, offset => .bind (locals_mirrors decls offset) fun _ => stmts_mirrors ss _

theorem stmt_mirrors : ∀ (s : Stmt) (offset : Int),
    Mirrors Annotations.shape id (stmt offset s) (stmt offset s.shape)
  | .ifThen _ _ b, offset | .whileLoop _ _ b, offset => body_mirrors b offset
  | .ifElse _ _ b b', offset => .bind (body_mirrors b offset) fun _ => body_mirrors b' _
  | .assign .., _ | .increment .., _ | .decrement .., _ | .read .., _ | .write .., _
  | .call .., _ | .ret _ none, _ | .ret _ (some _), _ => .pure rfl

theorem stmts_mirrors : ∀ (ss : List Stmt) (offset : Int),
    Mirrors Annotations.shape id (stmts offset ss) (stmts offset (Stmt.shapes ss))
  | [], _ => .pure rfl
  | s :: ss, offset => .bind (stmt_mirrors s offset) fun _ => stmts_mirrors ss _

end

theorem shape_setSpaces (formalSpace localSpace : Nat) (s : Symbol) :
    (setSpaces formalSpace localSpace s).shape = setSpaces formalSpace localSpace s.shape := by
  cases hk : s.kind <;> simp [setSpaces, Symbol.shape, hk]

theorem decl_mirrors (d : Decl) :
    Mirrors Annotations.shape id (decl d) (decl d.shape) := by
  cases d with
  | var d => exact .bind (sized_mirrors d) fun _ => .pure rfl
  | struct d =>
    exact .bind (fields_mirrors d.fields 0) fun _ => .bind (resolved_mirrors d.name) fun k =>
      update_mirrors k fun _ => rfl
  | fn d =>
    have hcount : d.shape.params.length = d.params.length := List.length_map _
    refine .bind (params_mirrors d.params 0) fun _ => ?_
    rw [hcount]
    exact .bind (body_mirrors d.body _) fun _ => .bind (resolved_mirrors d.name) fun k =>
      update_mirrors k (shape_setSpaces _ _)

theorem decls_mirrors (ds : List Decl) :
    Mirrors Annotations.shape id (decls ds) (decls (ds.map Decl.shape)) := by
  induction ds with
  | nil => exact .pure rfl
  | cons d ds ih => exact .bind (decl_mirrors d) fun _ => ih

end Layout

theorem placeSymbols_shape (p : Program) (a : Annotations) :
    placeSymbols p.shape a.shape = (placeSymbols p a).map Annotations.shape := by
  have hrun := Layout.decls_mirrors p.decls a
  unfold placeSymbols
  rw [show p.shape.decls = p.decls.map Decl.shape from rfl, hrun]
  cases (Layout.decls p.decls).run a with
  | error d => rfl
  | ok r => rfl

/-! ## Code -/

namespace Code

variable (o : Options) (a : Annotations)

theorem symbolOf_shape_bind {α : Type} (i : Ident) {f : Symbol → Gen α}
    (hf : ∀ s : Symbol, f s.shape = f s) :
    (symbolOf a.shape i.shape >>= f) = symbolOf a i >>= f := by
  unfold symbolOf
  have hsymbol : a.shape.symbolOf? i.shape.id = (a.symbolOf? i.id).map Symbol.shape :=
    Annotations.symbolOf?_shape
  rw [hsymbol]
  cases a.symbolOf? i.id with
  | none => rfl
  | some s => exact hf s

theorem location_shape (p : Place) : location a.shape p.shape = location a p := by
  induction p with
  | var node name => exact symbolOf_shape_bind a name fun _ => rfl
  | field node base name ih =>
    simp only [location, Place.shape, ih]
    exact symbolOf_shape_bind a name fun _ => rfl

mutual

theorem expr_shape : ∀ e : Expr, expr o a.shape e.shape = expr o a e
  | .int .. | .str .. | .bool .. => rfl
  | .place p => by simp only [expr, Expr.shape, location_shape]
  | .assign _ target value => by simp only [expr, Expr.shape, location_shape, expr_shape value]
  | .call _ callee args => by simp only [expr, Expr.shape, exprs_shape args, Ident.shape]
  | .unary _ op operand => by simp only [expr, Expr.shape, expr_shape operand]
  | .binary _ (.arith _) left right | .binary _ (.equality _) left right
  | .binary _ (.order _) left right | .binary _ (.logical _) left right => by
    simp only [expr, Expr.shape, expr_shape left, expr_shape right]

theorem exprs_shape : ∀ es : List Expr, exprs o a.shape (Expr.shapes es) = exprs o a es
  | [] => rfl
  | e :: es => by simp only [exprs, Expr.shapes, expr_shape e, exprs_shape es]

end

theorem step_shape (delta : Int) (p : Place) : step a.shape delta p.shape = step a delta p := by
  simp only [step, location_shape]

theorem read_shape (p : Place) : read o a.shape p.shape = read o a p := by
  simp only [read, location_shape]

theorem write_shape (e : Expr) : write o a.shape e.shape = write o a e := by
  simp only [write, printCall, expr_shape, Expr.id_shape, Annotations.typeOf?_shape]

theorem branchUnless_shape (e : Expr) (target : String) :
    branchUnless o a.shape e.shape target = branchUnless o a e target := by
  simp only [branchUnless, expr_shape]

mutual

theorem stmt_shape (exit : String) : ∀ s : Stmt,
    stmt o a.shape exit s.shape = stmt o a exit s
  | .assign _ node target value => by
    have hvalue := expr_shape o a (.assign node target value)
    simp only [Expr.shape] at hvalue
    simp only [stmt, Stmt.shape, hvalue]
  | .increment _ target | .decrement _ target => by simp only [stmt, Stmt.shape, step_shape]
  | .read _ target => read_shape o a target
  | .write _ value => write_shape o a value
  | .ifThen _ cond b | .whileLoop _ cond b => by
    simp only [stmt, Stmt.shape, branchUnless_shape, body_shape exit b]
  | .ifElse _ cond b b' => by
    simp only [stmt, Stmt.shape, branchUnless_shape, body_shape exit b, body_shape exit b']
  | .call _ node callee args => by
    have hvalue := expr_shape o a (.call node callee args)
    simp only [Expr.shape] at hvalue
    simp only [stmt, Stmt.shape, hvalue]
  | .ret _ none => rfl
  | .ret _ (some value) => by simp only [stmt, Stmt.shape, returnValue, expr_shape]

theorem body_shape (exit : String) : ∀ b : Body, body o a.shape exit b.shape = body o a exit b
  | .block _ ss => stmts_shape exit ss

theorem stmts_shape (exit : String) : ∀ ss : List Stmt,
    stmts o a.shape exit (Stmt.shapes ss) = stmts o a exit ss
  | [] => rfl
  | s :: ss => by simp only [stmts, Stmt.shapes, stmt_shape exit s, stmts_shape exit ss]

end

theorem globalVar_shape (d : VarDecl) : globalVar a.shape d.shape = globalVar a d := by
  have hsymbol : a.shape.symbolOf? d.shape.name.id = (a.symbolOf? d.name.id).map Symbol.shape :=
    Annotations.symbolOf?_shape
  unfold globalVar
  rw [hsymbol]
  cases a.symbolOf? d.name.id with
  | none => rfl
  | some s => rfl

theorem fnInfo_shape (i : Ident) : fnInfo a.shape i.shape = fnInfo a i := by
  have hsymbol : a.shape.symbolOf? i.shape.id = (a.symbolOf? i.id).map Symbol.shape :=
    Annotations.symbolOf?_shape
  unfold fnInfo
  rw [hsymbol]
  cases a.symbolOf? i.id with
  | none => rfl
  | some s => rfl

theorem decl_shape (d : Decl) : decl o a.shape d.shape = decl o a d := by
  cases d with
  | var d => exact globalVar_shape a d
  | struct d => rfl
  | fn d =>
    show fnDecl o a.shape d.shape = fnDecl o a d
    simp only [fnDecl, FnDecl.shape, fnInfo_shape, body_shape]
    rfl

theorem decls_shape (ds : List Decl) : decls o a.shape (ds.map Decl.shape) = decls o a ds := by
  induction ds with
  | nil => rfl
  | cons d ds ih => simp only [List.map_cons, decls, decl_shape, ih]

end Code

theorem generate_shape (o : Options) (p : Program) (a : Annotations) (nextLabel : Nat) :
    generate o p.shape a.shape nextLabel = generate o p a nextLabel :=
  congrArg (·.run nextLabel) (Code.decls_shape o a p.decls)

theorem exists_of_map_ok {ε α β : Type} {x : Except ε α} {f : α → β} {b : β}
    (h : x.map f = .ok b) : ∃ a, x = .ok a ∧ f a = b := by
  cases x with
  | error e => cases h
  | ok a => exact ⟨a, rfl, Except.ok.inj h⟩

/-- If no stage finds an error in a program, none finds an error in one of the same shape, and the
notes are the same up to their spans. -/
theorem stages_of_shape {p q : Program} {a b c : Annotations} (hshape : q.shape = p.shape)
    (hbind : bindNames p .empty = .ok (a, [])) (hcheck : checkTypes p a = (.ok (), b, []))
    (hplace : placeSymbols p b = .ok c) :
    ∃ a' b' c', bindNames q .empty = .ok (a', []) ∧ checkTypes q a' = (.ok (), b', []) ∧
      placeSymbols q b' = .ok c' ∧ c'.shape = c.shape := by
  have hbindq := bindNames_shape q
  rw [hshape, bindNames_shape, hbind] at hbindq
  obtain ⟨⟨a', rs⟩, hbindq, hr⟩ := exists_of_map_ok hbindq.symm
  obtain ⟨ha, hrs⟩ := Prod.mk.inj hr
  obtain rfl := List.map_eq_nil_iff.1 hrs
  have hcheckq := checkTypes_shape q a'
  rw [hshape, ha, checkTypes_shape, hcheck] at hcheckq
  obtain ⟨hresult, hnotes⟩ := Prod.mk.inj hcheckq
  obtain ⟨hb, hrs'⟩ := Prod.mk.inj hnotes
  have hplaceq := placeSymbols_shape q (checkTypes q a').2.1
  rw [hshape, ← hb, placeSymbols_shape, hplace] at hplaceq
  obtain ⟨d, hplaceq, hd⟩ := exists_of_map_ok hplaceq.symm
  refine ⟨a', _, d, hbindq, ?_, hplaceq, hd⟩
  exact Prod.ext hresult.symm (Prod.ext rfl (List.map_eq_nil_iff.1 hrs'.symm))

end FlatC
