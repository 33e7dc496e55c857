import FlatC.Proofs.Binding.Notes
import FlatC.Proofs.Spans.Outline
import FlatC.Proofs.Yields

/-!
# What binding can do

Binding moves its state by four kinds of step: it reports a fault, links an occurrence, adds a
symbol that has no place yet and nothing wrong in its type, and tells a function its parameters. It
reports at spans of the tree. What these steps keep, every run keeps, of whatever tree and from
whatever notes (`Binding.program_preserves`).
-/

namespace FlatC

/-- The type of something that is right and, if it is a function, takes and gives what is right. -/
def Ty.Errorless (t : Ty) : Prop :=
  t ≠ .error ∧ ∀ ps r, t = .fn ps r → r ≠ .error ∧ ∀ p ∈ ps, p ≠ .error

theorem Ty.errorless_ofScalar (s : Scalar) : (Ty.ofScalar s).Errorless :=
  ⟨Ty.ofScalar_ne_error s, by cases s <;> simp [Ty.ofScalar]⟩

theorem Ty.errorless_fn {ps : List Ty} {r : Ty} (hps : ∀ p ∈ ps, p ≠ .error) (hr : r ≠ .error) :
    (Ty.fn ps r).Errorless := by
  refine ⟨by simp, ?_⟩
  rintro _ _ ⟨⟩
  exact ⟨hr, hps⟩

/-- The symbol is as binding makes it: nothing is wrong with its type, and it has no place yet. -/
structure Symbol.Fresh (s : Symbol) : Prop where
  ty : s.ty.Errorless
  ret : ∀ info, s.fnInfo? = some info → info.ret ≠ .error
  size : s.size ≤ wordSize
  offset : s.offset = 0
  fieldOffset : s.fieldOffset = 0
  spaces : ∀ info, s.fnInfo? = some info → info.formalSpace = 0 ∧ info.localSpace = 0

theorem Symbol.Fresh.setParams {s : Symbol} (h : s.Fresh) {ps : List Ty}
    (hps : ∀ p ∈ ps, p ≠ .error) : (s.setParams ps).Fresh := by
  unfold Symbol.setParams
  split
  next info hk =>
    have hinfo : s.fnInfo? = some info := by simp [Symbol.fnInfo?, hk]
    refine ⟨Ty.errorless_fn hps (h.ret info hinfo), ?_, h.size, h.offset, h.fieldOffset, ?_⟩
    · rintro _ ⟨⟩
      exact h.ret info hinfo
    · rintro _ ⟨⟩
      exact h.spaces info hinfo
  next => exact h

namespace Binding

/-- No step of binding leaves `I`. -/
structure Closed (I : State → Prop) : Prop where
  report : ∀ {s} (f : NameFault) (span : Span), I s →
    I { s with reports := s.reports ++ [f.report span] }
  link : ∀ {s} (node : NodeId) (id : SymbolId), I s → I { s with notes := s.notes.link node id }
  add : ∀ {s sy}, Symbol.Fresh sy → I s → I { s with notes := (s.notes.add sy).2 }
  setParams : ∀ {s} (id : SymbolId) {ps : List Ty}, (∀ p ∈ ps, p ≠ .error) → I s →
    I { s with notes := s.notes.update id (·.setParams ps) }

/-- No step of binding leaves `I`, if what it reports is at a span that satisfies `P`. -/
structure ClosedAt (P : Span → Prop) (I : State → Prop) : Prop where
  report : ∀ {s} (f : NameFault) {span : Span}, P span → I s →
    I { s with reports := s.reports ++ [f.report span] }
  link : ∀ {s} (node : NodeId) (id : SymbolId), I s → I { s with notes := s.notes.link node id }
  add : ∀ {s sy}, Symbol.Fresh sy → I s → I { s with notes := (s.notes.add sy).2 }
  setParams : ∀ {s} (id : SymbolId) {ps : List Ty}, (∀ p ∈ ps, p ≠ .error) → I s →
    I { s with notes := s.notes.update id (·.setParams ps) }

theorem Closed.anywhere {I : State → Prop} (h : Closed I) : ClosedAt (fun _ => True) I :=
  ⟨fun f span _ => h.report f span, h.link, h.add, h.setParams⟩

section

variable {P : Span → Prop} {I : State → Prop} {t : ScopeTable}

theorem report_preserves (hI : ClosedAt P I) (f : NameFault) {span : Span} (h : P span) :
    Preserves I (report f span) fun _ => True :=
  .modify fun _ => hI.report f h

theorem link_preserves (hI : ClosedAt P I) (node : NodeId) (id : SymbolId) :
    Preserves I (link node id) fun _ => True :=
  .modify fun _ => hI.link node id

theorem symbol_preserves (id : SymbolId) : Preserves I (symbol id) fun _ => True := by
  refine .bind .get fun s _ => ?_
  split
  · exact .pure trivial
  · exact .throw

theorem add_preserves (hI : ClosedAt P I) {sy : Symbol} (h : sy.Fresh) :
    Preserves I (add sy) fun _ => True := by
  intro s id s' hs hrun
  obtain ⟨-, rfl⟩ := Prod.mk.inj (Except.ok.inj hrun)
  exact ⟨hI.add h hs, trivial⟩

theorem declare_preserves (hI : ClosedAt P I) (key : String) (name : Ident) (id : SymbolId) :
    Preserves I (declare t key name id) fun _ => True := by
  unfold declare
  split
  · exact .throw
  · exact .bind (link_preserves hI _ _) fun _ _ => .pure trivial

/-! ## Declarations -/

theorem structOf?_preserves (i : Ident) : Preserves I (structOf? t i) fun _ => True := by
  unfold structOf?
  split
  · exact .pure trivial
  · exact .bind (symbol_preserves _) fun _ _ => .pure trivial

theorem ofType?_preserves (hI : ClosedAt P I) {d : VarDecl} (h : d.outline.All P) :
    Preserves I (ofType? t d) fun sy? => ∀ sy, sy? = some sy → sy.Fresh := by
  unfold ofType?
  split
  · refine .bind (report_preserves hI _ h.name) fun _ _ => .pure ?_
    simp
  · refine .pure ?_
    rintro _ ⟨⟩
    exact ⟨Ty.errorless_ofScalar _, by simp [Symbol.word, Symbol.fnInfo?], Nat.le_refl _, rfl, rfl,
      by simp [Symbol.word, Symbol.fnInfo?]⟩
  next hd =>
    refine .bind (structOf?_preserves _) fun definition? _ => ?_
    split
    · refine .bind (link_preserves hI _ _) fun _ _ => .pure ?_
      rintro _ ⟨⟩
      exact ⟨⟨by simp [Symbol.structVar], by simp [Symbol.structVar]⟩,
        by simp [Symbol.structVar, Symbol.fnInfo?], Nat.zero_le _, rfl, rfl,
        by simp [Symbol.structVar, Symbol.fnInfo?]⟩
    · refine .bind (report_preserves hI _ (h.struct hd)) fun _ _ => .pure ?_
      simp

theorem symbolFor?_preserves (hI : ClosedAt P I) (taken : Bool) {d : VarDecl}
    (h : d.outline.All P) :
    Preserves I (symbolFor? t taken d) fun sy? => ∀ sy, sy? = some sy → sy.Fresh := by
  refine .bind (ofType?_preserves hI h) fun sy? hsy => ?_
  cases taken with
  | true =>
    refine .bind (report_preserves hI _ h.name) fun _ _ => .pure ?_
    simp
  | false => exact .pure hsy

theorem varDecl_preserves (hI : ClosedAt P I) {d : VarDecl} (h : d.outline.All P) :
    Preserves I (varDecl t d) fun _ => True := by
  refine .bind (symbolFor?_preserves hI _ h) fun sy? hsy => ?_
  cases sy? with
  | none => exact .pure trivial
  | some sy =>
    have h := hsy sy rfl
    refine .bind (add_preserves hI ?_) fun _ _ => declare_preserves hI _ _ _
    exact ⟨h.ty, h.ret, h.size, h.offset, h.fieldOffset, h.spaces⟩

theorem varDecls_preserves (hI : ClosedAt P I) {ds : List VarDecl}
    (h : ∀ o ∈ ds.map VarDecl.outline, o.All P) :
    Preserves I (ds.foldlM varDecl t) fun _ => True :=
  .foldlM (fun _ _ hd _ => varDecl_preserves hI (h _ (List.mem_map_of_mem hd))) trivial

theorem fieldDecl_preserves (hI : ClosedAt P I) (fields : Scope) {d : VarDecl}
    (h : d.outline.All P) : Preserves I (fieldDecl t fields d) fun _ => True := by
  refine .bind (symbolFor?_preserves hI _ h) fun sy? hsy => ?_
  cases sy? with
  | none => exact .pure trivial
  | some sy =>
    refine .bind (add_preserves hI (hsy sy rfl)) fun id _ => ?_
    split
    · exact .throw
    · exact .bind (link_preserves hI _ _) fun _ _ => .pure trivial

/-! ## Uses -/

theorem ident_preserves (hI : ClosedAt P I) {i : Ident} (h : P i.span) :
    Preserves I (ident t i) fun _ => True := by
  unfold ident
  split
  · exact .bind (link_preserves hI _ _) fun _ _ => .pure trivial
  · exact .bind (report_preserves hI _ h) fun _ _ => .pure trivial

/-- Something without fields was named at a span that satisfies `P`. -/
def Access.At (P : Span → Prop) : Access → Prop
  | .plain span => P span
  | _ => True

theorem access_preserves (id : SymbolId) {span : Span} (h : P span) :
    Preserves I (access id span) (Access.At P) := by
  refine .bind (symbol_preserves id) fun _ _ => ?_
  split
  · exact .pure trivial
  · exact .pure h

theorem place_preserves (hI : ClosedAt P I) {q : Place} (h : q.outline.All P) :
    Preserves I (place t q) (Access.At P) := by
  induction q with
  | var node name =>
    refine .bind (ident_preserves hI h.mark) fun id? _ => ?_
    cases id? with
    | none => exact .pure trivial
    | some id => exact access_preserves id h.mark
  | field node base name ih =>
    have hname : P name.span := (h.parts name.outline (by simp)).span
    refine .bind (ih (h.parts base.outline (by simp))) fun acc hacc => ?_
    cases acc with
    | bad => exact .pure trivial
    | plain span => exact .bind (report_preserves hI _ hacc) fun _ _ => .pure trivial
    | struct definition =>
      have hfield : Preserves I (field? definition name.name) fun _ => True :=
        .bind (symbol_preserves _) fun _ _ => .pure trivial
      refine .bind hfield fun id? _ => ?_
      cases id? with
      | none => exact .bind (report_preserves hI _ hname) fun _ _ => .pure trivial
      | some id => exact .bind (link_preserves hI _ _) fun _ _ => access_preserves id hname

mutual

theorem expr_preserves (hI : ClosedAt P I) : ∀ e : Expr, e.outline.All P →
    Preserves I (expr t e) fun _ => True
  | .int .., _ | .str .., _ | .bool .., _ => .pure trivial
  | .place _, h => .bind (place_preserves hI h) fun _ _ => .pure trivial
  | .assign _ target value, h =>
    .bind (place_preserves hI (h.parts target.outline (by simp))) fun _ _ =>
      expr_preserves hI value (h.parts value.outline (by simp))
  | .call _ callee args, h =>
    .bind (ident_preserves hI h.mark) fun _ _ =>
      exprs_preserves hI args fun o ho => h.parts o (List.mem_cons_of_mem _ ho)
  | .unary _ _ operand, h => expr_preserves hI operand (h.parts operand.outline (by simp))
  | .binary _ _ left right, h =>
    .bind (expr_preserves hI left (h.parts left.outline (by simp))) fun _ _ =>
      expr_preserves hI right (h.parts right.outline (by simp))

theorem exprs_preserves (hI : ClosedAt P I) : ∀ es : List Expr, (∀ o ∈ Expr.outlines es, o.All P) →
    Preserves I (exprs t es) fun _ => True
  | [], _ => .pure trivial
  | e :: es, h =>
    .bind (expr_preserves hI e (h _ List.mem_cons_self)) fun _ _ =>
      exprs_preserves hI es fun o ho => h o (List.mem_cons_of_mem _ ho)

end

/-! ## Statements and programs -/

theorem leave_preserves (t : ScopeTable) : Preserves I (leave t) fun _ => True := by
  unfold leave
  split
  · exact .pure trivial
  · exact .throw

mutual

theorem stmt_preserves (hI : ClosedAt P I) : ∀ (s : Stmt) {t : ScopeTable}, s.outline.All P →
    Preserves I (stmt t s) fun _ => True
  | .assign _ node target value, _, h =>
    .bind (expr_preserves hI (.assign node target value) (h.parts _ List.mem_cons_self)) fun _ _ =>
      .pure trivial
  | .increment _ _, _, h | .decrement _ _, _, h | .read _ _, _, h =>
    .bind (place_preserves hI (h.parts _ List.mem_cons_self)) fun _ _ => .pure trivial
  | .write _ value, _, h =>
    .bind (expr_preserves hI value (h.parts _ List.mem_cons_self)) fun _ _ => .pure trivial
  | .ifThen _ cond b, _, h | .whileLoop _ cond b, _, h =>
    .bind (expr_preserves hI cond (h.parts _ List.mem_cons_self)) fun _ _ =>
      .bind (body_preserves hI b fun o ho => h.parts o (List.mem_cons_of_mem _ ho)) fun _ _ =>
        leave_preserves _
  | .ifElse _ cond b b', _, h =>
    .bind (expr_preserves hI cond (h.parts _ List.mem_cons_self)) fun _ _ =>
      .bind (body_preserves hI b fun o ho =>
        h.parts o (List.mem_cons_of_mem _ (List.mem_append_left _ ho))) fun _ _ =>
      .bind (leave_preserves _) fun _ _ =>
      .bind (body_preserves hI b' fun o ho =>
        h.parts o (List.mem_cons_of_mem _ (List.mem_append_right _ ho))) fun _ _ =>
      leave_preserves _
  | .call _ node callee args, _, h =>
    .bind (expr_preserves hI (.call node callee args) (h.parts _ List.mem_cons_self)) fun _ _ =>
      .pure trivial
  | .ret _ none, _, _ => .pure trivial
  | .ret _ (some value), _, h =>
    .bind (expr_preserves hI value (h.parts _ List.mem_cons_self)) fun _ _ => .pure trivial

theorem body_preserves (hI : ClosedAt P I) : ∀ (b : Body) {t : ScopeTable},
    (∀ o ∈ b.outlines, o.All P) → Preserves I (body t b) fun _ => True
  | .block _ ss, _, h =>
    .bind (varDecls_preserves hI fun o ho => h o (List.mem_append_left _ ho)) fun _ _ =>
      stmts_preserves hI ss fun o ho => h o (List.mem_append_right _ ho)

theorem stmts_preserves (hI : ClosedAt P I) : ∀ (ss : List Stmt) {t : ScopeTable},
    (∀ o ∈ Stmt.outlines ss, o.All P) → Preserves I (stmts t ss) fun _ => True
  | [], _, _ => .pure trivial
  | s :: ss, _, h =>
    .bind (stmt_preserves hI s (h _ List.mem_cons_self)) fun _ _ =>
      stmts_preserves hI ss fun o ho => h o (List.mem_cons_of_mem _ ho)

end

theorem fnName_preserves (hI : ClosedAt P I) {d : FnDecl} (h : P d.name.span) :
    Preserves I (fnName t d) fun _ => True := by
  unfold fnName
  split
  · exact .bind (report_preserves hI _ h) fun _ _ => .pure trivial
  · have hret := Ty.ofScalar_ne_error d.returns
    have hty : (Ty.fn [] (.ofScalar d.returns)).Errorless := Ty.errorless_fn (by simp) hret
    refine .bind (add_preserves hI ⟨hty, ?_, Nat.le_refl _, rfl, rfl, ?_⟩) fun _ _ =>
      .bind (declare_preserves hI _ _ _) fun _ _ => .pure trivial
    · rintro _ ⟨⟩
      exact hret
    · rintro _ ⟨⟩
      exact ⟨rfl, rfl⟩

theorem setParams_preserves (hI : ClosedAt P I) (id? : Option SymbolId) (ps : List Param) :
    Preserves I (setParams id? ps) fun _ => True := by
  cases id? with
  | none => exact .pure trivial
  | some id =>
    refine .bind (symbol_preserves id) fun _ _ => .modify fun _ => hI.setParams id ?_
    simp [Ty.ofScalar_ne_error]

theorem decl_preserves (hI : ClosedAt P I) {d : Decl} (h : d.outline.All P) :
    Preserves I (decl t d) fun _ => True := by
  cases d with
  | var d => exact varDecl_preserves hI h
  | struct d =>
    have hname : P d.name.span := (h.parts d.name.outline List.mem_cons_self).span
    have hfields : Preserves I (d.fields.foldlM (fieldDecl t) .empty) fun _ => True :=
      .foldlM (fun fields x hx _ => fieldDecl_preserves hI fields
        (h.parts _ (List.mem_cons_of_mem _ (List.mem_map_of_mem hx)))) trivial
    show Preserves I (structDecl t d) _
    unfold structDecl
    cases htaken : (t.lookupLocal (structKey d.name.name)).isSome with
    | true =>
      simp only [htaken, if_true]
      exact .bind (report_preserves hI _ hname) fun _ _ => .bind hfields fun _ _ => .pure trivial
    | false =>
      simp only [htaken, Bool.false_eq_true, if_false]
      refine .bind hfields fun fields _ => .bind (add_preserves hI ?_) fun _ _ =>
        declare_preserves hI _ _ _
      exact ⟨⟨by simp [Symbol.structDef], by simp [Symbol.structDef]⟩,
        by simp [Symbol.structDef, Symbol.fnInfo?], Nat.zero_le _, rfl, rfl,
        by simp [Symbol.structDef, Symbol.fnInfo?]⟩
  | fn d =>
    have hname : P d.name.span := (h.parts d.name.outline List.mem_cons_self).span
    -- a parameter has the outline of its declaration
    have hparams : ∀ o ∈ (d.params.map Param.decl).map VarDecl.outline, o.All P := by
      intro o ho
      rw [List.map_map] at ho
      exact h.parts o (List.mem_cons_of_mem _ (List.mem_append_left _ ho))
    refine .bind (fnName_preserves hI hname) fun r _ => ?_
    refine .bind (varDecls_preserves hI hparams) fun _ _ => ?_
    refine .bind (setParams_preserves hI r.1 d.params) fun _ _ => ?_
    refine .bind (body_preserves hI d.body fun o ho => ?_) fun _ _ => leave_preserves _
    exact h.parts o (List.mem_cons_of_mem _ (List.mem_append_right _ ho))

/-- **A run of binding keeps what its steps keep.** -/
theorem program_preserves (hI : ClosedAt P I) {p : Program} (h : ∀ o ∈ p.outlines, o.All P) :
    Preserves I (program p) fun _ => True :=
  .foldlM (fun _ _ hd _ => decl_preserves hI (h _ (List.mem_map_of_mem hd))) trivial

end

end Binding

/-- What binding reports, it reports at spans of the tree. -/
theorem bindNames_preserves_at {P : Span → Prop} {I : Binding.State → Prop}
    (hI : Binding.ClosedAt P I) {p : Program} {a b : Annotations} {rs : List Report}
    (hp : ∀ o ∈ p.outlines, o.All P) (h : bindNames p a = .ok (b, rs)) (ha : I ⟨a, []⟩) :
    I ⟨b, rs⟩ := by
  unfold bindNames at h
  split at h
  next t s hrun =>
    obtain ⟨rfl, rfl⟩ := Prod.mk.inj (Except.ok.inj h)
    exact (Binding.program_preserves hI hp _ t s ha hrun).1
  next => cases h

theorem bindNames_preserves {I : Binding.State → Prop} (hI : Binding.Closed I) {p : Program}
    {a b : Annotations} {rs : List Report} (h : bindNames p a = .ok (b, rs)) (ha : I ⟨a, []⟩) :
    I ⟨b, rs⟩ :=
  bindNames_preserves_at hI.anywhere (fun o _ => .of_forall (fun _ => trivial) o) h ha

/-- Binding knows no types. -/
theorem bindNames_types {p : Program} {a : Annotations} {rs : List Report}
    (h : bindNames p .empty = .ok (a, rs)) : a.types = .empty := by
  have hclosed : Binding.Closed fun s => s.notes.types = .empty :=
    ⟨fun _ _ h => h, fun _ _ h => h, fun _ h => h, fun _ _ _ h => h⟩
  exact bindNames_preserves hclosed h rfl

/-- The symbols that binding leaves are as it makes them. -/
theorem bindNames_fresh {p : Program} {a : Annotations} {rs : List Report}
    (h : bindNames p .empty = .ok (a, rs)) :
    ∀ (k : SymbolId) (s : Symbol), a.symbol? k = some s → s.Fresh := by
  refine bindNames_preserves (I := fun st => ∀ k s, st.notes.symbol? k = some s → s.Fresh)
    ⟨fun _ _ hs => hs, fun _ _ hs => hs, fun hsy hs k s hk => ?_, fun id _ hps hs k s hk => ?_⟩ h ?_
  · rcases Annotations.symbol?_add_eq_some hk with ⟨-, rfl⟩ | hk
    · exact hsy
    · exact hs k s hk
  · rw [Annotations.symbol?_update] at hk
    split at hk
    · obtain ⟨s', hs', rfl⟩ := Option.map_eq_some_iff.1 hk
      exact (hs k s' hs').setParams hps
    · exact hs k s hk
  · intro k s hk
    simp [Annotations.symbol?, Annotations.empty] at hk

end FlatC
