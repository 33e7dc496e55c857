import FlatC.Typing.Program
import FlatC.Proofs.Spans.Outline

/-!
# What checking can report

Checking reports a fault at a span of the tree: that of a callee, or where a report about an
expression points. Two faults stand nowhere: a `return` that misses its value, and a program
without `main`.
-/

namespace FlatC

/-- What checking reports at spans that satisfy `P`. -/
inductive TypeFault.Reported (P : Span → Prop) : Report → Prop where
  | here (f : TypeFault) {span : Span} (h : P span) : Reported P (f.report span)
  | missingReturnValue : Reported P TypeFault.missingReturnValue.ofProgram
  | noMain : Reported P TypeFault.noMain.ofProgram

namespace Checked

variable {α β : Type} {P : Span → Prop} {x : Checked α} {f : α → Checked β}

/-- All that the step reports is of types, and at spans that satisfy `P`. -/
def ReportsAt (P : Span → Prop) (x : Checked α) : Prop := ∀ r ∈ x.reports, TypeFault.Reported P r

namespace ReportsAt

theorem bind (hx : x.ReportsAt P) (hf : ∀ a, x.result = .ok a → (f a).ReportsAt P) :
    (x >>= f).ReportsAt P := by
  obtain ⟨result, reports, types⟩ := x
  cases result with
  | error d => exact hx
  | ok a =>
    intro r hr
    rcases List.mem_append.1 hr with hr | hr
    · exact hx r hr
    · exact hf a rfl r hr

theorem pure {a : α} : (pure a : Checked α).ReportsAt P := by
  intro r hr
  cases hr

theorem report {r : Report} (h : TypeFault.Reported P r) : (report r).ReportsAt P := by
  intro r' hr
  obtain rfl := List.mem_singleton.1 hr
  exact h

/-- A complaint, or none. -/
theorem complaint {c : Prop} [Decidable c] {r : Report} (h : TypeFault.Reported P r) :
    (if c then Checked.report r else Pure.pure () : Checked Unit).ReportsAt P := by
  split
  · exact report h
  · exact pure

end ReportsAt

end Checked

namespace Typing

open Checked TypeFault

variable {P : Span → Prop} {a : Annotations}

theorem all_reports {accepts : Ty → Bool} {fault : TypeFault} {ty : Ty} {xs : List Operand}
    (h : ∀ x ∈ xs, P x.span) : (Operand.all accepts fault ty xs).ReportsAt P := by
  intro r hr
  obtain ⟨x, hx, hr⟩ := List.mem_flatMap.1 hr
  unfold Operand.complaint at hr
  split at hr
  · cases hr
  · obtain rfl := List.mem_singleton.1 hr
    exact .here fault (h x hx)

theorem combine_reports {fault? : Ty → Ty → Option TypeFault} {t u ty : Ty} {span : Span}
    (h : P span) : (Ty.combine fault? t u ty span).ReportsAt P := by
  unfold Ty.combine
  split
  · exact .pure
  · split
    next f _ => exact (ReportsAt.report (.here f h)).bind fun _ _ => .pure
    next => exact .pure

theorem argumentReports_at (xs : List Operand) (ps : List Ty) (h : ∀ x ∈ xs, P x.span) :
    ∀ r ∈ argumentReports xs ps, Reported P r := by
  intro r hr
  obtain ⟨x, hx, rfl⟩ := exists_of_mem_argumentReports hr
  exact .here .argumentType (h x hx)

theorem call_reports {callee : Ty} {span : Span} {args : List Operand} (h : P span)
    (hargs : ∀ x ∈ args, P x.span) : (call callee span args).ReportsAt P := by
  unfold call
  split
  · split
    · exact argumentReports_at _ _ hargs
    · exact (ReportsAt.report (.here _ h)).bind fun _ _ => .pure
  · exact (ReportsAt.report (.here _ h)).bind fun _ _ => .pure

theorem recorded_reports {node : Node} {ty : Ty} : (recorded node ty).ReportsAt P := by
  intro r hr
  cases hr

theorem ident_reports {i : Ident} : (ident a i).ReportsAt P := by
  unfold ident
  split
  · exact .pure
  · intro r hr
    cases hr

theorem place_reports (q : Place) : (place a q).ReportsAt P := by
  induction q with
  | var node name => exact ident_reports.bind fun _ _ => recorded_reports
  | field node base name ih =>
    exact ih.bind fun _ _ => ident_reports.bind fun _ _ => recorded_reports

theorem unary_reports {op : UnaryOp} {x : Operand} (h : P x.span) : (op.check x).ReportsAt P := by
  have hx : ∀ y ∈ [x], P y.span := by simpa using h
  cases op <;> exact all_reports hx

theorem binary_reports {op : BinaryOp} {x y : Operand} {span : Span} (hx : P x.span)
    (hy : P y.span) (h : P span) : (op.check x y span).ReportsAt P := by
  have hxy : ∀ z ∈ [x, y], P z.span := by simpa using And.intro hx hy
  cases op with
  | arith | logical | order => exact all_reports hxy
  | equality => exact combine_reports h

/-- A report about an operand points where one about its expression does. -/
theorem operands_spans {es : List Expr} {xs : List Operand} (h : (operands a es).result = .ok xs) :
    ∀ x ∈ xs, ∃ e ∈ es, x.span = e.reportSpan := by
  induction es generalizing xs with
  | nil =>
    cases h
    nofun
  | cons e es ih =>
    cases hty : (expr a e).result with
    | error d =>
      simp [operands, andThen, hty] at h
    | ok ty =>
      cases hxs : (operands a es).result with
      | error d => simp [operands, andThen, hty, hxs] at h
      | ok ys =>
        simp only [operands, bind_eq, andThen, hty, hxs, pure_eq, Except.ok.injEq] at h
        subst h
        intro x hx
        rcases List.mem_cons.1 hx with rfl | hx
        · exact ⟨e, List.mem_cons_self, rfl⟩
        · obtain ⟨e', he', hspan⟩ := ih hxs x hx
          exact ⟨e', List.mem_cons_of_mem e he', hspan⟩

mutual

theorem expr_reports : ∀ e : Expr, e.outline.All P → (expr a e).ReportsAt P
  | .int .., _ | .str .., _ | .bool .., _ => recorded_reports
  | .place q, _ => place_reports q
  | .assign _ target value, h =>
    (place_reports target).bind fun _ _ =>
      (expr_reports value (h.parts value.outline (by simp))).bind fun _ _ =>
        (combine_reports h.mark).bind fun _ _ => recorded_reports
  | .call _ callee args, h =>
    have hargs : ∀ o ∈ Expr.outlines args, o.All P := fun o ho =>
      h.parts o (List.mem_cons_of_mem _ ho)
    (operands_reports args hargs).bind fun xs hxs => ident_reports.bind fun _ _ =>
      (call_reports h.mark fun x hx => by
        obtain ⟨e, he, hspan⟩ := operands_spans hxs x hx
        rw [Expr.outlines_eq] at hargs
        rw [hspan]
        exact (hargs _ (List.mem_map_of_mem he)).report).bind fun _ _ => recorded_reports
  | .unary _ _ operand, h =>
    have hoperand := h.parts operand.outline (by simp)
    (expr_reports operand hoperand).bind fun _ _ =>
      (unary_reports hoperand.report).bind fun _ _ => recorded_reports
  | .binary _ _ left right, h =>
    have hleft := h.parts left.outline (by simp)
    have hright := h.parts right.outline (by simp)
    (expr_reports left hleft).bind fun _ _ => (expr_reports right hright).bind fun _ _ =>
      (binary_reports hleft.report hright.report h.mark).bind fun _ _ => recorded_reports

theorem operands_reports : ∀ es : List Expr, (∀ o ∈ Expr.outlines es, o.All P) →
    (operands a es).ReportsAt P
  | [], _ => .pure
  | e :: es, h =>
    (expr_reports e (h _ List.mem_cons_self)).bind fun _ _ =>
      (operands_reports es fun o ho => h o (List.mem_cons_of_mem _ ho)).bind fun _ _ => .pure

end

theorem condition_reports {e : Expr} (h : e.outline.All P) : (condition a e).ReportsAt P :=
  (expr_reports e h).bind fun _ _ => .complaint (.here _ h.report)

theorem step_reports {q : Place} (h : q.outline.All P) : (step a q).ReportsAt P :=
  (place_reports q).bind fun ty _ =>
    have hroot : ∀ x ∈ [Operand.mk ty q.root.span], P x.span := by simpa using h.root
    (all_reports hroot).bind fun _ _ => .pure

theorem read_reports {q : Place} (h : q.outline.All P) : (read a q).ReportsAt P := by
  refine (place_reports q).bind fun ty _ => ?_
  split
  · exact .report (.here _ h.root)
  · exact .pure

theorem write_reports {e : Expr} (h : e.outline.All P) : (write a e).ReportsAt P := by
  refine (expr_reports e h).bind fun ty _ => ?_
  split
  · exact .report (.here _ h.report)
  · exact .complaint (.here _ h.report)

theorem ret_reports (expected : Ty) (e? : Option Expr) (h : ∀ e, e? = some e → e.outline.All P) :
    (ret a expected e?).ReportsAt P := by
  cases e? with
  | none => exact .complaint .missingReturnValue
  | some e =>
    refine (expr_reports e (h e rfl)).bind fun ty _ => ?_
    split
    · exact .report (.here _ (h e rfl).report)
    · exact .complaint (.here _ (h e rfl).report)

mutual

theorem stmt_reports (expected : Ty) : ∀ s : Stmt, s.outline.All P →
    (stmt a expected s).ReportsAt P
  | .assign _ node target value, h =>
    (expr_reports (.assign node target value) (h.parts _ List.mem_cons_self)).bind fun _ _ => .pure
  | .increment _ _, h | .decrement _ _, h => step_reports (h.parts _ List.mem_cons_self)
  | .read _ _, h => read_reports (h.parts _ List.mem_cons_self)
  | .write _ _, h => write_reports (h.parts _ List.mem_cons_self)
  | .ifThen _ _ b, h | .whileLoop _ _ b, h =>
    (condition_reports (h.parts _ List.mem_cons_self)).bind fun _ _ =>
      body_reports expected b fun o ho => h.parts o (List.mem_cons_of_mem _ ho)
  | .ifElse _ _ b b', h =>
    (condition_reports (h.parts _ List.mem_cons_self)).bind fun _ _ =>
      (body_reports expected b fun o ho =>
        h.parts o (List.mem_cons_of_mem _ (List.mem_append_left _ ho))).bind fun _ _ =>
      body_reports expected b' fun o ho =>
        h.parts o (List.mem_cons_of_mem _ (List.mem_append_right _ ho))
  | .call _ node callee args, h =>
    (expr_reports (.call node callee args) (h.parts _ List.mem_cons_self)).bind fun _ _ => .pure
  | .ret _ none, _ => ret_reports (a := a) expected none nofun
  | .ret _ (some value), h =>
    ret_reports expected (some value) fun _ he =>
      Option.some.inj he ▸ h.parts value.outline List.mem_cons_self

theorem body_reports (expected : Ty) : ∀ b : Body, (∀ o ∈ b.outlines, o.All P) →
    (body a expected b).ReportsAt P
  | .block _ ss, h => stmts_reports expected ss fun o ho => h o (List.mem_append_right _ ho)

theorem stmts_reports (expected : Ty) : ∀ ss : List Stmt, (∀ o ∈ Stmt.outlines ss, o.All P) →
    (stmts a expected ss).ReportsAt P
  | [], _ => .pure
  | s :: ss, h =>
    (stmt_reports expected s (h _ List.mem_cons_self)).bind fun _ _ =>
      stmts_reports expected ss fun o ho => h o (List.mem_cons_of_mem _ ho)

end

theorem functions_reports (fs : List FnDecl) (h : ∀ f ∈ fs, (Decl.fn f).outline.All P) :
    (functions a fs).ReportsAt P := by
  induction fs with
  | nil => exact .pure
  | cons f fs ih =>
    have hbody : ∀ o ∈ f.body.outlines, o.All P := fun o ho =>
      (h f List.mem_cons_self).parts o (List.mem_cons_of_mem _ (List.mem_append_right _ ho))
    exact (body_reports _ f.body hbody).bind fun _ _ =>
      ih fun f' hf => h f' (List.mem_cons_of_mem f hf)

theorem program_reports {p : Program} (h : ∀ o ∈ p.outlines, o.All P) :
    (program a p).ReportsAt P := by
  have hfns : ∀ f ∈ p.functions, (Decl.fn f).outline.All P := fun f hf =>
    h _ (List.mem_map_of_mem (Program.mem_functions.1 hf))
  exact (functions_reports _ hfns).bind fun _ _ => .complaint .noMain

end Typing

/-- **Checking reports at spans of the tree, or one of two faults of the program as a whole.** -/
theorem checkTypes_reports {P : Span → Prop} {p : Program} (h : ∀ o ∈ p.outlines, o.All P)
    (a : Annotations) : ∀ r ∈ (checkTypes p a).2.2, TypeFault.Reported P r :=
  Typing.program_reports h

end FlatC
