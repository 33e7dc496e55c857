import FlatC.Typing.Program
import FlatC.Proofs.Binding.Resolved

/-!
# What checking records

Checking a program whose names are bound meets no defect, whether it finds faults or not. It records
the types of all its expressions, operands first (`Typing.program_gives`). What is written to the
output has the type `string` if it is a literal, and another one if it is not (`Stmt.Written`).
-/

namespace FlatC

namespace Checked

variable {α β : Type} {x : Checked α} {f : α → Checked β} {l m : List NodeId}

/-- The step succeeds, reports errors only, and records the types of the expressions `l`, in this
order; where these are known, its result satisfies `Q`. -/
def Gives (x : Checked α) (l : List NodeId) (Q : α → Annotations → Prop) : Prop :=
  (∀ r ∈ x.reports, r.isError = true) ∧
  ∃ v, x.result = .ok v ∧ x.types.map Prod.fst = l ∧
    ∀ a : Annotations, (∀ t ∈ x.types, a.typeOf? t.1 = some t.2) → Q v a

theorem Gives.bind {P : α → Annotations → Prop} {Q : β → Annotations → Prop}
    (hx : x.Gives l P) (hf : ∀ v, (f v).Gives m fun w a => P v a → Q w a) :
    (x >>= f).Gives (l ++ m) Q := by
  obtain ⟨result, reports, types⟩ := x
  obtain ⟨hrs, v, hv, htypes, hP⟩ := hx
  obtain ⟨hrs', w, hw, htypes', hQ⟩ := hf v
  simp only at hv hrs htypes hP
  subst hv
  refine ⟨fun r hr => ?_, w, hw, ?_, fun a ha => ?_⟩
  · exact (List.mem_append.1 hr).elim (hrs r) (hrs' r)
  · simp only [bind_eq, andThen_ok, List.map_append, htypes, htypes']
  · simp only [bind_eq, andThen_ok, List.mem_append] at ha
    exact hQ a (fun t ht => ha t (.inr ht)) (hP a fun t ht => ha t (.inl ht))

theorem Gives.pure {v : α} {Q : α → Annotations → Prop} (h : ∀ a, Q v a) :
    (pure v : Checked α).Gives [] Q :=
  ⟨by simp, v, rfl, rfl, fun a _ => h a⟩

theorem Gives.imp {P Q : α → Annotations → Prop} (h : x.Gives l P) (hPQ : ∀ v a, P v a → Q v a) :
    x.Gives l Q := by
  obtain ⟨hrs, v, hv, htypes, hP⟩ := h
  exact ⟨hrs, v, hv, htypes, fun a ha => hPQ v a (hP a ha)⟩

theorem Gives.cast {Q : α → Annotations → Prop} (h : x.Gives l Q) (hl : l = m) : x.Gives m Q :=
  hl ▸ h

/-- Going on with a step that records nothing. -/
theorem Gives.bindNil {P : α → Annotations → Prop} {Q : β → Annotations → Prop}
    (hx : x.Gives l P) (hf : ∀ v, (f v).Gives [] fun w a => P v a → Q w a) :
    (x >>= f).Gives l Q :=
  (hx.bind hf).cast (List.append_nil l)

/-- A step that records nothing. -/
theorem Gives.of_result {v : α} {Q : α → Annotations → Prop} (hr : x.result = .ok v)
    (ht : x.types = []) (hrs : ∀ r ∈ x.reports, r.isError = true) (h : ∀ a, Q v a) :
    x.Gives [] Q :=
  ⟨hrs, v, hr, by rw [ht, List.map_nil], fun a _ => h a⟩

end Checked

mutual

/-- The types of what a statement writes are known, and tell the literals from the rest. -/
def Stmt.Written (a : Annotations) : Stmt → Prop
  | .write _ value =>
    ∃ ty, a.typeOf? value.id = some ty ∧ (ty = .string ↔ ∃ node text, value = .str node text)
  | .ifThen _ _ body => body.Written a
  | .ifElse _ _ thenBody elseBody => thenBody.Written a ∧ elseBody.Written a
  | .whileLoop _ _ body => body.Written a
  | _ => True

def Body.Written (a : Annotations) : Body → Prop
  | .block _ ss => Stmt.AllWritten a ss

def Stmt.AllWritten (a : Annotations) : List Stmt → Prop
  | [] => True
  | s :: ss => s.Written a ∧ Stmt.AllWritten a ss

end

open Binding Checked

namespace Typing

variable {p : Program} {a : Annotations} {env : List Decl}

theorem recorded_gives {node : Node} {ty : Ty} :
    (recorded node ty).Gives [node.id] fun v b => v = ty ∧ b.typeOf? node.id = some ty :=
  ⟨by simp [recorded, record], ty, rfl, rfl, fun b hb => ⟨rfl, hb (node.id, ty) (by
    simp [recorded, record])⟩⟩

theorem ident_gives (h : Resolved p a) {i : Ident} {k : SymbolId} (hl : a.Links i.id k) :
    (ident a i).Gives [] fun ty _ => ty.Stringless := by
  obtain ⟨s, hs⟩ := Annotations.exists_symbol? (h.sane.link hl)
  unfold ident
  rw [h.symbolOf? hl, hs]
  exact .pure fun _ => h.sane.stringless hs

/-- The type of an expression that is no string. -/
def Plain (id : NodeId) (ty : Ty) (b : Annotations) : Prop :=
  b.typeOf? id = some ty ∧ ty ≠ .string

theorem recorded_plain {node : Node} {ty : Ty} :
    (recorded node ty).Gives [node.id] fun v b => ty ≠ .string → Plain node.id v b :=
  recorded_gives.imp fun _ _ ⟨hv, hb⟩ hty => ⟨hv ▸ hb, hv ▸ hty⟩

theorem place_gives (h : Resolved p a) (q : Place) {k : SymbolId} (hq : PlaceBound env a q k) :
    (place a q).Gives q.exprIds (Plain q.node.id) := by
  induction q generalizing k with
  | var node name =>
    obtain ⟨⟨d, -, -, hl⟩⟩ := hq
    exact (ident_gives h hl).bind fun ty =>
      recorded_plain.imp fun _ _ hp hs => hp hs.1
  | field node base name ih =>
    cases hq with
    | field hb _ _ _ _ _ hl =>
      refine (ih hb).bind fun _ => ?_
      exact (ident_gives h hl).bind fun ty =>
        recorded_plain.imp fun _ _ hp hs _ => hp hs.1

/-- An expression has a type, that of a string if it is a literal of one. -/
def Known (e : Expr) (ty : Ty) (b : Annotations) : Prop :=
  b.typeOf? e.id = some ty ∧ (ty = .string ↔ ∃ node text, e = .str node text)

theorem Plain.known {e : Expr} {i : NodeId} {ty : Ty} {b : Annotations} (h : Plain i ty b)
    (hi : e.id = i) (he : ∀ node text, e ≠ .str node text) : Known e ty b :=
  ⟨hi ▸ h.1, fun hty => absurd hty h.2, fun ⟨node, text, hs⟩ => absurd hs (he node text)⟩

/-- A fault is an error. -/
theorem isError_of_mem {f : TypeFault} {span : Span} {r : Report} (h : r ∈ [f.report span]) :
    r.isError = true := by
  obtain rfl := List.mem_singleton.1 h
  rfl

theorem all_gives {accepts : Ty → Bool} {fault : TypeFault} {ty : Ty} {xs : List Operand}
    (hty : ty ≠ .string) : (Operand.all accepts fault ty xs).Gives [] fun v _ => v ≠ .string := by
  refine .of_result rfl rfl (fun r hr => ?_) fun _ => by split <;> simp [hty]
  obtain ⟨x, -, hx⟩ := List.mem_flatMap.1 hr
  unfold Operand.complaint at hx
  split at hx
  · cases hx
  · exact isError_of_mem hx

theorem combine_gives {fault? : Ty → Ty → Option TypeFault} {t u ty : Ty} {span : Span} :
    (Ty.combine fault? t u ty span).Gives [] fun v _ => ty ≠ .string → v ≠ .string := by
  unfold Ty.combine
  split
  · exact .pure fun _ _ => by simp
  · split
    · exact .of_result rfl rfl (fun _ => isError_of_mem) fun _ _ => by simp
    · exact .pure fun _ => id

theorem argumentReports_errors {xs : List Operand} {ps : List Ty} :
    ∀ r ∈ argumentReports xs ps, r.isError = true := by
  intro r hr
  obtain ⟨x, -, rfl⟩ := exists_of_mem_argumentReports hr
  rfl

theorem call_gives {callee : Ty} {span : Span} {args : List Operand} :
    (call callee span args).Gives [] fun v _ => callee.Stringless → v ≠ .string := by
  unfold call
  split
  next params ret =>
    split
    · exact .of_result rfl rfl argumentReports_errors fun _ hs => hs.2 params ret rfl
    · exact .of_result rfl rfl (fun _ => isError_of_mem) fun _ hs => hs.2 params ret rfl
  next => exact .of_result rfl rfl (fun _ => isError_of_mem) fun _ _ => by simp

theorem unary_gives {op : UnaryOp} {x : Operand} :
    (op.check x).Gives [] fun v _ => v ≠ .string := by
  cases op <;> exact all_gives (by simp)

theorem binary_gives {op : BinaryOp} {x y : Operand} {span : Span} :
    (op.check x y span).Gives [] fun v _ => v ≠ .string := by
  cases op with
  | arith | logical | order => exact all_gives (by simp)
  | equality => exact combine_gives.imp fun _ _ hv => hv (by simp)

/-- Recording the result of an operation that gives no string. -/
theorem result_gives {x : Checked Ty} {node : Node} {P : Annotations → Prop}
    (hx : x.Gives [] fun v b => P b → v ≠ .string) :
    (x >>= recorded node).Gives [node.id] fun v b => P b → Plain node.id v b :=
  hx.bind fun _ => recorded_plain.imp fun _ _ hp hv hP => hp (hv hP)

mutual

theorem expr_gives (h : Resolved p a) : ∀ e : Expr, ExprBound env a e →
    (expr a e).Gives e.exprIds (Known e)
  | .int node _, _ => recorded_plain.imp fun _ _ hp =>
      (hp (by simp)).known rfl (by simp)
  | .bool node _, _ => recorded_plain.imp fun _ _ hp =>
      (hp (by simp)).known rfl (by simp)
  | .str node text, _ => recorded_gives.imp fun _ _ ⟨hv, hb⟩ =>
      ⟨hv ▸ hb, fun _ => ⟨node, text, rfl⟩, fun _ => hv⟩
  | .place q, ⟨_, hq⟩ => (place_gives h q hq).imp fun _ _ hp =>
      hp.known rfl (by simp)
  | .assign node target value, ⟨⟨_, ht⟩, hv⟩ => by
    refine Gives.cast (l := target.exprIds ++ (value.exprIds ++ [node.id])) ?_
      (List.append_assoc ..).symm
    refine (place_gives h target ht).bind fun t => ?_
    refine (expr_gives h value hv).bind fun v => ?_
    refine (result_gives (P := fun _ => t ≠ .string) combine_gives).imp fun _ _ hr _ hp => ?_
    exact (hr hp.2).known rfl (by simp)
  | .call node callee args, ⟨⟨_, _, _, _, hl⟩, hargs⟩ => by
    refine (operands_gives h args hargs).bind fun xs => ?_
    refine (ident_gives h hl).bind fun ty => ?_
    refine (result_gives (P := fun _ => ty.Stringless) call_gives).imp fun _ _ hr hs _ => ?_
    exact (hr hs).known rfl (by simp)
  | .unary node op operand, hb => by
    refine (expr_gives h operand hb).bind fun ty => ?_
    refine (result_gives (P := fun _ => True)
      (unary_gives.imp fun _ _ hv _ => hv)).imp fun _ _ hr _ => ?_
    exact (hr trivial).known rfl (by simp)
  | .binary node op left right, ⟨hl, hr⟩ => by
    refine Gives.cast (l := left.exprIds ++ (right.exprIds ++ [node.id])) ?_
      (List.append_assoc ..).symm
    refine (expr_gives h left hl).bind fun _ => ?_
    refine (expr_gives h right hr).bind fun _ => ?_
    refine (result_gives (P := fun _ => True)
      (binary_gives.imp fun _ _ hv _ => hv)).imp fun _ _ hr _ _ => ?_
    exact (hr trivial).known rfl (by simp)

theorem operands_gives (h : Resolved p a) : ∀ es : List Expr, ExprsBound env a es →
    (operands a es).Gives (Expr.allExprIds es) fun _ _ => True
  | [], _ => .pure fun _ => trivial
  | e :: es, ⟨he, hes⟩ => by
    refine (expr_gives h e he).bind fun _ => ?_
    exact (operands_gives h es hes).bindNil fun _ => .pure fun _ _ _ => trivial

end

/-! ## Statements and programs -/

/-- A complaint, or none. -/
theorem complaint_gives {c : Prop} [Decidable c] {r : Report} (hr : r.isError = true) :
    (if c then report r else pure () : Checked Unit).Gives [] fun _ _ => True := by
  split
  · exact .of_result rfl rfl (fun _ h => List.mem_singleton.1 h ▸ hr) fun _ => trivial
  · exact .pure fun _ => trivial

theorem condition_gives (h : Resolved p a) {e : Expr} (he : ExprBound env a e) :
    (condition a e).Gives e.exprIds fun _ _ => True :=
  (expr_gives h e he).bindNil fun _ => (complaint_gives (by rfl)).imp fun _ _ _ _ => trivial

theorem step_gives (h : Resolved p a) {q : Place} {k : SymbolId} (hq : PlaceBound env a q k) :
    (step a q).Gives q.exprIds fun _ _ => True := by
  refine (place_gives h q hq).bindNil fun _ => ?_
  exact (all_gives (by simp)).bind fun _ => .pure fun _ _ _ => trivial

theorem read_gives (h : Resolved p a) {q : Place} {k : SymbolId} (hq : PlaceBound env a q k) :
    (read a q).Gives q.exprIds fun _ _ => True := by
  refine (place_gives h q hq).bindNil fun ty => ?_
  cases ty.composite? with
  | some kind => exact .of_result rfl rfl (fun _ => isError_of_mem) fun _ _ => trivial
  | none => exact .pure fun _ _ => trivial

theorem write_gives (h : Resolved p a) {e : Expr} (he : ExprBound env a e) :
    (write a e).Gives e.exprIds fun _ b => ∃ ty, Known e ty b := by
  refine (expr_gives h e he).bindNil fun ty => ?_
  cases ty.composite? with
  | some kind => exact .of_result rfl rfl (fun _ => isError_of_mem) fun _ hk => ⟨ty, hk⟩
  | none => exact (complaint_gives (by rfl)).imp fun _ _ _ hk => ⟨ty, hk⟩

theorem ret_gives (h : Resolved p a) {e : Expr} {expected : Ty} (he : ExprBound env a e) :
    (ret a expected (some e)).Gives e.exprIds fun _ _ => True := by
  refine (expr_gives h e he).bindNil fun ty => ?_
  split
  · exact .of_result rfl rfl (fun _ => isError_of_mem) fun _ _ => trivial
  · exact (complaint_gives (by rfl)).imp fun _ _ _ _ => trivial

mutual

theorem stmt_gives (h : Resolved p a) (expected : Ty) : ∀ (s : Stmt) {env : List Decl} {n : Nat},
    StmtBound a env n s → (stmt a expected s).Gives s.exprIds fun _ b => s.Written b
  | .assign _ node target value, _, _, hb =>
    (expr_gives h (.assign node target value) hb).bindNil fun _ => .pure fun _ _ => trivial
  | .increment _ _, _, _, ⟨_, hq⟩ | .decrement _ _, _, _, ⟨_, hq⟩ =>
    (step_gives h hq).imp fun _ _ _ => trivial
  | .read _ _, _, _, ⟨_, hq⟩ => (read_gives h hq).imp fun _ _ _ => trivial
  | .write _ _, _, _, hb => write_gives h hb
  | .ifThen _ cond b, _, _, ⟨hc, hb⟩ =>
    (condition_gives h hc).bind fun _ => (body_gives h expected b hb).imp fun _ _ hw _ => hw
  | .ifElse _ cond b b', _, _, ⟨hc, hb, hb'⟩ => by
    refine Gives.cast (l := cond.exprIds ++ (b.exprIds ++ b'.exprIds)) ?_
      (List.append_assoc ..).symm
    refine (condition_gives h hc).bind fun _ => ?_
    refine (body_gives h expected b hb).bind fun _ => ?_
    exact (body_gives h expected b' hb').imp fun _ _ hw' hw _ => ⟨hw, hw'⟩
  | .whileLoop _ cond b, _, _, ⟨hc, hb⟩ =>
    (condition_gives h hc).bind fun _ => (body_gives h expected b hb).imp fun _ _ hw _ => hw
  | .call _ node callee args, _, _, hb =>
    (expr_gives h (.call node callee args) hb).bindNil fun _ => .pure fun _ _ => trivial
  | .ret _ none, _, _, _ => (complaint_gives (by rfl)).imp fun _ _ _ => trivial
  | .ret _ (some _), _, _, hb => (ret_gives h hb).imp fun _ _ _ => trivial

theorem body_gives (h : Resolved p a) (expected : Ty) : ∀ (b : Body) {env : List Decl} {n : Nat},
    BodyBound a env n b → (body a expected b).Gives b.exprIds fun _ c => b.Written c
  | .block _ ss, _, _, ⟨_, hs⟩ => stmts_gives h expected ss hs

theorem stmts_gives (h : Resolved p a) (expected : Ty) :
    ∀ (ss : List Stmt) {env : List Decl} {n : Nat}, StmtsBound a env n ss →
      (stmts a expected ss).Gives (Stmt.allExprIds ss) fun _ b => Stmt.AllWritten b ss
  | [], _, _, _ => .pure fun _ => trivial
  | s :: ss, _, _, ⟨hs, hss⟩ =>
    (stmt_gives h expected s hs).bind fun _ =>
      (stmts_gives h expected ss hss).imp fun _ _ hw' hw => ⟨hw, hw'⟩

end

theorem functions_gives (h : Resolved p a) (ds : List Decl) {env : List Decl} {n : Nat}
    (hb : DeclsBound a env n ds) :
    (functions a (ds.filterMap Decl.fn?)).Gives (ds.flatMap Decl.exprIds) fun _ b =>
      ∀ f, Decl.fn f ∈ ds → f.body.Written b := by
  induction ds generalizing env n with
  | nil => exact .pure fun _ _ hf => nomatch hf
  | cons d ds ih =>
    obtain ⟨hd, hds⟩ := hb
    cases d with
    | var d | struct d => exact (ih hds).imp fun _ _ hw f hf => hw f (by simpa using hf)
    | fn d =>
      refine (body_gives h _ d.body hd.2.2).bind fun _ => (ih hds).imp fun _ _ hw hd f hf => ?_
      obtain hf | hf := List.mem_cons.1 hf
      · cases hf
        exact hd
      · exact hw f hf

end Typing

/-- Types do not matter for names. -/
theorem Resolved.retype {p : Program} {a b : Annotations} (h : Resolved p a)
    (hs : b.symbols = a.symbols) (hl : b.links = a.links) : Resolved p b := by
  obtain ⟨symbols, links, types⟩ := a
  obtain ⟨_, _, types'⟩ := b
  simp only at hs hl
  subst hs hl
  exact ⟨⟨h.sane.link, h.sane.definition, h.sane.field, h.sane.stringless⟩, h.single, h.size,
    h.lasting.keep ⟨id, fun hs _ => ⟨_, hs, .refl _⟩⟩,
    h.described.imp fun hs => ⟨_, hs, fun _ => id⟩, h.nodup⟩

theorem Annotations.withTypes_eq (a : Annotations) (ts : List (NodeId × Ty)) :
    a.withTypes ts = { a with types := ⟨ts.reverse ++ a.types.entries⟩ } := by
  induction ts generalizing a with
  | nil => rfl
  | cons t ts ih =>
    rw [withTypes, List.foldl_cons]
    refine (ih _).trans ?_
    simp [setType, NodeMap.insert]

theorem Annotations.typeOf?_withTypes {a : Annotations} {ts : List (NodeId × Ty)}
    (hone : ∀ i, (ts.map Prod.fst).count i ≤ 1) {t : NodeId × Ty} (ht : t ∈ ts) :
    (a.withTypes ts).typeOf? t.1 = some t.2 := by
  have hone' : (ts.reverse.map Prod.fst).count t.1 ≤ 1 := by
    rw [List.map_reverse, List.count_reverse]
    exact hone t.1
  have hget := NodeMap.get?_of_mem (m := ⟨ts.reverse⟩) hone' (List.mem_reverse.2 ht)
  rw [NodeMap.get?] at hget
  rw [Annotations.withTypes_eq, Annotations.typeOf?, NodeMap.get?, List.lookup_append, hget]
  rfl

theorem Typing.program_gives {p : Program} {a : Annotations} (h : Resolved p a) :
    (Typing.program a p).Gives p.exprIds fun _ b =>
      ∀ f, Decl.fn f ∈ p.decls → f.body.Written b :=
  (Typing.functions_gives h p.decls h.bound).bindNil fun _ =>
    (Typing.complaint_gives (by rfl)).imp fun _ _ _ hw => hw

/-- No node of a program is given a type twice. -/
theorem Typing.program_single {p : Program} {a : Annotations} (h : Resolved p a)
    (hn : p.ids.Nodup) (i : NodeId) : ((Typing.program a p).types.map Prod.fst).count i ≤ 1 := by
  obtain ⟨-, _, -, htypes, -⟩ := Typing.program_gives h
  have := List.nodup_iff_count.1 hn i
  have := p.count_ids i
  rw [htypes]
  omega

/-- **Checking a program whose names are bound succeeds**, and leaves the types of all that
is written. -/
theorem checkTypes_written {p : Program} {a : Annotations} (h : Resolved p a)
    (hn : p.ids.Nodup) : ∃ b rs, checkTypes p a = (.ok (), b, rs) ∧
      (∀ r ∈ rs, r.isError = true) ∧ Resolved p b ∧
      ∀ f, Decl.fn f ∈ p.decls → f.body.Written b := by
  obtain ⟨hrs, _, hr, -, hw⟩ := Typing.program_gives h
  refine ⟨_, _, by rw [checkTypes, hr], hrs, ?_, hw _ fun t ht => ?_⟩
  · rw [Annotations.withTypes_eq]
    exact h.retype rfl rfl
  · exact Annotations.typeOf?_withTypes (Typing.program_single h hn) ht

end FlatC
