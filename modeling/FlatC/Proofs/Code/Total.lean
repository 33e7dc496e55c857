import FlatC.Session
import FlatC.Proofs.Layout.Tiling
import FlatC.Proofs.Typing.Records

/-!
# No stage meets a defect

Code is written for every program whose names are bound and whose written values have types
(`generate_total`). With what the stages before it leave behind, that makes `compile` end
without a defect on every text.
-/

namespace FlatC

open Binding

namespace Code

variable {p : Program} {a : Annotations} {env : List Decl} {o : Options} {exit : String}

/-- The step gives code. -/
abbrev Ends {α : Type} (x : Gen α) (n : Nat) : Prop := Yields x n fun _ _ => True

theorem symbolOf_ends (h : Resolved p a) {i : Ident} {k : SymbolId} (hl : a.Links i.id k)
    (n : Nat) : Ends (symbolOf a i) n := by
  obtain ⟨s, hs⟩ := Annotations.exists_symbol? (h.sane.link hl)
  unfold symbolOf
  rw [h.symbolOf? hl, hs]
  exact .pure trivial

theorem location_ends (h : Resolved p a) (q : Place) {k : SymbolId} (hq : PlaceBound env a q k)
    (n : Nat) : Ends (location a q) n := by
  induction q generalizing k n with
  | var node name =>
    obtain ⟨⟨d, -, -, hl⟩⟩ := hq
    exact (symbolOf_ends h hl n).bind fun _ _ _ => .pure trivial
  | field node base name ih =>
    cases hq with
    | field hb _ _ _ _ _ hl =>
      exact (symbolOf_ends h hl n).bind fun _ m _ => (ih hb m).bind fun _ _ _ => .pure trivial

theorem label_ends (stem : String) (n : Nat) : Ends (Gen.label stem) n := ⟨_, _, rfl, trivial⟩

mutual

theorem expr_ends (h : Resolved p a) : ∀ (e : Expr), ExprBound env a e → ∀ n, Ends (expr o a e) n
  | .int .., _, _ | .bool .., _, _ => by unfold expr; exact .pure trivial
  | .str .., _, n => by
    unfold expr
    exact (label_ends _ n).bind fun _ _ _ => .pure trivial
  | .place q, ⟨_, hq⟩, n => by
    unfold expr
    exact (location_ends h q hq n).bind fun _ _ _ => .pure trivial
  | .assign _ target value, ⟨⟨_, ht⟩, hv⟩, n => by
    unfold expr
    exact (expr_ends h value hv n).bind fun _ m _ =>
      (location_ends h target ht m).bind fun _ _ _ => .pure trivial
  | .call _ callee args, ⟨_, hargs⟩, n => by
    unfold expr
    exact (exprs_ends h args hargs n).bind fun _ _ _ => .pure trivial
  | .unary _ _ operand, hb, n => by
    unfold expr
    exact (expr_ends h operand hb n).bind fun _ _ _ => .pure trivial
  | .binary _ (.arith _) left right, ⟨hl, hr⟩, n | .binary _ (.equality _) left right, ⟨hl, hr⟩, n
  | .binary _ (.order _) left right, ⟨hl, hr⟩, n => by
    unfold expr
    exact (expr_ends h left hl n).bind fun _ m _ =>
      (expr_ends h right hr m).bind fun _ _ _ => .pure trivial
  | .binary _ (.logical _) left right, ⟨hl, hr⟩, n => by
    unfold expr
    exact (label_ends _ n).bind fun _ m _ => (expr_ends h left hl m).bind fun _ k _ =>
      (expr_ends h right hr k).bind fun _ _ _ => .pure trivial

theorem exprs_ends (h : Resolved p a) :
    ∀ (es : List Expr), ExprsBound env a es → ∀ n, Ends (exprs o a es) n
  | [], _, _ => by unfold exprs; exact .pure trivial
  | e :: es, ⟨he, hes⟩, n => by
    unfold exprs
    exact (expr_ends h e he n).bind fun _ m _ =>
      (exprs_ends h es hes m).bind fun _ _ _ => .pure trivial

end

theorem branchUnless_ends (h : Resolved p a) {cond : Expr} (hb : ExprBound env a cond)
    (target : String) (n : Nat) : Ends (branchUnless o a cond target) n :=
  (expr_ends h cond hb n).bind fun _ _ _ => .pure trivial

theorem step_ends (h : Resolved p a) {q : Place} {k : SymbolId} (hq : PlaceBound env a q k)
    (delta : Int) (n : Nat) : Ends (step a delta q) n :=
  (location_ends h q hq n).bind fun _ _ _ => .pure trivial

theorem write_ends (h : Resolved p a) {span : Span} {value : Expr} (hb : ExprBound env a value)
    (hw : (Stmt.write span value).Written a) (n : Nat) : Ends (write o a value) n := by
  obtain ⟨ty, hty, -⟩ := hw
  have hcall : Ends (printCall a value) n := by
    unfold printCall
    rw [hty]
    cases ty <;> exact ⟨_, _, rfl, trivial⟩
  exact hcall.bind fun _ m _ => (expr_ends h value hb m).bind fun _ _ _ => .pure trivial

mutual

theorem stmt_ends (h : Resolved p a) : ∀ (s : Stmt) {env : List Decl} {k : Nat},
    StmtBound a env k s → s.Written a → ∀ n, Ends (stmt o a exit s) n
  | .assign _ node target value, _, _, hb, _, n => by
    unfold stmt
    exact (expr_ends h (.assign node target value) hb n).bind fun _ _ _ => .pure trivial
  | .increment _ _, _, _, ⟨_, hq⟩, _, n | .decrement _ _, _, _, ⟨_, hq⟩, _, n => by
    unfold stmt
    exact (step_ends h hq _ n).bind fun _ _ _ => .pure trivial
  | .read _ q, _, _, ⟨_, hq⟩, _, n => by
    unfold stmt
    exact (location_ends h q hq n).bind fun _ _ _ => .pure trivial
  | .write _ _, _, _, hb, hw, n => by
    unfold stmt
    exact write_ends h hb hw n
  | .ifThen _ _ b, _, _, ⟨hc, hb⟩, hw, n => by
    unfold stmt
    exact (label_ends _ n).bind fun _ m _ => (branchUnless_ends h hc _ m).bind fun _ l _ =>
      (body_ends h b hb hw l).bind fun _ _ _ => .pure trivial
  | .ifElse _ _ b b', _, _, ⟨hc, hb, hb'⟩, ⟨hw, hw'⟩, n => by
    unfold stmt
    exact (label_ends _ n).bind fun _ m _ => (label_ends _ m).bind fun _ l _ =>
      (branchUnless_ends h hc _ l).bind fun _ i _ => (body_ends h b hb hw i).bind fun _ j _ =>
        (body_ends h b' hb' hw' j).bind fun _ _ _ => .pure trivial
  | .whileLoop _ _ b, _, _, ⟨hc, hb⟩, hw, n => by
    unfold stmt
    exact (label_ends _ n).bind fun _ m _ => (label_ends _ m).bind fun _ l _ =>
      (branchUnless_ends h hc _ l).bind fun _ i _ =>
        (body_ends h b hb hw i).bind fun _ _ _ => .pure trivial
  | .call _ node callee args, _, _, hb, _, n => by
    unfold stmt
    exact (expr_ends h (.call node callee args) hb n).bind fun _ _ _ => .pure trivial
  | .ret _ none, _, _, _, _, n => by unfold stmt; exact .pure trivial
  | .ret _ (some value), _, _, hb, _, n => by
    unfold stmt
    have hvalue : Ends (returnValue o a (some value)) n :=
      (expr_ends h value hb n).bind fun _ _ _ => .pure trivial
    exact hvalue.bind fun _ _ _ => .pure trivial

theorem body_ends (h : Resolved p a) : ∀ (b : Body) {env : List Decl} {k : Nat},
    BodyBound a env k b → b.Written a → ∀ n, Ends (body o a exit b) n
  | .block _ ss, _, _, ⟨_, hs⟩, hw, n => by unfold body; exact stmts_ends h ss hs hw n

theorem stmts_ends (h : Resolved p a) : ∀ (ss : List Stmt) {env : List Decl} {k : Nat},
    StmtsBound a env k ss → Stmt.AllWritten a ss → ∀ n, Ends (stmts o a exit ss) n
  | [], _, _, _, _, n => by unfold stmts; exact .pure trivial
  | s :: ss, _, _, ⟨hs, hss⟩, ⟨hw, hws⟩, n => by
    unfold stmts
    exact (stmt_ends h s hs hw n).bind fun _ m _ =>
      (stmts_ends h ss hss hws m).bind fun _ _ _ => .pure trivial

end

theorem decl_ends (h : Resolved p a) {d : Decl} {k : Nat} (hb : DeclBound a env k d)
    (hfn : ∀ f, d = .fn f → (∃ s, a.symbol? k = some s ∧ f.Described s) ∧ f.body.Written a)
    (n : Nat) : Ends (decl o a d) n := by
  cases d with
  | var d =>
    obtain ⟨hl, s, hs, -⟩ := hb
    show Ends (globalVar a d) n
    unfold globalVar
    rw [h.symbolOf? hl, hs]
    exact .pure trivial
  | struct d => exact .pure trivial
  | fn d =>
    obtain ⟨⟨s, hs, -, info, hinfo, -⟩, hw⟩ := hfn d rfl
    have hfnInfo : Ends (fnInfo a d.name) n := by
      unfold fnInfo
      rw [h.symbolOf? hb.1, hs, Option.bind_some, hinfo]
      exact .pure trivial
    exact hfnInfo.bind fun _ m _ =>
      (body_ends h d.body hb.2.2 hw m).bind fun _ _ _ => .pure trivial

theorem decls_ends (h : Resolved p a) (ds : List Decl) {env : List Decl} {k : Nat}
    (hb : DeclsBound a env k ds) (hfns : FnsDescribed a k ds)
    (hw : ∀ f, Decl.fn f ∈ ds → f.body.Written a) (n : Nat) : Ends (decls o a ds) n := by
  induction ds generalizing env k n with
  | nil => exact .pure trivial
  | cons d ds ih =>
    have hd : Ends (decl o a d) n :=
      decl_ends h hb.1 (fun f hf => ⟨hfns.1 f hf, hw f (hf ▸ .head _)⟩) n
    exact hd.bind fun _ m _ =>
      (ih hb.2 hfns.2 (fun f hf => hw f (.tail _ hf)) m).bind fun _ _ _ => .pure trivial

end Code

/-! ## The stages together -/

/-- Layout leaves the types alone. -/
theorem Annotations.Shifts.typeOf? {a b : Annotations} {n m : Nat} (h : a.Shifts b n m) :
    b.typeOf? = a.typeOf? := by
  funext i
  rw [Annotations.typeOf?, h.types]
  rfl

mutual

theorem Stmt.Written.congr {a b : Annotations} (h : b.typeOf? = a.typeOf?) :
    ∀ {s : Stmt}, s.Written a → s.Written b
  | .write _ _, hw => by
    unfold Stmt.Written at hw ⊢
    rwa [h]
  | .ifThen _ _ body, hw | .whileLoop _ _ body, hw =>
    (show Body.Written b body from Body.Written.congr h hw)
  | .ifElse _ _ _ _, ⟨hw, hw'⟩ => ⟨hw.congr h, hw'.congr h⟩
  | .assign .., _ | .increment .., _ | .decrement .., _ | .read .., _ | .call .., _
  | .ret .., _ => trivial

theorem Body.Written.congr {a b : Annotations} (h : b.typeOf? = a.typeOf?) :
    ∀ {b' : Body}, b'.Written a → b'.Written b
  | .block _ _, hw => Stmt.AllWritten.congr h hw

theorem Stmt.AllWritten.congr {a b : Annotations} (h : b.typeOf? = a.typeOf?) :
    ∀ {ss : List Stmt}, Stmt.AllWritten a ss → Stmt.AllWritten b ss
  | [], _ => trivial
  | _ :: _, ⟨hw, hws⟩ => ⟨Stmt.Written.congr h hw, Stmt.AllWritten.congr h hws⟩

end

end FlatC
