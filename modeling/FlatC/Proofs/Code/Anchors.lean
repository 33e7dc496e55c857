import FlatC.Proofs.Typing.Movement

/-!
# The names in labels

The label of a function that is called and that of a variable in the data section are made of the
name as it is written where it is used. An expression is **anchored** if each of these names is one
that the program declares on its outermost level: those of the functions that it calls
(`Expr.callees`), and those that its places start with, where they stand for a variable outside all
functions. Every expression of a program that nothing is wrong with is anchored
(`Analyzed.anchored`).
-/

namespace FlatC

mutual

/-- The names of the functions that an expression calls. -/
def Expr.callees : Expr → List Ident
  | .int .. | .str .. | .bool .. | .place _ => []
  | .assign _ _ value => value.callees
  | .call _ callee args => callee :: Expr.allCallees args
  | .unary _ _ operand => operand.callees
  | .binary _ _ left right => left.callees ++ right.callees

def Expr.allCallees : List Expr → List Ident
  | [] => []
  | e :: es => e.callees ++ Expr.allCallees es

end

/-- If the place starts with a variable outside all functions, the program declares its name. -/
def Place.Anchored (p : Program) (b : Annotations) (q : Place) : Prop :=
  ∀ s, b.symbolOf? q.root.id = some s → s.isGlobal = true →
    ∃ d, Decl.var d ∈ p.decls ∧ d.name.name = q.root.name

/-- The program declares a function of that name. -/
def Ident.Anchored (p : Program) (i : Ident) : Prop :=
  ∃ f, Decl.fn f ∈ p.decls ∧ f.name.name = i.name

/-- The names that end up in the labels of the code are declared. -/
structure Expr.Anchored (p : Program) (b : Annotations) (e : Expr) : Prop where
  moved : ∀ q ∈ e.moved, q.Anchored p b
  callees : ∀ i ∈ e.callees, i.Anchored p

/-- The expressions of a function are anchored. -/
def FnDecl.Anchored (p : Program) (b : Annotations) (f : FnDecl) : Prop :=
  ∃ before, ∀ r ∈ f.exprs before, r.2.Anchored p b

section

variable {p : Program} {b : Annotations} {node : Node}

theorem Place.anchored_expr {q : Place} : (Expr.place q).Anchored p b ↔ q.Anchored p b := by
  constructor
  · intro h
    exact h.moved q (List.mem_singleton.2 rfl)
  · intro h
    exact ⟨by simpa [Expr.moved] using h, by simp [Expr.callees]⟩

theorem Expr.anchored_assign {q : Place} {e : Expr} :
    (Expr.assign node q e).Anchored p b ↔ q.Anchored p b ∧ e.Anchored p b := by
  constructor
  · rintro ⟨hm, hc⟩
    rw [Expr.moved, List.forall_mem_cons] at hm
    exact ⟨hm.1, hm.2, hc⟩
  · rintro ⟨hq, he⟩
    exact ⟨List.forall_mem_cons.2 ⟨hq, he.moved⟩, he.callees⟩

theorem Expr.anchored_call {i : Ident} {es : List Expr} :
    (Expr.call node i es).Anchored p b ↔ i.Anchored p ∧ ∀ e ∈ es, e.Anchored p b := by
  have hargs : ((∀ q ∈ Expr.allMoved es, q.Anchored p b) ∧
      ∀ i ∈ Expr.allCallees es, i.Anchored p) ↔ ∀ e ∈ es, e.Anchored p b := by
    induction es with
    | nil => simp [Expr.allMoved, Expr.allCallees]
    | cons e es ih =>
      rw [List.forall_mem_cons, ← ih, Expr.allMoved, Expr.allCallees, List.forall_mem_append,
        List.forall_mem_append]
      constructor
      · rintro ⟨⟨hm, hms⟩, hc, hcs⟩
        exact ⟨⟨hm, hc⟩, hms, hcs⟩
      · rintro ⟨⟨hm, hc⟩, hms, hcs⟩
        exact ⟨⟨hm, hms⟩, hc, hcs⟩
  rw [← hargs]
  constructor
  · rintro ⟨hm, hc⟩
    rw [Expr.callees, List.forall_mem_cons] at hc
    exact ⟨hc.1, hm, hc.2⟩
  · rintro ⟨hi, hm, hc⟩
    exact ⟨hm, List.forall_mem_cons.2 ⟨hi, hc⟩⟩

theorem Expr.anchored_unary {op : UnaryOp} {e : Expr} :
    (Expr.unary node op e).Anchored p b ↔ e.Anchored p b :=
  ⟨fun h => ⟨h.moved, h.callees⟩, fun h => ⟨h.moved, h.callees⟩⟩

theorem Expr.anchored_binary {op : BinaryOp} {l r : Expr} :
    (Expr.binary node op l r).Anchored p b ↔ l.Anchored p b ∧ r.Anchored p b := by
  constructor
  · rintro ⟨hm, hc⟩
    rw [Expr.moved, List.forall_mem_append] at hm
    rw [Expr.callees, List.forall_mem_append] at hc
    exact ⟨⟨hm.1, hc.1⟩, hm.2, hc.2⟩
  · rintro ⟨hl, hr⟩
    exact ⟨List.forall_mem_append.2 ⟨hl.moved, hr.moved⟩,
      List.forall_mem_append.2 ⟨hl.callees, hr.callees⟩⟩

end

open Binding Grammar Surroundings

/-! ## Functions that are called -/

section Callees

variable {v : Surroundings}

/-- A function is declared on the outermost level. -/
theorem Surroundings.Means.fn {x : String} {f : FnDecl} (h : v.Means x (.fn f)) :
    Decl.fn f ∈ v.decls := by
  unfold Means at h
  generalize v.blocks = bs at h
  generalize hd : Decl.fn f = d at h
  induction h with
  | here => cases hd
  | around _ _ ih => exact ih hd
  | program hmem _ => exact hmem

/-- The name stands for a function. -/
def Ident.Calls (v : Surroundings) (i : Ident) : Prop := ∃ f, v.Means i.name (.fn f)

theorem Ident.Calls.anchored {p : Program} {i : Ident} (h : i.Calls v)
    (hsub : ∀ d ∈ v.decls, d ∈ p.decls) : i.Anchored p := by
  obtain ⟨f, hf⟩ := h
  exact ⟨f, hsub _ hf.fn, Option.some.inj hf.value⟩

mutual

theorem HasType.calls : ∀ (e : Expr) {ty : Ty}, HasType v e ty → ∀ i ∈ e.callees, i.Calls v
  | .int .., _, _ | .str .., _, _ | .bool .., _, _ | .place _, _, _ => by simp [Expr.callees]
  | .assign _ _ value, _, .assign _ he _ _ => HasType.calls value he
  | .call _ callee args, _, .call hd hfn hargs _ => by
    obtain ⟨f, rfl, -, -⟩ := Decl.fn_of_ty hfn
    rw [Expr.callees, List.forall_mem_cons]
    exact ⟨⟨f, hd⟩, HasTypes.calls args hargs⟩
  | .unary _ _ operand, _, .negate he | .unary _ _ operand, _, .not he => HasType.calls operand he
  | .binary _ _ left right, _, .arith hl hr | .binary _ _ left right, _, .logical hl hr
  | .binary _ _ left right, _, .order hl hr | .binary _ _ left right, _, .equality hl hr _ _ _ => by
    rw [Expr.callees, List.forall_mem_append]
    exact ⟨HasType.calls left hl, HasType.calls right hr⟩

theorem HasTypes.calls : ∀ (es : List Expr) {tys : List Ty}, HasTypes v es tys →
    ∀ i ∈ Expr.allCallees es, i.Calls v
  | [], _, _ => by simp [Expr.allCallees]
  | e :: es, _, .cons he hes => by
    rw [Expr.allCallees, List.forall_mem_append]
    exact ⟨HasType.calls e he, HasTypes.calls es hes⟩

end

mutual

theorem StmtTyped.calls {ret : Ty} : ∀ (st : Stmt) {v : Surroundings}, StmtTyped ret v st →
    ∀ r ∈ st.exprs v, ∀ i ∈ r.2.callees, i.Calls r.1
  | .assign .., v, .assign h | .increment .., v, .increment h | .decrement .., v, .decrement h
  | .read .., v, .read h _ | .write .., v, .write h _ _ | .call .., v, .call h
  | .ret _ (some _), v, .retValue _ h _ => by
    rw [Stmt.exprs, List.forall_mem_singleton]
    exact HasType.calls _ h
  | .ret _ none, v, _ => by simp [Stmt.exprs]
  | .ifThen _ _ b, v, .ifThen he hb | .whileLoop _ _ b, v, .whileLoop he hb => by
    rw [Stmt.exprs, List.forall_mem_cons]
    exact ⟨HasType.calls _ he, BodyTyped.calls b hb⟩
  | .ifElse _ _ b b', v, .ifElse he hb hb' => by
    rw [Stmt.exprs, List.forall_mem_cons, List.forall_mem_append]
    exact ⟨HasType.calls _ he, BodyTyped.calls b hb, BodyTyped.calls b' hb'⟩

theorem BodyTyped.calls {ret : Ty} : ∀ (b : Body) {v : Surroundings}, BodyTyped ret v b →
    ∀ r ∈ b.exprs v, ∀ i ∈ r.2.callees, i.Calls r.1
  | .block _ ss, _, .block h => StmtsTyped.calls ss h

theorem StmtsTyped.calls {ret : Ty} : ∀ (ss : List Stmt) {v : Surroundings}, StmtsTyped ret v ss →
    ∀ r ∈ Stmt.manyExprs v ss, ∀ i ∈ r.2.callees, i.Calls r.1
  | [], v, _ => by simp [Stmt.manyExprs]
  | st :: ss, v, .cons h hss => by
    rw [Stmt.manyExprs, List.forall_mem_append]
    exact ⟨StmtTyped.calls st h, StmtsTyped.calls ss hss⟩

end

end Callees

/-! ## Variables outside all functions -/

section Roots

variable {p : Program} {a : Annotations} {v : Surroundings}

mutual

/-- The blocks around an expression are those around the statement, and blocks in it. -/
theorem Stmt.blocks_of_exprs : ∀ (st : Stmt) (v : Surroundings), ∀ r ∈ st.exprs v,
    ∀ b ∈ r.1.blocks, b ∈ v.blocks ∨ b ⊆ st.allDecls
  | .assign .., v | .increment .., v | .decrement .., v | .read .., v | .write .., v
  | .call .., v | .ret _ (some _), v => by
    rw [Stmt.exprs, List.forall_mem_singleton]
    exact fun b hb => .inl hb
  | .ret _ none, v => by simp [Stmt.exprs]
  | .ifThen _ _ b, v | .whileLoop _ _ b, v => by
    rw [Stmt.exprs, List.forall_mem_cons]
    exact ⟨fun b hb => .inl hb, Body.blocks_of_exprs b v⟩
  | .ifElse _ _ b b', v => by
    rw [Stmt.exprs, List.forall_mem_cons, List.forall_mem_append]
    refine ⟨fun b hb => .inl hb, fun r hr c hc => ?_, fun r hr c hc => ?_⟩
    · exact (Body.blocks_of_exprs b v r hr c hc).imp_right (List.subset_append_of_subset_left _)
    · exact (Body.blocks_of_exprs b' v r hr c hc).imp_right (List.subset_append_of_subset_right _)

theorem Body.blocks_of_exprs : ∀ (b : Body) (v : Surroundings), ∀ r ∈ b.exprs v,
    ∀ c ∈ r.1.blocks, c ∈ v.blocks ∨ c ⊆ b.allDecls
  | .block ds ss, v => by
    intro r hr c hc
    rcases Stmt.blocks_of_manyExprs ss (v.enter ds) r hr c hc with h | h
    · rcases List.mem_cons.1 h with rfl | h
      · exact .inr (List.subset_append_left _ _)
      · exact .inl h
    · exact .inr (List.subset_append_of_subset_right _ h)

theorem Stmt.blocks_of_manyExprs : ∀ (ss : List Stmt) (v : Surroundings),
    ∀ r ∈ Stmt.manyExprs v ss, ∀ b ∈ r.1.blocks, b ∈ v.blocks ∨ b ⊆ Stmt.manyDecls ss
  | [], v => by simp [Stmt.manyExprs]
  | st :: ss, v => by
    rw [Stmt.manyExprs, List.forall_mem_append]
    refine ⟨fun r hr c hc => ?_, fun r hr c hc => ?_⟩
    · exact (Stmt.blocks_of_exprs st v r hr c hc).imp_right (List.subset_append_of_subset_left _)
    · exact (Stmt.blocks_of_manyExprs ss v r hr c hc).imp_right
        (List.subset_append_of_subset_right _)

end

/-- What the blocks around an expression of a function declare are variables of the function. -/
theorem FnDecl.blocks_of_exprs {f : FnDecl} {before : List Decl} {r : Surroundings × Expr}
    (hr : r ∈ f.exprs before) {b : List VarDecl} (hb : b ∈ r.1.blocks) : b ⊆ f.variables := by
  have hbody : f.body.allDecls = f.body.decls ++ Stmt.manyDecls f.body.stmts := by
    cases f.body with
    | block ds ss => rfl
  rw [FnDecl.variables, hbody, ← List.append_assoc]
  rcases Stmt.blocks_of_manyExprs f.body.stmts _ r hr b hb with h | h
  · obtain rfl := List.mem_singleton.1 h
    exact List.subset_append_left _ _
  · exact List.subset_append_of_subset_right _ h

/-- A name stands for a variable of a block, or for one outside all functions. -/
theorem Surroundings.Means.var {x : String} {d : VarDecl} (h : v.Means x (.var d)) :
    (∃ b ∈ v.blocks, d ∈ b) ∨ Decl.var d ∈ v.decls := by
  unfold Means at h
  generalize v.blocks = bs at h
  generalize hd : Decl.var d = d' at h
  induction h with
  | here hmem _ =>
    obtain rfl := Decl.var.inj hd
    exact .inl ⟨_, .head _, hmem⟩
  | around _ _ ih => exact (ih hd).imp_left fun ⟨b, hb, hmem⟩ => ⟨b, .tail _ hb, hmem⟩
  | program hmem _ => exact .inr hmem

/-- A place that stands for a variable or a field starts with a variable. -/
theorem Surroundings.Denotes.root {q : Place} {d : VarDecl} (h : v.Denotes q (.var d)) :
    ∃ y node, v.Means q.root.name (.var y) ∧ Place.var node q.root ∈ q.parts := by
  generalize hd : Decl.var d = d' at h
  induction h generalizing d with
  | @var node name d' hmeans =>
    subst hd
    exact ⟨d, node, hmeans, List.mem_singleton.2 rfl⟩
  | field _ _ _ _ _ _ ih =>
    obtain ⟨y, node, hmeans, hpart⟩ := ih rfl
    exact ⟨y, node, hmeans, List.mem_append_left _ hpart⟩

theorem Place.Moves.denotes {q : Place} (h : q.Moves v) : ∃ x, v.Denotes q (.var x) := by
  obtain ⟨d, hd, hmove⟩ := h
  cases d with
  | var x => exact ⟨x, hd⟩
  | struct sd => simp [Decl.ty, Ty.Movable] at hmove
  | fn f => simp [Decl.ty, Ty.Movable] at hmove

/-- A place that is moved is anchored, if the variables of the blocks around it are in the frame. -/
theorem Place.Moves.anchored (hr : Resolved p a) (hsub : ∀ d ∈ v.decls, d ∈ p.decls)
    (hlocal : ∀ b ∈ v.blocks, ∀ d ∈ b, ∃ env k, VarBound env a false d k) {q : Place}
    (hs : (Expr.place q).Settled v a) (hq : q.Moves v) : q.Anchored p a := by
  intro s hsym hglobal
  obtain ⟨x, hx⟩ := hq.denotes
  obtain ⟨y, node, hmeans, hpart⟩ := hx.root
  rcases hmeans.var with ⟨c, hc, hy⟩ | hy
  · -- a variable of a block has a symbol that says so
    obtain ⟨env, k, hl, s', hs', -, hg, -⟩ := hlocal c hc y hy
    obtain ⟨hv, ⟨k', hk'⟩, -, hw⟩ := Place.settled_parts hs _ hpart
    obtain ⟨hly, hlq, -⟩ := (Denotes.var hmeans).links hv hr hw hk'
    obtain rfl := hr.unique hl hly
    obtain rfl := Option.some.inj (((hr.symbolOf? hlq).trans hs').symm.trans hsym)
    rw [hg] at hglobal
    cases hglobal
  · exact ⟨y, hsub _ hy, Option.some.inj hmeans.value⟩

end Roots

/-- An expression of a function has declarations of the program around it. -/
theorem FnDecl.decls_of_exprs {p : Program} {before after : List Decl} {f : FnDecl}
    (hsplit : p.decls = before ++ .fn f :: after) {r : Surroundings × Expr}
    (hr : r ∈ f.exprs before) : ∀ d ∈ r.1.decls, d ∈ p.decls := by
  have hdecls : r.1.decls = (f.surroundings before).decls :=
    Stmt.decls_of_manyExprs f.body.stmts _ r hr
  intro d hd
  rw [hdecls] at hd
  have hd' : d ∈ before ++ [Decl.fn f] := hd
  rw [hsplit, List.append_cons before (.fn f) after]
  exact List.mem_append_left after hd'

/-- The places that well-typed functions move are bound, and can be moved. -/
theorem Resolved.moves {p : Program} {a : Annotations} (hr : Resolved p a) (hp : p.WellScoped)
    (hw : Every Token.Wf p.tokens) (ht : p.WellTyped) {before after : List Decl} {f : FnDecl}
    (hsplit : p.decls = before ++ .fn f :: after) {r : Surroundings × Expr}
    (he : r ∈ f.exprs before) {q : Place} (hq : q ∈ r.2.moved) :
    (Expr.place q).Settled r.1 a ∧ q.Moves r.1 := by
  have hall := hr.exprs_settled hp hw hsplit
  have hn : (f.surroundings before).Named := by
    intro sd hsd
    have hd : Decl.struct sd ∈ before ++ [Decl.fn f] := hsd
    have hmem : Decl.struct sd ∈ p.decls := by
      rw [hsplit, List.append_cons before (.fn f) after]
      exact List.mem_append_left after hd
    exact hw (.ident sd.name.name) (List.mem_flatMap.2 ⟨_, hmem, by simp [Decl.tokens]⟩)
  exact ⟨Expr.settled_parts (hall r he) _ (r.2.parts_of_moved hq),
    StmtsTyped.moves hr f.body.stmts hn hall (ht.fns before f after hsplit) r he q hq⟩

/-- The expressions of well-typed functions are anchored. -/
theorem Resolved.anchored {p : Program} {a : Annotations} (hr : Resolved p a) (hp : p.WellScoped)
    (hw : Every Token.Wf p.tokens) (ht : p.WellTyped) {f : FnDecl} (hf : Decl.fn f ∈ p.decls) :
    f.Anchored p a := by
  obtain ⟨before, after, hsplit⟩ := List.append_of_mem hf
  refine ⟨before, fun r he => ?_⟩
  have hsub := FnDecl.decls_of_exprs hsplit he
  have hlocal : ∀ b ∈ r.1.blocks, ∀ d ∈ b, ∃ env k, VarBound env a false d k := by
    intro b hb d hd
    have hbound := hr.bound
    rw [hsplit] at hbound
    obtain ⟨i, hi⟩ := List.getElem?_of_mem (FnDecl.blocks_of_exprs he hb hd)
    exact ⟨_, _, hbound.split.variables.get hi⟩
  constructor
  · intro q hq
    obtain ⟨hs, hmoves⟩ := hr.moves hp hw ht hsplit he hq
    exact hmoves.anchored hr hsub hlocal hs
  · intro i hi
    exact (StmtsTyped.calls f.body.stmts (ht.fns before f after hsplit) r he i hi).anchored hsub

/-- What is known of a program that nothing is wrong with. -/
theorem Accepted.wellFormed {p : Program} {b : Annotations} (h : Accepted p b) :
    Every Token.Wf p.tokens ∧ p.WellScoped ∧ p.WellTyped := by
  obtain ⟨hw, hn, hbind, hcheck, -⟩ := h
  obtain ⟨hr, hp⟩ := resolved_of_bound hw hn hbind
  obtain ⟨hresult, hrest⟩ := Prod.mk.inj hcheck
  refine ⟨hw, hp, ?_⟩
  exact (Typing.program_clean hr fun _ _ _ hsplit => hr.exprs_settled hp hw hsplit).1
    ⟨hresult, (Prod.mk.inj hrest).2⟩

/-- **The names that end up in labels are declared**: in a program that nothing is wrong with, every
function that is called is one of the program, and so is every variable that is not kept in the
frame. -/
theorem Accepted.anchored {p : Program} {b : Annotations} (h : Accepted p b) {f : FnDecl}
    (hf : Decl.fn f ∈ p.decls) : f.Anchored p b := by
  obtain ⟨hw, hp, ht⟩ := h.wellFormed
  exact h.ready.1.resolved.anchored hp hw ht hf

end FlatC
