import FlatC.Proofs.Code.Anchors
import FlatC.Proofs.Follows
import FlatC.Proofs.Renaming.Tree

/-!
# The stages behind binding do not look at names

Checking, layout and code generation see a name through what it is linked to. Notes **match** if
they link the same occurrences to the same symbols, and the symbols differ in their names and in
the names of their fields at most; the second notes may have more. With matching notes, a renamed
tree is checked with the same reports and types (`Typing.functions_repeats`), and it is laid out in
the same way (`Layout.decls_follows`).

Labels are made of names. So its code is the same only if the names in labels stay
(`Code.decls_repeats`); these are the names of declarations, where expressions are anchored.
-/

namespace FlatC

/-- The symbols differ in their names and in the names of their fields at most. -/
structure Symbol.Matches (s s' : Symbol) : Prop where
  ty : s'.ty = s.ty
  size : s'.size = s.size
  offset : s'.offset = s.offset
  fieldOffset : s'.fieldOffset = s.fieldOffset
  isGlobal : s'.isGlobal = s.isGlobal
  definition? : s'.definition? = s.definition?
  fnInfo? : s'.fnInfo? = s.fnInfo?

theorem Symbol.Matches.refl (s : Symbol) : s.Matches s := ⟨rfl, rfl, rfl, rfl, rfl, rfl, rfl⟩

/-- What is noted in `a` is noted in `b`, with symbols that match. -/
structure Annotations.Matches (a b : Annotations) : Prop where
  linked? : ∀ {i k}, a.linked? i = some k → b.linked? i = some k
  symbol? : ∀ {k s}, a.symbol? k = some s → ∃ s', b.symbol? k = some s' ∧ s.Matches s'
  typeOf? : ∀ {i ty}, a.typeOf? i = some ty → b.typeOf? i = some ty

namespace Annotations.Matches

variable {a b : Annotations}

theorem symbolOf? (h : a.Matches b) {i : NodeId} {s : Symbol} (hs : a.symbolOf? i = some s) :
    ∃ s', b.symbolOf? i = some s' ∧ s.Matches s' := by
  obtain ⟨k, hk, hs⟩ := Option.bind_eq_some_iff.1 hs
  obtain ⟨s', hs', hm⟩ := h.symbol? hs
  exact ⟨s', Option.bind_eq_some_iff.2 ⟨k, h.linked? hk, hs'⟩, hm⟩

/-- Notes still match when the same is done to a symbol of both. -/
theorem update (h : a.Matches b) (k : SymbolId) {f : Symbol → Symbol}
    (hf : ∀ s s', s.Matches s' → (f s).Matches (f s')) :
    (a.update k f).Matches (b.update k f) := by
  refine ⟨h.linked?, fun {j s} hs => ?_, h.typeOf?⟩
  rw [symbol?_update] at hs ⊢
  by_cases hj : j = k
  · rw [if_pos hj] at hs ⊢
    obtain ⟨s0, hs0, rfl⟩ := Option.map_eq_some_iff.1 hs
    obtain ⟨s', hs', hm⟩ := h.symbol? hs0
    exact ⟨f s', by rw [hs', Option.map_some], hf s0 s' hm⟩
  · rw [if_neg hj] at hs ⊢
    exact h.symbol? hs

theorem withTypes (h : a.Matches b) (ts : List (NodeId × Ty)) :
    (a.withTypes ts).Matches (b.withTypes ts) := by
  induction ts generalizing a b with
  | nil => exact h
  | cons t ts ih =>
    refine ih ⟨h.linked?, h.symbol?, fun {i ty} hty => ?_⟩
    unfold Annotations.typeOf? setType at hty ⊢
    by_cases hi : i = t.1
    · rw [hi, NodeMap.get?_insert_self] at hty ⊢
      exact hty
    · rw [NodeMap.get?_insert_of_ne hi] at hty ⊢
      exact h.typeOf? hty

end Annotations.Matches

/-! ## Checking -/

namespace Checked

variable {α β : Type} {x y : Checked α} {f g : α → Checked β}

/-- Where the step `x` gives something, `y` is the same step. -/
def Repeats (x y : Checked α) : Prop := ∀ v, x.result = .ok v → y = x

namespace Repeats

theorem refl (x : Checked α) : Repeats x x := fun _ _ => rfl

theorem bind (hx : Repeats x y) (hf : ∀ v, Repeats (f v) (g v)) : Repeats (x >>= f) (y >>= g) := by
  obtain ⟨result, reports, types⟩ := x
  intro w hw
  cases result with
  | error d => cases hw
  | ok v =>
    rw [hx v rfl]
    simp only [bind_eq, andThen_ok] at hw ⊢
    rw [hf v w hw]

end Repeats

end Checked

namespace Typing

open Checked

variable {a b : Annotations} {r : String → String}

theorem ident_repeats (h : a.Matches b) (i : Ident) :
    Repeats (ident a i) (ident b (i.rename r)) := by
  intro ty hty
  unfold ident at hty ⊢
  cases hs : a.symbolOf? i.id with
  | none => simp [hs, defect] at hty
  | some s =>
    obtain ⟨s', hs', hm⟩ := h.symbolOf? hs
    have hid : b.symbolOf? (i.rename r).id = some s' := hs'
    simp [hid, hm.ty]

theorem place_repeats (h : a.Matches b) (q : Place) :
    Repeats (place a q) (place b (q.rename r)) := by
  induction q with
  | var node name => exact .bind (ident_repeats h name) fun _ => .refl _
  | field node base name ih => exact .bind ih fun _ => .bind (ident_repeats h name) fun _ => .refl _

mutual

theorem expr_repeats (h : a.Matches b) : ∀ e : Expr, Repeats (expr a e) (expr b (e.rename r))
  | .int .. | .str .. | .bool .. => .refl _
  | .place q => place_repeats h q
  | .assign node target value => by
    refine .bind (place_repeats h target) fun t => .bind (expr_repeats h value) fun v => ?_
    rw [target.root_rename]
    exact .refl _
  | .call node callee args =>
    .bind (operands_repeats h args) fun _ => .bind (ident_repeats h callee) fun _ => .refl _
  | .unary node op operand => by
    refine .bind (expr_repeats h operand) fun x => ?_
    rw [operand.reportSpan_rename]
    exact .refl _
  | .binary node op left right => by
    have hspan : (Expr.binary node op (left.rename r) (right.rename r)).reportSpan =
        (Expr.binary node op left right).reportSpan :=
      (Expr.binary node op left right).reportSpan_rename
    refine .bind (expr_repeats h left) fun x => .bind (expr_repeats h right) fun y => ?_
    rw [left.reportSpan_rename, right.reportSpan_rename, hspan]
    exact .refl _

theorem operands_repeats (h : a.Matches b) : ∀ es : List Expr,
    Repeats (operands a es) (operands b (Expr.renameAll r es))
  | [] => .refl _
  | e :: es => by
    refine .bind (expr_repeats h e) fun ty => .bind (operands_repeats h es) fun xs => ?_
    rw [e.reportSpan_rename]
    exact .refl _

end

theorem condition_repeats (h : a.Matches b) (e : Expr) :
    Repeats (condition a e) (condition b (e.rename r)) := by
  refine .bind (expr_repeats h e) fun ty => ?_
  rw [e.reportSpan_rename]
  exact .refl _

theorem step_repeats (h : a.Matches b) (q : Place) : Repeats (step a q) (step b (q.rename r)) := by
  refine .bind (place_repeats h q) fun ty => ?_
  rw [q.root_rename]
  exact .refl _

theorem read_repeats (h : a.Matches b) (q : Place) : Repeats (read a q) (read b (q.rename r)) := by
  refine .bind (place_repeats h q) fun ty => ?_
  rw [q.root_rename]
  exact .refl _

theorem write_repeats (h : a.Matches b) (e : Expr) :
    Repeats (write a e) (write b (e.rename r)) := by
  refine .bind (expr_repeats h e) fun ty => ?_
  rw [e.reportSpan_rename]
  exact .refl _

theorem ret_repeats (h : a.Matches b) (expected : Ty) (e : Expr) :
    Repeats (ret a expected (some e)) (ret b expected (some (e.rename r))) := by
  refine .bind (expr_repeats h e) fun ty => ?_
  rw [e.reportSpan_rename]
  exact .refl _

mutual

theorem stmt_repeats (h : a.Matches b) (expected : Ty) : ∀ s : Stmt,
    Repeats (stmt a expected s) (stmt b expected (s.rename r))
  | .assign _ node target value =>
    .bind (expr_repeats h (.assign node target value)) fun _ => .refl _
  | .increment _ target | .decrement _ target => step_repeats h target
  | .read _ target => read_repeats h target
  | .write _ value => write_repeats h value
  | .ifThen _ cond body | .whileLoop _ cond body =>
    .bind (condition_repeats h cond) fun _ => body_repeats h expected body
  | .ifElse _ cond b b' =>
    .bind (condition_repeats h cond) fun _ =>
      .bind (body_repeats h expected b) fun _ => body_repeats h expected b'
  | .call _ node callee args => .bind (expr_repeats h (.call node callee args)) fun _ => .refl _
  | .ret _ none => .refl _
  | .ret _ (some value) => ret_repeats h expected value

theorem body_repeats (h : a.Matches b) (expected : Ty) : ∀ bd : Body,
    Repeats (body a expected bd) (body b expected (bd.rename r))
  | .block _ ss => stmts_repeats h expected ss

theorem stmts_repeats (h : a.Matches b) (expected : Ty) : ∀ ss : List Stmt,
    Repeats (stmts a expected ss) (stmts b expected (Stmt.renameAll r ss))
  | [] => .refl _
  | s :: ss => .bind (stmt_repeats h expected s) fun _ => stmts_repeats h expected ss

end

theorem functions_repeats (h : a.Matches b) (fs : List FnDecl) :
    Repeats (functions a fs) (functions b (fs.map (FnDecl.rename r))) := by
  induction fs with
  | nil => exact .refl _
  | cons f fs ih => exact .bind (body_repeats h _ f.body) fun _ => ih

end Typing

/-! ## Layout -/

namespace Layout

variable {r : String → String}

theorem symbol_follows (k : SymbolId) :
    Follows Annotations.Matches Symbol.Matches (symbol k) (symbol k) := by
  refine .getBind fun a b h => ?_
  cases hs : a.symbol? k with
  | none => exact .throw
  | some s =>
    obtain ⟨s', hs', hm⟩ := h.symbol? hs
    rw [hs']
    exact .pure hm

theorem update_follows (k : SymbolId) {f : Symbol → Symbol}
    (hf : ∀ s s', s.Matches s' → (f s).Matches (f s')) :
    Follows Annotations.Matches Eq (update k f) (update k f) :=
  .bind (symbol_follows k) fun _ _ _ => .modify fun _ _ h => h.update k hf

theorem resolved_follows (i : Ident) :
    Follows Annotations.Matches Eq (resolved i) (resolved (i.rename r)) := by
  refine .getBind fun a b h => ?_
  cases hk : a.linked? i.id with
  | none => exact .throw
  | some k =>
    have hk' : b.linked? (i.rename r).id = some k := h.linked? hk
    rw [hk']
    exact .pure rfl

theorem sizeOf_follows (k : SymbolId) : Follows Annotations.Matches Eq (sizeOf k) (sizeOf k) := by
  refine .bind (symbol_follows k) fun s s' hm => ?_
  rw [hm.definition?]
  cases s.definition? with
  | none => exact .pure rfl
  | some d => exact .bind (symbol_follows d) fun _ _ hm => .pure hm.size.symm

theorem sized_follows (d : VarDecl) :
    Follows Annotations.Matches Eq (sized d) (sized (d.rename r)) := by
  refine .bind (resolved_follows d.name) ?_
  rintro k _ rfl
  refine .bind (sizeOf_follows k) ?_
  rintro size _ rfl
  refine .bind (update_follows k fun s s' hm => ?_) fun _ _ _ => .pure rfl
  exact { hm with size := rfl }

theorem fields_follows (ds : List VarDecl) (used : Nat) :
    Follows Annotations.Matches Eq (fields used ds) (fields used (ds.map (VarDecl.rename r))) := by
  induction ds generalizing used with
  | nil => exact .pure rfl
  | cons d ds ih =>
    refine .bind (sized_follows d) ?_
    rintro ⟨k, size⟩ _ rfl
    exact .bind (update_follows k fun s s' hm => { hm with fieldOffset := rfl }) fun _ _ _ => ih _

theorem params_follows (ps : List Param) (offset : Int) :
    Follows Annotations.Matches Eq (params offset ps)
      (params offset (ps.map (Param.rename r))) := by
  induction ps generalizing offset with
  | nil => exact .pure rfl
  | cons p ps ih =>
    refine .bind (sized_follows p.decl) ?_
    rintro ⟨k, size⟩ _ rfl
    exact .bind (update_follows k fun s s' hm => { hm with offset := rfl }) fun _ _ _ => ih _

theorem locals_follows (ds : List VarDecl) (offset : Int) :
    Follows Annotations.Matches Eq (locals offset ds)
      (locals offset (ds.map (VarDecl.rename r))) := by
  induction ds generalizing offset with
  | nil => exact .pure rfl
  | cons d ds ih =>
    refine .bind (sized_follows d) ?_
    rintro ⟨k, size⟩ _ rfl
    exact .bind (update_follows k fun s s' hm => { hm with offset := rfl }) fun _ _ _ => ih _

mutual

theorem body_follows : ∀ (bd : Body) (offset : Int),
    Follows Annotations.Matches Eq (body offset bd) (body offset (bd.rename r))
  | .block ds ss, offset => by
    refine .bind (locals_follows ds offset) ?_
    rintro next _ rfl
    exact stmts_follows ss next

theorem stmt_follows : ∀ (s : Stmt) (offset : Int),
    Follows Annotations.Matches Eq (stmt offset s) (stmt offset (s.rename r))
  | .ifThen _ _ bd, offset | .whileLoop _ _ bd, offset => body_follows bd offset
  | .ifElse _ _ bd bd', offset => by
    refine .bind (body_follows bd offset) ?_
    rintro next _ rfl
    exact body_follows bd' next
  | .assign .., _ | .increment .., _ | .decrement .., _ | .read .., _ | .write .., _
  | .call .., _ | .ret _ none, _ | .ret _ (some _), _ => .pure rfl

theorem stmts_follows : ∀ (ss : List Stmt) (offset : Int),
    Follows Annotations.Matches Eq (stmts offset ss) (stmts offset (Stmt.renameAll r ss))
  | [], _ => .pure rfl
  | s :: ss, offset => by
    refine .bind (stmt_follows s offset) ?_
    rintro next _ rfl
    exact stmts_follows ss next

end

/-- Only functions have spaces. -/
theorem setSpaces_eq (formalSpace localSpace : Nat) (s : Symbol) :
    setSpaces formalSpace localSpace s =
      s.fnInfo?.elim s fun info =>
        { s with kind := .fn { info with formalSpace, localSpace } } := by
  unfold setSpaces Symbol.fnInfo?
  cases s.kind <;> rfl

theorem setSpaces_matches (formalSpace localSpace : Nat) {s s' : Symbol} (h : s.Matches s') :
    (setSpaces formalSpace localSpace s).Matches (setSpaces formalSpace localSpace s') := by
  rw [setSpaces_eq, setSpaces_eq, h.fnInfo?]
  cases s.fnInfo? with
  | none => exact h
  | some info => exact { h with definition? := rfl, fnInfo? := rfl }

theorem decl_follows (d : Decl) :
    Follows Annotations.Matches Eq (decl d) (decl (d.rename r)) := by
  cases d with
  | var d => exact .bind (sized_follows d) fun _ _ _ => .pure rfl
  | struct d =>
    refine .bind (fields_follows d.fields 0) ?_
    rintro size _ rfl
    refine .bind (resolved_follows d.name) ?_
    rintro k _ rfl
    exact update_follows k fun s s' hm => { hm with size := rfl }
  | fn d =>
    have hcount : (d.rename r).params.length = d.params.length := List.length_map _
    refine .bind (params_follows d.params 0) fun _ _ _ => ?_
    rw [hcount]
    refine .bind (body_follows d.body _) ?_
    rintro stop _ rfl
    refine .bind (resolved_follows d.name) ?_
    rintro k _ rfl
    exact update_follows k fun s s' hm => setSpaces_matches _ _ hm

theorem decls_follows (ds : List Decl) :
    Follows Annotations.Matches Eq (decls ds) (decls (ds.map (Decl.rename r))) := by
  induction ds with
  | nil => exact .pure rfl
  | cons d ds ih => exact .bind (decl_follows d) fun _ _ _ => ih

end Layout

/-! ## Code -/

namespace Code

/-- The two steps give the same code and take the same labels, if the first one gives any. -/
abbrev Repeats {α : Type} (x y : Gen α) : Prop := Follows Eq Eq x y

theorem Repeats.refl {α : Type} (x : Gen α) : Repeats x x := by
  rintro n _ a m rfl hrun
  exact ⟨a, m, hrun, rfl, rfl⟩

theorem Repeats.bind {α β : Type} {x y : Gen α} {f g : α → Gen β} (hx : Repeats x y)
    (hf : ∀ a, Repeats (f a) (g a)) : Repeats (x >>= f) (y >>= g) :=
  Follows.bind hx (by rintro a _ rfl; exact hf a)

variable {o : Options} {p : Program} {a b : Annotations} {r : String → String} {exit : String}

theorem symbolOf_follows (h : a.Matches b) (i : Ident) :
    Follows Eq (fun s s' => a.symbolOf? i.id = some s ∧ s.Matches s') (symbolOf a i)
      (symbolOf b (i.rename r)) := by
  unfold symbolOf
  cases hs : a.symbolOf? i.id with
  | none => exact .throw
  | some s =>
    obtain ⟨s', hs', hm⟩ := h.symbolOf? hs
    have hid : b.symbolOf? (i.rename r).id = some s' := hs'
    rw [hid]
    exact .pure ⟨rfl, hm⟩

theorem printCall_repeats (h : a.Matches b) (e : Expr) :
    Repeats (printCall a e) (printCall b (e.rename r)) := by
  unfold printCall
  rw [e.id_rename]
  cases hty : a.typeOf? e.id with
  | none => exact .throw
  | some ty =>
    rw [h.typeOf? hty]
    exact .refl _

/-- Nothing changes that code is made of: the notes match, declarations keep their names, and labels
have the names of declarations. -/
structure Stable (p : Program) (r : String → String) (a b : Annotations) : Prop where
  notes : a.Matches b
  names : ∀ d ∈ p.decls, r d.name.name = d.name.name
  anchored : ∀ f, Decl.fn f ∈ p.decls → f.Anchored p a

theorem location_repeats (hk : Stable p r a b) (q : Place) (h : q.Anchored p a) :
    Repeats (location a q) (location b (q.rename r)) := by
  induction q with
  | var node name =>
    refine Follows.bind (symbolOf_follows hk.notes name) fun s s' hs => .pure ?_
    rw [hs.2.isGlobal, hs.2.offset]
    cases hg : s.isGlobal with
    | false => rfl
    | true =>
      -- the label has the name of a declaration, which stays
      obtain ⟨d, hd, hname⟩ := h s hs.1 hg
      have hroot : r name.name = name.name := by
        rw [← show d.name.name = name.name from hname]
        exact hk.names (.var d) hd
      show Location.global _ 0 = Location.global (Label.global (r name.name)) 0
      rw [hroot]
  | field node base name ih =>
    refine Follows.bind (symbolOf_follows hk.notes name) fun s s' hs => ?_
    refine Follows.bind (ih h) ?_
    rintro l _ rfl
    exact .pure (congrArg l.field hs.2.fieldOffset.symm)

mutual

theorem expr_repeats (hk : Stable p r a b) :
    ∀ e : Expr, e.Anchored p a → Repeats (expr o a e) (expr o b (e.rename r))
  | .int .., _ | .str .., _ | .bool .., _ => .refl _
  | .place q, h => .bind (location_repeats hk q (Place.anchored_expr.1 h)) fun _ => .refl _
  | .assign _ target value, h => by
    obtain ⟨hq, he⟩ := Expr.anchored_assign.1 h
    exact .bind (expr_repeats hk value he) fun _ =>
      .bind (location_repeats hk target hq) fun _ => .refl _
  | .call _ callee args, h => by
    obtain ⟨⟨f, hf, hname⟩, hargs⟩ := Expr.anchored_call.1 h
    have hcallee : (callee.rename r).name = callee.name := by
      show r callee.name = callee.name
      rw [← hname]
      exact hk.names (.fn f) hf
    refine .bind (exprs_repeats hk args hargs) fun xs => ?_
    rw [hcallee]
    exact .refl _
  | .unary _ _ operand, h =>
    .bind (expr_repeats hk operand (Expr.anchored_unary.1 h)) fun _ => .refl _
  | .binary _ (.arith _) left right, h | .binary _ (.equality _) left right, h
  | .binary _ (.order _) left right, h => by
    obtain ⟨hl, hr'⟩ := Expr.anchored_binary.1 h
    exact .bind (expr_repeats hk left hl) fun _ =>
      .bind (expr_repeats hk right hr') fun _ => .refl _
  | .binary _ (.logical _) left right, h => by
    obtain ⟨hl, hr'⟩ := Expr.anchored_binary.1 h
    exact .bind (.refl _) fun _ => .bind (expr_repeats hk left hl) fun _ =>
      .bind (expr_repeats hk right hr') fun _ => .refl _

theorem exprs_repeats (hk : Stable p r a b) :
    ∀ es : List Expr, (∀ e ∈ es, e.Anchored p a) →
    Repeats (exprs o a es) (exprs o b (Expr.renameAll r es))
  | [], _ => .refl _
  | e :: es, h => by
    rw [List.forall_mem_cons] at h
    exact .bind (expr_repeats hk e h.1) fun _ => .bind (exprs_repeats hk es h.2) fun _ => .refl _

end

theorem step_repeats (hk : Stable p r a b) (delta : Int) (q : Place) (h : q.Anchored p a) :
    Repeats (step a delta q) (step b delta (q.rename r)) :=
  .bind (location_repeats hk q h) fun _ => .refl _

theorem read_repeats (hk : Stable p r a b) (q : Place) (h : q.Anchored p a) :
    Repeats (read o a q) (read o b (q.rename r)) :=
  .bind (location_repeats hk q h) fun _ => .refl _

theorem write_repeats (hk : Stable p r a b) (e : Expr) (h : e.Anchored p a) :
    Repeats (write o a e) (write o b (e.rename r)) :=
  .bind (printCall_repeats hk.notes e) fun _ => .bind (expr_repeats hk e h) fun _ => .refl _

theorem branchUnless_repeats (hk : Stable p r a b) (e : Expr) (h : e.Anchored p a)
    (target : String) :
    Repeats (branchUnless o a e target) (branchUnless o b (e.rename r) target) :=
  .bind (expr_repeats hk e h) fun _ => .refl _

mutual

theorem stmt_repeats (hk : Stable p r a b) :
    ∀ (s : Stmt) (v : Surroundings), (∀ x ∈ s.exprs v, x.2.Anchored p a) →
    Repeats (stmt o a exit s) (stmt o b exit (s.rename r))
  | .assign _ node target value, v, h => by
    rw [Stmt.exprs, List.forall_mem_singleton] at h
    exact .bind (expr_repeats hk (.assign node target value) h) fun _ => .refl _
  | .increment _ target, v, h | .decrement _ target, v, h => by
    rw [Stmt.exprs, List.forall_mem_singleton, Place.anchored_expr] at h
    exact .bind (step_repeats hk _ target h) fun _ => .refl _
  | .read _ target, v, h => by
    rw [Stmt.exprs, List.forall_mem_singleton, Place.anchored_expr] at h
    exact read_repeats hk target h
  | .write _ value, v, h => by
    rw [Stmt.exprs, List.forall_mem_singleton] at h
    exact write_repeats hk value h
  | .ifThen _ cond bd, v, h => by
    rw [Stmt.exprs, List.forall_mem_cons] at h
    exact .bind (.refl _) fun _ => .bind (branchUnless_repeats hk cond h.1 _) fun _ =>
      .bind (body_repeats hk bd v h.2) fun _ => .refl _
  | .ifElse _ cond bd bd', v, h => by
    rw [Stmt.exprs, List.forall_mem_cons, List.forall_mem_append] at h
    exact .bind (.refl _) fun _ => .bind (.refl _) fun _ =>
      .bind (branchUnless_repeats hk cond h.1 _) fun _ =>
        .bind (body_repeats hk bd v h.2.1) fun _ =>
          .bind (body_repeats hk bd' v h.2.2) fun _ => .refl _
  | .whileLoop _ cond bd, v, h => by
    rw [Stmt.exprs, List.forall_mem_cons] at h
    exact .bind (.refl _) fun _ => .bind (.refl _) fun _ =>
      .bind (branchUnless_repeats hk cond h.1 _) fun _ =>
        .bind (body_repeats hk bd v h.2) fun _ => .refl _
  | .call _ node callee args, v, h => by
    rw [Stmt.exprs, List.forall_mem_singleton] at h
    exact .bind (expr_repeats hk (.call node callee args) h) fun _ => .refl _
  | .ret _ none, v, _ => .refl _
  | .ret _ (some value), v, h => by
    rw [Stmt.exprs, List.forall_mem_singleton] at h
    have hvalue :
        Repeats (returnValue o a (some value)) (returnValue o b (some (value.rename r))) :=
      .bind (expr_repeats hk value h) fun _ => .refl _
    exact .bind hvalue fun _ => .refl _

theorem body_repeats (hk : Stable p r a b) :
    ∀ (bd : Body) (v : Surroundings), (∀ x ∈ bd.exprs v, x.2.Anchored p a) →
    Repeats (body o a exit bd) (body o b exit (bd.rename r))
  | .block ds ss, v, h => stmts_repeats hk ss (v.enter ds) h

theorem stmts_repeats (hk : Stable p r a b) :
    ∀ (ss : List Stmt) (v : Surroundings),
    (∀ x ∈ Stmt.manyExprs v ss, x.2.Anchored p a) →
    Repeats (stmts o a exit ss) (stmts o b exit (Stmt.renameAll r ss))
  | [], _, _ => .refl _
  | s :: ss, v, h => by
    rw [Stmt.manyExprs, List.forall_mem_append] at h
    exact .bind (stmt_repeats hk s v h.1) fun _ =>
      .bind (stmts_repeats hk ss v h.2) fun _ => .refl _

end

theorem fnInfo_repeats (h : a.Matches b) (i : Ident) :
    Repeats (fnInfo a i) (fnInfo b (i.rename r)) := by
  unfold fnInfo
  cases hs : a.symbolOf? i.id with
  | none => exact .throw
  | some s =>
    obtain ⟨s', hs', hm⟩ := h.symbolOf? hs
    have hid : b.symbolOf? (i.rename r).id = some s' := hs'
    rw [hid, Option.bind_some, Option.bind_some, hm.fnInfo?]
    cases s.fnInfo? with
    | none => exact .throw
    | some info => exact .pure rfl

theorem fnDecl_repeats (hk : Stable p r a b) (f : FnDecl) (hf : Decl.fn f ∈ p.decls) :
    Repeats (fnDecl o a f) (fnDecl o b (f.rename r)) := by
  obtain ⟨before, h⟩ := hk.anchored f hf
  have hname : (f.rename r).name.name = f.name.name := hk.names (.fn f) hf
  have hmain : (f.rename r).isMain = f.isMain := congrArg (· == "main") hname
  have hbody : Repeats (body o a (Label.exit f.name.name) f.body)
      (body o b (Label.exit f.name.name) (f.body.rename r)) := by
    cases hbd : f.body with
    | block ds ss =>
      rw [FnDecl.exprs, hbd] at h
      exact stmts_repeats hk ss _ h
  refine .bind (fnInfo_repeats hk.notes f.name) fun info => ?_
  rw [hname, hmain]
  exact .bind hbody fun _ => .refl _

theorem globalVar_repeats (hk : Stable p r a b) (d : VarDecl) (hd : Decl.var d ∈ p.decls) :
    Repeats (globalVar a d) (globalVar b (d.rename r)) := by
  have hname : (d.rename r).name.name = d.name.name := hk.names (.var d) hd
  unfold globalVar
  cases hs : a.symbolOf? d.name.id with
  | none => exact .throw
  | some s =>
    obtain ⟨s', hs', hm⟩ := hk.notes.symbolOf? hs
    have hid : b.symbolOf? (d.rename r).name.id = some s' := hs'
    rw [hid, hname]
    simp only [hm.size]
    exact .refl _

theorem decl_repeats (hk : Stable p r a b) (d : Decl) (hd : d ∈ p.decls) :
    Repeats (decl o a d) (decl o b (d.rename r)) := by
  cases d with
  | var d => exact globalVar_repeats hk d hd
  | struct d => exact .refl _
  | fn f => exact fnDecl_repeats hk f hd

/-- **Renaming leaves the code as it is**, if it leaves the names of the declarations. -/
theorem decls_repeats (hk : Stable p r a b) : ∀ ds : List Decl, (∀ d ∈ ds, d ∈ p.decls) →
    Repeats (decls o a ds) (decls o b (ds.map (Decl.rename r)))
  | [], _ => .refl _
  | d :: ds, hds => by
    rw [List.forall_mem_cons] at hds
    exact .bind (decl_repeats hk d hds.1) fun _ =>
      .bind (decls_repeats hk ds hds.2) fun _ => .refl _

end Code

end FlatC
