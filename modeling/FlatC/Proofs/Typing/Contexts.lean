import FlatC.Proofs.Binding.Steps
import FlatC.Proofs.Typing.Decides

/-!
# One mistake is reported once

A part of an expression that was reported as wrong has the type `error`, and whatever is built on it
keeps quiet about it. A context is an expression or a statement with a hole where a value stands. If
something can be put into the hole so that nothing is reported, then the context itself is in order,
and with something of type `error` in the hole it reports no more than that by itself
(`errors_stay_put`).

The argument goes up the context one layer at a time. What a layer is given is either of the type
that it had when nothing was reported, or `error` (`Ty.OrError`), and so is what the layer gives in
turn: a call has its type even with a wrong argument, but most layers give `error`.
-/

namespace FlatC

/-! ## Contexts -/

/-- An expression with a hole where a value stands: an operand, the value of an assignment or an
argument, at any depth. -/
inductive Expr.Context where
  | hole
  | assign (node : Node) (target : Place) (value : Expr.Context)
  | call (node : Node) (callee : Ident) (before : List Expr) (arg : Expr.Context)
      (after : List Expr)
  | unary (node : Node) (op : UnaryOp) (operand : Expr.Context)
  | left (node : Node) (op : BinaryOp) (left : Expr.Context) (right : Expr)
  | right (node : Node) (op : BinaryOp) (left : Expr) (right : Expr.Context)

/-- Puts an expression into the hole. -/
def Expr.Context.fill (e : Expr) : Expr.Context → Expr
  | hole => e
  | assign node target value => .assign node target (value.fill e)
  | call node callee before arg after => .call node callee (before ++ arg.fill e :: after)
  | unary node op operand => .unary node op (operand.fill e)
  | left node op l r => .binary node op (l.fill e) r
  | right node op l r => .binary node op l (r.fill e)

/-- What stands around a statement in its block. -/
structure Body.Around where
  decls : List VarDecl
  before : List Stmt
  after : List Stmt

def Body.Around.fill (b : Body.Around) (s : Stmt) : Body :=
  .block b.decls (b.before ++ s :: b.after)

/-- A statement with a hole where a value stands, in itself or in the blocks inside it. -/
inductive Stmt.Context where
  | assign (span : Span) (node : Node) (target : Place) (value : Expr.Context)
  | write (span : Span) (value : Expr.Context)
  | call (span : Span) (node : Node) (callee : Ident) (before : List Expr) (arg : Expr.Context)
      (after : List Expr)
  | ret (span : Span) (value : Expr.Context)
  | ifCond (span : Span) (cond : Expr.Context) (body : Body)
  | ifBody (span : Span) (cond : Expr) (around : Body.Around) (inner : Stmt.Context)
  | ifElseCond (span : Span) (cond : Expr.Context) (thenBody elseBody : Body)
  | thenBody (span : Span) (cond : Expr) (around : Body.Around) (inner : Stmt.Context)
      (elseBody : Body)
  | elseBody (span : Span) (cond : Expr) (thenBody : Body) (around : Body.Around)
      (inner : Stmt.Context)
  | whileCond (span : Span) (cond : Expr.Context) (body : Body)
  | whileBody (span : Span) (cond : Expr) (around : Body.Around) (inner : Stmt.Context)

/-- Puts an expression into the hole. -/
def Stmt.Context.fill (e : Expr) : Stmt.Context → Stmt
  | assign span node target value => .assign span node target (value.fill e)
  | write span value => .write span (value.fill e)
  | call span node callee before arg after =>
    .call span node callee (before ++ arg.fill e :: after)
  | ret span value => .ret span (some (value.fill e))
  | ifCond span cond body => .ifThen span (cond.fill e) body
  | ifBody span cond around inner => .ifThen span cond (around.fill (inner.fill e))
  | ifElseCond span cond body body' => .ifElse span (cond.fill e) body body'
  | thenBody span cond around inner body' =>
    .ifElse span cond (around.fill (inner.fill e)) body'
  | elseBody span cond body around inner => .ifElse span cond body (around.fill (inner.fill e))
  | whileCond span cond body => .whileLoop span (cond.fill e) body
  | whileBody span cond around inner => .whileLoop span cond (around.fill (inner.fill e))

/-! ## Steps with reports -/

namespace Checked

variable {α β : Type} {x : Checked α} {f : α → Checked β} {rs rs' : List Report} {v : α} {w : β}

/-- The step gives `v` and reports `rs`. -/
def Says (x : Checked α) (rs : List Report) (v : α) : Prop := x.result = .ok v ∧ x.reports = rs

theorem Says.bind (hx : x.Says rs v) (hf : (f v).Says rs' w) : (x >>= f).Says (rs ++ rs') w := by
  obtain ⟨result, reports, types⟩ := x
  obtain ⟨rfl, rfl⟩ := hx
  obtain ⟨hresult, hreports⟩ := hf
  simp only [Says, bind_eq, andThen_ok, hresult, hreports, and_self]

theorem Clean.says (hx : x.Clean v) : x.Says [] v := hx

theorem Says.bindClean (hx : x.Says rs v) (hf : (f v).Clean w) : (x >>= f).Says rs w := by
  simpa using hx.bind hf.says

theorem Clean.bindSays (hx : x.Clean v) (hf : (f v).Says rs w) : (x >>= f).Says rs w :=
  hx.says.bind hf

end Checked

open Checked

/-! ## Types that may have become `error` -/

/-- `u` is `t` or `error`. -/
def Ty.OrError (t u : Ty) : Prop := u = t ∨ u = .error

theorem Ty.OrError.refl (t : Ty) : t.OrError t := .inl rfl

namespace Typing

section

variable {t u v : Ty} {span span' : Span} {xs ys : List Operand}

/-- Operands whose types may have become `error`. -/
def OperandsOrError : List Operand → List Operand → Prop :=
  List.Forall₂ fun x y => x.ty.OrError y.ty

theorem complaint_eq_nil_iff {accepts : Ty → Bool} {fault : TypeFault} {x : Operand} :
    x.complaint accepts fault = [] ↔ (x.ty.isError || accepts x.ty) = true := by
  unfold Operand.complaint
  split
  next h => simp [h]
  next h => simp [h]

/-- Nothing is said about an operand that became `error`, and no operand becomes right. -/
theorem complaints_orError {accepts : Ty → Bool} {fault : TypeFault} (h : OperandsOrError xs ys)
    (hquiet : xs.flatMap (Operand.complaint accepts fault) = []) :
    ys.flatMap (Operand.complaint accepts fault) = [] ∧
      (ys.all (fun y => !y.ty.isError && accepts y.ty) = true →
        xs.all (fun x => !x.ty.isError && accepts x.ty) = true) := by
  induction h with
  | nil => exact ⟨rfl, id⟩
  | @cons x y xs ys hxy _ ih =>
    rw [List.flatMap_cons, List.append_eq_nil_iff, complaint_eq_nil_iff] at hquiet
    obtain ⟨hys, hall⟩ := ih hquiet.2
    rw [List.flatMap_cons, List.append_eq_nil_iff, complaint_eq_nil_iff]
    simp only [List.all_cons, Bool.and_eq_true]
    rcases hxy with hty | herror
    · rw [hty]
      exact ⟨⟨hquiet.1, hys⟩, fun hfine => ⟨hfine.1, hall hfine.2⟩⟩
    · rw [herror]
      exact ⟨⟨rfl, hys⟩, fun hfine => absurd hfine.1.1 (by decide)⟩

theorem all_orError {accepts : Ty → Bool} {fault : TypeFault} (h : OperandsOrError xs ys)
    (hclean : (Operand.all accepts fault t xs).Clean v) :
    ∃ w, (Operand.all accepts fault t ys).Clean w ∧ v.OrError w := by
  obtain ⟨hresult, hreports⟩ := hclean
  obtain ⟨hquiet, hall⟩ := complaints_orError h hreports
  refine ⟨_, ⟨rfl, hquiet⟩, ?_⟩
  split
  next hys =>
    obtain rfl := Except.ok.inj hresult
    rw [if_pos (hall hys)]
    exact .refl t
  next => exact .inr rfl

theorem combine_orError {fault? : Ty → Ty → Option TypeFault} {a a' b b' : Ty} (ha : a.OrError a')
    (hb : b.OrError b') (hclean : (Ty.combine fault? a b t span).Clean v) :
    ∃ w, (Ty.combine fault? a' b' t span').Clean w ∧ v.OrError w := by
  by_cases herror : (a'.isError || b'.isError) = true
  · refine ⟨.error, ?_, .inr rfl⟩
    rw [Ty.combine, if_pos herror]
    exact clean_pure.2 rfl
  · obtain rfl : a' = a := ha.resolve_right (by rintro rfl; exact herror rfl)
    obtain rfl : b' = b := hb.resolve_right (by rintro rfl; simp [Ty.isError] at herror)
    refine ⟨v, ?_, .refl v⟩
    rw [Ty.combine, if_neg herror] at hclean ⊢
    cases hfault : fault? a' b' with
    | none => simpa [hfault] using hclean
    | some f =>
      rw [hfault] at hclean
      exact absurd hclean not_clean_report

theorem argumentReports_orError {params : List Ty} (h : OperandsOrError xs ys)
    (hquiet : argumentReports xs params = []) : argumentReports ys params = [] := by
  induction h generalizing params with
  | nil => rfl
  | @cons x y xs ys hxy _ ih =>
    cases params with
    | nil => rfl
    | cons t params =>
      obtain ⟨hx, hxs⟩ := List.append_eq_nil_iff.1 hquiet
      refine List.append_eq_nil_iff.2 ⟨?_, ih hxs⟩
      rcases hxy with hty | herror
      · rw [hty]
        simpa using hx
      · rw [herror]
        rfl

theorem call_orError (h : OperandsOrError xs ys) (hclean : (call t span xs).Clean v) :
    (call t span ys).Clean v := by
  unfold call at hclean ⊢
  split at hclean
  next params ret =>
    split at hclean
    next hlen =>
      obtain ⟨hresult, hreports⟩ := hclean
      rw [if_pos (hlen.trans h.length_eq)]
      exact ⟨hresult, argumentReports_orError h hreports⟩
    next => exact absurd hclean not_clean_report
  next => exact absurd hclean not_clean_report

theorem unary_orError {op : UnaryOp} (ht : t.OrError u)
    (hclean : (op.check ⟨t, span⟩).Clean v) : ∃ w, (op.check ⟨u, span'⟩).Clean w ∧ v.OrError w := by
  have hoperands : OperandsOrError [⟨t, span⟩] [⟨u, span'⟩] := .cons ht .nil
  cases op with
  | negate => exact all_orError hoperands hclean
  | not => exact all_orError hoperands hclean

theorem binary_orError {op : BinaryOp} {t' u' : Ty} {s s' r r' : Span} (ht : t.OrError t')
    (hu : u.OrError u') (hclean : (op.check ⟨t, s⟩ ⟨u, r⟩ span).Clean v) :
    ∃ w, (op.check ⟨t', s'⟩ ⟨u', r'⟩ span').Clean w ∧ v.OrError w := by
  have hoperands : OperandsOrError [⟨t, s⟩, ⟨u, r⟩] [⟨t', s'⟩, ⟨u', r'⟩] :=
    .cons ht (.cons hu .nil)
  cases op with
  | arith | logical | order => exact all_orError hoperands hclean
  | equality => exact combine_orError ht hu hclean

end

/-! ## One layer -/

section

variable {a : Annotations} {rs : List Report} {x y : Expr}

/-- Where `x` is in order, `y` reports `rs`, and its type is that of `x` or `error`. -/
def Echoes (a : Annotations) (rs : List Report) (x y : Expr) : Prop :=
  ∀ t, (expr a x).Clean t → ∃ u, (expr a y).Says rs u ∧ t.OrError u

theorem Echoes.assign (h : Echoes a rs x y) (node : Node) (target : Place) :
    Echoes a rs (.assign node target x) (.assign node target y) := by
  intro t hclean
  rw [expr] at hclean ⊢
  obtain ⟨s, hs, hclean⟩ := clean_bind.1 hclean
  obtain ⟨v, hv, hclean⟩ := clean_bind.1 hclean
  obtain ⟨u, hu, hvu⟩ := h v hv
  obtain ⟨w, hw, htw⟩ := combine_orError (.refl s) hvu (bind_recorded_clean.1 hclean)
  exact ⟨w, hs.bindSays (hu.bindClean (bind_recorded_clean.2 hw)), htw⟩

/-- The operands before the hole and behind it are the same. -/
theorem Echoes.operands (h : Echoes a rs x y) (before after : List Expr) {xs : List Operand}
    (hclean : (operands a (before ++ x :: after)).Clean xs) :
    ∃ ys, (operands a (before ++ y :: after)).Says rs ys ∧ OperandsOrError xs ys := by
  induction before generalizing xs with
  | nil =>
    rw [List.nil_append, Typing.operands] at hclean ⊢
    obtain ⟨t, ht, hclean⟩ := clean_bind.1 hclean
    obtain ⟨zs, hzs, hclean⟩ := clean_bind.1 hclean
    obtain rfl := clean_pure.1 hclean
    obtain ⟨u, hu, htu⟩ := h t ht
    refine ⟨_, hu.bindClean (clean_bind.2 ⟨zs, hzs, clean_pure.2 rfl⟩), .cons htu ?_⟩
    exact List.forall₂_same.2 fun z _ => .refl z.ty
  | cons e before ih =>
    rw [List.cons_append, Typing.operands] at hclean ⊢
    obtain ⟨t, ht, hclean⟩ := clean_bind.1 hclean
    obtain ⟨zs, hzs, hclean⟩ := clean_bind.1 hclean
    obtain rfl := clean_pure.1 hclean
    obtain ⟨ys, hys, hzy⟩ := ih hzs
    exact ⟨_, ht.bindSays (hys.bindClean (clean_pure.2 rfl)), .cons (.refl t) hzy⟩

theorem Echoes.call (h : Echoes a rs x y) (node : Node) (callee : Ident)
    (before after : List Expr) :
    Echoes a rs (.call node callee (before ++ x :: after))
      (.call node callee (before ++ y :: after)) := by
  intro t hclean
  rw [expr] at hclean ⊢
  obtain ⟨xs, hxs, hclean⟩ := clean_bind.1 hclean
  obtain ⟨f, hf, hclean⟩ := clean_bind.1 hclean
  obtain ⟨ys, hys, hxy⟩ := h.operands before after hxs
  have hcall := call_orError hxy (bind_recorded_clean.1 hclean)
  refine ⟨t, hys.bindClean (clean_bind.2 ⟨f, hf, bind_recorded_clean.2 hcall⟩), .refl t⟩

theorem Echoes.unary (h : Echoes a rs x y) (node : Node) (op : UnaryOp) :
    Echoes a rs (.unary node op x) (.unary node op y) := by
  intro t hclean
  rw [expr] at hclean ⊢
  obtain ⟨v, hv, hclean⟩ := clean_bind.1 hclean
  obtain ⟨u, hu, hvu⟩ := h v hv
  obtain ⟨w, hw, htw⟩ := unary_orError hvu (bind_recorded_clean.1 hclean)
  exact ⟨w, hu.bindClean (bind_recorded_clean.2 hw), htw⟩

theorem Echoes.left (h : Echoes a rs x y) (node : Node) (op : BinaryOp) (e : Expr) :
    Echoes a rs (.binary node op x e) (.binary node op y e) := by
  intro t hclean
  rw [expr] at hclean ⊢
  obtain ⟨l, hl, hclean⟩ := clean_bind.1 hclean
  obtain ⟨r, hr, hclean⟩ := clean_bind.1 hclean
  obtain ⟨u, hu, hlu⟩ := h l hl
  obtain ⟨w, hw, htw⟩ := binary_orError hlu (.refl r) (bind_recorded_clean.1 hclean)
  exact ⟨w, hu.bindClean (clean_bind.2 ⟨r, hr, bind_recorded_clean.2 hw⟩), htw⟩

theorem Echoes.right (h : Echoes a rs x y) (node : Node) (op : BinaryOp) (e : Expr) :
    Echoes a rs (.binary node op e x) (.binary node op e y) := by
  intro t hclean
  rw [expr] at hclean ⊢
  obtain ⟨l, hl, hclean⟩ := clean_bind.1 hclean
  obtain ⟨r, hr, hclean⟩ := clean_bind.1 hclean
  obtain ⟨u, hu, hru⟩ := h r hr
  obtain ⟨w, hw, htw⟩ := binary_orError (.refl l) hru (bind_recorded_clean.1 hclean)
  exact ⟨w, hl.bindSays (hu.bindClean (bind_recorded_clean.2 hw)), htw⟩

/-- What is in the hole echoes through an expression. -/
theorem Echoes.fill (h : Echoes a rs x y) (K : Expr.Context) :
    Echoes a rs (K.fill x) (K.fill y) := by
  induction K with
  | hole => exact h
  | assign node target K ih => exact ih.assign node target
  | call node callee before K after ih => exact ih.call node callee before after
  | unary node op K ih => exact ih.unary node op
  | left node op K e ih => exact ih.left node op e
  | right node op e K ih => exact ih.right node op e

/-! ## Statements -/

theorem Echoes.condition (h : Echoes a rs x y) {u : Unit} (hclean : (condition a x).Clean u) :
    (condition a y).Says rs u := by
  obtain ⟨t, ht, hclean⟩ := clean_bind.1 hclean
  obtain ⟨v, hv, hvt⟩ := h t ht
  refine hv.bindClean (clean_complaint.2 ?_)
  rcases hvt with rfl | rfl
  · simpa using clean_complaint.1 hclean
  · simp [Ty.isError]

theorem Echoes.write (h : Echoes a rs x y) {u : Unit} (hclean : (write a x).Clean u) :
    (write a y).Says rs u := by
  obtain ⟨t, ht, hclean⟩ := clean_bind.1 hclean
  obtain ⟨v, hv, hvt⟩ := h t ht
  refine hv.bindClean ?_
  rcases hvt with rfl | rfl
  · cases hkind : v.composite? with
    | some kind =>
      rw [hkind] at hclean
      exact absurd hclean.2 (by simp [report])
    | none =>
      rw [hkind] at hclean
      exact clean_complaint.2 (clean_complaint.1 hclean)
  · exact clean_pure.2 rfl

theorem Echoes.ret (h : Echoes a rs x y) {expected : Ty} {u : Unit}
    (hclean : (ret a expected (some x)).Clean u) : (ret a expected (some y)).Says rs u := by
  obtain ⟨t, ht, hclean⟩ := clean_bind.1 hclean
  obtain ⟨v, hv, hvt⟩ := h t ht
  refine hv.bindClean ?_
  cases hvoid : expected.isVoid with
  | true =>
    rw [hvoid] at hclean
    exact absurd hclean.2 (by simp [report])
  | false =>
    simp only [hvoid, Bool.false_eq_true, if_false] at hclean ⊢
    refine clean_complaint.2 ?_
    rcases hvt with rfl | rfl
    · exact clean_complaint.1 hclean
    · simp [Ty.isError]

/-- A statement that is an expression. -/
theorem Echoes.ignore (h : Echoes a rs x y) {u : Unit}
    (hclean : (expr a x >>= fun _ => pure ()).Clean u) :
    (expr a y >>= fun _ => pure ()).Says rs u := by
  obtain ⟨t, ht⟩ := clean_ignore.1 hclean
  obtain ⟨v, hv, -⟩ := h t ht
  exact hv.bindClean (clean_pure.2 rfl)

/-- Where `s` is in order, `s'` reports `rs`. -/
def StmtEchoes (a : Annotations) (expected : Ty) (rs : List Report) (s s' : Stmt) : Prop :=
  (stmt a expected s).Clean () → (stmt a expected s').Says rs ()

theorem StmtEchoes.around {expected : Ty} {s s' : Stmt} (h : StmtEchoes a expected rs s s')
    (b : Body.Around) (hclean : (body a expected (b.fill s)).Clean ()) :
    (body a expected (b.fill s')).Says rs () := by
  obtain ⟨decls, before, after⟩ := b
  simp only [Body.Around.fill, body] at hclean ⊢
  induction before with
  | nil =>
    rw [List.nil_append, stmts] at hclean ⊢
    obtain ⟨_, hs, hclean⟩ := clean_bind.1 hclean
    exact (h hs).bindClean hclean
  | cons e before ih =>
    rw [List.cons_append, stmts] at hclean ⊢
    obtain ⟨_, he, hclean⟩ := clean_bind.1 hclean
    exact he.bindSays (ih hclean)

/-- What is in the hole echoes through a statement. -/
theorem Echoes.stmt (h : Echoes a rs x y) (expected : Ty) (K : Stmt.Context) :
    StmtEchoes a expected rs (K.fill x) (K.fill y) := by
  induction K with
  | assign span node target K => exact ((h.fill K).assign node target).ignore
  | write span K => exact (h.fill K).write
  | call span node callee before K after => exact ((h.fill K).call node callee before after).ignore
  | ret span K => exact (h.fill K).ret
  | ifCond span K b | whileCond span K b =>
    intro hclean
    obtain ⟨_, hcond, hclean⟩ := clean_bind.1 hclean
    exact ((h.fill K).condition hcond).bindClean hclean
  | ifBody span cond around K ih | whileBody span cond around K ih =>
    intro hclean
    obtain ⟨_, hcond, hclean⟩ := clean_bind.1 hclean
    exact hcond.bindSays (ih.around around hclean)
  | ifElseCond span K b b' =>
    intro hclean
    obtain ⟨_, hcond, hclean⟩ := clean_bind.1 hclean
    exact ((h.fill K).condition hcond).bindClean hclean
  | thenBody span cond around K b ih =>
    intro hclean
    obtain ⟨_, hcond, hclean⟩ := clean_bind.1 hclean
    obtain ⟨_, hthen, hclean⟩ := clean_bind.1 hclean
    exact hcond.bindSays ((ih.around around hthen).bindClean hclean)
  | elseBody span cond b around K ih =>
    intro hclean
    obtain ⟨_, hcond, hclean⟩ := clean_bind.1 hclean
    obtain ⟨_, hthen, hclean⟩ := clean_bind.1 hclean
    exact hcond.bindSays (hthen.bindSays (ih.around around hclean))

/-! ## What is in order has a type -/

theorem place_ne_error (ha : ∀ k s, a.symbol? k = some s → s.ty.Errorless) {q : Place} {t : Ty}
    (hclean : (place a q).Clean t) : t ≠ .error := by
  have hident : ∀ {i : Ident}, (ident a i).Clean t → t ≠ .error := by
    intro i hi
    obtain ⟨s, hs, rfl⟩ := ident_clean.1 hi
    obtain ⟨k, -, hk⟩ := Option.bind_eq_some_iff.1 hs
    exact (ha k s hk).1
  cases q with
  | var node name => exact hident (bind_recorded_clean.1 hclean)
  | field node base name =>
    obtain ⟨_, -, hclean⟩ := clean_bind.1 hclean
    exact hident (bind_recorded_clean.1 hclean)

theorem unary_ne_error {op : UnaryOp} {x : Operand} {t : Ty} (hx : x.ty ≠ .error)
    (hclean : (op.check x).Clean t) : t ≠ .error := by
  cases op with
  | negate | not =>
    obtain ⟨-, rfl⟩ := (all_clean (by simpa using hx)).1 hclean
    simp

theorem binary_ne_error {op : BinaryOp} {x y : Operand} {span : Span} {t : Ty}
    (hx : x.ty ≠ .error) (hy : y.ty ≠ .error) (hclean : (op.check x y span).Clean t) :
    t ≠ .error := by
  cases op with
  | arith | logical | order =>
    obtain ⟨-, rfl⟩ := (all_clean (by simp [hx, hy])).1 hclean
    simp
  | equality =>
    obtain ⟨-, rfl⟩ := (combine_clean hx hy).1 hclean
    simp

mutual

/-- An expression about which nothing is reported does not have the type `error`. -/
theorem expr_ne_error (ha : ∀ k s, a.symbol? k = some s → s.ty.Errorless) :
    ∀ {e : Expr} {t : Ty}, (expr a e).Clean t → t ≠ .error
  | .int .., t, h | .str .., t, h | .bool .., t, h => by
    obtain rfl := recorded_clean.1 h
    simp
  | .place q, t, h => place_ne_error ha h
  | .assign node target value, t, h => by
    rw [expr] at h
    obtain ⟨s, hs, h⟩ := clean_bind.1 h
    obtain ⟨v, hv, h⟩ := clean_bind.1 h
    have hs := place_ne_error ha hs
    obtain ⟨-, rfl⟩ := (combine_clean hs (expr_ne_error ha hv)).1 (bind_recorded_clean.1 h)
    exact hs
  | .call node callee args, t, h => by
    rw [expr] at h
    obtain ⟨xs, hxs, h⟩ := clean_bind.1 h
    obtain ⟨f, hf, h⟩ := clean_bind.1 h
    obtain ⟨s, hs, rfl⟩ := ident_clean.1 hf
    obtain ⟨k, -, hk⟩ := Option.bind_eq_some_iff.1 hs
    have hfn := (ha k s hk).2
    obtain ⟨params, hty, -⟩ := (call_clean (operands_ne_error ha hxs) fun ps r hty =>
      (hfn ps r hty).2).1 (bind_recorded_clean.1 h)
    exact (hfn params t hty).1
  | .unary node op e, t, h => by
    rw [expr] at h
    obtain ⟨v, hv, h⟩ := clean_bind.1 h
    exact unary_ne_error (expr_ne_error ha hv) (bind_recorded_clean.1 h)
  | .binary node op l r, t, h => by
    rw [expr] at h
    obtain ⟨u, hu, h⟩ := clean_bind.1 h
    obtain ⟨v, hv, h⟩ := clean_bind.1 h
    exact binary_ne_error (expr_ne_error ha hu) (expr_ne_error ha hv) (bind_recorded_clean.1 h)

theorem operands_ne_error (ha : ∀ k s, a.symbol? k = some s → s.ty.Errorless) :
    ∀ {es : List Expr} {xs : List Operand}, (operands a es).Clean xs → ∀ x ∈ xs, x.ty ≠ .error
  | [], xs, h => by
    obtain rfl := clean_pure.1 h
    exact fun x hx => nomatch hx
  | e :: es, xs, h => by
    rw [operands] at h
    obtain ⟨t, ht, h⟩ := clean_bind.1 h
    obtain ⟨zs, hzs, h⟩ := clean_bind.1 h
    obtain rfl := clean_pure.1 h
    exact List.forall_mem_cons.2 ⟨expr_ne_error ha ht, operands_ne_error ha hzs⟩

end

end

end Typing

/-- **Type errors do not cascade.** With the notes that binding leaves, an expression has the type
`error` only if something was reported about it. And where a context can be filled so that nothing
is reported, an expression of type `error` makes it report just what that expression reports by
itself: in an expression and in a statement of a function of any type, at any depth. -/
theorem errors_stay_put {p : Program} {s : Session} {a : Annotations} {ok : Bool}
    (hbind : (s.bind p .empty).1 = .ok (ok, a)) :
    (∀ e : Expr, (Typing.expr a e).result = .ok .error → (Typing.expr a e).reports ≠ []) ∧
    (∀ (K : Expr.Context) (h e : Expr), (∃ t, (Typing.expr a (K.fill h)).Clean t) →
      (Typing.expr a e).result = .ok .error →
      (∃ t, (Typing.expr a (K.fill e)).result = .ok t) ∧
        (Typing.expr a (K.fill e)).reports = (Typing.expr a e).reports) ∧
    (∀ (K : Stmt.Context) (expected : Ty) (h e : Expr),
      (Typing.stmt a expected (K.fill h)).Clean () → (Typing.expr a e).result = .ok .error →
      (Typing.stmt a expected (K.fill e)).result = .ok () ∧
        (Typing.stmt a expected (K.fill e)).reports = (Typing.expr a e).reports) := by
  obtain ⟨rs, hrun, -⟩ := Session.bindNames_of_bind hbind
  have hechoes : ∀ {h e : Expr}, (Typing.expr a e).result = .ok .error →
      Typing.Echoes a (Typing.expr a e).reports h e :=
    fun he _ _ => ⟨.error, ⟨he, rfl⟩, .inr rfl⟩
  refine ⟨fun e he hquiet => ?_, fun K h e hclean he => ?_, fun K expected h e hclean he => ?_⟩
  · exact Typing.expr_ne_error (fun k sy hk => (bindNames_fresh hrun k sy hk).ty) ⟨he, hquiet⟩ rfl
  · obtain ⟨t, ht⟩ := hclean
    obtain ⟨u, ⟨hresult, hreports⟩, -⟩ := (hechoes he).fill K t ht
    exact ⟨⟨u, hresult⟩, hreports⟩
  · exact (hechoes he).stmt expected K hclean

/-- The sum of an `int` and a `bool` as an argument, in a condition. -/
theorem errors_stay_put_argument :
    ∃ (ts : Lexer.Tokens) (p : Program) (a : Annotations) (K : Stmt.Context) (h e : Expr),
      tokenize "int f(int n) \x7b return n; \x7d" = .ok ts ∧ parse ts.lexemes = .ok p ∧
      ((Session.new "").bind p .empty).1 = .ok (true, a) ∧
      (Typing.stmt a .int (K.fill h)).Clean () ∧ (Typing.expr a e).result = .ok .error ∧
      (Typing.expr a e).reports ≠ [] ∧ (Typing.stmt a .int (K.fill e)).result = .ok () ∧
      (Typing.stmt a .int (K.fill e)).reports = (Typing.expr a e).reports := by
  let node : Node := ⟨9, .zero⟩
  let K : Stmt.Context := .whileCond .zero
    (.left node (.order .less) (.call node ⟨0, "f", .zero⟩ [] .hole []) (.int node 3)) (.block [] [])
  let h : Expr := .int node 1
  let e : Expr := .binary node (.arith .add) (.int node 1) (.bool node true)
  obtain ⟨ts, p, a, hlex, hparse, hbind, htest⟩ := exists_of_bound "int f(int n) \x7b return n; \x7d"
    (fun _ a => (Typing.stmt a .int (K.fill h)).result.toOption.isSome &&
      (Typing.stmt a .int (K.fill h)).reports.isEmpty &&
      decide ((Typing.expr a e).result.toOption = some .error)) (by decide +kernel)
  simp only [Bool.and_eq_true, decide_eq_true_eq, List.isEmpty_iff] at htest
  obtain ⟨⟨hresult, hreports⟩, he⟩ := htest
  obtain ⟨_, hresult⟩ := Option.isSome_iff_exists.1 hresult
  have he := eq_ok_of_toOption he
  have hclean : (Typing.stmt a .int (K.fill h)).Clean () := ⟨eq_ok_of_toOption hresult, hreports⟩
  obtain ⟨hloud, -, hstay⟩ := errors_stay_put hbind
  obtain ⟨hdone, hsame⟩ := hstay K .int h e hclean he
  exact ⟨ts, p, a, K, h, e, hlex, hparse, hbind, hclean, he, hloud e he, hdone, hsame⟩

end FlatC
