import FlatC.Proofs.Scoping.Links
import FlatC.Proofs.Spans.Outline
import FlatC.Proofs.Typing.Records
import FlatC.Proofs.Typing.Rules

/-!
# Checking decides the type system

A step of checking is `Clean` if it reports nothing. Where names are bound, checking an expression
is clean with the type `ty` exactly if the rules give the expression that type (`expr_clean`), and
a statement is checked cleanly exactly if it is well typed. So a program is accepted exactly if it
is well typed, and the types that are recorded then are those of the rules (`check_decides`).
-/

namespace FlatC

namespace Checked

variable {α β γ : Type} {x : Checked α} {f : α → Checked β}

/-- The step gives `v` and reports nothing. -/
def Clean (x : Checked α) (v : α) : Prop := x.result = .ok v ∧ x.reports = []

theorem clean_bind {w : β} : (x >>= f).Clean w ↔ ∃ v, x.Clean v ∧ (f v).Clean w := by
  obtain ⟨result, reports, types⟩ := x
  cases result with
  | error d => simp [Clean]
  | ok v =>
    simp only [Clean, bind_eq, andThen_ok, List.append_eq_nil_iff, Except.ok.injEq]
    constructor
    · rintro ⟨hw, hx, hf⟩
      exact ⟨v, ⟨rfl, hx⟩, hw, hf⟩
    · rintro ⟨_, ⟨rfl, hx⟩, hw, hf⟩
      exact ⟨hw, hx, hf⟩

theorem clean_pure {v w : α} : (pure v : Checked α).Clean w ↔ v = w := by
  simp [Clean]

/-- The result does not matter. -/
theorem clean_ignore {u : Unit} : (x >>= fun _ => pure ()).Clean u ↔ ∃ v, x.Clean v := by
  simp only [clean_bind, clean_pure, and_true]

theorem Clean.unique {v w : α} (h : x.Clean v) (h' : x.Clean w) : v = w :=
  Except.ok.inj (h.1.symm.trans h'.1)

theorem not_clean_report {r : Report} {y : Checked β} {w : β} :
    ¬ (report r >>= fun _ => y).Clean w := by
  simp [Clean, report]

/-- A complaint, or none. -/
theorem clean_complaint {c : Prop} [Decidable c] {r : Report} {u : Unit} :
    (if c then report r else pure () : Checked Unit).Clean u ↔ ¬ c := by
  split
  next h => simp [Clean, report, h]
  next h => simp [Clean, h]

/-- `x` is a step of `y`: where `y` is clean, so is `x`, and `y` records what `x` records. -/
def StepOf (x : Checked α) (y : Checked β) : Prop :=
  ∀ w, y.Clean w → (∃ v, x.Clean v) ∧ ∀ t ∈ x.types, t ∈ y.types

theorem StepOf.refl (x : Checked α) : x.StepOf x := fun v h => ⟨⟨v, h⟩, fun _ => id⟩

theorem StepOf.trans {y : Checked β} {z : Checked γ} (h : x.StepOf y) (h' : y.StepOf z) :
    x.StepOf z := by
  intro w hw
  obtain ⟨⟨v, hv⟩, hyz⟩ := h' w hw
  obtain ⟨hx, hxy⟩ := h v hv
  exact ⟨hx, fun t ht => hyz t (hxy t ht)⟩

theorem types_bind {v : α} (h : x.result = .ok v) : (x >>= f).types = x.types ++ (f v).types := by
  obtain ⟨result, reports, types⟩ := x
  subst h
  rfl

theorem StepOf.first : x.StepOf (x >>= f) := by
  intro w hw
  obtain ⟨v, hv, -⟩ := clean_bind.1 hw
  refine ⟨⟨v, hv⟩, fun t ht => ?_⟩
  rw [types_bind hv.1]
  exact List.mem_append_left _ ht

theorem StepOf.next {y : Checked γ} (h : ∀ v, y.StepOf (f v)) : y.StepOf (x >>= f) := by
  intro w hw
  obtain ⟨v, hv, hf⟩ := clean_bind.1 hw
  obtain ⟨hy, hsub⟩ := h v w hf
  refine ⟨hy, fun t ht => ?_⟩
  rw [types_bind hv.1]
  exact List.mem_append_right _ (hsub t ht)

end Checked

/-! ## Types -/

namespace Ty

theorem isError_iff {t : Ty} : t.isError = true ↔ t = .error := by cases t <;> simp [isError]

theorem isError_eq_false {t : Ty} (h : t ≠ .error) : t.isError = false :=
  Bool.eq_false_iff.2 fun herr => h (isError_iff.1 herr)

theorem isVoid_iff {t : Ty} : t.isVoid = true ↔ t = .void := by cases t <;> simp [isVoid]

theorem isBool_iff {t : Ty} : t.isBool = true ↔ t = .bool := by cases t <;> simp [isBool]

theorem isInt_iff {t : Ty} : t.isInt = true ↔ t = .int := by cases t <;> simp [isInt]

theorem compatible_iff {s t : Ty} (hs : s ≠ .error) (ht : t ≠ .error) :
    s.compatible t = true ↔ s.Same t := by
  simp [compatible, isError_eq_false hs, isError_eq_false ht, Same]

theorem isComposite_iff {t : Ty} : t.IsComposite ↔ ∃ kind, t.composite? = some kind := by
  constructor
  · rintro (_ | _ | _)
    exacts [⟨.function, rfl⟩, ⟨.structName, rfl⟩, ⟨.structVariable, rfl⟩]
  · rintro ⟨kind, h⟩
    cases t with
    | fn => exact .fn
    | structDef => exact .structDef
    | struct => exact .struct
    | int | bool | void | string | error => cases h

theorem composite?_eq_none_iff {t : Ty} : t.composite? = none ↔ ¬ t.IsComposite := by
  rw [isComposite_iff, ← Option.isSome_iff_exists]
  simp

theorem bothComposite_iff {s t : Ty} :
    s.BothComposite t ↔ ∃ kind, s.composite? = some kind ∧ t.composite? = some kind := by
  constructor
  · rintro (_ | _ | _)
    exacts [⟨.function, rfl, rfl⟩, ⟨.structName, rfl, rfl⟩, ⟨.structVariable, rfl, rfl⟩]
  · rintro ⟨kind, hs, ht⟩
    obtain hs' := isComposite_iff.2 ⟨kind, hs⟩
    obtain ht' := isComposite_iff.2 ⟨kind, ht⟩
    have hst := hs.trans ht.symm
    cases hs' with
    | fn =>
      cases ht' with
      | fn => exact .fn
      | structDef | struct => cases hst
    | structDef =>
      cases ht' with
      | structDef => exact .structDef
      | fn | struct => cases hst
    | struct =>
      cases ht' with
      | struct => exact .struct
      | fn | structDef => cases hst

theorem bothComposite?_eq_none_iff {s t : Ty} :
    bothComposite? s t = none ↔ ¬ s.BothComposite t := by
  rw [bothComposite_iff]
  unfold bothComposite?
  cases s.composite? with
  | none => simp
  | some kind =>
    cases t.composite? with
    | none => simp
    | some kind' => by_cases h : kind = kind' <;> simp [h, eq_comm]

theorem equalityFault?_eq_none_iff {s t : Ty} (hs : s ≠ .error) (ht : t ≠ .error) :
    equalityFault? s t = none ↔
      ¬ (s = .void ∧ t = .void) ∧ ¬ s.BothComposite t ∧ s.Same t := by
  unfold equalityFault?
  rw [← bothComposite?_eq_none_iff, ← compatible_iff hs ht]
  split
  next h => simp_all [isVoid_iff]
  next h =>
    cases bothComposite? s t with
    | some kind => simp
    | none => simp_all [isVoid_iff]

theorem assignmentFault?_eq_none_iff {s t : Ty} (hs : s ≠ .error) (ht : t ≠ .error) :
    assignmentFault? s t = none ↔ ¬ s.BothComposite t ∧ s.Same t := by
  unfold assignmentFault?
  rw [← bothComposite?_eq_none_iff, ← compatible_iff hs ht]
  cases bothComposite? s t with
  | some kind => simp
  | none => simp

end Ty

namespace Typing

open Binding Checked Grammar

/-! ## Operations -/

theorem recorded_clean {node : Node} {ty ty' : Ty} : (recorded node ty).Clean ty' ↔ ty = ty' := by
  simp [recorded, record, Clean]

theorem bind_recorded_clean {x : Checked Ty} {node : Node} {ty : Ty} :
    (x >>= recorded node).Clean ty ↔ x.Clean ty := by
  simp only [clean_bind, recorded_clean, exists_eq_right]

theorem ident_clean {a : Annotations} {i : Ident} {ty : Ty} :
    (ident a i).Clean ty ↔ ∃ s, a.symbolOf? i.id = some s ∧ s.ty = ty := by
  unfold ident
  cases a.symbolOf? i.id with
  | none => simp [defect, Clean]
  | some s => simp [Clean]

theorem all_clean {accepts : Ty → Bool} {fault : TypeFault} {ty ty' : Ty} {xs : List Operand}
    (hxs : ∀ x ∈ xs, x.ty ≠ .error) :
    (Operand.all accepts fault ty xs).Clean ty' ↔
      (∀ x ∈ xs, accepts x.ty = true) ∧ ty = ty' := by
  have hfine := fun x hx => Ty.isError_eq_false (hxs x hx)
  have hreports : xs.flatMap (Operand.complaint accepts fault) = [] ↔
      ∀ x ∈ xs, accepts x.ty = true := by
    rw [List.flatMap_eq_nil_iff]
    refine forall_congr' fun x => forall_congr' fun hx => ?_
    simp [Operand.complaint, hfine x hx]
  unfold Operand.all Clean
  simp only [hreports]
  constructor
  · rintro ⟨hty, hall⟩
    rw [if_pos (List.all_eq_true.2 fun x hx => by simp [hfine x hx, hall x hx])] at hty
    exact ⟨hall, Except.ok.inj hty⟩
  · rintro ⟨hall, rfl⟩
    rw [if_pos (List.all_eq_true.2 fun x hx => by simp [hfine x hx, hall x hx])]
    exact ⟨rfl, hall⟩

theorem combine_clean {fault? : Ty → Ty → Option TypeFault} {s t ty ty' : Ty} {span : Span}
    (hs : s ≠ .error) (ht : t ≠ .error) :
    (Ty.combine fault? s t ty span).Clean ty' ↔ fault? s t = none ∧ ty = ty' := by
  have herr : ¬ (s.isError || t.isError) = true := by
    simp [Ty.isError_eq_false hs, Ty.isError_eq_false ht]
  unfold Ty.combine
  rw [if_neg herr]
  cases fault? s t with
  | none => simp [Clean]
  | some f => exact iff_of_false not_clean_report (by simp)

theorem argumentReports_eq_nil_iff {xs : List Operand} {params : List Ty}
    (hlen : params.length = xs.length) (hxs : ∀ x ∈ xs, x.ty ≠ .error)
    (hparams : ∀ t ∈ params, t ≠ .error) :
    argumentReports xs params = [] ↔ List.Forall₂ Ty.Same (xs.map Operand.ty) params := by
  induction xs generalizing params with
  | nil =>
    obtain rfl := List.length_eq_zero_iff.1 hlen
    simp [argumentReports]
  | cons x xs ih =>
    cases params with
    | nil => cases hlen
    | cons t params =>
      rw [List.forall_mem_cons] at hxs hparams
      rw [argumentReports, List.append_eq_nil_iff, ih (Nat.succ.inj hlen) hxs.2 hparams.2,
        List.map_cons, List.forall₂_cons, ← Ty.compatible_iff hxs.1 hparams.1]
      simp [Ty.isError_eq_false hxs.1]

theorem call_clean {callee ty : Ty} {span : Span} {xs : List Operand}
    (hxs : ∀ x ∈ xs, x.ty ≠ .error)
    (hcallee : ∀ params ret, callee = .fn params ret → ∀ t ∈ params, t ≠ .error) :
    (call callee span xs).Clean ty ↔
      ∃ params, callee = .fn params ty ∧ List.Forall₂ Ty.Same (xs.map Operand.ty) params := by
  unfold call
  split
  next params ret =>
    split
    next hlen =>
      simp only [Clean, Except.ok.injEq, Ty.fn.injEq,
        argumentReports_eq_nil_iff hlen hxs (hcallee params ret rfl)]
      constructor
      · rintro ⟨rfl, hall⟩
        exact ⟨params, ⟨rfl, rfl⟩, hall⟩
      · rintro ⟨_, ⟨rfl, rfl⟩, hall⟩
        exact ⟨rfl, hall⟩
    next hlen =>
      refine iff_of_false not_clean_report ?_
      rintro ⟨_, heq, hall⟩
      obtain ⟨rfl, -⟩ := Ty.fn.inj heq
      have := hall.length_eq
      rw [List.length_map] at this
      exact hlen this.symm
  next hno =>
    refine iff_of_false not_clean_report ?_
    rintro ⟨params, rfl, -⟩
    exact hno params ty rfl

/-! ## Expressions -/

section

variable {p : Program} {a : Annotations} {v : Surroundings}

/-- The symbol of a variable has the type of the variable. -/
theorem ty_of_varBound {env : List Decl} {g : Bool} {x : VarDecl} {k : SymbolId}
    (h : VarBound env a g x k) : ∃ s, a.symbol? k = some s ∧ s.ty = (Decl.var x).ty := by
  obtain ⟨-, s, hs, -, -, htype⟩ := h
  refine ⟨s, hs, ?_⟩
  cases hx : x.type with
  | scalar sc =>
    rw [hx] at htype
    simpa [Decl.ty, hx, Ty.ofSpec] using htype.2.2
  | struct i =>
    rw [hx] at htype
    obtain ⟨-, -, -, -, -, -, -, hty⟩ := htype
    simpa [Decl.ty, hx, Ty.ofSpec] using hty

/-- The symbol of a declaration that a name stands for has the type of the declaration. -/
theorem ty_of_means (hr : Resolved p a) (hv : v.Settled a) {x : String} {d : Decl}
    (hd : d ∈ v.env) (hval : d.value? = some x) {k : SymbolId} (hl : a.Links d.name.id k) :
    ∃ s, a.symbol? k = some s ∧ s.ty = d.ty := by
  cases d with
  | var y =>
    obtain ⟨g, k', hk'⟩ := hv.vars hd
    obtain rfl := hr.unique hk'.1 hl
    exact ty_of_varBound hk'
  | struct sd => cases hval
  | fn f =>
    obtain ⟨k', s, hl', hs, hdesc⟩ := hv.fns hd
    obtain rfl := hr.unique hl' hl
    exact ⟨s, hs, hdesc.ty⟩

theorem ty_of_denotes (hr : Resolved p a) {q : Place} (h : (Expr.place q).Settled v a) {d : Decl}
    (hd : v.Denotes q d) : ∃ s, a.symbolOf? q.last.id = some s ∧ s.ty = d.ty := by
  obtain ⟨hv, ⟨k, hk⟩, -, hw⟩ := h
  obtain ⟨hld, hlq, hvar⟩ := hd.links hv hr hw hk
  rw [hr.symbolOf? hlq]
  cases hd with
  | var hmeans =>
    have hfind := Surroundings.find_of_means hv.distinct (hw _ (.head _)).1 hmeans
    exact ty_of_means hr hv (mem_of_find hfind).1 hmeans.value hld
  | field =>
    obtain ⟨g, hg⟩ := hvar _ rfl
    exact ty_of_varBound hg

/-- The last name of a place has the type of the place. -/
theorem last_clean (hr : Resolved p a) {q : Place} (h : (Expr.place q).Settled v a) {ty : Ty} :
    (ident a q.last).Clean ty ↔ HasType v (.place q) ty := by
  rw [ident_clean]
  constructor
  · rintro ⟨s, hs, rfl⟩
    obtain ⟨d, hd⟩ := h.wellScoped
    obtain ⟨s', hs', hty⟩ := ty_of_denotes hr h hd
    obtain rfl := Option.some.inj (hs.symm.trans hs')
    rw [hty]
    exact .place hd
  · intro hty
    cases hty with
    | place hd => exact ty_of_denotes hr h hd

theorem place_clean (hr : Resolved p a) {q : Place} (h : (Expr.place q).Settled v a) {ty : Ty} :
    (place a q).Clean ty ↔ HasType v (.place q) ty := by
  induction q generalizing ty with
  | var node name => exact bind_recorded_clean.trans (last_clean hr h)
  | field node base name ih =>
    have hbase : ∃ t, (place a base).Clean t := by
      have hb := Place.settled_parts h base (by cases base <;> simp [Place.parts])
      obtain ⟨d, hd⟩ := hb.wellScoped
      exact ⟨d.ty, (ih hb).2 (.place hd)⟩
    rw [← last_clean hr h]
    show (place a base >>= fun _ => ident a name >>= recorded node).Clean ty ↔ _
    rw [clean_bind, exists_and_right, and_iff_right hbase]
    exact bind_recorded_clean

theorem callee_clean (hr : Resolved p a) {node : Node} {callee : Ident} {es : List Expr}
    (h : (Expr.call node callee es).Settled v a) {ty : Ty} :
    (ident a callee).Clean ty ↔ ∃ d, v.Means callee.name d ∧ d.ty = ty := by
  obtain ⟨hv, ⟨⟨k, d, hfind, hld, hl⟩, -⟩, -, hw⟩ := h
  have hword : Lexer.IsWord callee.name := (hw _ (.head _)).1
  have hd := Surroundings.means_of_find hword hfind
  obtain ⟨s, hs, hty⟩ := ty_of_means hr hv (mem_of_find hfind).1 hd.value hld
  rw [ident_clean, hr.symbolOf? hl, hs]
  constructor
  · rintro ⟨_, ⟨⟩, rfl⟩
    exact ⟨d, hd, hty.symm⟩
  · rintro ⟨d', hd', rfl⟩
    obtain rfl := hd'.unique hv.distinct hword hd
    exact ⟨s, rfl, hty⟩

/-- An operand that has to have the type `s`. -/
theorem single_clean {accepts : Ty → Bool} {fault : TypeFault} {s ty ty' : Ty} {e : Expr}
    {span : Span} (haccepts : ∀ {t}, accepts t = true ↔ t = s) :
    (∃ t, HasType v e t ∧ (Operand.all accepts fault ty [⟨t, span⟩]).Clean ty') ↔
      HasType v e s ∧ ty = ty' := by
  constructor
  · rintro ⟨t, ht, hclean⟩
    rw [all_clean (by simpa using ht.ne_error), List.forall_mem_singleton, haccepts] at hclean
    obtain ⟨rfl, hty⟩ := hclean
    exact ⟨ht, hty⟩
  · rintro ⟨hs, hty⟩
    refine ⟨s, hs, (all_clean (by simpa using hs.ne_error)).2 ⟨?_, hty⟩⟩
    rw [List.forall_mem_singleton]
    exact haccepts.2 rfl

/-- Operands that both have to have the type `s`. -/
theorem pair_clean {accepts : Ty → Bool} {fault : TypeFault} {s ty ty' : Ty} {l r : Expr}
    {span span' : Span} (haccepts : ∀ {t}, accepts t = true ↔ t = s) :
    (∃ t, HasType v l t ∧ ∃ u, HasType v r u ∧
        (Operand.all accepts fault ty [⟨t, span⟩, ⟨u, span'⟩]).Clean ty') ↔
      (HasType v l s ∧ HasType v r s) ∧ ty = ty' := by
  constructor
  · rintro ⟨t, ht, u, hu, hclean⟩
    rw [all_clean (by simp [ht.ne_error, hu.ne_error]), List.forall_mem_cons,
      List.forall_mem_singleton, haccepts, haccepts] at hclean
    obtain ⟨⟨rfl, rfl⟩, hty⟩ := hclean
    exact ⟨⟨ht, hu⟩, hty⟩
  · rintro ⟨⟨hl, hr⟩, hty⟩
    refine ⟨s, hl, s, hr, (all_clean (by simp [hl.ne_error])).2 ⟨?_, hty⟩⟩
    rw [List.forall_mem_cons, List.forall_mem_singleton]
    exact ⟨haccepts.2 rfl, haccepts.2 rfl⟩

/-- Operands whose types have to fit each other. -/
theorem fitting_clean {fault? : Ty → Ty → Option TypeFault} (result : Ty → Ty) {ty : Ty}
    {l r : Expr} {span : Span} :
    (∃ t, HasType v l t ∧ ∃ u, HasType v r u ∧
        (Ty.combine fault? t u (result t) span).Clean ty) ↔
      ∃ t u, HasType v l t ∧ HasType v r u ∧ fault? t u = none ∧ result t = ty := by
  constructor
  · rintro ⟨t, ht, u, hu, hclean⟩
    obtain ⟨hfault, hty⟩ := (combine_clean ht.ne_error hu.ne_error).1 hclean
    exact ⟨t, u, ht, hu, hfault, hty⟩
  · rintro ⟨t, u, ht, hu, hfault, hty⟩
    exact ⟨t, ht, u, hu, (combine_clean ht.ne_error hu.ne_error).2 ⟨hfault, hty⟩⟩

mutual

/-- **Checking an expression finds its type.** -/
theorem expr_clean (hr : Resolved p a) : ∀ {e : Expr} {ty : Ty}, e.Settled v a →
    ((expr a e).Clean ty ↔ HasType v e ty)
  | .int .., ty, _ => by
    refine recorded_clean.trans ⟨?_, ?_⟩
    · rintro rfl
      exact .int
    · rintro ⟨⟩
      rfl
  | .str .., ty, _ => by
    refine recorded_clean.trans ⟨?_, ?_⟩
    · rintro rfl
      exact .str
    · rintro ⟨⟩
      rfl
  | .bool .., ty, _ => by
    refine recorded_clean.trans ⟨?_, ?_⟩
    · rintro rfl
      exact .bool
    · rintro ⟨⟩
      rfl
  | .place q, ty, h => place_clean hr h
  | .assign node q e, ty, h => by
    rw [expr]
    simp only [clean_bind, recorded_clean, exists_eq_right, place_clean hr h.target,
      expr_clean hr h.value]
    refine (fitting_clean id).trans ⟨?_, fun hty => ?_⟩
    · rintro ⟨t, u, ht, hu, hfault, rfl⟩
      obtain ⟨hkind, hsame⟩ := (Ty.assignmentFault?_eq_none_iff ht.ne_error hu.ne_error).1 hfault
      cases ht with
      | place hq => exact .assign hq hu hkind hsame
    · cases hty with
      | @assign _ _ _ d u hq hu hkind hsame =>
        have hfault := (Ty.assignmentFault?_eq_none_iff d.ty_ne_error hu.ne_error).2 ⟨hkind, hsame⟩
        exact ⟨d.ty, u, .place hq, hu, hfault, rfl⟩
  | .call node callee es, ty, h => by
    rw [expr]
    simp only [clean_bind, recorded_clean, exists_eq_right, callee_clean hr h]
    constructor
    · rintro ⟨xs, hxs, _, ⟨d, hd, rfl⟩, hcall⟩
      have hargs := (operands_clean hr h.args).1 ⟨xs, hxs, rfl⟩
      have hfine := List.forall_mem_map.1 hargs.ne_error
      obtain ⟨params, hfn, hsame⟩ := (call_clean hfine fun _ _ => Decl.params_ne_error).1 hcall
      exact .call hd hfn hargs hsame
    · intro hty
      cases hty with
      | @call _ _ _ d params tys _ hd hfn hargs hsame =>
        obtain ⟨xs, hxs, rfl⟩ := (operands_clean hr h.args).2 hargs
        have hfine := List.forall_mem_map.1 hargs.ne_error
        exact ⟨xs, hxs, _, ⟨d, hd, rfl⟩,
          (call_clean hfine fun _ _ => Decl.params_ne_error).2 ⟨params, hfn, hsame⟩⟩
  | .unary node op e, ty, h => by
    rw [expr]
    simp only [clean_bind, recorded_clean, exists_eq_right, expr_clean hr h.operand]
    cases op with
    | negate =>
      refine (single_clean Ty.isInt_iff).trans ⟨?_, fun hty => ?_⟩
      · rintro ⟨he, rfl⟩
        exact .negate he
      · cases hty with
        | negate he => exact ⟨he, rfl⟩
    | not =>
      refine (single_clean Ty.isBool_iff).trans ⟨?_, fun hty => ?_⟩
      · rintro ⟨he, rfl⟩
        exact .not he
      · cases hty with
        | not he => exact ⟨he, rfl⟩
  | .binary node op e e', ty, h => by
    rw [expr]
    simp only [clean_bind, recorded_clean, exists_eq_right, expr_clean hr h.left,
      expr_clean hr h.right]
    cases op with
    | arith op =>
      refine (pair_clean Ty.isInt_iff).trans ⟨?_, fun hty => ?_⟩
      · rintro ⟨⟨hl, hr⟩, rfl⟩
        exact .arith hl hr
      · cases hty with
        | arith hl hr => exact ⟨⟨hl, hr⟩, rfl⟩
    | logical op =>
      refine (pair_clean Ty.isBool_iff).trans ⟨?_, fun hty => ?_⟩
      · rintro ⟨⟨hl, hr⟩, rfl⟩
        exact .logical hl hr
      · cases hty with
        | logical hl hr => exact ⟨⟨hl, hr⟩, rfl⟩
    | order op =>
      refine (pair_clean Ty.isInt_iff).trans ⟨?_, fun hty => ?_⟩
      · rintro ⟨⟨hl, hr⟩, rfl⟩
        exact .order hl hr
      · cases hty with
        | order hl hr => exact ⟨⟨hl, hr⟩, rfl⟩
    | equality op =>
      refine (fitting_clean fun _ => .bool).trans ⟨?_, fun hty => ?_⟩
      · rintro ⟨t, u, ht, hu, hfault, rfl⟩
        obtain ⟨hvoid, hkind, hsame⟩ :=
          (Ty.equalityFault?_eq_none_iff ht.ne_error hu.ne_error).1 hfault
        exact .equality ht hu hvoid hkind hsame
      · cases hty with
        | @equality _ _ _ _ t u ht hu hvoid hkind hsame =>
          have hfault := (Ty.equalityFault?_eq_none_iff ht.ne_error hu.ne_error).2
            ⟨hvoid, hkind, hsame⟩
          exact ⟨t, u, ht, hu, hfault, rfl⟩

theorem operands_clean (hr : Resolved p a) : ∀ {es : List Expr} {tys : List Ty},
    (∀ e ∈ es, e.Settled v a) →
    ((∃ xs, (operands a es).Clean xs ∧ xs.map Operand.ty = tys) ↔ HasTypes v es tys)
  | [], tys, _ => by
    rw [operands]
    simp only [clean_pure]
    constructor
    · rintro ⟨_, rfl, rfl⟩
      exact .nil
    · rintro ⟨⟩
      exact ⟨[], rfl, rfl⟩
  | e :: es, tys, h => by
    rw [List.forall_mem_cons] at h
    rw [operands]
    simp only [clean_bind, clean_pure, expr_clean hr h.1]
    constructor
    · rintro ⟨_, ⟨ty, hty, xs, hxs, rfl⟩, rfl⟩
      exact .cons hty ((operands_clean hr h.2).1 ⟨xs, hxs, rfl⟩)
    · intro hty
      cases hty with
      | cons he hes =>
        obtain ⟨xs, hxs, rfl⟩ := (operands_clean hr h.2).2 hes
        exact ⟨_, ⟨_, he, xs, hxs, rfl⟩, rfl⟩

end

/-! ## Statements -/

theorem condition_clean (hr : Resolved p a) {e : Expr} (h : e.Settled v a) {u : Unit} :
    (condition a e).Clean u ↔ HasType v e .bool := by
  unfold condition
  simp only [clean_bind, clean_complaint, expr_clean hr h]
  constructor
  · rintro ⟨ty, hty, hfine⟩
    have hbool : ty.isBool = true := by simpa [Ty.isError_eq_false hty.ne_error] using hfine
    rwa [Ty.isBool_iff.1 hbool] at hty
  · intro hty
    exact ⟨.bool, hty, by simp [Ty.isBool]⟩

theorem step_clean (hr : Resolved p a) {q : Place} (h : (Expr.place q).Settled v a) {u : Unit} :
    (step a q).Clean u ↔ HasType v (.place q) .int := by
  unfold step
  rw [clean_bind]
  simp only [clean_ignore, place_clean hr h]
  constructor
  · rintro ⟨ty, hty, ty', hclean⟩
    exact ((single_clean Ty.isInt_iff).1 ⟨ty, hty, hclean⟩).1
  · intro hty
    obtain ⟨ty, hty, hclean⟩ := (single_clean Ty.isInt_iff).2 ⟨hty, rfl⟩
    exact ⟨ty, hty, .int, hclean⟩

theorem read_clean (hr : Resolved p a) {q : Place} (h : (Expr.place q).Settled v a) {u : Unit} :
    (read a q).Clean u ↔ ∃ ty, HasType v (.place q) ty ∧ ¬ ty.IsComposite := by
  unfold read
  simp only [clean_bind, place_clean hr h]
  refine exists_congr fun ty => and_congr_right fun _ => ?_
  rw [← Ty.composite?_eq_none_iff]
  cases ty.composite? with
  | some kind => simp [Checked.report, Clean]
  | none => simp [Clean]

theorem write_clean (hr : Resolved p a) {e : Expr} (h : e.Settled v a) {u : Unit} :
    (write a e).Clean u ↔ ∃ ty, HasType v e ty ∧ ¬ ty.IsComposite ∧ ty ≠ .void := by
  unfold write
  simp only [clean_bind, expr_clean hr h]
  refine exists_congr fun ty => and_congr_right fun _ => ?_
  rw [← Ty.composite?_eq_none_iff]
  cases ty.composite? with
  | some kind => simp [Checked.report, Clean]
  | none => simpa [Ty.isVoid_iff] using clean_complaint

theorem ret_clean (hr : Resolved p a) {e : Expr} (h : e.Settled v a) {s : Scalar} {u : Unit} :
    (ret a (.ofScalar s) (some e)).Clean u ↔
      Ty.ofScalar s ≠ .void ∧ ∃ ty, HasType v e ty ∧ ty.Same (.ofScalar s) := by
  unfold ret
  simp only [clean_bind, expr_clean hr h]
  by_cases hvoid : Ty.ofScalar s = .void
  · refine iff_of_false ?_ fun hgood => hgood.1 hvoid
    rintro ⟨ty, -, hclean⟩
    rw [if_pos (Ty.isVoid_iff.2 hvoid)] at hclean
    simp [Checked.report, Clean] at hclean
  · rw [and_iff_right hvoid]
    refine exists_congr fun ty => and_congr_right fun hty => ?_
    rw [if_neg fun hv => hvoid (Ty.isVoid_iff.1 hv), clean_complaint,
      ← Ty.compatible_iff hty.ne_error (Ty.ofScalar_ne_error s)]
    simp [Ty.isError_eq_false hty.ne_error]

mutual

/-- **A statement is checked cleanly exactly if it is well typed.** -/
theorem stmt_clean (hr : Resolved p a) {s : Scalar} {u : Unit} : ∀ (st : Stmt)
    {v : Surroundings}, (∀ r ∈ st.exprs v, r.2.Settled r.1 a) →
    ((stmt a (.ofScalar s) st).Clean u ↔ StmtTyped (.ofScalar s) v st)
  | .assign span node q e, v, h => by
    rw [Stmt.exprs, List.forall_mem_singleton] at h
    rw [stmt, clean_ignore]
    simp only [expr_clean hr h]
    constructor
    · rintro ⟨ty, hty⟩
      exact .assign hty
    · rintro ⟨hty⟩
      exact ⟨_, hty⟩
  | .increment span q, v, h => by
    rw [Stmt.exprs, List.forall_mem_singleton] at h
    refine (step_clean hr h).trans ⟨.increment, fun hst => ?_⟩
    cases hst with
    | increment hty => exact hty
  | .decrement span q, v, h => by
    rw [Stmt.exprs, List.forall_mem_singleton] at h
    refine (step_clean hr h).trans ⟨.decrement, fun hst => ?_⟩
    cases hst with
    | decrement hty => exact hty
  | .read span q, v, h => by
    rw [Stmt.exprs, List.forall_mem_singleton] at h
    refine (read_clean hr h).trans ⟨?_, fun hst => ?_⟩
    · rintro ⟨ty, hty, hkind⟩
      exact .read hty hkind
    · cases hst with
      | read hty hkind => exact ⟨_, hty, hkind⟩
  | .write span e, v, h => by
    rw [Stmt.exprs, List.forall_mem_singleton] at h
    refine (write_clean hr h).trans ⟨?_, fun hst => ?_⟩
    · rintro ⟨ty, hty, hkind, hvoid⟩
      exact .write hty hkind hvoid
    · cases hst with
      | write hty hkind hvoid => exact ⟨_, hty, hkind, hvoid⟩
  | .ifThen span e b, v, h => by
    rw [Stmt.exprs, List.forall_mem_cons] at h
    rw [stmt]
    simp only [clean_bind, condition_clean hr h.1, body_clean hr b h.2]
    constructor
    · rintro ⟨-, he, hb⟩
      exact .ifThen he hb
    · intro hst
      cases hst with
      | ifThen he hb => exact ⟨(), he, hb⟩
  | .ifElse span e b b', v, h => by
    rw [Stmt.exprs, List.forall_mem_cons, List.forall_mem_append] at h
    rw [stmt]
    simp only [clean_bind, condition_clean hr h.1, body_clean hr b h.2.1, body_clean hr b' h.2.2]
    constructor
    · rintro ⟨-, he, -, hb, hb'⟩
      exact .ifElse he hb hb'
    · intro hst
      cases hst with
      | ifElse he hb hb' => exact ⟨(), he, (), hb, hb'⟩
  | .whileLoop span e b, v, h => by
    rw [Stmt.exprs, List.forall_mem_cons] at h
    rw [stmt]
    simp only [clean_bind, condition_clean hr h.1, body_clean hr b h.2]
    constructor
    · rintro ⟨-, he, hb⟩
      exact .whileLoop he hb
    · intro hst
      cases hst with
      | whileLoop he hb => exact ⟨(), he, hb⟩
  | .call span node callee es, v, h => by
    rw [Stmt.exprs, List.forall_mem_singleton] at h
    rw [stmt, clean_ignore]
    simp only [expr_clean hr h]
    constructor
    · rintro ⟨ty, hty⟩
      exact .call hty
    · intro hst
      cases hst with
      | call hty => exact ⟨_, hty⟩
  | .ret span none, v, _ => by
    rw [stmt, ret, clean_complaint]
    simp only [Bool.not_eq_true', Bool.not_eq_false, Ty.isVoid_iff]
    refine ⟨.ret, fun hst => ?_⟩
    cases hst with
    | ret hvoid => exact hvoid
  | .ret span (some e), v, h => by
    rw [Stmt.exprs, List.forall_mem_singleton] at h
    rw [stmt, ret_clean hr h]
    constructor
    · rintro ⟨hvoid, ty, hty, hsame⟩
      exact .retValue hvoid hty hsame
    · intro hst
      cases hst with
      | retValue hvoid hty hsame => exact ⟨hvoid, _, hty, hsame⟩

theorem body_clean (hr : Resolved p a) {s : Scalar} {u : Unit} : ∀ (b : Body)
    {v : Surroundings}, (∀ r ∈ b.exprs v, r.2.Settled r.1 a) →
    ((body a (.ofScalar s) b).Clean u ↔ BodyTyped (.ofScalar s) v b)
  | .block ds ss, v, h => by
    refine (stmts_clean hr ss h).trans ⟨.block, fun hb => ?_⟩
    cases hb with
    | block hss => exact hss

theorem stmts_clean (hr : Resolved p a) {s : Scalar} {u : Unit} : ∀ (ss : List Stmt)
    {v : Surroundings}, (∀ r ∈ Stmt.manyExprs v ss, r.2.Settled r.1 a) →
    ((stmts a (.ofScalar s) ss).Clean u ↔ StmtsTyped (.ofScalar s) v ss)
  | [], v, _ => iff_of_true (clean_pure.2 rfl) .nil
  | st :: ss, v, h => by
    rw [Stmt.manyExprs, List.forall_mem_append] at h
    rw [stmts]
    simp only [clean_bind, stmt_clean hr st h.1, stmts_clean hr ss h.2]
    constructor
    · rintro ⟨-, hst, hss⟩
      exact .cons hst hss
    · intro hall
      cases hall with
      | cons hst hss => exact ⟨(), hst, hss⟩

end

/-! ## Programs -/

theorem body_eq (ret : Ty) (b : Body) : body a ret b = stmts a ret b.stmts := by
  cases b with
  | block ds ss => rfl

/-- The functions of a program, in their order. -/
theorem functions_clean (hr : Resolved p a) {u : Unit} (ds before : List Decl)
    (h : ∀ mid d after, ds = mid ++ d :: after →
      ∀ f, d = .fn f → ∀ r ∈ f.exprs (before ++ mid), r.2.Settled r.1 a) :
    (functions a (ds.filterMap Decl.fn?)).Clean u ↔
      ∀ mid d after, ds = mid ++ d :: after → ∀ f, d = .fn f → f.WellTyped (before ++ mid) := by
  induction ds generalizing before with
  | nil => exact iff_of_true (clean_pure.2 rfl) (by simp)
  | cons x ds ih =>
    rw [forall_split_cons (P := fun mid d => ∀ f, d = .fn f → f.WellTyped (before ++ mid))]
    rw [forall_split_cons (P := fun mid d => ∀ f, d = .fn f →
      ∀ r ∈ f.exprs (before ++ mid), r.2.Settled r.1 a)] at h
    have hrest := ih (before ++ [x]) (by simpa using h.2)
    simp only [List.append_assoc, List.singleton_append] at hrest
    cases x with
    | var d =>
      rw [List.filterMap_cons_none rfl, hrest]
      exact (and_iff_right nofun).symm
    | struct d =>
      rw [List.filterMap_cons_none rfl, hrest]
      exact (and_iff_right nofun).symm
    | fn f =>
      rw [List.filterMap_cons_some (f := Decl.fn?) rfl, functions, body_eq]
      have hf := h.1 f rfl
      rw [List.append_nil] at hf
      simp only [clean_bind, stmts_clean hr f.body.stmts hf, hrest, List.append_nil]
      constructor
      · rintro ⟨-, hwell, hall⟩
        refine ⟨?_, hall⟩
        rintro _ ⟨⟩
        exact hwell
      · rintro ⟨hwell, hall⟩
        exact ⟨(), hwell f rfl, hall⟩

/-- The symbol of a function describes it. -/
theorem described_of_mem (hr : Resolved p a) {f : FnDecl} (hf : Decl.fn f ∈ p.decls) :
    ∃ s, a.symbolOf? f.name.id = some s ∧ f.Described s := by
  obtain ⟨before, after, hsplit⟩ := List.append_of_mem hf
  have hb := hr.bound
  have hdesc := hr.described
  rw [hsplit] at hb hdesc
  obtain ⟨s, hs, hd⟩ := hdesc.split
  exact ⟨s, (hr.symbolOf? hb.split.1).trans hs, hd⟩

theorem hasMain_iff (hr : Resolved p a) :
    hasMain a p = true ↔ ∃ f, Decl.fn f ∈ p.decls ∧ f.name.name = "main" ∧ f.params = [] := by
  have hparams : ∀ {f}, Decl.fn f ∈ p.decls →
      (((a.symbolOf? f.name.id).bind Symbol.fnInfo?).any (·.params.isEmpty) = true ↔
        f.params = []) := by
    intro f hf
    obtain ⟨s, hs, -, info, hinfo, hps, -⟩ := described_of_mem hr hf
    simp [hs, hinfo, hps]
  have hmain : ∀ {f}, Decl.fn f ∈ p.decls → f.name.name = "main" → p.main? = some f := by
    intro f hf hname
    cases hfind : p.main? with
    | none =>
      have := List.find?_eq_none.1 hfind f (Program.mem_functions.2 hf)
      exact absurd (by simpa [FnDecl.isMain] using hname) this
    | some g =>
      have hg : g.name.name = "main" := by simpa [FnDecl.isMain] using List.find?_some hfind
      have hmem := Program.mem_functions.1 (List.mem_of_find?_eq_some hfind)
      have hkey : (Decl.fn g).key = (Decl.fn f).key := hg.trans hname.symm
      exact congrArg some (Decl.fn.inj (List.inj_on_of_nodup_map hr.nodup hmem hf hkey))
  unfold hasMain
  constructor
  · intro h
    obtain ⟨f, hfind, hany⟩ := Option.any_eq_true _ _ |>.1 h
    have hf := Program.mem_functions.1 (List.mem_of_find?_eq_some hfind)
    have hname : f.name.name = "main" := by simpa [FnDecl.isMain] using List.find?_some hfind
    exact ⟨f, hf, hname, (hparams hf).1 hany⟩
  · rintro ⟨f, hf, hname, hps⟩
    rw [hmain hf hname, Option.any_some]
    exact (hparams hf).2 hps

/-- **A program is checked cleanly exactly if it is well typed.** -/
theorem program_clean (hr : Resolved p a)
    (h : ∀ before f after, p.decls = before ++ .fn f :: after →
      ∀ r ∈ f.exprs before, r.2.Settled r.1 a) {u : Unit} :
    (program a p).Clean u ↔ p.WellTyped := by
  have hfns := functions_clean (u := ()) hr p.decls []
    (by rintro mid _ after hsplit f rfl; exact h mid f after hsplit)
  unfold program
  simp only [clean_bind, clean_complaint, Bool.not_eq_true', Bool.not_eq_false, hasMain_iff hr]
  constructor
  · rintro ⟨⟨⟩, hclean, hmain⟩
    exact ⟨fun before f after hsplit => hfns.1 hclean before _ after hsplit f rfl, hmain⟩
  · rintro ⟨hall, hmain⟩
    refine ⟨(), hfns.2 ?_, hmain⟩
    rintro mid _ after hsplit f rfl
    exact hall mid f after hsplit

/-! ## What is recorded -/

/-- A step that ends by recording its result. -/
def Records (node : Node) (x : Checked Ty) : Prop :=
  ∀ ty, x.Clean ty → (node.id, ty) ∈ x.types

theorem records_recorded {node : Node} {ty : Ty} : Records node (recorded node ty) := by
  intro ty' h
  obtain rfl := recorded_clean.1 h
  exact .head _

theorem Records.bind {α : Type} {node : Node} {x : Checked α} {f : α → Checked Ty}
    (h : ∀ w, Records node (f w)) : Records node (x >>= f) := by
  intro ty hty
  obtain ⟨w, hw, hf⟩ := clean_bind.1 hty
  rw [types_bind hw.1]
  exact List.mem_append_right _ (h w ty hf)

theorem place_records (q : Place) : Records q.node (place a q) := by
  cases q with
  | var node name => exact .bind fun _ => records_recorded
  | field node base name => exact .bind fun _ => .bind fun _ => records_recorded

/-- The type of an expression is recorded for it. -/
theorem expr_records (e : Expr) : Records e.node (expr a e) := by
  cases e with
  | int | str | bool => exact records_recorded
  | place q => exact place_records q
  | assign | call | binary => exact .bind fun _ => .bind fun _ => .bind fun _ => records_recorded
  | unary => exact .bind fun _ => .bind fun _ => records_recorded

theorem place_steps (q : Place) : ∀ x ∈ q.parts, (place a x).StepOf (place a q) := by
  induction q with
  | var node name =>
    rw [Place.parts, List.forall_mem_singleton]
    exact .refl _
  | field node base name ih =>
    rw [Place.parts, List.forall_mem_append, List.forall_mem_singleton]
    exact ⟨fun x hx => (ih x hx).trans .first, .refl _⟩

mutual

/-- The parts of an expression are checked with it. -/
theorem expr_steps : ∀ e : Expr, ∀ x ∈ e.parts, (expr a x).StepOf (expr a e)
  | .int .. | .str .. | .bool .. => by
    rw [Expr.parts, List.forall_mem_singleton]
    exact .refl _
  | .place q => by
    rw [Expr.parts, List.forall_mem_map]
    exact place_steps q
  | .assign node q e => by
    rw [Expr.parts, List.forall_mem_append, List.forall_mem_append, List.forall_mem_map,
      List.forall_mem_singleton]
    refine ⟨⟨fun x hx => (place_steps q x hx).trans .first, fun x hx => ?_⟩, .refl _⟩
    exact .next fun _ => (expr_steps e x hx).trans .first
  | .call node callee es => by
    rw [Expr.parts, List.forall_mem_append, List.forall_mem_singleton]
    exact ⟨fun x hx => (operands_steps es x hx).trans .first, .refl _⟩
  | .unary node op e => by
    rw [Expr.parts, List.forall_mem_append, List.forall_mem_singleton]
    exact ⟨fun x hx => (expr_steps e x hx).trans .first, .refl _⟩
  | .binary node op e e' => by
    rw [Expr.parts, List.forall_mem_append, List.forall_mem_append, List.forall_mem_singleton]
    refine ⟨⟨fun x hx => (expr_steps e x hx).trans .first, fun x hx => ?_⟩, .refl _⟩
    exact .next fun _ => (expr_steps e' x hx).trans .first

theorem operands_steps : ∀ es : List Expr, ∀ x ∈ Expr.allParts es,
    (expr a x).StepOf (operands a es)
  | [] => by simp [Expr.allParts]
  | e :: es => by
    rw [Expr.allParts, List.forall_mem_append]
    exact ⟨fun x hx => (expr_steps e x hx).trans .first,
      fun x hx => .next fun _ => (operands_steps es x hx).trans .first⟩

end

mutual

theorem stmt_steps (ret : Ty) : ∀ (st : Stmt) {v : Surroundings}, ∀ r ∈ st.exprs v,
    (expr a r.2).StepOf (stmt a ret st)
  | .assign .., v | .increment .., v | .decrement .., v | .read .., v | .write .., v
  | .call .., v => by
    rw [Stmt.exprs, List.forall_mem_singleton]
    exact .first
  | .ret _ none, v => by simp [Stmt.exprs]
  | .ret _ (some e), v => by
    rw [Stmt.exprs, List.forall_mem_singleton]
    exact .first
  | .ifThen _ e b, v | .whileLoop _ e b, v => by
    rw [Stmt.exprs, List.forall_mem_cons]
    exact ⟨StepOf.first.trans .first, fun r hr => .next fun _ => body_steps ret b r hr⟩
  | .ifElse _ e b b', v => by
    rw [Stmt.exprs, List.forall_mem_cons, List.forall_mem_append]
    exact ⟨StepOf.first.trans .first,
      fun r hr => .next fun _ => (body_steps ret b r hr).trans .first,
      fun r hr => .next fun _ => .next fun _ => body_steps ret b' r hr⟩

theorem body_steps (ret : Ty) : ∀ (b : Body) {v : Surroundings}, ∀ r ∈ b.exprs v,
    (expr a r.2).StepOf (body a ret b)
  | .block _ ss, _ => stmts_steps ret ss

theorem stmts_steps (ret : Ty) : ∀ (ss : List Stmt) {v : Surroundings},
    ∀ r ∈ Stmt.manyExprs v ss, (expr a r.2).StepOf (stmts a ret ss)
  | [], v => by simp [Stmt.manyExprs]
  | st :: ss, v => by
    rw [Stmt.manyExprs, List.forall_mem_append]
    exact ⟨fun r hr => (stmt_steps ret st r hr).trans .first,
      fun r hr => .next fun _ => stmts_steps ret ss r hr⟩

end

theorem functions_steps {fs : List FnDecl} {f : FnDecl} (hf : f ∈ fs) :
    (body a (.ofScalar f.returns) f.body).StepOf (functions a fs) := by
  induction fs with
  | nil => cases hf
  | cons g fs ih =>
    rcases List.mem_cons.1 hf with rfl | hf
    · exact .first
    · exact .next fun _ => ih hf

theorem program_steps {f : FnDecl} (hf : Decl.fn f ∈ p.decls) (before : List Decl) :
    ∀ r ∈ f.exprs before, (expr a r.2).StepOf (program a p) := by
  intro r hr
  have hbody := functions_steps (a := a) (Program.mem_functions.2 hf)
  rw [body_eq] at hbody
  exact ((stmts_steps _ f.body.stmts r hr).trans hbody).trans .first

end

end Typing

/-- The types that are known of a program are those that the rules give to its expressions. -/
def Program.Typed (p : Program) (b : Annotations) : Prop :=
  ∀ before f after, p.decls = before ++ .fn f :: after → ∀ v e, (v, e) ∈ f.exprs before →
    ∀ x ∈ e.parts, ∃ ty, HasType v x ty ∧ (∀ ty', HasType v x ty' → ty' = ty) ∧
      b.typeOf? x.id = some ty ∧ ty ≠ .error

/-- **Checking decides the type system.** Where the names of what was read from a text are bound,
nothing is wrong exactly if the program is well typed, and then the type that is recorded for
every expression is the one that the rules give it. -/
theorem check_decides {source : String} {ts : Lexer.Tokens} {p : Program} {s : Session}
    {a : Annotations} (hlex : tokenize source = .ok ts) (hparse : parse ts.lexemes = .ok p)
    (hbind : (s.bind p .empty).1 = .ok (true, a)) (s' : Session) :
    ∃ ok b, (s'.check p a).1 = .ok (ok, b) ∧ (ok = true ↔ p.WellTyped) ∧
      ((s'.check p a).2.reports = s'.reports ↔ p.WellTyped) ∧ (ok = true → p.Typed b) := by
  obtain ⟨hr, hp⟩ := resolved_of_bind hlex hparse hbind
  obtain ⟨hw, hn⟩ := wf_of_parse hlex hparse
  have hsettled := fun before f after
    (hsplit : p.decls = before ++ .fn f :: after) => hr.exprs_settled hp hw hsplit
  obtain ⟨-, ⟨⟩, hresult, -⟩ := Typing.program_gives hr
  have hclean : (Typing.program a p).reports = [] ↔ p.WellTyped :=
    (and_iff_right hresult).symm.trans (Typing.program_clean hr hsettled)
  refine ⟨(Typing.program a p).reports.isEmpty, a.withTypes (Typing.program a p).types,
    ?_, List.isEmpty_iff.trans hclean, ?_, fun hok => ?_⟩
  · simp [Session.check, checkTypes, hresult, Except.map]
  · simp [Session.check, checkTypes, Session.report, hclean]
  · intro before f after hsplit v e he x hx
    have hf : Decl.fn f ∈ p.decls := by simp [hsplit]
    have hx' := Expr.settled_parts (hsettled before f after hsplit (v, e) he) x hx
    have hstep : (Typing.expr a x).StepOf (Typing.program a p) :=
      (Typing.expr_steps e x hx).trans (Typing.program_steps hf before (v, e) he)
    obtain ⟨⟨ty, hty⟩, hsub⟩ := hstep () ⟨hresult, List.isEmpty_iff.1 hok⟩
    have hhas := (Typing.expr_clean hr hx').1 hty
    have hrecorded := hsub _ (Typing.expr_records x ty hty)
    exact ⟨ty, hhas, fun ty' h' => ((Typing.expr_clean hr hx').2 h').unique hty,
      Annotations.typeOf?_withTypes (Typing.program_single hr hn) hrecorded, hhas.ne_error⟩

/-- A field, a comparison of `bool`s and a call, in a program without a type error. -/
theorem check_decides_fields :
    ∃ ts p a b,
      tokenize "struct P \x7b int x; \x7d; int f(int n, bool c) \x7b struct P q; q.x = -n; if (c == (q.x < 3)) \x7b cin >> n; \x7d return f(q.x, !c); \x7d void main() \x7b cout << \"s\"; \x7d" = .ok ts ∧
      parse ts.lexemes = .ok p ∧ ((Session.new "").bind p .empty).1 = .ok (true, a) ∧
      ((Session.new "").check p a).1 = .ok (true, b) ∧ p.WellTyped ∧ p.Typed b := by
  obtain ⟨p, -, -, -, ⟨hlex, hparse, hbind, hcheck, -⟩, -⟩ := exists_of_code
    "struct P \x7b int x; \x7d; int f(int n, bool c) \x7b struct P q; q.x = -n; if (c == (q.x < 3)) \x7b cin >> n; \x7d return f(q.x, !c); \x7d void main() \x7b cout << \"s\"; \x7d"
    (fun _ => true) (by decide +kernel)
  have hbound := Session.bind_of_bound (s := Session.new "") hbind
  obtain ⟨ok, b, hok, hwell, -, htyped⟩ := check_decides hlex hparse hbound (Session.new "")
  obtain rfl : true = ok := by
    rw [Session.check, hcheck] at hok
    exact (Prod.mk.inj (Except.ok.inj hok)).1
  exact ⟨_, p, _, b, hlex, hparse, hbound, hok, hwell.1 rfl, htyped rfl⟩

end FlatC
