import FlatC.Proofs.Scoping.Surroundings

/-!
# Binding reports what is wrong, and nothing else

While nothing has been reported, the open scopes hold the declarations around the place where
binding stands, each with its symbol (`Tracks`). So a step reports something exactly if a name
does not stand for anything, or a declaration is wrong. `program_exact` puts the steps together:
**nothing is reported exactly if the program is well scoped.**
-/

namespace FlatC

namespace Binding

open Annotations State Grammar

/-! ## What the open scopes hold -/

/-- Declarations with their symbols. -/
abbrev Symbols := List (Decl × SymbolId)

/-- The symbol is one of a variable of the type. -/
def TypeFits (syms : Symbols) : TypeSpec → Symbol → Prop
  | .scalar _, s => s.definition? = none
  | .struct i, s =>
    ∃ sd k, (Decl.struct sd, k) ∈ syms ∧ sd.name.name = i.name ∧ s.definition? = some k

/-- The fields are found by their names. -/
structure FieldsFit (a : Annotations) (syms : Symbols) (xs : List VarDecl) (fields : Scope) :
    Prop where
  names : fields.entries.map Prod.fst = xs.map (·.name.name)
  found : ∀ x ∈ xs, ∃ k s, fields.lookup x.name.name = some k ∧ a.symbol? k = some s ∧
    TypeFits syms x.type s

/-- The symbol tells of a declaration what is needed to follow its fields. -/
def DeclFits (a : Annotations) (syms : Symbols) : Decl → SymbolId → Prop
  | .var d, k => ∃ s, a.symbol? k = some s ∧ TypeFits syms d.type s
  | .struct d, k =>
    ∃ s fields, a.symbol? k = some s ∧ s.fields? = some fields ∧ FieldsFit a syms d.fields fields
  | .fn _, k => ∃ s, a.symbol? k = some s ∧ s.definition? = none

end Binding

/-- The names that the innermost scope holds. -/
def Surroundings.innermost (v : Surroundings) : List String :=
  match v.blocks with
  | [] => v.decls.map Decl.key
  | b :: _ => b.map (·.name.name)

namespace Binding

open Annotations State Grammar

/-- Nothing has been reported, and the open scopes hold what is around. -/
structure Tracks (s : State) (t : ScopeTable) (v : Surroundings) (syms : Symbols) : Prop where
  clean : s.reports = []
  sane : s.notes.Sane
  env : syms.map Prod.fst = v.env
  lookup : ∀ x, t.lookup x = (syms.find? (·.1.key == x)).map Prod.snd
  innermost : t.inner.entries.map Prod.fst = v.innermost
  words : ∀ d ∈ v.env, Lexer.IsWord d.name.name
  distinct : v.Distinct
  fits : ∀ {d k}, (d, k) ∈ syms → DeclFits s.notes syms d k

section

variable {syms syms' : Symbols} {s s' : State} {t : ScopeTable} {v : Surroundings}
  {ids : List NodeId}

theorem TypeFits.mono (hsub : ∀ e ∈ syms, e ∈ syms') {type : TypeSpec} {sy : Symbol}
    (h : TypeFits syms type sy) : TypeFits syms' type sy := by
  cases type with
  | scalar sc => exact h
  | struct i =>
    obtain ⟨sd, k, hmem, hname, hdef⟩ := h
    exact ⟨sd, k, hsub _ hmem, hname, hdef⟩

/-- The symbols of `a` give access to the same fields in `b`. -/
def SameAccess (a b : Annotations) : Prop :=
  ∀ {k sy}, a.symbol? k = some sy →
    ∃ sy', b.symbol? k = some sy' ∧ sy'.definition? = sy.definition? ∧ sy'.fields? = sy.fields?

theorem SameAccess.of_grows (hg : Grows ids s s') : SameAccess s.notes s'.notes :=
  fun hsy => ⟨_, (hg.kept (symbol?_lt hsy)).trans hsy, rfl, rfl⟩

theorem TypeFits.alike {type : TypeSpec} {sy sy' : Symbol} (h : TypeFits syms type sy)
    (hdef : sy'.definition? = sy.definition?) : TypeFits syms type sy' := by
  cases type with
  | scalar sc => exact hdef.trans h
  | struct i =>
    obtain ⟨sd, k, hmem, hname, hk⟩ := h
    exact ⟨sd, k, hmem, hname, hdef.trans hk⟩

theorem FieldsFit.mono {a b : Annotations} (hab : SameAccess a b) (hsub : ∀ e ∈ syms, e ∈ syms')
    {xs : List VarDecl} {fields : Scope} (h : FieldsFit a syms xs fields) :
    FieldsFit b syms' xs fields := by
  refine ⟨h.names, fun x hx => ?_⟩
  obtain ⟨k, sy, hk, hsy, hfits⟩ := h.found x hx
  obtain ⟨sy', hsy', hdef, -⟩ := hab hsy
  exact ⟨k, sy', hk, hsy', (hfits.mono hsub).alike hdef⟩

theorem DeclFits.mono {a b : Annotations} (hab : SameAccess a b) (hsub : ∀ e ∈ syms, e ∈ syms')
    {d : Decl} {k : SymbolId} (h : DeclFits a syms d k) : DeclFits b syms' d k := by
  cases d with
  | var d =>
    obtain ⟨sy, hsy, hfits⟩ := h
    obtain ⟨sy', hsy', hdef, -⟩ := hab hsy
    exact ⟨sy', hsy', (hfits.mono hsub).alike hdef⟩
  | struct d =>
    obtain ⟨sy, fields, hsy, hf, hfits⟩ := h
    obtain ⟨sy', hsy', -, hfields⟩ := hab hsy
    exact ⟨sy', fields, hsy', hfields.trans hf, hfits.mono hab hsub⟩
  | fn f =>
    obtain ⟨sy, hsy, hdef⟩ := h
    obtain ⟨sy', hsy', hdef', -⟩ := hab hsy
    exact ⟨sy', hsy', hdef'.trans hdef⟩

theorem DeclFits.grow (hg : Grows ids s s') (hsub : ∀ e ∈ syms, e ∈ syms') {d : Decl}
    {k : SymbolId} (h : DeclFits s.notes syms d k) : DeclFits s'.notes syms' d k :=
  h.mono (SameAccess.of_grows hg) hsub

theorem DeclFits.lt {a : Annotations} {d : Decl} {k : SymbolId} (h : DeclFits a syms d k) :
    k < a.symbols.size := by
  cases d with
  | var d =>
    obtain ⟨sy, hsy, -⟩ := h
    exact symbol?_lt hsy
  | struct d =>
    obtain ⟨sy, fields, hsy, -⟩ := h
    exact symbol?_lt hsy
  | fn f =>
    obtain ⟨sy, hsy, -⟩ := h
    exact symbol?_lt hsy

namespace Tracks

theorem grow (h : Tracks s t v syms) (hg : Grows ids s s') (hr : s'.reports = []) :
    Tracks s' t v syms :=
  { h with clean := hr, sane := hg.sane h.sane, fits := fun hm => (h.fits hm).grow hg fun _ => id }

theorem find (h : Tracks s t v syms) {x : String} {k : SymbolId} (hx : t.lookup x = some k) :
    ∃ d, (d, k) ∈ syms ∧ Binding.find v.env x = some d := by
  rw [h.lookup] at hx
  obtain ⟨⟨d, k'⟩, hfind, rfl⟩ := Option.map_eq_some_iff.1 hx
  refine ⟨d, List.mem_of_find?_eq_some hfind, ?_⟩
  rw [← h.env, Binding.find, List.find?_map]
  exact congrArg (Option.map Prod.fst) hfind

theorem find_none (h : Tracks s t v syms) {x : String} (hx : t.lookup x = none) :
    Binding.find v.env x = none := by
  rw [h.lookup, Option.map_eq_none_iff] at hx
  rw [← h.env, Binding.find, List.find?_map]
  exact congrArg (Option.map Prod.fst) hx

theorem inTable (h : Tracks s t v syms) : InTable s.notes t := by
  intro x k hx
  obtain ⟨d, hmem, -⟩ := h.find hx
  exact (h.fits hmem).lt

theorem mem_decls (h : Tracks s t v syms) {sd : StructDecl} {k : SymbolId}
    (hm : (Decl.struct sd, k) ∈ syms) : Decl.struct sd ∈ v.decls :=
  Surroundings.mem_env_struct.1 (h.env ▸ List.mem_map_of_mem (f := Prod.fst) hm)

end Tracks

/-- Two steps behind each other report nothing if neither does. -/
theorem clean_iff_and {s1 s2 : State} {C D : Prop} (hg : Grows ids s1 s2)
    (h1 : s1.reports = [] ↔ C) (h2 : s1.reports = [] → (s2.reports = [] ↔ D)) :
    s2.reports = [] ↔ C ∧ D := by
  constructor
  · intro hr
    have hr1 := hg.reports hr
    exact ⟨h1.1 hr1, (h2 hr1).1 hr⟩
  · rintro ⟨hc, hd⟩
    exact (h2 (h1.2 hc)).2 hd

end

/-! ## Uses -/

theorem every_more {Q : Token → Prop} : ∀ {es : List Expr},
    Every Q (Expr.moreTokens es) → ∀ e ∈ es, Every Q e.tokens
  | [], _, e, he => by cases he
  | x :: es, h, e, he => by
    simp only [Expr.moreTokens, every_cons, every_append] at h
    rcases List.mem_cons.1 he with rfl | he
    · exact h.2.1
    · exact every_more h.2.2 e he

theorem every_args {Q : Token → Prop} {es : List Expr} (h : Every Q (Expr.argTokens es)) :
    ∀ e ∈ es, Every Q e.tokens := by
  intro e he
  cases es with
  | nil => cases he
  | cons x es =>
    rw [Expr.argTokens, every_append] at h
    rcases List.mem_cons.1 he with rfl | he
    · exact h.1
    · exact every_more h.2 e he

section Uses

variable {syms : Symbols} {s s' : State} {t : ScopeTable} {v : Surroundings}

theorem ident_exact (h : Tracks s t v syms) {i : Ident} (hw : Lexer.IsWord i.name)
    {k? : Option SymbolId} (hrun : (ident t i).run s = .ok (k?, s')) :
    (s'.reports = [] ↔ ∃ d, v.Means i.name d) ∧
      ∀ d, v.Means i.name d → ∃ k, k? = some k ∧ (d, k) ∈ syms := by
  unfold ident at hrun
  split at hrun
  next k hk =>
    obtain ⟨_, s1, hlink, hret⟩ := run_bind_ok.1 hrun
    obtain ⟨rfl, rfl⟩ := run_pure_ok.1 hret
    obtain ⟨-, -, hr⟩ := (link_yields (h.inTable _ _ hk)).of_run hlink
    obtain ⟨d, hmem, hfind⟩ := h.find hk
    have hmeans := Surroundings.means_of_find hw hfind
    refine ⟨iff_of_true (hr.trans h.clean) ⟨d, hmeans⟩, fun d' hd' => ⟨k, rfl, ?_⟩⟩
    rwa [hd'.unique h.distinct hw hmeans]
  next hnone =>
    obtain ⟨_, s1, hreport, hret⟩ := run_bind_ok.1 hrun
    obtain ⟨rfl, rfl⟩ := run_pure_ok.1 hret
    obtain ⟨-, -, hr⟩ := report_yields.of_run hreport
    have hno : ∀ d, ¬ v.Means i.name d := fun d hd => by
      have := Surroundings.find_of_means h.distinct hw hd
      rw [h.find_none hnone] at this
      cases this
    exact ⟨iff_of_false hr (not_exists.2 hno), fun d hd => absurd hd (hno d)⟩

/-- What a place turned out to be fits the declaration that it stands for. -/
def Access.Opens (syms : Symbols) (d : Decl) : Access → Prop
  | .bad => False
  | .struct k => ∃ x i sd, d = .var x ∧ x.type = .struct i ∧ (Decl.struct sd, k) ∈ syms ∧
      sd.name.name = i.name
  | .plain _ => ∀ x i, d = .var x → x.type ≠ .struct i

theorem access_opens {k : SymbolId} {sy : Symbol} (hsy : s.notes.symbol? k = some sy)
    {span : Span} {acc : Access} (hrun : (access k span).run s = .ok (acc, s')) {x : VarDecl}
    (hfits : TypeFits syms x.type sy) : acc.Opens syms (.var x) := by
  obtain ⟨sy', s1, hsymbol, hrun⟩ := run_bind_ok.1 hrun
  obtain ⟨rfl, hsy'⟩ := (symbol_yields (symbol?_lt hsy)).of_run hsymbol
  obtain rfl := Option.some.inj (hsy.symm.trans hsy')
  cases htype : x.type with
  | scalar sc =>
    rw [htype] at hfits
    rw [show sy.definition? = none from hfits] at hrun
    obtain ⟨rfl, -⟩ := run_pure_ok.1 hrun
    intro y i hy
    obtain rfl := Decl.var.inj hy
    simp [htype]
  | struct i =>
    rw [htype] at hfits
    obtain ⟨sd, d, hmem, hname, hdef⟩ := hfits
    rw [hdef] at hrun
    obtain ⟨rfl, -⟩ := run_pure_ok.1 hrun
    exact ⟨x, i, sd, rfl, htype, hmem, hname⟩

theorem access_opens_decl {d : Decl} {k : SymbolId} (hfits : DeclFits s.notes syms d k) {y : String}
    (hd : d.value? = some y) {span : Span} {acc : Access}
    (hrun : (access k span).run s = .ok (acc, s')) : acc.Opens syms d := by
  cases d with
  | var x =>
    obtain ⟨sy, hsy, hfits⟩ := hfits
    exact access_opens hsy hrun hfits
  | struct sd => cases hd
  | fn f =>
    obtain ⟨sy, hsy, hdef⟩ := hfits
    obtain ⟨sy', s1, hsymbol, hrun⟩ := run_bind_ok.1 hrun
    obtain ⟨rfl, hsy'⟩ := (symbol_yields (symbol?_lt hsy)).of_run hsymbol
    obtain rfl := Option.some.inj (hsy.symm.trans hsy')
    rw [hdef] at hrun
    obtain ⟨rfl, -⟩ := run_pure_ok.1 hrun
    intro x i hx
    cases hx

/-- The fields of a variable that is a struct. -/
theorem denotes_field_iff (h : Tracks s t v syms) {base : Place} (hw : Every Token.Wf base.tokens)
    {x : VarDecl} (hbase : v.Denotes base (.var x)) {i : Ident} (htype : x.type = .struct i)
    {sd : StructDecl} {k : SymbolId} (hmem : (Decl.struct sd, k) ∈ syms)
    (hname : sd.name.name = i.name) (node : Node) (name : Ident) (d : Decl) :
    v.Denotes (.field node base name) d ↔
      ∃ y ∈ sd.fields, y.name.name = name.name ∧ d = .var y := by
  have hsd := h.mem_decls hmem
  constructor
  · rintro (_ | ⟨hb, hx, hsd', hi, hy, hyname⟩)
    obtain rfl := Decl.var.inj (hb.unique h.distinct hw hbase)
    obtain rfl := TypeSpec.struct.inj (hx.symm.trans htype)
    obtain rfl := Surroundings.struct_unique h.distinct hsd' hsd (hi.trans hname.symm)
    exact ⟨_, hy, hyname, rfl⟩
  · rintro ⟨y, hy, hyname, rfl⟩
    exact .field hbase htype hsd hname hy hyname

theorem FieldsFit.lookup_none {a : Annotations} {xs : List VarDecl} {fields : Scope}
    (h : FieldsFit a syms xs fields) {x : String} :
    fields.lookup x = none ↔ ∀ y ∈ xs, y.name.name ≠ x := by
  rw [Scope.lookup_eq_none_iff, h.names, List.mem_map]
  exact ⟨fun hno y hy hx => hno ⟨y, hy, hx⟩, fun hno ⟨y, hy, hx⟩ => hno y hy hx⟩

/-- The last step of a place whose base stands for a declaration. -/
theorem fieldAccess_exact (h : Tracks s t v syms) {base : Place} (hw : Every Token.Wf base.tokens)
    {d : Decl} (hd : v.Denotes base d) {k : SymbolId} (hk : k < s.notes.symbols.size)
    (hopens : (Access.struct k).Opens syms d) {node : Node} {name : Ident} {acc : Access}
    (hrun : (fieldAccess k name).run s = .ok (acc, s')) :
    (s'.reports = [] ↔ ∃ d, v.Denotes (.field node base name) d) ∧
      ∀ d, v.Denotes (.field node base name) d → acc.Opens syms d := by
  obtain ⟨x, i, sd, rfl, htype, hmem, hname⟩ := hopens
  have hdenotes := denotes_field_iff h hw hd htype hmem hname node name
  obtain ⟨sy, fields, hsy, hfields, hfit⟩ := h.fits hmem
  obtain ⟨hg, -, sy', hsy', hstep⟩ := (fieldAccess_yields h.sane hk name).of_run hrun
  obtain rfl := Option.some.inj (hsy.symm.trans hsy')
  rw [hfields, Option.bind_some] at hstep
  rcases hstep with ⟨hlookup, -, hr⟩ | ⟨j, hlookup, hr, -, haccess⟩
  · have hno : ∀ d, ¬ v.Denotes (.field node base name) d := by
      intro d' hd'
      obtain ⟨y, hy, hyname, -⟩ := (hdenotes d').1 hd'
      exact hfit.lookup_none.1 hlookup y hy hyname
    exact ⟨iff_of_false hr (not_exists.2 hno), fun d' hd' => absurd hd' (hno d')⟩
  · obtain ⟨y, hy, hyname⟩ : ∃ y ∈ sd.fields, y.name.name = name.name := by
      by_contra hno
      rw [hfit.lookup_none.2 fun y hy hyname => hno ⟨y, hy, hyname⟩] at hlookup
      cases hlookup
    refine ⟨iff_of_true (hr.trans h.clean) ⟨_, (hdenotes _).2 ⟨y, hy, hyname, rfl⟩⟩, ?_⟩
    intro d' hd'
    obtain ⟨z, hz, hzname, rfl⟩ := (hdenotes d').1 hd'
    obtain ⟨j', syj, hj, hsyj, htypefits⟩ := hfit.found z hz
    obtain rfl := Option.some.inj (hlookup.symm.trans (hzname ▸ hj))
    exact access_opens ((hg.kept (symbol?_lt hsyj)).trans hsyj) haccess htypefits

theorem place_exact {q : Place} (h : Tracks s t v syms) (hw : Every Token.Wf q.tokens)
    {acc : Access} (hrun : (place t q).run s = .ok (acc, s')) :
    (s'.reports = [] ↔ ∃ d, v.Denotes q d) ∧ ∀ d, v.Denotes q d → acc.Opens syms d := by
  induction q generalizing s' acc with
  | var node name =>
    have hiff : ∀ d, v.Denotes (.var node name) d ↔ v.Means name.name d := by
      refine fun d => ⟨fun hd => ?_, .var⟩
      cases hd with
      | var h => exact h
    simp only [hiff]
    obtain ⟨k?, s1, hident, hrest⟩ := run_bind_ok.1 hrun
    obtain ⟨hclean, hfound⟩ := ident_exact h (hw _ (.head _)).1 hident
    obtain ⟨hg, -, hlt, -⟩ := (ident_yields h.inTable name).of_run hident
    cases k? with
    | none =>
      obtain ⟨rfl, rfl⟩ := run_pure_ok.1 hrest
      refine ⟨hclean, fun d hd => ?_⟩
      obtain ⟨k, hk, -⟩ := hfound d hd
      cases hk
    | some k =>
      obtain ⟨rfl, -⟩ := (access_yields (hg.sane h.sane) (hlt k rfl) name.span).of_run hrest
      refine ⟨hclean, fun d hd => ?_⟩
      obtain ⟨_, hk, hmem⟩ := hfound d hd
      obtain rfl := Option.some.inj hk
      exact access_opens_decl ((h.fits hmem).grow hg fun _ => id) hd.value hrest
  | field node base name ih =>
    rw [Place.tokens, every_append] at hw
    obtain ⟨acc1, s1, hbase, hrest⟩ := run_bind_ok.1 hrun
    obtain ⟨hclean, hopens⟩ := ih hw.1 hbase
    obtain ⟨hg1, -, hlt, -⟩ := (place_yields base h.sane h.inTable).of_run hbase
    have hbad : (∀ d, ¬ v.Denotes (.field node base name) d) → s'.reports ≠ [] →
        (s'.reports = [] ↔ ∃ d, v.Denotes (.field node base name) d) ∧
          ∀ d, v.Denotes (.field node base name) d → acc.Opens syms d :=
      fun hno hr => ⟨iff_of_false hr (not_exists.2 hno), fun d hd => absurd hd (hno d)⟩
    -- a field of what stands for nothing
    have hnone : (∀ d, ¬ v.Denotes base d) → ∀ d, ¬ v.Denotes (.field node base name) d := by
      rintro hno d (_ | ⟨hb⟩)
      exact hno _ hb
    cases acc1 with
    | bad =>
      obtain ⟨rfl, rfl⟩ := run_pure_ok.1 hrest
      have hno : ∀ d, ¬ v.Denotes base d := fun d hd => hopens d hd
      exact hbad (hnone hno) fun hr => (hclean.1 hr).elim hno
    | plain span =>
      obtain ⟨_, s2, hreport, hret⟩ := run_bind_ok.1 hrest
      obtain ⟨rfl, rfl⟩ := run_pure_ok.1 hret
      refine hbad ?_ (report_yields.of_run hreport).2.2
      rintro d (_ | ⟨hb, hx⟩)
      exact hopens _ hb _ _ rfl hx
    | struct k =>
      by_cases hr1 : s1.reports = []
      · obtain ⟨d, hd⟩ := hclean.1 hr1
        exact fieldAccess_exact (h.grow hg1 hr1) hw.1 hd (hlt k rfl) (hopens d hd) hrest
      · have hg2 := ((fieldAccess_yields (hg1.sane h.sane) (hlt k rfl) name).of_run hrest).1
        exact hbad (hnone fun d hd => hr1 (hclean.2 ⟨d, hd⟩)) fun hr => hr1 (hg2.reports hr)

mutual

theorem expr_exact : ∀ (e : Expr) {s s' : State} {u : Unit}, Tracks s t v syms →
    Every Token.Wf e.tokens → (expr t e).run s = .ok (u, s') →
    (s'.reports = [] ↔ e.WellScoped v)
  | .int .., s, s', _, h, _, hrun | .str .., s, s', _, h, _, hrun
  | .bool .., s, s', _, h, _, hrun => by
    obtain ⟨-, rfl⟩ := run_pure_ok.1 hrun
    exact iff_of_true h.clean trivial
  | .place q, s, s', _, h, hw, hrun => by
    obtain ⟨acc, s1, hq, hret⟩ := run_bind_ok.1 hrun
    obtain ⟨-, rfl⟩ := run_pure_ok.1 hret
    exact (place_exact h hw hq).1
  | .assign _ target value, s, s', _, h, hw, hrun => by
    simp only [Expr.tokens, every_cons, every_append] at hw
    obtain ⟨acc, s1, hq, hvalue⟩ := run_bind_ok.1 hrun
    have hg1 := ((place_yields target h.sane h.inTable).of_run hq).1
    have hg2 := ((expr_yields value (hg1.sane h.sane) (h.inTable.grow hg1)).of_run hvalue).1
    exact clean_iff_and hg2 (place_exact h hw.2.1.1 hq).1 fun hr1 =>
      expr_exact value (h.grow hg1 hr1) hw.2.1.2.2 hvalue
  | .call _ callee args, s, s', _, h, hw, hrun => by
    simp only [Expr.tokens, every_cons, every_append] at hw
    obtain ⟨k?, s1, hcallee, hargs⟩ := run_bind_ok.1 hrun
    have hg1 := ((ident_yields h.inTable callee).of_run hcallee).1
    have hg2 := ((exprs_yields args (hg1.sane h.sane) (h.inTable.grow hg1)).of_run hargs).1
    exact clean_iff_and hg2 (ident_exact h hw.1.1 hcallee).1 fun hr1 =>
      exprs_exact args (h.grow hg1 hr1) (every_args hw.2.2.1) hargs
  | .unary _ _ operand, s, s', _, h, hw, hrun => by
    simp only [Expr.tokens, every_cons, every_append] at hw
    exact expr_exact operand h hw.2.1.2 hrun
  | .binary _ _ left right, s, s', _, h, hw, hrun => by
    simp only [Expr.tokens, every_cons, every_append] at hw
    obtain ⟨_, s1, hleft, hright⟩ := run_bind_ok.1 hrun
    have hg1 := ((expr_yields left h.sane h.inTable).of_run hleft).1
    have hg2 := ((expr_yields right (hg1.sane h.sane) (h.inTable.grow hg1)).of_run hright).1
    exact clean_iff_and hg2 (expr_exact left h hw.2.1.1 hleft) fun hr1 =>
      expr_exact right (h.grow hg1 hr1) hw.2.1.2.2 hright

theorem exprs_exact : ∀ (es : List Expr) {s s' : State} {u : Unit}, Tracks s t v syms →
    (∀ e ∈ es, Every Token.Wf e.tokens) → (exprs t es).run s = .ok (u, s') →
    (s'.reports = [] ↔ Expr.AllWellScoped v es)
  | [], s, s', _, h, _, hrun => by
    obtain ⟨-, rfl⟩ := run_pure_ok.1 hrun
    exact iff_of_true h.clean trivial
  | e :: es, s, s', _, h, hw, hrun => by
    obtain ⟨_, s1, he, hes⟩ := run_bind_ok.1 hrun
    have hg1 := ((expr_yields e h.sane h.inTable).of_run he).1
    have hg2 := ((exprs_yields es (hg1.sane h.sane) (h.inTable.grow hg1)).of_run hes).1
    exact clean_iff_and hg2 (expr_exact e h (hw e (.head _)) he) fun hr1 =>
      exprs_exact es (h.grow hg1 hr1) (fun e he => hw e (.tail _ he)) hes

end

end Uses

/-! ## Declarations of variables -/

section Variables

variable {syms : Symbols} {s s' : State} {t t' : ScopeTable} {v v' : Surroundings}

theorem structOf?_exact (h : Tracks s t v syms) {i : Ident} {k? : Option SymbolId}
    (hrun : (structOf? t i).run s = .ok (k?, s')) :
    s' = s ∧ (∀ k, k? = some k → ∃ sd, (Decl.struct sd, k) ∈ syms ∧ sd.name.name = i.name) ∧
      (k? = none → ¬ (TypeSpec.struct i).Known v.decls) := by
  unfold structOf? at hrun
  split at hrun
  next hnone =>
    obtain ⟨rfl, rfl⟩ := run_pure_ok.1 hrun
    refine ⟨rfl, by simp, fun _ hknown => ?_⟩
    obtain ⟨sd, hsd, hname⟩ := hknown
    have := List.find?_eq_none.1 (h.find_none hnone) _ (Surroundings.mem_env_struct.2 hsd)
    exact this (by simp [Decl.key, hname])
  next k hk =>
    obtain ⟨sy, s1, hsymbol, hret⟩ := run_bind_ok.1 hrun
    obtain ⟨rfl, hsy⟩ := (symbol_yields (h.inTable _ _ hk)).of_run hsymbol
    obtain ⟨rfl, rfl⟩ := run_pure_ok.1 hret
    obtain ⟨d, hmem, hfind⟩ := h.find hk
    obtain ⟨sd, rfl, hname, hsd⟩ := find_struct hfind h.words
    obtain ⟨sy', fields, hsy', hfields, -⟩ := h.fits hmem
    obtain rfl := Option.some.inj (hsy.symm.trans hsy')
    have hdef : sy.isStructDef = true := by simp [Symbol.isStructDef, hfields]
    rw [if_pos hdef]
    exact ⟨rfl, fun k' hk' => ⟨sd, Option.some.inj hk' ▸ hmem, hname⟩, by simp⟩

theorem ofType?_exact (h : Tracks s t v syms) {d : VarDecl} {sy? : Option Symbol}
    (hrun : (ofType? t d).run s = .ok (sy?, s')) :
    (s'.reports = [] ↔ d.type.Known v.decls) ∧ ∀ sy, sy? = some sy → TypeFits syms d.type sy := by
  obtain ⟨type, name, span⟩ := d
  unfold ofType? at hrun
  cases type with
  | scalar sc =>
    cases sc with
    | void =>
      obtain ⟨_, s1, hreport, hret⟩ := run_bind_ok.1 hrun
      obtain ⟨rfl, rfl⟩ := run_pure_ok.1 hret
      have hr := (report_yields.of_run hreport).2.2
      exact ⟨iff_of_false hr fun h => h rfl, nofun⟩
    | int | bool =>
      obtain ⟨rfl, rfl⟩ := run_pure_ok.1 hrun
      refine ⟨iff_of_true h.clean (by simp [TypeSpec.Known]), ?_⟩
      rintro _ ⟨⟩
      rfl
  | struct i =>
    obtain ⟨k?, s1, hstruct, hrest⟩ := run_bind_ok.1 hrun
    obtain ⟨hs1, hfound, hmissing⟩ := structOf?_exact h hstruct
    subst s1
    cases k? with
    | none =>
      obtain ⟨_, s2, hreport, hret⟩ := run_bind_ok.1 hrest
      obtain ⟨rfl, rfl⟩ := run_pure_ok.1 hret
      have hr := (report_yields.of_run hreport).2.2
      exact ⟨iff_of_false hr (hmissing rfl), nofun⟩
    | some k =>
      obtain ⟨sd, hmem, hname⟩ := hfound k rfl
      obtain ⟨_, s2, hlink, hret⟩ := run_bind_ok.1 hrest
      obtain ⟨rfl, rfl⟩ := run_pure_ok.1 hret
      obtain ⟨-, -, hr⟩ := (link_yields (h.fits hmem).lt).of_run hlink
      refine ⟨iff_of_true (hr.trans h.clean) ⟨sd, h.mem_decls hmem, hname⟩, ?_⟩
      rintro _ ⟨⟩
      exact ⟨sd, k, hmem, hname, rfl⟩

theorem symbolFor?_exact (h : Tracks s t v syms) {taken : Bool} {d : VarDecl}
    {sy? : Option Symbol} (hrun : (symbolFor? t taken d).run s = .ok (sy?, s')) :
    (s'.reports = [] ↔ d.type.Known v.decls ∧ taken = false) ∧
      ∀ sy, sy? = some sy → TypeFits syms d.type sy := by
  obtain ⟨sy1?, s1, htype, hrest⟩ := run_bind_ok.1 hrun
  obtain ⟨hclean, hfits⟩ := ofType?_exact h htype
  cases taken with
  | true =>
    obtain ⟨_, s2, hreport, hret⟩ := run_bind_ok.1 hrest
    obtain ⟨rfl, rfl⟩ := run_pure_ok.1 hret
    have hr := (report_yields.of_run hreport).2.2
    exact ⟨iff_of_false hr (by simp), nofun⟩
  | false =>
    obtain ⟨rfl, rfl⟩ := run_pure_ok.1 hrest
    exact ⟨by simpa using hclean, hfits⟩

/-- `v'` is `v` with one more declaration in the innermost scope. -/
inductive Adds : Surroundings → Decl → Surroundings → Prop where
  | block {w : Surroundings} {xs : List VarDecl} {x : VarDecl} :
      Adds (w.enter xs) (.var x) (w.enter (xs ++ [x]))
  | program {ds : List Decl} {d : Decl} : Adds ⟨[], ds⟩ d ⟨[], ds ++ [d]⟩

theorem Adds.env {d : Decl} (h : Adds v d v') : v'.env = d :: v.env := by
  cases h with
  | block => simp [Surroundings.env, Surroundings.enter]
  | program => simp [Surroundings.env]

theorem Adds.innermost {d : Decl} (h : Adds v d v') : v'.innermost = v.innermost ++ [d.key] := by
  cases h with
  | block => simp [Surroundings.innermost, Surroundings.enter, Decl.key]
  | program => simp [Surroundings.innermost]

theorem Adds.distinct {d : Decl} (h : Adds v d v') (hv : v.Distinct) (hd : d.key ∉ v.innermost)
    (hfields : ∀ sd, d = .struct sd → (sd.fields.map (·.name.name)).Nodup) : v'.Distinct := by
  cases h with
  | @block w xs x =>
    refine ⟨fun b hb => ?_, hv.decls, hv.fields⟩
    rcases List.mem_cons.1 hb with rfl | hb
    · rw [List.map_append, List.nodup_append_comm]
      exact List.nodup_cons.2 ⟨hd, hv.blocks xs (.head _)⟩
    · exact hv.blocks b (.tail _ hb)
  | @program ds d =>
    refine ⟨nofun, ?_, fun sd hsd => ?_⟩
    · rw [List.map_append, List.nodup_append_comm]
      exact List.nodup_cons.2 ⟨hd, hv.decls⟩
    · rcases List.mem_append.1 hsd with hsd | hsd
      · exact hv.fields sd hsd
      · exact hfields sd (List.mem_singleton.1 hsd).symm

theorem Decl.key_ne_empty {d : Decl} (hw : Lexer.IsWord d.name.name) : d.key ≠ "" := by
  cases d with
  | var d => exact isWord_ne_empty hw
  | struct d => exact structKey_ne_empty d.name.name
  | fn d => exact isWord_ne_empty hw

theorem Tracks.lookupLocal_none (h : Tracks s t v syms) {x : String} :
    t.lookupLocal x = none ↔ x ∉ v.innermost := by
  rw [← h.innermost]
  exact Scope.lookup_eq_none_iff

/-- A declaration that goes into the innermost scope, where its name is free. -/
theorem Tracks.declare {ids : List NodeId} (h : Tracks s t v syms) (hg : Grows ids s s')
    (hr : s'.reports = []) {d : Decl} (hadd : Adds v d v') (hw : Lexer.IsWord d.name.name)
    (hfree : d.key ∉ v.innermost)
    (hfields : ∀ sd, d = .struct sd → (sd.fields.map (·.name.name)).Nodup) {k : SymbolId}
    (ht : t.declare d.key k = .ok t') (hfits : DeclFits s'.notes ((d, k) :: syms) d k) :
    Tracks s' t' v' ((d, k) :: syms) := by
  obtain ⟨t1, ht1, -, hlookup⟩ :=
    ScopeTable.declare_ok k (Decl.key_ne_empty hw) (h.lookupLocal_none.2 hfree)
  obtain rfl := Except.ok.inj (ht1.symm.trans ht)
  refine ⟨hr, hg.sane h.sane, ?_, fun x => ?_, ?_, ?_, hadd.distinct h.distinct hfree hfields, ?_⟩
  · rw [hadd.env, List.map_cons, h.env]
  · rw [hlookup, List.find?_cons]
    by_cases hx : x = d.key
    · simp [hx]
    · rw [if_neg hx, beq_false_of_ne (Ne.symm hx)]
      exact h.lookup x
  · obtain ⟨inner, hinner, hentries⟩ := Scope.declare_ok (s := t.inner) k (Decl.key_ne_empty hw)
      (h.lookupLocal_none.2 hfree)
    rw [ScopeTable.declare, hinner] at ht
    obtain rfl := Except.ok.inj ht
    rw [hadd.innermost, ← h.innermost, hentries]
    simp
  · rw [hadd.env]
    intro d' hd'
    rcases List.mem_cons.1 hd' with rfl | hd'
    · exact hw
    · exact h.words d' hd'
  · intro d' k' hmem
    rcases List.mem_cons.1 hmem with heq | hmem
    · obtain ⟨rfl, rfl⟩ := Prod.mk.inj heq
      exact hfits
    · exact (h.fits hmem).grow hg fun _ => List.mem_cons_of_mem _

theorem add_run {sy : Symbol} {k : SymbolId} (hrun : (add sy).run s = .ok (k, s')) :
    k = s.notes.symbols.size ∧ s'.notes = (s.notes.add sy).2 ∧ s'.reports = s.reports := by
  obtain ⟨rfl, rfl⟩ := Prod.mk.inj (Except.ok.inj hrun)
  exact ⟨rfl, rfl, rfl⟩

theorem declare_run {key : String} {name : Ident} {k : SymbolId} (hk : k < s.notes.symbols.size)
    (hrun : (declare t key name k).run s = .ok (t', s')) :
    t.declare key k = .ok t' ∧ s'.reports = s.reports ∧ s'.notes = s.notes.link name.id k := by
  unfold declare at hrun
  split at hrun
  · cases hrun
  next t1 ht1 =>
    obtain ⟨_, s1, hlink, hret⟩ := run_bind_ok.1 hrun
    obtain ⟨rfl, rfl⟩ := run_pure_ok.1 hret
    obtain ⟨-, hn, hr⟩ := (link_yields hk).of_run hlink
    exact ⟨ht1, hr, hn⟩

theorem varDecl_exact (h : Tracks s t v syms) {d : VarDecl} (hw : Lexer.IsWord d.name.name)
    (hadd : Adds v (.var d) v') (hrun : (varDecl t d).run s = .ok (t', s')) :
    (s'.reports = [] ↔ d.type.Known v.decls ∧ d.name.name ∉ v.innermost) ∧
      (s'.reports = [] → ∃ syms', Tracks s' t' v' syms') := by
  have hg := ((varDecl_yields h.inTable d hw).of_run hrun).1.2.2.1.1
  have hfree : ((t.lookupLocal d.name.name).isSome = false) ↔ d.name.name ∉ v.innermost := by
    rw [Option.isSome_eq_false_iff, Option.isNone_iff_eq_none]
    exact h.lookupLocal_none
  obtain ⟨sy?, s1, hsym, hrest⟩ := run_bind_ok.1 hrun
  obtain ⟨hclean, hfits⟩ := symbolFor?_exact h hsym
  rw [hfree] at hclean
  obtain ⟨-, -, -, -, hgood⟩ := (symbolFor?_yields h.inTable _ d).of_run hsym
  cases sy? with
  | none =>
    obtain ⟨rfl, rfl⟩ := run_pure_ok.1 hrest
    exact ⟨hclean, fun hr => absurd hr (reports_ne_nil hgood)⟩
  | some sy =>
    obtain ⟨k, s2, hadds, hdecl⟩ := run_bind_ok.1 hrest
    obtain ⟨rfl, hn2, hr2⟩ := add_run hadds
    obtain ⟨ht, hr3, hn3⟩ := declare_run (size_lt_of_add hn2) hdecl
    have hr : s'.reports = s1.reports := hr3.trans hr2
    refine ⟨by rw [hr]; exact hclean, fun hclean' => ⟨_, h.declare hg hclean' hadd hw ?_ nofun ht ?_⟩⟩
    · exact (hclean.1 (hr ▸ hclean')).2
    · exact ⟨{ sy with isGlobal := t.atProgramLevel }, (introduces_of_add hn2 hn3).symbol,
        ((hfits sy rfl).mono fun _ => List.mem_cons_of_mem _).alike rfl⟩

/-- A declaration can come behind others if its type can be had and its name is new. -/
theorem known_cons_iff {env : List Decl} {xs ds : List VarDecl} {d : VarDecl} :
    (d.type.Known env ∧ d.name.name ∉ xs.map (·.name.name)) ∧
        (∀ y ∈ ds, y.type.Known env) ∧ ((xs ++ [d] ++ ds).map (·.name.name)).Nodup ↔
      (∀ y ∈ d :: ds, y.type.Known env) ∧ ((xs ++ d :: ds).map (·.name.name)).Nodup := by
  rw [List.append_assoc, List.singleton_append, List.forall_mem_cons]
  constructor
  · rintro ⟨⟨hd, -⟩, hds, hnodup⟩
    exact ⟨⟨hd, hds⟩, hnodup⟩
  · rintro ⟨⟨hd, hds⟩, hnodup⟩
    refine ⟨⟨hd, fun hmem => ?_⟩, hds, hnodup⟩
    rw [List.map_append, List.nodup_append] at hnodup
    exact hnodup.2.2 _ hmem _ (List.mem_map_of_mem (.head _)) rfl

theorem varDecls_exact (ds : List VarDecl) {xs : List VarDecl} (h : Tracks s t (v.enter xs) syms)
    (hw : ∀ d ∈ ds, Lexer.IsWord d.name.name)
    (hrun : (ds.foldlM varDecl t).run s = .ok (t', s')) :
    (s'.reports = [] ↔
        (∀ d ∈ ds, d.type.Known v.decls) ∧ ((xs ++ ds).map (·.name.name)).Nodup) ∧
      (s'.reports = [] → ∃ syms', Tracks s' t' (v.enter (xs ++ ds)) syms') := by
  induction ds generalizing s t xs syms with
  | nil =>
    obtain ⟨rfl, rfl⟩ := run_pure_ok.1 hrun
    rw [List.append_nil]
    exact ⟨iff_of_true h.clean ⟨nofun, h.distinct.blocks xs (.head _)⟩, fun _ => ⟨syms, h⟩⟩
  | cons d ds ih =>
    rw [List.foldlM_cons] at hrun
    obtain ⟨t1, s1, hd, hds⟩ := run_bind_ok.1 hrun
    have hwd := hw d (.head _)
    have hwds := fun d hd => hw d (.tail _ hd)
    obtain ⟨⟨-, ht1, -⟩, -⟩ := (varDecl_yields h.inTable d hwd).of_run hd
    have hg := ((varDecls_yields ds ht1 hwds).of_run hds).2.2.1.1
    obtain ⟨hclean, htracks⟩ := varDecl_exact h hwd .block hd
    refine ⟨(clean_iff_and hg hclean fun hr1 => ?_).trans known_cons_iff, fun hr => ?_⟩
    · obtain ⟨syms1, h1⟩ := htracks hr1
      exact (ih h1 hwds hds).1
    · obtain ⟨syms1, h1⟩ := htracks (hg.reports hr)
      have := (ih h1 hwds hds).2 hr
      rwa [List.append_assoc] at this

theorem fieldDecl_exact (h : Tracks s t v syms) {xs : List VarDecl} {fields fields' : Scope}
    (hfit : FieldsFit s.notes syms xs fields) {d : VarDecl} (hw : Lexer.IsWord d.name.name)
    (hg : Grows d.ids s s') (hrun : (fieldDecl t fields d).run s = .ok (fields', s')) :
    (s'.reports = [] ↔ d.type.Known v.decls ∧ d.name.name ∉ xs.map (·.name.name)) ∧
      (s'.reports = [] → FieldsFit s'.notes syms (xs ++ [d]) fields') := by
  have hnone : fields.contains d.name.name = false ↔ fields.lookup d.name.name = none := by
    rw [Scope.contains_eq_isSome, Option.isSome_eq_false_iff, Option.isNone_iff_eq_none]
  have hfree : fields.contains d.name.name = false ↔ d.name.name ∉ xs.map (·.name.name) := by
    rw [hnone, Scope.lookup_eq_none_iff, hfit.names]
  obtain ⟨sy?, s1, hsym, hrest⟩ := run_bind_ok.1 hrun
  obtain ⟨hclean, hfits⟩ := symbolFor?_exact h hsym
  rw [hfree] at hclean
  obtain ⟨-, -, -, -, hgood⟩ := (symbolFor?_yields h.inTable _ d).of_run hsym
  cases sy? with
  | none =>
    obtain ⟨rfl, rfl⟩ := run_pure_ok.1 hrest
    exact ⟨hclean, fun hr => absurd hr (reports_ne_nil hgood)⟩
  | some sy =>
    obtain ⟨k, s2, hadds, hdecl⟩ := run_bind_ok.1 hrest
    obtain ⟨rfl, hn2, hr2⟩ := add_run hadds
    split at hdecl
    · cases hdecl
    next fields1 hfields1 =>
      obtain ⟨_, s3, hlink, hret⟩ := run_bind_ok.1 hdecl
      obtain ⟨rfl, rfl⟩ := run_pure_ok.1 hret
      obtain ⟨-, hn3, hr3⟩ := (link_yields (size_lt_of_add hn2)).of_run hlink
      have hr : s3.reports = s1.reports := hr3.trans hr2
      refine ⟨by rw [hr]; exact hclean, fun hclean' => ?_⟩
      have hlookup := hnone.1 (hfree.2 (hclean.1 (hr ▸ hclean')).2)
      obtain ⟨fields2, hfields2, hentries⟩ :=
        Scope.declare_ok s1.notes.symbols.size (isWord_ne_empty hw) hlookup
      obtain rfl := Except.ok.inj (hfields2.symm.trans hfields1)
      refine ⟨by rw [hentries, List.map_append, List.map_append, hfit.names]; rfl, fun x hx => ?_⟩
      rw [Scope.lookup_of_entries hentries hlookup]
      rcases List.mem_append.1 hx with hx | hx
      · obtain ⟨k, sy', hk, hsy', hfits'⟩ := hfit.found x hx
        have hne : x.name.name ≠ d.name.name := fun heq => by
          rw [heq, hlookup] at hk
          cases hk
        rw [if_neg hne]
        exact ⟨k, sy', hk, (hg.kept (symbol?_lt hsy')).trans hsy', hfits'⟩
      · obtain rfl := List.mem_singleton.1 hx
        exact ⟨s1.notes.symbols.size, sy, if_pos rfl, (introduces_of_add hn2 hn3).symbol,
          hfits sy rfl⟩

theorem fieldDecls_exact (ds : List VarDecl) {xs : List VarDecl} {fields fields' : Scope}
    (h : Tracks s t v syms) (hfit : FieldsFit s.notes syms xs fields)
    (hin : ∀ x k, fields.lookup x = some k → k < s.notes.symbols.size)
    (hw : ∀ d ∈ ds, Lexer.IsWord d.name.name)
    (hrun : (ds.foldlM (fieldDecl t) fields).run s = .ok (fields', s')) :
    (s'.reports = [] ↔
        (∀ d ∈ ds, d.type.Known v.decls) ∧ ((xs ++ ds).map (·.name.name)).Nodup) ∧
      (s'.reports = [] → FieldsFit s'.notes syms (xs ++ ds) fields') := by
  induction ds generalizing s fields xs with
  | nil =>
    obtain ⟨rfl, rfl⟩ := run_pure_ok.1 hrun
    rw [List.append_nil]
    exact ⟨iff_of_true h.clean ⟨nofun, hfit.names ▸ fields.nodup_names⟩, fun _ => hfit⟩
  | cons d ds ih =>
    rw [List.foldlM_cons] at hrun
    obtain ⟨fields1, s1, hd, hds⟩ := run_bind_ok.1 hrun
    have hwd := hw d (.head _)
    have hwds := fun d hd => hw d (.tail _ hd)
    obtain ⟨⟨hg1, -⟩, hin1, -⟩ := (fieldDecl_yields h.inTable fields d hin hwd).of_run hd
    have hg := ((fieldDecls_yields ds (h.inTable.grow hg1) hin1 hwds).of_run hds).1.1
    obtain ⟨hclean, hfit1⟩ := fieldDecl_exact h hfit hwd hg1 hd
    refine ⟨(clean_iff_and hg hclean fun hr1 => ?_).trans known_cons_iff, fun hr => ?_⟩
    · exact (ih (h.grow hg1 hr1) (hfit1 hr1) hin1 hwds hds).1
    · have hr1 := hg.reports hr
      have := (ih (h.grow hg1 hr1) (hfit1 hr1) hin1 hwds hds).2 hr
      rwa [List.append_assoc] at this

end Variables

/-! ## Statements and blocks -/

section Statements

variable {syms : Symbols} {s s' : State} {t t' : ScopeTable} {v : Surroundings}

theorem Tracks.enter (h : Tracks s t v syms) : Tracks s t.enter (v.enter []) syms := by
  have henv : (v.enter []).env = v.env := by simp [Surroundings.env, Surroundings.enter]
  refine ⟨h.clean, h.sane, by rw [henv]; exact h.env, fun x => ?_, rfl, by rw [henv]; exact h.words,
    ⟨fun b hb => ?_, h.distinct.decls, h.distinct.fields⟩, h.fits⟩
  · rw [ScopeTable.lookup_enter]
    exact h.lookup x
  · rcases List.mem_cons.1 hb with rfl | hb
    · exact List.nodup_nil
    · exact h.distinct.blocks b hb

theorem leave_run (hrun : (leave t).run s = .ok (t', s')) : s' = s := by
  unfold leave at hrun
  split at hrun
  · exact (run_pure_ok.1 hrun).2.symm
  · cases hrun

/-- The block is well scoped where `xs` are declared in its scope already. -/
def BodyScoped (v : Surroundings) (xs : List VarDecl) (b : Body) : Prop :=
  ((∀ d ∈ b.decls, d.type.Known v.decls) ∧ ((xs ++ b.decls).map (·.name.name)).Nodup) ∧
    Stmt.AllWellScoped (v.enter (xs ++ b.decls)) b.stmts

theorem bodyScoped_nil {b : Body} : BodyScoped v [] b ↔ b.WellScoped v := by
  cases b with
  | block ds ss =>
    exact ⟨fun ⟨⟨hknown, hnodup⟩, hss⟩ => ⟨⟨hnodup, hknown⟩, hss⟩,
      fun ⟨⟨hnodup, hknown⟩, hss⟩ => ⟨⟨hknown, hnodup⟩, hss⟩⟩

/-- A block in a scope of its own. -/
theorem block_exact {b : Body}
    (hbody : ∀ {t1 s1}, (body t.enter b).run s = .ok (t1, s1) →
      (s1.reports = [] ↔ BodyScoped v [] b))
    (hrun : (body t.enter b >>= leave).run s = .ok (t', s')) :
    s'.reports = [] ↔ b.WellScoped v := by
  obtain ⟨t1, s1, hb, hleave⟩ := run_bind_ok.1 hrun
  obtain rfl := leave_run hleave
  exact (hbody hb).trans bodyScoped_nil

/-- An assignment is spelled alike as a statement and as an expression. -/
theorem wf_assign {span : Span} {node : Node} {q : Place} {e : Expr}
    (h : Every Token.Wf (Stmt.assign span node q e).tokens) :
    Every Token.Wf (Expr.assign node q e).tokens := by
  simp only [Stmt.tokens, every_cons, every_append] at h
  simp only [Expr.tokens, every_cons, every_append]
  exact ⟨trivial, ⟨h.1, trivial, h.2.2.1⟩, trivial, every_nil⟩

/-- A call is spelled alike as a statement and as an expression. -/
theorem wf_call {span : Span} {node : Node} {callee : Ident} {args : List Expr}
    (h : Every Token.Wf (Stmt.call span node callee args).tokens) :
    Every Token.Wf (Expr.call node callee args).tokens := by
  simp only [Stmt.tokens, every_cons, every_append] at h
  simp only [Expr.tokens, every_cons, every_append]
  exact ⟨h.1, trivial, h.2.2.1, trivial, every_nil⟩

mutual

theorem stmt_exact : ∀ (st : Stmt) {s s' : State} {t t' : ScopeTable} {v : Surroundings}
    {syms : Symbols}, Tracks s t v syms → Every Token.Wf st.tokens →
    (stmt t st).run s = .ok (t', s') → (s'.reports = [] ↔ st.WellScoped v)
  | .assign _ node target value, s, s', t, t', v, syms, h, hw, hrun => by
    obtain ⟨_, s1, he, hret⟩ := run_bind_ok.1 hrun
    obtain ⟨-, rfl⟩ := run_pure_ok.1 hret
    exact expr_exact _ h (wf_assign hw) he
  | .increment _ target, s, s', t, t', v, syms, h, hw, hrun
  | .decrement _ target, s, s', t, t', v, syms, h, hw, hrun => by
    obtain ⟨_, s1, hq, hret⟩ := run_bind_ok.1 hrun
    obtain ⟨-, rfl⟩ := run_pure_ok.1 hret
    simp only [Stmt.tokens, every_append] at hw
    exact (place_exact h hw.1 hq).1
  | .read _ target, s, s', t, t', v, syms, h, hw, hrun => by
    obtain ⟨_, s1, hq, hret⟩ := run_bind_ok.1 hrun
    obtain ⟨-, rfl⟩ := run_pure_ok.1 hret
    simp only [Stmt.tokens, every_cons, every_append] at hw
    exact (place_exact h hw.2.2.1 hq).1
  | .write _ value, s, s', t, t', v, syms, h, hw, hrun => by
    obtain ⟨_, s1, he, hret⟩ := run_bind_ok.1 hrun
    obtain ⟨-, rfl⟩ := run_pure_ok.1 hret
    simp only [Stmt.tokens, every_cons, every_append] at hw
    exact expr_exact value h hw.2.2.1 he
  | .ifThen _ cond b, s, s', t, t', v, syms, h, hw, hrun
  | .whileLoop _ cond b, s, s', t, t', v, syms, h, hw, hrun => by
    simp only [Stmt.tokens, every_cons, every_append] at hw
    obtain ⟨-, -, hwcond, -, hwb⟩ := hw
    obtain ⟨_, s1, hcond, hblock⟩ := run_bind_ok.1 hrun
    have hg1 := ((expr_yields cond h.sane h.inTable).of_run hcond).1
    have hg2 := ((block_yields (body_yields b (hg1.sane h.sane)
      (inTable_enter (h.inTable.grow hg1)) rfl hwb)).of_run hblock).2.1
    exact clean_iff_and hg2 (expr_exact cond h hwcond hcond) fun hr1 =>
      block_exact (body_exact b (h.grow hg1 hr1).enter hwb) hblock
  | .ifElse _ cond b b', s, s', t, t', v, syms, h, hw, hrun => by
    simp only [Stmt.tokens, every_cons, every_append] at hw
    obtain ⟨-, -, hwcond, -, hwb, -, hwb'⟩ := hw
    obtain ⟨_, s1, hcond, hrest⟩ := run_bind_ok.1 hrun
    have hg1 := ((expr_yields cond h.sane h.inTable).of_run hcond).1
    have hs1 := hg1.sane h.sane
    have ht1 := h.inTable.grow hg1
    rw [← bind_assoc] at hrest
    obtain ⟨t2, s2, hthen, helse⟩ := run_bind_ok.1 hrest
    obtain ⟨rfl, hg2, -⟩ :=
      (block_yields (body_yields b hs1 (inTable_enter ht1) rfl hwb)).of_run hthen
    have hg3 := ((block_yields (body_yields b' (hg2.sane hs1)
      (inTable_enter (ht1.grow hg2)) rfl hwb')).of_run helse).2.1
    refine clean_iff_and (hg2.trans hg3) (expr_exact cond h hwcond hcond) fun hr1 => ?_
    have h1 := h.grow hg1 hr1
    exact clean_iff_and hg3 (block_exact (body_exact b h1.enter hwb) hthen) fun hr2 =>
      block_exact (body_exact b' (h1.grow hg2 hr2).enter hwb') helse
  | .call _ node callee args, s, s', t, t', v, syms, h, hw, hrun => by
    obtain ⟨_, s1, he, hret⟩ := run_bind_ok.1 hrun
    obtain ⟨-, rfl⟩ := run_pure_ok.1 hret
    exact expr_exact _ h (wf_call hw) he
  | .ret _ none, s, s', t, t', v, syms, h, _, hrun => by
    obtain ⟨-, rfl⟩ := run_pure_ok.1 hrun
    exact iff_of_true h.clean trivial
  | .ret _ (some value), s, s', t, t', v, syms, h, hw, hrun => by
    obtain ⟨_, s1, he, hret⟩ := run_bind_ok.1 hrun
    obtain ⟨-, rfl⟩ := run_pure_ok.1 hret
    simp only [Stmt.tokens, every_cons, every_append] at hw
    exact expr_exact value h hw.2.1 he

theorem body_exact : ∀ (b : Body) {s s' : State} {t t' : ScopeTable} {v : Surroundings}
    {xs : List VarDecl} {syms : Symbols}, Tracks s t (v.enter xs) syms → Every Token.Wf b.tokens →
    (body t b).run s = .ok (t', s') → (s'.reports = [] ↔ BodyScoped v xs b)
  | .block ds ss, s, s', t, t', v, xs, syms, h, hw, hrun => by
    simp only [Body.tokens, every_cons, every_append] at hw
    obtain ⟨-, ⟨hwds, hwss⟩, -⟩ := hw
    obtain ⟨t1, s1, hds, hss⟩ := run_bind_ok.1 hrun
    obtain ⟨-, ht1, ⟨hg1, -⟩, -⟩ :=
      (varDecls_yields ds h.inTable (isWord_of_decls hwds)).of_run hds
    have hg2 := ((stmts_yields ss (hg1.sane h.sane) ht1 hwss).of_run hss).2.1
    obtain ⟨hclean, htracks⟩ := varDecls_exact ds h (isWord_of_decls hwds) hds
    refine clean_iff_and hg2 hclean fun hr1 => ?_
    obtain ⟨syms1, h1⟩ := htracks hr1
    exact stmts_exact ss h1 hwss hss

theorem stmts_exact : ∀ (ss : List Stmt) {s s' : State} {t t' : ScopeTable} {v : Surroundings}
    {syms : Symbols}, Tracks s t v syms → Every Token.Wf (Stmt.allTokens ss) →
    (stmts t ss).run s = .ok (t', s') → (s'.reports = [] ↔ Stmt.AllWellScoped v ss)
  | [], s, s', t, t', v, syms, h, _, hrun => by
    obtain ⟨-, rfl⟩ := run_pure_ok.1 hrun
    exact iff_of_true h.clean trivial
  | st :: ss, s, s', t, t', v, syms, h, hw, hrun => by
    simp only [Stmt.allTokens, every_append] at hw
    obtain ⟨t1, s1, hst, hss⟩ := run_bind_ok.1 hrun
    obtain ⟨rfl, hg1, -⟩ := (stmt_yields st h.sane h.inTable hw.1).of_run hst
    have hg2 := ((stmts_yields ss (hg1.sane h.sane) (h.inTable.grow hg1) hw.2).of_run hss).2.1
    exact clean_iff_and hg2 (stmt_exact st h hw.1 hst) fun hr1 =>
      stmts_exact ss (h.grow hg1 hr1) hw.2 hss

end

end Statements

/-! ## Programs -/

section Programs

variable {syms : Symbols} {s s' : State} {t t' : ScopeTable} {v : Surroundings}
  {before : List Decl}

theorem SameAccess.declare {a : Annotations} {sy : Symbol} {node : NodeId} {k : SymbolId} :
    SameAccess a ((a.add sy).2.link node k) := by
  intro j syj hj
  exact ⟨syj, (symbol?_add_of_lt (symbol?_lt hj)).trans hj, rfl, rfl⟩

theorem fieldsFit_empty {a : Annotations} : FieldsFit a syms [] .empty := ⟨rfl, by simp⟩

theorem structDecl_exact (h : Tracks s t ⟨[], before⟩ syms) {d : StructDecl}
    (hw : Every Token.Wf (Decl.struct d).tokens)
    (hfree : t.lookupLocal (structKey d.name.name) = none)
    (hrun : (structDecl t d).run s = .ok (t', s')) :
    (s'.reports = [] ↔ VarDecl.AllKnown before d.fields) ∧
      (s'.reports = [] → ∃ syms', Tracks s' t' ⟨[], before ++ [.struct d]⟩ syms') := by
  simp only [Decl.tokens, every_cons, every_append] at hw
  obtain ⟨-, ⟨hname, -⟩, -, hwfields, -⟩ := hw
  have hwf := isWord_of_decls hwfields
  have hg := ((structDecl_yields h.inTable d hname hwf).of_run hrun).outcome.1
  unfold structDecl at hrun
  simp only [hfree, Option.isSome_none, if_false, Bool.false_eq_true] at hrun
  obtain ⟨fields, s1, hfields, hrest⟩ := run_bind_ok.1 hrun
  obtain ⟨hclean, hfit⟩ := fieldDecls_exact d.fields h fieldsFit_empty
    (by simp) hwf hfields
  obtain ⟨k, s2, hadds, hdecl⟩ := run_bind_ok.1 hrest
  obtain ⟨rfl, hn2, hr2⟩ := add_run hadds
  obtain ⟨ht, hr3, hn3⟩ := declare_run (size_lt_of_add hn2) hdecl
  have hr : s'.reports = s1.reports := hr3.trans hr2
  rw [hr]
  have hall : VarDecl.AllKnown before d.fields ↔
      (∀ x ∈ d.fields, x.type.Known before) ∧ (d.fields.map (·.name.name)).Nodup :=
    ⟨fun h => ⟨h.known, h.nodup⟩, fun h => ⟨h.2, h.1⟩⟩
  refine ⟨hclean.trans hall.symm, fun hr1 => ?_⟩
  refine ⟨_, h.declare (d := .struct d) hg (hr.trans hr1) .program hname
    (h.lookupLocal_none.1 hfree) ?_ ht ?_⟩
  · intro sd hsd
    obtain rfl := Decl.struct.inj hsd
    exact (hclean.1 hr1).2
  · refine ⟨_, fields, (introduces_of_add hn2 hn3).symbol, rfl, ?_⟩
    rw [hn3, hn2]
    exact (hfit hr1).mono SameAccess.declare fun _ => List.mem_cons_of_mem _

theorem fnName_exact (h : Tracks s t ⟨[], before⟩ syms) {f : FnDecl}
    (hname : Lexer.IsWord f.name.name) (hfree : t.lookupLocal f.name.name = none)
    {k? : Option SymbolId} (hrun : (fnName t f).run s = .ok ((k?, t'), s')) :
    ∃ syms', Tracks s' t' ⟨[], before ++ [.fn f]⟩ syms' := by
  have hg := ((fnName_yields h.inTable f hname).of_run hrun).1
  unfold fnName at hrun
  simp only [hfree, Option.isSome_none, if_false, Bool.false_eq_true] at hrun
  obtain ⟨k, s1, hadds, hrest⟩ := run_bind_ok.1 hrun
  obtain ⟨rfl, hn1, hr1⟩ := add_run hadds
  obtain ⟨t1, s2, hdecl, hret⟩ := run_bind_ok.1 hrest
  obtain ⟨heq, rfl⟩ := run_pure_ok.1 hret
  obtain ⟨-, rfl⟩ := Prod.mk.inj heq
  obtain ⟨ht, hr2, hn2⟩ := declare_run (size_lt_of_add hn1) hdecl
  refine ⟨_, h.declare (d := .fn f) hg ((hr2.trans hr1).trans h.clean) .program hname
    (h.lookupLocal_none.1 hfree) nofun ht ?_⟩
  exact ⟨_, (introduces_of_add hn1 hn2).symbol, rfl⟩

theorem definition?_setParams (sy : Symbol) (ps : List Ty) :
    (sy.setParams ps).definition? = sy.definition? := by
  unfold Symbol.setParams
  split
  next info hkind => simp [Symbol.definition?, hkind]
  next => rfl

theorem fields?_setParams (sy : Symbol) (ps : List Ty) :
    (sy.setParams ps).fields? = sy.fields? := by
  unfold Symbol.setParams
  split
  next info hkind => simp [Symbol.fields?, hkind]
  next => rfl

theorem SameAccess.setParams {a : Annotations} {k : SymbolId} {ps : List Ty} :
    SameAccess a (a.update k (·.setParams ps)) := by
  intro j sy hsy
  rw [symbol?_update, hsy]
  split
  · exact ⟨_, rfl, definition?_setParams sy ps, fields?_setParams sy ps⟩
  · exact ⟨sy, rfl, rfl, rfl⟩

theorem Tracks.setParams (h : Tracks s t v syms) {k : SymbolId} {ps : List Ty}
    (hr : s'.reports = s.reports) (hn : s'.notes = s.notes.update k (·.setParams ps))
    (hs : s'.notes.Sane) : Tracks s' t v syms := by
  refine { h with clean := hr.trans h.clean, sane := hs, fits := fun hmem => ?_ }
  rw [hn]
  exact (h.fits hmem).mono SameAccess.setParams fun _ => id

theorem TypeSpec.known_fn {f : FnDecl} {type : TypeSpec} :
    type.Known (before ++ [.fn f]) ↔ type.Known before := by
  cases type with
  | scalar sc => exact .rfl
  | struct i => simp [TypeSpec.Known]

/-- The scope of a function holds its parameters, then what its body declares. -/
theorem fnScoped_iff {f : FnDecl} :
    ((∀ d ∈ f.params.map Param.decl, d.type.Known (before ++ [.fn f])) ∧
        ((f.params.map Param.decl).map (·.name.name)).Nodup) ∧
        BodyScoped ⟨[], before ++ [.fn f]⟩ (f.params.map Param.decl) f.body ↔
      (Decl.fn f).WellScoped before := by
  simp only [TypeSpec.known_fn, BodyScoped, Decl.WellScoped, FnDecl.surroundings, FnDecl.scope]
  constructor
  · rintro ⟨⟨hparams, -⟩, ⟨hdecls, hnodup⟩, hss⟩
    exact ⟨⟨hnodup, List.forall_mem_append.2 ⟨hparams, hdecls⟩⟩, hss⟩
  · rintro ⟨⟨hnodup, hknown⟩, hss⟩
    obtain ⟨hparams, hdecls⟩ := List.forall_mem_append.1 hknown
    have hsub := hnodup
    rw [List.map_append] at hsub
    exact ⟨⟨hparams, hsub.of_append_left⟩, ⟨hdecls, hnodup⟩, hss⟩

theorem fnDecl_exact (h : Tracks s t ⟨[], before⟩ syms) {f : FnDecl}
    (hw : Every Token.Wf (Decl.fn f).tokens) (hfree : t.lookupLocal f.name.name = none)
    (hrun : (fnDecl t f).run s = .ok (t', s')) :
    (s'.reports = [] ↔ (Decl.fn f).WellScoped before) ∧
      (s'.reports = [] → ∃ syms', Tracks s' t' ⟨[], before ++ [.fn f]⟩ syms') := by
  simp only [Decl.tokens, every_cons, every_append] at hw
  obtain ⟨-, ⟨hname, -⟩, -, hwparams, -, hwbody⟩ := hw
  obtain ⟨⟨k?, t1⟩, s1, hfn, hrest⟩ := run_bind_ok.1 hrun
  obtain ⟨syms1, h1⟩ := fnName_exact h hname hfree hfn
  obtain ⟨hg1, -, -, hbad, hgood⟩ := (fnName_yields h.inTable f hname).of_run hfn
  cases k? with
  | none => exact absurd h1.clean (hbad rfl)
  | some k =>
    obtain ⟨-, -, hsym1, -⟩ := hgood k rfl
    obtain ⟨t2, s2, hparams, hrest⟩ := run_bind_ok.1 hrest
    have hwp := isWord_of_params hwparams
    obtain ⟨houter2, ht2, ⟨hg2, -⟩, -⟩ :=
      (varDecls_yields _ (inTable_enter h1.inTable) hwp).of_run hparams
    obtain ⟨hclean2, htracks2⟩ := varDecls_exact _ h1.enter hwp hparams
    obtain ⟨_, s3, hset, hbody⟩ := run_bind_ok.1 hrest
    have hsym2 := (hg2.kept (symbol?_lt hsym1)).trans hsym1
    obtain ⟨hr3, hn3⟩ := (setParams_yields (symbol?_lt hsym2)).of_run hset
    have hs3 : s3.notes.Sane := by
      rw [hn3]
      exact sane_setParams hsym2 rfl Ty.stringless_fn (hg2.sane h1.sane)
    have ht3 : InTable s3.notes t2 := fun x j hx => by
      rw [hn3, size_update]
      exact ht2 x j hx
    obtain ⟨rfl, hg4, -⟩ := (fnBody_yields hs3 ht3 houter2 hwbody).of_run hbody
    obtain ⟨t4, s4, hblock, hleave⟩ := run_bind_ok.1 hbody
    obtain rfl := leave_run hleave
    rw [List.nil_append, ← hr3] at hclean2
    refine ⟨(clean_iff_and hg4 hclean2 fun hr => ?_).trans fnScoped_iff, fun hr => ?_⟩
    · obtain ⟨syms2, h2⟩ := htracks2 (hr3 ▸ hr)
      exact body_exact f.body (h2.setParams hr3 hn3 hs3) hwbody hblock
    · have h2 := h1.grow hg2 (hr3 ▸ hg4.reports hr)
      exact ⟨syms1, (h2.setParams hr3 hn3 hs3).grow hg4 hr⟩

/-- **A declaration of the program is reported exactly if it is wrong.** -/
theorem decl_exact (h : Tracks s t ⟨[], before⟩ syms) (hlevel : t.outer = []) {d : Decl}
    (hw : Every Token.Wf d.tokens) (hrun : (decl t d).run s = .ok (t', s')) :
    (s'.reports = [] ↔ d.key ∉ before.map Decl.key ∧ d.WellScoped before) ∧
      (s'.reports = [] → ∃ syms', Tracks s' t' ⟨[], before ++ [d]⟩ syms') := by
  have hdeclared :=
    (decl_yields h.sane h.inTable (atProgramLevel_iff.2 hlevel) d hw).of_run hrun
  by_cases hkey : d.key ∈ before.map Decl.key
  · have hbad : s'.reports ≠ [] := fun hr => h.lookupLocal_none.1 (hdeclared.free hr) hkey
    exact ⟨iff_of_false hbad fun hgood => hgood.1 hkey, fun hr => absurd hr hbad⟩
  · have hfree : t.lookupLocal d.key = none := h.lookupLocal_none.2 hkey
    rw [and_iff_right hkey]
    cases d with
    | var d =>
      obtain ⟨hclean, htracks⟩ := varDecl_exact h (Decl.isWord_name hw) .program hrun
      exact ⟨hclean.trans (and_iff_left hkey), htracks⟩
    | struct d => exact structDecl_exact h hw hfree hrun
    | fn f => exact fnDecl_exact h hw hfree hrun

theorem decls_exact (ds : List Decl) (h : Tracks s t ⟨[], before⟩ syms) (hlevel : t.outer = [])
    (hw : ∀ d ∈ ds, Every Token.Wf d.tokens) (hrun : (ds.foldlM decl t).run s = .ok (t', s')) :
    s'.reports = [] ↔ ((before ++ ds).map Decl.key).Nodup ∧
      ∀ mid d after, ds = mid ++ d :: after → d.WellScoped (before ++ mid) := by
  induction ds generalizing s t before syms with
  | nil =>
    obtain ⟨-, rfl⟩ := run_pure_ok.1 hrun
    rw [List.append_nil]
    refine iff_of_true h.clean ⟨h.distinct.decls, fun mid d after heq => ?_⟩
    simp at heq
  | cons d ds ih =>
    rw [List.foldlM_cons] at hrun
    obtain ⟨t1, s1, hd, hds⟩ := run_bind_ok.1 hrun
    have hdeclared := (decl_yields h.sane h.inTable (atProgramLevel_iff.2 hlevel) d
      (hw d (.head _))).of_run hd
    have hg1 := hdeclared.outcome.1
    have hlevel1 := hdeclared.outer.trans hlevel
    have hwds := fun d hd => hw d (.tail _ hd)
    have hg2 :=
      ((decls_yields ds (hg1.sane h.sane) hdeclared.inTable hlevel1 hwds).of_run hds).2.1
    obtain ⟨hclean, htracks⟩ := decl_exact h hlevel (hw d (.head _)) hd
    have hrest : s1.reports = [] → (s'.reports = [] ↔
        ((before ++ [d] ++ ds).map Decl.key).Nodup ∧
          ∀ mid d' after, ds = mid ++ d' :: after → d'.WellScoped (before ++ [d] ++ mid)) := by
      intro hr1
      obtain ⟨syms1, h1⟩ := htracks hr1
      exact ih h1 hlevel1 hwds hds
    rw [clean_iff_and hg2 hclean hrest,
      forall_split_cons (P := fun mid d => d.WellScoped (before ++ mid))]
    simp only [List.append_assoc, List.singleton_append, List.append_nil]
    constructor
    · rintro ⟨⟨-, hwell⟩, hnodup, hall⟩
      exact ⟨hnodup, hwell, hall⟩
    · rintro ⟨hnodup, hwell, hall⟩
      refine ⟨⟨fun hmem => ?_, hwell⟩, hnodup, hall⟩
      rw [List.map_append, List.nodup_append] at hnodup
      exact hnodup.2.2 _ hmem _ (List.mem_map_of_mem (.head _)) rfl

theorem tracks_initial : Tracks ⟨.empty, []⟩ .initial ⟨[], []⟩ [] where
  clean := rfl
  sane := sane_empty
  env := rfl
  lookup _ := rfl
  innermost := rfl
  words := by simp [Surroundings.env]
  distinct := ⟨by simp, List.nodup_nil, by simp⟩
  fits h := by cases h

/-- **Binding reports nothing exactly if the program is well scoped.** -/
theorem program_exact {p : Program} (hw : Every Token.Wf p.tokens)
    (hrun : (program p).run ⟨.empty, []⟩ = .ok (t, s)) : s.reports = [] ↔ p.WellScoped := by
  have hwd : ∀ d ∈ p.decls, Every Token.Wf d.tokens := fun d hd t ht =>
    hw t (List.mem_flatMap.2 ⟨d, hd, ht⟩)
  rw [decls_exact p.decls tracks_initial rfl hwd hrun, List.nil_append,
    Decl.keys_nodup_iff fun d hd => Decl.isWord_name (hwd d hd)]
  exact ⟨fun ⟨⟨hvalues, hstructs⟩, hdecls⟩ => ⟨hvalues, hstructs, hdecls⟩,
    fun hwell => ⟨⟨hwell.values, hwell.structs⟩, hwell.decls⟩⟩

end Programs

end Binding

end FlatC
