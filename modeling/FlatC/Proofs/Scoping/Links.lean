import FlatC.Proofs.Compile
import FlatC.Proofs.Scoping.Exact

/-!
# What names are linked to

Every expression of a function has its surroundings (`FnDecl.exprs`). Where binding reports
nothing, a place or a callee in it is linked to the symbol of the one declaration that it stands
for (`Expr.Linked`), a struct type to the symbol of its struct, and the declarations of the program
have the symbols in their order (`Program.Linked`). `bind_lexical` puts this together with
`program_exact`.
-/

namespace FlatC

/-! ## The expressions of a program -/

/-- The last name of a place. -/
def Place.last : Place → Ident
  | var _ name | field _ _ name => name

/-- A place, behind the places that are in front of its fields. -/
def Place.parts : Place → List Place
  | var node name => [var node name]
  | field node base name => base.parts ++ [field node base name]

mutual

/-- An expression, behind those in it. The places in it count as expressions, also those that are
assigned to. -/
def Expr.parts : Expr → List Expr
  | .int node value => [.int node value]
  | .str node text => [.str node text]
  | .bool node value => [.bool node value]
  | .place q => q.parts.map .place
  | .assign node target value =>
    target.parts.map .place ++ value.parts ++ [.assign node target value]
  | .call node callee args => Expr.allParts args ++ [.call node callee args]
  | .unary node op operand => operand.parts ++ [.unary node op operand]
  | .binary node op left right => left.parts ++ right.parts ++ [.binary node op left right]

def Expr.allParts : List Expr → List Expr
  | [] => []
  | e :: es => e.parts ++ Expr.allParts es

end

mutual

/-- The expressions of a statement that stands in `v`, each with its surroundings. -/
def Stmt.exprs (v : Surroundings) : Stmt → List (Surroundings × Expr)
  | .assign _ node target value => [(v, .assign node target value)]
  | .increment _ target | .decrement _ target | .read _ target => [(v, .place target)]
  | .write _ value => [(v, value)]
  | .ifThen _ cond body => (v, cond) :: body.exprs v
  | .ifElse _ cond thenBody elseBody => (v, cond) :: (thenBody.exprs v ++ elseBody.exprs v)
  | .whileLoop _ cond body => (v, cond) :: body.exprs v
  | .call _ node callee args => [(v, .call node callee args)]
  | .ret _ none => []
  | .ret _ (some value) => [(v, value)]

def Body.exprs (v : Surroundings) : Body → List (Surroundings × Expr)
  | .block ds ss => Stmt.manyExprs (v.enter ds) ss

def Stmt.manyExprs (v : Surroundings) : List Stmt → List (Surroundings × Expr)
  | [] => []
  | s :: ss => s.exprs v ++ Stmt.manyExprs v ss

end

/-- The expressions of a function that stands behind the declarations `before`. -/
def FnDecl.exprs (f : FnDecl) (before : List Decl) : List (Surroundings × Expr) :=
  Stmt.manyExprs (f.surroundings before) f.body.stmts

/-! ## Links -/

/-- Both names are linked to one symbol. -/
def Annotations.Joins (a : Annotations) (i j : Ident) : Prop :=
  ∃ k, a.linked? i.id = some k ∧ a.linked? j.id = some k

/-- A place or a call stands for one declaration, and it is linked to the symbol of that. -/
def Expr.Linked (v : Surroundings) (a : Annotations) : Expr → Prop
  | .place q => ∃ d, v.Denotes q d ∧ (∀ d', v.Denotes q d' → d' = d) ∧ a.Joins q.last d.name
  | .call _ callee _ =>
    ∃ d, v.Means callee.name d ∧ (∀ d', v.Means callee.name d' → d' = d) ∧ a.Joins callee d.name
  | _ => True

/-- A type that names a struct is linked to the symbol of it. -/
def TypeSpec.Linked (before : List Decl) (a : Annotations) : TypeSpec → Prop
  | .scalar _ => True
  | .struct i => ∃ sd, Decl.struct sd ∈ before ∧ sd.name.name = i.name ∧ a.Joins i sd.name

/-- The variables and fields that a declaration declares. -/
def Decl.variables : Decl → List VarDecl
  | var d => [d]
  | struct d => d.fields
  | fn f => f.variables

/-- The names that a declaration declares, in the order of their symbols. -/
def Decl.declared : Decl → List Ident
  | var d => [d.name]
  | struct d => d.fields.map (·.name) ++ [d.name]
  | fn f => f.name :: f.variables.map (·.name)

def Program.declared (p : Program) : List Ident := p.decls.flatMap Decl.declared

/-- **Every name is linked to the symbol of the declaration that it stands for**, and every
declaration has a symbol of its own. -/
structure Program.Linked (p : Program) (a : Annotations) : Prop where
  own : ∀ j i, p.declared[j]? = some i → a.linked? i.id = some j
  none_else : a.symbols.size = p.declared.length
  uses : ∀ before f after, p.decls = before ++ .fn f :: after →
    ∀ v e, (v, e) ∈ f.exprs before → ∀ x ∈ e.parts, x.Linked v a
  types : ∀ before d after, p.decls = before ++ d :: after →
    ∀ x ∈ d.variables, x.type.Linked before a

/-! ## Surroundings whose declarations are bound -/

namespace Binding

variable {env env' : List Decl} {a : Annotations} {n : Nat}

theorem TypeBound.mono (hsub : ∀ sd, Decl.struct sd ∈ env → Decl.struct sd ∈ env')
    {type : TypeSpec} {s : Symbol} (h : TypeBound env a type s) : TypeBound env' a type s := by
  cases type with
  | scalar sc => exact h
  | struct i =>
    obtain ⟨sd, k, hmem, hrest⟩ := h
    exact ⟨sd, k, hsub sd hmem, hrest⟩

theorem VarBound.mono (hsub : ∀ sd, Decl.struct sd ∈ env → Decl.struct sd ∈ env') {g : Bool}
    {d : VarDecl} {k : SymbolId} (h : VarBound env a g d k) : VarBound env' a g d k := by
  obtain ⟨hl, s, hs, hname, hg, htype⟩ := h
  exact ⟨hl, s, hs, hname, hg, htype.mono hsub⟩

theorem VarsBound.mono (hsub : ∀ sd, Decl.struct sd ∈ env → Decl.struct sd ∈ env') {g : Bool}
    {ds : List VarDecl} (h : VarsBound env a g n ds) : VarsBound env' a g n ds := by
  induction ds generalizing n with
  | nil => trivial
  | cons d ds ih => exact ⟨h.1.mono hsub, ih h.2⟩

/-- A declaration is bound with those before it in scope. -/
theorem DeclsBound.split {before after : List Decl} {d : Decl}
    (h : DeclsBound a env n (before ++ d :: after)) :
    DeclBound a (before.reverse ++ env) (n + symbolTotal before) d := by
  induction before generalizing env n with
  | nil => exact h.1
  | cons x before ih =>
    have := ih h.2
    simpa [symbolTotal, Nat.add_assoc] using this

theorem FnsDescribed.split {before after : List Decl} {f : FnDecl}
    (h : FnsDescribed a n (before ++ .fn f :: after)) :
    ∃ s, a.symbol? (n + symbolTotal before) = some s ∧ f.Described s := by
  induction before generalizing n with
  | nil => exact h.1 f rfl
  | cons x before ih =>
    have := ih h.2
    simpa [symbolTotal, Nat.add_assoc] using this

/-- The variables of a function have symbols that follow each other. -/
theorem DeclBound.variables {f : FnDecl} (h : DeclBound a env n (.fn f)) :
    VarsBound (.fn f :: env) a false (n + 1) f.variables := by
  obtain ⟨-, hparams, hbody⟩ := h
  refine hparams.append ?_
  rw [List.length_map]
  exact VarsBound.extend.1 hbody.vars

theorem BodyBound.block {b : Body} (h : BodyBound a env n b) :
    VarsBound env a false n b.decls ∧
      StmtsBound a (extend env b.decls) (n + b.decls.length) b.stmts := by
  cases b with
  | block ds ss => exact h

end Binding

open Binding Grammar

/-- The declarations around are bound, and no scope has a name twice. -/
structure Surroundings.Settled (v : Surroundings) (a : Annotations) : Prop where
  distinct : v.Distinct
  vars : ∀ {d}, Decl.var d ∈ v.env → ∃ g k, VarBound v.env a g d k
  structs : ∀ {sd}, Decl.struct sd ∈ v.env →
    ∃ n, VarsBound v.env a false n sd.fields ∧ StructBound a sd n (n + sd.fields.length)
  fns : ∀ {f}, Decl.fn f ∈ v.env →
    ∃ k s, a.Links f.name.id k ∧ a.symbol? k = some s ∧ f.Described s

/-- The names of an expression are bound. -/
structure Expr.Settled (v : Surroundings) (a : Annotations) (e : Expr) : Prop where
  around : v.Settled a
  bound : ExprBound v.env a e
  wellScoped : e.WellScoped v
  wf : Every Token.Wf e.tokens

namespace Surroundings

variable {v : Surroundings} {a : Annotations} {p : Program}

theorem Settled.enter (h : v.Settled a) {ds : List VarDecl} {n : Nat}
    (hds : VarsBound v.env a false n ds) (hnodup : (ds.map (·.name.name)).Nodup) :
    (v.enter ds).Settled a := by
  have hsub : ∀ sd, Decl.struct sd ∈ v.env → Decl.struct sd ∈ (v.enter ds).env := fun sd hsd => by
    rw [env_enter]
    exact mem_extend_struct.2 hsd
  have hcases : ∀ {d}, d ∈ (v.enter ds).env → (∃ x ∈ ds, d = .var x) ∨ d ∈ v.env := by
    intro d hd
    rw [env_enter, extend, List.mem_append, List.mem_reverse, List.mem_map] at hd
    rcases hd with ⟨x, hx, rfl⟩ | hd
    · exact .inl ⟨x, hx, rfl⟩
    · exact .inr hd
  refine ⟨⟨fun b hb => ?_, h.distinct.decls, h.distinct.fields⟩, fun hd => ?_, fun hsd => ?_,
    fun hf => ?_⟩
  · rcases List.mem_cons.1 hb with rfl | hb
    · exact hnodup
    · exact h.distinct.blocks b hb
  · rcases hcases hd with ⟨x, hx, heq⟩ | hd
    · obtain rfl := Decl.var.inj heq
      obtain ⟨i, hi⟩ := List.getElem?_of_mem hx
      exact ⟨_, _, (hds.get hi).mono hsub⟩
    · obtain ⟨g, k, hk⟩ := h.vars hd
      exact ⟨g, k, hk.mono hsub⟩
  · rcases hcases hsd with ⟨x, -, heq⟩ | hsd
    · cases heq
    · obtain ⟨n, hfields, hstruct⟩ := h.structs hsd
      exact ⟨n, hfields.mono hsub, hstruct⟩
  · rcases hcases hf with ⟨x, -, heq⟩ | hf
    · cases heq
    · exact h.fns hf

/-- A field is found by its name. -/
theorem find_field {xs : List VarDecl} (h : (xs.map (·.name.name)).Nodup) {y : VarDecl}
    (hy : y ∈ xs) : xs.find? (·.name.name == y.name.name) = some y := by
  cases hfind : xs.find? (·.name.name == y.name.name) with
  | none => exact absurd (List.find?_eq_none.1 hfind y hy) (by simp)
  | some z =>
    have hname : z.name.name = y.name.name := by simpa using List.find?_some hfind
    rw [field_unique h (List.mem_of_find?_eq_some hfind) hy hname]

/-- The symbol that a place is linked to is that of the declaration that it stands for. -/
theorem Denotes.links (hv : v.Settled a) (hr : Resolved p a) {q : Place} {d : Decl}
    (hw : Every Token.Wf q.tokens) (h : v.Denotes q d) {k : SymbolId}
    (hq : PlaceBound v.env a q k) :
    a.Links d.name.id k ∧ a.Links q.last.id k ∧
      ∀ x, d = .var x → ∃ g, VarBound v.env a g x k := by
  induction h generalizing k with
  | @var node name d hmeans =>
    cases hq with
    | var huses =>
      obtain ⟨d', hfind', hd', hl⟩ := huses
      have hfind := find_of_means hv.distinct (hw _ (.head _)).1 hmeans
      obtain rfl := Option.some.inj (hfind'.symm.trans hfind)
      refine ⟨hd', hl, fun x hx => ?_⟩
      subst hx
      obtain ⟨g, k', hk'⟩ := hv.vars (mem_of_find hfind).1
      obtain rfl := hr.unique hd' hk'.1
      exact ⟨g, hk'⟩
  | @field node base name i x y sd hb hx hsd hi hy hname ih =>
    cases hq with
    | @field _ _ _ kb kd _ s s' fields hbound hs hdef hs' hfields hlookup hl =>
      rw [Place.tokens, every_append] at hw
      obtain ⟨-, -, hvar⟩ := ih hw.1 hbound
      obtain ⟨g, -, s1, hs1, -, -, htype⟩ := hvar x rfl
      obtain rfl := Option.some.inj (hs.symm.trans hs1)
      rw [hx] at htype
      obtain ⟨sd', kd', hsd', hname', hl', -, hkind, -⟩ := htype
      obtain rfl : kd' = kd := by simpa [Symbol.definition?, hkind] using hdef
      obtain rfl := struct_unique hv.distinct (mem_env_struct.1 hsd') hsd (hname'.trans hi.symm)
      obtain ⟨n, hvars, hl2, s2, fields2, hs2, hfields2, hentries⟩ := hv.structs hsd'
      obtain rfl := hr.unique hl' hl2
      obtain rfl := Option.some.inj (hs'.symm.trans hs2)
      obtain rfl := Option.some.inj (hfields.symm.trans hfields2)
      have hfind : sd'.fields.find? (·.name.name == name.name) = some y := by
        rw [← hname]
        exact find_field (hv.distinct.fields sd' hsd) hy
      rw [Scope.lookup_eq_entries, hentries] at hlookup
      obtain ⟨j, hj, rfl⟩ := lookup_fieldEntries hlookup hfind
      have hyb := hvars.get hj
      refine ⟨hyb.1, hl, fun z hz => ?_⟩
      obtain rfl := Decl.var.inj hz
      exact ⟨_, hyb⟩

end Surroundings

/-! ## The expressions of a program whose names are bound -/

section

variable {p : Program} {a : Annotations}

/-- Around a function of a program whose names are bound. -/
theorem Resolved.settled (hr : Resolved p a) (hp : p.WellScoped) {before after : List Decl}
    {f : FnDecl} (hsplit : p.decls = before ++ .fn f :: after) :
    (⟨[], before ++ [.fn f]⟩ : Surroundings).Settled a := by
  have hdecls : p.decls = before ++ [.fn f] ++ after := by simp [hsplit]
  have henv : (⟨[], before ++ [.fn f]⟩ : Surroundings).env = (before ++ [Decl.fn f]).reverse := rfl
  have hmem : ∀ {d}, d ∈ before ++ [.fn f] → ∃ xs ys, before ++ [Decl.fn f] = xs ++ d :: ys ∧
      p.decls = xs ++ d :: (ys ++ after) := by
    intro d hd
    obtain ⟨xs, ys, hxs⟩ := List.append_of_mem hd
    exact ⟨xs, ys, hxs, by simp [hdecls, hxs]⟩
  -- a declaration was bound with those before it, which are around as well
  have hbound : ∀ {d}, d ∈ (before ++ [Decl.fn f]).reverse → ∃ env n, DeclBound a env n d ∧
      ∀ sd, Decl.struct sd ∈ env → Decl.struct sd ∈ (before ++ [Decl.fn f]).reverse := by
    intro d hd
    obtain ⟨xs, ys, hxs, hp⟩ := hmem (List.mem_reverse.1 hd)
    have hb := hr.bound
    rw [hp] at hb
    refine ⟨_, _, hb.split, fun sd hsd => ?_⟩
    rw [hxs]
    simp only [List.append_nil, List.mem_reverse, List.mem_append] at hsd ⊢
    exact .inl hsd
  refine ⟨⟨by simp, ?_, fun sd hsd => ?_⟩, fun hd => ?_, fun hsd => ?_, fun hf => ?_⟩
  · have hnodup := hr.nodup
    rw [hdecls, List.map_append] at hnodup
    exact hnodup.of_append_left
  · obtain ⟨xs, ys, -, hsd⟩ := hmem hsd
    exact (hp.decls _ _ _ hsd).nodup
  · rw [henv] at hd ⊢
    obtain ⟨env, n, hb, hsub⟩ := hbound hd
    exact ⟨true, n, hb.mono hsub⟩
  · rw [henv] at hsd ⊢
    obtain ⟨env, n, hb, hsub⟩ := hbound hsd
    exact ⟨n, hb.1.mono hsub, hb.2⟩
  · obtain ⟨xs, ys, -, hf⟩ := hmem (List.mem_reverse.1 hf)
    have hb := hr.bound
    have hdesc := hr.described
    rw [hf] at hb hdesc
    obtain ⟨s, hs, hd⟩ := hdesc.split
    exact ⟨_, s, hb.split.1, hs, hd⟩

mutual

theorem stmt_settled : ∀ (st : Stmt) {v : Surroundings} {n : Nat}, v.Settled a →
    StmtBound a v.env n st → st.WellScoped v → Every Token.Wf st.tokens →
    ∀ r ∈ st.exprs v, r.2.Settled r.1 a
  | .assign _ node target value, v, n, hv, hb, hs, hw => by
    rw [Stmt.exprs, List.forall_mem_singleton]
    exact ⟨hv, hb, hs, wf_assign hw⟩
  | .increment _ target, v, n, hv, hb, hs, hw | .decrement _ target, v, n, hv, hb, hs, hw => by
    rw [Stmt.exprs, List.forall_mem_singleton]
    simp only [Stmt.tokens, every_append] at hw
    exact ⟨hv, hb, hs, hw.1⟩
  | .read _ target, v, n, hv, hb, hs, hw => by
    rw [Stmt.exprs, List.forall_mem_singleton]
    simp only [Stmt.tokens, every_cons, every_append] at hw
    exact ⟨hv, hb, hs, hw.2.2.1⟩
  | .write _ value, v, n, hv, hb, hs, hw => by
    rw [Stmt.exprs, List.forall_mem_singleton]
    simp only [Stmt.tokens, every_cons, every_append] at hw
    exact ⟨hv, hb, hs, hw.2.2.1⟩
  | .ifThen _ cond b, v, n, hv, hb, hs, hw | .whileLoop _ cond b, v, n, hv, hb, hs, hw => by
    rw [Stmt.exprs, List.forall_mem_cons]
    simp only [Stmt.tokens, every_cons, every_append] at hw
    exact ⟨⟨hv, hb.1, hs.1, hw.2.2.1⟩, body_settled b hv hb.2 hs.2 hw.2.2.2.2⟩
  | .ifElse _ cond b b', v, n, hv, hb, hs, hw => by
    rw [Stmt.exprs, List.forall_mem_cons, List.forall_mem_append]
    simp only [Stmt.tokens, every_cons, every_append] at hw
    obtain ⟨-, -, hwcond, -, hwb, -, hwb'⟩ := hw
    exact ⟨⟨hv, hb.1, hs.1, hwcond⟩, body_settled b hv hb.2.1 hs.2.1 hwb,
      body_settled b' hv hb.2.2 hs.2.2 hwb'⟩
  | .call _ node callee args, v, n, hv, hb, hs, hw => by
    rw [Stmt.exprs, List.forall_mem_singleton]
    exact ⟨hv, hb, hs, wf_call hw⟩
  | .ret _ none, v, n, _, _, _, _ => by simp [Stmt.exprs]
  | .ret _ (some value), v, n, hv, hb, hs, hw => by
    rw [Stmt.exprs, List.forall_mem_singleton]
    simp only [Stmt.tokens, every_cons, every_append] at hw
    exact ⟨hv, hb, hs, hw.2.1⟩

theorem body_settled : ∀ (b : Body) {v : Surroundings} {n : Nat}, v.Settled a →
    BodyBound a v.env n b → b.WellScoped v → Every Token.Wf b.tokens →
    ∀ r ∈ b.exprs v, r.2.Settled r.1 a
  | .block ds ss, v, n, hv, hb, hs, hw => by
    simp only [Body.tokens, every_cons, every_append] at hw
    obtain ⟨hds, hss⟩ := hb
    rw [← Surroundings.env_enter] at hss
    exact stmts_settled ss (hv.enter hds hs.1.nodup) hss hs.2 hw.2.1.2

theorem stmts_settled : ∀ (ss : List Stmt) {v : Surroundings} {n : Nat}, v.Settled a →
    StmtsBound a v.env n ss → Stmt.AllWellScoped v ss → Every Token.Wf (Stmt.allTokens ss) →
    ∀ r ∈ Stmt.manyExprs v ss, r.2.Settled r.1 a
  | [], v, n, _, _, _, _ => by simp [Stmt.manyExprs]
  | s :: ss, v, n, hv, hb, hs, hw => by
    rw [Stmt.manyExprs, List.forall_mem_append]
    simp only [Stmt.allTokens, every_append] at hw
    exact ⟨stmt_settled s hv hb.1 hs.1 hw.1, stmts_settled ss hv hb.2 hs.2 hw.2⟩

end

theorem wf_stmts {b : Body} (h : Every Token.Wf b.tokens) :
    Every Token.Wf (Stmt.allTokens b.stmts) := by
  cases b with
  | block ds ss =>
    simp only [Body.tokens, every_cons, every_append] at h
    exact h.2.1.2

/-- **The names in every expression of a program are bound**, if binding reports nothing. -/
theorem Resolved.exprs_settled (hr : Resolved p a) (hp : p.WellScoped)
    (hw : Every Token.Wf p.tokens) {before after : List Decl} {f : FnDecl}
    (hsplit : p.decls = before ++ .fn f :: after) :
    ∀ r ∈ f.exprs before, r.2.Settled r.1 a := by
  have hwf : Every Token.Wf (Decl.fn f).tokens := fun t ht =>
    hw t (List.mem_flatMap.2 ⟨.fn f, by simp [hsplit], ht⟩)
  simp only [Decl.tokens, every_cons, every_append] at hwf
  obtain ⟨-, -, -, -, -, hwbody⟩ := hwf
  let v : Surroundings := ⟨[], before ++ [.fn f]⟩
  have henv : v.env = .fn f :: (before.reverse ++ []) := by simp [v, Surroundings.env]
  have hb := hr.bound
  rw [hsplit] at hb
  obtain ⟨-, hparams, hbody⟩ := hb.split
  rw [← henv] at hparams hbody
  obtain ⟨hds, hss⟩ := hbody.block
  have hvars : VarsBound v.env a false _ f.scope :=
    hparams.append (by rw [List.length_map]; exact VarsBound.extend.1 hds)
  have hscope : (f.surroundings before).env =
      extend (extend v.env (f.params.map Param.decl)) f.body.decls := by
    simp [v, Surroundings.env, FnDecl.surroundings, FnDecl.scope, extend]
  rw [← hscope] at hss
  obtain ⟨hknown, hwell⟩ := hp.decls _ _ _ hsplit
  exact stmts_settled f.body.stmts ((hr.settled hp hsplit).enter hvars hknown.nodup) hss hwell
    (wf_stmts hwbody)

/-! ### Parts -/

section

variable {v : Surroundings}

theorem Place.settled_parts {q : Place} (h : (Expr.place q).Settled v a) :
    ∀ x ∈ q.parts, (Expr.place x).Settled v a := by
  induction q with
  | var node name =>
    rw [Place.parts, List.forall_mem_singleton]
    exact h
  | field node base name ih =>
    rw [Place.parts, List.forall_mem_append, List.forall_mem_singleton]
    refine ⟨ih ?_, h⟩
    obtain ⟨hv, ⟨k, hk⟩, ⟨d, hd⟩, hw⟩ := h
    cases hk with
    | field hb =>
      cases hd with
      | field hd =>
        rw [Expr.tokens, Place.tokens, every_append] at hw
        exact ⟨hv, ⟨_, hb⟩, ⟨_, hd⟩, hw.1⟩

namespace Expr.Settled

variable {node : Node}

theorem target {q : Place} {e : Expr} (h : (Expr.assign node q e).Settled v a) :
    (Expr.place q).Settled v a := by
  have hw := h.wf
  simp only [Expr.tokens, every_cons, every_append] at hw
  exact ⟨h.around, h.bound.1, h.wellScoped.1, hw.2.1.1⟩

theorem value {q : Place} {e : Expr} (h : (Expr.assign node q e).Settled v a) :
    e.Settled v a := by
  have hw := h.wf
  simp only [Expr.tokens, every_cons, every_append] at hw
  exact ⟨h.around, h.bound.2, h.wellScoped.2, hw.2.1.2.2⟩

theorem operand {op : UnaryOp} {e : Expr} (h : (Expr.unary node op e).Settled v a) :
    e.Settled v a := by
  have hw := h.wf
  simp only [Expr.tokens, every_cons, every_append] at hw
  exact ⟨h.around, h.bound, h.wellScoped, hw.2.1.2⟩

theorem left {op : BinaryOp} {e e' : Expr} (h : (Expr.binary node op e e').Settled v a) :
    e.Settled v a := by
  have hw := h.wf
  simp only [Expr.tokens, every_cons, every_append] at hw
  exact ⟨h.around, h.bound.1, h.wellScoped.1, hw.2.1.1⟩

theorem right {op : BinaryOp} {e e' : Expr} (h : (Expr.binary node op e e').Settled v a) :
    e'.Settled v a := by
  have hw := h.wf
  simp only [Expr.tokens, every_cons, every_append] at hw
  exact ⟨h.around, h.bound.2, h.wellScoped.2, hw.2.1.2.2⟩

theorem of_all (hv : v.Settled a) {es : List Expr} (hb : ExprsBound v.env a es)
    (hs : Expr.AllWellScoped v es) (hw : ∀ e ∈ es, Every Token.Wf e.tokens) :
    ∀ e ∈ es, e.Settled v a := by
  induction es with
  | nil => simp
  | cons e es ih =>
    rw [List.forall_mem_cons] at hw ⊢
    exact ⟨⟨hv, hb.1, hs.1, hw.1⟩, ih hb.2 hs.2 hw.2⟩

theorem args {callee : Ident} {es : List Expr} (h : (Expr.call node callee es).Settled v a) :
    ∀ e ∈ es, e.Settled v a := by
  have hw := h.wf
  simp only [Expr.tokens, every_cons, every_append] at hw
  exact of_all h.around h.bound.2 h.wellScoped.2 (every_args hw.2.2.1)

end Expr.Settled

mutual

theorem Expr.settled_parts : ∀ {e : Expr}, e.Settled v a → ∀ x ∈ e.parts, x.Settled v a
  | .int .., h | .str .., h | .bool .., h => by
    rw [Expr.parts, List.forall_mem_singleton]
    exact h
  | .place q, h => by
    rw [Expr.parts, List.forall_mem_map]
    exact Place.settled_parts h
  | .assign node q e, h => by
    rw [Expr.parts, List.forall_mem_append, List.forall_mem_append, List.forall_mem_map,
      List.forall_mem_singleton]
    exact ⟨⟨Place.settled_parts h.target, Expr.settled_parts h.value⟩, h⟩
  | .call node callee es, h => by
    rw [Expr.parts, List.forall_mem_append, List.forall_mem_singleton]
    exact ⟨Expr.settled_allParts h.args, h⟩
  | .unary node op e, h => by
    rw [Expr.parts, List.forall_mem_append, List.forall_mem_singleton]
    exact ⟨Expr.settled_parts h.operand, h⟩
  | .binary node op e e', h => by
    rw [Expr.parts, List.forall_mem_append, List.forall_mem_append, List.forall_mem_singleton]
    exact ⟨⟨Expr.settled_parts h.left, Expr.settled_parts h.right⟩, h⟩

theorem Expr.settled_allParts : ∀ {es : List Expr}, (∀ e ∈ es, e.Settled v a) →
    ∀ x ∈ Expr.allParts es, x.Settled v a
  | [], _ => by simp [Expr.allParts]
  | e :: es, h => by
    rw [List.forall_mem_cons] at h
    rw [Expr.allParts, List.forall_mem_append]
    exact ⟨Expr.settled_parts h.1, Expr.settled_allParts h.2⟩

end

theorem Resolved.joins (hr : Resolved p a) {i j : Ident} {k : SymbolId} (hi : a.Links i.id k)
    (hj : a.Links j.id k) : a.Joins i j :=
  ⟨k, hr.linked? hi, hr.linked? hj⟩

theorem Expr.Settled.linked (hr : Resolved p a) {e : Expr} (h : e.Settled v a) : e.Linked v a := by
  obtain ⟨hv, hb, hs, hw⟩ := h
  cases e with
  | place q =>
    obtain ⟨k, hk⟩ := hb
    obtain ⟨d, hd⟩ := hs
    obtain ⟨hld, hlq, -⟩ := hd.links hv hr hw hk
    exact ⟨d, hd, fun d' hd' => hd'.unique hv.distinct hw hd, hr.joins hlq hld⟩
  | call node callee args =>
    obtain ⟨⟨k, d, hfind, hld, hl⟩, -⟩ := hb
    have hword : Lexer.IsWord callee.name := (hw _ (.head _)).1
    have hd := Surroundings.means_of_find hword hfind
    exact ⟨d, hd, fun d' hd' => hd'.unique hv.distinct hword hd, hr.joins hl hld⟩
  | int | str | bool | assign | unary | binary => trivial

end

/-! ### Declarations -/

theorem Decl.length_declared (d : Decl) : d.declared.length = d.symbolCount := by
  cases d with
  | var d => rfl
  | struct d => simp [Decl.declared, Decl.symbolCount]
  | fn f => simp [Decl.declared, Decl.symbolCount, FnDecl.variables]; omega

namespace Binding

theorem VarsBound.links {env : List Decl} {g : Bool} {n : Nat} {ds : List VarDecl}
    (h : VarsBound env a g n ds) {j : Nat} {i : Ident}
    (hj : (ds.map (·.name))[j]? = some i) : a.Links i.id (n + j) := by
  rw [List.getElem?_map] at hj
  obtain ⟨d, hd, rfl⟩ := Option.map_eq_some_iff.1 hj
  exact (h.get hd).1

/-- The names of a declaration have the symbols from `n` on. -/
theorem DeclBound.declared {env : List Decl} {n : Nat} {d : Decl} (h : DeclBound a env n d)
    {j : Nat} {i : Ident} (hj : d.declared[j]? = some i) : a.Links i.id (n + j) := by
  cases d with
  | var d =>
    obtain ⟨rfl, rfl⟩ : j = 0 ∧ d.name = i := by
      cases j with
      | zero => exact ⟨rfl, Option.some.inj hj⟩
      | succ j => cases hj
    exact h.1
  | struct d =>
    rw [Decl.declared, List.getElem?_append] at hj
    split at hj
    next => exact h.1.links hj
    next hlt =>
      obtain ⟨hlast, rfl⟩ := List.getElem?_eq_some_iff.1 hj
      rw [List.length_map] at hlt hlast
      obtain rfl : j = d.fields.length := by
        rw [List.length_singleton] at hlast
        omega
      simpa using h.2.1
  | fn f =>
    cases j with
    | zero =>
      obtain rfl := Option.some.inj hj
      exact h.1
    | succ j =>
      have := h.variables.links hj
      rwa [Nat.add_assoc, Nat.add_comm 1] at this

theorem DeclsBound.declared {env : List Decl} {n : Nat} {ds : List Decl}
    (h : DeclsBound a env n ds) {j : Nat} {i : Ident}
    (hj : (ds.flatMap Decl.declared)[j]? = some i) : a.Links i.id (n + j) := by
  induction ds generalizing env n j with
  | nil => simp at hj
  | cons d ds ih =>
    rw [List.flatMap_cons, List.getElem?_append, Decl.length_declared] at hj
    split at hj
    next => exact h.1.declared hj
    next hlt =>
      have := ih h.2 hj
      rwa [Nat.add_assoc, Nat.add_sub_cancel' (Nat.le_of_not_lt hlt)] at this

theorem length_declared (ds : List Decl) :
    (ds.flatMap Decl.declared).length = symbolTotal ds := by
  simp [List.length_flatMap, symbolTotal, Decl.length_declared]

theorem TypeBound.linked (hr : Resolved p a) {env before : List Decl} {type : TypeSpec} {s : Symbol}
    (h : TypeBound env a type s) (hsub : ∀ sd, Decl.struct sd ∈ env → Decl.struct sd ∈ before) :
    type.Linked before a := by
  cases type with
  | scalar sc => trivial
  | struct i =>
    obtain ⟨sd, k, hmem, hname, hl, hl', -⟩ := h
    exact ⟨sd, hsub sd hmem, hname, hr.joins hl' hl⟩

theorem VarsBound.linked (hr : Resolved p a) {env before : List Decl} {g : Bool} {n : Nat}
    {ds : List VarDecl} (h : VarsBound env a g n ds)
    (hsub : ∀ sd, Decl.struct sd ∈ env → Decl.struct sd ∈ before) :
    ∀ x ∈ ds, x.type.Linked before a := by
  intro x hx
  obtain ⟨i, hi⟩ := List.getElem?_of_mem hx
  obtain ⟨-, s, -, -, -, htype⟩ := h.get hi
  exact htype.linked hr hsub

end Binding

/-- **Where binding reports nothing, every name is linked to its declaration.** -/
theorem Resolved.linked (hr : Resolved p a) (hp : p.WellScoped) (hw : Every Token.Wf p.tokens) :
    p.Linked a where
  own j i hj := by
    have := hr.bound.declared hj
    rw [Nat.zero_add] at this
    exact hr.linked? this
  none_else := hr.size.trans (length_declared p.decls).symm
  uses before f after hsplit v e he x hx :=
    (Expr.settled_parts (hr.exprs_settled hp hw hsplit (v, e) he) x hx).linked hr
  types before d after hsplit x hx := by
    have hb := hr.bound
    rw [hsplit] at hb
    have hd := hb.split
    have hsub : ∀ sd, Decl.struct sd ∈ before.reverse ++ [] → Decl.struct sd ∈ before := by simp
    cases d with
    | var d =>
      obtain rfl := List.mem_singleton.1 hx
      obtain ⟨-, s, -, -, -, htype⟩ := hd
      exact htype.linked hr hsub
    | struct d => exact hd.1.linked hr hsub x hx
    | fn f =>
      refine hd.variables.linked hr (fun sd hsd => ?_) x hx
      rcases List.mem_cons.1 hsd with hsd | hsd
      · cases hsd
      · exact hsub sd hsd

end

theorem Session.bind_of_bound {s : Session} {p : Program} {a : Annotations}
    (h : bindNames p .empty = .ok (a, [])) : (s.bind p .empty).1 = .ok (true, a) := by
  rw [Session.bind, h]
  rfl

theorem Session.bindNames_of_bind {s : Session} {p : Program} {a : Annotations} {ok : Bool}
    (h : (s.bind p .empty).1 = .ok (ok, a)) :
    ∃ rs, bindNames p .empty = .ok (a, rs) ∧ ok = rs.isEmpty := by
  unfold Session.bind at h
  split at h
  next => cases h
  next b rs hrun =>
    obtain ⟨rfl, rfl⟩ := Prod.mk.inj (Except.ok.inj h)
    exact ⟨rs, hrun, rfl⟩

/-- What is known of a program that is bound without a report. -/
theorem resolved_of_bound {p : Program} {a : Annotations} (hw : Every Token.Wf p.tokens)
    (hn : p.ids.Nodup) (h : bindNames p .empty = .ok (a, [])) : Resolved p a ∧ p.WellScoped := by
  obtain ⟨t, s, hrun, -, -, hgood⟩ := bind_of_wf hw hn
  rw [bindNames, hrun] at h
  obtain ⟨rfl, hr⟩ := Prod.mk.inj (Except.ok.inj h)
  exact ⟨hgood hr, (program_exact hw hrun).1 hr⟩

/-- What is known of a text that is bound without a report. -/
theorem resolved_of_bind {source : String} {ts : Lexer.Tokens} {p : Program} {s : Session}
    {a : Annotations} (hlex : tokenize source = .ok ts) (hparse : parse ts.lexemes = .ok p)
    (hbind : (s.bind p .empty).1 = .ok (true, a)) : Resolved p a ∧ p.WellScoped := by
  obtain ⟨hw, hn⟩ := wf_of_parse hlex hparse
  obtain ⟨rs, hrun, hempty⟩ := Session.bindNames_of_bind hbind
  exact resolved_of_bound hw hn (List.isEmpty_iff.1 hempty.symm ▸ hrun)

/-- **Names are bound by lexical scoping.** What was read from a text is bound without a report
exactly if every name in it stands for something, and then every name is linked to the symbol of
the declaration that it stands for. -/
theorem bind_lexical {source : String} {ts : Lexer.Tokens} {p : Program}
    (hlex : tokenize source = .ok ts) (hparse : parse ts.lexemes = .ok p) (s : Session) :
    ∃ ok a, (s.bind p .empty).1 = .ok (ok, a) ∧ (ok = true ↔ p.WellScoped) ∧
      (ok = true → p.Linked a) := by
  obtain ⟨hw, -⟩ := wf_of_parse hlex hparse
  obtain ⟨t, s', hrun, -, -, hgood⟩ := bind_of_parse hlex hparse
  have hiff : s'.reports.isEmpty = true ↔ p.WellScoped :=
    List.isEmpty_iff.trans (program_exact hw hrun)
  refine ⟨s'.reports.isEmpty, s'.notes, ?_, hiff, fun hok => ?_⟩
  · rw [Session.bind, bindNames, hrun]
  · exact (hgood (List.isEmpty_iff.1 hok)).linked (hiff.1 hok) hw

/-- A field, and a variable with the name of one around it. -/
theorem bind_lexical_shadowing :
    ∃ ts p a,
      tokenize "struct P \x7b int x; \x7d; int main() \x7b struct P q; q.x = 1; while (true) \x7b int q; q = main(); \x7d return q.x; \x7d" = .ok ts ∧
      parse ts.lexemes = .ok p ∧
      ((Session.new "").bind p .empty).1 = .ok (true, a) ∧ p.WellScoped ∧ p.Linked a := by
  obtain ⟨p, -, -, -, ⟨hlex, hparse, hbind, -, -⟩, -⟩ := exists_of_code
    "struct P \x7b int x; \x7d; int main() \x7b struct P q; q.x = 1; while (true) \x7b int q; q = main(); \x7d return q.x; \x7d"
    (fun _ => true) (by decide +kernel)
  obtain ⟨ok, a, hok, hwell, hlinked⟩ := bind_lexical hlex hparse (Session.new "")
  obtain ⟨rfl, -⟩ := Prod.mk.inj (Except.ok.inj ((Session.bind_of_bound hbind).symm.trans hok))
  exact ⟨_, p, a, hlex, hparse, hok, hwell.1 rfl, hlinked rfl⟩

end FlatC
