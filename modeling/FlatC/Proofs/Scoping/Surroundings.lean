import FlatC.Proofs.Binding.Spec

/-!
# Which declarations names stand for

The `Surroundings` of a place in a program are the blocks around it and the declarations of the
program up to the function that it stands in, that function included. All declarations of a block
count for all of its statements. A name stands for the declaration of the innermost block that
has the name (`Means`), and a place for the last of the variables and fields that it names
(`Denotes`).

`Program.WellScoped` says when every name of a program stands for something. It does so without a
table of scopes: it looks at the declarations in the tree alone.
-/

namespace FlatC

/-- The name that a declaration gives to a variable or a function. -/
def Decl.value? : Decl → Option String
  | var d => some d.name.name
  | struct _ => none
  | fn d => some d.name.name

/-- The name that a declaration gives to a struct. -/
def Decl.struct? : Decl → Option String
  | struct d => some d.name.name
  | _ => none

structure Surroundings where
  /-- The declarations of the blocks, from the inside out. -/
  blocks : List (List VarDecl)
  /-- Declarations of the program, in their order. -/
  decls : List Decl

namespace Surroundings

/-- Inside a block with the declarations `ds`. -/
def enter (v : Surroundings) (ds : List VarDecl) : Surroundings :=
  { v with blocks := ds :: v.blocks }

/-- `Stands ds x bs d`: inside the blocks `bs` and behind the declarations `ds` of the program, the
name `x` stands for `d`. -/
inductive Stands (ds : List Decl) (x : String) : List (List VarDecl) → Decl → Prop where
  | here {b : List VarDecl} {bs : List (List VarDecl)} {d : VarDecl} (hd : d ∈ b)
      (hx : d.name.name = x) : Stands ds x (b :: bs) (.var d)
  | around {b : List VarDecl} {bs : List (List VarDecl)} {d : Decl}
      (hb : ∀ y ∈ b, y.name.name ≠ x) (h : Stands ds x bs d) : Stands ds x (b :: bs) d
  | program {d : Decl} (hd : d ∈ ds) (hx : d.value? = some x) : Stands ds x [] d

/-- The declaration that a name stands for. -/
def Means (v : Surroundings) (x : String) (d : Decl) : Prop := Stands v.decls x v.blocks d

/-- The declaration that a place stands for. -/
inductive Denotes (v : Surroundings) : Place → Decl → Prop where
  | var {node : Node} {name : Ident} {d : Decl} (h : v.Means name.name d) :
      Denotes v (.var node name) d
  | field {node : Node} {base : Place} {name i : Ident} {x y : VarDecl} {sd : StructDecl}
      (hb : Denotes v base (.var x)) (hx : x.type = .struct i) (hsd : Decl.struct sd ∈ v.decls)
      (hi : sd.name.name = i.name) (hy : y ∈ sd.fields) (hname : y.name.name = name.name) :
      Denotes v (.field node base name) (.var y)

end Surroundings

open Binding Grammar

/-- What holds of every declaration with those before it. -/
theorem forall_split_cons {P : List Decl → Decl → Prop} {x : Decl} {ds : List Decl} :
    (∀ before d after, x :: ds = before ++ d :: after → P before d) ↔
      P [] x ∧ ∀ before d after, ds = before ++ d :: after → P (x :: before) d := by
  constructor
  · intro h
    exact ⟨h [] x ds rfl, fun before d after heq => h (x :: before) d after (by rw [heq]; rfl)⟩
  · rintro ⟨hx, hds⟩ before d after heq
    rcases List.cons_eq_append_iff.1 heq with ⟨rfl, hhead⟩ | ⟨before', rfl, htail⟩
    · obtain ⟨rfl, -⟩ := List.cons.inj hhead
      exact hx
    · exact hds before' d after htail

/-! ## Looking names up -/

/-- Where the names differ, a declaration is found by its name. -/
theorem Binding.find_of_mem {ds : List Decl} (h : (ds.map Decl.key).Nodup) {d : Decl}
    (hd : d ∈ ds) : find ds d.key = some d := by
  induction ds with
  | nil => cases hd
  | cons y ds ih =>
    rw [List.map_cons, List.nodup_cons] at h
    rw [find, List.find?_cons]
    rcases List.mem_cons.1 hd with rfl | hd
    · simp
    · have hne : y.key ≠ d.key := fun heq => h.1 (heq ▸ List.mem_map_of_mem hd)
      rw [beq_false_of_ne hne]
      exact ih h.2 hd

theorem Decl.key_eq_iff {d : Decl} {x : String} (hx : Lexer.IsWord x) :
    d.key = x ↔ d.value? = some x := by
  cases d with
  | var d => exact (Option.some_inj).symm
  | struct d =>
    refine ⟨fun h => ?_, nofun⟩
    have hkey : structKey d.name.name = x := h
    exact absurd (hkey ▸ hx) (structKey_not_isWord d.name.name)
  | fn d => exact (Option.some_inj).symm

theorem Decl.key_eq_structKey_iff {d : Decl} (hd : Lexer.IsWord d.name.name) {x : String} :
    d.key = structKey x ↔ d.struct? = some x := by
  cases d with
  | var d => exact ⟨fun h => absurd (h ▸ hd) (structKey_not_isWord x), nofun⟩
  | struct d =>
    rw [Decl.struct?, Option.some_inj]
    exact ⟨structKey_inj, congrArg structKey⟩
  | fn d => exact ⟨fun h => absurd (h ▸ hd) (structKey_not_isWord x), nofun⟩

theorem Decl.isWord_name {d : Decl} (hw : Every Token.Wf d.tokens) : Lexer.IsWord d.name.name := by
  have hmem : Token.ident d.name.name ∈ d.tokens := by
    cases d with
    | var d => simp [Decl.tokens, VarDecl.tokens, Decl.name]
    | struct d => simp [Decl.tokens, Decl.name]
    | fn d => simp [Decl.tokens, Decl.name]
  have hident : (Token.ident d.name.name).Wf := hw _ hmem
  exact hident.1

/-- The keys of declarations tell variables and functions from structs. -/
theorem Decl.keys_nodup_iff {ds : List Decl} (hw : ∀ d ∈ ds, Lexer.IsWord d.name.name) :
    (ds.map Decl.key).Nodup ↔
      (ds.filterMap Decl.value?).Nodup ∧ (ds.filterMap Decl.struct?).Nodup := by
  induction ds with
  | nil => simp
  | cons d ds ih =>
    have hwd := hw d (.head _)
    have hwds := fun d hd => hw d (.tail _ hd)
    have hvalue : ∀ x, Lexer.IsWord x → (x ∈ ds.map Decl.key ↔ x ∈ ds.filterMap Decl.value?) :=
      fun x hx => by simp only [List.mem_map, List.mem_filterMap, Decl.key_eq_iff hx]
    have hstruct : ∀ x, structKey x ∈ ds.map Decl.key ↔ x ∈ ds.filterMap Decl.struct? := by
      intro x
      simp only [List.mem_map, List.mem_filterMap]
      exact exists_congr fun d' =>
        and_congr_right fun hd' => Decl.key_eq_structKey_iff (hwds d' hd')
    rw [List.map_cons, List.nodup_cons, ih hwds]
    cases d with
    | var d | fn d =>
      rw [List.filterMap_cons_some (f := Decl.value?) rfl, List.filterMap_cons_none rfl,
        List.nodup_cons, and_assoc]
      exact and_congr_left fun _ => not_congr (hvalue _ hwd)
    | struct d =>
      rw [List.filterMap_cons_none rfl, List.filterMap_cons_some (f := Decl.struct?) rfl,
        List.nodup_cons, and_left_comm]
      exact and_congr_right fun _ => and_congr_left fun _ => not_congr (hstruct _)

namespace Surroundings

variable {v : Surroundings} {x : String} {d d' : Decl}

/-- The declarations, in the order in which names are looked up among them. -/
def env (v : Surroundings) : List Decl :=
  v.blocks.flatMap (fun b => (b.map Decl.var).reverse) ++ v.decls.reverse

theorem env_enter (ds : List VarDecl) : (v.enter ds).env = extend v.env ds := by
  simp [env, enter, extend]

/-- No scope has a name twice. -/
structure Distinct (v : Surroundings) : Prop where
  blocks : ∀ b ∈ v.blocks, (b.map (·.name.name)).Nodup
  decls : (v.decls.map Decl.key).Nodup
  fields : ∀ sd, Decl.struct sd ∈ v.decls → (sd.fields.map (·.name.name)).Nodup

theorem mem_env_struct {sd : StructDecl} : Decl.struct sd ∈ v.env ↔ Decl.struct sd ∈ v.decls := by
  simp [env]

theorem means_of_find (hx : Lexer.IsWord x) (h : find v.env x = some d) : v.Means x d := by
  obtain ⟨bs, ds⟩ := v
  induction bs with
  | nil =>
    obtain ⟨hmem, hkey⟩ := mem_of_find h
    exact .program (by simpa [env] using hmem) ((Decl.key_eq_iff hx).1 hkey)
  | cons b bs ih =>
    have hsplit : find (env ⟨b :: bs, ds⟩) x =
        (find (b.map Decl.var).reverse x).or (find (env ⟨bs, ds⟩) x) := by
      simp only [find, env, List.flatMap_cons, List.append_assoc, List.find?_append]
    rw [hsplit] at h
    cases hb : find (b.map Decl.var).reverse x with
    | some y =>
      rw [hb, Option.some_or] at h
      obtain rfl := Option.some.inj h
      obtain ⟨hmem, hkey⟩ := mem_of_find hb
      obtain ⟨z, hz, rfl⟩ := List.mem_map.1 (List.mem_reverse.1 hmem)
      exact .here hz hkey
    | none =>
      rw [hb, Option.none_or] at h
      refine .around (fun y hy hname => ?_) (ih h)
      have := List.find?_eq_none.1 hb (.var y) (by simpa using hy)
      exact this (by simpa [Decl.key] using hname)

theorem find_of_means (hv : v.Distinct) (hx : Lexer.IsWord x) (h : v.Means x d) :
    find v.env x = some d := by
  obtain ⟨bs, ds⟩ := v
  obtain ⟨hblocks, hdecls, -⟩ := hv
  unfold Means at h
  simp only at h hblocks hdecls
  induction h with
  | @here b bs y hd hname =>
    have hkeys : ((b.map Decl.var).reverse.map Decl.key).Nodup := by
      rw [List.map_reverse, List.nodup_reverse, List.map_map]
      exact hblocks b (.head _)
    have hfind : find (b.map Decl.var).reverse x = some (.var y) := by
      have := find_of_mem hkeys (d := .var y) (by simpa using hd)
      rwa [show (Decl.var y).key = x from hname] at this
    simp only [find, env, List.flatMap_cons, List.append_assoc, List.find?_append] at hfind ⊢
    rw [hfind, Option.some_or]
  | @around b bs d hb _ ih =>
    have hnone : find (b.map Decl.var).reverse x = none := by
      refine List.find?_eq_none.2 fun y hy => ?_
      obtain ⟨z, hz, rfl⟩ := List.mem_map.1 (List.mem_reverse.1 hy)
      simpa [Decl.key] using hb z hz
    have hrest := ih fun b hb => hblocks b (.tail _ hb)
    simp only [find, env, List.flatMap_cons, List.append_assoc, List.find?_append] at hnone hrest ⊢
    rw [hnone, Option.none_or, hrest]
  | program hd hval =>
    have hkeys : (ds.reverse.map Decl.key).Nodup := by
      rw [List.map_reverse, List.nodup_reverse]
      exact hdecls
    have := find_of_mem hkeys (List.mem_reverse.2 hd)
    rw [(Decl.key_eq_iff hx).2 hval] at this
    simpa [env] using this

theorem Means.value (h : v.Means x d) : d.value? = some x := by
  unfold Means at h
  generalize v.blocks = bs at h
  induction h with
  | here _ hname => exact congrArg some hname
  | around _ _ ih => exact ih
  | program _ hval => exact hval

theorem Means.unique (hv : v.Distinct) (hx : Lexer.IsWord x) (h : v.Means x d)
    (h' : v.Means x d') : d = d' :=
  Option.some.inj ((find_of_means hv hx h).symm.trans (find_of_means hv hx h'))

/-- There is one struct of a name. -/
theorem struct_unique (hv : v.Distinct) {sd sd' : StructDecl} (h : Decl.struct sd ∈ v.decls)
    (h' : Decl.struct sd' ∈ v.decls) (hname : sd.name.name = sd'.name.name) : sd = sd' := by
  have hkey : (Decl.struct sd).key = (Decl.struct sd').key := congrArg structKey hname
  have hfind := find_of_mem hv.decls h
  rw [hkey, find_of_mem hv.decls h'] at hfind
  exact (Decl.struct.inj (Option.some.inj hfind)).symm

theorem field_unique {xs : List VarDecl} (h : (xs.map (·.name.name)).Nodup) {y y' : VarDecl}
    (hy : y ∈ xs) (hy' : y' ∈ xs) (hname : y.name.name = y'.name.name) : y = y' :=
  List.inj_on_of_nodup_map h hy hy' hname

theorem Denotes.unique (hv : v.Distinct) {q : Place} (hw : Every Token.Wf q.tokens)
    (h : v.Denotes q d) (h' : v.Denotes q d') : d = d' := by
  induction h generalizing d' with
  | var h =>
    cases h' with
    | var h' => exact h.unique hv (hw _ (.head _)).1 h'
  | field hb hx hsd hi hy hname ih =>
    cases h' with
    | field hb' hx' hsd' hi' hy' hname' =>
      rw [Place.tokens, every_append] at hw
      obtain rfl := Decl.var.inj (ih hw.1 hb')
      obtain rfl := TypeSpec.struct.inj (hx.symm.trans hx')
      obtain rfl := struct_unique hv hsd hsd' (hi.trans hi'.symm)
      exact congrArg Decl.var (field_unique (hv.fields _ hsd) hy hy' (hname.trans hname'.symm))

end Surroundings

/-! ## Programs whose names all stand for something -/

/-- A variable can have the type, behind the declarations `ds`. -/
def TypeSpec.Known (ds : List Decl) : TypeSpec → Prop
  | .scalar sc => sc ≠ .void
  | .struct i => ∃ sd, Decl.struct sd ∈ ds ∧ sd.name.name = i.name

/-- The declarations of one scope: no name comes twice, and the types can be had. -/
structure VarDecl.AllKnown (ds : List Decl) (xs : List VarDecl) : Prop where
  nodup : (xs.map (·.name.name)).Nodup
  known : ∀ x ∈ xs, x.type.Known ds

mutual

/-- Every name in an expression stands for something. -/
def Expr.WellScoped (v : Surroundings) : Expr → Prop
  | .int .. | .str .. | .bool .. => True
  | .place q => ∃ d, v.Denotes q d
  | .assign _ target value => (∃ d, v.Denotes target d) ∧ value.WellScoped v
  | .call _ callee args => (∃ d, v.Means callee.name d) ∧ Expr.AllWellScoped v args
  | .unary _ _ operand => operand.WellScoped v
  | .binary _ _ left right => left.WellScoped v ∧ right.WellScoped v

def Expr.AllWellScoped (v : Surroundings) : List Expr → Prop
  | [] => True
  | e :: es => e.WellScoped v ∧ Expr.AllWellScoped v es

end

mutual

def Stmt.WellScoped (v : Surroundings) : Stmt → Prop
  | .assign _ node target value => (Expr.assign node target value).WellScoped v
  | .increment _ target | .decrement _ target | .read _ target => ∃ d, v.Denotes target d
  | .write _ value => value.WellScoped v
  | .ifThen _ cond body => cond.WellScoped v ∧ body.WellScoped v
  | .ifElse _ cond thenBody elseBody =>
    cond.WellScoped v ∧ thenBody.WellScoped v ∧ elseBody.WellScoped v
  | .whileLoop _ cond body => cond.WellScoped v ∧ body.WellScoped v
  | .call _ node callee args => (Expr.call node callee args).WellScoped v
  | .ret _ none => True
  | .ret _ (some value) => value.WellScoped v

/-- A block with a scope of its own. -/
def Body.WellScoped (v : Surroundings) : Body → Prop
  | .block ds ss => VarDecl.AllKnown v.decls ds ∧ Stmt.AllWellScoped (v.enter ds) ss

def Stmt.AllWellScoped (v : Surroundings) : List Stmt → Prop
  | [] => True
  | s :: ss => s.WellScoped v ∧ Stmt.AllWellScoped v ss

end

/-- The outermost scope of a function: its parameters, and the declarations of its body. -/
def FnDecl.scope (f : FnDecl) : List VarDecl := f.params.map Param.decl ++ f.body.decls

/-- Around the statements of a function that stands behind the declarations `before`. -/
def FnDecl.surroundings (f : FnDecl) (before : List Decl) : Surroundings :=
  ⟨[f.scope], before ++ [.fn f]⟩

/-- A declaration of the program that stands behind the declarations `before`. -/
def Decl.WellScoped (before : List Decl) : Decl → Prop
  | var d => d.type.Known before
  | struct d => VarDecl.AllKnown before d.fields
  | fn f =>
    VarDecl.AllKnown before f.scope ∧ Stmt.AllWellScoped (f.surroundings before) f.body.stmts

/-- **Every name of a program stands for something**, and no name is declared twice in one scope. -/
structure Program.WellScoped (p : Program) : Prop where
  values : (p.decls.filterMap Decl.value?).Nodup
  structs : (p.decls.filterMap Decl.struct?).Nodup
  decls : ∀ before d after, p.decls = before ++ d :: after → d.WellScoped before

end FlatC
