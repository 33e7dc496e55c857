import FlatC.Proofs.Binding.Notes
import FlatC.Proofs.Syntax.Lexing
import FlatC.Proofs.Syntax.Occurrences

/-!
# What it means that names are bound

The names that are in scope are listed as declarations, those declared last first
(`env`). The predicates here say of notes `a` that every name of a tree is linked to the
symbol of the declaration that it stands for, and that every declaration has its own symbol.

They hold of notes for good: binding establishes them as `Lasting`, that is for
all notes that keep what was noted.
-/

namespace FlatC

/-- The name under which a declaration is found. -/
def Decl.key : Decl → String
  | .var d => d.name.name
  | .struct d => structKey d.name.name
  | .fn d => d.name.name

/-- `P` holds of `a` and of all notes that keep what is noted in it. -/
def Lasting (P : Annotations → Prop) (a : Annotations) : Prop := ∀ b, a.Keeps b → P b

theorem Lasting.here {P : Annotations → Prop} {a : Annotations} (h : Lasting P a) : P a :=
  h a (.refl a)

theorem Lasting.keep {P : Annotations → Prop} {a b : Annotations} (h : Lasting P a)
    (hk : a.Keeps b) : Lasting P b :=
  fun c hc => h c (hk.trans hc)

namespace Binding

/-- The declaration that a name stands for. -/
def find (env : List Decl) (x : String) : Option Decl := env.find? (·.key == x)

theorem mem_of_find {env : List Decl} {x : String} {d : Decl} (h : find env x = some d) :
    d ∈ env ∧ d.key = x :=
  ⟨List.mem_of_find?_eq_some h, by simpa using List.find?_some h⟩

/-- The occurrence `i` is linked to the symbol `k` of the declaration that its name stands for. -/
def Uses (env : List Decl) (i : Ident) (k : SymbolId) (a : Annotations) : Prop :=
  ∃ d, find env i.name = some d ∧ a.Links d.name.id k ∧ a.Links i.id k

/-- The last name of a place is linked to `k`: a variable to the one in scope, a field to the one
of that name in the struct in front of it. -/
inductive PlaceBound (env : List Decl) (a : Annotations) : Place → SymbolId → Prop where
  | var {node : Node} {name : Ident} {k : SymbolId} (h : Uses env name k a) :
      PlaceBound env a (.var node name) k
  | field {node : Node} {base : Place} {name : Ident} {k d i : SymbolId} {s sd : Symbol}
      {fields : Scope} (hb : PlaceBound env a base k) (hs : a.symbol? k = some s)
      (hd : s.definition? = some d) (hsd : a.symbol? d = some sd) (hf : sd.fields? = some fields)
      (hx : fields.lookup name.name = some i) (hl : a.Links name.id i) :
      PlaceBound env a (.field node base name) i

section

variable (env : List Decl) (a : Annotations)

mutual

def ExprBound : Expr → Prop
  | .int .. | .str .. | .bool .. => True
  | .place p => ∃ k, PlaceBound env a p k
  | .assign _ target value => (∃ k, PlaceBound env a target k) ∧ ExprBound value
  | .call _ callee args => (∃ k, Uses env callee k a) ∧ ExprsBound args
  | .unary _ _ operand => ExprBound operand
  | .binary _ _ left right => ExprBound left ∧ ExprBound right

def ExprsBound : List Expr → Prop
  | [] => True
  | e :: es => ExprBound e ∧ ExprsBound es

end

/-- The symbol of a variable of a written type. -/
def TypeBound : TypeSpec → Symbol → Prop
  | .scalar sc, s => sc ≠ .void ∧ s.kind = .var ∧ s.ty = .ofScalar sc
  | .struct i, s => ∃ sd d, Decl.struct sd ∈ env ∧ sd.name.name = i.name ∧
      a.Links sd.name.id d ∧ a.Links i.id d ∧ s.kind = .structVar d ∧ s.ty = .struct i.name

/-- `k` is the symbol of a variable; `isGlobal` tells where it is declared. -/
def VarBound (isGlobal : Bool) (d : VarDecl) (k : SymbolId) : Prop :=
  a.Links d.name.id k ∧
    ∃ s, a.symbol? k = some s ∧ s.name = d.name.name ∧ s.isGlobal = isGlobal ∧
      TypeBound env a d.type s

/-- The variables have the symbols from `n` on. -/
def VarsBound (isGlobal : Bool) : Nat → List VarDecl → Prop
  | _, [] => True
  | n, d :: ds => VarBound env a isGlobal d n ∧ VarsBound isGlobal (n + 1) ds

end

/-- The declarations of a block, those declared last first, in front of those around it. -/
def extend (env : List Decl) (ds : List VarDecl) : List Decl := (ds.map Decl.var).reverse ++ env

end Binding

mutual

/-- The declarations of a block and of those inside it, in their order. -/
def Body.allDecls : Body → List VarDecl
  | .block decls ss => decls ++ Stmt.manyDecls ss

def Stmt.allDecls : Stmt → List VarDecl
  | .ifThen _ _ body => body.allDecls
  | .ifElse _ _ thenBody elseBody => thenBody.allDecls ++ elseBody.allDecls
  | .whileLoop _ _ body => body.allDecls
  | _ => []

def Stmt.manyDecls : List Stmt → List VarDecl
  | [] => []
  | s :: ss => s.allDecls ++ Stmt.manyDecls ss

end

/-- The parameters and the variables of the blocks of a function. -/
def FnDecl.variables (f : FnDecl) : List VarDecl := f.params.map Param.decl ++ f.body.allDecls

namespace Binding

section

variable (a : Annotations)

mutual

/-- The names of a statement are bound, and the variables declared in it have the symbols from
`n` on. -/
def StmtBound (env : List Decl) (n : Nat) : Stmt → Prop
  | .assign _ node target value => ExprBound env a (.assign node target value)
  | .increment _ target | .decrement _ target | .read _ target => ∃ k, PlaceBound env a target k
  | .write _ value => ExprBound env a value
  | .ifThen _ cond body => ExprBound env a cond ∧ BodyBound env n body
  | .ifElse _ cond thenBody elseBody =>
    ExprBound env a cond ∧ BodyBound env n thenBody ∧
      BodyBound env (n + thenBody.allDecls.length) elseBody
  | .whileLoop _ cond body => ExprBound env a cond ∧ BodyBound env n body
  | .call _ node callee args => ExprBound env a (.call node callee args)
  | .ret _ none => True
  | .ret _ (some value) => ExprBound env a value

def BodyBound (env : List Decl) (n : Nat) : Body → Prop
  | .block decls ss =>
    VarsBound env a false n decls ∧ StmtsBound (extend env decls) (n + decls.length) ss

def StmtsBound (env : List Decl) (n : Nat) : List Stmt → Prop
  | [] => True
  | s :: ss => StmtBound env n s ∧ StmtsBound env (n + s.allDecls.length) ss

end

/-- The names of fields with their symbols, from `n` on. -/
def fieldEntries : Nat → List VarDecl → List (String × SymbolId)
  | _, [] => []
  | n, d :: ds => (d.name.name, n) :: fieldEntries (n + 1) ds

/-- A field is found by its name, with its symbol. -/
theorem lookup_fieldEntries {ds : List VarDecl} {n k : Nat} {x : String} {d : VarDecl}
    (hk : (fieldEntries n ds).lookup x = some k) (hd : ds.find? (·.name.name == x) = some d) :
    ∃ i, ds[i]? = some d ∧ k = n + i := by
  induction ds generalizing n with
  | nil => cases hd
  | cons y ds ih =>
    rw [fieldEntries, List.lookup_cons] at hk
    rw [List.find?_cons] at hd
    by_cases hy : y.name.name = x
    · subst hy
      simp only [beq_self_eq_true] at hk hd
      exact ⟨0, by simpa using hd, by simpa using hk.symm⟩
    · rw [beq_false_of_ne (Ne.symm hy)] at hk
      rw [beq_false_of_ne hy] at hd
      obtain ⟨i, hi, rfl⟩ := ih hk hd
      exact ⟨i + 1, hi, by omega⟩

/-- `k` is the symbol of a struct whose fields have the symbols from `n` on. -/
def StructBound (d : StructDecl) (n k : Nat) : Prop :=
  a.Links d.name.id k ∧
    ∃ s fields, a.symbol? k = some s ∧ s.fields? = some fields ∧
      fields.entries = fieldEntries n d.fields

/-- The names of a declaration are bound, and what it declares has the symbols from `n` on. -/
def DeclBound (env : List Decl) (n : Nat) : Decl → Prop
  | .var d => VarBound env a true d n
  | .struct d => VarsBound env a false n d.fields ∧ StructBound a d n (n + d.fields.length)
  | .fn d =>
    a.Links d.name.id n ∧ VarsBound (.fn d :: env) a false (n + 1) (d.params.map Param.decl) ∧
      BodyBound a (extend (.fn d :: env) (d.params.map Param.decl)) (n + 1 + d.params.length) d.body

end

end Binding

/-- The number of symbols that a declaration has. -/
def Decl.symbolCount : Decl → Nat
  | .var _ => 1
  | .struct d => d.fields.length + 1
  | .fn d => 1 + d.params.length + d.body.allDecls.length

/-- What the symbol of a function says about it. -/
structure FnDecl.Described (d : FnDecl) (s : Symbol) : Prop where
  ty : s.ty = .fn (d.params.map (.ofScalar ·.type)) (.ofScalar d.returns)
  info : ∃ info, s.fnInfo? = some info ∧ info.params = d.params.map (.ofScalar ·.type) ∧
    info.ret = .ofScalar d.returns

namespace Binding

section

variable (a : Annotations)

/-- The declarations of a program are bound, with the symbols from `n` on. -/
def DeclsBound : List Decl → Nat → List Decl → Prop
  | _, _, [] => True
  | env, n, d :: ds => DeclBound a env n d ∧ DeclsBound (d :: env) (n + d.symbolCount) ds

/-- The functions among the declarations are described by their symbols. -/
def FnsDescribed : Nat → List Decl → Prop
  | _, [] => True
  | n, d :: ds =>
    (∀ f, d = .fn f → ∃ s, a.symbol? n = some s ∧ f.Described s) ∧
      FnsDescribed (n + d.symbolCount) ds

end

end Binding

end FlatC
