import FlatC.Proofs.Typing.Decides

/-!
# Code moves words

The code of a program loads and stores single words. `Expr.moved` lists the places that it does this
with. Where nothing is wrong with a program, each of them is a variable of type `int` or `bool`, with
one exception: types are the same if they are printed alike, and a struct that is named `string` is
printed like the type of string literals. `moved_words` says that there is no other exception, and
`string_moves_whole` shows that this one can be met.
-/

namespace FlatC

/-! ## Places that are moved -/

mutual

/-- The places that the code of an expression loads from or stores to. -/
def Expr.moved : Expr → List Place
  | .int .. | .str .. | .bool .. => []
  | .place q => [q]
  | .assign _ target value => target :: value.moved
  | .call _ _ args => Expr.allMoved args
  | .unary _ _ operand => operand.moved
  | .binary _ _ left right => left.moved ++ right.moved

def Expr.allMoved : List Expr → List Place
  | [] => []
  | e :: es => e.moved ++ Expr.allMoved es

end

theorem Place.mem_parts (q : Place) : q ∈ q.parts := by
  cases q <;> simp [Place.parts]

mutual

theorem Expr.parts_of_moved : ∀ (e : Expr) {q : Place}, q ∈ e.moved → .place q ∈ e.parts
  | .int .., q, h | .str .., q, h | .bool .., q, h => by simp [Expr.moved] at h
  | .place q', q, h => by
    obtain rfl : q = q' := by simpa [Expr.moved] using h
    exact List.mem_map_of_mem q.mem_parts
  | .assign _ target value, q, h => by
    simp only [Expr.parts, List.mem_append]
    rcases List.mem_cons.1 h with rfl | h
    · exact .inl (.inl (List.mem_map_of_mem q.mem_parts))
    · exact .inl (.inr (Expr.parts_of_moved value h))
  | .call _ _ args, q, h => List.mem_append_left _ (Expr.allParts_of_moved args h)
  | .unary _ _ operand, q, h => List.mem_append_left _ (Expr.parts_of_moved operand h)
  | .binary _ _ left right, q, h => by
    simp only [Expr.parts, List.mem_append]
    rcases List.mem_append.1 h with h | h
    · exact .inl (.inl (Expr.parts_of_moved left h))
    · exact .inl (.inr (Expr.parts_of_moved right h))

theorem Expr.allParts_of_moved : ∀ (es : List Expr) {q : Place}, q ∈ Expr.allMoved es →
    .place q ∈ Expr.allParts es
  | [], q, h => by simp [Expr.allMoved] at h
  | e :: es, q, h => by
    rw [Expr.allParts, List.mem_append]
    rcases List.mem_append.1 h with h | h
    · exact .inl (Expr.parts_of_moved e h)
    · exact .inr (Expr.allParts_of_moved es h)

end

/-! ## Types that are printed alike -/

namespace Ty

/-- The types of the variables, fields and functions of a program that was read. -/
inductive OfPlace : Ty → Prop where
  | int : OfPlace .int
  | bool : OfPlace .bool
  | struct {x : String} (hx : (Token.ident x).Wf) : OfPlace (.struct x)
  | fn {params : List Ty} {ret : Ty} : OfPlace (.fn params ret)

/-- The types of the expressions of a program that was read. -/
inductive OfExpr : Ty → Prop where
  | place {t : Ty} (h : t.OfPlace) : OfExpr t
  | void : OfExpr .void
  | string : OfExpr .string

/-- A type of one word, or that of a struct that is printed like the type of a string. -/
def Movable (t : Ty) : Prop := t = .int ∨ t = .bool ∨ t = .struct "string"

variable {s t : Ty}

theorem head?_text_fn {params : List Ty} {ret : Ty} :
    (Ty.fn params ret).text.toList.head? = some '(' := by
  simp [text]

theorem head?_of_isWord {x : String} (hx : Lexer.IsWord x) : x.toList.head? ≠ some '(' := by
  obtain ⟨c, w, hx, hc, -⟩ := hx
  rw [hx, List.head?_cons]
  rintro ⟨⟩
  exact absurd hc (by decide)

/-- A name is printed like no type but that of a string. -/
theorem text_ne_name {x : String} (hx : (Token.ident x).Wf) (ht : t.OfExpr)
    (hstruct : ∀ y, t ≠ .struct y) (hstring : t ≠ .string) : t.text ≠ x := by
  obtain ⟨hword, hkey⟩ := hx
  rintro rfl
  cases ht with
  | place h =>
    cases h with
    | int | bool => exact absurd hkey (by decide)
    | struct => exact hstruct _ rfl
    | fn => exact head?_of_isWord hword head?_text_fn
  | void => exact absurd hkey (by decide)
  | string => exact hstring rfl

/-- **What is printed like the type of a place can be moved**, unless it is composite as well. -/
theorem movable_of_same (hs : s.OfPlace) (ht : t.OfExpr) (hsame : s.Same t)
    (hkind : ¬ s.BothComposite t) : s.Movable := by
  cases hs with
  | int => exact .inl rfl
  | bool => exact .inr (.inl rfl)
  | @struct x hx =>
    have hne : ∀ y, t ≠ .struct y := by
      rintro y rfl
      exact hkind .struct
    by_cases hstring : t = .string
    · subst hstring
      have hx' : x = "string" := hsame
      exact .inr (.inr (by rw [hx']))
    · exact absurd hsame.symm (text_ne_name hx ht hne hstring)
  | @fn params ret =>
    have hhead : t.text.toList.head? = some '(' := by
      rw [← show (Ty.fn params ret).text = t.text from hsame]
      exact head?_text_fn
    cases ht with
    | place h =>
      cases h with
      | int | bool => exact absurd hhead (by decide)
      | struct hx => exact absurd hhead (head?_of_isWord hx.1)
      | fn => exact absurd .fn hkind
    | void | string => exact absurd hhead (by decide)

theorem ofExpr_ofScalar (sc : Scalar) : (ofScalar sc).OfExpr := by
  cases sc with
  | int => exact .place .int
  | bool => exact .place .bool
  | void => exact .void

theorem not_bothComposite_ofScalar (sc : Scalar) : ¬ s.BothComposite (ofScalar sc) := by
  cases sc <;> exact fun h => by cases h

theorem BothComposite.symm (h : s.BothComposite t) : t.BothComposite s := by
  cases h with
  | fn => exact .fn
  | structDef => exact .structDef
  | struct => exact .struct

/-- What is no composite and is the type of a place is a word. -/
theorem movable_of_not_composite (hs : s.OfPlace) (h : ¬ s.IsComposite) : s.Movable := by
  cases hs with
  | int => exact .inl rfl
  | bool => exact .inr (.inl rfl)
  | struct => exact absurd .struct h
  | fn => exact absurd .fn h

end Ty

/-! ## Expressions -/

/-- The structs around have names that the lexer makes. -/
def Surroundings.Named (v : Surroundings) : Prop :=
  ∀ sd, Decl.struct sd ∈ v.decls → (Token.ident sd.name.name).Wf

open Binding Grammar

section

variable {p : Program} {a : Annotations} {v : Surroundings}

theorem ofPlace_of_varBound (hn : v.Named) {g : Bool} {x : VarDecl} {k : SymbolId}
    (h : VarBound v.env a g x k) : (Decl.var x).ty.OfPlace := by
  obtain ⟨-, s, -, -, -, htype⟩ := h
  cases hx : x.type with
  | scalar sc =>
    rw [hx] at htype
    rw [Decl.ty, hx, Ty.ofSpec]
    cases sc with
    | int => exact .int
    | bool => exact .bool
    | void => exact absurd rfl htype.1
  | struct i =>
    rw [hx] at htype
    obtain ⟨sd, -, hsd, hname, -⟩ := htype
    rw [Decl.ty, hx, Ty.ofSpec, ← hname]
    exact .struct (hn sd (Surroundings.mem_env_struct.1 hsd))

/-- A place has the type of a place. -/
theorem ofPlace_of_denotes (hr : Resolved p a) (hn : v.Named) {q : Place}
    (h : (Expr.place q).Settled v a) {d : Decl} (hd : v.Denotes q d) : d.ty.OfPlace := by
  obtain ⟨hv, ⟨k, hk⟩, -, hw⟩ := h
  obtain ⟨-, -, hvar⟩ := hd.links hv hr hw hk
  cases d with
  | var x =>
    obtain ⟨g, hg⟩ := hvar x rfl
    exact ofPlace_of_varBound hn hg
  | struct sd =>
    cases hd with
    | var hmeans => cases hmeans.value
  | fn f => exact .fn

theorem HasType.ofExpr (hr : Resolved p a) (hn : v.Named) {e : Expr} {ty : Ty}
    (hs : e.Settled v a) (h : HasType v e ty) : ty.OfExpr := by
  cases h with
  | place hq => exact .place (ofPlace_of_denotes hr hn hs hq)
  | assign hq => exact .place (ofPlace_of_denotes hr hn hs.target hq)
  | call _ hfn =>
    obtain ⟨f, -, -, rfl⟩ := Decl.fn_of_ty hfn
    exact Ty.ofExpr_ofScalar f.returns
  | str => exact .string
  | int | negate | arith => exact .place .int
  | bool | not | logical | order | equality => exact .place .bool

/-- The place stands for something that can be moved. -/
def Place.Moves (v : Surroundings) (q : Place) : Prop := ∃ d, v.Denotes q d ∧ d.ty.Movable

mutual

/-- Where an expression can be moved if it is a place, so can all places in it. -/
theorem HasType.moves (hr : Resolved p a) (hn : v.Named) : ∀ (e : Expr) {ty : Ty},
    e.Settled v a → HasType v e ty → (∀ q, e = .place q → ty.OfPlace → ty.Movable) →
    ∀ q ∈ e.moved, q.Moves v
  | .int .., _, _, _, _ | .str .., _, _, _, _ | .bool .., _, _, _, _ => by simp [Expr.moved]
  | .place q, _, hs, .place hq, hty => by
    rw [Expr.moved, List.forall_mem_singleton]
    exact ⟨_, hq, hty q rfl (ofPlace_of_denotes hr hn hs hq)⟩
  | .assign _ target value, _, hs, .assign hq he hkind hsame, hty => by
    have hd := ofPlace_of_denotes hr hn hs.target hq
    have hv := he.ofExpr hr hn hs.value
    rw [Expr.moved, List.forall_mem_cons]
    refine ⟨⟨_, hq, Ty.movable_of_same hd hv hsame hkind⟩, ?_⟩
    exact HasType.moves hr hn value hs.value he fun _ _ ht =>
      Ty.movable_of_same ht (.place hd) hsame.symm fun h => hkind h.symm
  | .call _ _ args, _, hs, .call _ hfn hargs hsame, _ => by
    obtain ⟨f, -, rfl, -⟩ := Decl.fn_of_ty hfn
    exact HasTypes.moves hr hn args hs.args hargs hsame
  | .unary _ _ operand, _, hs, .negate he, _ =>
    HasType.moves hr hn operand hs.operand he fun _ _ _ => .inl rfl
  | .unary _ _ operand, _, hs, .not he, _ =>
    HasType.moves hr hn operand hs.operand he fun _ _ _ => .inr (.inl rfl)
  | .binary _ _ left right, _, hs, .arith hl hr', _
  | .binary _ _ left right, _, hs, .order hl hr', _ => by
    rw [Expr.moved, List.forall_mem_append]
    exact ⟨HasType.moves hr hn left hs.left hl fun _ _ _ => .inl rfl,
      HasType.moves hr hn right hs.right hr' fun _ _ _ => .inl rfl⟩
  | .binary _ _ left right, _, hs, .logical hl hr', _ => by
    rw [Expr.moved, List.forall_mem_append]
    exact ⟨HasType.moves hr hn left hs.left hl fun _ _ _ => .inr (.inl rfl),
      HasType.moves hr hn right hs.right hr' fun _ _ _ => .inr (.inl rfl)⟩
  | .binary _ _ left right, _, hs, .equality hl hr' _ hkind hsame, _ => by
    have hl' := hl.ofExpr hr hn hs.left
    have hr'' := hr'.ofExpr hr hn hs.right
    rw [Expr.moved, List.forall_mem_append]
    exact ⟨HasType.moves hr hn left hs.left hl fun _ _ ht =>
        Ty.movable_of_same ht hr'' hsame hkind,
      HasType.moves hr hn right hs.right hr' fun _ _ ht =>
        Ty.movable_of_same ht hl' hsame.symm fun h => hkind h.symm⟩

theorem HasTypes.moves (hr : Resolved p a) (hn : v.Named) : ∀ (es : List Expr) {tys : List Ty}
    {ps : List Param}, (∀ e ∈ es, e.Settled v a) → HasTypes v es tys →
    List.Forall₂ Ty.Same tys (ps.map (.ofScalar ·.type)) → ∀ q ∈ Expr.allMoved es, q.Moves v
  | [], _, _, _, _, _ => by simp [Expr.allMoved]
  | e :: es, _, ps, hs, .cons he hes, hsame => by
    cases ps with
    | nil => cases hsame
    | cons x ps =>
      rw [List.map_cons, List.forall₂_cons] at hsame
      rw [Expr.allMoved, List.forall_mem_append]
      exact ⟨HasType.moves hr hn e (hs e (.head _)) he fun _ _ ht =>
          Ty.movable_of_same ht (Ty.ofExpr_ofScalar x.type) hsame.1
            (Ty.not_bothComposite_ofScalar x.type),
        HasTypes.moves hr hn es (fun e he => hs e (.tail _ he)) hes hsame.2⟩

end

/-! ## Statements -/

mutual

theorem StmtTyped.moves (hr : Resolved p a) {sc : Scalar} : ∀ (st : Stmt) {v : Surroundings},
    v.Named → (∀ r ∈ st.exprs v, r.2.Settled r.1 a) → StmtTyped (.ofScalar sc) v st →
    ∀ r ∈ st.exprs v, ∀ q ∈ r.2.moved, q.Moves r.1
  | .assign .., v, hn, hs, .assign h => by
    rw [Stmt.exprs, List.forall_mem_singleton] at hs ⊢
    exact HasType.moves hr hn _ hs h (by simp)
  | .increment _ _, v, hn, hs, .increment h | .decrement _ _, v, hn, hs, .decrement h => by
    rw [Stmt.exprs, List.forall_mem_singleton] at hs ⊢
    exact HasType.moves hr hn _ hs h fun _ _ _ => .inl rfl
  | .read _ _, v, hn, hs, .read h hkind | .write _ _, v, hn, hs, .write h hkind _ => by
    rw [Stmt.exprs, List.forall_mem_singleton] at hs ⊢
    exact HasType.moves hr hn _ hs h fun _ _ ht => Ty.movable_of_not_composite ht hkind
  | .ifThen _ _ b, v, hn, hs, .ifThen he hb | .whileLoop _ _ b, v, hn, hs, .whileLoop he hb => by
    rw [Stmt.exprs, List.forall_mem_cons] at hs ⊢
    exact ⟨HasType.moves hr hn _ hs.1 he fun _ _ _ => .inr (.inl rfl),
      BodyTyped.moves hr b hn hs.2 hb⟩
  | .ifElse _ _ b b', v, hn, hs, .ifElse he hb hb' => by
    rw [Stmt.exprs, List.forall_mem_cons, List.forall_mem_append] at hs ⊢
    exact ⟨HasType.moves hr hn _ hs.1 he fun _ _ _ => .inr (.inl rfl),
      BodyTyped.moves hr b hn hs.2.1 hb, BodyTyped.moves hr b' hn hs.2.2 hb'⟩
  | .call .., v, hn, hs, .call h => by
    rw [Stmt.exprs, List.forall_mem_singleton] at hs ⊢
    exact HasType.moves hr hn _ hs h (by simp)
  | .ret _ none, v, _, _, _ => by simp [Stmt.exprs]
  | .ret _ (some _), v, hn, hs, .retValue _ he hsame => by
    rw [Stmt.exprs, List.forall_mem_singleton] at hs ⊢
    exact HasType.moves hr hn _ hs he fun _ _ ht =>
      Ty.movable_of_same ht (Ty.ofExpr_ofScalar sc) hsame (Ty.not_bothComposite_ofScalar sc)

theorem BodyTyped.moves (hr : Resolved p a) {sc : Scalar} : ∀ (b : Body) {v : Surroundings},
    v.Named → (∀ r ∈ b.exprs v, r.2.Settled r.1 a) → BodyTyped (.ofScalar sc) v b →
    ∀ r ∈ b.exprs v, ∀ q ∈ r.2.moved, q.Moves r.1
  | .block _ ss, _, hn, hs, .block h => StmtsTyped.moves hr ss hn hs h

theorem StmtsTyped.moves (hr : Resolved p a) {sc : Scalar} : ∀ (ss : List Stmt) {v : Surroundings},
    v.Named → (∀ r ∈ Stmt.manyExprs v ss, r.2.Settled r.1 a) → StmtsTyped (.ofScalar sc) v ss →
    ∀ r ∈ Stmt.manyExprs v ss, ∀ q ∈ r.2.moved, q.Moves r.1
  | [], v, _, _, _ => by simp [Stmt.manyExprs]
  | st :: ss, v, hn, hs, .cons h hss => by
    rw [Stmt.manyExprs, List.forall_mem_append] at hs ⊢
    exact ⟨StmtTyped.moves hr st hn hs.1 h, StmtsTyped.moves hr ss hn hs.2 hss⟩

end

/-! ## Programs -/

mutual

/-- The statements of a function have one and the same program around them. -/
theorem Stmt.decls_of_exprs : ∀ (st : Stmt) (v : Surroundings), ∀ r ∈ st.exprs v,
    r.1.decls = v.decls
  | .assign .., v | .increment .., v | .decrement .., v | .read .., v | .write .., v
  | .call .., v | .ret _ (some _), v => by
    rw [Stmt.exprs, List.forall_mem_singleton]
  | .ret _ none, v => by simp [Stmt.exprs]
  | .ifThen _ _ b, v | .whileLoop _ _ b, v => by
    rw [Stmt.exprs, List.forall_mem_cons]
    exact ⟨rfl, Body.decls_of_exprs b v⟩
  | .ifElse _ _ b b', v => by
    rw [Stmt.exprs, List.forall_mem_cons, List.forall_mem_append]
    exact ⟨rfl, Body.decls_of_exprs b v, Body.decls_of_exprs b' v⟩

theorem Body.decls_of_exprs : ∀ (b : Body) (v : Surroundings), ∀ r ∈ b.exprs v,
    r.1.decls = v.decls
  | .block ds ss, v => Stmt.decls_of_manyExprs ss (v.enter ds)

theorem Stmt.decls_of_manyExprs : ∀ (ss : List Stmt) (v : Surroundings),
    ∀ r ∈ Stmt.manyExprs v ss, r.1.decls = v.decls
  | [], v => by simp [Stmt.manyExprs]
  | st :: ss, v => by
    rw [Stmt.manyExprs, List.forall_mem_append]
    exact ⟨Stmt.decls_of_exprs st v, Stmt.decls_of_manyExprs ss v⟩

end

/-- A symbol of one word. -/
def Symbol.IsWord (s : Symbol) : Prop := s.kind = .var ∧ (s.ty = .int ∨ s.ty = .bool)

/-- A variable that is a struct named `string`. -/
def Symbol.IsString (s : Symbol) : Prop := (∃ k, s.kind = .structVar k) ∧ s.ty = .struct "string"

/-- The symbol of a place that can be moved. -/
theorem symbol_of_moves (hr : Resolved p a) {q : Place} (h : (Expr.place q).Settled v a)
    (hq : q.Moves v) :
    ∃ s, a.symbolOf? q.last.id = some s ∧
      (s.IsWord ∨ s.IsString ∧ ∃ sd, Decl.struct sd ∈ v.decls ∧ sd.name.name = "string") := by
  obtain ⟨hv, ⟨k, hk⟩, -, hw⟩ := h
  obtain ⟨d, hd, hmove⟩ := hq
  obtain ⟨-, hlq, hvar⟩ := hd.links hv hr hw hk
  have hx : ∃ x, d = .var x := by
    cases d with
    | var x => exact ⟨x, rfl⟩
    | struct sd => simp [Decl.ty, Ty.Movable] at hmove
    | fn f => simp [Decl.ty, Ty.Movable] at hmove
  obtain ⟨x, rfl⟩ := hx
  obtain ⟨g, -, s, hs, -, -, htype⟩ := hvar x rfl
  refine ⟨s, (hr.symbolOf? hlq).trans hs, ?_⟩
  rw [Decl.ty] at hmove
  cases hxt : x.type with
  | scalar sc =>
    rw [hxt] at htype hmove
    obtain ⟨-, hkind, hty⟩ := htype
    refine .inl ⟨hkind, ?_⟩
    rw [hty]
    cases sc with
    | int => exact .inl rfl
    | bool => exact .inr rfl
    | void => simp [Ty.ofSpec, Ty.ofScalar, Ty.Movable] at hmove
  | struct i =>
    rw [hxt] at htype hmove
    obtain ⟨sd, k', hsd, hname, -, -, hkind, hty⟩ := htype
    have hi : i.name = "string" := by simpa [Ty.ofSpec, Ty.Movable] using hmove
    rw [hi] at hname hty
    exact .inr ⟨⟨⟨k', hkind⟩, hty⟩, sd, Surroundings.mem_env_struct.1 hsd, hname⟩

end

theorem Session.clean_of_check {s : Session} {p : Program} {a b : Annotations}
    (h : (s.check p a).1 = .ok (true, b)) :
    (Typing.program a p).Clean () ∧ b = a.withTypes (Typing.program a p).types := by
  simp only [Session.check, checkTypes] at h
  cases hresult : (Typing.program a p).result with
  | error d => simp [hresult, Except.map] at h
  | ok u =>
    simp only [hresult, Except.map, Except.ok.injEq, Prod.mk.injEq, List.isEmpty_iff] at h
    exact ⟨⟨hresult, h.1⟩, h.2.symm⟩

/-- **Only words are moved.** Where nothing is wrong with a program that was read from a text, every
place that its code loads from or stores to is linked to a variable of type `int` or `bool`, or else
to one that is a struct, and the struct is named `string`. -/
theorem moved_words {source : String} {ts : Lexer.Tokens} {p : Program} {s s' : Session}
    {a b : Annotations} (hlex : tokenize source = .ok ts) (hparse : parse ts.lexemes = .ok p)
    (hbind : (s.bind p .empty).1 = .ok (true, a)) (hcheck : (s'.check p a).1 = .ok (true, b))
    {before after : List Decl} {f : FnDecl} (hsplit : p.decls = before ++ .fn f :: after)
    {v : Surroundings} {e : Expr} (he : (v, e) ∈ f.exprs before) {q : Place} (hq : q ∈ e.moved) :
    ∃ sy, b.symbolOf? q.last.id = some sy ∧
      (sy.IsWord ∨ sy.IsString ∧ ∃ sd, Decl.struct sd ∈ p.decls ∧ sd.name.name = "string") := by
  obtain ⟨hr, hp⟩ := resolved_of_bind hlex hparse hbind
  obtain ⟨hw, -⟩ := wf_of_parse hlex hparse
  have hsettled := fun before f after
    (hsplit : p.decls = before ++ .fn f :: after) => hr.exprs_settled hp hw hsplit
  obtain ⟨hclean, rfl⟩ := Session.clean_of_check hcheck
  have hwell := ((Typing.program_clean hr hsettled).1 hclean).fns before f after hsplit
  have hsub : ∀ d ∈ (f.surroundings before).decls, d ∈ p.decls := by
    intro d hd
    rw [hsplit]
    have : d ∈ before ∨ d = .fn f := by simpa [FnDecl.surroundings] using hd
    rcases this with h | rfl <;> simp_all
  have hn : (f.surroundings before).Named := fun sd hsd =>
    hw (.ident sd.name.name) (List.mem_flatMap.2 ⟨_, hsub _ hsd, by simp [Decl.tokens]⟩)
  have hall := hsettled before f after hsplit
  have hmoves := StmtsTyped.moves hr f.body.stmts hn hall hwell (v, e) he q hq
  have hpart := Expr.settled_parts (hall (v, e) he) _ (e.parts_of_moved hq)
  obtain ⟨sy, hsy, hcases⟩ := symbol_of_moves hr hpart hmoves
  refine ⟨sy, ?_, hcases.imp_right fun h => ⟨h.1, ?_⟩⟩
  · rw [Annotations.withTypes_eq]
    exact hsy
  · obtain ⟨sd, hsd, hname⟩ := h.2
    have hdecls : v.decls = (f.surroundings before).decls :=
      Stmt.decls_of_manyExprs f.body.stmts _ (v, e) he
    exact ⟨sd, hsub _ (hdecls ▸ hsd), hname⟩

/-- A text that was seen to be checked, with a place that is moved in the function behind its first
`n` declarations, and a test that its symbol was seen to pass. -/
theorem exists_of_moved (source : String) (n : Nat) (test : Symbol → Bool)
    (h : ((tokenize source).toOption.any fun ts => (parse ts.lexemes).toOption.any fun p =>
      ((Session.new "").bind p .empty).1.toOption.any fun r => r.1 &&
        ((Session.new "").check p r.2).1.toOption.any fun c => c.1 &&
          ((p.decls.drop n).head?.bind Decl.fn?).any fun f =>
            (f.exprs (p.decls.take n)).any fun r => r.2.moved.any fun q =>
              (c.2.symbolOf? q.last.id).any test) = true) :
    ∃ ts p a b f after v e q sy, tokenize source = .ok ts ∧ parse ts.lexemes = .ok p ∧
      ((Session.new "").bind p .empty).1 = .ok (true, a) ∧
      ((Session.new "").check p a).1 = .ok (true, b) ∧
      p.decls = p.decls.take n ++ .fn f :: after ∧ (v, e) ∈ f.exprs (p.decls.take n) ∧
      q ∈ e.moved ∧ b.symbolOf? q.last.id = some sy ∧ test sy = true := by
  simp only [Option.any_eq_true, List.any_eq_true, Bool.and_eq_true] at h
  obtain ⟨ts, hts, p, hp, ⟨ra, a⟩, ha, rfl, ⟨rb, b⟩, hb, rfl, f, hf, h⟩ := h
  obtain ⟨⟨v, e⟩, he, q, hq, sy, hsy, ht⟩ := h
  obtain ⟨d, hd, hfn⟩ := Option.bind_eq_some_iff.1 hf
  obtain ⟨after, hafter⟩ := List.head?_eq_some_iff.1 hd
  obtain rfl : d = .fn f := by
    cases d with
    | var d => cases hfn
    | struct d => cases hfn
    | fn g => rw [Option.some.inj hfn]
  refine ⟨ts, p, a, b, f, after, v, e, q, sy, eq_ok_of_toOption hts, eq_ok_of_toOption hp,
    eq_ok_of_toOption ha, eq_ok_of_toOption hb, ?_, he, hq, hsy, ht⟩
  rw [← hafter, List.take_append_drop]

/-- A field of a struct that is read into, where no struct is named `string`. -/
theorem moved_words_field :
    ∃ ts p a b f after v e q sy,
      tokenize "struct P \x7b int x; \x7d; struct P g; void main() \x7b cin >> g.x; \x7d" = .ok ts ∧
      parse ts.lexemes = .ok p ∧ ((Session.new "").bind p .empty).1 = .ok (true, a) ∧
      ((Session.new "").check p a).1 = .ok (true, b) ∧
      p.decls = p.decls.take 2 ++ .fn f :: after ∧ (v, e) ∈ f.exprs (p.decls.take 2) ∧
      q ∈ e.moved ∧ b.symbolOf? q.last.id = some sy ∧ sy.name = "x" ∧ sy.IsWord := by
  obtain ⟨ts, p, a, b, f, after, v, e, q, sy, hlex, hparse, hbind, hcheck, hsplit, he, hq, hsy, ht⟩ :=
    exists_of_moved "struct P \x7b int x; \x7d; struct P g; void main() \x7b cin >> g.x; \x7d" 2
      (fun sy => sy.name = "x" ∧ sy.ty ≠ .struct "string") (by decide +kernel)
  simp only [decide_eq_true_eq] at ht
  obtain ⟨sy', hsy', hcases⟩ := moved_words hlex hparse hbind hcheck hsplit he hq
  obtain rfl := Option.some.inj (hsy.symm.trans hsy')
  exact ⟨ts, p, a, b, f, after, v, e, q, sy, hlex, hparse, hbind, hcheck, hsplit, he, hq, hsy, ht.1,
    hcases.resolve_right fun h => ht.2 h.1.2⟩

/-- A string is stored into a struct that is named `string`. -/
theorem string_moves_whole :
    ∃ ts p a b f after v e q sy,
      tokenize "struct string \x7b int a; \x7d; struct string s; void main() \x7b s = \"x\"; \x7d" =
        .ok ts ∧
      parse ts.lexemes = .ok p ∧ ((Session.new "").bind p .empty).1 = .ok (true, a) ∧
      ((Session.new "").check p a).1 = .ok (true, b) ∧
      p.decls = p.decls.take 2 ++ .fn f :: after ∧ (v, e) ∈ f.exprs (p.decls.take 2) ∧
      q ∈ e.moved ∧ b.symbolOf? q.last.id = some sy ∧ ¬ sy.IsWord := by
  obtain ⟨ts, p, a, b, f, after, v, e, q, sy, hlex, hparse, hbind, hcheck, hsplit, he, hq, hsy, ht⟩ :=
    exists_of_moved
      "struct string \x7b int a; \x7d; struct string s; void main() \x7b s = \"x\"; \x7d" 2
      (fun sy => sy.ty = .struct "string") (by decide +kernel)
  refine ⟨ts, p, a, b, f, after, v, e, q, sy, hlex, hparse, hbind, hcheck, hsplit, he, hq, hsy, ?_⟩
  rintro ⟨-, hty⟩
  simp only [decide_eq_true_eq] at ht
  simp [ht] at hty

end FlatC
