import Mathlib.Logic.Relation
import FlatC.Proofs.Binding.Resolved
import FlatC.Proofs.Ensures

/-!
# The arena of symbols

Symbols get their numbers in the order in which they are found, and what a symbol refers to is found
before it: the struct of a variable, and the fields of a struct. So the symbols are in order
(`Annotations.Arena`), and no struct contains itself, whatever was reported. A step of binding takes
notes that are in order, with scopes that fit them (`Annotations.Ordered`), to notes that are so
again, and only functions and structs add anything but variables (`Annotations.Gains`).
-/

namespace FlatC

/-- Where a name is declared, a name that is found was found before or is that one. -/
theorem Scope.lookup_of_declare {sc sc' : Scope} {x y : String} {k id : SymbolId}
    (h : sc.declare x id = .ok sc') (hy : sc'.lookup y = some k) :
    sc.lookup y = some k ∨ y = x ∧ k = id := by
  rw [lookup_eq_entries, entries_of_declare h, List.lookup_append, ← lookup_eq_entries,
    Option.or_eq_some_iff] at hy
  rcases hy with hy | ⟨-, hy⟩
  · exact .inl hy
  · rw [List.lookup_cons] at hy
    split at hy
    next heq => exact .inr ⟨eq_of_beq heq, (Option.some.inj hy).symm⟩
    next => cases hy

theorem Symbol.isFunction_iff {s : Symbol} :
    s.isFunction = true ↔ ∃ info, s.fnInfo? = some info := by
  rw [isFunction, Option.isSome_iff_exists]

theorem Symbol.isStructDef_iff {s : Symbol} :
    s.isStructDef = true ↔ ∃ fields, s.fields? = some fields := by
  rw [isStructDef, Option.isSome_iff_exists]

namespace Annotations

/-- The field of that name, which has been found. -/
def HasField (a : Annotations) (x : String) (i : SymbolId) : Prop :=
  ∃ f, a.symbol? i = some f ∧ f.name = x ∧ f.isGlobal = false

/-- The struct whose values have the type `ty`, which has been found. -/
def HasStruct (a : Annotations) (j : SymbolId) (ty : Ty) : Prop :=
  ∃ sd, a.symbol? j = some sd ∧ sd.isStructDef = true ∧ ty = .struct sd.name

/-- The symbol of number `k` refers to those before it, and they are what it takes them for. -/
structure Founded (a : Annotations) (k : SymbolId) (s : Symbol) : Prop where
  definition : ∀ {j}, s.definition? = some j → j < k ∧ a.HasStruct j s.ty
  field : ∀ {fields x i}, s.fields? = some fields → fields.lookup x = some i →
    i < k ∧ a.HasField x i
  function : ∀ {info}, s.fnInfo? = some info → s.ty = .fn info.params info.ret

/-- The symbols are in order, and names are linked to symbols that there are. -/
structure Arena (a : Annotations) : Prop where
  link : ∀ {i k}, a.linked? i = some k → k < a.symbols.size
  founded : ∀ {k s}, a.symbol? k = some s → a.Founded k s

/-- What is in scope has a symbol, and a struct is in scope under its key. -/
def Tabled (a : Annotations) (t : ScopeTable) : Prop :=
  ∀ sc ∈ t.scopes, ∀ {x k}, sc.lookup x = some k →
    ∃ s, a.symbol? k = some s ∧ (s.isStructDef = true → x = structKey s.name)

structure Ordered (a : Annotations) (t : ScopeTable) : Prop where
  arena : a.Arena
  tabled : a.Tabled t

/-- `b` has all that was noted in `a`, and what is new in it are variables. -/
structure Gains (a b : Annotations) : Prop where
  link : ∀ {i k}, a.Links i k → b.Links i k
  size : a.symbols.size ≤ b.symbols.size
  kept : ∀ {k}, k < a.symbols.size → b.symbol? k = a.symbol? k
  plain : ∀ {k s}, a.symbols.size ≤ k → b.symbol? k = some s →
    s.isFunction = false ∧ s.isStructDef = false

section

variable {a b c : Annotations} {t t' : ScopeTable} {k : SymbolId} {s : Symbol}

theorem Gains.refl (a : Annotations) : a.Gains a :=
  ⟨id, Nat.le_refl _, fun _ => rfl, fun hk hs => absurd (symbol?_lt hs) (Nat.not_lt.2 hk)⟩

theorem Gains.symbol (h : a.Gains b) (hs : a.symbol? k = some s) : b.symbol? k = some s :=
  (h.kept (symbol?_lt hs)).trans hs

theorem Gains.trans (h : a.Gains b) (h' : b.Gains c) : a.Gains c where
  link hl := h'.link (h.link hl)
  size := Nat.le_trans h.size h'.size
  kept hk := (h'.kept (Nat.lt_of_lt_of_le hk h.size)).trans (h.kept hk)
  plain {k s} hk hs := by
    rcases Nat.lt_or_ge k b.symbols.size with hlt | hge
    · exact h.plain hk ((h'.kept hlt).symm.trans hs)
    · exact h'.plain hge hs

/-- A function or a struct that is there now was there before. -/
theorem Gains.old (h : a.Gains b) (hs : b.symbol? k = some s)
    (hkind : s.isFunction = true ∨ s.isStructDef = true) : a.symbol? k = some s := by
  rcases Nat.lt_or_ge k a.symbols.size with hlt | hge
  · exact (h.kept hlt).symm.trans hs
  · obtain ⟨hf, hd⟩ := h.plain hge hs
    simp [hf, hd] at hkind

theorem gains_link (node : NodeId) (id : SymbolId) : a.Gains (a.link node id) :=
  ⟨fun hl => links_link.2 (.inr hl), Nat.le_refl _, fun _ => rfl, (Gains.refl a).plain⟩

theorem gains_add (hf : s.isFunction = false) (hd : s.isStructDef = false) :
    a.Gains (a.add s).2 where
  link hl := hl
  size := by rw [size_add]; exact Nat.le_succ _
  kept := symbol?_add_of_lt
  plain hk hs := by
    rcases symbol?_add_eq_some hs with ⟨-, rfl⟩ | hs
    · exact ⟨hf, hd⟩
    · exact absurd (symbol?_lt hs) (Nat.not_lt.2 hk)

/-! ## What stays true of the notes -/

/-- A symbol that is there stays what it is. -/
def Retains (a b : Annotations) : Prop :=
  ∀ {k s}, a.symbol? k = some s → ∃ s', b.symbol? k = some s' ∧ s'.name = s.name ∧
    s'.isGlobal = s.isGlobal ∧ s'.isStructDef = s.isStructDef

theorem Gains.retains (h : a.Gains b) : a.Retains b :=
  fun hs => ⟨_, h.symbol hs, rfl, rfl, rfl⟩

theorem retains_add (s : Symbol) : a.Retains (a.add s).2 :=
  fun hs => ⟨_, (symbol?_add_of_lt (symbol?_lt hs)).trans hs, rfl, rfl, rfl⟩

theorem HasField.retain {x : String} (h : a.HasField x k) (hab : a.Retains b) :
    b.HasField x k := by
  obtain ⟨f, hf, hname, hg⟩ := h
  obtain ⟨f', hf', hname', hg', -⟩ := hab hf
  exact ⟨f', hf', hname'.trans hname, hg'.trans hg⟩

theorem HasStruct.retain {ty : Ty} (h : a.HasStruct k ty) (hab : a.Retains b) :
    b.HasStruct k ty := by
  obtain ⟨sd, hsd, hdef, hty⟩ := h
  obtain ⟨sd', hsd', hname, -, hdef'⟩ := hab hsd
  exact ⟨sd', hsd', hdef'.trans hdef, by rw [hty, hname]⟩

theorem Founded.retain (h : a.Founded k s) (hab : a.Retains b) : b.Founded k s where
  definition hj := ⟨(h.definition hj).1, (h.definition hj).2.retain hab⟩
  field hf hx := ⟨(h.field hf hx).1, (h.field hf hx).2.retain hab⟩
  function := h.function

theorem Tabled.retain (h : a.Tabled t) (hab : a.Retains b) : b.Tabled t := by
  intro sc hsc x k hx
  obtain ⟨s, hs, hkey⟩ := h sc hsc hx
  obtain ⟨s', hs', hname, -, hdef⟩ := hab hs
  exact ⟨s', hs', by rwa [hname, hdef]⟩

theorem Tabled.of_scopes (h : a.Tabled t) (ht : ∀ sc ∈ t'.scopes, sc ∈ t.scopes) : a.Tabled t' :=
  fun sc hsc => h sc (ht sc hsc)

theorem Tabled.enter (h : a.Tabled t) : a.Tabled t.enter := by
  intro sc hsc x k hx
  rcases List.mem_cons.1 hsc with rfl | hsc
  · cases hx
  · exact h sc hsc hx

theorem Tabled.lookup (h : a.Tabled t) {x : String} (hx : t.lookup x = some k) :
    ∃ s, a.symbol? k = some s ∧ (s.isStructDef = true → x = structKey s.name) := by
  obtain ⟨sc, hsc, hx⟩ := List.exists_of_findSome?_eq_some hx
  exact h sc hsc hx

/-- A name that is declared joins the innermost scope. -/
theorem Tabled.declare (h : a.Tabled t) {key : String} (hs : a.symbol? k = some s)
    (hkey : s.isStructDef = true → key = structKey s.name) (ht : t.declare key k = .ok t') :
    a.Tabled t' := by
  unfold ScopeTable.declare at ht
  split at ht
  next inner hinner =>
    obtain rfl := Except.ok.inj ht
    intro sc hsc x i hx
    rcases List.mem_cons.1 hsc with rfl | hsc
    · rcases Scope.lookup_of_declare hinner hx with hx | ⟨rfl, rfl⟩
      · exact h _ (.head _) hx
      · exact ⟨s, hs, hkey⟩
    · exact h sc (.tail _ hsc) hx
  next => cases ht

theorem Arena.link' (h : a.Arena) (node : NodeId) (hk : k < a.symbols.size) :
    (a.link node k).Arena where
  link {i j} hl := by
    by_cases hi : i = node
    · subst hi
      rw [linked?, Annotations.link, NodeMap.get?_insert_self] at hl
      exact Option.some.inj hl ▸ hk
    · rw [linked?, Annotations.link, NodeMap.get?_insert_of_ne hi] at hl
      exact h.link hl
  founded hs := (h.founded hs).retain (gains_link node k).retains

theorem Arena.add (h : a.Arena) (hs : a.Founded a.symbols.size s) : (a.add s).2.Arena where
  link hl := by
    rw [size_add]
    exact Nat.lt_succ_of_lt (h.link hl)
  founded hk := by
    rcases symbol?_add_eq_some hk with ⟨rfl, rfl⟩ | hk
    · exact hs.retain (retains_add _)
    · exact (h.founded hk).retain (retains_add s)

theorem retains_setParams (id : SymbolId) (ps : List Ty) :
    a.Retains (a.update id (·.setParams ps)) := by
  intro k s hs
  rw [symbol?_update]
  split
  next =>
    refine ⟨s.setParams ps, by rw [hs, Option.map_some], ?_⟩
    unfold Symbol.setParams
    split
    next info hinfo => exact ⟨rfl, rfl, by simp [Symbol.isStructDef, Symbol.fields?, hinfo]⟩
    next => exact ⟨rfl, rfl, rfl⟩
  next => exact ⟨s, hs, rfl, rfl, rfl⟩

theorem Founded.setParams (h : a.Founded k s) (ps : List Ty) : a.Founded k (s.setParams ps) := by
  unfold Symbol.setParams
  split
  next =>
    refine ⟨fun hj => (by cases hj), fun hf => (by cases hf), ?_⟩
    rintro _ ⟨⟩
    rfl
  next => exact h

theorem Arena.setParams (h : a.Arena) (id : SymbolId) (ps : List Ty) :
    (a.update id (·.setParams ps)).Arena where
  link hl := by
    rw [size_update]
    exact h.link hl
  founded {k s} hs := by
    rw [symbol?_update] at hs
    refine Founded.retain ?_ (retains_setParams id ps)
    split at hs
    next =>
      obtain ⟨s', hs', rfl⟩ := Option.map_eq_some_iff.1 hs
      exact (h.founded hs').setParams ps
    next => exact h.founded hs

end

theorem arena_empty : empty.Arena where
  link h := by cases h
  founded h := by simp [empty, symbol?] at h

theorem tabled_initial : empty.Tabled .initial := by
  intro sc hsc x k hx
  obtain rfl := List.mem_singleton.1 hsc
  cases hx

end Annotations

namespace Binding

open Annotations

variable {s : State} {t : ScopeTable}

/-- What a step of binding leaves that declares variables at most. -/
structure Moves (a : Annotations) (t : ScopeTable) (b : Annotations) : Prop where
  ordered : b.Ordered t
  gains : a.Gains b

namespace Moves

variable {a b c : Annotations} {t' : ScopeTable}

theorem refl (h : a.Ordered t) : Moves a t a := ⟨h, .refl a⟩

theorem trans (h : Moves a t b) (h' : Moves b t' c) : Moves a t' c :=
  ⟨h'.ordered, h.gains.trans h'.gains⟩

theorem enter (h : Moves a t b) : Moves a t.enter b :=
  ⟨⟨h.ordered.arena, h.ordered.tabled.enter⟩, h.gains⟩

theorem link (h : Moves a t b) (node : NodeId) {k : SymbolId} (hk : k < b.symbols.size) :
    Moves a t (b.link node k) :=
  ⟨⟨h.ordered.arena.link' node hk, h.ordered.tabled.retain (gains_link node k).retains⟩,
    h.gains.trans (gains_link node k)⟩

end Moves

/-! ## Uses -/

theorem report_moves (h : s.notes.Ordered t) (f : NameFault) (span : Span) :
    Ensures (report f span) s fun _ s' => Moves s.notes t s'.notes :=
  .modify (.refl h)

theorem link_moves (h : s.notes.Ordered t) (node : NodeId) {k : SymbolId}
    (hk : k < s.notes.symbols.size) :
    Ensures (link node k) s fun _ s' => Moves s.notes t s'.notes ∧ s'.notes.Links node k :=
  .modify ⟨(Moves.refl h).link node hk, links_link.2 (.inl ⟨rfl, rfl⟩)⟩

theorem symbol_ensures (k : SymbolId) :
    Ensures (symbol k) s fun sy s' => s' = s ∧ s.notes.symbol? k = some sy := by
  refine .getBind ?_
  split
  next sy hsy => exact .pure ⟨rfl, hsy⟩
  next => exact .throw

theorem ident_moves (h : s.notes.Ordered t) (i : Ident) :
    Ensures (ident t i) s fun _ s' => Moves s.notes t s'.notes := by
  unfold ident
  split
  next k hk =>
    obtain ⟨sy, hsy, -⟩ := h.tabled.lookup hk
    refine .bind (link_moves h i.id (symbol?_lt hsy)) ?_
    rintro _ s1 ⟨h1, -⟩
    exact .pure h1
  next => exact .bind (report_moves h _ _) fun _ s1 h1 => .pure h1

theorem access_ensures (k : SymbolId) (span : Span) :
    Ensures (access k span) s fun _ s' => s' = s := by
  refine .bind (symbol_ensures k) ?_
  rintro sy _ ⟨rfl, -⟩
  split
  · exact .pure rfl
  · exact .pure rfl

/-- A field that is found has a symbol. -/
theorem field?_ensures (h : s.notes.Arena) (k : SymbolId) (x : String) :
    Ensures (field? k x) s fun id? s' => s' = s ∧ ∀ i, id? = some i → i < s.notes.symbols.size := by
  refine .bind (symbol_ensures k) ?_
  rintro sy _ ⟨rfl, hsy⟩
  refine .pure ⟨rfl, fun i hi => ?_⟩
  obtain ⟨fields, hfields, hx⟩ := Option.bind_eq_some_iff.1 hi
  exact Nat.lt_trans ((h.founded hsy).field hfields hx).1 (symbol?_lt hsy)

theorem place_moves (q : Place) (h : s.notes.Ordered t) :
    Ensures (place t q) s fun _ s' => Moves s.notes t s'.notes := by
  induction q generalizing s with
  | var node name =>
    refine .bind (ident_moves h name) fun id? s1 h1 => ?_
    cases id? with
    | none => exact .pure h1
    | some k =>
      refine (access_ensures k name.span).mono ?_
      rintro _ _ rfl
      exact h1
  | field node base name ih =>
    refine .bind (ih h) fun acc s1 h1 => ?_
    cases acc with
    | bad => exact .pure h1
    | plain span =>
      exact .bind (report_moves h1.ordered _ _) fun _ s2 h2 => .pure (h1.trans h2)
    | struct definition =>
      refine .bind (field?_ensures h1.ordered.arena definition name.name) ?_
      rintro id? _ ⟨rfl, hlt⟩
      cases id? with
      | none =>
        exact .bind (report_moves h1.ordered _ _) fun _ s2 h2 => .pure (h1.trans h2)
      | some k =>
        refine .bind (link_moves h1.ordered name.id (hlt k rfl)) ?_
        rintro _ s2 ⟨h2, -⟩
        refine (access_ensures k name.span).mono ?_
        rintro _ _ rfl
        exact h1.trans h2

mutual

theorem expr_moves : ∀ (e : Expr) {s : State}, s.notes.Ordered t →
    Ensures (expr t e) s fun _ s' => Moves s.notes t s'.notes
  | .int .., _, h | .str .., _, h | .bool .., _, h => .pure (.refl h)
  | .place q, _, h => .bind (place_moves q h) fun _ _ h1 => .pure h1
  | .assign _ target value, _, h =>
    .bind (place_moves target h) fun _ _ h1 => (expr_moves value h1.ordered).mono fun _ _ => h1.trans
  | .call _ callee args, _, h =>
    .bind (ident_moves h callee) fun _ _ h1 => (exprs_moves args h1.ordered).mono fun _ _ => h1.trans
  | .unary _ _ operand, _, h => expr_moves operand h
  | .binary _ _ left right, _, h =>
    .bind (expr_moves left h) fun _ _ h1 => (expr_moves right h1.ordered).mono fun _ _ => h1.trans

theorem exprs_moves : ∀ (es : List Expr) {s : State}, s.notes.Ordered t →
    Ensures (exprs t es) s fun _ s' => Moves s.notes t s'.notes
  | [], _, h => .pure (.refl h)
  | e :: es, _, h =>
    .bind (expr_moves e h) fun _ _ h1 => (exprs_moves es h1.ordered).mono fun _ _ => h1.trans

end

/-! ## Variables -/

/-- The symbol of a variable or field of that name, before it has a number. -/
structure IsVariable (a : Annotations) (name : String) (sy : Symbol) : Prop where
  name : sy.name = name
  isGlobal : sy.isGlobal = false
  isFunction : sy.isFunction = false
  isStructDef : sy.isStructDef = false
  definition : ∀ {j}, sy.definition? = some j → a.HasStruct j sy.ty

/-- A struct that a type names has that name. -/
theorem structOf?_ensures (h : s.notes.Ordered t) (i : Ident) :
    Ensures (structOf? t i) s fun k? s' =>
      s' = s ∧ ∀ k, k? = some k → s.notes.HasStruct k (.struct i.name) := by
  unfold structOf?
  split
  next => exact .pure ⟨rfl, fun k hk => by cases hk⟩
  next k hk =>
    refine .bind (symbol_ensures k) ?_
    rintro sy _ ⟨rfl, hsy⟩
    refine .pure ⟨rfl, fun k' hk' => ?_⟩
    split at hk'
    next hdef =>
      obtain rfl := Option.some.inj hk'
      obtain ⟨sy', hsy', hkey⟩ := h.tabled.lookup hk
      obtain rfl := Option.some.inj (hsy.symm.trans hsy')
      exact ⟨sy, hsy, hdef, congrArg _ (structKey_inj (hkey hdef))⟩
    next => cases hk'

theorem ofType?_moves (h : s.notes.Ordered t) (d : VarDecl) :
    Ensures (ofType? t d) s fun sy? s' => Moves s.notes t s'.notes ∧
      ∀ sy, sy? = some sy → IsVariable s'.notes d.name.name sy := by
  unfold ofType?
  split
  next =>
    refine .bind (report_moves h _ _) fun _ s1 h1 => .pure ⟨h1, ?_⟩
    simp
  next =>
    refine .pure ⟨.refl h, ?_⟩
    rintro _ ⟨⟩
    exact ⟨rfl, rfl, rfl, rfl, fun hj => (by cases hj)⟩
  next i _ =>
    refine .bind (structOf?_ensures h i) ?_
    rintro k? _ ⟨rfl, hk⟩
    split
    next k =>
      have hstruct := hk k rfl
      obtain ⟨sd, hsd, -⟩ := hstruct
      refine .bind (link_moves h i.id (symbol?_lt hsd)) ?_
      rintro _ s1 ⟨h1, -⟩
      refine .pure ⟨h1, ?_⟩
      rintro _ ⟨⟩
      refine ⟨rfl, rfl, rfl, rfl, ?_⟩
      rintro _ ⟨⟩
      exact (hk k rfl).retain h1.gains.retains
    next =>
      refine .bind (report_moves h _ _) fun _ s1 h1 => .pure ⟨h1, ?_⟩
      simp

theorem symbolFor?_moves (h : s.notes.Ordered t) (taken : Bool) (d : VarDecl) :
    Ensures (symbolFor? t taken d) s fun sy? s' => Moves s.notes t s'.notes ∧
      ∀ sy, sy? = some sy → IsVariable s'.notes d.name.name sy := by
  refine .bind (ofType?_moves h d) ?_
  rintro sy? s1 ⟨h1, hsy⟩
  cases taken with
  | true =>
    refine .bind (report_moves h1.ordered _ _) fun _ s2 h2 => .pure ⟨h1.trans h2, ?_⟩
    simp
  | false => exact .pure ⟨h1, hsy⟩

/-- A symbol is added behind all others. -/
theorem add_ensures (sy : Symbol) : Ensures (add sy) s fun k s' =>
    k = s.notes.symbols.size ∧ s'.notes = (s.notes.add sy).2 := by
  intro k s' hrun
  obtain ⟨rfl, rfl⟩ := Prod.mk.inj (Except.ok.inj hrun)
  exact ⟨rfl, rfl⟩

theorem IsVariable.founded {a : Annotations} {name : String} {sy : Symbol}
    (h : IsVariable a name sy) : a.Founded a.symbols.size sy where
  definition hj := by
    obtain ⟨sd, hsd, hrest⟩ := h.definition hj
    exact ⟨symbol?_lt hsd, sd, hsd, hrest⟩
  field hf := by
    have := Symbol.isStructDef_iff.2 ⟨_, hf⟩
    rw [h.isStructDef] at this
    cases this
  function hinfo := by
    have := Symbol.isFunction_iff.2 ⟨_, hinfo⟩
    rw [h.isFunction] at this
    cases this

/-- A variable is added, and may be global now. -/
theorem addVariable_moves (h : s.notes.Ordered t) {name : String} {sy sy' : Symbol}
    (hsy : IsVariable s.notes name sy) (hkind : sy'.kind = sy.kind) (hty : sy'.ty = sy.ty) :
    Ensures (add sy') s fun k s' =>
      Moves s.notes t s'.notes ∧ s'.notes.symbol? k = some sy' := by
  refine (add_ensures sy').mono ?_
  rintro _ s1 ⟨rfl, hn⟩
  have hfounded : s.notes.Founded s.notes.symbols.size sy' := by
    have hf := hsy.founded
    refine ⟨fun hj => ?_, fun hfields => hf.field ?_, fun hinfo => ?_⟩
    · rw [hty]
      exact hf.definition (by rwa [Symbol.definition?, ← hkind])
    · rwa [Symbol.fields?, ← hkind]
    · rw [hty]
      exact hf.function (by rwa [Symbol.fnInfo?, ← hkind])
  have hfn : sy'.isFunction = false := by
    rw [← hsy.isFunction, Symbol.isFunction, Symbol.isFunction, Symbol.fnInfo?, hkind, Symbol.fnInfo?]
  have hdef : sy'.isStructDef = false := by
    rw [← hsy.isStructDef, Symbol.isStructDef, Symbol.isStructDef, Symbol.fields?, hkind,
      Symbol.fields?]
  rw [hn]
  exact ⟨⟨⟨h.arena.add hfounded, h.tabled.retain (retains_add sy')⟩, gains_add hfn hdef⟩,
    symbol?_add_self⟩

/-- The table with a name in it that was declared. -/
theorem declare_moves (h : s.notes.Ordered t) {key : String} {name : Ident} {k : SymbolId}
    {sy : Symbol} (hsy : s.notes.symbol? k = some sy)
    (hkey : sy.isStructDef = true → key = structKey sy.name) :
    Ensures (declare t key name k) s fun t' s' =>
      Moves s.notes t' s'.notes ∧ s'.notes.Links name.id k := by
  unfold declare
  split
  next => exact .throw
  next t' ht =>
    have h' : s.notes.Ordered t' := ⟨h.arena, h.tabled.declare hsy hkey ht⟩
    refine .bind (link_moves h' name.id (symbol?_lt hsy)) ?_
    intro _ s1 h1
    exact .pure h1

theorem varDecl_moves (h : s.notes.Ordered t) (d : VarDecl) :
    Ensures (varDecl t d) s fun t' s' => Moves s.notes t' s'.notes := by
  refine .bind (symbolFor?_moves h _ d) ?_
  rintro sy? s1 ⟨h1, hsy⟩
  cases sy? with
  | none => exact .pure h1
  | some sy =>
    have hvar := hsy sy rfl
    refine .bind (addVariable_moves h1.ordered hvar rfl rfl) ?_
    rintro k s2 ⟨h2, hk⟩
    refine (declare_moves h2.ordered hk fun hdef => ?_).mono ?_
    · have : sy.isStructDef = true := hdef
      rw [hvar.isStructDef] at this
      cases this
    · rintro t' s3 ⟨h3, -⟩
      exact (h1.trans h2).trans h3

theorem varDecls_moves (ds : List VarDecl) (h : s.notes.Ordered t) :
    Ensures (ds.foldlM varDecl t) s fun t' s' => Moves s.notes t' s'.notes :=
  .foldlM (fun _ _ d _ h1 => (varDecl_moves h1.ordered d).mono fun _ _ => h1.trans) (.refl h)

/-! ## Blocks -/

theorem leave_ensures : Ensures (leave t) s fun t' s' => s' = s ∧ t'.scopes = t.outer := by
  unfold leave ScopeTable.leave
  cases houter : t.outer with
  | nil => exact .throw
  | cons sc ss => exact .pure ⟨rfl, rfl⟩

theorem leave_moves {a : Annotations} (h : Moves a t s.notes) :
    Ensures (leave t) s fun t' s' => Moves a t' s'.notes := by
  refine leave_ensures.mono ?_
  rintro t' _ ⟨rfl, hscopes⟩
  refine ⟨⟨h.ordered.arena, h.ordered.tabled.of_scopes fun sc hsc => ?_⟩, h.gains⟩
  rw [hscopes] at hsc
  exact .tail _ hsc

/-- A block in a scope of its own. -/
theorem block_moves {a : Annotations} {b : Body} (h : Moves a t s.notes)
    (hb : Ensures (body t.enter b) s fun t' s' => Moves s.notes t' s'.notes) :
    Ensures (body t.enter b >>= leave) s fun t' s' => Moves a t' s'.notes :=
  .bind hb fun _ _ h1 => leave_moves (h.trans h1)

mutual

theorem stmt_moves : ∀ (st : Stmt) {s : State} {t : ScopeTable}, s.notes.Ordered t →
    Ensures (stmt t st) s fun t' s' => Moves s.notes t' s'.notes
  | .assign _ node target value, _, _, h =>
    .bind (expr_moves (.assign node target value) h) fun _ _ h1 => .pure h1
  | .increment _ target, _, _, h | .decrement _ target, _, _, h | .read _ target, _, _, h =>
    .bind (place_moves target h) fun _ _ h1 => .pure h1
  | .write _ value, _, _, h => .bind (expr_moves value h) fun _ _ h1 => .pure h1
  | .ifThen _ cond b, _, _, h | .whileLoop _ cond b, _, _, h =>
    .bind (expr_moves cond h) fun _ _ h1 => block_moves h1 (body_moves b h1.enter.ordered)
  | .ifElse _ cond b b', _, _, h =>
    .bind (expr_moves cond h) fun _ _ h1 =>
      .bind (body_moves b h1.enter.ordered) fun _ _ h2 =>
        .bind (leave_moves (h1.trans h2)) fun _ _ h3 =>
          block_moves h3 (body_moves b' h3.enter.ordered)
  | .call _ node callee args, _, _, h =>
    .bind (expr_moves (.call node callee args) h) fun _ _ h1 => .pure h1
  | .ret _ none, _, _, h => .pure (.refl h)
  | .ret _ (some value), _, _, h => .bind (expr_moves value h) fun _ _ h1 => .pure h1

theorem body_moves : ∀ (b : Body) {s : State} {t : ScopeTable}, s.notes.Ordered t →
    Ensures (body t b) s fun t' s' => Moves s.notes t' s'.notes
  | .block ds ss, _, _, h =>
    .bind (varDecls_moves ds h) fun _ _ h1 => (stmts_moves ss h1.ordered).mono fun _ _ => h1.trans

theorem stmts_moves : ∀ (ss : List Stmt) {s : State} {t : ScopeTable}, s.notes.Ordered t →
    Ensures (stmts t ss) s fun t' s' => Moves s.notes t' s'.notes
  | [], _, _, h => .pure (.refl h)
  | st :: ss, _, _, h =>
    .bind (stmt_moves st h) fun _ _ h1 => (stmts_moves ss h1.ordered).mono fun _ _ => h1.trans

end

/-! ## Structs and functions -/

/-- A function or a struct comes from a declaration, which its name is linked to. -/
structure Stems (ds : List Decl) (a : Annotations) (k : SymbolId) (sy : Symbol) : Prop where
  function : sy.isFunction = true → ∃ f, Decl.fn f ∈ ds ∧ a.Links f.name.id k ∧
    sy.name = f.name.name ∧ f.Described sy
  struct : sy.isStructDef = true → ∃ sd, Decl.struct sd ∈ ds ∧ a.Links sd.name.id k ∧
    sy.name = sd.name.name

/-- Every function and every struct comes from one of the declarations. -/
def Recorded (ds : List Decl) (a : Annotations) : Prop :=
  ∀ k sy, a.symbol? k = some sy → Stems ds a k sy

section

variable {ds : List Decl} {a b : Annotations} {k : SymbolId} {sy : Symbol}

theorem Stems.links (h : Stems ds a k sy) (hl : ∀ {i k}, a.Links i k → b.Links i k) :
    Stems ds b k sy where
  function hf := by
    obtain ⟨f, hmem, hlink, hrest⟩ := h.function hf
    exact ⟨f, hmem, hl hlink, hrest⟩
  struct hd := by
    obtain ⟨sd, hmem, hlink, hrest⟩ := h.struct hd
    exact ⟨sd, hmem, hl hlink, hrest⟩

theorem Stems.of_variable (hf : sy.isFunction = false) (hd : sy.isStructDef = false) :
    Stems ds a k sy :=
  ⟨fun h => by simp [hf] at h, fun h => by simp [hd] at h⟩

theorem Recorded.gain (h : Recorded ds a) (hg : a.Gains b) : Recorded ds b := by
  intro k sy hs
  rcases Nat.lt_or_ge k a.symbols.size with hlt | hge
  · exact (h k sy ((hg.kept hlt).symm.trans hs)).links hg.link
  · obtain ⟨hf, hd⟩ := hg.plain hge hs
    exact .of_variable hf hd

/-- The fields of a struct so far have been found. -/
def FieldsFound (a : Annotations) (fields : Scope) : Prop :=
  ∀ x i, fields.lookup x = some i → a.HasField x i

theorem FieldsFound.gain {fields : Scope} (h : FieldsFound a fields) (hg : a.Gains b) :
    FieldsFound b fields :=
  fun x i hx => (h x i hx).retain hg.retains

end

theorem fieldDecl_moves (h : s.notes.Ordered t) {fields : Scope} (hf : FieldsFound s.notes fields)
    (d : VarDecl) :
    Ensures (fieldDecl t fields d) s fun fields' s' =>
      Moves s.notes t s'.notes ∧ FieldsFound s'.notes fields' := by
  refine .bind (symbolFor?_moves h _ d) ?_
  rintro sy? s1 ⟨h1, hsy⟩
  cases sy? with
  | none => exact .pure ⟨h1, hf.gain h1.gains⟩
  | some sy =>
    have hvar := hsy sy rfl
    refine .bind (addVariable_moves h1.ordered hvar rfl rfl) ?_
    rintro k s2 ⟨h2, hk⟩
    split
    next => exact .throw
    next fields' hfields =>
      refine .bind (link_moves h2.ordered d.name.id (symbol?_lt hk)) ?_
      rintro _ s3 ⟨h3, -⟩
      have hmoves := (h1.trans h2).trans h3
      refine .pure ⟨hmoves, fun x i hx => ?_⟩
      rcases Scope.lookup_of_declare hfields hx with hx | ⟨rfl, rfl⟩
      · exact hf.gain hmoves.gains x i hx
      · exact ⟨sy, h3.gains.symbol hk, hvar.name, hvar.isGlobal⟩

theorem fieldDecls_moves (ds : List VarDecl) (h : s.notes.Ordered t) :
    Ensures (ds.foldlM (fieldDecl t) .empty) s fun fields s' =>
      Moves s.notes t s'.notes ∧ FieldsFound s'.notes fields := by
  refine .foldlM (fun fields s1 d _ h1 => ?_) ⟨.refl h, fun x i hx => (by cases hx)⟩
  refine (fieldDecl_moves h1.1.ordered h1.2 d).mono ?_
  rintro fields' s2 ⟨h2, hf2⟩
  exact ⟨h1.1.trans h2, hf2⟩

/-- What holds between the declarations of a program that has the declarations `ds`. -/
structure Reached (ds : List Decl) (t : ScopeTable) (a : Annotations) : Prop where
  ordered : a.Ordered t
  recorded : Recorded ds a

theorem Reached.moves {ds : List Decl} {a b : Annotations} {t' : ScopeTable} (h : Reached ds t a)
    (hm : Moves a t' b) : Reached ds t' b :=
  ⟨hm.ordered, h.recorded.gain hm.gains⟩

theorem structDecl_reached {ds : List Decl} {d : StructDecl} (hd : Decl.struct d ∈ ds)
    (h : Reached ds t s.notes) :
    Ensures (structDecl t d) s fun t' s' => Reached ds t' s'.notes := by
  unfold structDecl
  cases htaken : (t.lookupLocal (structKey d.name.name)).isSome with
  | true =>
    simp only [htaken, if_true]
    refine .bind (report_moves h.ordered _ _) fun _ s1 h1 => ?_
    refine .bind (fieldDecls_moves d.fields h1.ordered) ?_
    rintro fields s2 ⟨h2, -⟩
    exact .pure (h.moves (h1.trans h2))
  | false =>
    simp only [htaken, Bool.false_eq_true, if_false]
    refine .bind (fieldDecls_moves d.fields h.ordered) ?_
    rintro fields s1 ⟨h1, hf⟩
    refine .bind (add_ensures _) ?_
    rintro _ s2 ⟨rfl, hn2⟩
    have hnew := symbol?_add_self (a := s1.notes)
      (s := { Symbol.structDef d.name.name fields d.name.span with isGlobal := t.atProgramLevel })
    have hfounded : s1.notes.Founded s1.notes.symbols.size
        { Symbol.structDef d.name.name fields d.name.span with isGlobal := t.atProgramLevel } := by
      refine ⟨fun hj => (by cases hj), ?_, fun hinfo => (by cases hinfo)⟩
      rintro _ x i ⟨⟩ hx
      obtain ⟨f, hsym, hrest⟩ := hf x i hx
      exact ⟨symbol?_lt hsym, f, hsym, hrest⟩
    have hordered : s2.notes.Ordered t := by
      rw [hn2]
      exact ⟨h1.ordered.arena.add hfounded, h1.ordered.tabled.retain (retains_add _)⟩
    rw [← hn2] at hnew
    refine (declare_moves hordered hnew fun _ => rfl).mono ?_
    rintro t' s3 ⟨h3, hlink⟩
    refine ⟨h3.ordered, fun k sy hk => ?_⟩
    rcases Nat.lt_or_ge k s2.notes.symbols.size with hlt | hge
    · have hk2 := (h3.gains.kept hlt).symm.trans hk
      rw [hn2] at hk2
      rcases symbol?_add_eq_some hk2 with ⟨rfl, rfl⟩ | hk1
      · exact ⟨fun hfn => (by cases hfn), fun _ => ⟨d, hd, hlink, rfl⟩⟩
      · refine (h.recorded.gain h1.gains k sy hk1).links fun hl => h3.gains.link ?_
        rw [hn2]
        exact hl
    · obtain ⟨hfn, hdef⟩ := h3.gains.plain hge hk
      exact .of_variable hfn hdef

/-- A function that has a name and is to be told its parameters, if its name was free. -/
theorem fnName_ensures (h : s.notes.Ordered t) (d : FnDecl) :
    Ensures (fnName t d) s fun r s' => s'.notes.Ordered r.2 ∧
      ((r.1 = none ∧ s.notes.Gains s'.notes) ∨
        r.1 = some s.notes.symbols.size ∧ s'.notes.Links d.name.id s.notes.symbols.size ∧
        (s.notes.add (fnSymbol d t.atProgramLevel)).2.Gains s'.notes) := by
  unfold fnName
  split
  next =>
    refine .bind (report_moves h _ _) fun _ s1 h1 => .pure ⟨h1.ordered, .inl ⟨rfl, h1.gains⟩⟩
  next =>
    refine .bind (add_ensures (fnSymbol d t.atProgramLevel)) ?_
    rintro _ s1 ⟨rfl, hn1⟩
    have hfounded : s.notes.Founded s.notes.symbols.size (fnSymbol d t.atProgramLevel) := by
      refine ⟨fun hj => (by cases hj), fun hf => (by cases hf), ?_⟩
      rintro _ ⟨⟩
      rfl
    have hordered : s1.notes.Ordered t := by
      rw [hn1]
      exact ⟨h.arena.add hfounded, h.tabled.retain (retains_add _)⟩
    have hnew : s1.notes.symbol? s.notes.symbols.size = some (fnSymbol d t.atProgramLevel) := by
      rw [hn1, symbol?_add_self]
    refine .bind (declare_moves hordered hnew fun hdef => by cases hdef) ?_
    rintro t' s2 ⟨h2, hlink⟩
    exact .pure ⟨h2.ordered, .inr ⟨rfl, hlink, hn1 ▸ h2.gains⟩⟩

theorem setParams_ensures {k : SymbolId} (ps : List Param) :
    Ensures (setParams (some k) ps) s fun _ s' =>
      s'.notes = s.notes.update k (·.setParams (ps.map (.ofScalar ·.type))) := by
  refine .bind (symbol_ensures k) ?_
  rintro _ _ ⟨rfl, -⟩
  exact .modify rfl

theorem fnDecl_reached {ds : List Decl} {d : FnDecl} (hd : Decl.fn d ∈ ds)
    (h : Reached ds t s.notes) :
    Ensures (fnDecl t d) s fun t' s' => Reached ds t' s'.notes := by
  refine .bind (fnName_ensures h.ordered d) ?_
  rintro ⟨id?, t1⟩ s1 ⟨h1, hcases⟩
  refine .bind (varDecls_moves _ (Moves.refl h1).enter.ordered) fun t2 s2 h2 => ?_
  obtain ⟨rfl, hg1⟩ | ⟨rfl, hlink, hg1⟩ := hcases
  · refine .bind (.pure (P := fun _ s' => s' = s2) rfl) ?_
    rintro _ _ rfl
    refine .bind (body_moves d.body h2.ordered) fun t3 s3 h3 => ?_
    have hgains := hg1.trans (h2.trans h3).gains
    refine (leave_moves (a := s.notes) ⟨h3.ordered, hgains⟩).mono fun t' s' h' => ?_
    exact h.moves h'
  · refine .bind (setParams_ensures d.params) ?_
    intro _ s3 hn3
    have h3 : s3.notes.Ordered t2 := by
      rw [hn3]
      exact ⟨h2.ordered.arena.setParams _ _, h2.ordered.tabled.retain (retains_setParams _ _)⟩
    have hgains := hg1.trans h2.gains
    -- the function itself was told its parameters; the others were there before
    have hrecorded : Recorded ds s3.notes := by
      intro k sy hk
      rw [hn3, symbol?_update] at hk
      rw [hn3]
      split at hk
      next heq =>
        subst heq
        have hold := hgains.symbol (symbol?_add_self (a := s.notes)
          (s := fnSymbol d t.atProgramLevel))
        rw [hold, Option.map_some] at hk
        obtain rfl := Option.some.inj hk
        exact ⟨fun _ => ⟨d, hd, h2.gains.link hlink, rfl, described_setParams d _⟩,
          fun hdef => (by cases hdef)⟩
      next hne =>
        by_cases hkind : sy.isFunction = true ∨ sy.isStructDef = true
        · rcases symbol?_add_eq_some (hgains.old hk hkind) with ⟨heq, -⟩ | hold
          · exact absurd heq hne
          · exact (h.recorded k sy hold).links hgains.link
        · rw [not_or, Bool.not_eq_true, Bool.not_eq_true] at hkind
          exact .of_variable hkind.1 hkind.2
    refine .bind (body_moves d.body h3) fun t4 s4 h4 => ?_
    refine (leave_moves (a := s3.notes) h4).mono fun t' s' h' => ?_
    exact ⟨h'.ordered, hrecorded.gain h'.gains⟩

/-- **A declaration leaves the symbols in order**, whatever it reports. -/
theorem decl_reached {ds : List Decl} {d : Decl} (hd : d ∈ ds) (h : Reached ds t s.notes) :
    Ensures (decl t d) s fun t' s' => Reached ds t' s'.notes := by
  cases d with
  | var d => exact (varDecl_moves h.ordered d).mono fun _ _ => h.moves
  | struct d => exact structDecl_reached hd h
  | fn d => exact fnDecl_reached hd h

theorem program_reached (p : Program) :
    Ensures (program p) ⟨.empty, []⟩ fun t s => Reached p.decls t s.notes :=
  .foldlM (fun _ _ _ hd h => decl_reached hd h)
    ⟨⟨arena_empty, tabled_initial⟩, fun _ _ hs => by simp [Annotations.empty, symbol?] at hs⟩

end Binding

/-! ## What binding leaves -/

namespace Annotations

/-- A field of the struct `j` is a value of the struct `k`. -/
def Contains (a : Annotations) (j k : SymbolId) : Prop :=
  ∃ s fields x i f, a.symbol? j = some s ∧ s.fields? = some fields ∧
    fields.lookup x = some i ∧ a.symbol? i = some f ∧ f.definition? = some k

variable {a : Annotations}

theorem Arena.contains_lt (h : a.Arena) {j k : SymbolId} (hc : a.Contains j k) : k < j := by
  obtain ⟨s, fields, x, i, f, hs, hfields, hx, hf, hk⟩ := hc
  exact Nat.lt_trans ((h.founded hf).definition hk).1 ((h.founded hs).field hfields hx).1

/-- No struct contains itself, directly or through others. -/
theorem Arena.acyclic (h : a.Arena) (j : SymbolId) : ¬ Relation.TransGen a.Contains j j := by
  have hlt : ∀ {k}, Relation.TransGen a.Contains j k → k < j := by
    intro k hk
    induction hk with
    | single hc => exact h.contains_lt hc
    | tail _ hc ih => exact Nat.lt_trans (h.contains_lt hc) ih
  exact fun hj => Nat.lt_irrefl j (hlt hj)

end Annotations

end FlatC
