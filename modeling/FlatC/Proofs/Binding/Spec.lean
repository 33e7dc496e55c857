import FlatC.Proofs.Binding.Bound
import FlatC.Proofs.Syntax.Reprint
import FlatC.Proofs.Yields

/-!
# Binding does what it should

Binding a program whose names are words never stops with a defect, and it ends with the
scope of the program alone. If it reports nothing, all names are bound
(`program_yields`).
-/

namespace FlatC

/-! ## Scopes -/

namespace Scope

variable {s s' : Scope} {x y : String} {id : SymbolId}

theorem declare_ok (id : SymbolId) (hx : x ≠ "") (h : s.lookup x = none) :
    ∃ s', s.declare x id = .ok s' ∧ s'.entries = s.entries ++ [(x, id)] := by
  obtain ⟨s', hs'⟩ : ∃ s', s.declare x id = .ok s' := by
    unfold declare
    rw [if_neg hx, dif_neg (lookup_eq_none_iff_symbols.1 h)]
    exact ⟨_, rfl⟩
  exact ⟨s', hs', entries_of_declare hs'⟩

theorem lookup_of_entries (h : s'.entries = s.entries ++ [(x, id)]) (hx : s.lookup x = none) :
    s'.lookup y = if y = x then some id else s.lookup y := by
  have happ : s'.lookup y = (s.lookup y).or ([(x, id)].lookup y) := by
    rw [lookup_eq_entries, lookup_eq_entries, h, List.lookup_append]
  rw [happ]
  by_cases hy : y = x
  · subst hy; simp [hx]
  · simp [hy, List.lookup_cons, beq_false_of_ne hy]

end Scope

namespace ScopeTable

variable {t t' : ScopeTable} {x y : String}

theorem lookup_eq : t.lookup x = (t.inner.lookup x).or (t.outer.findSome? (·.lookup x)) := by
  rw [lookup, scopes, List.findSome?_cons]
  cases t.inner.lookup x <;> rfl

theorem lookup_enter : t.enter.lookup x = t.lookup x := by
  rw [lookup_eq]
  rfl

theorem declare_ok (id : SymbolId) (hx : x ≠ "") (h : t.lookupLocal x = none) :
    ∃ t', t.declare x id = .ok t' ∧ t'.outer = t.outer ∧
      ∀ y, t'.lookup y = if y = x then some id else t.lookup y := by
  obtain ⟨s, hs, he⟩ := Scope.declare_ok id hx h
  refine ⟨{ t with inner := s }, by simp [declare, hs], rfl, fun y => ?_⟩
  rw [lookup_eq, lookup_eq, Scope.lookup_of_entries he h]
  by_cases hy : y = x <;> simp [hy]

end ScopeTable

namespace Binding

open Annotations State Grammar

variable {s : State} {t : ScopeTable}

/-! ## Single steps -/

theorem report_yields {f : NameFault} {span : Span} :
    Yields (report f span) s fun _ s' => Grows [] s s' ∧ s'.notes = s.notes ∧ s'.reports ≠ [] :=
  .modify ⟨⟨id, fun _ => Nat.le_refl _, Nat.le_refl _, fun _ => rfl,
    ⟨[f.report span], by simp [NameFault.report, Report.isError]⟩, id⟩, rfl, by simp⟩

theorem link_yields {node : NodeId} {id : SymbolId} (hid : id < s.notes.symbols.size) :
    Yields (link node id) s fun _ s' =>
      Grows [node] s s' ∧ s'.notes = s.notes.link node id ∧ s'.reports = s.reports := by
  refine .modify ⟨⟨fun hl => links_link.2 (.inr hl), fun i => ?_, Nat.le_refl _, fun _ => rfl,
    ⟨[], by simp⟩, fun h => h.link' hid⟩, rfl, rfl⟩
  exact Nat.le_of_eq linkCount_link

theorem symbol_yields {id : SymbolId} (hid : id < s.notes.symbols.size) :
    Yields (symbol id) s fun sy s' => s' = s ∧ s.notes.symbol? id = some sy := by
  obtain ⟨sy, hsy⟩ := exists_symbol? hid
  refine .getBind ?_
  simp only [hsy]
  exact .pure ⟨rfl, rfl⟩

/-- `sy` was added to `a` and linked to `node` in `b`: it has the next free number. -/
structure Introduces (a : Annotations) (sy : Symbol) (node : NodeId) (b : Annotations) : Prop where
  link : b.Links node a.symbols.size
  size : b.symbols.size = a.symbols.size + 1
  symbol : b.symbol? a.symbols.size = some sy

theorem introduces_of_add {a b c : Annotations} {sy : Symbol} {node : NodeId}
    (hadd : b = (a.add sy).2) (hlink : c = b.link node a.symbols.size) :
    Introduces a sy node c where
  link := by rw [hlink]; exact links_link.2 (.inl ⟨rfl, rfl⟩)
  size := by rw [hlink, symbols_link, hadd, size_add]
  symbol := by rw [hlink, symbol?_link, hadd, symbol?_add_self]

theorem size_lt_of_add {a b : Annotations} {sy : Symbol} (hadd : b = (a.add sy).2) :
    a.symbols.size < b.symbols.size := by
  rw [hadd, size_add]
  exact Nat.lt_succ_self _

theorem add_yields {sy : Symbol} (hd : ∀ d, sy.definition? = some d → d < s.notes.symbols.size)
    (hf : ∀ fields x i, sy.fields? = some fields → fields.lookup x = some i →
      i < s.notes.symbols.size) (hty : sy.ty.Stringless) :
    Yields (add sy) s fun id s' => Grows [] s s' ∧ id = s.notes.symbols.size ∧
      s'.notes = (s.notes.add sy).2 ∧ s'.reports = s.reports := by
  refine .getBind (.bind (.modify (Q := fun _ s' => s'.notes = (s.notes.add sy).2 ∧ s'.reports = s.reports)
    ⟨rfl, rfl⟩) ?_)
  rintro _ s' ⟨hn, hr⟩
  refine .pure ⟨⟨?_, ?_, ?_, ?_, ?_, ?_⟩, rfl, hn, hr⟩
  · intro i k hl; rw [hn]; exact hl
  · intro i; rw [hn]; exact Nat.le_refl _
  · rw [hn, size_add]; exact Nat.le_succ _
  · intro k hk; rw [hn]; exact symbol?_add_of_lt hk
  · exact ⟨[], by simp [hr]⟩
  · intro h; rw [hn]; exact h.add hd hf hty

/-- The numbers in the table are those of symbols. -/
def InTable (a : Annotations) (t : ScopeTable) : Prop :=
  ∀ x id, t.lookup x = some id → id < a.symbols.size

theorem InTable.grow {s s' : State} {ids : List NodeId} (h : InTable s.notes t)
    (hg : Grows ids s s') : InTable s'.notes t :=
  fun x id hx => Nat.lt_of_lt_of_le (h x id hx) hg.size

/-- The table holds the declarations `env`. -/
structure Scoped (a : Annotations) (t : ScopeTable) (env : List Decl) : Prop where
  found : ∀ {x id}, t.lookup x = some id → ∃ d, find env x = some d ∧ a.Links d.name.id id
  missing : ∀ {x}, t.lookup x = none → find env x = none
  words : ∀ d ∈ env, Lexer.IsWord d.name.name

theorem Scoped.keep {a b : Annotations} {env : List Decl} (h : Scoped a t env) (hk : a.Keeps b) :
    Scoped b t env where
  found hx := by
    obtain ⟨d, hd, hl⟩ := h.found hx
    exact ⟨d, hd, hk.link hl⟩
  missing := h.missing
  words := h.words

theorem Scoped.grow {s s' : State} {ids : List NodeId} {env : List Decl}
    (h : Scoped s.notes t env) (hg : Grows ids s s') : Scoped s'.notes t env :=
  h.keep hg.keeps

/-! ## Uses -/

theorem ident_yields (ht : InTable s.notes t) (i : Ident) :
    Yields (ident t i) s fun id? s' => Grows [i.id] s s' ∧
      s'.notes.symbols.size = s.notes.symbols.size ∧ (∀ id, id? = some id → id < s'.notes.symbols.size) ∧
      (s'.reports = [] → ∀ env, Scoped s.notes t env →
        ∃ k, id? = some k ∧ Lasting (Uses env i k) s'.notes) := by
  unfold ident
  split
  next id hid =>
    refine .bind (link_yields (ht _ _ hid)) ?_
    rintro _ s' ⟨hg, hn, hr⟩
    refine .pure ⟨hg, by rw [hn]; rfl, ?_, ?_⟩
    · rintro _ ⟨⟩
      exact Nat.lt_of_lt_of_le (ht _ _ hid) hg.size
    · intro _ env hscope
      obtain ⟨d, hd, hl⟩ := hscope.found hid
      refine ⟨id, rfl, fun b hb => ⟨d, hd, hb.link (hg.link hl), hb.link ?_⟩⟩
      rw [hn]
      exact links_link.2 (.inl ⟨rfl, rfl⟩)
  next =>
    refine .bind report_yields ?_
    rintro _ s' ⟨hg, hn, hr⟩
    exact .pure ⟨hg.mono (by simp), by rw [hn], by simp, fun h => absurd h hr⟩

/-- What a place turned out to be fits its symbol. -/
def Access.Fits (acc : Access) (sy : Symbol) : Prop :=
  (∃ d, acc = .struct d ∧ sy.definition? = some d) ∨
    ∃ span, acc = .plain span ∧ sy.definition? = none

theorem access_yields (hs : s.notes.Sane) {id : SymbolId} (hid : id < s.notes.symbols.size)
    (span : Span) :
    Yields (access id span) s fun acc s' => s' = s ∧
      (∀ d, acc = .struct d → d < s.notes.symbols.size) ∧
      ∃ sy, s.notes.symbol? id = some sy ∧ acc.Fits sy := by
  refine .bind (symbol_yields hid) ?_
  rintro sy _ ⟨rfl, hsy⟩
  split
  next d hd =>
    refine .pure ⟨rfl, ?_, sy, hsy, .inl ⟨d, rfl, hd⟩⟩
    rintro _ ⟨⟩
    exact hs.definition hsy hd
  next hd => exact .pure ⟨rfl, by simp, sy, hsy, .inr ⟨span, rfl, hd⟩⟩

/-- The last step of a place with a field. -/
def fieldAccess (d : SymbolId) (name : Ident) : Binding Access := do
  match ← field? d name.name with
  | none =>
    report .invalidField name.span
    return .bad
  | some id =>
    link name.id id
    access id name.span

/-- All that the last step of a place with a field can do. -/
theorem fieldAccess_yields (hs : s.notes.Sane) {d : SymbolId} (hd : d < s.notes.symbols.size)
    (name : Ident) :
    Yields (fieldAccess d name) s fun acc s' => Grows [name.id] s s' ∧
      s'.notes.symbols.size = s.notes.symbols.size ∧ ∃ sd, s.notes.symbol? d = some sd ∧
        ((sd.fields?.bind (·.lookup name.name) = none ∧ acc = .bad ∧ s'.reports ≠ []) ∨
          ∃ j, sd.fields?.bind (·.lookup name.name) = some j ∧ s'.reports = s.reports ∧
            s'.notes.Links name.id j ∧ (access j name.span).run s' = .ok (acc, s')) := by
  unfold fieldAccess field?
  rw [bind_assoc]
  refine .bind (symbol_yields hd) ?_
  rintro sd _ ⟨rfl, hsd⟩
  rw [pure_bind]
  split
  next hnone =>
    refine .bind report_yields ?_
    rintro _ s' ⟨hg, hn, hr⟩
    exact .pure ⟨hg.mono (by simp), by rw [hn], sd, hsd, .inl ⟨hnone, rfl, hr⟩⟩
  next j hj =>
    obtain ⟨fields, hf, hx⟩ := Option.bind_eq_some_iff.1 hj
    have hjlt := hs.field hsd hf hx
    refine .bind (link_yields hjlt) ?_
    rintro _ s' ⟨hg, hn, hr⟩
    have hlink : s'.notes.Links name.id j := by
      rw [hn]
      exact links_link.2 (.inl ⟨rfl, rfl⟩)
    refine (access_yields (hg.sane hs) (Nat.lt_of_lt_of_le hjlt hg.size) name.span).with_run.mono ?_
    rintro acc _ ⟨hrun, rfl, -⟩
    exact ⟨hg, by rw [hn, symbols_link], sd, hsd, .inr ⟨j, hj, hr, hlink, hrun⟩⟩

theorem place_yields (p : Place) (hs : s.notes.Sane) (ht : InTable s.notes t) :
    Yields (place t p) s fun acc s' => Grows p.nameIds s s' ∧
      s'.notes.symbols.size = s.notes.symbols.size ∧
      (∀ d, acc = .struct d → d < s'.notes.symbols.size) ∧
      (s'.reports = [] → ∀ env, Scoped s.notes t env →
        ∃ k sy, s'.notes.symbol? k = some sy ∧ acc.Fits sy ∧
          Lasting (PlaceBound env · p k) s'.notes) := by
  induction p with
  | var node name =>
    refine .bind (ident_yields ht name) ?_
    rintro id? s1 ⟨hg, hsize, hlt, hb⟩
    split
    · refine .pure ⟨hg, hsize, by simp, fun hr env hscope => ?_⟩
      obtain ⟨k, hk, -⟩ := hb hr env hscope
      cases hk
    next id =>
      refine (access_yields (hg.sane hs) (hlt _ rfl) name.span).mono ?_
      rintro acc _ ⟨rfl, hd, sy, hsy, hfits⟩
      refine ⟨hg, hsize, hd, fun hr env hscope => ?_⟩
      obtain ⟨k, hk, hu⟩ := hb hr env hscope
      cases hk
      exact ⟨id, sy, hsy, hfits, fun b hb => .var (hu b hb)⟩
  | field node base name ih =>
    refine .bind ih ?_
    rintro acc s1 ⟨hg, hsize, hlt, hb⟩
    have hg' : Grows (Place.field node base name).nameIds s s1 :=
      hg.mono fun i => by simp [Place.nameIds, List.count_append]
    split
    · refine .pure ⟨hg', hsize, by simp, fun hr env hscope => ?_⟩
      obtain ⟨k, sy, -, ⟨_, h, -⟩ | ⟨_, h, -⟩, -⟩ := hb hr env hscope <;> cases h
    · refine .bind report_yields ?_
      rintro _ s2 ⟨hg2, hn2, hr2⟩
      exact .pure ⟨(hg.trans hg2).mono fun i => by simp [Place.nameIds, List.count_append],
        by rw [hn2, hsize], by simp, fun h => absurd h hr2⟩
    next d =>
      have hs1 := hg.sane hs
      refine (fieldAccess_yields hs1 (hlt d rfl) name).mono ?_
      rintro acc s2 ⟨hg2, hsize2, sd, hsd, ⟨-, rfl, hr2⟩ | ⟨j, hj, -, hlink, hrun⟩⟩
      · exact ⟨hg.trans hg2, hsize2.trans hsize, by simp, fun h => absurd h hr2⟩
      obtain ⟨fields, hf, hx⟩ := Option.bind_eq_some_iff.1 hj
      have hjlt := Nat.lt_of_lt_of_le (hs1.field hsd hf hx) hg2.size
      obtain ⟨-, hd, sy, hsy, hfits⟩ :=
        (access_yields (hg2.sane hs1) hjlt name.span).of_run hrun
      refine ⟨hg.trans hg2, hsize2.trans hsize, hd, fun hr env hscope => ?_⟩
      obtain ⟨k, syb, hsyb, hfb, hpb⟩ := hb (hg2.reports hr) env hscope
      have hdb : syb.definition? = some d := by
        obtain ⟨_, ⟨⟩, h⟩ | ⟨_, h, -⟩ := hfb
        · exact h
        · cases h
      refine ⟨j, sy, hsy, hfits, fun b hb => ?_⟩
      have hkeep := hg2.keeps.trans hb
      obtain ⟨syb', hsyb', hab⟩ := hkeep.symbol hsyb (Symbol.isFunction_of_definition hdb)
      obtain ⟨sd', hsd', had⟩ := hkeep.symbol hsd (Symbol.isFunction_of_fields hf)
      exact .field (hpb b hkeep) hsyb' (hab.definition?.trans hdb) hsd' (had.fields?.trans hf) hx
        (hb.link hlink)

/-- What a step does that binds a tree with the occurrences `ids`: if nothing is reported, it adds
`m` symbols, and `P` holds for the declarations in scope and the next free symbol number. -/
def Outcome (t : ScopeTable) (s : State) (ids : List NodeId) (m : Nat)
    (P : List Decl → Nat → Annotations → Prop) (s' : State) : Prop :=
  Grows ids s s' ∧ (s'.reports = [] →
    s'.notes.symbols.size = s.notes.symbols.size + m ∧
      ∀ env, Scoped s.notes t env → Lasting (P env s.notes.symbols.size) s'.notes)

section Outcome

variable {s1 s2 : State} {ids ids' : List NodeId} {m m' : Nat}
  {P Q : List Decl → Nat → Annotations → Prop}

theorem Outcome.trans (h : Outcome t s ids m P s1) (h' : Outcome t s1 ids' m' Q s2) :
    Outcome t s (ids ++ ids') (m + m') (fun env n a => P env n a ∧ Q env (n + m) a) s2 := by
  refine ⟨h.1.trans h'.1, fun hr => ?_⟩
  obtain ⟨hsize', hQ⟩ := h'.2 hr
  obtain ⟨hsize, hP⟩ := h.2 (h'.1.reports hr)
  refine ⟨by omega, fun env hscope b hb => ⟨?_, ?_⟩⟩
  · exact hP env hscope b (h'.1.keeps.trans hb)
  · rw [← hsize]
    exact hQ env (hscope.grow h.1) b hb

theorem Outcome.mono (h : Outcome t s ids m P s1) (hids : ∀ i, ids.count i ≤ ids'.count i)
    (hPQ : ∀ env n a, P env n a → Q env n a) : Outcome t s ids' m Q s1 :=
  ⟨h.1.mono hids, fun hr => ⟨(h.2 hr).1, fun env hscope b hb =>
    hPQ _ _ _ ((h.2 hr).2 env hscope b hb)⟩⟩

theorem Outcome.cast (h : Outcome t s ids m P s1) (hm : m = m') : Outcome t s ids m' P s1 :=
  hm ▸ h

theorem Outcome.nothing (hP : ∀ env n a, P env n a) : Outcome t s [] 0 P s :=
  ⟨.refl s, fun _ => ⟨rfl, fun _ _ _ _ => hP _ _ _⟩⟩

end Outcome

theorem useYields (ht : InTable s.notes t) (i : Ident) :
    Yields (ident t i) s fun _ => Outcome t s [i.id] 0 fun env _ a => ∃ k, Uses env i k a := by
  refine (ident_yields ht i).mono ?_
  rintro id? s' ⟨hg, hsize, -, hb⟩
  refine ⟨hg, fun hr => ⟨hsize, fun env hscope b hk => ?_⟩⟩
  obtain ⟨k, -, hu⟩ := hb hr env hscope
  exact ⟨k, hu b hk⟩

theorem targetYields (p : Place) (hs : s.notes.Sane) (ht : InTable s.notes t) :
    Yields (place t p) s fun _ => Outcome t s p.nameIds 0 fun env _ a => ∃ k, PlaceBound env a p k := by
  refine (place_yields p hs ht).mono ?_
  rintro acc s' ⟨hg, hsize, -, hb⟩
  refine ⟨hg, fun hr => ⟨hsize, fun env hscope b hk => ?_⟩⟩
  obtain ⟨k, -, -, -, hp⟩ := hb hr env hscope
  exact ⟨k, hp b hk⟩

mutual

theorem expr_yields : ∀ (e : Expr) {s : State}, s.notes.Sane → InTable s.notes t →
    Yields (expr t e) s fun _ => Outcome t s e.nameIds 0 fun env _ a => ExprBound env a e
  | .int .., s, hs, ht | .str .., s, hs, ht | .bool .., s, hs, ht =>
    .pure ((Outcome.nothing fun _ _ _ => trivial).mono (by simp) fun _ _ _ h => h)
  | .place p, s, hs, ht => .bind (targetYields p hs ht) fun _ s' h => .pure h
  | .assign _ target value, s, hs, ht =>
    .bind (targetYields target hs ht) fun _ s1 h1 =>
      (expr_yields value (h1.1.sane hs) (ht.grow h1.1)).mono fun _ s2 h2 =>
        (h1.trans h2).mono (fun i => by simp [Expr.nameIds]) fun _ _ _ h => h
  | .call _ callee args, s, hs, ht =>
    .bind (useYields ht callee) fun _ s1 h1 =>
      (exprs_yields args (h1.1.sane hs) (ht.grow h1.1)).mono fun _ s2 h2 =>
        (h1.trans h2).mono
          (fun i => by simp [Expr.nameIds, List.count_cons]) fun _ _ _ h => h
  | .unary _ _ operand, s, hs, ht => expr_yields operand hs ht
  | .binary _ _ left right, s, hs, ht =>
    .bind (expr_yields left hs ht) fun _ s1 h1 =>
      (expr_yields right (h1.1.sane hs) (ht.grow h1.1)).mono fun _ s2 h2 =>
        (h1.trans h2).mono (fun i => by simp [Expr.nameIds]) fun _ _ _ h => h

theorem exprs_yields : ∀ (es : List Expr) {s : State}, s.notes.Sane → InTable s.notes t →
    Yields (exprs t es) s fun _ => Outcome t s (Expr.allNameIds es) 0 fun env _ a => ExprsBound env a es
  | [], s, hs, ht => .pure (.nothing fun _ _ _ => trivial)
  | e :: es, s, hs, ht =>
    .bind (expr_yields e hs ht) fun _ s1 h1 =>
      (exprs_yields es (h1.1.sane hs) (ht.grow h1.1)).mono fun _ s2 h2 =>
        (h1.trans h2).mono (fun i => by simp [Expr.allNameIds]) fun _ _ _ h => h

end

/-! ## Declarations -/

theorem isWord_ne_empty {x : String} (h : Lexer.IsWord x) : x ≠ "" := by
  rintro rfl
  obtain ⟨c, w, hx, -⟩ := h
  cases hx

/-- No word is the key of a struct. -/
theorem structKey_not_isWord (x : String) : ¬ Lexer.IsWord (structKey x) := by
  intro h
  have := Lexer.isWordChar_of_isWord h ' ' (by simp [structKey])
  exact absurd this (by decide)

theorem structKey_ne_empty (x : String) : structKey x ≠ "" := by
  intro h
  have := congrArg String.toList h
  simp [structKey] at this

theorem structKey_inj {x y : String} (h : structKey x = structKey y) : x = y := by
  have := congrArg String.toList h
  simp only [structKey, String.toList_append, List.append_cancel_left_eq] at this
  exact String.toList_inj.1 this

theorem find_struct {env : List Decl} {x : String} {d : Decl} (h : find env (structKey x) = some d)
    (hw : ∀ d ∈ env, Lexer.IsWord d.name.name) :
    ∃ sd, d = .struct sd ∧ sd.name.name = x ∧ Decl.struct sd ∈ env := by
  have hmem := List.mem_of_find?_eq_some h
  have hkey : d.key = structKey x := by simpa using List.find?_some h
  cases d with
  | var d => exact absurd (hkey ▸ hw _ hmem) (structKey_not_isWord x)
  | struct sd => exact ⟨sd, rfl, structKey_inj hkey, hmem⟩
  | fn d => exact absurd (hkey ▸ hw _ hmem) (structKey_not_isWord x)

theorem structOf?_yields (ht : InTable s.notes t) (i : Ident) :
    Yields (structOf? t i) s fun id? s' => s' = s ∧
      ∀ id, id? = some id → t.lookup (structKey i.name) = some id := by
  unfold structOf?
  split
  · exact .pure ⟨rfl, by simp⟩
  next id hid =>
    refine .bind (symbol_yields (ht _ _ hid)) ?_
    rintro sy _ ⟨rfl, -⟩
    refine .pure ⟨rfl, fun k hk => ?_⟩
    split at hk
    · exact hk ▸ hid
    · cases hk

theorem ofType?_yields (ht : InTable s.notes t) (d : VarDecl) :
    Yields (ofType? t d) s fun sy? s' => Grows d.type.ids s s' ∧
      s'.notes.symbols.size = s.notes.symbols.size ∧
      (∀ sy, sy? = some sy → sy.fields? = none ∧ sy.isFunction = false ∧ sy.isGlobal = false ∧
        sy.ty.Stringless ∧ ∀ k, sy.definition? = some k → k < s.notes.symbols.size) ∧
      (s'.reports = [] → ∃ sy, sy? = some sy ∧ sy.name = d.name.name ∧
        ∀ env, Scoped s.notes t env → Lasting (TypeBound env · d.type sy) s'.notes) := by
  obtain ⟨type, name, span⟩ := d
  unfold ofType?
  cases type with
  | scalar sc =>
    cases sc with
    | void =>
      refine .bind report_yields ?_
      rintro _ s' ⟨hg, hn, hr⟩
      exact .pure ⟨hg, by rw [hn], by simp, fun h => absurd h hr⟩
    | int | bool =>
      refine .pure ⟨.refl s, rfl, ?_, ?_⟩
      · rintro _ ⟨⟩
        exact ⟨rfl, rfl, rfl, by simp [Symbol.word, Ty.stringless_ofScalar],
          by simp [Symbol.word, Symbol.definition?]⟩
      · exact fun _ => ⟨_, rfl, rfl, fun _ _ _ _ => ⟨by decide, rfl, rfl⟩⟩
  | struct i =>
    refine .bind (structOf?_yields ht i) ?_
    rintro id? _ ⟨rfl, hid⟩
    split
    next k =>
      have hk := hid k rfl
      refine .bind (link_yields (ht _ _ hk)) ?_
      rintro _ s' ⟨hg, hn, hr⟩
      refine .pure ⟨hg, by rw [hn]; rfl, ?_, ?_⟩
      · rintro _ ⟨⟩
        refine ⟨rfl, rfl, rfl, ⟨by simp [Symbol.structVar], by simp [Symbol.structVar]⟩, ?_⟩
        rintro _ ⟨⟩
        exact ht _ _ hk
      · intro _
        refine ⟨_, rfl, rfl, fun env hscope b hb => ?_⟩
        obtain ⟨d, hd, hl⟩ := hscope.found hk
        obtain ⟨sd, rfl, hname, hmem⟩ := find_struct hd hscope.words
        refine ⟨sd, k, hmem, hname, hb.link (hg.link hl), hb.link ?_, rfl, rfl⟩
        rw [hn]
        exact links_link.2 (.inl ⟨rfl, rfl⟩)
    · refine .bind report_yields ?_
      rintro _ s' ⟨hg, hn, hr⟩
      exact .pure ⟨hg.mono (by simp), by rw [hn], by simp, fun h => absurd h hr⟩

theorem symbolFor?_yields (ht : InTable s.notes t) (taken : Bool) (d : VarDecl) :
    Yields (symbolFor? t taken d) s fun sy? s' => Grows d.type.ids s s' ∧
      s'.notes.symbols.size = s.notes.symbols.size ∧ (taken = true → sy? = none) ∧
      (∀ sy, sy? = some sy → sy.fields? = none ∧ sy.isFunction = false ∧ sy.isGlobal = false ∧
        sy.ty.Stringless ∧ ∀ k, sy.definition? = some k → k < s.notes.symbols.size) ∧
      (s'.reports = [] → ∃ sy, sy? = some sy ∧ sy.name = d.name.name ∧
        ∀ env, Scoped s.notes t env → Lasting (TypeBound env · d.type sy) s'.notes) := by
  refine .bind (ofType?_yields ht d) ?_
  rintro sy? s1 ⟨hg, hsize, hsy, hb⟩
  split
  next h =>
    refine .bind report_yields ?_
    rintro _ s2 ⟨hg2, hn, hr⟩
    have hg' : Grows d.type.ids s s2 := (hg.trans hg2).mono (by simp)
    exact .pure ⟨hg', by rw [hn, hsize], fun _ => rfl, by simp, fun h => absurd h hr⟩
  next h => exact .pure ⟨hg, hsize, fun ht => absurd ht h, hsy, hb⟩

/-- Where a declaration gets no symbol, something was reported. -/
theorem reports_ne_nil {rs : List Report} {P : Symbol → Prop}
    (h : rs = [] → ∃ sy, (none : Option Symbol) = some sy ∧ P sy) : rs ≠ [] := by
  intro hr
  obtain ⟨sy, hno, -⟩ := h hr
  cases hno

theorem declare_yields {key : String} {name : Ident} {id : SymbolId} (hkey : key ≠ "")
    (hfree : t.lookupLocal key = none) (hid : id < s.notes.symbols.size) :
    Yields (declare t key name id) s fun t' s' => t'.outer = t.outer ∧
      (∀ y, t'.lookup y = if y = key then some id else t.lookup y) ∧
      Grows [name.id] s s' ∧ s'.notes = s.notes.link name.id id ∧ s'.reports = s.reports := by
  obtain ⟨t', hdecl, houter, hlookup⟩ := ScopeTable.declare_ok id hkey hfree
  simp only [declare, hdecl]
  refine .bind (link_yields hid) ?_
  rintro _ s' ⟨hg, hn, hr⟩
  exact .pure ⟨houter, hlookup, hg, hn, hr⟩

theorem inTable_declare {t' : ScopeTable} {key : String} {id : SymbolId} {a : Annotations}
    (h : InTable a t) (hid : id < a.symbols.size)
    (hl : ∀ y, t'.lookup y = if y = key then some id else t.lookup y) : InTable a t' := by
  intro x k hx
  rw [hl] at hx
  split at hx
  · cases hx; exact hid
  · exact h _ _ hx

theorem scoped_declare {t' : ScopeTable} {env : List Decl} {d : Decl} {id : SymbolId}
    {a : Annotations} (h : Scoped a t env) (hw : Lexer.IsWord d.name.name)
    (hl : ∀ y, t'.lookup y = if y = d.key then some id else t.lookup y)
    (hlink : a.Links d.name.id id) : Scoped a t' (d :: env) where
  found {x k} hx := by
    rw [hl] at hx
    split at hx
    next hk =>
      cases hx
      exact ⟨d, by simp [find, hk], hlink⟩
    next hk =>
      obtain ⟨d', hd', hlink'⟩ := h.found hx
      refine ⟨d', ?_, hlink'⟩
      rwa [find, List.find?_cons_of_neg (by simpa using Ne.symm hk)]
  missing {x} hx := by
    rw [hl] at hx
    split at hx
    · cases hx
    next hk =>
      rw [find, List.find?_cons_of_neg (by simpa using Ne.symm hk)]
      exact h.missing hx
  words d' hd' := by
    obtain rfl | hd' := List.mem_cons.1 hd'
    · exact hw
    · exact h.words d' hd'

theorem typeBound_alike {env : List Decl} {a : Annotations} {type : TypeSpec} {sy sy' : Symbol}
    (h : TypeBound env a type sy) (hty : sy'.ty = sy.ty) (hkind : sy'.kind = sy.kind) :
    TypeBound env a type sy' := by
  cases type with
  | scalar sc => exact ⟨h.1, hkind.trans h.2.1, hty.trans h.2.2⟩
  | struct i =>
    obtain ⟨sd, d, hmem, hname, hl, hl', hk, ht⟩ := h
    exact ⟨sd, d, hmem, hname, hl, hl', hkind.trans hk, hty.trans ht⟩

/-- A symbol of the written type, linked to the name, makes a variable. -/
theorem varBound_lasting {env : List Decl} {a : Annotations} {d : VarDecl} {sy : Symbol} {g : Bool}
    {k : SymbolId} (hlink : a.Links d.name.id k)
    (hsym : a.symbol? k = some { sy with isGlobal := g }) (hfn : sy.isFunction = false)
    (hname : sy.name = d.name.name) (htype : Lasting (TypeBound env · d.type sy) a) :
    Lasting (VarBound env · g d k) a := by
  intro b hk
  obtain ⟨sy', hsy', halike⟩ := hk.symbol hsym hfn
  exact ⟨hk.link hlink, sy', hsy', halike.name.trans hname, halike.isGlobal,
    typeBound_alike (htype b hk) halike.ty halike.kind⟩

/-- What a step does that declares the variables `ds` in the innermost scope. -/
def Declares (t : ScopeTable) (s : State) (ds : List VarDecl) (t' : ScopeTable) (s' : State) :
    Prop :=
  t'.outer = t.outer ∧ InTable s'.notes t' ∧
    Outcome t s (ds.flatMap VarDecl.ids) ds.length
      (fun env n a => VarsBound env a t.atProgramLevel n ds) s' ∧
    (s'.reports = [] → ∀ env, Scoped s.notes t env → Scoped s'.notes t' (extend env ds))

theorem varDecl_yields (ht : InTable s.notes t) (d : VarDecl)
    (hw : Lexer.IsWord d.name.name) :
    Yields (varDecl t d) s fun t' s' => Declares t s [d] t' s' ∧
      (s'.reports = [] → t.lookupLocal d.name.name = none) := by
  refine .bind (symbolFor?_yields ht _ d) ?_
  rintro sy? s1 ⟨hg1, hsize1, htaken, hsy, hb⟩
  split
  · have hbad := reports_ne_nil hb
    have hg : Grows ([d].flatMap VarDecl.ids) s s1 :=
      hg1.mono fun i => by simp [VarDecl.ids, List.count_append]
    exact .pure ⟨⟨rfl, ht.grow hg1, ⟨hg, fun h => absurd h hbad⟩, fun h => absurd h hbad⟩,
      fun h => absurd h hbad⟩
  next sy =>
    have hfree : t.lookupLocal d.name.name = none := by
      cases h : t.lookupLocal d.name.name with
      | none => rfl
      | some k => rw [h] at htaken; exact absurd (htaken rfl) (by simp)
    obtain ⟨hfields, hfn, -, hty, hdef⟩ := hsy sy rfl
    have hnofields : ∀ fields (x : String) (i : SymbolId), sy.fields? = some fields →
        fields.lookup x = some i → i < s1.notes.symbols.size := by simp [hfields]
    refine .bind (add_yields (by rw [hsize1]; exact hdef) hnofields hty) ?_
    rintro id s2 ⟨hg2, rfl, hn2, hr2⟩
    refine (declare_yields (isWord_ne_empty hw) hfree (size_lt_of_add hn2)).mono ?_
    rintro t' s3 ⟨houter, hlookup, hg3, hn3, hr3⟩
    have hnew := introduces_of_add hn2 hn3
    have hg : Grows ([d].flatMap VarDecl.ids) s s3 :=
      ((hg1.trans hg2).trans hg3).mono fun i => by simp [VarDecl.ids, List.count_append]
    have hsize3 : s3.notes.symbols.size = s.notes.symbols.size + 1 := hsize1 ▸ hnew.size
    refine ⟨⟨houter, ?_, ⟨hg, fun hr => ⟨hsize3, ?_⟩⟩, fun hr env hscope => ?_⟩, fun _ => hfree⟩
    · exact inTable_declare (ht.grow hg) (symbol?_lt hnew.symbol) hlookup
    · intro env hscope b hk
      obtain ⟨_, ⟨⟩, hname, htype⟩ := hb (hg2.reports (hg3.reports hr))
      rw [← hsize1]
      exact ⟨varBound_lasting hnew.link hnew.symbol hfn hname
        ((htype env hscope).keep (hg2.trans hg3).keeps) b hk, trivial⟩
    · have := scoped_declare (d := .var d) (hscope.grow hg) hw hlookup hnew.link
      simpa [extend] using this

theorem extend_cons {env : List Decl} {d : VarDecl} {ds : List VarDecl} :
    extend env (d :: ds) = extend (.var d :: env) ds := by
  simp [extend]

theorem TypeBound.drop {env : List Decl} {a : Annotations} {d : VarDecl} {type : TypeSpec}
    {sy : Symbol} (h : TypeBound (.var d :: env) a type sy) : TypeBound env a type sy := by
  cases type with
  | scalar => exact h
  | struct =>
    obtain ⟨sd, k, hmem, h⟩ := h
    refine ⟨sd, k, ?_, h⟩
    obtain h | h := List.mem_cons.1 hmem
    · cases h
    · exact h

/-- A variable takes part in no type. -/
theorem VarsBound.drop {env : List Decl} {a : Annotations} {g : Bool} {d : VarDecl} {n : Nat}
    {ds : List VarDecl} (h : VarsBound (.var d :: env) a g n ds) : VarsBound env a g n ds := by
  induction ds generalizing n with
  | nil => trivial
  | cons d' ds ih =>
    obtain ⟨⟨hl, sy, hsy, hname, hg, ht⟩, h⟩ := h
    exact ⟨⟨hl, sy, hsy, hname, hg, ht.drop⟩, ih h⟩

theorem varDecls_yields (ds : List VarDecl) {s : State} {t : ScopeTable}
    (ht : InTable s.notes t) (hw : ∀ d ∈ ds, Lexer.IsWord d.name.name) :
    Yields (ds.foldlM varDecl t) s (Declares t s ds) := by
  induction ds generalizing s t with
  | nil =>
    exact .pure ⟨rfl, ht, .nothing fun _ _ _ => trivial, fun _ env h => by simpa [extend] using h⟩
  | cons d ds ih =>
    rw [List.foldlM_cons]
    refine .bind (varDecl_yields ht d (hw d (.head _))) ?_
    rintro t1 s1 ⟨⟨houter1, ht1, ho1, hscope1⟩, -⟩
    refine (ih ht1 fun d hd => hw d (.tail _ hd)).mono ?_
    rintro t2 s2 ⟨houter2, ht2, ho2, hscope2⟩
    have hlevel : t1.atProgramLevel = t.atProgramLevel := by
      simp [ScopeTable.atProgramLevel, houter1]
    have hgrow : Grows ((d :: ds).flatMap VarDecl.ids) s s2 := by
      have := ho1.1.trans ho2.1
      simpa using this
    refine ⟨houter2.trans houter1, ht2, ⟨hgrow, fun hr => ?_⟩, fun hr env hscope => ?_⟩
    · have hr1 := ho2.1.reports hr
      obtain ⟨hsize1, hb1⟩ := ho1.2 hr1
      obtain ⟨hsize2, hb2⟩ := ho2.2 hr
      refine ⟨by simp only [List.length_cons, List.length_nil] at hsize1 ⊢; omega, ?_⟩
      intro env hscope b hk
      have h1 := hb1 env hscope b (ho2.1.keeps.trans hk)
      have h2 := hb2 _ (hscope1 hr1 env hscope) b hk
      rw [hlevel, hsize1] at h2
      exact ⟨h1.1, h2.drop⟩
    · rw [extend_cons]
      exact hscope2 hr _ (hscope1 (ho2.1.reports hr) env hscope)

/-! ## Statements and blocks -/

theorem inTable_enter {a : Annotations} (h : InTable a t) : InTable a t.enter :=
  fun x id hx => h x id (by rwa [ScopeTable.lookup_enter] at hx)

theorem scoped_enter {a : Annotations} {env : List Decl} (h : Scoped a t env) :
    Scoped a t.enter env where
  found hx := h.found (by rwa [ScopeTable.lookup_enter] at hx)
  missing hx := h.missing (by rwa [ScopeTable.lookup_enter] at hx)
  words := h.words

/-- Leaving the scope that was entered. -/
theorem leave_yields {t' : ScopeTable} (h : t'.outer = t.scopes) :
    Yields (leave t') s fun t'' s' => t'' = t ∧ s' = s := by
  unfold leave ScopeTable.leave
  simp only [h, ScopeTable.scopes]
  exact .pure ⟨rfl, rfl⟩

/-- The names of declarations that can be printed are words. -/
theorem isWord_of_decls {ds : List VarDecl} (hw : Every Token.Wf (ds.flatMap VarDecl.tokens)) :
    ∀ d ∈ ds, Lexer.IsWord d.name.name := by
  intro d hd
  have : (Token.ident d.name.name).Wf :=
    hw _ (List.mem_flatMap.2 ⟨d, hd, by simp [VarDecl.tokens]⟩)
  exact this.1

/-- A block in a scope of its own. -/
theorem block_yields {b : Body}
    (h : Yields (body t.enter b) s fun t' s' => t'.outer = t.enter.outer ∧
      Outcome t.enter s b.nameIds b.allDecls.length (fun env n a => BodyBound a env n b) s') :
    Yields (body t.enter b >>= leave) s fun t' s' => t' = t ∧
      Outcome t s b.nameIds b.allDecls.length (fun env n a => BodyBound a env n b) s' := by
  refine .bind h ?_
  rintro t1 s1 ⟨houter, h1⟩
  refine (leave_yields houter).mono ?_
  rintro _ _ ⟨rfl, rfl⟩
  refine ⟨rfl, h1.1, fun hr => ⟨(h1.2 hr).1, fun env hscope => ?_⟩⟩
  exact (h1.2 hr).2 env (scoped_enter hscope)

mutual

theorem stmt_yields : ∀ (st : Stmt) {s : State} {t : ScopeTable}, s.notes.Sane →
    InTable s.notes t → Every Token.Wf st.tokens →
    Yields (stmt t st) s fun t' s' => t' = t ∧
      Outcome t s st.nameIds st.allDecls.length (fun env n a => StmtBound a env n st) s'
  | .assign _ node target value, s, t, hs, ht, _ =>
    .bind (expr_yields (.assign node target value) hs ht) fun _ s1 h1 => .pure ⟨rfl, h1⟩
  | .increment _ target, s, t, hs, ht, _ | .decrement _ target, s, t, hs, ht, _
  | .read _ target, s, t, hs, ht, _ =>
    .bind (targetYields target hs ht) fun _ s1 h1 => .pure ⟨rfl, h1⟩
  | .write _ value, s, t, hs, ht, _ =>
    .bind (expr_yields value hs ht) fun _ s1 h1 => .pure ⟨rfl, h1⟩
  | .ifThen _ cond b, s, t, hs, ht, hw => by
    simp only [Stmt.tokens, every_cons, every_append] at hw
    refine .bind (expr_yields cond hs ht) fun _ s1 h1 => ?_
    refine (block_yields (body_yields b (h1.1.sane hs) (inTable_enter (ht.grow h1.1)) rfl
      hw.2.2.2.2)).mono ?_
    rintro _ s2 ⟨rfl, h2⟩
    exact ⟨rfl, (h1.trans h2).cast (Nat.zero_add _)⟩
  | .ifElse _ cond b b', s, t, hs, ht, hw => by
    simp only [Stmt.tokens, every_cons, every_append] at hw
    refine .bind (expr_yields cond hs ht) fun _ s1 h1 => ?_
    have hs1 := h1.1.sane hs
    have ht1 := ht.grow h1.1
    rw [← bind_assoc]
    refine .bind (block_yields (body_yields b hs1 (inTable_enter ht1) rfl hw.2.2.2.2.1)) ?_
    rintro _ s2 ⟨rfl, h2⟩
    refine (block_yields (body_yields b' (h2.1.sane hs1) (inTable_enter (ht1.grow h2.1)) rfl
      hw.2.2.2.2.2.2)).mono ?_
    rintro _ s3 ⟨rfl, h3⟩
    refine ⟨rfl, (((h1.trans h2).trans h3).mono (fun _ => Nat.le_refl _) ?_).cast ?_⟩
    · rintro env n a ⟨⟨hc, hb⟩, hb'⟩
      exact ⟨hc, hb, by rwa [Nat.zero_add] at hb'⟩
    · simp [Stmt.allDecls]
  | .whileLoop _ cond b, s, t, hs, ht, hw => by
    simp only [Stmt.tokens, every_cons, every_append] at hw
    refine .bind (expr_yields cond hs ht) fun _ s1 h1 => ?_
    refine (block_yields (body_yields b (h1.1.sane hs) (inTable_enter (ht.grow h1.1)) rfl
      hw.2.2.2.2)).mono ?_
    rintro _ s2 ⟨rfl, h2⟩
    exact ⟨rfl, (h1.trans h2).cast (Nat.zero_add _)⟩
  | .call _ node callee args, s, t, hs, ht, _ =>
    .bind (expr_yields (.call node callee args) hs ht) fun _ s1 h1 => .pure ⟨rfl, h1⟩
  | .ret _ none, s, t, hs, ht, _ => .pure ⟨rfl, .nothing fun _ _ _ => trivial⟩
  | .ret _ (some value), s, t, hs, ht, _ =>
    .bind (expr_yields value hs ht) fun _ s1 h1 => .pure ⟨rfl, h1⟩

theorem body_yields : ∀ (b : Body) {s : State} {t : ScopeTable}, s.notes.Sane →
    InTable s.notes t → t.atProgramLevel = false → Every Token.Wf b.tokens →
    Yields (body t b) s fun t' s' => t'.outer = t.outer ∧
      Outcome t s b.nameIds b.allDecls.length (fun env n a => BodyBound a env n b) s'
  | .block ds ss, s, t, hs, ht, hlevel, hw => by
    simp only [Body.tokens, every_cons, every_append] at hw
    refine .bind (varDecls_yields ds ht (isWord_of_decls hw.2.1.1)) ?_
    rintro t1 s1 ⟨houter, ht1, ho1, hscope1⟩
    refine (stmts_yields ss (ho1.1.sane hs) ht1 hw.2.1.2).mono ?_
    rintro _ s2 ⟨rfl, h2⟩
    refine ⟨houter, ho1.1.trans h2.1, fun hr => ?_⟩
    have hr1 := h2.1.reports hr
    obtain ⟨hsize1, hb1⟩ := ho1.2 hr1
    obtain ⟨hsize2, hb2⟩ := h2.2 hr
    refine ⟨by simp only [Body.allDecls, List.length_append]; omega, fun env hscope b hk => ?_⟩
    have hds := hb1 env hscope b (h2.1.keeps.trans hk)
    have hss := hb2 _ (hscope1 hr1 env hscope) b hk
    rw [hlevel] at hds
    rw [hsize1] at hss
    exact ⟨hds, hss⟩

theorem stmts_yields : ∀ (ss : List Stmt) {s : State} {t : ScopeTable}, s.notes.Sane →
    InTable s.notes t → Every Token.Wf (Stmt.allTokens ss) →
    Yields (stmts t ss) s fun t' s' => t' = t ∧
      Outcome t s (Stmt.allNameIds ss) (Stmt.manyDecls ss).length
        (fun env n a => StmtsBound a env n ss) s'
  | [], s, t, hs, ht, _ => .pure ⟨rfl, .nothing fun _ _ _ => trivial⟩
  | st :: ss, s, t, hs, ht, hw => by
    simp only [Stmt.allTokens, every_append] at hw
    refine .bind (stmt_yields st hs ht hw.1) ?_
    rintro _ s1 ⟨rfl, h1⟩
    refine (stmts_yields ss (h1.1.sane hs) (ht.grow h1.1) hw.2).mono ?_
    rintro _ s2 ⟨rfl, h2⟩
    exact ⟨rfl, (h1.trans h2).cast (by simp [Stmt.manyDecls])⟩

end

/-! ## Structs -/

theorem fieldDecl_yields (ht : InTable s.notes t) (fields : Scope) (d : VarDecl)
    (hf : ∀ x id, fields.lookup x = some id → id < s.notes.symbols.size)
    (hw : Lexer.IsWord d.name.name) :
    Yields (fieldDecl t fields d) s fun fields' s' =>
      Outcome t s d.ids 1 (fun env n a => VarBound env a false d n) s' ∧
      (∀ x id, fields'.lookup x = some id → id < s'.notes.symbols.size) ∧
      (s'.reports = [] → fields'.entries = fields.entries ++ [(d.name.name, s.notes.symbols.size)]) := by
  refine .bind (symbolFor?_yields ht _ d) ?_
  rintro sy? s1 ⟨hg1, hsize1, htaken, hsy, hb⟩
  split
  · have hbad := reports_ne_nil hb
    refine .pure ⟨⟨?_, fun h => absurd h hbad⟩, ?_, fun h => absurd h hbad⟩
    · exact hg1.mono fun i => by simp [VarDecl.ids, List.count_append]
    · exact fun x id hx => Nat.lt_of_lt_of_le (hf x id hx) hg1.size
  next sy =>
    have hfree : fields.lookup d.name.name = none := by
      cases h : fields.lookup d.name.name with
      | none => rfl
      | some k => simp [Scope.contains_eq_isSome, h] at htaken
    obtain ⟨hfields, hfn, hglobal, hty, hdef⟩ := hsy sy rfl
    have hnofields : ∀ fields (x : String) (i : SymbolId), sy.fields? = some fields →
        fields.lookup x = some i → i < s1.notes.symbols.size := by simp [hfields]
    refine .bind (add_yields (by rw [hsize1]; exact hdef) hnofields hty) ?_
    rintro id s2 ⟨hg2, rfl, hn2, hr2⟩
    obtain ⟨fields', hdecl, hentries⟩ :=
      Scope.declare_ok s1.notes.symbols.size (isWord_ne_empty hw) hfree
    simp only [hdecl]
    refine .bind (link_yields (size_lt_of_add hn2)) ?_
    rintro _ s3 ⟨hg3, hn3, hr3⟩
    have hnew := introduces_of_add hn2 hn3
    have hg : Grows d.ids s s3 :=
      ((hg1.trans hg2).trans hg3).mono fun i => by simp [VarDecl.ids, List.count_append]
    have hsize3 : s3.notes.symbols.size = s.notes.symbols.size + 1 := hsize1 ▸ hnew.size
    refine .pure ⟨⟨hg, fun hr => ⟨hsize3, fun env hscope => ?_⟩⟩, ?_, fun _ => ?_⟩
    · obtain ⟨_, ⟨⟩, hname, htype⟩ := hb (hg2.reports (hg3.reports hr))
      rw [← hsize1]
      exact varBound_lasting hnew.link (hglobal ▸ hnew.symbol) hfn hname
        ((htype env hscope).keep (hg2.trans hg3).keeps)
    · intro x id hx
      rw [Scope.lookup_of_entries hentries hfree] at hx
      split at hx
      · exact Option.some.inj hx ▸ symbol?_lt hnew.symbol
      · exact Nat.lt_of_lt_of_le (hf x id hx) hg.size
    · rw [hentries, hsize1]

theorem fieldDecls_yields (ds : List VarDecl) {s : State} {fields : Scope}
    (ht : InTable s.notes t) (hf : ∀ x id, fields.lookup x = some id → id < s.notes.symbols.size)
    (hw : ∀ d ∈ ds, Lexer.IsWord d.name.name) :
    Yields (ds.foldlM (fieldDecl t) fields) s fun fields' s' =>
      Outcome t s (ds.flatMap VarDecl.ids) ds.length
        (fun env n a => VarsBound env a false n ds) s' ∧
      (∀ x id, fields'.lookup x = some id → id < s'.notes.symbols.size) ∧
      (s'.reports = [] →
        fields'.entries = fields.entries ++ fieldEntries s.notes.symbols.size ds) := by
  induction ds generalizing s fields with
  | nil =>
    exact .pure ⟨.nothing fun _ _ _ => trivial, hf, fun _ => by simp [fieldEntries]⟩
  | cons d ds ih =>
    rw [List.foldlM_cons]
    refine .bind (fieldDecl_yields ht fields d hf (hw d (.head _))) ?_
    rintro fields1 s1 ⟨h1, hf1, he1⟩
    refine (ih (ht.grow h1.1) hf1 fun d hd => hw d (.tail _ hd)).mono ?_
    rintro fields2 s2 ⟨h2, hf2, he2⟩
    refine ⟨(h1.trans h2).cast (by simp [Nat.add_comm]), hf2, fun hr => ?_⟩
    have hr1 := h2.1.reports hr
    rw [he2 hr, he1 hr1, (h1.2 hr1).1]
    simp [fieldEntries]

/-- What a step does that binds a declaration of the program. -/
structure Declared (t : ScopeTable) (s : State) (d : Decl) (t' : ScopeTable) (s' : State) : Prop where
  outer : t'.outer = t.outer
  inTable : InTable s'.notes t'
  outcome : Outcome t s d.nameIds d.symbolCount (fun env n a => DeclBound a env n d) s'
  free : s'.reports = [] → t.lookupLocal d.key = none
  described : s'.reports = [] → ∀ f, d = .fn f →
    ∃ sy, s'.notes.symbol? s.notes.symbols.size = some sy ∧ f.Described sy
  inScope : s'.reports = [] → ∀ env, Scoped s.notes t env → Scoped s'.notes t' (d :: env)

/-- A declaration that was reported. -/
theorem declared_of_report {t t' : ScopeTable} {s s' : State} {d : Decl} (hg : Grows d.nameIds s s')
    (houter : t'.outer = t.outer) (ht : InTable s'.notes t') (hr : s'.reports ≠ []) :
    Declared t s d t' s' where
  outer := houter
  inTable := ht
  outcome := ⟨hg, fun h => absurd h hr⟩
  free h := absurd h hr
  described h := absurd h hr
  inScope h := absurd h hr

theorem structDecl_yields (ht : InTable s.notes t) (d : StructDecl)
    (hw : Lexer.IsWord d.name.name) (hwf : ∀ fd ∈ d.fields, Lexer.IsWord fd.name.name) :
    Yields (structDecl t d) s (Declared t s (.struct d)) := by
  unfold structDecl
  cases htaken : t.lookupLocal (structKey d.name.name) with
  | some k =>
    simp only [htaken, Option.isSome_some, if_true]
    refine .bind report_yields ?_
    rintro _ s1 ⟨hg1, hn1, hr1⟩
    refine .bind (fieldDecls_yields d.fields (ht.grow hg1) (by simp)
      hwf) ?_
    rintro fields s2 ⟨h2, -⟩
    have hg : Grows (Decl.struct d).nameIds s s2 := (hg1.trans h2.1).mono fun i => by
      simp [Decl.nameIds, List.count_cons]
    exact .pure (declared_of_report hg rfl (ht.grow hg) fun h => hr1 (h2.1.reports h))
  | none =>
    simp only [htaken, Option.isSome_none, if_false, Bool.false_eq_true]
    refine .bind (fieldDecls_yields d.fields ht (by simp) hwf) ?_
    rintro fields s1 ⟨h1, hf1, he1⟩
    have hfields : ∀ fields' (x : String) (i : SymbolId), some fields = some fields' →
        fields'.lookup x = some i → i < s1.notes.symbols.size := by
      rintro _ x i ⟨⟩ hx
      exact hf1 x i hx
    refine .bind (add_yields (fun _ h => by cases h) hfields
      ⟨by simp [Symbol.structDef], by simp [Symbol.structDef]⟩) ?_
    rintro id s2 ⟨hg2, rfl, hn2, hr2⟩
    refine (declare_yields (structKey_ne_empty _) htaken (size_lt_of_add hn2)).mono ?_
    rintro t' s3 ⟨houter, hlookup, hg3, hn3, hr3⟩
    have hnew := introduces_of_add hn2 hn3
    have hg : Grows (Decl.struct d).nameIds s s3 :=
      ((h1.1.trans hg2).trans hg3).mono fun i => by
        simp [Decl.nameIds, List.count_cons, List.count_append]
    have htable := inTable_declare (ht.grow hg) (symbol?_lt hnew.symbol) hlookup
    refine ⟨houter, htable, ⟨hg, fun hr => ?_⟩, fun _ => htaken, fun _ f hf => (by cases hf),
      fun hr env hscope => scoped_declare (d := .struct d) (hscope.grow hg) hw hlookup hnew.link⟩
    have hr1 := hg2.reports (hg3.reports hr)
    obtain ⟨hsize1, hb1⟩ := h1.2 hr1
    refine ⟨by rw [hnew.size, hsize1]; rfl, fun env hscope b hk => ⟨?_, ?_⟩⟩
    · exact hb1 env hscope b ((hg2.trans hg3).keeps.trans hk)
    · obtain ⟨sy', hsy', halike⟩ := hk.symbol hnew.symbol rfl
      rw [← hsize1]
      refine ⟨hk.link hnew.link, sy', fields, hsy', halike.fields?, ?_⟩
      rw [he1 hr1]
      rfl

/-! ## Functions -/

/-- The symbol of a function before its parameters are known. -/
def fnSymbol (d : FnDecl) (isGlobal : Bool) : Symbol :=
  { Symbol.function d.name.name (.ofScalar d.returns) d.name.span with isGlobal }

theorem fnName_yields (ht : InTable s.notes t) (d : FnDecl) (hw : Lexer.IsWord d.name.name) :
    Yields (fnName t d) s fun r s' => Grows [d.name.id] s s' ∧ r.2.outer = t.outer ∧
      InTable s'.notes r.2 ∧ (r.1 = none → s'.reports ≠ []) ∧
      ∀ id, r.1 = some id → id = s.notes.symbols.size ∧
        s'.notes.symbols.size = s.notes.symbols.size + 1 ∧
        s'.notes.symbol? id = some (fnSymbol d t.atProgramLevel) ∧ s'.notes.Links d.name.id id ∧
        t.lookupLocal d.name.name = none ∧
        ∀ y, r.2.lookup y = if y = d.name.name then some id else t.lookup y := by
  unfold fnName
  cases htaken : t.lookupLocal d.name.name with
  | some k =>
    simp only [Option.isSome_some, if_true]
    refine .bind report_yields ?_
    rintro _ s1 ⟨hg1, hn1, hr1⟩
    exact .pure ⟨hg1.mono (by simp), rfl, ht.grow hg1, fun _ => hr1, by simp⟩
  | none =>
    simp only [Option.isSome_none, if_false, Bool.false_eq_true]
    refine .bind (add_yields (fun _ h => by cases h) (fun _ _ _ h => by cases h)
      Ty.stringless_fn) ?_
    rintro id s1 ⟨hg1, rfl, hn1, hr1⟩
    refine .bind (declare_yields (isWord_ne_empty hw) htaken (size_lt_of_add hn1)) ?_
    rintro t' s2 ⟨houter, hlookup, hg2, hn2, hr2⟩
    have hnew := introduces_of_add hn1 hn2
    have hg := hg1.trans hg2
    refine .pure ⟨hg, houter, inTable_declare (ht.grow hg) (symbol?_lt hnew.symbol) hlookup,
      by simp, ?_⟩
    rintro _ ⟨⟩
    exact ⟨rfl, hnew.size, hnew.symbol, hnew.link, trivial, hlookup⟩

theorem isFunction_setParams (sy : Symbol) (ps : List Ty) :
    (sy.setParams ps).isFunction = sy.isFunction := by
  unfold Symbol.setParams
  split
  next info h => simp [Symbol.isFunction, Symbol.fnInfo?, h]
  next => rfl

theorem sane_setParams {a : Annotations} {id : SymbolId} {sy : Symbol} {ps : List Ty}
    (hsy : a.symbol? id = some sy) (hfn : sy.isFunction = true)
    (hty : (sy.setParams ps).ty.Stringless) (h : a.Sane) :
    (a.update id (·.setParams ps)).Sane := by
  have hother : ∀ {k s'}, (a.update id (·.setParams ps)).symbol? k = some s' →
      s'.isFunction = false → a.symbol? k = some s' := by
    intro k s' hk hf
    rw [symbol?_update] at hk
    split at hk
    next hkid =>
      subst hkid
      rw [hsy] at hk
      obtain rfl := Option.some.inj hk
      rw [isFunction_setParams, hfn] at hf
      cases hf
    next => exact hk
  refine ⟨fun hl => ?_, fun hs hd => ?_, fun hs hf hx => ?_, fun {k s'} hs => ?_⟩
  · rw [size_update]; exact h.link hl
  · rw [size_update]; exact h.definition (hother hs (Symbol.isFunction_of_definition hd)) hd
  · rw [size_update]; exact h.field (hother hs (Symbol.isFunction_of_fields hf)) hf hx
  · rw [symbol?_update] at hs
    split at hs
    next hk =>
      subst hk
      rw [hsy] at hs
      exact Option.some.inj hs ▸ hty
    next => exact h.stringless hs

theorem keeps_setParams {a : Annotations} {id : SymbolId} {sy : Symbol} {ps : List Ty}
    (hsy : a.symbol? id = some sy) (hfn : sy.isFunction = true) :
    a.Keeps (a.update id (·.setParams ps)) := by
  refine ⟨fun h => h, fun {k s'} hk hf => ⟨s', ?_, .refl s'⟩⟩
  rw [symbol?_update]
  split
  next hkid =>
    subst hkid
    rw [hsy] at hk
    obtain rfl := Option.some.inj hk
    rw [hfn] at hf
    cases hf
  next => exact hk

theorem described_setParams (d : FnDecl) (g : Bool) :
    d.Described ((fnSymbol d g).setParams (d.params.map (.ofScalar ·.type))) :=
  ⟨rfl, _, rfl, rfl, rfl⟩

theorem isWord_of_params {ps : List Param} (hw : Every Token.Wf (Param.allTokens ps)) :
    ∀ d ∈ ps.map Param.decl, Lexer.IsWord d.name.name := by
  intro d hd
  obtain ⟨p, hp, rfl⟩ := List.mem_map.1 hd
  have hmem : Token.ident p.name.name ∈ Param.allTokens ps := by
    cases ps with
    | nil => cases hp
    | cons q qs =>
      obtain rfl | hp := List.mem_cons.1 hp
      · simp [Param.allTokens, Param.tokens]
      · exact List.mem_append_right _ (List.mem_flatMap.2 ⟨p, hp, by simp [Param.tokens]⟩)
  have : (Token.ident p.name.name).Wf := hw _ hmem
  exact this.1

theorem ids_params (ps : List Param) :
    (ps.map Param.decl).flatMap VarDecl.ids = ps.flatMap Param.ids := by
  rw [List.flatMap_map]
  rfl

theorem setParams_yields {id : SymbolId} {ps : List Param} (hid : id < s.notes.symbols.size) :
    Yields (setParams (some id) ps) s fun _ s' => s'.reports = s.reports ∧
      s'.notes = s.notes.update id (·.setParams (ps.map (.ofScalar ·.type))) := by
  refine .bind (symbol_yields hid) ?_
  rintro _ _ ⟨rfl, -⟩
  exact .modify ⟨rfl, rfl⟩

/-- Told its parameters, the symbol of a function is another. That changes nothing that was there
before it. -/
theorem State.Grows.setParams {s' s'' : State} {ids : List NodeId} (h : Grows ids s s') {id : SymbolId}
    {sy : Symbol} {ps : List Ty} (hid : s.notes.symbols.size ≤ id)
    (hsy : s'.notes.symbol? id = some sy) (hfn : sy.isFunction = true)
    (hty : (sy.setParams ps).ty.Stringless) (hr : s''.reports = s'.reports)
    (hn : s''.notes = s'.notes.update id (·.setParams ps)) : Grows ids s s'' where
  link hl := by rw [hn]; exact h.link hl
  count i := by rw [hn, linkCount_update]; exact h.count i
  size := by rw [hn, size_update]; exact h.size
  kept {k} hk := by
    rw [hn, symbol?_update, if_neg (Nat.ne_of_lt (Nat.lt_of_lt_of_le hk hid))]
    exact h.kept hk
  reported := hr ▸ h.reported
  sane hs := by rw [hn]; exact sane_setParams hsy hfn hty (h.sane hs)

/-- The body of a function whose scope was entered from `t1`. -/
theorem fnBody_yields {t1 t2 : ScopeTable} {b : Body} (hs : s.notes.Sane)
    (ht : InTable s.notes t2) (houter : t2.outer = t1.scopes) (hw : Every Token.Wf b.tokens) :
    Yields (body t2 b >>= leave) s fun t' s' => t' = t1 ∧
      Outcome t2 s b.nameIds b.allDecls.length (fun env n a => BodyBound a env n b) s' := by
  have hlevel : t2.atProgramLevel = false := by
    simp [ScopeTable.atProgramLevel, houter, ScopeTable.scopes]
  refine .bind (body_yields b hs ht hlevel hw) ?_
  rintro t3 s3 ⟨houter3, h3⟩
  refine (leave_yields (houter3.trans houter)).mono ?_
  rintro _ _ ⟨rfl, rfl⟩
  exact ⟨rfl, h3⟩

theorem fnDecl_yields (hs : s.notes.Sane) (ht : InTable s.notes t) (d : FnDecl)
    (hw : Every Token.Wf (Decl.fn d).tokens) : Yields (fnDecl t d) s (Declared t s (.fn d)) := by
  simp only [Decl.tokens, every_cons, every_append] at hw
  obtain ⟨-, ⟨hname, -⟩, -, hwparams, -, hwbody⟩ := hw
  refine .bind (fnName_yields ht d hname) ?_
  rintro ⟨id?, t1⟩ s1 ⟨hg1, houter1, ht1, hbad, hgood⟩
  refine .bind (varDecls_yields _ (inTable_enter ht1) (isWord_of_params hwparams)) ?_
  rintro t2 s2 ⟨houter2, ht2, ho2, hscope2⟩
  have hg2 := hg1.trans ho2.1
  rw [ids_params] at hg2
  cases id? with
  | none =>
    refine .bind (.pure (Q := fun _ s' => s' = s2) rfl) ?_
    rintro _ _ rfl
    refine (fnBody_yields (hg2.sane hs) ht2 houter2 hwbody).mono ?_
    rintro _ s4 ⟨rfl, h4⟩
    have hg : Grows (Decl.fn d).nameIds s s4 := by
      have := hg2.trans h4.1
      simpa [Decl.nameIds] using this
    exact declared_of_report hg houter1 (ht1.grow (ho2.1.trans h4.1))
      fun h => hbad rfl (ho2.1.reports (h4.1.reports h))
  | some id =>
    obtain ⟨rfl, hsize1, hsym1, hlink1, hfree, hlookup⟩ := hgood id rfl
    have hdeclared : ∀ env, Scoped s.notes t env → Scoped s1.notes t1 (.fn d :: env) :=
      fun env hscope => scoped_declare (d := .fn d) (hscope.grow hg1) hname hlookup hlink1
    have hsym2 : s2.notes.symbol? s.notes.symbols.size = some (fnSymbol d t.atProgramLevel) :=
      (ho2.1.kept (by omega)).trans hsym1
    refine .bind (setParams_yields (symbol?_lt hsym2)) ?_
    rintro _ s3 ⟨hr3, hn3⟩
    have hkeep3 : s2.notes.Keeps s3.notes := by rw [hn3]; exact keeps_setParams hsym2 rfl
    have hg3 : Grows (d.name.id :: d.params.flatMap Param.ids) s s3 :=
      hg2.setParams (Nat.le_refl _) hsym2 rfl Ty.stringless_fn hr3 hn3
    have hsize3 : s3.notes.symbols.size = s2.notes.symbols.size := by rw [hn3, size_update]
    have ht3 : InTable s3.notes t2 := fun x k hx => by rw [hsize3]; exact ht2 x k hx
    refine (fnBody_yields (hg3.sane hs) ht3 houter2 hwbody).mono ?_
    rintro _ s4 ⟨rfl, h4⟩
    have hg : Grows (Decl.fn d).nameIds s s4 := hg3.trans h4.1
    refine ⟨houter1, ?_, ⟨hg, fun hr => ?_⟩, fun _ => hfree, fun hr f hf => ?_,
      fun hr env hscope => ?_⟩
    · have hle : s1.notes.symbols.size ≤ s4.notes.symbols.size := by
        have := ho2.1.size
        have := h4.1.size
        omega
      exact fun x k hx => Nat.lt_of_lt_of_le (ht1 x k hx) hle
    · have hr2 : s2.reports = [] := hr3 ▸ h4.1.reports hr
      obtain ⟨hsize2, hb2⟩ := ho2.2 hr2
      obtain ⟨hsize4, hb4⟩ := h4.2 hr
      rw [List.length_map] at hsize2
      refine ⟨by simp only [Decl.symbolCount]; omega, fun env hscope b hk => ?_⟩
      have hscope1 := scoped_enter (hdeclared env hscope)
      have hscope3 := (hscope2 hr2 _ hscope1).keep hkeep3
      have hkeep := h4.1.keeps.trans hk
      refine ⟨hkeep.link (hkeep3.link (ho2.1.link hlink1)), ?_, ?_⟩
      · have := hb2 _ hscope1 b (hkeep3.trans hkeep)
        rwa [hsize1] at this
      · have := hb4 _ hscope3 b hk
        rwa [hsize3, hsize2, hsize1] at this
    · cases hf
      refine ⟨_, ?_, described_setParams d t.atProgramLevel⟩
      have hlt : s.notes.symbols.size < s3.notes.symbols.size := by
        rw [hsize3]; exact symbol?_lt hsym2
      rw [h4.1.kept hlt, hn3, symbol?_update, if_pos rfl, hsym2]
      rfl
    · exact (hdeclared env hscope).keep ((ho2.1.keeps.trans hkeep3).trans h4.1.keeps)

/-! ## Programs -/

theorem decl_yields (hs : s.notes.Sane) (ht : InTable s.notes t) (hlevel : t.atProgramLevel = true)
    (d : Decl) (hw : Every Token.Wf d.tokens) : Yields (decl t d) s (Declared t s d) := by
  cases d with
  | var d =>
    have hname : Lexer.IsWord d.name.name :=
      isWord_of_decls (show Every Token.Wf ([d].flatMap VarDecl.tokens) by
        simpa [Decl.tokens] using hw) d (.head _)
    refine (varDecl_yields ht d hname).mono ?_
    rintro t' s' ⟨⟨houter, ht', ho, hscope⟩, hfree⟩
    refine ⟨houter, ht', ?_, hfree, fun _ f hf => (by cases hf), hscope⟩
    refine ho.mono (fun i => by simp [Decl.nameIds]) fun env n a h => ?_
    rw [hlevel] at h
    exact h.1
  | struct d =>
    simp only [Decl.tokens, every_cons, every_append] at hw
    exact structDecl_yields ht d hw.2.1.1 (isWord_of_decls hw.2.2.2.1)
  | fn d => exact fnDecl_yields hs ht d hw

theorem atProgramLevel_iff : t.atProgramLevel = true ↔ t.outer = [] := by
  simp [ScopeTable.atProgramLevel]

theorem lookup_eq_lookupLocal {x : String} (h : t.outer = []) : t.lookup x = t.lookupLocal x := by
  rw [ScopeTable.lookup_eq, h, ScopeTable.lookupLocal]
  cases t.inner.lookup x <;> rfl

/-- The number of symbols that declarations have. -/
def symbolTotal (ds : List Decl) : Nat := (ds.map Decl.symbolCount).sum

/-- What is known when declarations of the program are bound and nothing is reported. -/
structure AllBound (env : List Decl) (n : Nat) (ds : List Decl) (a : Annotations) : Prop where
  bound : Lasting (DeclsBound · env n ds) a
  described : FnsDescribed a n ds
  free : ∀ d ∈ ds, find env d.key = none
  nodup : (ds.map Decl.key).Nodup

theorem decls_yields (ds : List Decl) {s : State} {t : ScopeTable} (hs : s.notes.Sane)
    (ht : InTable s.notes t) (hlevel : t.outer = []) (hw : ∀ d ∈ ds, Every Token.Wf d.tokens) :
    Yields (ds.foldlM decl t) s fun t' s' => t'.outer = [] ∧ Grows (ds.flatMap Decl.nameIds) s s' ∧
      (s'.reports = [] → s'.notes.symbols.size = s.notes.symbols.size + symbolTotal ds ∧
        ∀ env, Scoped s.notes t env → AllBound env s.notes.symbols.size ds s'.notes) := by
  induction ds generalizing s t with
  | nil =>
    exact .pure ⟨hlevel, .refl s, fun _ => ⟨rfl, fun env _ =>
      ⟨fun _ _ => trivial, trivial, by simp, by simp⟩⟩⟩
  | cons d ds ih =>
    rw [List.foldlM_cons]
    refine .bind (decl_yields hs ht (atProgramLevel_iff.2 hlevel) d (hw d (.head _))) ?_
    intro t1 s1 h1
    have hg1 := h1.outcome.1
    refine (ih (hg1.sane hs) h1.inTable (h1.outer.trans hlevel) fun d hd => hw d (.tail _ hd)).mono ?_
    rintro t2 s2 ⟨houter2, hg2, hb2⟩
    refine ⟨houter2, hg1.trans hg2, fun hr => ?_⟩
    have hr1 := hg2.reports hr
    obtain ⟨hsize1, hb1⟩ := h1.outcome.2 hr1
    obtain ⟨hsize2, hall⟩ := hb2 hr
    refine ⟨by simp only [symbolTotal, List.map_cons, List.sum_cons] at hsize2 ⊢; omega, ?_⟩
    intro env hscope
    have hrest := hall _ (h1.inScope hr1 env hscope)
    rw [hsize1] at hrest
    have hfree : find env d.key = none :=
      hscope.missing ((lookup_eq_lookupLocal hlevel).trans (h1.free hr1))
    refine ⟨fun b hk => ⟨?_, hrest.bound b hk⟩, ⟨fun f hf => ?_, hrest.described⟩, ?_, ?_⟩
    · exact hb1 env hscope b (hg2.keeps.trans hk)
    · obtain ⟨sy, hsy, hd⟩ := h1.described hr1 f hf
      have hlt : s.notes.symbols.size < s1.notes.symbols.size := symbol?_lt hsy
      exact ⟨sy, (hg2.kept hlt).trans hsy, hd⟩
    · intro d' hd'
      obtain rfl | hd' := List.mem_cons.1 hd'
      · exact hfree
      · have := hrest.free d' hd'
        rw [find, List.find?_cons] at this
        split at this
        · cases this
        · exact this
    · rw [List.map_cons, List.nodup_cons]
      refine ⟨fun hmem => ?_, hrest.nodup⟩
      obtain ⟨d', hd', hkey⟩ := List.mem_map.1 hmem
      have := hrest.free d' hd'
      rw [find, List.find?_cons_of_pos (by simpa using hkey.symm)] at this
      cases this

/-- **Binding a program succeeds** and leaves the scope of the program alone. If nothing is reported,
every name is bound. -/
theorem program_yields (p : Program) (hw : Every Token.Wf p.tokens) :
    Yields (program p) ⟨.empty, []⟩ fun t s => t.depth = 1 ∧ s.notes.Sane ∧
      (∀ i, s.notes.linkCount i ≤ p.nameIds.count i) ∧ (∀ r ∈ s.reports, r.isError = true) ∧
      (s.reports = [] → s.notes.symbols.size = symbolTotal p.decls ∧
        AllBound [] 0 p.decls s.notes) := by
  have hwd : ∀ d ∈ p.decls, Every Token.Wf d.tokens := fun d hd t ht =>
    hw t (List.mem_flatMap.2 ⟨d, hd, ht⟩)
  have hscope : Scoped .empty .initial [] := ⟨fun h => (by cases h), fun _ => rfl, by simp⟩
  refine (decls_yields p.decls sane_empty (fun _ _ h => by cases h) rfl hwd).mono ?_
  rintro t s ⟨houter, hg, hb⟩
  refine ⟨by simp [ScopeTable.depth, ScopeTable.scopes, houter], hg.sane sane_empty, fun i => ?_,
    ?_, fun hr => ?_⟩
  · have := hg.count i
    simpa [linkCount, Annotations.empty, NodeMap.empty, Program.nameIds] using this
  · obtain ⟨rs, hrs, herr⟩ := hg.reported
    rwa [hrs, List.nil_append]
  · obtain ⟨hsize, hall⟩ := hb hr
    exact ⟨by simpa [Annotations.empty] using hsize, hall [] hscope⟩

end Binding

end FlatC
