import FlatC.Proofs.Binding.Spec
import FlatC.Proofs.Follows
import FlatC.Proofs.Renaming.Tree

/-!
# Binding renamed trees

A `Renaming` maps identifiers to identifiers, different ones to different ones. Binding compares
names and does nothing else with them. So binding a renamed tree goes like binding the tree, with
scopes and symbols that have the other names (`Binding.program_carries`): the links are the same,
and so are the reports, which hold no names.

The type of a struct has the name of the struct in it. Structs keep their names here, since the
names of declarations are to stay in the end; but a type may name a struct that is not there, and
that name may change.
-/

namespace FlatC

open Lexer

instance (x : String) : Decidable (IsWord x) :=
  decidable_of_iff (x.toList.head?.any isLetter = true ∧ x.toList.tail.all isWordChar = true) <| by
    unfold IsWord
    cases x.toList with
    | nil => simp
    | cons c w => simp

/-- The names that the lexer makes identifiers of. -/
def IsIdentifier (x : String) : Prop := (Token.ident x).Wf

instance (x : String) : Decidable (IsIdentifier x) :=
  inferInstanceAs (Decidable (IsWord x ∧ Keyword.ofSpelling? x = none))

abbrev Identifier := { x : String // IsIdentifier x }

theorem IsIdentifier.no_blank {x : String} (h : IsIdentifier x) : ' ' ∉ x.toList := by
  intro hmem
  have := isWordChar_of_isWord h.1 ' ' hmem
  exact absurd this (by decide)

/-- A way to rename identifiers that keeps different ones apart. -/
structure Renaming where
  map : Identifier → Identifier
  inj : Function.Injective map

namespace Renaming

variable (r : Renaming)

/-- Renames an identifier, and nothing else. -/
def word (x : String) : String := if h : IsIdentifier x then (r.map ⟨x, h⟩).1 else x

theorem word_inj : Function.Injective r.word := by
  intro x y h
  unfold word at h
  by_cases hx : IsIdentifier x
  · by_cases hy : IsIdentifier y
    · rw [dif_pos hx, dif_pos hy] at h
      exact congrArg Subtype.val (r.inj (Subtype.ext h))
    · rw [dif_pos hx, dif_neg hy] at h
      exact absurd (h ▸ (r.map ⟨x, hx⟩).2) hy
  · by_cases hy : IsIdentifier y
    · rw [dif_neg hx, dif_pos hy] at h
      exact absurd (h ▸ (r.map ⟨y, hy⟩).2) hx
    · rwa [dif_neg hx, dif_neg hy] at h

theorem blank_mem_word (x : String) : ' ' ∈ (r.word x).toList ↔ ' ' ∈ x.toList := by
  unfold word
  by_cases hx : IsIdentifier x
  · rw [dif_pos hx]
    exact iff_of_false (r.map ⟨x, hx⟩).2.no_blank hx.no_blank
  · rw [dif_neg hx]

/-- Renames what stands behind the last blank. -/
def lastWord : List Char → List Char
  | [] => []
  | c :: cs =>
    if ' ' ∈ c :: cs then c :: lastWord cs else (r.word (String.ofList (c :: cs))).toList

/-- **The name that a name is changed into.** An identifier is renamed; of any other text, the last
word is, if it is an identifier. So the keys of structs are renamed with the structs. -/
def name (x : String) : String := String.ofList (r.lastWord x.toList)

theorem lastWord_of_no_blank {cs : List Char} (h : ' ' ∉ cs) :
    r.lastWord cs = (r.word (String.ofList cs)).toList := by
  cases cs with
  | nil =>
    have hempty : ¬ IsIdentifier (String.ofList []) := by decide
    rw [word, dif_neg hempty]
    rfl
  | cons c cs => rw [lastWord, if_neg h]

theorem blank_mem_lastWord {cs : List Char} (h : ' ' ∈ cs) : ' ' ∈ r.lastWord cs := by
  induction cs with
  | nil => cases h
  | cons c cs ih =>
    rw [lastWord, if_pos h]
    rcases List.mem_cons.1 h with rfl | h
    · exact .head _
    · exact .tail _ (ih h)

theorem blank_of_lastWord {cs : List Char} (h : ' ' ∈ r.lastWord cs) : ' ' ∈ cs := by
  by_contra hnone
  rw [r.lastWord_of_no_blank hnone, blank_mem_word, String.toList_ofList] at h
  exact hnone h

theorem lastWord_inj : ∀ {cs ds : List Char}, r.lastWord cs = r.lastWord ds → cs = ds
  | cs, ds, h => by
    by_cases hc : ' ' ∈ cs
    · have hd : ' ' ∈ ds := r.blank_of_lastWord (h ▸ r.blank_mem_lastWord hc)
      match cs, ds, hc, hd with
      | c :: cs, d :: ds, hc, hd =>
        rw [lastWord, lastWord, if_pos hc, if_pos hd] at h
        obtain ⟨rfl, htail⟩ := List.cons.inj h
        rw [lastWord_inj htail]
    · have hd : ' ' ∉ ds := fun hd => hc (r.blank_of_lastWord (h ▸ r.blank_mem_lastWord hd))
      rw [r.lastWord_of_no_blank hc, r.lastWord_of_no_blank hd] at h
      exact String.ofList_injective (r.word_inj (String.toList_inj.1 h))

theorem name_inj : Function.Injective r.name := fun _ _ h =>
  String.toList_inj.1 (r.lastWord_inj (String.ofList_injective h))

theorem name_of_identifier {x : String} (h : IsIdentifier x) : r.name x = (r.map ⟨x, h⟩).1 := by
  unfold name
  rw [r.lastWord_of_no_blank h.no_blank, String.ofList_toList, String.ofList_toList, word,
    dif_pos h]

@[simp] theorem name_empty : r.name "" = "" := rfl

@[simp] theorem name_structKey (x : String) : r.name (structKey x) = structKey (r.name x) := by
  apply String.toList_inj.1
  simp [name, structKey, lastWord]

end Renaming

/-! ## Scopes and symbols with other names -/

section

variable (r : Renaming)

/-- The scope with given entries. -/
def Scope.ofEntries (es : List (String × SymbolId)) (h : (es.map Prod.fst).Nodup) : Scope where
  symbols := .ofList es
  order := es.map Prod.fst
  nodup := h
  mem_symbols := by simp [Std.ExtTreeMap.mem_ofList]

theorem Scope.entries_ofEntries (es : List (String × SymbolId)) (h : (es.map Prod.fst).Nodup) :
    (ofEntries es h).entries = es := by
  have hfound : ∀ e ∈ es,
      (Std.ExtTreeMap.ofList es : Std.ExtTreeMap String SymbolId)[e.1]?.map (e.1, ·) = some e := by
    intro e he
    have hapart : es.Pairwise fun a b => ¬ compare a.1 b.1 = .eq := by
      simpa [List.Nodup, List.pairwise_map] using h
    rw [Std.ExtTreeMap.getElem?_ofList_of_mem (by simp) hapart he]
    rfl
  show (es.map Prod.fst).filterMap _ = es
  rw [List.filterMap_map]
  exact (List.filterMap_congr hfound).trans List.filterMap_some

def Scope.rename (s : Scope) : Scope :=
  .ofEntries (s.entries.map fun e => (r.name e.1, e.2)) <| by
    have hnames : (s.entries.map fun e => (r.name e.1, e.2)).map Prod.fst =
        (s.entries.map Prod.fst).map r.name := by simp [Function.comp_def]
    rw [hnames]
    exact s.nodup_names.map r.name_inj

theorem Scope.entries_rename (s : Scope) :
    (s.rename r).entries = s.entries.map fun e => (r.name e.1, e.2) :=
  entries_ofEntries ..

def ScopeTable.rename (t : ScopeTable) : ScopeTable :=
  ⟨t.inner.rename r, t.outer.map (Scope.rename r)⟩

/-- The type of a variable with the struct in it renamed. -/
def Ty.rename : Ty → Ty
  | struct x => struct (r.name x)
  | t => t

def SymbolKind.rename : SymbolKind → SymbolKind
  | .structDef fields => .structDef (fields.rename r)
  | k => k

def Symbol.rename (s : Symbol) : Symbol :=
  { s with
    name := r.name s.name
    ty := if s.isStructVar then s.ty.rename r else s.ty
    kind := s.kind.rename r }

def Annotations.rename (a : Annotations) : Annotations :=
  { a with symbols := a.symbols.map (Symbol.rename r) }

end

section

variable {r : Renaming}

theorem Scope.lookup_rename (s : Scope) (x : String) :
    (s.rename r).lookup (r.name x) = s.lookup x := by
  rw [lookup_eq_entries, lookup_eq_entries, entries_rename]
  induction s.entries with
  | nil => rfl
  | cons e es ih =>
    rw [List.map_cons, List.lookup_cons, List.lookup_cons, ih]
    by_cases h : x = e.1
    · simp [h]
    · simp [beq_false_of_ne h, beq_false_of_ne fun hn => h (r.name_inj hn)]

theorem Scope.declare_rename {s s' : Scope} {x : String} {k : SymbolId}
    (h : s.declare x k = .ok s') : (s.rename r).declare (r.name x) k = .ok (s'.rename r) := by
  have hentries := entries_of_declare h
  unfold declare at h
  by_cases hx : x = ""
  · rw [if_pos hx] at h
    cases h
  · rw [if_neg hx] at h
    split at h
    · cases h
    next hnone =>
      have hx' : r.name x ≠ "" := fun heq => hx (r.name_inj (heq.trans r.name_empty.symm))
      have hnone' : (s.rename r).lookup (r.name x) = none := by
        rw [lookup_rename]
        exact lookup_eq_none_iff_symbols.2 hnone
      obtain ⟨u, hu, hentries'⟩ := declare_ok k hx' hnone'
      rw [hu]
      refine congrArg Except.ok (ext_entries ?_)
      rw [hentries', entries_rename, entries_rename, hentries]
      simp

theorem ScopeTable.lookupLocal_rename (t : ScopeTable) (x : String) :
    (t.rename r).lookupLocal (r.name x) = t.lookupLocal x :=
  t.inner.lookup_rename x

theorem ScopeTable.lookup_rename (t : ScopeTable) (x : String) :
    (t.rename r).lookup (r.name x) = t.lookup x := by
  have hscopes : (t.rename r).scopes = t.scopes.map (Scope.rename r) := rfl
  unfold lookup
  rw [hscopes, List.findSome?_map]
  congr 1
  exact funext fun s => s.lookup_rename x

theorem ScopeTable.declare_rename {t t' : ScopeTable} {x : String} {k : SymbolId}
    (h : t.declare x k = .ok t') : (t.rename r).declare (r.name x) k = .ok (t'.rename r) := by
  unfold declare at h
  split at h
  next inner hinner =>
    obtain rfl := Except.ok.inj h
    have hinner' : (t.rename r).inner.declare (r.name x) k = .ok (inner.rename r) :=
      Scope.declare_rename hinner
    rw [declare, hinner']
    rfl
  next => cases h

@[simp] theorem ScopeTable.atProgramLevel_rename (t : ScopeTable) :
    (t.rename r).atProgramLevel = t.atProgramLevel :=
  List.isEmpty_map

@[simp] theorem Symbol.definition?_rename (s : Symbol) :
    (s.rename r).definition? = s.definition? := by
  unfold definition? Symbol.rename
  cases s.kind <;> rfl

@[simp] theorem Symbol.fnInfo?_rename (s : Symbol) : (s.rename r).fnInfo? = s.fnInfo? := by
  unfold fnInfo? Symbol.rename
  cases s.kind <;> rfl

theorem Symbol.fields?_rename (s : Symbol) :
    (s.rename r).fields? = s.fields?.map (Scope.rename r) := by
  unfold fields? Symbol.rename
  cases s.kind <;> rfl

@[simp] theorem Symbol.isStructDef_rename (s : Symbol) :
    (s.rename r).isStructDef = s.isStructDef := by
  unfold isStructDef
  rw [fields?_rename, Option.isSome_map]

theorem Symbol.setParams_rename (s : Symbol) (ps : List Ty) :
    (s.setParams ps).rename r = (s.rename r).setParams ps := by
  cases hk : s.kind <;>
    simp [setParams, Symbol.rename, SymbolKind.rename, isStructVar, definition?, hk]

namespace Annotations

variable {a : Annotations}

@[simp] theorem symbol?_rename {k : SymbolId} :
    (a.rename r).symbol? k = (a.symbol? k).map (Symbol.rename r) := by
  simp [rename, symbol?]

theorem update_rename {k : SymbolId} {f : Symbol → Symbol}
    (hf : ∀ s : Symbol, (f s).rename r = f (s.rename r)) :
    (a.update k f).rename r = (a.rename r).update k f := by
  simp [update, rename, map_modify a.symbols k hf]

end Annotations

end

/-! ## Steps -/

namespace Binding

def State.rename (r : Renaming) (s : State) : State := { s with notes := s.notes.rename r }

/-- From a renamed state, the step `y` gives what `x` does in the new names, where `x` gives
anything; `g` renames the result. -/
def Carries {α β : Type} (r : Renaming) (g : α → β) (x : Binding α) (y : Binding β) : Prop :=
  Follows (fun s s' => s' = State.rename r s) (fun a b => b = g a) x y

namespace Carries

variable {r : Renaming} {α β γ δ : Type} {g : α → β} {h : γ → δ} {x : Binding α} {y : Binding β}

theorem bind {f : α → Binding γ} {f' : β → Binding δ} (hx : Carries r g x y)
    (hf : ∀ a, Carries r h (f a) (f' (g a))) : Carries r h (x >>= f) (y >>= f') :=
  Follows.bind hx (by rintro a _ rfl; exact hf a)

theorem pure {a : α} {b : β} (hb : b = g a) : Carries r g (pure a : Binding α) (pure b) :=
  Follows.pure hb

theorem throw {e : Defect} : Carries r g (throw e : Binding α) y := Follows.throw

theorem getBind {f : State → Binding γ} {f' : State → Binding δ}
    (hf : ∀ s, Carries r h (f s) (f' (s.rename r))) : Carries r h (get >>= f) (get >>= f') :=
  Follows.getBind (by rintro s _ rfl; exact hf s)

theorem modify {u u' : State → State} (hu : ∀ s, u' (s.rename r) = (u s).rename r) :
    Carries r id (modify u : Binding PUnit) (modify u') := by
  intro s s' a s'' hs hrun
  obtain ⟨b, t, hrun', -, ht⟩ := Follows.modify (u := u) (v := u')
    (S := fun s s' => s' = State.rename r s) (by rintro s _ rfl; exact hu s) s s' a s'' hs hrun
  exact ⟨b, t, hrun', rfl, ht⟩

theorem foldlM {k : γ → δ} {u : α → γ → Binding α} {u' : β → δ → Binding β} {cs : List γ}
    (hu : ∀ a, ∀ c ∈ cs, Carries r g (u a c) (u' (g a) (k c))) (a : α) :
    Carries r g (cs.foldlM u a) ((cs.map k).foldlM u' (g a)) :=
  Follows.foldlM (by rintro a _ c hc rfl; exact hu a c hc) rfl

end Carries

variable {r : Renaming} {t : ScopeTable}

theorem report_carries (f : NameFault) (span : Span) :
    Carries r id (report f span) (report f span) :=
  .modify fun _ => rfl

theorem link_carries (node : NodeId) (k : SymbolId) : Carries r id (link node k) (link node k) :=
  .modify fun _ => rfl

theorem symbol_carries (k : SymbolId) : Carries r (Symbol.rename r) (symbol k) (symbol k) := by
  refine .getBind fun s => ?_
  have hk : (s.rename r).notes.symbol? k = (s.notes.symbol? k).map (Symbol.rename r) :=
    Annotations.symbol?_rename
  rw [hk]
  cases s.notes.symbol? k with
  | none => exact .throw
  | some sy => exact .pure rfl

theorem add_carries (sy : Symbol) : Carries r id (add sy) (add (sy.rename r)) := by
  rintro s _ k s' rfl hrun
  obtain ⟨rfl, rfl⟩ := Prod.mk.inj (Except.ok.inj hrun)
  refine ⟨_, _, rfl, ?_, ?_⟩
  · simp [State.rename, Annotations.rename]
  · simp [State.rename, Annotations.rename]

theorem setParams_carries (k? : Option SymbolId) (ps : List Param) :
    Carries r id (setParams k? ps) (setParams k? (ps.map (Param.rename r.name))) := by
  cases k? with
  | none => exact .pure rfl
  | some k =>
    have htypes : (ps.map (Param.rename r.name)).map (fun p => Ty.ofScalar p.type) =
        ps.map fun p => Ty.ofScalar p.type := by
      simp [Param.rename, Function.comp_def]
    refine .bind (symbol_carries k) fun _ => .modify fun s => ?_
    rw [htypes]
    exact congrArg (State.mk · _) (Annotations.update_rename fun sy => sy.setParams_rename _).symm

theorem declare_carries (key : String) (name : Ident) (k : SymbolId) :
    Carries r (ScopeTable.rename r) (declare t key name k)
      (declare (t.rename r) (r.name key) (name.rename r.name) k) := by
  unfold declare
  cases ht : t.declare key k with
  | error e => exact .throw
  | ok t' =>
    rw [ScopeTable.declare_rename ht]
    exact .bind (link_carries name.id k) fun _ => .pure rfl

/-! ## Declarations -/

theorem structOf?_carries (i : Ident) :
    Carries r id (structOf? t i) (structOf? (t.rename r) (i.rename r.name)) := by
  have hlookup : (t.rename r).lookup (structKey (i.rename r.name).name) =
      t.lookup (structKey i.name) := by
    rw [show (i.rename r.name).name = r.name i.name from rfl, ← r.name_structKey]
    exact t.lookup_rename _
  unfold structOf?
  rw [hlookup]
  split
  · exact .pure rfl
  · refine .bind (symbol_carries _) fun sy => .pure ?_
    rw [sy.isStructDef_rename]
    rfl

theorem ofType?_carries (d : VarDecl) :
    Carries r (Option.map (Symbol.rename r)) (ofType? t d)
      (ofType? (t.rename r) (d.rename r.name)) := by
  obtain ⟨type, name, span⟩ := d
  unfold ofType?
  cases type with
  | scalar sc =>
    cases sc with
    | void => exact .bind (report_carries .declaredVoid name.span) fun _ => .pure rfl
    | int | bool => exact .pure rfl
  | struct i =>
    refine .bind (structOf?_carries i) fun k? => ?_
    cases k? with
    | none => exact .bind (report_carries .invalidStruct i.span) fun _ => .pure rfl
    | some k => exact .bind (link_carries i.id k) fun _ => .pure rfl

theorem symbolFor?_carries (taken : Bool) (d : VarDecl) :
    Carries r (Option.map (Symbol.rename r)) (symbolFor? t taken d)
      (symbolFor? (t.rename r) taken (d.rename r.name)) := by
  refine .bind (ofType?_carries d) fun sy? => ?_
  cases taken with
  | true => exact .bind (report_carries .redeclared d.name.span) fun _ => .pure rfl
  | false => exact .pure rfl

theorem varDecl_carries (t : ScopeTable) (d : VarDecl) :
    Carries r (ScopeTable.rename r) (varDecl t d) (varDecl (t.rename r) (d.rename r.name)) := by
  have htaken : (t.rename r).lookupLocal (d.rename r.name).name.name =
      t.lookupLocal d.name.name := t.lookupLocal_rename d.name.name
  unfold varDecl
  rw [htaken, t.atProgramLevel_rename]
  refine .bind (symbolFor?_carries _ d) fun sy? => ?_
  cases sy? with
  | none => exact .pure rfl
  | some sy => exact .bind (add_carries _) fun k => declare_carries d.name.name d.name k

theorem fieldDecl_carries (fields : Scope) (d : VarDecl) :
    Carries r (Scope.rename r) (fieldDecl t fields d)
      (fieldDecl (t.rename r) (fields.rename r) (d.rename r.name)) := by
  have htaken : (fields.rename r).contains (d.rename r.name).name.name =
      fields.contains d.name.name := by
    rw [Scope.contains_eq_isSome, Scope.contains_eq_isSome]
    exact congrArg Option.isSome (fields.lookup_rename d.name.name)
  unfold fieldDecl
  rw [htaken]
  refine .bind (symbolFor?_carries _ d) fun sy? => ?_
  cases sy? with
  | none => exact .pure rfl
  | some sy =>
    refine .bind (add_carries sy) fun k => ?_
    cases hf : fields.declare d.name.name k with
    | error e => exact .throw
    | ok fields' =>
      have hf' : (fields.rename r).declare (d.rename r.name).name.name k = .ok (fields'.rename r) :=
        Scope.declare_rename hf
      simp only [id_eq, hf']
      exact .bind (link_carries d.name.id k) fun _ => .pure rfl

/-! ## Uses -/

theorem ident_carries (i : Ident) :
    Carries r id (ident t i) (ident (t.rename r) (i.rename r.name)) := by
  have hlookup : (t.rename r).lookup (i.rename r.name).name = t.lookup i.name :=
    t.lookup_rename i.name
  unfold ident
  rw [hlookup]
  split
  · exact .bind (link_carries i.id _) fun _ => .pure rfl
  · exact .bind (report_carries .undeclared i.span) fun _ => .pure rfl

theorem access_carries (k : SymbolId) (span : Span) :
    Carries r id (access k span) (access k span) := by
  refine .bind (symbol_carries k) fun sy => ?_
  rw [sy.definition?_rename]
  cases sy.definition? with
  | none => exact .pure rfl
  | some d => exact .pure rfl

theorem field?_carries (definition : SymbolId) (x : String) :
    Carries r id (field? definition x) (field? definition (r.name x)) := by
  refine .bind (symbol_carries definition) fun sy => .pure ?_
  rw [sy.fields?_rename]
  cases sy.fields? with
  | none => rfl
  | some fields => exact fields.lookup_rename x

theorem place_carries (q : Place) :
    Carries r id (place t q) (place (t.rename r) (q.rename r.name)) := by
  induction q with
  | var node name =>
    refine .bind (ident_carries name) fun k? => ?_
    cases k? with
    | none => exact .pure rfl
    | some k => exact access_carries k name.span
  | field node base name ih =>
    refine .bind ih fun acc => ?_
    cases acc with
    | bad => exact .pure rfl
    | plain span => exact .bind (report_carries .dotOfNonStruct span) fun _ => .pure rfl
    | struct definition =>
      refine .bind (field?_carries definition name.name) fun k? => ?_
      cases k? with
      | none => exact .bind (report_carries .invalidField name.span) fun _ => .pure rfl
      | some k => exact .bind (link_carries name.id k) fun _ => access_carries k name.span

mutual

theorem expr_carries : ∀ e : Expr,
    Carries r id (expr t e) (expr (t.rename r) (e.rename r.name))
  | .int .. | .str .. | .bool .. => .pure rfl
  | .place q => .bind (place_carries q) fun _ => .pure rfl
  | .assign _ target value => .bind (place_carries target) fun _ => expr_carries value
  | .call _ callee args => .bind (ident_carries callee) fun _ => exprs_carries args
  | .unary _ _ operand => expr_carries operand
  | .binary _ _ left right => .bind (expr_carries left) fun _ => expr_carries right

theorem exprs_carries : ∀ es : List Expr,
    Carries r id (exprs t es) (exprs (t.rename r) (Expr.renameAll r.name es))
  | [] => .pure rfl
  | e :: es => .bind (expr_carries e) fun _ => exprs_carries es

end

/-! ## Statements and programs -/

theorem leave_carries (t : ScopeTable) :
    Carries r (ScopeTable.rename r) (leave t) (leave (t.rename r)) := by
  obtain ⟨inner, outer⟩ := t
  cases outer with
  | nil => exact .throw
  | cons s ss => exact .pure rfl

mutual

theorem stmt_carries : ∀ (s : Stmt) (t : ScopeTable),
    Carries r (ScopeTable.rename r) (stmt t s) (stmt (t.rename r) (s.rename r.name))
  | .assign _ node target value, _ =>
    .bind (expr_carries (.assign node target value)) fun _ => .pure rfl
  | .increment _ target, _ | .decrement _ target, _ | .read _ target, _ =>
    .bind (place_carries target) fun _ => .pure rfl
  | .write _ value, _ => .bind (expr_carries value) fun _ => .pure rfl
  | .ifThen _ cond b, t | .whileLoop _ cond b, t =>
    .bind (expr_carries cond) fun _ => .bind (body_carries b t.enter) fun _ => leave_carries _
  | .ifElse _ cond b b', t =>
    .bind (expr_carries cond) fun _ => .bind (body_carries b t.enter) fun _ =>
      .bind (leave_carries _) fun t => .bind (body_carries b' t.enter) fun _ => leave_carries _
  | .call _ node callee args, _ =>
    .bind (expr_carries (.call node callee args)) fun _ => .pure rfl
  | .ret _ none, _ => .pure rfl
  | .ret _ (some value), _ => .bind (expr_carries value) fun _ => .pure rfl

theorem body_carries : ∀ (b : Body) (t : ScopeTable),
    Carries r (ScopeTable.rename r) (body t b) (body (t.rename r) (b.rename r.name))
  | .block _ ss, t =>
    .bind (.foldlM (fun t d _ => varDecl_carries t d) t) fun _ => stmts_carries ss _

theorem stmts_carries : ∀ (ss : List Stmt) (t : ScopeTable),
    Carries r (ScopeTable.rename r) (stmts t ss) (stmts (t.rename r) (Stmt.renameAll r.name ss))
  | [], _ => .pure rfl
  | s :: ss, t => .bind (stmt_carries s t) fun _ => stmts_carries ss _

end

theorem fnName_carries (d : FnDecl) :
    Carries r (fun x => (x.1, x.2.rename r)) (fnName t d)
      (fnName (t.rename r) (d.rename r.name)) := by
  have htaken : (t.rename r).lookupLocal (d.rename r.name).name.name =
      t.lookupLocal d.name.name := t.lookupLocal_rename d.name.name
  unfold fnName
  rw [htaken, t.atProgramLevel_rename]
  split
  · exact .bind (report_carries .redeclared d.name.span) fun _ => .pure rfl
  · exact .bind (add_carries _) fun k =>
      .bind (declare_carries d.name.name d.name k) fun _ => .pure rfl

theorem fnDecl_carries (t : ScopeTable) (d : FnDecl) :
    Carries r (ScopeTable.rename r) (fnDecl t d) (fnDecl (t.rename r) (d.rename r.name)) := by
  have hparams : (d.params.map (Param.rename r.name)).map Param.decl =
      (d.params.map Param.decl).map (VarDecl.rename r.name) := by
    simp only [List.map_map]
    rfl
  refine .bind (fnName_carries d) fun x => ?_
  show Carries r (ScopeTable.rename r) _ (do
    let t ←
      ((d.params.map (Param.rename r.name)).map Param.decl).foldlM varDecl (x.2.rename r).enter
    setParams x.1 (d.params.map (Param.rename r.name))
    leave (← body t (d.body.rename r.name)))
  rw [hparams]
  refine .bind (.foldlM (fun t d _ => varDecl_carries t d) x.2.enter) fun t => ?_
  refine .bind (setParams_carries x.1 d.params) fun _ => ?_
  exact .bind (body_carries d.body t) fun _ => leave_carries _

theorem structDecl_carries (t : ScopeTable) (d : StructDecl)
    (hd : r.name d.name.name = d.name.name) :
    Carries r (ScopeTable.rename r) (structDecl t d)
      (structDecl (t.rename r) (d.rename r.name)) := by
  have hfields : Carries r (Scope.rename r) (d.fields.foldlM (fieldDecl t) .empty)
      ((d.rename r.name).fields.foldlM (fieldDecl (t.rename r)) .empty) :=
    .foldlM (fun fields x _ => fieldDecl_carries fields x) Scope.empty
  have hkey : structKey (d.rename r.name).name.name = r.name (structKey d.name.name) :=
    (r.name_structKey d.name.name).symm
  have htaken' : (t.rename r).lookupLocal (structKey (d.rename r.name).name.name) =
      t.lookupLocal (structKey d.name.name) := by rw [hkey, t.lookupLocal_rename]
  unfold structDecl
  cases htaken : (t.lookupLocal (structKey d.name.name)).isSome with
  | true =>
    simp only [htaken', htaken, if_true]
    refine .bind (report_carries .redeclared d.name.span) fun _ => ?_
    exact .bind hfields fun _ => .pure rfl
  | false =>
    simp only [htaken', htaken, Bool.false_eq_true, if_false]
    refine .bind hfields fun fields => ?_
    have hsymbol : Symbol.structDef (r.name d.name.name) (fields.rename r) d.name.span =
        (Symbol.structDef d.name.name fields d.name.span).rename r := by
      simp [Symbol.rename, Symbol.structDef, SymbolKind.rename, hd, Symbol.isStructVar,
        Symbol.definition?]
    show Carries r _ _ (do
      let id ← add { Symbol.structDef (r.name d.name.name) (fields.rename r) d.name.span with
        isGlobal := (t.rename r).atProgramLevel }
      declare (t.rename r) (structKey (d.rename r.name).name.name) (d.name.rename r.name) id)
    rw [hsymbol, hkey, t.atProgramLevel_rename]
    exact .bind (add_carries _) fun k => declare_carries _ d.name k

theorem decl_carries (t : ScopeTable) (d : Decl) (hd : r.name d.name.name = d.name.name) :
    Carries r (ScopeTable.rename r) (decl t d) (decl (t.rename r) (d.rename r.name)) := by
  cases d with
  | var d => exact varDecl_carries t d
  | struct d => exact structDecl_carries t d hd
  | fn d => exact fnDecl_carries t d

/-- **Binding a renamed program goes like binding the program**, if structs keep their names. -/
theorem program_carries (p : Program) (hp : ∀ d ∈ p.decls, r.name d.name.name = d.name.name) :
    Carries r (ScopeTable.rename r) (program p) (program (p.rename r.name)) :=
  .foldlM (fun t d hd => decl_carries t d (hp d hd)) ScopeTable.initial

end Binding

theorem bindNames_rename {r : Renaming} {p : Program} {a : Annotations} {rs : List Report}
    (hp : ∀ d ∈ p.decls, r.name d.name.name = d.name.name)
    (h : bindNames p .empty = .ok (a, rs)) :
    bindNames (p.rename r.name) .empty = .ok (a.rename r, rs) := by
  unfold bindNames at h ⊢
  cases hrun : (Binding.program p).run ⟨.empty, []⟩ with
  | error d => simp [hrun] at h
  | ok x =>
    obtain ⟨t, s⟩ := x
    rw [hrun] at h
    obtain ⟨rfl, rfl⟩ := Prod.mk.inj (Except.ok.inj h)
    have hstart : (⟨.empty, []⟩ : Binding.State) = Binding.State.rename r ⟨.empty, []⟩ := by
      simp [Binding.State.rename, Annotations.rename, Annotations.empty]
    obtain ⟨_, _, hrun', rfl, rfl⟩ := Binding.program_carries p hp _ _ t s hstart hrun
    rw [hrun']
    rfl

end FlatC
