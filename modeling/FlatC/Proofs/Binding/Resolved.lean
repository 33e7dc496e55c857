import FlatC.Proofs.Binding.Spec
import FlatC.Proofs.Syntax.Sound

/-!
# Programs whose names are bound

`Resolved p a` is what binding leaves behind if it reports nothing: every name of `p` is
bound in the notes `a`, and no name is linked twice, so a link is found by looking the
occurrence up. It survives the stages that come after, which leave the links alone.
-/

namespace FlatC

namespace NodeMap

variable {α : Type} {m : NodeMap α} {i : NodeId} {v : α}

theorem mem_of_get? (h : m.get? i = some v) : (i, v) ∈ m.entries := by
  obtain ⟨l, l', hentries, -⟩ := List.lookup_eq_some_iff.1 h
  rw [hentries]
  exact List.mem_append_right l (.head l')

theorem isSome_get?_iff : (m.get? i).isSome = true ↔ i ∈ m.entries.map Prod.fst := by
  obtain ⟨es⟩ := m
  simp only [get?]
  induction es with
  | nil => simp
  | cons e es ih =>
    rw [List.lookup_cons, List.map_cons, List.mem_cons]
    by_cases h : i = e.1
    · simp [h]
    · simp [h, beq_false_of_ne h, ih]

/-- A value that was put in once is found. -/
theorem get?_of_mem (hone : (m.entries.map Prod.fst).count i ≤ 1) (h : (i, v) ∈ m.entries) :
    m.get? i = some v := by
  obtain ⟨es⟩ := m
  unfold get?
  induction es with
  | nil => cases h
  | cons e es ih =>
    obtain ⟨j, l⟩ := e
    simp only [List.map_cons, List.count_cons] at hone
    rw [List.lookup_cons]
    by_cases hij : i = j
    · subst hij
      have hnone : i ∉ es.map Prod.fst := by
        rw [← List.count_eq_zero]
        simp only [beq_self_eq_true, if_true] at hone
        omega
      obtain h | h := List.mem_cons.1 h
      · simp [(Prod.mk.inj h).2]
      · exact absurd (List.mem_map_of_mem (f := Prod.fst) h) hnone
    · rw [beq_false_of_ne hij]
      obtain h | h := List.mem_cons.1 h
      · exact absurd (Prod.mk.inj h).1 hij
      · exact ih (Nat.le_trans (Nat.le_add_right _ _) hone) h

end NodeMap

/-! ## The variables of blocks -/

namespace Binding

variable {env : List Decl} {a : Annotations} {n : Nat}

theorem mem_extend_struct {ds : List VarDecl} {sd : StructDecl} :
    Decl.struct sd ∈ extend env ds ↔ Decl.struct sd ∈ env := by
  simp [extend]

theorem TypeBound.extend {ds : List VarDecl} {t : TypeSpec} {s : Symbol} :
    TypeBound (extend env ds) a t s ↔ TypeBound env a t s := by
  cases t <;> simp [TypeBound, mem_extend_struct]

theorem VarsBound.extend {ds es : List VarDecl} {g : Bool} :
    VarsBound (extend env ds) a g n es ↔ VarsBound env a g n es := by
  induction es generalizing n with
  | nil => exact .rfl
  | cons e es ih => simp only [VarsBound, VarBound, TypeBound.extend, ih]

theorem VarsBound.append {ds es : List VarDecl} {g : Bool} (h : VarsBound env a g n ds)
    (h' : VarsBound env a g (n + ds.length) es) : VarsBound env a g n (ds ++ es) := by
  induction ds generalizing n with
  | nil => exact h'
  | cons d ds ih =>
    refine ⟨h.1, ih h.2 ?_⟩
    rwa [List.length_cons, Nat.add_comm ds.length, ← Nat.add_assoc] at h'

/-- The `i`th of several variables has the `i`th of their symbols. -/
theorem VarsBound.get {ds : List VarDecl} {g : Bool} (h : VarsBound env a g n ds) {i : Nat}
    {d : VarDecl} (hi : ds[i]? = some d) : VarBound env a g d (n + i) := by
  induction ds generalizing n i with
  | nil => cases hi
  | cons x ds ih =>
    cases i with
    | zero =>
      cases hi
      exact h.1
    | succ i =>
      have := ih h.2 hi
      rwa [Nat.add_assoc, Nat.add_comm 1] at this

mutual

/-- The symbols of all blocks of a body follow each other. -/
theorem BodyBound.vars : ∀ {b : Body} {env : List Decl} {n : Nat}, BodyBound a env n b →
    VarsBound env a false n b.allDecls
  | .block _ _, _, _, ⟨hd, hs⟩ => hd.append (VarsBound.extend.1 hs.vars)

theorem StmtBound.vars : ∀ {s : Stmt} {env : List Decl} {n : Nat}, StmtBound a env n s →
    VarsBound env a false n s.allDecls
  | .ifThen _ _ _, _, _, h | .whileLoop _ _ _, _, _, h => BodyBound.vars h.2
  | .ifElse _ _ _ _, _, _, h => (BodyBound.vars h.2.1).append (BodyBound.vars h.2.2)
  | .assign .., _, _, _ | .increment .., _, _, _ | .decrement .., _, _, _ | .read .., _, _, _
  | .write .., _, _, _ | .call .., _, _, _ | .ret .., _, _, _ => trivial

theorem StmtsBound.vars : ∀ {ss : List Stmt} {env : List Decl} {n : Nat}, StmtsBound a env n ss →
    VarsBound env a false n (Stmt.manyDecls ss)
  | [], _, _, _ => trivial
  | _ :: _, _, _, ⟨h, hs⟩ => (StmtBound.vars h).append (StmtsBound.vars hs)

end

theorem FnsDescribed.imp {b : Annotations} {ds : List Decl} (h : FnsDescribed a n ds)
    (hk : ∀ {k s}, a.symbol? k = some s →
      ∃ s', b.symbol? k = some s' ∧ ∀ f : FnDecl, f.Described s → f.Described s') :
    FnsDescribed b n ds := by
  induction ds generalizing n with
  | nil => trivial
  | cons d ds ih =>
    refine ⟨fun f hf => ?_, ih h.2⟩
    obtain ⟨s, hs, hd⟩ := h.1 f hf
    obtain ⟨s', hs', himp⟩ := hk hs
    exact ⟨s', hs', himp f hd⟩

end Binding

open Binding Grammar

/-- Every name of `p` is bound in `a`. -/
structure Resolved (p : Program) (a : Annotations) : Prop where
  sane : a.Sane
  single : ∀ i, a.linkCount i ≤ 1
  size : a.symbols.size = symbolTotal p.decls
  lasting : Lasting (DeclsBound · [] 0 p.decls) a
  described : FnsDescribed a 0 p.decls
  nodup : (p.decls.map Decl.key).Nodup

namespace Resolved

variable {p : Program} {a : Annotations}

theorem bound (h : Resolved p a) : DeclsBound a [] 0 p.decls := h.lasting.here

theorem linked? (h : Resolved p a) {i : NodeId} {k : SymbolId} (hl : a.Links i k) :
    a.linked? i = some k :=
  NodeMap.get?_of_mem (h.single i) hl

theorem symbolOf? (h : Resolved p a) {i : NodeId} {k : SymbolId} (hl : a.Links i k) :
    a.symbolOf? i = a.symbol? k := by
  rw [Annotations.symbolOf?, h.linked? hl, Option.bind_some]

/-- A name is linked to one symbol. -/
theorem unique (h : Resolved p a) {i : NodeId} {k k' : SymbolId} (hl : a.Links i k)
    (hl' : a.Links i k') : k = k' :=
  Option.some.inj ((h.linked? hl).symm.trans (h.linked? hl'))

end Resolved

/-- What was read from a text is spelled as the lexer spells it, and no id in it comes twice. -/
theorem wf_of_parse {source : String} {ts : Lexer.Tokens} {p : Program}
    (hlex : tokenize source = .ok ts) (hparse : parse ts.lexemes = .ok p) :
    Every Token.Wf p.tokens ∧ p.ids.Nodup := by
  have hread := parse_sound hparse
  refine ⟨hread.spelled (fun _ => trivial) (fun _ => trivial) ?_, hread.nodup_ids⟩
  intro t ht
  obtain ⟨l, hl, rfl⟩ := List.mem_map.1 ht
  exact Lexer.tokenize_wf hlex l hl

/-- **Binding a program succeeds**, closes every block that it opens, and leaves every name bound if
it reports nothing. The names are spelled as the lexer spells them, and no id comes twice. -/
theorem bind_of_wf {p : Program} (hwf : Every Token.Wf p.tokens) (hnodup : p.ids.Nodup) :
    ∃ t s, (Binding.program p).run ⟨.empty, []⟩ = .ok (t, s) ∧ t.depth = 1 ∧
      (∀ r ∈ s.reports, r.isError = true) ∧ (s.reports = [] → Resolved p s.notes) := by
  obtain ⟨t, s, hrun, hdepth, hsane, hcount, herr, hgood⟩ := program_yields p hwf
  refine ⟨t, s, hrun, hdepth, herr, fun hr => ?_⟩
  obtain ⟨hsize, hall⟩ := hgood hr
  refine ⟨hsane, fun i => ?_, hsize, hall.bound, hall.described, hall.nodup⟩
  have := List.nodup_iff_count.1 hnodup i
  have := hcount i
  have := p.count_ids i
  omega

/-- What was read from a text can be bound. -/
theorem bind_of_parse {source : String} {ts : Lexer.Tokens} {p : Program}
    (hlex : tokenize source = .ok ts) (hparse : parse ts.lexemes = .ok p) :
    ∃ t s, (Binding.program p).run ⟨.empty, []⟩ = .ok (t, s) ∧ t.depth = 1 ∧
      (∀ r ∈ s.reports, r.isError = true) ∧ (s.reports = [] → Resolved p s.notes) :=
  bind_of_wf (wf_of_parse hlex hparse).1 (wf_of_parse hlex hparse).2

end FlatC
