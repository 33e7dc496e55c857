import FlatC.Proofs.Appending.Reading
import FlatC.Proofs.Binding.Steps
import FlatC.Proofs.Renaming.Stages
import FlatC.Proofs.Spans.Stages

/-!
# Longer programs

A program that goes on where another one ends is bound, checked, placed and compiled declaration by
declaration. Declarations that come later add symbols and links, types of their own expressions and
places of their own symbols. They change nothing that is known before, so the notes of the shorter
program match those of the longer one (`Accepted.matches_append`), and its code comes first
(`compile_append`).
-/

namespace FlatC

open Grammar

/-! ## Binding -/

namespace Binding

/-- Declarations only add to what those before them left. -/
theorem decls_grows {ds es : List Decl} {s s1 s2 : State} {t t1 t2 : ScopeTable}
    (hs : s.notes.Sane) (ht : InTable s.notes t) (hlevel : t.outer = [])
    (hw : ∀ d ∈ ds ++ es, Every Token.Wf d.tokens)
    (hds : (ds.foldlM decl t).run s = .ok (t1, s1))
    (hes : (es.foldlM decl t1).run s1 = .ok (t2, s2)) :
    State.Grows (es.flatMap Decl.nameIds) s1 s2 := by
  induction ds generalizing s t with
  | nil =>
    obtain ⟨rfl, rfl⟩ := run_pure_ok.1 hds
    exact ((decls_yields es hs ht hlevel hw).of_run hes).2.1
  | cons d ds ih =>
    rw [List.foldlM_cons] at hds
    obtain ⟨t', s', hd, hds⟩ := run_bind_ok.1 hds
    have hdeclared :=
      (decl_yields hs ht (atProgramLevel_iff.2 hlevel) d (hw d (.head _))).of_run hd
    exact ih (hdeclared.outcome.1.sane hs) hdeclared.inTable (hdeclared.outer.trans hlevel)
      (fun d hd => hw d (.tail _ hd)) hds

end Binding

section

variable {p q : Program} {es : List Decl} {a b : Annotations}

theorem bindNames_append (hq : q.decls = p.decls ++ es) (hw : Every Token.Wf q.tokens)
    (ha : bindNames p .empty = .ok (a, [])) (hb : bindNames q .empty = .ok (b, [])) :
    ∃ s1 s2, s1.notes = a ∧ s2.notes = b ∧ Binding.State.Grows (es.flatMap Decl.nameIds) s1 s2 := by
  have hwd : ∀ d ∈ p.decls ++ es, Every Token.Wf d.tokens := fun d hd t ht =>
    hw t (List.mem_flatMap.2 ⟨d, hq ▸ hd, ht⟩)
  unfold bindNames at ha hb
  split at ha
  next t1 s1 hrun =>
    split at hb
    next t2 s2 hrun' =>
      rw [Binding.program, hq, List.foldlM_append] at hrun'
      obtain ⟨t', s', hds, hes⟩ := run_bind_ok.1 hrun'
      obtain ⟨rfl, rfl⟩ := Prod.mk.inj (Except.ok.inj (hrun.symm.trans hds))
      refine ⟨s1, s2, (Prod.mk.inj (Except.ok.inj ha)).1, (Prod.mk.inj (Except.ok.inj hb)).1, ?_⟩
      exact Binding.decls_grows Annotations.sane_empty (fun _ _ h => by cases h) rfl hwd hds hes
    next => cases hb
  next => cases ha

/-- What is bound stays bound when declarations are added. -/
theorem Resolved.matches_append (hr : Resolved q b) (hq : q.decls = p.decls ++ es)
    (hw : Every Token.Wf q.tokens) (ha : bindNames p .empty = .ok (a, []))
    (hb : bindNames q .empty = .ok (b, [])) : a.Matches b := by
  obtain ⟨s1, s2, rfl, rfl, hg⟩ := bindNames_append hq hw ha hb
  refine ⟨fun hl => ?_, fun {k s} hs => ?_, fun {i ty} hty => ?_⟩
  · exact hr.linked? (hg.link (NodeMap.mem_of_get? hl))
  · exact ⟨s, (hg.kept (Annotations.symbol?_lt hs)).trans hs, .refl s⟩
  · rw [Annotations.typeOf?, bindNames_types ha] at hty
    cases hty

end

/-! ## Checking -/

theorem Checked.StepOf.bind {α β γ : Type} {x : Checked α} {f : α → Checked β}
    {g : α → Checked γ} (h : ∀ v, (f v).StepOf (g v)) : (x >>= f).StepOf (x >>= g) := by
  intro w hw
  obtain ⟨v, hv, hg⟩ := clean_bind.1 hw
  obtain ⟨⟨u, hf⟩, hsub⟩ := h v w hg
  refine ⟨⟨u, clean_bind.2 ⟨v, hv, hf⟩⟩, ?_⟩
  rw [types_bind hv.1, types_bind hv.1]
  intro t ht
  exact (List.mem_append.1 ht).elim (List.mem_append_left _) fun h =>
    List.mem_append_right _ (hsub t h)

theorem Typing.functions_append (a : Annotations) (fs gs : List FnDecl) :
    (functions a fs).StepOf (functions a (fs ++ gs)) := by
  induction fs with
  | nil => exact fun w _ => ⟨⟨(), rfl, rfl⟩, nofun⟩
  | cons f fs ih => exact .bind fun _ => ih

/-- Types are recorded in functions only. -/
theorem Typing.program_types (a : Annotations) (p : Program) :
    (program a p).types = (functions a p.functions).types := by
  unfold program
  cases hr : (functions a p.functions).result with
  | error d => simp [Checked.andThen, hr]
  | ok v =>
    rw [Checked.types_bind hr]
    cases hasMain a p <;> simp [Checked.report]

section

variable {p q : Program} {es : List Decl} {a b a' b' : Annotations}

/-- The expressions of a program have the same types in a longer one. -/
theorem Typing.program_append (hq : q.decls = p.decls ++ es) (hm : a.Matches b)
    (hp : (program a p).Clean ()) (hc : (program b q).Clean ()) :
    ∀ t ∈ (program a p).types, t ∈ (program b q).types := by
  have hfns : q.functions = p.functions ++ es.filterMap Decl.fn? := by
    rw [Program.functions, hq, List.filterMap_append]
    rfl
  obtain ⟨u, hu, -⟩ := Checked.clean_bind.1 hp
  have hsame : functions b p.functions = functions a p.functions := by
    have := functions_repeats (r := fun x => x) hm p.functions u hu.1
    rwa [List.map_id'' FnDecl.rename_self] at this
  have hstep : (functions a p.functions).StepOf (program b q) := by
    have := functions_append b p.functions (es.filterMap Decl.fn?)
    rw [hsame, ← hfns] at this
    exact this.trans .first
  rw [program_types]
  exact (hstep () hc).2

theorem checkTypes_append (hr : Resolved q b) (hn : q.ids.Nodup)
    (hq : q.decls = p.decls ++ es) (hm : a.Matches b) (hnone : a.types = .empty)
    (ha : checkTypes p a = (.ok (), a', [])) (hb : checkTypes q b = (.ok (), b', [])) :
    a'.Matches b' := by
  obtain ⟨hresult, hrest⟩ := Prod.mk.inj ha
  obtain ⟨rfl, hreports⟩ := Prod.mk.inj hrest
  obtain ⟨hresult', hrest'⟩ := Prod.mk.inj hb
  obtain ⟨rfl, hreports'⟩ := Prod.mk.inj hrest'
  have hsub := Typing.program_append hq hm ⟨hresult, hreports⟩ ⟨hresult', hreports'⟩
  refine ⟨fun hl => ?_, fun hs => ?_, fun {i ty} hty => ?_⟩
  · rw [Annotations.withTypes_eq] at hl ⊢
    exact hm.linked? hl
  · rw [Annotations.withTypes_eq] at hs ⊢
    exact hm.symbol? hs
  · rw [Annotations.withTypes_eq, hnone] at hty
    have hmem := NodeMap.mem_of_get? hty
    rw [NodeMap.empty, List.append_nil, List.mem_reverse] at hmem
    exact Annotations.typeOf?_withTypes (Typing.program_single hr hn) (hsub _ hmem)

end

/-! ## Layout -/

namespace Layout

theorem decls_append {ds es : List Decl} {a c : Annotations}
    (h : (decls (ds ++ es)).run a = .ok ((), c)) :
    ∃ b, (decls ds).run a = .ok ((), b) ∧ (decls es).run b = .ok ((), c) := by
  induction ds generalizing a with
  | nil => exact ⟨a, rfl, h⟩
  | cons d ds ih =>
    obtain ⟨u, a', hd, hds⟩ := run_bind_ok.1 h
    obtain ⟨b, hds, hes⟩ := ih hds
    exact ⟨b, run_bind_ok.2 ⟨u, a', hd, hds⟩, hes⟩

/-- Declarations leave the symbols alone that those before them have. -/
theorem decls_shifts {p : Program} {ds es : List Decl} {a b c : Annotations} {env : List Decl}
    {n : Nat} (h : Resolved p a) (hb : Lasting (Binding.DeclsBound · env n (ds ++ es)) a)
    (hfns : Binding.FnsDescribed a n (ds ++ es)) (hbelow : StructsBelow a env n)
    (hds : (decls ds).run a = .ok ((), b)) (hes : (decls es).run b = .ok ((), c)) :
    b.Shifts c (n + Binding.symbolTotal ds) (n + Binding.symbolTotal (ds ++ es)) := by
  induction ds generalizing a env n with
  | nil =>
    obtain ⟨-, rfl⟩ := run_pure_ok.1 hds
    exact ((decls_yields es h hb hfns hbelow).of_run hes).1
  | cons d ds ih =>
    obtain ⟨u, a', hd, hds⟩ := run_bind_ok.1 hds
    have hsh := ((decl_yields h hb.here.1 hbelow hfns.1).of_run hd).1
    have hbelow' := (StructsBelow.cons h hb.here.1 hbelow).shift hsh
    have hrest := ih (h.shift hsh) (fun c hc => (hb c (hsh.keeps.trans hc)).2)
      (hfns.2.shift hsh) hbelow' hds
    simpa [Binding.symbolTotal, Nat.add_assoc] using hrest

end Layout

section

variable {p q : Program} {es : List Decl} {a b a' b' : Annotations}

theorem Annotations.Matches.shift {n m : Nat} (h : a.Matches b) (hsize : a.symbols.size ≤ n)
    (hs : b.Shifts b' n m) : a.Matches b' := by
  refine ⟨fun hl => ?_, fun {k s} hsym => ?_, fun hty => ?_⟩
  · rw [Annotations.linked?, hs.links]
    exact h.linked? hl
  · have hk : k < n := Nat.lt_of_lt_of_le (symbol?_lt hsym) hsize
    rw [hs.kept (.inl hk)]
    exact h.symbol? hsym
  · rw [Annotations.typeOf?, hs.types]
    exact h.typeOf? hty

theorem placeSymbols_append (hr : Resolved q b) (hq : q.decls = p.decls ++ es)
    (hm : a.Matches b) (hsize : a'.symbols.size = Binding.symbolTotal p.decls)
    (ha : placeSymbols p a = .ok a') (hb : placeSymbols q b = .ok b') : a'.Matches b' := by
  unfold placeSymbols at ha hb
  split at ha
  next u c hrun =>
    obtain rfl := Except.ok.inj ha
    split at hb
    next v d hrun' =>
      obtain rfl := Except.ok.inj hb
      rw [hq] at hrun'
      obtain ⟨mid, hds, hes⟩ := Layout.decls_append hrun'
      obtain ⟨w, mid', hds', -, hm'⟩ :=
        Layout.decls_follows (r := fun x => x) p.decls a b u c hm hrun
      rw [List.map_id'' Decl.rename_self] at hds'
      obtain ⟨-, rfl⟩ := Prod.mk.inj (Except.ok.inj (hds.symm.trans hds'))
      have hlasting := hr.lasting
      have hfns := hr.described
      rw [hq] at hlasting hfns
      have hsh := Layout.decls_shifts hr hlasting hfns (fun _ _ hmem => nomatch hmem) hds hes
      exact hm'.shift (by omega) hsh
    next => cases hb
  next => cases ha

/-- **Declarations that are added change nothing about those that are there.** -/
theorem Accepted.matches_append (hp : Accepted p a) (hb : Accepted q b)
    (hq : q.decls = p.decls ++ es) : a.Matches b := by
  have hsize := hp.ready.1.resolved.size
  obtain ⟨-, -, hbind, hcheck, hplace⟩ := hp
  obtain ⟨hw, hn, hbind', hcheck', hplace'⟩ := hb
  have hr := (resolved_of_bound hw hn hbind').1
  have hm := hr.matches_append hq hw hbind hbind'
  have hm' := checkTypes_append hr hn hq hm (bindNames_types hbind) hcheck hcheck'
  obtain ⟨c, rs, hcheck'', -, hr', -⟩ := checkTypes_written hr hn
  obtain ⟨-, hrest⟩ := Prod.mk.inj (hcheck''.symm.trans hcheck')
  obtain ⟨rfl, -⟩ := Prod.mk.inj hrest
  exact placeSymbols_append hr' hq hm' hsize hplace hplace'

end

/-! ## Code -/

theorem Code.decls_append {o : Options} {b : Annotations} {ds es : List Decl} {n m : Nat}
    {code : Code} (h : (decls o b (ds ++ es)).run n = .ok (code, m)) :
    ∃ x k, (decls o b ds).run n = .ok (x, k) ∧ x <+: code := by
  induction ds generalizing n code with
  | nil => exact ⟨[], n, rfl, List.nil_prefix⟩
  | cons d ds ih =>
    obtain ⟨x, k, hd, hrest⟩ := run_bind_ok.1 h
    obtain ⟨y, k', hds, hpure⟩ := run_bind_ok.1 hrest
    obtain ⟨rfl, rfl⟩ := run_pure_ok.1 hpure
    obtain ⟨z, l, hz, hpre⟩ := ih hds
    refine ⟨x ++ z, l, ?_, List.prefix_append_right_inj x |>.2 hpre⟩
    exact run_bind_ok.2 ⟨x, k, hd, run_bind_ok.2 ⟨z, l, hz, rfl⟩⟩

theorem Accepted.generate_append {p q : Program} {es : List Decl} {a b : Annotations}
    (hp : Accepted p a) (hb : Accepted q b) (hq : q.decls = p.decls ++ es) {o : Options}
    {n m m' : Nat} {code code' : Code} (h : generate o p a n = .ok (code, m))
    (h' : generate o q b n = .ok (code', m')) : code <+: code' := by
  have hstable : Code.Stable p (fun x => x) a b :=
    ⟨hp.matches_append hb hq, fun _ _ => rfl, fun _ hf => hp.anchored hf⟩
  obtain ⟨_, _, hrun, rfl, rfl⟩ :=
    Code.decls_repeats hstable p.decls (fun _ hd => hd) n n code m rfl h
  rw [List.map_id'' Decl.rename_self] at hrun
  rw [generate, hq] at h'
  obtain ⟨x, k, hx, hpre⟩ := Code.decls_append h'
  obtain ⟨rfl, -⟩ := Prod.mk.inj (Except.ok.inj (hrun.symm.trans hx))
  exact hpre

/-- A program of the shape of an accepted one is accepted. -/
theorem Accepted.of_shape {p q : Program} {b : Annotations} (h : Accepted p b)
    (hshape : q.shape = p.shape) (hw : Every Token.Wf q.tokens) (hn : q.ids.Nodup) :
    ∃ c, Accepted q c ∧ c.shape = b.shape := by
  obtain ⟨-, -, hbind, hcheck, hplace⟩ := h
  obtain ⟨a', b', c, hbind', hcheck', hplace', hc⟩ := stages_of_shape hshape hbind hcheck hplace
  exact ⟨c, ⟨hw, hn, hbind', hcheck', hplace'⟩, hc⟩

/-- **Adding to a text adds to its code.** If a text is compiled, and so is the text with more
behind a line break, then the lines of its code come first in the code of the longer text. -/
theorem compile_append {source more : String} {o : Options} {code code' : Code}
    (h : (compile source o).1 = .ok (some code))
    (h' : (compile (source ++ "\n" ++ more) o).1 = .ok (some code')) :
    code.lines <+: code'.lines := by
  obtain ⟨p, a, m, han, hgen⟩ := compile_ok h
  obtain ⟨q, b, m', hbn, hgen'⟩ := compile_ok h'
  have hp := han.accepted
  have hq := hbn.accepted
  obtain ⟨hlex, hparse, -, -, -⟩ := han
  obtain ⟨hlex', hparse', -, -, -⟩ := hbn
  obtain ⟨ds, es, hdecls, hshapes⟩ := parse_append (tokenize_append hlex hlex') hparse hparse'
  -- the first declarations of the longer text, as a program: it differs in spans at most
  have hshape : (Program.mk ds p.nodeCount).shape = p.shape := by
    rw [Program.shape, Program.shape, hshapes]
  obtain ⟨hw, hn⟩ := wf_of_parse hlex' hparse'
  have hwds : Every Token.Wf (Program.mk ds p.nodeCount).tokens := by
    rw [Program.tokens, hdecls, List.flatMap_append, every_append] at hw
    exact hw.1
  have hnds : (Program.mk ds p.nodeCount).ids.Nodup := by
    rw [Program.ids, hdecls, List.flatMap_append] at hn
    exact hn.of_append_left
  obtain ⟨c, hacc, hc⟩ := hp.of_shape hshape hwds hnds
  have hgends : generate o ⟨ds, p.nodeCount⟩ c 0 = .ok (code, m) := by
    rw [← generate_shape, hshape, hc, generate_shape, hgen]
  exact (hacc.generate_append hq hdecls hgends hgen').map Item.line

/-- What is added uses a struct and a function of the shorter text. -/
theorem compile_append_later :
    ∃ code code',
      (compile "struct P \x7b int x; \x7d; void main() \x7b int n; while (n < 3) \x7b n++; \x7d \x7d"
        {}).1 = .ok (some code) ∧
      (compile ("struct P \x7b int x; \x7d; void main() \x7b int n; while (n < 3) \x7b n++; \x7d \x7d" ++
        "\n" ++ "struct P p; int f(int n) \x7b main(); return p.x + n; \x7d") {}).1 =
        .ok (some code') ∧
      Item.label "_f" ∉ code ∧ Item.label "_f" ∈ code' ∧ code.lines <+: code'.lines := by
  obtain ⟨-, -, code, -, -, -, hcode, htest⟩ := exists_of_code
    "struct P \x7b int x; \x7d; void main() \x7b int n; while (n < 3) \x7b n++; \x7d \x7d"
    (fun code => !code.contains (.label "_f")) (by decide +kernel)
  obtain ⟨-, -, code', -, -, -, hcode', htest'⟩ := exists_of_code
    ("struct P \x7b int x; \x7d; void main() \x7b int n; while (n < 3) \x7b n++; \x7d \x7d" ++
      "\n" ++ "struct P p; int f(int n) \x7b main(); return p.x + n; \x7d")
    (fun code => code.contains (.label "_f")) (by decide +kernel)
  rw [Bool.not_eq_true', ← Bool.not_eq_true, List.contains_iff_mem] at htest
  rw [List.contains_iff_mem] at htest'
  exact ⟨code, code', hcode, hcode', htest, htest', compile_append hcode hcode'⟩

end FlatC
