import FlatC.Proofs.Renaming.Binding
import FlatC.Proofs.Renaming.Stages

/-!
# Compiling renamed programs

Only the names of declarations get into code. If they stay, all other names of a program may be
changed: it is compiled to the same code, with the same reports and the same labels
(`Session.compileProgram_rename`).

A variable that is a struct is **rooted** if its type has the name of a struct of the program. The
symbols of a bound program are, so they match those of the renamed program.
-/

namespace FlatC

/-- The type of a variable that is a struct has the name of a struct of the program. -/
def Symbol.Rooted (p : Program) (s : Symbol) : Prop :=
  s.isStructVar = true → ∃ d, Decl.struct d ∈ p.decls ∧ s.ty = .struct d.name.name

theorem Symbol.rooted_of_definition? {p : Program} {s : Symbol} (h : s.definition? = none) :
    s.Rooted p := by
  intro hvar
  rw [isStructVar, h] at hvar
  cases hvar

theorem Symbol.definition?_of_other {s : Symbol} (h : s.isStructDef = true ∨ s.isFunction = true) :
    s.definition? = none := by
  unfold isStructDef isFunction fields? fnInfo? at h
  unfold definition?
  cases hk : s.kind <;> simp_all

namespace Binding

variable {p : Program} {a : Annotations} {env : List Decl} {n : Nat} {s : Symbol}

theorem VarBound.rooted {g : Bool} {d : VarDecl} {k : SymbolId} (h : VarBound env a g d k)
    (henv : ∀ sd, Decl.struct sd ∈ env → Decl.struct sd ∈ p.decls) (hs : a.symbol? k = some s) :
    s.Rooted p := by
  obtain ⟨-, s', hs', -, -, htype⟩ := h
  obtain rfl : s' = s := Option.some.inj (hs'.symm.trans hs)
  cases hd : d.type with
  | scalar sc =>
    rw [hd] at htype
    apply Symbol.rooted_of_definition?
    rw [Symbol.definition?, htype.2.1]
  | struct i =>
    rw [hd] at htype
    obtain ⟨sd, -, hmem, hname, -, -, -, hty⟩ := htype
    exact fun _ => ⟨sd, henv sd hmem, hty.trans (congrArg Ty.struct hname.symm)⟩

theorem VarsBound.rooted {g : Bool} {ds : List VarDecl} (h : VarsBound env a g n ds)
    (henv : ∀ sd, Decl.struct sd ∈ env → Decl.struct sd ∈ p.decls) {j : Nat}
    (hj : j < ds.length) (hs : a.symbol? (n + j) = some s) : s.Rooted p :=
  (h.get (List.getElem?_eq_getElem hj)).rooted henv hs

theorem DeclBound.rooted {d : Decl} (h : DeclBound a env n d)
    (hfn : ∀ f, d = .fn f → ∃ s, a.symbol? n = some s ∧ f.Described s)
    (henv : ∀ sd, Decl.struct sd ∈ env → Decl.struct sd ∈ p.decls) {j : Nat}
    (hj : j < d.symbolCount) (hs : a.symbol? (n + j) = some s) : s.Rooted p := by
  cases d with
  | var d =>
    obtain rfl : j = 0 := Nat.lt_one_iff.1 hj
    exact VarBound.rooted h henv hs
  | struct d =>
    rcases Nat.lt_succ_iff_lt_or_eq.1 hj with hfield | rfl
    · exact h.1.rooted henv hfield hs
    · obtain ⟨-, s', fields, hs', hfields, -⟩ := h.2
      obtain rfl : s' = s := Option.some.inj (hs'.symm.trans hs)
      have hstruct : s'.isStructDef = true := by
        rw [Symbol.isStructDef, hfields, Option.isSome_some]
      exact Symbol.rooted_of_definition? (Symbol.definition?_of_other (.inl hstruct))
  | fn f =>
    cases j with
    | zero =>
      obtain ⟨s', hs', hdesc⟩ := hfn f rfl
      obtain rfl : s' = s := Option.some.inj (hs'.symm.trans hs)
      obtain ⟨info, hinfo, -⟩ := hdesc.info
      have hfun : s'.isFunction = true := by rw [Symbol.isFunction, hinfo, Option.isSome_some]
      exact Symbol.rooted_of_definition? (Symbol.definition?_of_other (.inr hfun))
    | succ j =>
      have henv' : ∀ sd, Decl.struct sd ∈ Decl.fn f :: env → Decl.struct sd ∈ p.decls := by
        intro sd hsd
        exact henv sd ((List.mem_cons.1 hsd).resolve_left Decl.noConfusion)
      have hj' : j < f.variables.length := by
        simp only [Decl.symbolCount] at hj
        simp only [FnDecl.variables, List.length_append, List.length_map]
        omega
      refine h.variables.rooted henv' hj' ?_
      rwa [Nat.add_assoc, Nat.add_comm 1]

/-- The variables that are structs of a program have structs of it as their types. -/
theorem DeclsBound.rooted {ds : List Decl} (h : DeclsBound a env n ds)
    (hfns : FnsDescribed a n ds) (henv : ∀ sd, Decl.struct sd ∈ env → Decl.struct sd ∈ p.decls)
    (hds : ∀ d ∈ ds, d ∈ p.decls) {j : Nat} (hj : j < symbolTotal ds)
    (hs : a.symbol? (n + j) = some s) : s.Rooted p := by
  induction ds generalizing env n j with
  | nil => exact absurd hj (Nat.not_lt_zero j)
  | cons d ds ih =>
    rw [List.forall_mem_cons] at hds
    by_cases hhere : j < d.symbolCount
    · exact h.1.rooted hfns.1 henv hhere hs
    · have henv' : ∀ sd, Decl.struct sd ∈ d :: env → Decl.struct sd ∈ p.decls := by
        intro sd hsd
        rcases List.mem_cons.1 hsd with heq | hsd
        · rw [heq]
          exact hds.1
        · exact henv sd hsd
      have hsum : symbolTotal (d :: ds) = d.symbolCount + symbolTotal ds := by
        simp [symbolTotal]
      refine ih h.2 hfns.2 henv' hds.2 (j := j - d.symbolCount) (by omega) ?_
      rwa [Nat.add_assoc, Nat.add_sub_cancel' (Nat.le_of_not_lt hhere)]

end Binding

open Binding

variable {p : Program} {a b : Annotations} {r : Renaming}

theorem Resolved.rooted (h : Resolved p a) {k : SymbolId} {s : Symbol}
    (hs : a.symbol? k = some s) : s.Rooted p := by
  have hk : k < a.symbols.size := (Array.getElem?_eq_some_iff.1 hs).1
  rw [h.size] at hk
  rw [← Nat.zero_add k] at hs
  exact h.bound.rooted h.described (fun _ => nofun) (fun _ hd => hd) hk hs

theorem Symbol.Rooted.matches_rename {s : Symbol} (h : s.Rooted p)
    (hp : ∀ d ∈ p.decls, r.name d.name.name = d.name.name) : s.Matches (s.rename r) := by
  refine ⟨?_, rfl, rfl, rfl, rfl, s.definition?_rename, s.fnInfo?_rename⟩
  show (if s.isStructVar then s.ty.rename r else s.ty) = s.ty
  by_cases hvar : s.isStructVar = true
  · obtain ⟨d, hd, hty⟩ := h hvar
    rw [if_pos hvar, hty]
    exact congrArg Ty.struct (hp (.struct d) hd)
  · rw [if_neg hvar]

/-- Binding the renamed program leaves notes that match. -/
theorem Resolved.matches_rename (h : Resolved p a)
    (hp : ∀ d ∈ p.decls, r.name d.name.name = d.name.name) : a.Matches (a.rename r) := by
  refine ⟨fun hl => hl, fun {k s} hs => ⟨s.rename r, ?_, (h.rooted hs).matches_rename hp⟩,
    fun hty => hty⟩
  rw [Annotations.symbol?_rename, hs, Option.map_some]

/-! ## Whole programs -/

section

variable {f : String → String}

theorem Program.main?_rename (hp : ∀ d ∈ p.decls, f d.name.name = d.name.name) :
    (p.rename f).main? = p.main?.map (FnDecl.rename f) := by
  have hmain : ∀ g ∈ p.functions, (g.rename f).isMain = g.isMain := fun g hg =>
    congrArg (· == "main") (hp (.fn g) (Program.mem_functions.1 hg))
  rw [main?, main?, functions_rename, List.find?_map]
  exact congrArg (Option.map _) (List.find?_congr hmain)

theorem Typing.program_repeats (hr : Resolved p a) (h : a.Matches b)
    (hp : ∀ d ∈ p.decls, f d.name.name = d.name.name) :
    Checked.Repeats (program a p) (program b (p.rename f)) := by
  have hmain : hasMain b (p.rename f) = hasMain a p := by
    unfold hasMain
    rw [Program.main?_rename hp]
    cases hfind : p.main? with
    | none => rfl
    | some g =>
      have hg := Program.mem_functions.1 (List.mem_of_find?_eq_some hfind)
      obtain ⟨s, hs, -⟩ := described_of_mem hr hg
      obtain ⟨s', hs', hm⟩ := h.symbolOf? hs
      have hid : b.symbolOf? (g.rename f).name.id = some s' := hs'
      simp only [Option.map_some, Option.any_some, hs, hid, Option.bind_some, hm.fnInfo?]
  unfold program
  rw [p.functions_rename, hmain]
  exact .bind (functions_repeats h p.functions) fun _ => .refl _

end

/-- Checking says the same, and the notes go on to match. -/
theorem checkTypes_rename (hr : Resolved p a) {a' : Annotations} {rs : List Report}
    (hp : ∀ d ∈ p.decls, r.name d.name.name = d.name.name)
    (h : checkTypes p a = (.ok (), a', rs)) :
    ∃ b', checkTypes (p.rename r.name) (a.rename r) = (.ok (), b', rs) ∧ a'.Matches b' := by
  obtain ⟨hresult, hrest⟩ := Prod.mk.inj h
  obtain ⟨rfl, rfl⟩ := Prod.mk.inj hrest
  have hm := hr.matches_rename (r := r) hp
  have heq := Typing.program_repeats hr hm hp () hresult
  refine ⟨(a.rename r).withTypes (Typing.program a p).types, ?_, hm.withTypes _⟩
  rw [checkTypes, heq, hresult]

theorem placeSymbols_rename {f : String → String} {a' : Annotations} (hm : a.Matches b)
    (h : placeSymbols p a = .ok a') :
    ∃ b', placeSymbols (p.rename f) b = .ok b' ∧ a'.Matches b' := by
  unfold placeSymbols at h ⊢
  cases hrun : (Layout.decls p.decls).run a with
  | error d => simp [hrun] at h
  | ok x =>
    rw [hrun] at h
    obtain rfl := Except.ok.inj h
    obtain ⟨u, b', hrun', -, hm'⟩ := Layout.decls_follows p.decls a b x.1 x.2 hm hrun
    exact ⟨b', by rw [Program.rename, hrun'], hm'⟩

theorem generate_rename {f : String → String} (hk : Code.Stable p f a b) {o : Options} {n m : Nat}
    {code : Code} (h : generate o p a n = .ok (code, m)) :
    generate o (p.rename f) b n = .ok (code, m) := by
  obtain ⟨_, _, hrun, rfl, rfl⟩ :=
    Code.decls_repeats hk p.decls (fun _ hd => hd) n n code m rfl h
  exact hrun

/-- Declarations that were read keep their names if these are identifiers that stay. -/
theorem names_of_parse {source : String} {ts : Lexer.Tokens} (hlex : tokenize source = .ok ts)
    (hparse : parse ts.lexemes = .ok p)
    (hfix : ∀ d ∈ p.decls, ∀ x : Identifier, x.1 = d.name.name → r.map x = x) :
    ∀ d ∈ p.decls, r.name d.name.name = d.name.name := by
  intro d hd
  have hw := (wf_of_parse hlex hparse).1
  have hname : Token.ident d.name.name ∈ d.tokens := by
    cases d <;> simp [Decl.tokens, Decl.name, VarDecl.tokens]
  have hid : IsIdentifier d.name.name := hw _ (List.mem_flatMap.2 ⟨d, hd, hname⟩)
  rw [r.name_of_identifier hid, hfix d hd ⟨d.name.name, hid⟩ rfl]

/-- **The names of variables, parameters and fields do not matter.** A program that was read from a
text is compiled as it is with its identifiers renamed, in any session: to the same code or to none,
with the same reports and the same next label. Different identifiers get different names, and the
names of declarations stay. -/
theorem Session.compileProgram_rename {source : String} {ts : Lexer.Tokens}
    (hlex : tokenize source = .ok ts) (hparse : FlatC.parse ts.lexemes = .ok p) (r : Renaming)
    (hfix : ∀ d ∈ p.decls, ∀ x : Identifier, x.1 = d.name.name → r.map x = x) (s : Session)
    (o : Options) : s.compileProgram o (p.rename r.name) = s.compileProgram o p := by
  have hp := names_of_parse hlex hparse hfix
  obtain ⟨hw, hn⟩ := wf_of_parse hlex hparse
  obtain ⟨a, rs, hbind, herr, hgood⟩ := bindNames_of_parse hlex hparse
  unfold compileProgram Session.bind
  simp only [hbind, bindNames_rename hp hbind]
  cases hfail : (s.report rs).failed with
  | true => simp only [if_true]
  | false =>
    obtain rfl := nil_of_not_failed herr hfail
    obtain ⟨a', rs', b, hcheck, herr', hplace, hready⟩ := (hgood rfl).ready hn
    obtain ⟨c', hcheck', hm⟩ := checkTypes_rename (hgood rfl) hp hcheck
    simp only [Bool.false_eq_true, if_false]
    unfold checkAndGenerate Session.check
    simp only [hcheck, hcheck', Except.map]
    cases hfail' : ((s.report []).report rs').failed with
    | true => simp only [if_true]
    | false =>
      obtain rfl := nil_of_not_failed herr' hfail'
      have han : Accepted p b := ⟨hw, hn, hbind, hcheck, hplace⟩
      obtain ⟨c, hplace', hm'⟩ := placeSymbols_rename (f := r.name) hm hplace
      obtain ⟨code, m, hgen⟩ := generate_total hready o s.nextLabel
      have hgen' := generate_rename ⟨hm', hp, fun _ hf => han.anchored hf⟩ hgen
      simp only [Bool.false_eq_true, if_false]
      unfold placeAndGenerate Session.generate
      simp [hplace, hplace', report, hgen, hgen']

/-- Two identifiers change places. -/
def Renaming.swap (x y : Identifier) : Renaming := ⟨Equiv.swap x y, (Equiv.swap x y).injective⟩

/-- The two parameters of a function and the two fields of a struct change their names. -/
theorem Session.compileProgram_rename_swap :
    ∃ ts p code r,
      tokenize "struct P \x7b int a; int b; \x7d; int f(int a, int b) \x7b struct P p; p.b = a; return b; \x7d void main() \x7b f(1, 2); \x7d" = .ok ts ∧
      FlatC.parse ts.lexemes = .ok p ∧ Renaming.name r "a" = "b" ∧ r.name "b" = "a" ∧
      (∀ d ∈ p.decls, ∀ z : Identifier, z.1 = d.name.name → r.map z = z) ∧
      p.functions.map (·.params.map (·.name.name)) = [["a", "b"], []] ∧
      ((Session.new "").compileProgram {} p).1 = .ok (some code) ∧
      ((Session.new "").compileProgram {} (p.rename r.name)).1 = .ok (some code) := by
  obtain ⟨p, b, code, m, ⟨hlex, hparse, -, -, -⟩, -, -, htest, -⟩ := exists_of_compiled
    "struct P \x7b int a; int b; \x7d; int f(int a, int b) \x7b struct P p; p.b = a; return b; \x7d void main() \x7b f(1, 2); \x7d"
    (fun p => p.functions.map (·.params.map (·.name.name)) == [["a", "b"], []] &&
      p.decls.all (fun d => d.name.name != "a" && d.name.name != "b") &&
      ((Session.new "").compileProgram {} p).1.toOption.any Option.isSome)
    (fun _ => true) (by decide +kernel) (by decide +kernel)
  simp only [Bool.and_eq_true, beq_iff_eq, List.all_eq_true, bne_iff_ne, and_assoc] at htest
  obtain ⟨hparams, hnames, hsome⟩ := htest
  have ha : IsIdentifier "a" := by decide
  have hb : IsIdentifier "b" := by decide
  have hfix : ∀ d ∈ p.decls, ∀ z : Identifier, z.1 = d.name.name →
      (Renaming.swap ⟨"a", ha⟩ ⟨"b", hb⟩).map z = z := by
    intro d hd z hz
    apply Equiv.swap_apply_of_ne_of_ne
    · rintro rfl
      exact (hnames d hd).1 hz.symm
    · rintro rfl
      exact (hnames d hd).2 hz.symm
  rcases compileProgram_cases hlex hparse (Session.new "") {} with hnone | ⟨_, code, _, _, _, hcode⟩
  · simp [hnone, Except.toOption] at hsome
  · refine ⟨_, p, code, .swap ⟨"a", ha⟩ ⟨"b", hb⟩, hlex, hparse, ?_, ?_, hfix, hparams, hcode, ?_⟩
    · rw [Renaming.name_of_identifier _ ha]
      exact congrArg Subtype.val (Equiv.swap_apply_left _ _)
    · rw [Renaming.name_of_identifier _ hb]
      exact congrArg Subtype.val (Equiv.swap_apply_right _ _)
    · rw [compileProgram_rename hlex hparse _ hfix, hcode]

end FlatC
