import FlatC.Proofs.Code.Total
import FlatC.Proofs.Syntax.RoundTrip

/-!
# From a text to code

`Analyzed source p b` is the way of a text through the stages up to layout: the text reads
as the program `p`, nothing is wrong with it, and `b` is what is known about it in the
end. `compile_total` says that every text goes as far as it can without a defect.
-/

namespace FlatC

/-- The text reads as the program `p`, no stage reports an error, and layout leaves the notes `b`. -/
inductive Analyzed (source : String) (p : Program) (b : Annotations) : Prop where
  | intro {ts : Lexer.Tokens} {a a' : Annotations} (lex : tokenize source = .ok ts)
      (parse : FlatC.parse ts.lexemes = .ok p) (bind : bindNames p .empty = .ok (a, []))
      (check : checkTypes p a = (.ok (), a', [])) (place : placeSymbols p a' = .ok b) :
      Analyzed source p b

/-- A text reads as one program. -/
theorem Analyzed.program_eq {source : String} {p p' : Program} {b b' : Annotations}
    (h : Analyzed source p b) (h' : Analyzed source p' b') : p = p' := by
  obtain ⟨hlex, hparse, -, -, -⟩ := h
  obtain ⟨hlex', hparse', -, -, -⟩ := h'
  obtain rfl := Except.ok.inj (hlex.symm.trans hlex')
  exact Except.ok.inj (hparse.symm.trans hparse')

/-- What later stages rely on. -/
structure Ready (p : Program) (b : Annotations) : Prop where
  resolved : Resolved p b
  placed : b.AllPlaced 0 p.decls
  written : ∀ f, Decl.fn f ∈ p.decls → f.body.Written b

/-- Checking and layout get ready what is bound. -/
theorem Resolved.ready {p : Program} {a : Annotations} (h : Resolved p a) (hn : p.ids.Nodup) :
    ∃ a' rs b, checkTypes p a = (.ok (), a', rs) ∧ (∀ r ∈ rs, r.isError = true) ∧
      placeSymbols p a' = .ok b ∧ Ready p b := by
  obtain ⟨a', rs, hcheck, herr, h', hw⟩ := checkTypes_written h hn
  obtain ⟨b, hplace, hsh, hall⟩ := placeSymbols_placed h'
  exact ⟨a', rs, b, hcheck, herr, hplace, h'.shift hsh, hall, fun f hf => (hw f hf).congr hsh.typeOf?⟩

theorem bindNames_of_parse {source : String} {ts : Lexer.Tokens} {p : Program}
    (hlex : tokenize source = .ok ts) (hparse : parse ts.lexemes = .ok p) :
    ∃ a rs, bindNames p .empty = .ok (a, rs) ∧ (∀ r ∈ rs, r.isError = true) ∧
      (rs = [] → Resolved p a) := by
  obtain ⟨t, s, hrun, -, herr, hgood⟩ := bind_of_parse hlex hparse
  exact ⟨s.notes, s.reports, by rw [bindNames, hrun], herr, hgood⟩

/-- No stage reports an error in the program `p`, and layout leaves the notes `b`. The program need
not be the one that the parser finds; it has names and ids as if it were. -/
inductive Accepted (p : Program) (b : Annotations) : Prop where
  | intro {a a' : Annotations} (spelled : Grammar.Every Token.Wf p.tokens)
      (distinct : p.ids.Nodup) (bind : bindNames p .empty = .ok (a, []))
      (check : checkTypes p a = (.ok (), a', [])) (place : placeSymbols p a' = .ok b) : Accepted p b

theorem Analyzed.accepted {source : String} {p : Program} {b : Annotations}
    (h : Analyzed source p b) : Accepted p b := by
  obtain ⟨hlex, hparse, hbind, hcheck, hplace⟩ := h
  obtain ⟨hw, hn⟩ := wf_of_parse hlex hparse
  exact ⟨hw, hn, hbind, hcheck, hplace⟩

theorem Accepted.ready {p : Program} {b : Annotations} (h : Accepted p b) :
    Ready p b ∧ p.ids.Nodup := by
  obtain ⟨hw, hn, hbind, hcheck, hplace⟩ := h
  obtain ⟨t, s, hrun, -, -, hgood⟩ := bind_of_wf hw hn
  rw [bindNames, hrun] at hbind
  obtain ⟨rfl, hr⟩ := Prod.mk.inj (Except.ok.inj hbind)
  obtain ⟨a', rs, b', hcheck', -, hplace', hready⟩ := (hgood hr).ready hn
  obtain ⟨-, h⟩ := Prod.mk.inj (hcheck'.symm.trans hcheck)
  obtain ⟨rfl, -⟩ := Prod.mk.inj h
  obtain rfl := Except.ok.inj (hplace'.symm.trans hplace)
  exact ⟨hready, hn⟩

theorem Analyzed.ready {source : String} {p : Program} {b : Annotations}
    (h : Analyzed source p b) : Ready p b ∧ p.ids.Nodup :=
  h.accepted.ready

/-- **Code is written for every program that is ready.** -/
theorem generate_total {p : Program} {b : Annotations} (h : Ready p b) (o : Options) (n : Nat) :
    ∃ code m, generate o p b n = .ok (code, m) := by
  obtain ⟨code, m, hrun, -⟩ :=
    Code.decls_ends (o := o) h.resolved p.decls h.resolved.bound h.resolved.described h.written n
  exact ⟨code, m, hrun⟩

/-! ## Sessions -/

namespace Session

/-- Reports of errors that do not make a session fail are none. -/
theorem nil_of_not_failed {s : Session} {rs : List Report} (herr : ∀ r ∈ rs, r.isError = true)
    (h : (s.report rs).failed = false) : rs = [] := by
  cases rs with
  | nil => rfl
  | cons r rs =>
    have hr := herr r (.head _)
    simp [failed, report, anyError, hr] at h

/-- How the compilation of a program that was read ends: with a failed session and no code, or with
the code of a program that is ready. -/
theorem compileProgram_cases {source : String} {ts : Lexer.Tokens} {p : Program}
    (hlex : tokenize source = .ok ts) (hparse : FlatC.parse ts.lexemes = .ok p) (s : Session)
    (o : Options) :
    (s.compileProgram o p).1 = .ok none ∨
      ∃ b code m, Analyzed source p b ∧ FlatC.generate o p b s.nextLabel = .ok (code, m) ∧
        (s.compileProgram o p).1 = .ok (some code) := by
  obtain ⟨a, rs, hbind, herr, hgood⟩ := bindNames_of_parse hlex hparse
  unfold compileProgram Session.bind
  simp only [hbind]
  cases hfail : (s.report rs).failed with
  | true => exact .inl (by simp)
  | false =>
    obtain rfl := nil_of_not_failed herr hfail
    have hn := (wf_of_parse hlex hparse).2
    obtain ⟨a', rs', b, hcheck, herr', hplace, hready⟩ := (hgood rfl).ready hn
    simp only [Bool.false_eq_true, if_false]
    unfold checkAndGenerate Session.check
    simp only [hcheck, Except.map]
    cases hfail' : ((s.report []).report rs').failed with
    | true => exact .inl (by simp)
    | false =>
      obtain rfl := nil_of_not_failed herr' hfail'
      obtain ⟨code, m, hgen⟩ := generate_total hready o s.nextLabel
      refine .inr ⟨b, code, m, ⟨hlex, hparse, hbind, hcheck, hplace⟩, hgen, ?_⟩
      simp only [Bool.false_eq_true, if_false]
      unfold placeAndGenerate Session.generate
      simp [hplace, report, hgen]

end Session

theorem compile_cases (source : String) (o : Options) :
    (compile source o).1 = .ok none ∨
      ∃ p b code m, Analyzed source p b ∧ generate o p b 0 = .ok (code, m) ∧
        (compile source o).1 = .ok (some code) := by
  unfold compile Session.compile Session.parse
  cases hlex : tokenize source with
  | error e => exact .inl rfl
  | ok ts =>
    cases hparse : parse ts.lexemes with
    | error e => exact .inl (by simp [hparse])
    | ok p =>
      simp only [hparse]
      have := Session.compileProgram_cases hlex hparse
        ((Session.new source).report (ts.warnings.map Report.warning)) o
      exact this.imp_right fun ⟨b, code, m, h⟩ => ⟨p, b, code, m, h⟩

/-- A text that is compiled is analyzed, and its code is that of the program it reads as. -/
theorem compile_ok {source : String} {o : Options} {code : Code}
    (h : (compile source o).1 = .ok (some code)) :
    ∃ p b m, Analyzed source p b ∧ generate o p b 0 = .ok (code, m) := by
  obtain hnone | ⟨p, b, code', m, han, hgen, hcode⟩ := compile_cases source o
  · cases h.symm.trans hnone
  · obtain rfl : code' = code := by simpa using hcode.symm.trans h
    exact ⟨p, b, m, han, hgen⟩

/-- A text that was seen to be compiled, with a test that its code was seen to pass. -/
theorem exists_of_code (source : String) (test : Code → Bool)
    (h : ((compile source {}).1.toOption.any fun code => code.any test) = true) :
    ∃ p b code m, Analyzed source p b ∧ generate {} p b 0 = .ok (code, m) ∧
      (compile source {}).1 = .ok (some code) ∧ test code = true := by
  cases hr : (compile source {}).1 with
  | error d => simp [hr, Except.toOption] at h
  | ok code? =>
    cases code? with
    | none => simp [hr, Except.toOption] at h
    | some code =>
      obtain ⟨p, b, m, han, hgen⟩ := compile_ok hr
      exact ⟨p, b, code, m, han, hgen, rfl, by simpa [hr, Except.toOption] using h⟩

/-- A text that was seen to be compiled, with tests that its program and its code were seen to
pass. -/
theorem exists_of_compiled (source : String) (test : Program → Bool) (testCode : Code → Bool)
    (hread : ((tokenize source).toOption.any fun ts =>
      (parse ts.lexemes).toOption.any test) = true)
    (hcode : ((compile source {}).1.toOption.any fun code => code.any testCode) = true) :
    ∃ p b code m, Analyzed source p b ∧ generate {} p b 0 = .ok (code, m) ∧
      (compile source {}).1 = .ok (some code) ∧ test p = true ∧ testCode code = true := by
  obtain ⟨p, b, code, m, han, hgen, hcompile, htest⟩ := exists_of_code source testCode hcode
  refine ⟨p, b, code, m, han, hgen, hcompile, ?_, htest⟩
  obtain ⟨hlex, hparse, -, -, -⟩ := han
  simpa [hlex, hparse, Except.toOption] using hread

theorem eq_ok_of_toOption {ε α : Type} {x : Except ε α} {a : α} (h : x.toOption = some a) :
    x = .ok a := by
  cases x with
  | error e => simp [Except.toOption] at h
  | ok b => simpa [Except.toOption] using h

/-- A text that was seen to be bound without a report, with a test that its program and its notes
were seen to pass. -/
theorem exists_of_bound (source : String) (test : Program → Annotations → Bool)
    (h : ((tokenize source).toOption.any fun ts => (parse ts.lexemes).toOption.any fun p =>
      ((Session.new "").bind p .empty).1.toOption.any fun r => r.1 && test p r.2) = true) :
    ∃ ts p a, tokenize source = .ok ts ∧ parse ts.lexemes = .ok p ∧
      ((Session.new "").bind p .empty).1 = .ok (true, a) ∧ test p a = true := by
  simp only [Option.any_eq_true, Bool.and_eq_true] at h
  obtain ⟨ts, hts, p, hp, ⟨_, a⟩, ha, rfl, ht⟩ := h
  exact ⟨ts, p, a, eq_ok_of_toOption hts, eq_ok_of_toOption hp, eq_ok_of_toOption ha, ht⟩

/-- **Every text is compiled or reported**: no stage meets a defect. Where there is a program to
bind, binding ends in the scope of the program. -/
theorem compile_total (source : String) (o : Options) :
    (∃ r, (compile source o).1 = .ok r) ∧
      ∀ ts p, tokenize source = .ok ts → parse ts.lexemes = .ok p →
        ∃ t s, (Binding.program p).run ⟨.empty, []⟩ = .ok (t, s) ∧ t.depth = 1 := by
  refine ⟨?_, fun ts p hlex hparse => ?_⟩
  · obtain h | ⟨_, _, code, _, _, _, h⟩ := compile_cases source o
    · exact ⟨none, h⟩
    · exact ⟨some code, h⟩
  · obtain ⟨t, s, hrun, hdepth, -⟩ := bind_of_parse hlex hparse
    exact ⟨t, s, hrun, hdepth⟩

/-- A block inside a block, a name that is not declared and an `int` that is called. -/
theorem compile_total_faulty :
    ∃ ts p t s,
      tokenize "int f(int n) \x7b while (n < 3) \x7b int m; m = x; n(m); \x7d \x7d" = .ok ts ∧
      parse ts.lexemes = .ok p ∧
      (Binding.program p).run ⟨.empty, []⟩ = .ok (t, s) ∧ t.depth = 1 := by
  obtain ⟨ts, p, hts, hp⟩ := exists_of_read
    "int f(int n) \x7b while (n < 3) \x7b int m; m = x; n(m); \x7d \x7d" (by decide +kernel)
  obtain ⟨t, s, h⟩ := (compile_total _ {}).2 ts p hts hp
  exact ⟨ts, p, t, s, hts, hp, h⟩

end FlatC
