import FlatC.Proofs.Session.Gates
import FlatC.Proofs.Spans.Stages

/-!
# A program and its printed text compile alike

No stage behind the parser decides anything by a span, so two sessions that compile trees of one
shape stay **alike**: they have the same errors, wherever these stand, and the same labels to hand
out. The text of a program reads as a tree of the program's shape, which gives `compile_print`.
-/

namespace FlatC

/-- The code and the message of an error. A warning has none. -/
def Report.error? : Report → Option (String × String)
  | .problem p => some (p.code.text, p.message)
  | .program code message => some (code.text, message)
  | .warning _ => none

theorem Report.error?_shape (r : Report) : r.shape.error? = r.error? := by
  cases r <;> rfl

theorem Report.error?_of_warning {r : Report} (h : r.isError = false) : r.error? = none := by
  cases r with
  | problem | program => cases h
  | warning => rfl

namespace Session

variable {s s' s'' : Session} {rs : List Report}

/-- The errors of a session, without their places. -/
def errors (s : Session) : List (String × String) :=
  (s.diagnostics.filter (·.severity = .error)).map fun d => (d.code, d.message)

theorem errors_eq (s : Session) : s.errors = s.reports.filterMap Report.error? := by
  obtain ⟨source, reports, nextLabel⟩ := s
  unfold errors diagnostics
  induction reports with
  | nil => rfl
  | cons r rs ih =>
    rw [List.filterMap_cons]
    cases r <;> simpa [Report.locate, Report.error?] using ih

theorem errors_report (s : Session) (rs : List Report) :
    (s.report rs).errors = s.errors ++ rs.filterMap Report.error? := by
  simp [errors_eq, report]

theorem failed_iff_errors (s : Session) : s.failed = true ↔ s.errors ≠ [] := by
  rw [errors_eq, failed, anyError, List.any_eq_true, Ne, List.filterMap_eq_nil_iff]
  constructor
  · rintro ⟨r, hr, herr⟩ hall
    have := hall r hr
    cases r <;> simp [Report.error?, Report.isError] at this herr
  · intro h
    by_contra hnone
    refine h fun r hr => Report.error?_of_warning (Bool.eq_false_iff.2 fun herr => ?_)
    exact hnone ⟨r, hr, herr⟩

/-- The sessions have the same errors, and the same labels left. -/
structure Alike (s s' : Session) : Prop where
  errors : s.errors = s'.errors
  nextLabel : s.nextLabel = s'.nextLabel

namespace Alike

theorem refl (s : Session) : Alike s s := ⟨rfl, rfl⟩

theorem new (source source' : String) : Alike (new source) (new source') :=
  ⟨by rw [errors_eq, errors_eq]; rfl, rfl⟩

theorem symm (h : Alike s s') : Alike s' s := ⟨h.errors.symm, h.nextLabel.symm⟩

theorem trans (h : Alike s s') (h' : Alike s' s'') : Alike s s'' :=
  ⟨h.errors.trans h'.errors, h.nextLabel.trans h'.nextLabel⟩

theorem failed (h : Alike s s') : s.failed = s'.failed := by
  rw [Bool.eq_iff_iff, failed_iff_errors, failed_iff_errors, h.errors]

/-- Sessions stay alike with reports that differ in their spans. -/
theorem report (h : Alike s s') (rs : List Report) :
    Alike (s.report rs) (s'.report (rs.map Report.shape)) := by
  refine ⟨?_, h.nextLabel⟩
  have hshape : Report.error? ∘ Report.shape = Report.error? := funext Report.error?_shape
  rw [errors_report, errors_report, h.errors, List.filterMap_map, hshape]

/-- Warnings do not count. -/
theorem warned (hrs : ∀ r ∈ rs, r.isError = false) : Alike (s.report rs) s := by
  have hnone : rs.filterMap Report.error? = [] :=
    List.filterMap_eq_nil_iff.2 fun r hr => Report.error?_of_warning (hrs r hr)
  exact ⟨by rw [errors_report, hnone, List.append_nil], rfl⟩

end Alike

/-- The runs have the same result and end alike. -/
structure RunAlike {α : Type} (x y : Except Defect α × Session) : Prop where
  result : x.1 = y.1
  session : Alike x.2 y.2

namespace RunAlike

variable {α : Type} {x y z : Except Defect α × Session}

theorem symm (h : RunAlike x y) : RunAlike y x := ⟨h.result.symm, h.session.symm⟩

theorem trans (h : RunAlike x y) (h' : RunAlike y z) : RunAlike x z :=
  ⟨h.result.trans h'.result, h.session.trans h'.session⟩

end RunAlike

/-! ## Stages on the shape of a program -/

theorem placeAndGenerate_shape (h : Alike s s') (o : Options) (p : Program) (a : Annotations) :
    RunAlike (s.placeAndGenerate o p a) (s'.placeAndGenerate o p.shape a.shape) := by
  unfold placeAndGenerate
  rw [placeSymbols_shape]
  cases placeSymbols p a with
  | error d => exact ⟨rfl, h⟩
  | ok b =>
    simp only [Except.map]
    unfold Session.generate
    rw [generate_shape, ← h.nextLabel]
    cases FlatC.generate o p b s.nextLabel with
    | error d => exact ⟨rfl, h⟩
    | ok r => exact ⟨rfl, h.errors, rfl⟩

theorem checkAndGenerate_shape (h : Alike s s') (o : Options) (p : Program) (a : Annotations) :
    RunAlike (s.checkAndGenerate o p a) (s'.checkAndGenerate o p.shape a.shape) := by
  unfold checkAndGenerate Session.check
  rw [checkTypes_shape]
  generalize checkTypes p a = c
  obtain ⟨result, b, rs⟩ := c
  have hrs := h.report rs
  cases result with
  | error d => exact ⟨rfl, hrs⟩
  | ok u =>
    simp only [Except.map, ← hrs.failed]
    cases (s.report rs).failed with
    | true => exact ⟨rfl, hrs⟩
    | false =>
      have hrun := placeAndGenerate_shape hrs o p b
      simp only [Bool.false_eq_true, if_false]
      exact ⟨congrArg (Except.map some) hrun.result, hrun.session⟩

theorem compileProgram_shape (h : Alike s s') (o : Options) (p : Program) :
    RunAlike (s.compileProgram o p) (s'.compileProgram o p.shape) := by
  unfold compileProgram Session.bind
  rw [bindNames_shape]
  cases bindNames p .empty with
  | error d => exact ⟨rfl, h⟩
  | ok r =>
    obtain ⟨a, rs⟩ := r
    have hrs := h.report rs
    simp only [Except.map, ← hrs.failed]
    cases (s.report rs).failed with
    | true =>
      simp only [if_true]
      exact ⟨rfl, hrs⟩
    | false =>
      simp only [Bool.false_eq_true, if_false]
      exact checkAndGenerate_shape hrs o p a

/-- Sessions that are alike stay alike with programs of one shape. -/
theorem compileProgram_alike {p q : Program} (hpq : q.shape = p.shape) (h : Alike s s')
    (o : Options) : RunAlike (s.compileProgram o p) (s'.compileProgram o q) := by
  have hq := compileProgram_shape (.refl s') o q
  rw [hpq] at hq
  exact (compileProgram_shape h o p).trans hq.symm

end Session

/-! ## Texts -/

open Grammar

/-- The text of a program reads as a program of the same shape, without warnings, whichever tokens
the program was read from. -/
theorem Grammar.ReadsProgram.print_reads {ts : List Token} {p : Program} (h : ReadsProgram ts p)
    (hwf : Every Token.Wf p.tokens) :
    ∃ us q, tokenize (p.print Ident.name) = .ok us ∧ us.warnings = [] ∧
      parse us.lexemes = .ok q ∧ q.shape = p.shape := by
  obtain ⟨us, hus, htokens, hwarn⟩ := (p.print_lexes hwf).tokenize
  obtain ⟨q, hq, hshape⟩ := parse_complete (htokens ▸ h.reprint)
  exact ⟨us, q, hus, hwarn, hq, hshape⟩

/-- The text of a program in which no stage finds an error is analyzed, with the same notes up to
their spans. -/
theorem analyzed_print {ts : List Token} {p : Program} {a b c : Annotations}
    (hread : ReadsProgram ts p) (hwf : Every Token.Wf p.tokens)
    (hbind : bindNames p .empty = .ok (a, [])) (hcheck : checkTypes p a = (.ok (), b, []))
    (hplace : placeSymbols p b = .ok c) :
    ∃ q d, Analyzed (p.print Ident.name) q d ∧ d.shape = c.shape := by
  obtain ⟨us, q, hus, -, hq, hshape⟩ := hread.print_reads hwf
  obtain ⟨a', b', d, hbindq, hcheckq, hplaceq, hd⟩ := stages_of_shape hshape hbind hcheck hplace
  exact ⟨q, d, ⟨hus, hq, hbindq, hcheckq, hplaceq⟩, hd⟩

theorem compile_of_read {source : String} {ts : Lexer.Tokens} {p : Program}
    (hlex : tokenize source = .ok ts) (hparse : parse ts.lexemes = .ok p) (o : Options) :
    compile source o =
      ((Session.new source).report (ts.warnings.map Report.warning)).compileProgram o p := by
  simp [compile, Session.compile, Session.parse, hlex, hparse]

/-- **The text of a program compiles as the program does**: to the same code, or with the same
errors in the same order. It gives no warnings. -/
theorem compile_print {source : String} {ts : Lexer.Tokens} {p : Program}
    (hlex : tokenize source = .ok ts) (hparse : parse ts.lexemes = .ok p) (o : Options) :
    ∃ r, (compile source o).1 = .ok r ∧ (compile (p.print Ident.name) o).1 = .ok r ∧
      (r.isSome = true ↔ (compile source o).2.errors = []) ∧
      (compile (p.print Ident.name) o).2.errors = (compile source o).2.errors ∧
      ∀ d ∈ (compile (p.print Ident.name) o).2.diagnostics, d.severity = .error := by
  obtain ⟨us, q, hus, hwarn, hq, hshape⟩ :=
    (parse_sound hparse).print_reads (wf_of_parse hlex hparse).1
  have hsource := compile_of_read hlex hparse o
  have hprint := compile_of_read hus hq o
  rw [hwarn, List.map_nil, Session.report_nil] at hprint
  have hwarnings := Report.isError_warnings ts.warnings
  have hstart : Session.Alike ((Session.new source).report (ts.warnings.map Report.warning))
      (Session.new (p.print Ident.name)) := (Session.Alike.warned hwarnings).trans (.new _ _)
  have halike := Session.compileProgram_alike hshape hstart o
  rw [← hsource, ← hprint] at halike
  obtain ⟨r, s, added, c, hrun, hended, -, hadded⟩ :=
    Session.compileProgram_ended hus hq (Session.new (p.print Ident.name)) o
  rw [← hprint] at hrun
  rw [hrun] at halike ⊢
  refine ⟨r, halike.result, rfl, ?_, halike.session.errors.symm, ?_⟩
  · rw [hended.gate, halike.session.errors, ← Bool.not_eq_true, Session.failed_iff_errors,
      not_not]
  · intro d hd
    obtain ⟨x, hx, rfl⟩ := List.mem_map.1 hd
    rw [hended.reports] at hx
    obtain hx | hx := List.mem_append.1 hx
    · cases hx
    · cases x with
      | problem | program => rfl
      | warning => cases hadded _ hx

/-- A number that is too large, an assignment as an operand and superfluous parentheses. -/
theorem compile_print_oversized :
    ∃ ts p code, tokenize "int x; void main() \x7b x = ((x = 99999999999) + 1); \x7d" = .ok ts ∧
      parse ts.lexemes = .ok p ∧ ts.warnings ≠ [] ∧
      (compile "int x; void main() \x7b x = ((x = 99999999999) + 1); \x7d" {}).1 =
        .ok (some code) ∧
      (compile (p.print Ident.name) {}).1 = .ok (some code) ∧
      (compile (p.print Ident.name) {}).2.errors = [] ∧
      ∀ d ∈ (compile (p.print Ident.name) {}).2.diagnostics, d.severity = .error := by
  have hwarned : ((tokenize
      "int x; void main() \x7b x = ((x = 99999999999) + 1); \x7d").toOption.any
        fun ts => !ts.warnings.isEmpty) = true := by decide +kernel
  have hclean : (compile "int x; void main() \x7b x = ((x = 99999999999) + 1); \x7d" {}).2.errors =
      [] := by decide +kernel
  obtain ⟨ts, p, hts, hp⟩ := exists_of_read
    "int x; void main() \x7b x = ((x = 99999999999) + 1); \x7d" (by decide +kernel)
  obtain ⟨r, hr, hr', hgate, herrors, hseverity⟩ := compile_print hts hp {}
  obtain ⟨code, rfl⟩ := Option.isSome_iff_exists.1 (hgate.2 hclean)
  rw [hts] at hwarned
  refine ⟨ts, p, code, hts, hp, ?_, hr, hr', herrors.trans hclean, hseverity⟩
  simpa [Except.toOption] using hwarned

end FlatC
