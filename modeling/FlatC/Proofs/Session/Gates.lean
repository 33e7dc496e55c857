import FlatC.Proofs.Compile
import FlatC.Proofs.Session.Blame

/-!
# Calls that share a session

A session can be used for one text after the other. What an earlier call reported stays, and an
error among it stops every later call. `compile_gated` says how a call ends, from whatever an
earlier call left behind: with code exactly if the session then holds no error. The errors that the
call adds are of one category, that of the stage which stopped it.
-/

namespace FlatC

theorem Report.isError_warnings (ws : List Warning) :
    ∀ r ∈ ws.map Report.warning, r.isError = false := by
  intro r hr
  obtain ⟨w, -, rfl⟩ := List.mem_map.1 hr
  rfl

/-- The errors among the reports are all of the category `c`. Of `lexical` and `grammar` there is
just one, and nothing stands behind it. -/
structure Uniform (c : Category) (rs : List Report) : Prop where
  category : ∀ r ∈ rs, r.isError = true → r.category? = some c
  single : c = .lexical ∨ c = .grammar →
    ∃ ws r, rs = ws ++ [r] ∧ r.isError = true ∧ ∀ w ∈ ws, w.isError = false

/-- Warnings, and the problem that ended the reading. -/
theorem Uniform.stopped (ws : List Report) {p : Problem} {c : Category}
    (hws : ∀ w ∈ ws, w.isError = false) (hc : p.code.category = c) :
    Uniform c (ws ++ [.problem p]) where
  category r hr herr := by
    rcases List.mem_append.1 hr with hr | hr
    · rw [hws r hr] at herr
      cases herr
    · obtain rfl := List.mem_singleton.1 hr
      exact congrArg some hc
  single _ := ⟨ws, _, rfl, rfl, hws⟩

/-- Warnings, and all that a later stage has to say. -/
theorem Uniform.listed {ws rs : List Report} {c : Category} (hws : ∀ w ∈ ws, w.isError = false)
    (hrs : ∀ r ∈ rs, r.category? = some c) (hc : c = .name ∨ c = .type) : Uniform c (ws ++ rs) where
  category r hr herr := by
    rcases List.mem_append.1 hr with hr | hr
    · rw [hws r hr] at herr
      cases herr
    · exact hrs r hr
  single h := by
    rcases hc with rfl | rfl <;> simp at h

namespace Session

variable {s s' : Session} {rs : List Report}

theorem failed_report : (s.report rs).failed = (s.failed || anyError rs) := by
  simp [failed, report, anyError]

theorem report_nil (s : Session) : s.report [] = s := by
  simp [report]

theorem errorCount_report :
    (s.report rs).errorCount = s.errorCount + (rs.filter Report.isError).length := by
  simp [errorCount, report]

/-- A stage that reports errors only has said nothing exactly if their number has not grown. -/
theorem isEmpty_iff_errorCount {c : Category} (h : ∀ r ∈ rs, r.category? = some c) :
    rs.isEmpty = true ↔ (s.report rs).errorCount = s.errorCount := by
  have hall : rs.filter Report.isError = rs :=
    List.filter_eq_self.2 fun r hr => Report.isError_of_category (h r hr)
  rw [errorCount_report, hall, List.isEmpty_iff]
  constructor
  · rintro rfl
    rfl
  · intro hlen
    exact List.length_eq_zero_iff.1 (by omega)

/-! ## The stages -/

theorem bind_true_iff {p : Program} {a b : Annotations} {ok : Bool}
    (h : (s.bind p a).1 = .ok (ok, b)) :
    ok = true ↔ (s.bind p a).2.errorCount = s.errorCount := by
  unfold Session.bind at h ⊢
  split at h
  next => cases h
  next notes rs hrun =>
    simp only [Except.ok.injEq, Prod.mk.injEq] at h
    obtain ⟨rfl, rfl⟩ := h
    exact isEmpty_iff_errorCount (bindNames_names hrun)

theorem check_true_iff {p : Program} {a b : Annotations} {ok : Bool}
    (h : (s.check p a).1 = .ok (ok, b)) :
    ok = true ↔ (s.check p a).2.errorCount = s.errorCount := by
  have hreports := checkTypes_types p a
  unfold Session.check at h ⊢
  generalize checkTypes p a = c at h hreports
  obtain ⟨result, notes, rs⟩ := c
  cases result with
  | error d => cases h
  | ok u =>
    simp only [Except.map, Except.ok.injEq, Prod.mk.injEq] at h
    obtain ⟨rfl, rfl⟩ := h
    exact isEmpty_iff_errorCount hreports

/-! ## Whole calls -/

/-- How a call ends that began in `s`: in `s'` and with `r`, after it added the reports `added`. -/
structure Ended (s s' : Session) (r : Option Code) (added : List Report) : Prop where
  source : s'.source = s.source
  reports : s'.reports = s.reports ++ added
  gate : r.isSome = true ↔ s'.failed = false
  label : r = none → s'.nextLabel = s.nextLabel

/-- A call that a report has stopped. -/
theorem Ended.stopped (h : (s.report rs).failed = true) : Ended s (s.report rs) none rs :=
  ⟨rfl, rfl, by simp [h], fun _ => rfl⟩

/-- What was reported before the stages that the call went through. -/
theorem Ended.after {ws added : List Report} {r : Option Code}
    (h : Ended (s.report ws) s' r added) : Ended s s' r (ws ++ added) :=
  ⟨h.source, h.reports.trans (List.append_assoc ..), h.gate, h.label⟩

theorem checkAndGenerate_ended {p : Program} {a : Annotations} (hr : Resolved p a)
    (hn : p.ids.Nodup) (hs : s.failed = false) (o : Options) :
    ∃ r s' added, s.checkAndGenerate o p a = (.ok r, s') ∧ Ended s s' r added ∧
      ∀ x ∈ added, x.category? = some .type := by
  obtain ⟨a', rs, b, hcheck, herr, hplace, hready⟩ := hr.ready hn
  have htypes : ∀ x ∈ rs, x.category? = some .type := by
    have := checkTypes_types p a
    rwa [hcheck] at this
  unfold checkAndGenerate Session.check
  simp only [hcheck, Except.map]
  cases hfail : (s.report rs).failed with
  | true => exact ⟨none, _, rs, by simp, .stopped hfail, htypes⟩
  | false =>
    obtain rfl := nil_of_not_failed herr hfail
    obtain ⟨code, m, hgen⟩ := generate_total hready o s.nextLabel
    have hgate : (some code).isSome = true ↔ s.failed = false := by simp [hs]
    refine ⟨some code, { s with nextLabel := m }, [], ?_, ⟨rfl, by simp, hgate, by simp⟩, by simp⟩
    unfold placeAndGenerate Session.generate
    simp [hplace, report_nil, hgen]

theorem compileProgram_ended {source : String} {ts : Lexer.Tokens} {p : Program}
    (hlex : tokenize source = .ok ts) (hparse : FlatC.parse ts.lexemes = .ok p) (s : Session)
    (o : Options) :
    ∃ r s' added c, s.compileProgram o p = (.ok r, s') ∧ Ended s s' r added ∧
      (c = .name ∨ c = .type) ∧ ∀ x ∈ added, x.category? = some c := by
  obtain ⟨a, rs, hbind, herr, hgood⟩ := bindNames_of_parse hlex hparse
  unfold compileProgram Session.bind
  simp only [hbind]
  cases hfail : (s.report rs).failed with
  | true =>
    exact ⟨none, _, rs, .name, by simp, .stopped hfail, .inl rfl, bindNames_names hbind⟩
  | false =>
    obtain rfl := nil_of_not_failed herr hfail
    rw [report_nil] at hfail
    obtain ⟨r, s', added, hrun, hended, htypes⟩ :=
      checkAndGenerate_ended (hgood rfl) (wf_of_parse hlex hparse).2 hfail o
    exact ⟨r, s', added, .type, by simp [report_nil, hrun], hended, .inr rfl, htypes⟩

theorem compile_ended (s : Session) (o : Options) (source : String) :
    ∃ r s' added, s.compile o source = (.ok r, s') ∧ Ended s s' r added ∧ ∃ c, Uniform c added := by
  unfold Session.compile Session.parse
  cases hlex : tokenize source with
  | error e =>
    refine ⟨none, _, [.problem e], rfl, .stopped (by simp [failed_report, anyError, Report.isError]),
      .lexical, ?_⟩
    exact Uniform.stopped [] (by simp) (tokenize_lexical hlex)
  | ok ts =>
    have hws := Report.isError_warnings ts.warnings
    cases hparse : FlatC.parse ts.lexemes with
    | error e =>
      simp only [hparse]
      refine ⟨none, _, _, rfl, .after (.stopped ?_), .grammar, .stopped _ hws ?_⟩
      · simp [failed_report, anyError, Report.isError]
      · exact parse_grammar hlex hparse
    | ok p =>
      simp only [hparse]
      obtain ⟨r, s', added, c, hrun, hended, hc, hadded⟩ := compileProgram_ended hlex hparse
        (s.report (ts.warnings.map Report.warning)) o
      exact ⟨r, s', _, hrun, hended.after, c, .listed hws hadded hc⟩

/-- **A call gives code exactly if the session then holds no error.** It keeps all earlier reports
in front of its own, whose errors are of one category, and hands out no labels without code. A
stage is content exactly if the number of errors has not grown. -/
theorem compile_gated (s : Session) (o : Options) (source : String) :
    (∃ r s' added, s.compile o source = (.ok r, s') ∧
      (r.isSome = true ↔ s'.failed = false) ∧
      s'.source = s.source ∧ s'.reports = s.reports ++ added ∧ (∃ c, Uniform c added) ∧
      (r = none → s'.nextLabel = s.nextLabel)) ∧
    (∀ p a b ok, (s.bind p a).1 = .ok (ok, b) →
      (ok = true ↔ (s.bind p a).2.errorCount = s.errorCount)) ∧
    ∀ p a b ok, (s.check p a).1 = .ok (ok, b) →
      (ok = true ↔ (s.check p a).2.errorCount = s.errorCount) := by
  refine ⟨?_, fun _ _ _ _ => bind_true_iff, fun _ _ _ _ => check_true_iff⟩
  obtain ⟨r, s', added, hrun, hended, huniform⟩ := compile_ended s o source
  exact ⟨r, s', added, hrun, hended.gate, hended.source, hended.reports, huniform, hended.label⟩

/-- A text without faults in a session that has failed, and the stages on the empty program. -/
theorem compile_gated_failed : ∃ s s' : Session, s.failed = true ∧
    s.compile {} "void main() \x7b \x7d" = (.ok none, s') ∧ s'.failed = true ∧
    s'.nextLabel = s.nextLabel ∧
    (s.bind ⟨[], 0⟩ .empty).1 = .ok (true, .empty) ∧
    (s.bind ⟨[], 0⟩ .empty).2.errorCount = s.errorCount ∧
    (s.check ⟨[], 0⟩ .empty).1 = .ok (false, .empty) ∧
    (s.check ⟨[], 0⟩ .empty).2.errorCount ≠ s.errorCount := by
  let s := (Session.new "").report [TypeFault.noMain.ofProgram]
  obtain ⟨⟨r, s', added, hrun, hgate, -, hreports, -, hlabel⟩, hbind, hcheck⟩ :=
    compile_gated s {} "void main() \x7b \x7d"
  have hfailed : s'.failed = true := by
    simp [failed, hreports, anyError, s, report, new, TypeFault.ofProgram, Report.isError]
  obtain rfl : r = none := by
    cases r with
    | none => rfl
    | some code => simp [hfailed] at hgate
  refine ⟨s, s', rfl, hrun, hfailed, hlabel rfl, rfl, (hbind _ _ _ _ rfl).1 rfl, rfl, ?_⟩
  intro hcount
  cases (hcheck ⟨[], 0⟩ .empty .empty false rfl).2 hcount

end Session

end FlatC
