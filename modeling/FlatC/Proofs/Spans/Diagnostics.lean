import FlatC.Proofs.Binding.Steps
import FlatC.Proofs.Spans.Parser
import FlatC.Proofs.Spans.Tokens
import FlatC.Proofs.Syntax.RoundTrip
import FlatC.Proofs.Typing.Reports
import FlatC.Session

/-!
# Diagnostics point into the source

The spans of tokens are not empty, follow each other and stand in the source (`tokenize_lexemes`), so
the tree is well nested in them (`parse_wellNested`). Every stage reports at tokens or at spans of
the tree, or one of the two faults that stand nowhere (`Report.Fits`). `spans_nested` puts both
together.
-/

namespace FlatC

section

variable {source : String} {ts : Lexer.Tokens}

/-- The trees that are read from a text stand in it. -/
theorem parse_fits {p : Program} (hlex : tokenize source = .ok ts)
    (hparse : parse ts.lexemes = .ok p) :
    ∀ o ∈ p.outlines, o.All (Span.Fits source.utf8ByteSize) := by
  obtain ⟨horder, hstop, -⟩ := tokenize_lexemes hlex
  exact fun o ho => ((parse_wellNested horder hparse).nested o ho).fits hstop

theorem parse_problem {e : Problem} (hlex : tokenize source = .ok ts)
    (hparse : parse ts.lexemes = .error e) : e.span.Fits source.utf8ByteSize := by
  obtain ⟨horder, hstop, -⟩ := tokenize_lexemes hlex
  have hb := (parse_blames horder hparse).2.bounded horder
  obtain ⟨l, hl, hspan⟩ := hb.stop
  exact ⟨hb.nonempty, hspan ▸ hstop l hl⟩

end

/-! ## Reports -/

/-- The report points at some bytes of a text of `n`, or is a fault that stands nowhere. -/
def Report.Fits (n : Nat) : Report → Prop
  | .problem p => p.span.Fits n
  | .program code _ => code = .missingReturnValue ∨ code = .noMainFunction
  | .warning w => w.span.Fits n

/-- The diagnostic is about the program as a whole, or it points at some bytes of a text of `n`. -/
def Diagnostic.Placed (n : Nat) (d : Diagnostic) : Prop :=
  (d.span = ⟨0, 0⟩ ∧ d.line = 0 ∧ d.column = 0 ∧ (d.code = "E325" ∨ d.code = "E341")) ∨
    d.span.start < d.span.stop ∧ d.span.stop ≤ n

theorem Report.Fits.placed {n : Nat} {r : Report} (h : r.Fits n) (source : String) :
    (r.locate source).Placed n := by
  cases r with
  | problem p => exact .inr h
  | warning w => exact .inr h
  | program code message =>
    refine .inl ⟨rfl, rfl, rfl, ?_⟩
    rcases h with rfl | rfl
    · exact .inl rfl
    · exact .inr rfl

theorem bindNames_fits {n : Nat} {p : Program} {a b : Annotations} {rs : List Report}
    (hp : ∀ o ∈ p.outlines, o.All (Span.Fits n)) (h : bindNames p a = .ok (b, rs)) :
    ∀ r ∈ rs, r.Fits n := by
  refine bindNames_preserves_at (I := fun s => ∀ r ∈ s.reports, r.Fits n)
    ⟨fun f span hspan hs r hr => ?_, fun _ _ hs => hs, fun _ hs => hs, fun _ _ _ hs => hs⟩ hp h
    (by simp)
  rcases List.mem_append.1 hr with hr | hr
  · exact hs r hr
  · obtain rfl := List.mem_singleton.1 hr
    exact hspan

theorem checkTypes_fits {n : Nat} {p : Program} (hp : ∀ o ∈ p.outlines, o.All (Span.Fits n))
    (a : Annotations) : ∀ r ∈ (checkTypes p a).2.2, r.Fits n := by
  intro r hr
  cases checkTypes_reports hp a r hr with
  | here f hspan => exact hspan
  | missingReturnValue => exact .inl rfl
  | noMain => exact .inr rfl

/-! ## Sessions -/

namespace Session

variable {n : Nat} {s : Session} {p : Program}

/-- All that was reported so far points into a text of `n` bytes, or stands nowhere. -/
def Fits (n : Nat) (s : Session) : Prop := ∀ r ∈ s.reports, r.Fits n

theorem Fits.report {rs : List Report} (h : s.Fits n) (hrs : ∀ r ∈ rs, r.Fits n) :
    (s.report rs).Fits n := by
  intro r hr
  rcases List.mem_append.1 hr with hr | hr
  · exact h r hr
  · exact hrs r hr

theorem Fits.problem {e : Problem} (h : s.Fits n) (he : e.span.Fits n) :
    (s.report [.problem e]).Fits n :=
  h.report fun _ hr => List.mem_singleton.1 hr ▸ he

theorem parse_reports {source : String} (h : s.Fits source.utf8ByteSize) :
    (s.parse source).2.Fits source.utf8ByteSize ∧ ∀ p, (s.parse source).1 = some p →
      ∀ o ∈ p.outlines, o.All (Span.Fits source.utf8ByteSize) := by
  unfold Session.parse
  split
  next e hlex => exact ⟨h.problem (tokenize_blames hlex).2, fun _ hp => (by cases hp)⟩
  next ts hlex =>
    have hwarned : (s.report (ts.warnings.map Report.warning)).Fits source.utf8ByteSize := by
      refine h.report fun r hr => ?_
      obtain ⟨w, hw, rfl⟩ := List.mem_map.1 hr
      exact (tokenize_lexemes hlex).2.2 w hw
    dsimp only
    split
    next e hparse =>
      exact ⟨hwarned.problem (parse_problem hlex hparse), fun _ hp => (by cases hp)⟩
    next p hparse =>
      refine ⟨hwarned, fun q hq => ?_⟩
      obtain rfl := Option.some.inj hq
      exact parse_fits hlex hparse

theorem placeAndGenerate_reports (s : Session) (o : Options) (p : Program) (a : Annotations) :
    (s.placeAndGenerate o p a).2.reports = s.reports := by
  unfold placeAndGenerate Session.generate
  split
  · rfl
  · split <;> rfl

theorem checkAndGenerate_reports (hp : ∀ o ∈ p.outlines, o.All (Span.Fits n)) (h : s.Fits n)
    (o : Options) (a : Annotations) : (s.checkAndGenerate o p a).2.Fits n := by
  have hchecked : (s.check p a).2.Fits n := h.report (checkTypes_fits hp a)
  unfold checkAndGenerate
  generalize s.check p a = c at hchecked
  obtain ⟨d | ⟨ok, b⟩, s'⟩ := c
  · exact hchecked
  · dsimp only
    split
    · exact hchecked
    · intro r hr
      rw [placeAndGenerate_reports] at hr
      exact hchecked r hr

theorem compileProgram_reports (hp : ∀ o ∈ p.outlines, o.All (Span.Fits n)) (h : s.Fits n)
    (o : Options) : (s.compileProgram o p).2.Fits n := by
  have hbound : (s.bind p .empty).2.Fits n := by
    unfold Session.bind
    split
    next => exact h
    next notes rs hrun => exact h.report (bindNames_fits hp hrun)
  unfold compileProgram
  generalize s.bind p .empty = c at hbound
  obtain ⟨d | ⟨ok, b⟩, s'⟩ := c
  · exact hbound
  · dsimp only
    split
    · exact hbound
    · exact checkAndGenerate_reports hp hbound o b

theorem compile_reports {source : String} (h : s.Fits source.utf8ByteSize) (o : Options) :
    (s.compile o source).2.Fits source.utf8ByteSize := by
  obtain ⟨hread, htree⟩ := parse_reports h
  unfold Session.compile
  generalize s.parse source = c at hread htree
  obtain ⟨_ | p, s'⟩ := c
  · exact hread
  · exact compileProgram_reports (htree p rfl) hread o

end Session

/-- **Spans are well nested and diagnostics point into the source.** The tree that is read from a
text is well nested in its tokens, and every diagnostic of a compilation is about the program as a
whole or points at some bytes of the text. -/
theorem spans_nested (source : String) :
    (∀ ts p, tokenize source = .ok ts → parse ts.lexemes = .ok p → p.WellNested ts.lexemes) ∧
    ∀ o, ∀ d ∈ (compile source o).2.diagnostics, d.Placed source.utf8ByteSize := by
  constructor
  · intro ts p hlex hparse
    exact parse_wellNested (tokenize_lexemes hlex).1 hparse
  · intro o d hd
    obtain ⟨r, hr, rfl⟩ := List.mem_map.1 hd
    have hfits : (Session.new source).Fits source.utf8ByteSize := fun r hr => (by cases hr)
    exact (Session.compile_reports hfits o r hr).placed _

/-- A program with two faults, of which one stands nowhere. -/
theorem spans_nested_faults : ∃ source ts p,
    source = "# é\nstruct P { int x; }; int f(int a) { struct P p; p.x = -a * (f(1) + 2); return; } void main() { f(true); }" ∧
    tokenize source = .ok ts ∧ parse ts.lexemes = .ok p ∧ p.WellNested ts.lexemes ∧
    (compile source {}).2.diagnostics.map (·.code) = ["E325", "E322"] ∧
    ∀ d ∈ (compile source {}).2.diagnostics, d.Placed source.utf8ByteSize := by
  obtain ⟨ts, p, hlex, hparse⟩ := exists_of_read
    "# é\nstruct P { int x; }; int f(int a) { struct P p; p.x = -a * (f(1) + 2); return; } void main() { f(true); }"
    (by decide +kernel)
  obtain ⟨hnested, hplaced⟩ := spans_nested _
  exact ⟨_, ts, p, rfl, hlex, hparse, hnested ts p hlex hparse, by decide +kernel, hplaced {}⟩

end FlatC
