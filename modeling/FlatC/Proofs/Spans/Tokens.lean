import FlatC.Proofs.Spans.Nesting
import FlatC.Proofs.Syntax.Patterns

/-!
# Where the lexer points

The spans of tokens are not empty, follow each other and stand in the text, and so do those of the
warnings and of what is wrong with a text.
-/

namespace FlatC

namespace Lexer

theorem byteLength_piece_pos (c : Char) (cs : List Char) :
    0 < byteLength (piece c cs).1.text := by
  cases htext : (piece c cs).1.text with
  | nil => exact absurd htext (piece_text_ne_nil c cs)
  | cons d ds =>
    rw [byteLength_cons]
    exact Nat.lt_of_lt_of_le d.utf8Size_pos (Nat.le_add_right _ _)

theorem Fault.category (f : Fault) : f.code.category = .lexical := by
  cases f <;> rfl

/-- If there are no tokens, the problem is one of the lexer, and at a piece of the text. -/
theorem tokenizeFrom_blames {start : Nat} {cs : List Char} {e : Problem}
    (h : tokenizeFrom start cs = .error e) :
    e.code.category = .lexical ∧ e.span.start < e.span.stop ∧
      e.span.stop ≤ start + byteLength cs := by
  fun_induction tokenizeFrom start cs with
  | case1 => cases h
  | case2 start c cs cut span f hf =>
    cases h
    have hpos := byteLength_piece_pos c cs
    have htext := congrArg byteLength (piece_append c cs)
    rw [byteLength_append] at htext
    refine ⟨f.category, ?_⟩
    simp only [Fault.problem, span, cut]
    omega
  | case3 start c cs cut span token? ht e' he ih =>
    cases h
    have htext := congrArg byteLength (piece_append c cs)
    rw [byteLength_append] at htext
    obtain ⟨hcategory, hlt, hle⟩ := ih he
    refine ⟨hcategory, hlt, Nat.le_trans hle ?_⟩
    simp only [span, cut]
    omega
  | case4 => cases h

theorem Cut.exists_lexeme {start : Nat} {cuts : List Cut} {w : Warning}
    (hw : w ∈ Cut.warnings start cuts) : ∃ l ∈ Cut.lexemes start cuts, w.span = l.span := by
  induction cuts generalizing start with
  | nil => cases hw
  | cons x xs ih =>
    have hlater (hw : w ∈ Cut.warnings (start + byteLength x.text + byteLength x.gap) xs) :
        ∃ l ∈ Cut.lexemes start (x :: xs), w.span = l.span := by
      obtain ⟨l, hl, hspan⟩ := ih hw
      exact ⟨l, List.mem_cons_of_mem _ hl, hspan⟩
    rw [Cut.warnings] at hw
    split at hw
    · rcases List.mem_cons.1 hw with rfl | hw
      · exact ⟨_, List.mem_cons_self, rfl⟩
      · exact hlater hw
    · exact hlater hw

end Lexer

theorem tokenize_blames {source : String} {e : Problem} (h : tokenize source = .error e) :
    e.code.category = .lexical ∧ e.span.Fits source.utf8ByteSize := by
  have := Lexer.tokenizeFrom_blames h
  rwa [Nat.zero_add, byteLength_toList] at this

/-- **Tokens follow each other in the text**, and warnings are at tokens. -/
theorem tokenize_lexemes {source : String} {ts : Lexer.Tokens} (h : tokenize source = .ok ts) :
    InOrder ts.lexemes ∧ (∀ l ∈ ts.lexemes, l.span.stop ≤ source.utf8ByteSize) ∧
      ∀ w ∈ ts.warnings, w.span.Fits source.utf8ByteSize := by
  obtain ⟨gap, cuts, htext, hsplits, rfl⟩ := Lexer.splits_of_tokenizeFrom h
  have hsize : byteLength gap + byteLength (Lexer.Cut.join cuts) = source.utf8ByteSize := by
    rw [← byteLength_toList, htext, byteLength_append]
  obtain ⟨hin, horder⟩ := hsplits.spans (0 + byteLength gap)
  have hstop : ∀ l ∈ Lexer.Cut.lexemes (0 + byteLength gap) cuts,
      l.span.stop ≤ source.utf8ByteSize := by
    intro l hl
    have := (hin l hl).2.2
    omega
  refine ⟨⟨fun l hl => (hin l hl).2.1, horder⟩, hstop, fun w hw => ?_⟩
  obtain ⟨l, hl, hspan⟩ := Lexer.Cut.exists_lexeme hw
  rw [hspan]
  exact ⟨(hin l hl).2.1, hstop l hl⟩

end FlatC
