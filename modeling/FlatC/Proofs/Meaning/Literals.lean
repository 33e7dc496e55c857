import FlatC.Proofs.Meaning.Words
import FlatC.Proofs.Syntax.Patterns

/-!
# String literals in the data section

The lexer takes a text as the inside of a string literal exactly if it has no quote and no line
break of its own and each backslash in it starts an escape (`Lexer.accepts_iff`). The assembler knows
one escape less. What it is given has its escapes only, and it reads there the characters that the
literal stands for (`Code.quoted_means`).
-/

namespace FlatC

namespace Lexer

/-- What can follow a backslash in a string literal. -/
def literalEscapes : List Char := ['n', 't', '\x27', '"', '\\']

/-- What can follow a backslash in the notation of the assembler. -/
def assemblerEscapes : List Char := ['n', 't', '"', '\\']

/-- Some source text has a string literal with the inside `text`. -/
def Accepts (text : String) : Prop :=
  ∃ source ts, tokenize source = .ok ts ∧ .str text ∈ ts.lexemes.map Lexeme.token

theorem inside_of_wf {text : String} (h : (Token.str text).Wf) :
    Inside (· ∈ literalEscapes) text.toList := by
  obtain ⟨hbody, hescape⟩ := h
  have hinside := inside_stringBody (text.toList ++ ['"'])
  rw [hbody []] at hinside
  exact hinside.badEscape?_eq_none_iff.1 hescape

/-- A literal that stands alone. -/
theorem tokenize_literal {text : String} (h : Inside (· ∈ literalEscapes) text.toList) :
    ∃ ts, tokenize ("\"" ++ text ++ "\"") = .ok ts ∧
      ts.lexemes.map Lexeme.token = [.str text] := by
  have hline : Inside (· ≠ '\n') text.toList := by
    refine h.mono fun c hc => ?_
    rintro rfl
    revert hc
    decide
  have hlexes : Lexes ('"' :: (text.toList ++ ['"'])) [.str (String.ofList text.toList)] :=
    .string hline.stringBody_quote (h.badEscape?_eq_none_iff.2 h) .nil
  rw [String.ofList_toList] at hlexes
  have hsource : ("\"" ++ text ++ "\"").toList = '"' :: (text.toList ++ ['"']) := by simp
  rw [← hsource] at hlexes
  obtain ⟨ts, hlex, htokens, -⟩ := hlexes.tokenize
  exact ⟨ts, hlex, htokens⟩

/-- The lexer accepts a string literal if its inside has no quote, no line break and no backslash
that starts no escape. -/
theorem accepts_iff {text : String} :
    Accepts text ↔ Inside (· ∈ literalEscapes) text.toList := by
  constructor
  · rintro ⟨source, ts, hlex, htoken⟩
    obtain ⟨l, hl, hstr⟩ := List.mem_map.1 htoken
    have hwf := tokenize_wf hlex l hl
    rw [hstr] at hwf
    exact inside_of_wf hwf
  · intro h
    obtain ⟨ts, hlex, htokens⟩ := tokenize_literal h
    exact ⟨_, ts, hlex, by simp [htokens]⟩

end Lexer

namespace Code

open Lexer

theorem asciizBody_cons {c : Char} (h : c ≠ '\\') (cs : List Char) :
    asciizBody (c :: cs) = c :: asciizBody cs := by
  cases cs with
  | nil => rfl
  | cons d cs => rw [asciizBody, if_neg h]

theorem asciizBody_escape (d : Char) (cs : List Char) : asciizBody ('\\' :: d :: cs) =
    if d = '\x27' then d :: asciizBody cs else '\\' :: d :: asciizBody cs := by
  rw [asciizBody, if_pos rfl]

/-- The escape that the assembler does not know goes, and the others stay. -/
theorem inside_asciizBody {body : List Char} (h : Inside (· ∈ literalEscapes) body) :
    Inside (· ∈ assemblerEscapes) (asciizBody body) := by
  induction h with
  | nil => exact .nil
  | plain hquote hslash hline _ ih =>
    rw [asciizBody_cons hslash]
    exact .plain hquote hslash hline ih
  | @escape c cs hc _ ih =>
    rw [asciizBody_escape]
    split
    next h =>
      subst h
      exact .plain (by decide) (by decide) (by decide) ih
    next h =>
      refine .escape ?_ ih
      simp only [literalEscapes, assemblerEscapes, List.mem_cons] at hc ⊢
      tauto

/-- **A string literal keeps its meaning in the notation of the assembler.** Between its quotes are
escapes of the assembler and no other quote, and they stand for the characters that the literal
stands for. -/
theorem quoted_means (text : String) (h : Accepts text) :
    Inside (· ∈ literalEscapes) text.toList ∧
      ∃ body, quoted text = "\"" ++ String.ofList body ++ "\"" ∧
        Inside (· ∈ assemblerEscapes) body ∧
        unescape assemblerEscape body = unescape literalEscape text.toList := by
  have hinside := accepts_iff.1 h
  exact ⟨hinside, asciizBody text.toList, rfl, inside_asciizBody hinside,
    unescape_asciizBody text.toList⟩

/-- An escaped backslash, an escaped quote of each kind, and a quote that needs no escape. -/
theorem quoted_means_backslashes : Accepts "\\\\\\'\\\"'" ∧
    Inside (· ∈ literalEscapes) "\\\\\\'\\\"'".toList ∧
      ∃ body, quoted "\\\\\\'\\\"'" = "\"" ++ String.ofList body ++ "\"" ∧
        Inside (· ∈ assemblerEscapes) body ∧
        unescape assemblerEscape body = unescape literalEscape "\\\\\\'\\\"'".toList := by
  have hinside : Inside (· ∈ literalEscapes)
      ['\\', '\\', '\\', '\x27', '\\', '"', '\x27'] :=
    .escape (by decide) (.escape (by decide) (.escape (by decide)
      (.plain (by decide) (by decide) (by decide) .nil)))
  have haccepts : Accepts "\\\\\\'\\\"'" := by
    rw [accepts_iff]
    simpa using hinside
  exact ⟨haccepts, quoted_means _ haccepts⟩

example : quoted "\\\\\\'\\\"'" = "\"\\\\'\\\"'\"" := by decide

end Code

end FlatC
