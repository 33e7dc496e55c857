import Mathlib
import FlatC.Token.Lexer

/-!
# Which tokens a text has

`Lexes cs ts` says that the text `cs` is cut into the tokens `ts` and that no warning
comes up; positions are left out. It is built from the end of the text to its front:
a blank changes nothing (`Lexes.blank`), and a name, a number, a string or a mark can
be put in front of a text that does not go on with it.

`Token.Wf` says which tokens the lexer makes at all (`tokenize_wf`), and
`Lexes.tokenize` goes back to the lexer.
-/

namespace FlatC

namespace Lexer

inductive Lexes : List Char → List Token → Prop where
  | nil : Lexes [] []
  | piece {c : Char} {cs : List Char} {ts : List Token} {t? : Option Token}
      (ht : (Lexer.piece c cs).1.token? = .ok t?) (hl : (Lexer.piece c cs).1.tooLarge = false)
      (h : Lexes (Lexer.piece c cs).2 ts) : Lexes (c :: cs) (t?.toList ++ ts)

theorem Lexes.of_piece {c : Char} {cs rest : List Char} {ts : List Token} {t : Token} {q : Piece}
    (hp : Lexer.piece c cs = (q, rest)) (ht : q.token? = .ok (some t)) (hl : q.tooLarge = false)
    (h : Lexes rest ts) : Lexes (c :: cs) (t :: ts) := by
  have ht' : (Lexer.piece c cs).1.token? = .ok (some t) := by rwa [hp]
  refine .piece ht' ?_ ?_
  · rwa [hp]
  · rwa [hp]

theorem Lexes.tokenizeFrom {cs : List Char} {ts : List Token} (h : Lexes cs ts) (start : Nat) :
    ∃ r, tokenizeFrom start cs = .ok r ∧ r.lexemes.map Lexeme.token = ts ∧ r.warnings = [] := by
  induction h generalizing start with
  | nil => exact ⟨⟨[], []⟩, by simp [Lexer.tokenizeFrom], rfl, rfl⟩
  | @piece c cs ts t? ht hl _ ih =>
    obtain ⟨r, hr, hts, hw⟩ := ih (start + byteLength (Lexer.piece c cs).1.text)
    refine ⟨r.cons (Lexer.piece c cs).1
      ⟨start, start + byteLength (Lexer.piece c cs).1.text⟩ t?, ?_, ?_, ?_⟩
    · simp only [Lexer.tokenizeFrom, ht, hr]
    · cases t? <;> simp [Tokens.cons, hts]
    · simp [Tokens.cons, hl, hw]

/-- **The lexer finds the tokens of a text.** -/
theorem Lexes.tokenize {source : String} {ts : List Token} (h : Lexes source.toList ts) :
    ∃ r, tokenize source = .ok r ∧ r.lexemes.map Lexeme.token = ts ∧ r.warnings = [] :=
  h.tokenizeFrom 0

/-! ## The first character of a piece -/

section Classes

variable {c : Char} {cs : List Char}

theorem isBlank_of_isLetter (h : isLetter c = true) : isBlank c = false := by
  rw [Bool.eq_false_iff]
  intro hb
  simp only [isBlank, Bool.or_eq_true, beq_iff_eq] at hb
  obtain (((rfl | rfl) | rfl) | rfl) | rfl := hb <;> exact absurd h (by decide)

theorem isBlank_of_isDigit (h : c.isDigit = true) : isBlank c = false := by
  rw [Bool.eq_false_iff]
  intro hb
  simp only [isBlank, Bool.or_eq_true, beq_iff_eq] at hb
  obtain (((rfl | rfl) | rfl) | rfl) | rfl := hb <;> exact absurd h (by decide)

theorem isLetter_of_isDigit (h : c.isDigit = true) : isLetter c = false := by
  simp only [Char.isDigit, Bool.and_eq_true, decide_eq_true_eq] at h
  have h2 := UInt32.le_iff_toNat_le.1 h.2
  have hA : ¬ c.val ≥ 'A'.val := fun h =>
    absurd (Nat.le_trans (UInt32.le_iff_toNat_le.1 h) h2) (by decide)
  have ha : ¬ c.val ≥ 'a'.val := fun h =>
    absurd (Nat.le_trans (UInt32.le_iff_toNat_le.1 h) h2) (by decide)
  have hline : c ≠ '_' := by
    rintro rfl
    exact absurd h2 (by decide)
  simp only [isLetter, Char.isAlpha, Char.isUpper, Char.isLower, hA, ha, false_and, decide_false,
    Bool.false_and, beq_false_of_ne hline, Bool.or_self]

theorem piece_blank (h : isBlank c = true) : piece c cs = run .gap isBlank c cs := by
  simp [piece, h]

theorem piece_letter (h : isLetter c = true) : piece c cs = run .word isWordChar c cs := by
  have h1 : c ≠ '#' := by rintro rfl; exact absurd h (by decide)
  have h2 : c ≠ '/' := by rintro rfl; exact absurd h (by decide)
  simp [piece, isBlank_of_isLetter h, h1, h2, h]

theorem piece_digit (h : c.isDigit = true) : piece c cs = run .int Char.isDigit c cs := by
  have h1 : c ≠ '#' := by rintro rfl; exact absurd h (by decide)
  have h2 : c ≠ '/' := by rintro rfl; exact absurd h (by decide)
  simp [piece, isBlank_of_isDigit h, isLetter_of_isDigit h, h1, h2, h]

end Classes

/-! ## Putting something in front of a text -/

section Front

variable {cs : List Char} {ts : List Token}

theorem Lexes.dropBlanks (h : Lexes cs ts) : Lexes (cs.dropWhile isBlank) ts := by
  cases h with
  | nil => exact .nil
  | @piece c cs ts t? ht hl h =>
    by_cases hc : isBlank c = true
    · rw [piece_blank hc] at ht h
      obtain rfl : none = t? := Except.ok.inj ht
      rwa [List.dropWhile_cons_of_pos hc]
    · rw [List.dropWhile_cons_of_neg hc]
      exact .piece ht hl h

theorem Lexes.blank {c : Char} (hc : isBlank c = true) (h : Lexes cs ts) : Lexes (c :: cs) ts := by
  have ht : (Lexer.piece c cs).1.token? = .ok none := by rw [piece_blank hc]; rfl
  refine .piece ht ?_ ?_
  · rw [piece_blank hc]; rfl
  · rw [piece_blank hc]; exact h.dropBlanks

theorem Lexes.space (h : Lexes cs ts) : Lexes (' ' :: cs) ts := h.blank rfl

theorem Lexes.newline (h : Lexes cs ts) : Lexes ('\n' :: cs) ts := h.blank rfl

/-- A text that does not go on with a name or a number. -/
def Apart (cs : List Char) : Prop := ∀ c ∈ cs.head?, isWordChar c = false

theorem apart_cons {c : Char} (h : isWordChar c = false) : Apart (c :: cs) := by
  intro d hd
  cases hd
  exact h

theorem takeWhile_append {p : Char → Bool} {w : List Char} (hw : ∀ c ∈ w, p c = true)
    (hcs : ∀ c ∈ cs.head?, p c = false) : (w ++ cs).takeWhile p = w := by
  rw [List.takeWhile_append_of_pos hw]
  cases cs with
  | nil => simp
  | cons c cs => simp [hcs c rfl]

theorem dropWhile_append {p : Char → Bool} {w : List Char} (hw : ∀ c ∈ w, p c = true)
    (hcs : ∀ c ∈ cs.head?, p c = false) : (w ++ cs).dropWhile p = cs := by
  rw [List.dropWhile_append_of_pos hw]
  cases cs with
  | nil => rfl
  | cons c cs => simp [hcs c rfl]

/-- A letter and word characters behind it. -/
def IsWord (x : String) : Prop :=
  ∃ c w, x.toList = c :: w ∧ isLetter c = true ∧ ∀ d ∈ w, isWordChar d = true

theorem isWordChar_of_isWord {x : String} (h : IsWord x) :
    ∀ c ∈ x.toList, isWordChar c = true := by
  obtain ⟨c, w, hx, hc, hw⟩ := h
  rw [hx]
  intro d hd
  obtain rfl | hd := List.mem_cons.1 hd
  · simp [isWordChar, hc]
  · exact hw d hd

theorem Lexes.word {x : String} {t : Token} (hx : IsWord x)
    (ht : (Piece.mk .word x.toList).token? = .ok (some t)) (ha : Apart cs) (h : Lexes cs ts) :
    Lexes (x.toList ++ cs) (t :: ts) := by
  obtain ⟨c, w, hxc, hc, hw⟩ := hx
  have hp : Lexer.piece c (w ++ cs) = (⟨.word, c :: w⟩, cs) := by
    rw [piece_letter hc, run, takeWhile_append hw ha, dropWhile_append hw ha]
  rw [hxc] at ht ⊢
  exact .of_piece hp ht rfl h

theorem isWord_keyword (w : Keyword) : IsWord w.spelling := by
  cases w <;> exact ⟨_, _, rfl, rfl, List.all_eq_true.1 rfl⟩

theorem Lexes.keyword (w : Keyword) (ha : Apart cs) (h : Lexes cs ts) :
    Lexes (w.spelling.toList ++ cs) (.word w :: ts) := by
  refine .word (isWord_keyword w) ?_ ha h
  cases w <;> rfl

theorem Lexes.mark (m : Mark) (hm : Mark.longest? (m.chars ++ cs) = some m)
    (hs : m = .slash → cs.head? ≠ some '/') (h : Lexes cs ts) :
    Lexes (m.chars ++ cs) (.mark m :: ts) := by
  have hcons : ∃ c w, m.chars = c :: w := by cases m <;> exact ⟨_, _, rfl⟩
  obtain ⟨c, w, hcw⟩ := hcons
  have hp : Lexer.piece c (w ++ cs) = (⟨.mark m, m.chars⟩, cs) := by
    have hmark : Lexer.piece c (w ++ cs) = markPiece c (w ++ cs) := by
      cases m with
      | slash =>
        obtain ⟨rfl, rfl⟩ : '/' = c ∧ [] = w := by simpa [Mark.chars] using hcw
        simp [Lexer.piece, hs rfl, isBlank, isLetter]
      | _ => cases hcw; rfl
    rw [hmark, markPiece, ← List.cons_append, ← hcw, hm]
    simp
  rw [hcw]
  exact .of_piece hp rfl rfl h

theorem Lexes.string {x : List Char} (hx : ∀ cs, stringBody (x ++ '"' :: cs) = (x, '"' :: cs))
    (he : badEscape? x = none) (h : Lexes cs ts) :
    Lexes ('"' :: (x ++ '"' :: cs)) (.str (String.ofList x) :: ts) := by
  have hp : Lexer.piece '"' (x ++ '"' :: cs) = (⟨.str x, '"' :: (x ++ ['"'])⟩, cs) := by
    show stringPiece (x ++ '"' :: cs) = _
    simp [stringPiece, hx]
  refine .of_piece hp ?_ rfl h
  simp [Piece.token?, he]

theorem Lexes.number {n : Nat} (hn : n ≤ maxInt) (ha : Apart cs) (h : Lexes cs ts) :
    Lexes ((toString (n : Int)).toList ++ cs) (.int n :: ts) := by
  have hdigits : (toString (n : Int)).toList = Nat.toDigits 10 n := Nat.toList_repr
  have hdec : decimal (Nat.toDigits 10 n) = n := by
    have := Nat.ofDigitChars_ten_toDigits (n := n)
    rwa [Nat.ofDigitChars_eq_foldl] at this
  obtain ⟨c, w, hcw⟩ := List.exists_cons_of_ne_nil (Nat.toDigits_ne_nil (n := n) (b := 10))
  have hall : ∀ d ∈ c :: w, d.isDigit = true := fun d hd =>
    Nat.isDigit_of_mem_toDigits (by decide) (by decide) (hcw ▸ hd)
  have hw : ∀ d ∈ w, d.isDigit = true := fun d hd => hall d (.tail _ hd)
  have hstop : ∀ d ∈ cs.head?, d.isDigit = false := by
    intro d hd
    have := ha d hd
    simp only [isWordChar, Bool.or_eq_false_iff] at this
    exact this.2
  have hp : Lexer.piece c (w ++ cs) = (⟨.int, c :: w⟩, cs) := by
    rw [piece_digit (hall c (.head _)), run, takeWhile_append hw hstop, dropWhile_append hw hstop]
  rw [hcw] at hdec
  rw [hdigits, hcw]
  refine .of_piece hp ?_ ?_ h
  · have hmin : min (n : Int) maxInt = n := by omega
    simp only [Piece.token?, hdec, hmin]
  · simpa [Piece.tooLarge, hdec] using hn

end Front

/-! ## Marks -/

/-- A mark with a blank behind it. -/
theorem Lexes.markSpace {cs : List Char} {ts : List Token} (m : Mark) (h : Lexes cs ts) :
    Lexes (m.chars ++ ' ' :: cs) (.mark m :: ts) :=
  .mark m (by cases m <;> rfl) (by simp) h.space

section Marks

variable {cs : List Char} {ts : List Token} (h : Lexes cs ts)
include h

theorem Lexes.leftParen : Lexes ('(' :: cs) (.mark .leftParen :: ts) :=
  .mark .leftParen rfl (by simp) h

theorem Lexes.rightParen : Lexes (')' :: cs) (.mark .rightParen :: ts) :=
  .mark .rightParen rfl (by simp) h

theorem Lexes.leftBrace : Lexes ('\x7b' :: cs) (.mark .leftBrace :: ts) :=
  .mark .leftBrace rfl (by simp) h

theorem Lexes.rightBrace : Lexes ('\x7d' :: cs) (.mark .rightBrace :: ts) :=
  .mark .rightBrace rfl (by simp) h

theorem Lexes.semicolon : Lexes (';' :: cs) (.mark .semicolon :: ts) :=
  .mark .semicolon rfl (by simp) h

theorem Lexes.comma : Lexes (',' :: cs) (.mark .comma :: ts) := .mark .comma rfl (by simp) h

theorem Lexes.dot : Lexes ('.' :: cs) (.mark .dot :: ts) := .mark .dot rfl (by simp) h

end Marks

/-! ## The tokens that the lexer makes -/

end Lexer

open Lexer in
/-- A token that the lexer can make. -/
def Token.Wf : Token → Prop
  | .int v => ∃ n : Nat, v = n ∧ n ≤ maxInt
  | .str x => (∀ cs, stringBody (x.toList ++ '"' :: cs) = (x.toList, '"' :: cs)) ∧
      badEscape? x.toList = none
  | .unterminated => False
  | .ident x => IsWord x ∧ Keyword.ofSpelling? x = none
  | .word _ | .mark _ => True

namespace Lexer

theorem Lexes.ident {cs : List Char} {ts : List Token} {x : String} (hx : (Token.ident x).Wf)
    (ha : Apart cs) (h : Lexes cs ts) : Lexes (x.toList ++ cs) (.ident x :: ts) :=
  .word hx.1 (by simp [Piece.token?, hx.2]) ha h

/-- The inside of a string literal does not depend on what stands behind it. -/
theorem stringBody_quote {cs x rest : List Char} (h : stringBody cs = (x, '"' :: rest))
    (us : List Char) : stringBody (x ++ '"' :: us) = (x, '"' :: us) := by
  fun_induction stringBody cs generalizing x with
  | case1 => cases h
  | case2 c cs hc => cases h; unfold stringBody; rfl
  | case3 => cases h; simp_all
  | case4 => cases h; simp_all
  | case5 c hc hs d ds hd body rest' hb ih =>
    obtain ⟨rfl, rfl⟩ := Prod.mk.inj h
    simp [stringBody, hc, hs, hd, ih hb]
  | case6 c cs hc hs body rest' hb ih =>
    obtain ⟨rfl, rfl⟩ := Prod.mk.inj h
    rw [List.cons_append]
    unfold stringBody
    rw [if_neg hc, if_neg hs, ih hb]

theorem wordToken_wf {c : Char} {cs : List Char} {t : Token} (hc : isLetter c = true)
    (h : (run .word isWordChar c cs).1.token? = .ok (some t)) : t.Wf := by
  simp only [run, Piece.token?] at h
  split at h
  next => cases h; trivial
  next hk =>
    cases h
    have hw : ∀ d ∈ cs.takeWhile isWordChar, isWordChar d = true :=
      List.all_eq_true.1 List.all_takeWhile
    exact ⟨⟨c, _, String.toList_ofList, hc, hw⟩, hk⟩

theorem intToken_wf {p : Piece} {t : Token} (hp : p.kind = .int) (h : p.token? = .ok (some t)) :
    t.Wf := by
  simp only [Piece.token?, hp] at h
  cases h
  exact ⟨min (decimal p.text) maxInt, by omega, by omega⟩

theorem stringToken_wf {cs : List Char} {t : Token}
    (h : (stringPiece cs).1.token? = .ok (some t)) : t.Wf := by
  unfold stringPiece at h
  split at h
  next body rest hb =>
    simp only [Piece.token?] at h
    split at h
    next => cases h
    next he =>
      cases h
      simpa [Token.Wf, he] using stringBody_quote hb
  next => cases h

theorem markToken_wf {c : Char} {cs : List Char} {t : Token}
    (h : (markPiece c cs).1.token? = .ok (some t)) : t.Wf := by
  unfold markPiece at h
  split at h
  next => cases h; trivial
  next => cases h

theorem piece_wf {c : Char} {cs : List Char} {t : Token}
    (h : (piece c cs).1.token? = .ok (some t)) : t.Wf := by
  unfold piece at h
  split at h
  · cases h
  split at h
  · cases h
  split at h
  · cases h
  split at h
  next hc => exact wordToken_wf hc h
  split at h
  next => exact intToken_wf rfl h
  split at h
  next => exact stringToken_wf h
  next => exact markToken_wf h

theorem tokenizeFrom_wf {start : Nat} {cs : List Char} {r : Tokens}
    (h : tokenizeFrom start cs = .ok r) : ∀ l ∈ r.lexemes, l.token.Wf := by
  fun_induction tokenizeFrom start cs generalizing r with
  | case1 => cases h; simp
  | case2 => cases h
  | case3 => cases h
  | case4 start c cs cut span token? ht ts hts =>
    rename_i ih
    cases h
    intro l hl
    cases token? with
    | none => exact ih hts l hl
    | some t =>
      simp only [Tokens.cons, List.mem_cons] at hl
      obtain rfl | hl := hl
      · exact piece_wf ht
      · exact ih hts l hl

/-- **Every token of a text is one that the lexer can make.** -/
theorem tokenize_wf {source : String} {r : Tokens} (h : tokenize source = .ok r) :
    ∀ l ∈ r.lexemes, l.token.Wf :=
  tokenizeFrom_wf h

end Lexer

end FlatC
