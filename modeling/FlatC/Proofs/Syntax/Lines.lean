import FlatC.Proofs.Syntax.Lexing

/-!
# Reading line by line

No piece of a text goes on over a line break, blanks apart, and every piece that ends at a line
break would end at the end of the text as well (`piece_newline`). Blanks can be taken one by one
(`tokenizeFrom_blank`). So a text that goes on behind a line break is read in two parts: its first
part as if nothing followed, and the rest as if it stood alone, in other places
(`tokenizeFrom_newline`, `tokenizeFrom_add`). `tokenize_lines` puts the two together.
-/

namespace FlatC

/-- The bytes of a text are those of its characters. -/
theorem byteLength_toList (s : String) : byteLength s.toList = s.utf8ByteSize := by
  suffices h : ∀ cs : List Char, byteLength cs = (String.ofList cs).utf8ByteSize by
    rw [h, String.ofList_toList]
  intro cs
  induction cs with
  | nil => rfl
  | cons c cs ih =>
    rw [byteLength_cons, ih, String.ofList_cons, String.utf8ByteSize_append,
      String.utf8ByteSize_singleton]

/-- The span `d` bytes further on. -/
def Span.shift (d : Nat) (s : Span) : Span := ⟨s.start + d, s.stop + d⟩

def Lexeme.shift (d : Nat) (l : Lexeme) : Lexeme := { l with span := l.span.shift d }

def Warning.shift (d : Nat) (w : Warning) : Warning := { w with span := w.span.shift d }

def Problem.shift (d : Nat) (e : Problem) : Problem := { e with span := e.span.shift d }

namespace Lexer

namespace Tokens

def shift (d : Nat) (ts : Tokens) : Tokens :=
  ⟨ts.lexemes.map (Lexeme.shift d), ts.warnings.map (Warning.shift d)⟩

/-- The tokens of two texts, one behind the other. -/
def append (ts us : Tokens) : Tokens :=
  ⟨ts.lexemes ++ us.lexemes, ts.warnings ++ us.warnings⟩

theorem cons_shift (d : Nat) (p : Piece) (span : Span) (t? : Option Token) (ts : Tokens) :
    (ts.cons p span t?).shift d = (ts.shift d).cons p (span.shift d) t? := by
  cases t? <;> cases h : p.tooLarge <;>
    simp [cons, shift, h, Lexeme.shift, Warning.shift, tooLargeWarning]

theorem cons_append (p : Piece) (span : Span) (t? : Option Token) (ts us : Tokens) :
    (ts.cons p span t?).append us = (ts.append us).cons p span t? := by
  cases t? <;> cases h : p.tooLarge <;> simp [cons, append, h]

end Tokens

/-! ## What reading gives -/

/-- What a text gives that starts with the piece `p`, if the rest of it gives the last argument. -/
def Piece.before (p : Piece) (span : Span) : Except Problem Tokens → Except Problem Tokens :=
  match p.token? with
  | .error f => fun _ => .error (f.problem span)
  | .ok t? => Except.map fun ts => ts.cons p span t?

/-- What a text gives that stands `d` bytes further on. -/
def shifted (d : Nat) : Except Problem Tokens → Except Problem Tokens
  | .ok ts => .ok (ts.shift d)
  | .error e => .error (e.shift d)

/-- What two texts give, one behind the other: what is wrong with the first comes first. -/
def followedBy (next : Except Problem Tokens) : Except Problem Tokens → Except Problem Tokens
  | .ok ts => next.map ts.append
  | .error e => .error e

section

variable (p : Piece) (span : Span) (r : Except Problem Tokens)

theorem shifted_before (d : Nat) :
    shifted d (p.before span r) = p.before (span.shift d) (shifted d r) := by
  unfold Piece.before
  cases p.token? with
  | error f => rfl
  | ok t? =>
    cases r with
    | error e => rfl
    | ok ts => exact congrArg Except.ok (Tokens.cons_shift d p span t? ts)

theorem followedBy_before (next : Except Problem Tokens) :
    followedBy next (p.before span r) = p.before span (followedBy next r) := by
  unfold Piece.before
  cases p.token? with
  | error f => rfl
  | ok t? =>
    cases r with
    | error e => rfl
    | ok ts =>
      cases next with
      | error e => rfl
      | ok us => exact congrArg Except.ok (Tokens.cons_append p span t? ts us)

theorem followedBy_nil (next : Except Problem Tokens) : followedBy next (.ok ⟨[], []⟩) = next := by
  cases next <;> rfl

theorem followedBy_ok {next : Except Problem Tokens} {ts us : Tokens}
    (h : followedBy next (.ok ts) = .ok us) : ∃ vs, next = .ok vs ∧ us = ts.append vs := by
  cases next with
  | error e => cases h
  | ok vs => exact ⟨vs, rfl, (Except.ok.inj h).symm⟩

/-- A gap changes nothing. -/
theorem before_gap (w : List Char) : Piece.before ⟨.gap, w⟩ span r = r := by
  cases r <;> rfl

end

variable {c : Char} {cs ds : List Char} {start : Nat}

theorem tokenizeFrom_cons :
    tokenizeFrom start (c :: cs) =
      (piece c cs).1.before ⟨start, start + byteLength (piece c cs).1.text⟩
        (tokenizeFrom (start + byteLength (piece c cs).1.text) (piece c cs).2) := by
  rw [tokenizeFrom, Piece.before]
  cases (piece c cs).1.token? with
  | error f => rfl
  | ok t? =>
    simp only
    cases tokenizeFrom (start + byteLength (piece c cs).1.text) (piece c cs).2 <;> rfl

/-! ## Blanks -/

theorem tokenizeFrom_cons_blank (hc : isBlank c = true) :
    tokenizeFrom start (c :: cs) =
      tokenizeFrom (start + byteLength (c :: cs.takeWhile isBlank)) (cs.dropWhile isBlank) := by
  rw [tokenizeFrom_cons, piece_blank hc]
  exact before_gap ..

/-- A blank leaves the tokens behind it as they are. -/
theorem tokenizeFrom_blank (hc : isBlank c = true) :
    tokenizeFrom start (c :: cs) = tokenizeFrom (start + c.utf8Size) cs := by
  rw [tokenizeFrom_cons_blank hc]
  cases cs with
  | nil => rfl
  | cons d cs =>
    by_cases hd : isBlank d = true
    · rw [tokenizeFrom_cons_blank hd, List.takeWhile_cons_of_pos hd, List.dropWhile_cons_of_pos hd,
        byteLength_cons, Nat.add_assoc]
    · rw [List.takeWhile_cons_of_neg hd, List.dropWhile_cons_of_neg hd]
      rfl

/-! ## Line breaks -/

/-- A run of a class without the line break stops there at the latest. -/
theorem run_newline {kind : Class} {p : Char → Bool} (hp : p '\n' = false) :
    run kind p c (cs ++ '\n' :: ds) =
      ((run kind p c cs).1, (run kind p c cs).2 ++ '\n' :: ds) := by
  have hstop : (cs ++ '\n' :: ds).takeWhile p = cs.takeWhile p ∧
      (cs ++ '\n' :: ds).dropWhile p = cs.dropWhile p ++ '\n' :: ds := by
    induction cs with
    | nil => simp [hp]
    | cons d cs ih => by_cases hd : p d = true <;> simp [hd, ih]
  rw [run, hstop.1, hstop.2]
  rfl

theorem isPrefixOf_newline {m : List Char} (hm : '\n' ∉ m) (cs : List Char) :
    m.isPrefixOf (cs ++ '\n' :: ds) = m.isPrefixOf cs := by
  induction m generalizing cs with
  | nil => simp
  | cons d m ih =>
    rw [List.mem_cons, not_or] at hm
    cases cs with
    | nil => simp [List.isPrefixOf, beq_false_of_ne (Ne.symm hm.1)]
    | cons c cs => simp only [List.cons_append, List.isPrefixOf, ih hm.2]

theorem longest?_newline (cs : List Char) :
    Mark.longest? (cs ++ '\n' :: ds) = Mark.longest? cs := by
  have hno : ∀ m : Mark, '\n' ∉ m.chars := by
    intro m
    cases m <;> decide
  unfold Mark.longest?
  congr 1
  exact funext fun m => isPrefixOf_newline (hno m) cs

theorem markPiece_newline :
    markPiece c (cs ++ '\n' :: ds) = ((markPiece c cs).1, (markPiece c cs).2 ++ '\n' :: ds) := by
  unfold markPiece
  rw [← List.cons_append, longest?_newline]
  cases hm : Mark.longest? (c :: cs) with
  | none => rfl
  | some m =>
    have hstarts := List.find?_some (p := fun m : Mark => m.chars.isPrefixOf (c :: cs)) hm
    have hpre := List.isPrefixOf_iff_prefix.1 hstarts
    simp only [List.drop_append_of_le_length hpre.length_le]

/-- A backslash escapes a line break no more than it escapes the end of the text. -/
theorem stringBody_newline (cs : List Char) :
    stringBody (cs ++ '\n' :: ds) = ((stringBody cs).1, (stringBody cs).2 ++ '\n' :: ds) := by
  fun_induction stringBody cs with
  | case1 =>
    rw [List.nil_append]
    unfold stringBody
    rfl
  | case2 c cs hc =>
    rw [List.cons_append]
    unfold stringBody
    rw [if_pos hc]
  | case3 c hc hs => simp [stringBody, hc, hs]
  | case4 c hc hs d ds hd => simp [stringBody, hc, hs, hd]
  | case5 c hc hs d ds hd body rest hb ih =>
    rw [hb] at ih
    simp [stringBody, hc, hs, hd, ih]
  | case6 c cs hc hs body rest hb ih =>
    rw [hb] at ih
    rw [List.cons_append]
    unfold stringBody
    rw [if_neg hc, if_neg hs, ih]

theorem stringPiece_newline :
    stringPiece (cs ++ '\n' :: ds) =
      ((stringPiece cs).1, (stringPiece cs).2 ++ '\n' :: ds) := by
  unfold stringPiece
  rw [stringBody_newline]
  obtain ⟨body, rest⟩ := stringBody cs
  cases rest with
  | nil => rfl
  | cons d rest =>
    by_cases hd : d = '"'
    · subst hd
      rfl
    · simp [hd]

/-- **A piece other than blanks is cut as if the text ended at the line break.** -/
theorem piece_newline (hc : isBlank c = false) :
    piece c (cs ++ '\n' :: ds) = ((piece c cs).1, (piece c cs).2 ++ '\n' :: ds) := by
  have hslash : ((cs ++ '\n' :: ds).head? == some '/') = (cs.head? == some '/') := by
    cases cs <;> rfl
  unfold piece
  simp only [hslash, hc, Bool.false_eq_true, if_false]
  split_ifs
  · exact run_newline (by decide)
  · exact run_newline (by decide)
  · exact run_newline (by decide)
  · exact run_newline (by decide)
  · exact stringPiece_newline
  · exact markPiece_newline

/-! ## Texts -/

/-- **A text that stands further on has the same tokens there.** -/
theorem tokenizeFrom_add (start d : Nat) (cs : List Char) :
    tokenizeFrom (start + d) cs = shifted d (tokenizeFrom start cs) := by
  induction hn : cs.length using Nat.strong_induction_on generalizing start cs with
  | _ n ih =>
    cases cs with
    | nil => simp [tokenizeFrom, shifted, Tokens.shift]
    | cons c cs =>
      have hlt := hn ▸ length_piece_rest_lt c cs
      rw [tokenizeFrom_cons, tokenizeFrom_cons, shifted_before, Nat.add_right_comm,
        ih _ hlt _ _ rfl]
      rfl

/-- **A text is read up to a line break as if it ended there**, and then the rest of it. -/
theorem tokenizeFrom_newline (start : Nat) (cs ds : List Char) :
    tokenizeFrom start (cs ++ '\n' :: ds) =
      followedBy (tokenizeFrom (start + byteLength cs + 1) ds) (tokenizeFrom start cs) := by
  induction hn : cs.length using Nat.strong_induction_on generalizing start cs with
  | _ n ih =>
    cases cs with
    | nil =>
      rw [List.nil_append, tokenizeFrom_blank (by decide), tokenizeFrom, followedBy_nil]
      rfl
    | cons c cs =>
      cases hc : isBlank c with
      | true =>
        rw [List.cons_append, tokenizeFrom_blank hc, tokenizeFrom_blank hc,
          ih _ (by simp [← hn]) _ _ rfl, byteLength_cons, ← Nat.add_assoc start]
      | false =>
        have hlt := hn ▸ length_piece_rest_lt c cs
        have hlen := congrArg byteLength (piece_append c cs)
        rw [byteLength_append] at hlen
        rw [List.cons_append, tokenizeFrom_cons, tokenizeFrom_cons, piece_newline hc,
          followedBy_before, ih _ hlt _ _ rfl, Nat.add_assoc start, hlen]

end Lexer

/-- **A text is read line by line.** A text that goes on behind a line break has the tokens and the
warnings of its first part and behind them those of the rest, moved by the bytes in front of it.
What is wrong with the first part is wrong with the text; if nothing is, what is wrong with the
rest is, in its place. -/
theorem tokenize_lines (source more : String) :
    tokenize (source ++ "\n" ++ more) =
      match tokenize source, tokenize more with
      | .error e, _ => .error e
      | .ok _, .error e => .error (e.shift (source.utf8ByteSize + 1))
      | .ok ts, .ok us => .ok {
          lexemes := ts.lexemes ++ us.lexemes.map (Lexeme.shift (source.utf8ByteSize + 1))
          warnings := ts.warnings ++
            us.warnings.map (Warning.shift (source.utf8ByteSize + 1)) } := by
  have htext : (source ++ "\n" ++ more).toList = source.toList ++ '\n' :: more.toList := by simp
  unfold tokenize
  rw [htext, Lexer.tokenizeFrom_newline, Nat.add_assoc, Lexer.tokenizeFrom_add, byteLength_toList]
  cases Lexer.tokenizeFrom 0 source.toList with
  | error e => rfl
  | ok ts => cases Lexer.tokenizeFrom 0 more.toList <;> rfl

end FlatC
