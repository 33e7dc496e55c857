import FlatC.Proofs.Syntax.Lines

/-!
# The patterns of tokens

The classes of tokens, blanks and comments are **patterns** (`Pattern.Matches`). A text splits into
lexemes with gaps between them (`Splits`): a gap is made of blanks and of comments up to the end of
their lines, and a lexeme is the longest match of any pattern where it stands (`IsLexeme`).

`tokenize_longest` says that a text has tokens exactly if it splits in this way, and what they are.
One half rests on `Pattern.Matches.length_le`: no pattern matches more than the lexer cuts. The other
half goes through a split from its end to its front (`Splits.tokenizeFrom`).
-/

namespace FlatC

namespace Lexer

/-! ## Patterns -/

/-- What can stand between the quotes of a string literal: no quote, backslash or line break, but
for a backslash with a character behind it that `escaped` allows. -/
inductive Inside (escaped : Char → Prop) : List Char → Prop where
  | nil : Inside escaped []
  | plain {c : Char} {cs : List Char} (hquote : c ≠ '"') (hslash : c ≠ '\\') (hline : c ≠ '\n')
      (h : Inside escaped cs) : Inside escaped (c :: cs)
  | escape {c : Char} {cs : List Char} (hc : escaped c) (h : Inside escaped cs) :
      Inside escaped ('\\' :: c :: cs)

/-- The classes of tokens, and of what stands between them. -/
inductive Pattern where
  | blanks
  /-- A comment behind two slashes. -/
  | slashes
  /-- A comment behind a number sign. -/
  | hash
  | int
  | string
  /-- A string literal without its closing quote. -/
  | unterminated
  | name
  | keyword (w : Keyword)
  | mark (m : Mark)
  deriving DecidableEq, Repr

namespace Pattern

/-- The texts of a class. -/
def Matches : Pattern → List Char → Prop
  | blanks, l => l ≠ [] ∧ ∀ c ∈ l, c ∈ [' ', '\t', '\r', '\n', '\x0c']
  | slashes, l => ∃ w, l = '/' :: '/' :: w ∧ '\n' ∉ w
  | hash, l => ∃ w, l = '#' :: w ∧ '\n' ∉ w
  | int, l => l ≠ [] ∧ ∀ c ∈ l, c.isDigit
  | string, l => ∃ body, l = '"' :: (body ++ ['"']) ∧ Inside (· ≠ '\n') body
  | unterminated, l => ∃ body, l = '"' :: body ∧ Inside (· ≠ '\n') body
  | name, l => ∃ c w, l = c :: w ∧ (c.isAlpha ∨ c = '_') ∧
      ∀ d ∈ w, d.isAlpha ∨ d = '_' ∨ d.isDigit
  | keyword w, l => l = w.spelling.toList
  | mark m, l => l = m.chars

def IsComment (q : Pattern) : Prop := q = slashes ∨ q = hash

/-- What matches stands between tokens. -/
def IsGap (q : Pattern) : Prop := q = blanks ∨ q.IsComment

end Pattern

/-- A sequence of blanks and of comments up to the ends of their lines, in front of `rest`. -/
inductive Gap (rest : List Char) : List Char → Prop where
  | nil : Gap rest []
  | blanks {l g : List Char} (hl : Pattern.blanks.Matches l) (h : Gap rest g) : Gap rest (l ++ g)
  | comment {q : Pattern} {l g : List Char} (hq : q.IsComment) (hl : q.Matches l)
      (hline : ∀ c ∈ (g ++ rest).head?, c = '\n') (h : Gap rest g) : Gap rest (l ++ g)

/-- In front of `rest`, no pattern matches more than `l`, and a gap matches less. -/
structure IsLexeme (l rest : List Char) : Prop where
  longest : ∀ (q : Pattern) (w : List Char), w <+: l ++ rest → q.Matches w → w.length ≤ l.length
  no_gap : ∀ (q : Pattern) (w : List Char), q.IsGap → w <+: l ++ rest → q.Matches w →
    w.length < l.length

/-- The token that a lexeme stands for. A word that is reserved is no name, and a string literal has
only the escapes that there are. -/
inductive Denotes : List Char → Token → Prop where
  | int {l : List Char} (h : Pattern.int.Matches l) :
      Denotes l (.int (min (Nat.ofDigitChars 10 l 0 : Nat) 2147483647))
  | str {body : List Char} (h : Inside (· ∈ ['n', 't', '\x27', '"', '\\']) body) :
      Denotes ('"' :: (body ++ ['"'])) (.str (String.ofList body))
  | word {l : List Char} {w : Keyword} (h : (Pattern.keyword w).Matches l) : Denotes l (.word w)
  | ident {l : List Char} (h : Pattern.name.Matches l)
      (hw : ∀ w, ¬ (Pattern.keyword w).Matches l) : Denotes l (.ident (String.ofList l))
  | mark {l : List Char} {m : Mark} (h : (Pattern.mark m).Matches l) : Denotes l (.mark m)

/-- A lexeme is an integer literal above the greatest value. -/
def isLarge (l : List Char) : Token → Bool
  | .int _ => decide (2147483647 < Nat.ofDigitChars 10 l 0)
  | _ => false

/-- A lexeme with its token, and the gap behind it. -/
structure Cut where
  text : List Char
  token : Token
  gap : List Char

namespace Cut

/-- The text of lexemes and the gaps behind them. -/
def join : List Cut → List Char
  | [] => []
  | x :: xs => x.text ++ (x.gap ++ join xs)

/-- The tokens with their spans, where the first lexeme starts at `start`. -/
def lexemes (start : Nat) : List Cut → List Lexeme
  | [] => []
  | x :: xs => ⟨x.token, ⟨start, start + byteLength x.text⟩⟩ ::
      lexemes (start + byteLength x.text + byteLength x.gap) xs

/-- A warning for each integer literal above the greatest value. -/
def warnings (start : Nat) : List Cut → List Warning
  | [] => []
  | x :: xs =>
    let later := warnings (start + byteLength x.text + byteLength x.gap) xs
    if isLarge x.text x.token then
      tooLargeWarning ⟨start, start + byteLength x.text⟩ :: later
    else later

end Cut

/-- The gap and what stands behind it are a text that is split into lexemes. -/
inductive Splits : List Char → List Cut → Prop where
  | last {gap : List Char} (hgap : Gap [] gap) : Splits gap []
  | cut {gap : List Char} {x : Cut} {xs : List Cut} (hgap : Gap (Cut.join (x :: xs)) gap)
      (hlexeme : IsLexeme x.text (x.gap ++ Cut.join xs)) (htoken : Denotes x.text x.token)
      (h : Splits x.gap xs) : Splits gap (x :: xs)

/-! ## Classes of characters -/

theorem isBlank_iff {c : Char} : isBlank c = true ↔ c ∈ [' ', '\t', '\r', '\n', '\x0c'] := by
  simp [isBlank, or_assoc]

theorem isLetter_iff {c : Char} : isLetter c = true ↔ c.isAlpha ∨ c = '_' := by
  simp [isLetter]

theorem isWordChar_iff {c : Char} :
    isWordChar c = true ↔ c.isAlpha ∨ c = '_' ∨ c.isDigit := by
  simp [isWordChar, isLetter, or_assoc]

theorem inLine_iff {w : List Char} : (∀ c ∈ w, inLine c = true) ↔ '\n' ∉ w := by
  simp only [inLine, bne_iff_ne]
  exact ⟨fun h hmem => h _ hmem rfl, fun h c hc heq => h (heq ▸ hc)⟩

theorem isEscapable_iff {c : Char} :
    isEscapable c = true ↔ c ∈ ['n', 't', '\x27', '"', '\\'] := by
  simp [isEscapable, or_assoc]

/-! ## String literals -/

namespace Inside

variable {p : Char → Prop} {body : List Char}

theorem mono {r : Char → Prop} (hpr : ∀ c, p c → r c) (h : Inside p body) : Inside r body := by
  induction h with
  | nil => exact .nil
  | plain hquote hslash hline _ ih => exact .plain hquote hslash hline ih
  | escape hc _ ih => exact .escape (hpr _ hc) ih

theorem stringBody_append (h : Inside (· ≠ '\n') body) (rest : List Char) :
    stringBody (body ++ rest) = (body ++ (stringBody rest).1, (stringBody rest).2) := by
  induction h with
  | nil => rfl
  | @plain c cs hquote hslash hline _ ih =>
    rw [List.cons_append, stringBody.eq_def]
    simp [hquote, hslash, hline, ih]
  | @escape c cs hc _ ih =>
    rw [List.cons_append, List.cons_append, stringBody.eq_def]
    simp [hc, ih]

theorem stringBody_quote (h : Inside (· ≠ '\n') body) (rest : List Char) :
    stringBody (body ++ '"' :: rest) = (body, '"' :: rest) := by
  have hstop : stringBody ('"' :: rest) = ([], '"' :: rest) := by unfold stringBody; rfl
  rw [h.stringBody_append, hstop, List.append_nil]

/-- All escapes are right if none is found that is not. -/
theorem badEscape?_eq_none_iff (h : Inside p body) :
    badEscape? body = none ↔ Inside (· ∈ ['n', 't', '\x27', '"', '\\']) body := by
  induction h with
  | nil => exact ⟨fun _ => .nil, fun _ => rfl⟩
  | @plain c cs hquote hslash hline _ ih =>
    have hskip : badEscape? (c :: cs) = badEscape? cs := by
      rw [badEscape?.eq_def]
      split
      next heq => cases heq
      next heq => exact absurd (List.cons.inj heq).1 hslash
      next heq => rw [(List.cons.inj heq).2]
    rw [hskip, ih]
    refine ⟨.plain hquote hslash hline, fun h => ?_⟩
    cases h with
    | plain _ _ _ h => exact h
    | escape => exact absurd rfl hslash
  | @escape c cs hc _ ih =>
    rw [badEscape?]
    split
    next hok =>
      rw [ih]
      refine ⟨.escape (isEscapable_iff.1 hok), fun h => ?_⟩
      cases h with
      | plain _ hslash => exact absurd rfl hslash
      | escape _ h => exact h
    next hbad =>
      refine ⟨nofun, fun h => ?_⟩
      cases h with
      | plain _ hslash => exact absurd rfl hslash
      | escape hc => exact absurd (isEscapable_iff.2 hc) hbad

end Inside

theorem inside_stringBody (cs : List Char) : Inside (· ≠ '\n') (stringBody cs).1 := by
  fun_induction stringBody cs with
  | case1 => exact .nil
  | case2 => exact .nil
  | case3 => exact .nil
  | case4 => exact .nil
  | case5 c hc hs d ds hd body rest hb ih =>
    obtain rfl : c = '\\' := by simpa using hs
    rw [hb] at ih
    exact .escape (by simpa using hd) ih
  | case6 c cs hc hs body rest hb ih =>
    rw [hb] at ih
    simp only [Bool.or_eq_true, beq_iff_eq, not_or] at hc hs
    exact .plain hc.1 hs hc.2 ih

/-! ## Marks -/

section Marks

variable {cs : List Char} {m m' : Mark}

theorem chars_ne_nil (m : Mark) : m.chars ≠ [] := by cases m <;> simp [Mark.chars]

theorem chars_prefix_of_longest? (h : Mark.longest? cs = some m) : m.chars <+: cs :=
  List.isPrefixOf_iff_prefix.1 (List.find?_some (p := fun m : Mark => m.chars.isPrefixOf cs) h)

/-- The first mark in the list that a text starts with is a longest one. -/
theorem length_chars_le_of_longest? (h : Mark.longest? cs = some m) (hm' : m'.chars <+: cs) :
    m'.chars.length ≤ m.chars.length := by
  have hsorted : Mark.all.Pairwise fun a b => b.chars.length ≤ a.chars.length := by decide
  obtain ⟨-, before, after, hall, hbefore⟩ := List.find?_eq_some_iff_append.1 h
  have hmem : m' ∈ before ++ m :: after := hall ▸ Mark.mem_all m'
  rcases List.mem_append.1 hmem with hmem | hmem
  · have hno := hbefore m' hmem
    rw [List.isPrefixOf_iff_prefix.2 hm'] at hno
    cases hno
  · rw [hall] at hsorted
    rcases List.mem_cons.1 hmem with rfl | hmem
    · exact le_rfl
    · exact (List.pairwise_cons.1 (List.pairwise_append.1 hsorted).2.1).1 m' hmem

theorem exists_longest? (hm : m.chars <+: cs) : ∃ m', Mark.longest? cs = some m' := by
  rw [← Option.isSome_iff_exists, Mark.longest?, List.find?_isSome]
  exact ⟨m, Mark.mem_all m, List.isPrefixOf_iff_prefix.2 hm⟩

theorem chars_injective (h : m.chars = m'.chars) : m = m' := by
  have hinj : ∀ a ∈ Mark.all, ∀ b ∈ Mark.all, a.chars = b.chars → a = b := by decide
  exact hinj m (Mark.mem_all m) m' (Mark.mem_all m') h

/-- A text that starts with a mark is cut as one, unless it is a comment. -/
theorem piece_mark {c : Char} (hm : m.chars <+: c :: cs)
    (hslash : m = .slash → cs.head? ≠ some '/') : piece c cs = markPiece c cs := by
  cases m with
  | slash =>
    obtain rfl : '/' = c := (List.cons_prefix_cons.1 hm).1
    simp [piece, hslash rfl, isBlank, isLetter]
  | _ =>
    obtain rfl := (List.cons_prefix_cons.1 hm).1
    rfl

end Marks

/-! ## No pattern matches more than the lexer cuts -/

section Longest

variable {c : Char} {cs : List Char}

theorem prefix_takeWhile {p : Char → Bool} {w : List Char} (hw : ∀ d ∈ w, p d = true)
    (h : w <+: cs) : w <+: cs.takeWhile p := by
  obtain ⟨rest, rfl⟩ := h
  rw [List.takeWhile_append_of_pos hw]
  exact List.prefix_append ..

/-- A run is as long as the class of its characters allows. -/
theorem length_le_run {kind : Class} {p : Char → Bool} {w : List Char}
    (hw : ∀ d ∈ w, p d = true) (h : c :: w <+: c :: cs) :
    (c :: w).length ≤ (run kind p c cs).1.text.length := by
  have hpre := prefix_takeWhile hw (List.cons_prefix_cons.1 h).2
  exact Nat.succ_le_succ hpre.length_le

theorem piece_hash : piece '#' cs = run .gap inLine '#' cs := rfl

theorem piece_slashes : piece '/' ('/' :: cs) = run .gap inLine '/' ('/' :: cs) := rfl

theorem piece_quote : piece '"' cs = stringPiece cs := rfl

theorem stringPiece_closed {body rest : List Char} (h : Inside (· ≠ '\n') body) :
    stringPiece (body ++ '"' :: rest) = (⟨.str body, '"' :: (body ++ ['"'])⟩, rest) := by
  rw [stringPiece, h.stringBody_quote]
  rfl

theorem length_body_le_stringPiece (cs : List Char) :
    (stringBody cs).1.length + 1 ≤ (stringPiece cs).1.text.length := by
  unfold stringPiece
  split
  next body rest heq => rw [heq]; simp
  next body rest _ heq => rw [heq]; simp

theorem name_matches_keyword (w : Keyword) : Pattern.name.Matches w.spelling.toList := by
  obtain ⟨c, l, hl, hc, hword⟩ := isWord_keyword w
  exact ⟨c, l, hl, isLetter_iff.1 hc, fun d hd => isWordChar_iff.1 (hword d hd)⟩

theorem Pattern.Matches.name_length_le {w : List Char} (h : Pattern.name.Matches w)
    (hw : w <+: c :: cs) : w.length ≤ (piece c cs).1.text.length := by
  obtain ⟨d, l, rfl, hd, hl⟩ := h
  obtain ⟨rfl, -⟩ := List.cons_prefix_cons.1 hw
  rw [piece_letter (isLetter_iff.2 hd)]
  exact length_le_run (fun e he => isWordChar_iff.2 (hl e he)) hw

/-- **No pattern matches more than the lexer cuts.** -/
theorem Pattern.Matches.length_le {q : Pattern} {w : List Char} (h : q.Matches w)
    (hw : w <+: c :: cs) : w.length ≤ (piece c cs).1.text.length := by
  cases q with
  | blanks =>
    obtain ⟨hne, hall⟩ := h
    obtain ⟨d, l, rfl⟩ := List.exists_cons_of_ne_nil hne
    obtain ⟨rfl, -⟩ := List.cons_prefix_cons.1 hw
    rw [piece_blank (isBlank_iff.2 (hall d (.head _)))]
    exact length_le_run (fun e he => isBlank_iff.2 (hall e (.tail _ he))) hw
  | slashes =>
    obtain ⟨l, rfl, hl⟩ := h
    obtain ⟨rfl, htail⟩ := List.cons_prefix_cons.1 hw
    obtain ⟨ds, rfl⟩ : ∃ ds, cs = '/' :: ds := by
      obtain ⟨rest, rfl⟩ := htail
      exact ⟨l ++ rest, rfl⟩
    rw [piece_slashes]
    refine length_le_run (inLine_iff.2 ?_) hw
    simpa using hl
  | hash =>
    obtain ⟨l, rfl, hl⟩ := h
    obtain ⟨rfl, -⟩ := List.cons_prefix_cons.1 hw
    rw [piece_hash]
    exact length_le_run (inLine_iff.2 hl) hw
  | int =>
    obtain ⟨hne, hall⟩ := h
    obtain ⟨d, l, rfl⟩ := List.exists_cons_of_ne_nil hne
    obtain ⟨rfl, -⟩ := List.cons_prefix_cons.1 hw
    rw [piece_digit (hall d (.head _))]
    exact length_le_run (fun e he => hall e (.tail _ he)) hw
  | string =>
    obtain ⟨body, rfl, hbody⟩ := h
    obtain ⟨rfl, rest, rfl⟩ := List.cons_prefix_cons.1 hw
    rw [piece_quote, List.append_assoc, List.singleton_append, stringPiece_closed hbody]
  | unterminated =>
    obtain ⟨body, rfl, hbody⟩ := h
    obtain ⟨rfl, rest, rfl⟩ := List.cons_prefix_cons.1 hw
    rw [piece_quote]
    refine le_trans ?_ (length_body_le_stringPiece _)
    rw [hbody.stringBody_append]
    simp
  | name => exact h.name_length_le hw
  | keyword k =>
    obtain rfl : w = k.spelling.toList := h
    exact (name_matches_keyword k).name_length_le hw
  | mark m =>
    obtain rfl : w = m.chars := h
    by_cases hcomment : m = .slash ∧ cs.head? = some '/'
    · rw [hcomment.1]
      exact List.length_pos_iff.2 (piece_text_ne_nil c cs)
    · rw [piece_mark hw fun hm hhead => hcomment ⟨hm, hhead⟩, markPiece]
      obtain ⟨m', hm'⟩ := exists_longest? hw
      rw [hm']
      exact length_chars_le_of_longest? hm' hw

/-- Where a gap matches, the lexer cuts one. -/
theorem Pattern.Matches.kind_eq_gap {q : Pattern} {w : List Char} (hq : q.IsGap)
    (h : q.Matches w) (hw : w <+: c :: cs) : (piece c cs).1.kind = .gap := by
  obtain rfl | rfl | rfl := hq
  · obtain ⟨hne, hall⟩ := h
    obtain ⟨d, l, rfl⟩ := List.exists_cons_of_ne_nil hne
    obtain ⟨rfl, -⟩ := List.cons_prefix_cons.1 hw
    rw [piece_blank (isBlank_iff.2 (hall d (.head _)))]
    rfl
  · obtain ⟨l, rfl, -⟩ := h
    obtain ⟨rfl, rest, rfl⟩ := List.cons_prefix_cons.1 hw
    rfl
  · obtain ⟨l, rfl, -⟩ := h
    obtain ⟨rfl, -⟩ := List.cons_prefix_cons.1 hw
    rfl

/-- What the lexer makes a token of is a lexeme. -/
theorem isLexeme_piece {t : Token} (h : (piece c cs).1.token? = .ok (some t)) :
    IsLexeme (piece c cs).1.text (piece c cs).2 where
  longest q w hw hq := by
    rw [piece_append] at hw
    exact hq.length_le hw
  no_gap q w hgap hw hq := by
    rw [piece_append] at hw
    rw [Piece.token?, hq.kind_eq_gap hgap hw] at h
    cases h

end Longest

/-! ## The token of a piece -/

theorem decimal_eq (cs : List Char) : decimal cs = Nat.ofDigitChars 10 cs 0 :=
  Nat.ofDigitChars_eq_foldl.symm

theorem ofSpelling?_eq_some {x : String} {w : Keyword} (h : Keyword.ofSpelling? x = some w) :
    w.spelling = x := by
  simpa using List.find?_some (p := fun w : Keyword => w.spelling == x) h

theorem ofSpelling?_eq_none {x : String} (h : Keyword.ofSpelling? x = none) (w : Keyword) :
    w.spelling ≠ x := by
  simpa using List.find?_eq_none.1 h w (Keyword.mem_all w)

section Tokens

variable {c : Char} {cs : List Char} {t : Token}

theorem denotes_word (hc : isLetter c = true)
    (h : (run .word isWordChar c cs).1.token? = .ok (some t)) :
    Denotes (run .word isWordChar c cs).1.text t := by
  simp only [run, Piece.token?] at h ⊢
  split at h
  next w hw =>
    obtain rfl := Option.some.inj (Except.ok.inj h)
    refine .word ?_
    show _ = w.spelling.toList
    rw [ofSpelling?_eq_some hw, String.toList_ofList]
  next hnone =>
    obtain rfl := Option.some.inj (Except.ok.inj h)
    refine .ident ⟨c, _, rfl, isLetter_iff.1 hc, fun d hd => ?_⟩ fun w hw => ?_
    · exact isWordChar_iff.1 (List.all_eq_true.1 List.all_takeWhile d hd)
    · refine ofSpelling?_eq_none hnone w (String.toList_inj.1 ?_)
      rw [String.toList_ofList]
      exact hw.symm

theorem denotes_int (hc : c.isDigit = true)
    (h : (run .int Char.isDigit c cs).1.token? = .ok (some t)) :
    Denotes (run .int Char.isDigit c cs).1.text t := by
  simp only [run, Piece.token?, decimal_eq] at h ⊢
  obtain rfl := Option.some.inj (Except.ok.inj h)
  refine .int ⟨List.cons_ne_nil _ _, fun d hd => ?_⟩
  rcases List.mem_cons.1 hd with rfl | hd
  · exact hc
  · exact List.all_eq_true.1 List.all_takeWhile d hd

theorem denotes_string (h : (stringPiece cs).1.token? = .ok (some t)) :
    Denotes (stringPiece cs).1.text t := by
  have hinside := inside_stringBody cs
  unfold stringPiece at h ⊢
  split at h
  next body rest heq =>
    rw [heq] at hinside
    simp only [Piece.token?] at h
    split at h
    next => cases h
    next hesc =>
      obtain rfl := Option.some.inj (Except.ok.inj h)
      exact .str (hinside.badEscape?_eq_none_iff.1 hesc)
  next => cases h

theorem denotes_mark (h : (markPiece c cs).1.token? = .ok (some t)) :
    Denotes (markPiece c cs).1.text t := by
  unfold markPiece at h ⊢
  split at h
  next m hm =>
    obtain rfl := Option.some.inj (Except.ok.inj h)
    exact .mark rfl
  next => cases h

/-- A piece denotes the token that the lexer makes of it. -/
theorem denotes_piece (h : (piece c cs).1.token? = .ok (some t)) :
    Denotes (piece c cs).1.text t := by
  unfold piece at h ⊢
  split_ifs at h ⊢
  · cases h
  · cases h
  · cases h
  · exact denotes_word ‹_› h
  · exact denotes_int ‹_› h
  · exact denotes_string h
  · exact denotes_mark h

end Tokens

theorem tooLarge_eq {p : Piece} {t : Token} (h : p.token? = .ok (some t)) :
    p.tooLarge = isLarge p.text t := by
  unfold Piece.token? at h
  unfold Piece.tooLarge
  split at h
  next => cases h
  next hk =>
    cases h
    simp only [hk, decimal_eq]
    rfl
  next hk =>
    split at h
    next => cases h
    next => cases h; simp only [hk, isLarge]
  next => cases h
  next hk => simp only at h; split at h <;> (cases h; simp only [hk, isLarge])
  next hk => cases h; simp only [hk, isLarge]
  next => cases h

/-! ## Gaps -/

section Gaps

variable {c : Char} {cs rest : List Char} {start : Nat} {ts : Tokens}

/-- A comment is cut up to the end of its line. -/
theorem head?_dropWhile_inLine (cs : List Char) : ∀ d ∈ (cs.dropWhile inLine).head?, d = '\n' := by
  intro d hd
  have hstop := List.head?_dropWhile_not inLine cs
  rw [Option.mem_def.1 hd] at hstop
  simpa [inLine] using hstop

theorem inLine_takeWhile (cs : List Char) : '\n' ∉ cs.takeWhile inLine :=
  inLine_iff.1 (List.all_eq_true.1 List.all_takeWhile)

theorem kind_of_token?_eq_none {p : Piece} (h : p.token? = .ok none) : p.kind = .gap := by
  unfold Piece.token? at h
  split at h
  next hk => exact hk
  next => cases h
  next => split at h <;> cases h
  next => cases h
  next => simp only at h; split at h <;> cases h
  next => cases h
  next => cases h

/-- A piece without a token is a stretch of blanks or a comment. -/
theorem piece_of_token?_eq_none (h : (piece c cs).1.token? = .ok none) :
    isBlank c = true ∨ ∃ q : Pattern, q.IsComment ∧ q.Matches (c :: cs.takeWhile inLine) ∧
      piece c cs = run .gap inLine c cs := by
  have hk := kind_of_token?_eq_none h
  unfold piece at hk ⊢
  split_ifs at hk ⊢ with hblank hhash hslash
  · exact .inl hblank
  · obtain rfl : c = '#' := by simpa using hhash
    exact .inr ⟨.hash, .inr rfl, ⟨_, rfl, inLine_takeWhile cs⟩, rfl⟩
  · obtain ⟨rfl, hhead⟩ : c = '/' ∧ cs.head? = some '/' := by simpa using hslash
    obtain ⟨ds, rfl⟩ := List.head?_eq_some_iff.1 hhead
    exact .inr ⟨.slashes, .inl rfl, ⟨_, rfl, inLine_takeWhile ds⟩, rfl⟩
  · cases hk
  · cases hk
  · unfold stringPiece at hk
    split at hk <;> cases hk
  · unfold markPiece at hk
    split at hk <;> cases hk

/-- A piece without a token goes in front of a gap. -/
theorem Gap.of_piece {g : List Char} (hp : (piece c cs).1.token? = .ok none)
    (hrest : (piece c cs).2 = g ++ rest) (hg : Gap rest g) :
    Gap rest ((piece c cs).1.text ++ g) := by
  obtain hblank | ⟨q, hq, hmatch, hrun⟩ := piece_of_token?_eq_none hp
  · rw [piece_blank hblank]
    refine .blanks ⟨List.cons_ne_nil _ _, fun d hd => isBlank_iff.1 ?_⟩ hg
    rcases List.mem_cons.1 hd with rfl | hd
    · exact hblank
    · exact List.all_eq_true.1 List.all_takeWhile d hd
  · rw [hrun] at hrest ⊢
    refine .comment hq hmatch ?_ hg
    rw [← hrest]
    exact head?_dropWhile_inLine cs

/-- The tokens of a text with a piece in front of it. -/
theorem tokenizeFrom_piece {p : Piece} {t? : Option Token} (hp : piece c cs = (p, rest))
    (ht : p.token? = .ok t?) (h : tokenizeFrom (start + byteLength p.text) rest = .ok ts) :
    tokenizeFrom start (c :: cs) =
      .ok (ts.cons p ⟨start, start + byteLength p.text⟩ t?) := by
  simp only [tokenizeFrom, hp, ht, h]

/-- Blanks leave the tokens behind them as they are. -/
theorem tokenizeFrom_blanks {l : List Char} (hl : ∀ d ∈ l, isBlank d = true)
    (h : tokenizeFrom (start + byteLength l) cs = .ok ts) :
    tokenizeFrom start (l ++ cs) = .ok ts := by
  induction l generalizing start with
  | nil => exact h
  | cons d l ih =>
    rw [List.cons_append, tokenizeFrom_blank (hl d (.head _))]
    refine ih (fun e he => hl e (.tail _ he)) ?_
    rwa [Nat.add_assoc]

/-- A comment is cut up to the line break behind it. -/
theorem piece_comment {q : Pattern} {l : List Char} (hq : q.IsComment) (hl : q.Matches l)
    (hline : ∀ d ∈ rest.head?, d = '\n') :
    ∃ c w, l = c :: w ∧ piece c (w ++ rest) = (⟨.gap, l⟩, rest) := by
  have hstop : ∀ d ∈ rest.head?, inLine d = false := by
    intro d hd
    rw [hline d hd]
    rfl
  obtain rfl | rfl := hq
  · obtain ⟨w, rfl, hw⟩ := hl
    have hin : ∀ d ∈ '/' :: w, inLine d = true := inLine_iff.2 (by simpa using hw)
    refine ⟨'/', '/' :: w, rfl, ?_⟩
    rw [List.cons_append, piece_slashes, ← List.cons_append, run, takeWhile_append hin hstop,
      dropWhile_append hin hstop]
  · obtain ⟨w, rfl, hw⟩ := hl
    have hin := inLine_iff.2 hw
    refine ⟨'#', w, rfl, ?_⟩
    rw [piece_hash, run, takeWhile_append hin hstop, dropWhile_append hin hstop]

/-- **A gap leaves the tokens behind it as they are.** -/
theorem Gap.tokenizeFrom {g : List Char} (hg : Gap rest g)
    (h : tokenizeFrom (start + byteLength g) rest = .ok ts) :
    Lexer.tokenizeFrom start (g ++ rest) = .ok ts := by
  induction hg generalizing start with
  | nil => exact h
  | @blanks l g hl _ ih =>
    rw [List.append_assoc]
    refine tokenizeFrom_blanks (fun d hd => isBlank_iff.2 (hl.2 d hd)) (ih ?_)
    rwa [Nat.add_assoc, ← byteLength_append]
  | @comment q l g hq hl hline _ ih =>
    obtain ⟨c, w, rfl, hp⟩ := piece_comment hq hl hline
    rw [List.append_assoc, List.cons_append]
    refine tokenizeFrom_piece hp (show _ = Except.ok none from rfl) (ih ?_)
    rwa [Nat.add_assoc, ← byteLength_append]

end Gaps

/-! ## Lexemes -/

section Lexemes

variable {l rest : List Char} {t : Token} {c : Char}

/-- No character goes on with a lexeme that could. -/
theorem IsLexeme.stops {q : Pattern} {p : Char → Bool} (h : IsLexeme l rest)
    (hq : ∀ d, p d = true → q.Matches (l ++ [d])) : ∀ d ∈ rest.head?, p d = false := by
  intro d hd
  obtain ⟨rest', rfl⟩ := List.head?_eq_some_iff.1 hd
  rw [Bool.eq_false_iff]
  intro hpd
  have hlen := h.longest q (l ++ [d]) (by simp) (hq d hpd)
  simp at hlen

/-- A lexeme of one class is cut as a whole. -/
theorem IsLexeme.run {q : Pattern} {p : Char → Bool} {kind : Class} {w : List Char}
    (h : IsLexeme (c :: w) rest) (hw : ∀ d ∈ w, p d = true)
    (hq : ∀ d, p d = true → q.Matches (c :: w ++ [d])) :
    Lexer.run kind p c (w ++ rest) = (⟨kind, c :: w⟩, rest) := by
  have hstop := h.stops hq
  rw [Lexer.run, takeWhile_append hw hstop, dropWhile_append hw hstop]

theorem IsLexeme.word (h : IsLexeme l rest) (hl : Pattern.name.Matches l) :
    ∃ c w, l = c :: w ∧ piece c (w ++ rest) = (⟨.word, l⟩, rest) := by
  obtain ⟨c, w, rfl, hc, hw⟩ := hl
  refine ⟨c, w, rfl, ?_⟩
  rw [piece_letter (isLetter_iff.2 hc)]
  refine h.run (q := .name) (fun d hd => isWordChar_iff.2 (hw d hd)) fun d hd => ?_
  refine ⟨c, w ++ [d], rfl, hc, fun e he => ?_⟩
  rcases List.mem_append.1 he with he | he
  · exact hw e he
  · obtain rfl := List.mem_singleton.1 he
    exact isWordChar_iff.1 hd

theorem IsLexeme.int (h : IsLexeme l rest) (hl : Pattern.int.Matches l) :
    ∃ c w, l = c :: w ∧ piece c (w ++ rest) = (⟨.int, l⟩, rest) := by
  obtain ⟨hne, hall⟩ := hl
  obtain ⟨c, w, rfl⟩ := List.exists_cons_of_ne_nil hne
  refine ⟨c, w, rfl, ?_⟩
  rw [piece_digit (hall c (.head _))]
  refine h.run (q := .int) (fun d hd => hall d (.tail _ hd)) fun d hd => ⟨by simp, fun e he => ?_⟩
  rcases List.mem_append.1 he with he | he
  · exact hall e he
  · obtain rfl := List.mem_singleton.1 he
    exact hd

theorem IsLexeme.mark {m : Mark} (h : IsLexeme m.chars rest) :
    ∃ c w, m.chars = c :: w ∧ piece c (w ++ rest) = (⟨.mark m, m.chars⟩, rest) := by
  obtain ⟨c, w, hcw⟩ := List.exists_cons_of_ne_nil (chars_ne_nil m)
  have hpre : m.chars <+: c :: (w ++ rest) := ⟨rest, by rw [hcw]; rfl⟩
  -- a comment would be longer
  have hslash : m = .slash → (w ++ rest).head? ≠ some '/' := by
    rintro rfl hhead
    obtain ⟨rfl, rfl⟩ : '/' = c ∧ [] = w := by simpa [Mark.chars] using hcw
    obtain ⟨ds, rfl⟩ := List.head?_eq_some_iff.1 hhead
    have hlen := h.no_gap .slashes ['/', '/'] (.inr (.inl rfl)) ⟨ds, rfl⟩ ⟨[], rfl, by simp⟩
    exact absurd hlen (by decide)
  obtain ⟨m', hm'⟩ := exists_longest? hpre
  have hpre' := chars_prefix_of_longest? hm'
  have hle : m'.chars.length ≤ m.chars.length := by
    refine h.longest (.mark m') m'.chars ?_ rfl
    rwa [hcw]
  have hsame : m = m' :=
    chars_injective ((List.prefix_of_prefix_length_le hpre' hpre hle).eq_of_length
      (le_antisymm hle (length_chars_le_of_longest? hm' hpre))).symm
  refine ⟨c, w, hcw, ?_⟩
  rw [piece_mark hpre hslash, markPiece, hm', ← hsame, ← List.cons_append, ← hcw]
  simp

theorem ofSpelling?_spelling (w : Keyword) : Keyword.ofSpelling? w.spelling = some w := by
  cases w <;> rfl

/-- **The lexer cuts a lexeme as a whole, and makes the token of it that it denotes.** -/
theorem Denotes.piece (h : Denotes l t) (hl : IsLexeme l rest) :
    ∃ c w q, l = c :: w ∧ Lexer.piece c (w ++ rest) = (q, rest) ∧ q.text = l ∧
      q.token? = .ok (some t) := by
  cases h with
  | int h =>
    obtain ⟨c, w, hcw, hp⟩ := hl.int h
    refine ⟨c, w, _, hcw, hp, rfl, ?_⟩
    simp only [Piece.token?, decimal_eq]
    rfl
  | @str body h =>
    have hbody : Inside (· ≠ '\n') body := by
      refine h.mono fun c hc => ?_
      rintro rfl
      exact absurd hc (by decide)
    have hp : Lexer.piece '"' (body ++ ['"'] ++ rest) =
        (⟨.str body, '"' :: (body ++ ['"'])⟩, rest) := by
      rw [List.append_assoc, piece_quote]
      exact stringPiece_closed hbody
    refine ⟨'"', body ++ ['"'], _, rfl, hp, rfl, ?_⟩
    simp only [Piece.token?, hbody.badEscape?_eq_none_iff.2 h]
  | word h =>
    rename_i w
    obtain rfl : l = w.spelling.toList := h
    obtain ⟨c, ds, hcw, hp⟩ := hl.word (name_matches_keyword w)
    refine ⟨c, ds, _, hcw, hp, rfl, ?_⟩
    simp only [Piece.token?, String.ofList_toList, ofSpelling?_spelling]
  | ident h hw =>
    obtain ⟨c, ds, hcw, hp⟩ := hl.word h
    refine ⟨c, ds, _, hcw, hp, rfl, ?_⟩
    have hnone : Keyword.ofSpelling? (String.ofList l) = none := by
      rw [Option.eq_none_iff_forall_ne_some]
      intro w hsome
      refine hw w ?_
      show l = w.spelling.toList
      rw [ofSpelling?_eq_some hsome, String.toList_ofList]
    simp only [Piece.token?, hnone]
  | mark h =>
    rename_i m
    obtain rfl : l = m.chars := h
    obtain ⟨c, w, hcw, hp⟩ := hl.mark
    exact ⟨c, w, _, hcw, hp, rfl, rfl⟩

end Lexemes

/-! ## Splitting a text -/

/-- The tokens of a split text, and the warnings about them. -/
def Cut.tokens (start : Nat) (cuts : List Cut) : Tokens :=
  ⟨Cut.lexemes start cuts, Cut.warnings start cuts⟩

namespace Splits

variable {gap : List Char} {cuts : List Cut}

theorem first_gap (h : Splits gap cuts) : Gap (Cut.join cuts) gap := by
  cases h with
  | last hgap => exact hgap
  | cut hgap => exact hgap

theorem of_gap (h : Splits gap cuts) {g : List Char} (hg : Gap (Cut.join cuts) g) :
    Splits g cuts := by
  cases h with
  | last => exact .last hg
  | cut _ hlexeme htoken h => exact .cut hg hlexeme htoken h

/-- **A split text has the tokens of its lexemes.** -/
theorem tokenizeFrom (h : Splits gap cuts) (start : Nat) :
    Lexer.tokenizeFrom start (gap ++ Cut.join cuts) =
      .ok (Cut.tokens (start + byteLength gap) cuts) := by
  induction h generalizing start with
  | last hgap =>
    refine hgap.tokenizeFrom ?_
    simp [Lexer.tokenizeFrom, Cut.tokens, Cut.lexemes, Cut.warnings]
  | @cut gap x xs hgap hlexeme htoken _ ih =>
    obtain ⟨c, w, q, hcw, hp, htext, ht⟩ := htoken.piece hlexeme
    have hxs := ih (start + byteLength gap + byteLength q.text)
    refine hgap.tokenizeFrom ?_
    rw [Cut.join, hcw, List.cons_append, tokenizeFrom_piece hp ht hxs]
    simp only [Tokens.cons, tooLarge_eq ht, htext, hcw, Cut.tokens, Cut.lexemes, Cut.warnings]

/-- The spans of lexemes are not empty, and they stand in the text one behind the other. -/
theorem spans (h : Splits gap cuts) (start : Nat) :
    (∀ x ∈ Cut.lexemes start cuts, start ≤ x.span.start ∧ x.span.start < x.span.stop ∧
      x.span.stop ≤ start + byteLength (Cut.join cuts)) ∧
    (Cut.lexemes start cuts).Pairwise fun x y => x.span.stop ≤ y.span.start := by
  induction h generalizing start with
  | last => exact ⟨nofun, .nil⟩
  | @cut gap x xs hgap hlexeme htoken _ ih =>
    obtain ⟨hin, hpair⟩ := ih (start + byteLength x.text + byteLength x.gap)
    have hpos : 0 < byteLength x.text := by
      obtain ⟨c, w, _, hcw, -⟩ := htoken.piece hlexeme
      rw [hcw, byteLength_cons]
      have := c.utf8Size_pos
      omega
    rw [Cut.lexemes, Cut.join, byteLength_append, byteLength_append]
    refine ⟨fun y hy => ?_, List.pairwise_cons.2 ⟨fun y hy => ?_, hpair⟩⟩
    · rcases List.mem_cons.1 hy with rfl | hy
      · simp only
        omega
      · have := hin y hy
        omega
    · have := hin y hy
      simp only
      omega

end Splits

/-- **The tokens of a text come from a split of it.** -/
theorem splits_of_tokenizeFrom {start : Nat} {cs : List Char} {ts : Tokens}
    (h : tokenizeFrom start cs = .ok ts) :
    ∃ gap cuts, cs = gap ++ Cut.join cuts ∧ Splits gap cuts ∧
      ts = Cut.tokens (start + byteLength gap) cuts := by
  fun_induction tokenizeFrom start cs generalizing ts with
  | case1 start =>
    obtain rfl := Except.ok.inj h
    exact ⟨[], [], rfl, .last .nil, rfl⟩
  | case2 => cases h
  | case3 => cases h
  | case4 start c cs cut span t? ht us =>
    rename_i hus ih
    obtain rfl := Except.ok.inj h
    obtain ⟨gap, cuts, hrest, hsplit, rfl⟩ := ih hus
    have happend := piece_append c cs
    cases t? with
    | none =>
      have hlarge : cut.1.tooLarge = false := by
        rw [Piece.tooLarge, kind_of_token?_eq_none ht]
      refine ⟨cut.1.text ++ gap, cuts, ?_, hsplit.of_gap ?_, ?_⟩
      · rw [← happend, List.append_assoc, ← hrest]
      · exact hsplit.first_gap.of_piece ht hrest
      · simp [Tokens.cons, hlarge, Cut.tokens, span, Nat.add_assoc]
    | some t =>
      have hlexeme : IsLexeme cut.1.text (gap ++ Cut.join cuts) := hrest ▸ isLexeme_piece ht
      refine ⟨[], ⟨cut.1.text, t, gap⟩ :: cuts, ?_, .cut .nil hlexeme (denotes_piece ht) hsplit, ?_⟩
      · rw [← happend, Cut.join, ← hrest]
        rfl
      · simp only [Tokens.cons, tooLarge_eq ht, Cut.tokens, Cut.lexemes, Cut.warnings, span,
          byteLength_nil, Nat.add_zero]

end Lexer

open Lexer in
/-- **A text has tokens exactly if it splits into lexemes**, each the longest match of any pattern
where it stands, with blanks and comments between them. The tokens and their spans are those of the
lexemes, and each integer literal above the greatest value has its warning. The spans are not empty,
stand in the text, and follow each other. -/
theorem tokenize_longest (source : String) (ts : Tokens) :
    (tokenize source = .ok ts ↔ ∃ gap cuts, source.toList = gap ++ Cut.join cuts ∧
      Splits gap cuts ∧ ts = Cut.tokens (byteLength gap) cuts) ∧
    (tokenize source = .ok ts →
      (∀ x ∈ ts.lexemes, x.span.start < x.span.stop ∧
        x.span.stop ≤ byteLength source.toList) ∧
      ts.lexemes.Pairwise fun x y => x.span.stop ≤ y.span.start) := by
  have hsplit : tokenize source = .ok ts → ∃ gap cuts, source.toList = gap ++ Cut.join cuts ∧
      Splits gap cuts ∧ ts = Cut.tokens (byteLength gap) cuts := by
    intro h
    simpa only [Nat.zero_add] using splits_of_tokenizeFrom h
  refine ⟨⟨hsplit, ?_⟩, fun h => ?_⟩
  · rintro ⟨gap, cuts, htext, hsplits, rfl⟩
    rw [tokenize, htext, hsplits.tokenizeFrom 0, Nat.zero_add]
  · obtain ⟨gap, cuts, htext, hsplits, rfl⟩ := hsplit h
    obtain ⟨hin, hpair⟩ := hsplits.spans (byteLength gap)
    refine ⟨fun x hx => ⟨(hin x hx).2.1, ?_⟩, hpair⟩
    rw [htext, byteLength_append]
    exact (hin x hx).2.2

example : (tokenize "a<<=1//<<").toOption.map (·.lexemes.map Lexeme.token) =
    some [.ident "a", .mark .shiftLeft, .mark .equal, .int 1] := by
  cbv

end FlatC
