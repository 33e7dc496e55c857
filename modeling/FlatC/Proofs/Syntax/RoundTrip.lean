import FlatC.Proofs.Syntax.Complete
import FlatC.Proofs.Syntax.Lexing
import FlatC.Proofs.Syntax.Reprint
import FlatC.Tree.Printer

/-!
# Printing and reading back

The text of a program is cut into the printed tokens of the program
(`Program.print_lexes`), and these spell the program. So a program that was read from
a text is read again, with the same node ids, from the text that it is printed as.
-/

namespace FlatC

open Lexer Grammar

variable {cs : List Char} {ts : List Token}

/-! ## Expressions -/

theorem Place.print_lexes (p : Place) (hw : Every Token.Wf p.tokens) (ha : Apart cs)
    (h : Lexes cs ts) : Lexes ((p.print Ident.name).toList ++ cs) (p.tokens ++ ts) := by
  induction p generalizing cs ts with
  | var node name =>
    have hname : (Token.ident name.name).Wf := by simpa [Place.tokens] using hw
    exact .ident hname ha h
  | field node base name ih =>
    simp only [Place.tokens, every_append, every_cons] at hw
    have hname : Lexes (name.name.toList ++ cs) (.ident name.name :: ts) := .ident hw.2.2.1 ha h
    have := ih hw.1 (apart_cons rfl) hname.dot
    simpa [Place.print, Place.tokens] using this

/-- A sign and the operand behind it do not run together. -/
def Opens (cs : List Char) : Prop := ∃ c r, cs = c :: r ∧ c ≠ '-' ∧ c ≠ '='

theorem opens_word {x : String} (hx : IsWord x) : Opens (x.toList ++ cs) := by
  obtain ⟨c, w, hcw, hc, -⟩ := hx
  refine ⟨c, w ++ cs, by rw [hcw]; rfl, ?_, ?_⟩
  · rintro rfl; exact absurd hc (by decide)
  · rintro rfl; exact absurd hc (by decide)

theorem Place.opens (p : Place) (hw : Every Token.Wf p.tokens) :
    Opens ((p.print Ident.name).toList ++ cs) := by
  induction p generalizing cs with
  | var node name =>
    have : (Token.ident name.name).Wf := by simpa [Place.tokens] using hw
    exact opens_word this.1
  | field node base name ih =>
    simp only [Place.tokens, every_append] at hw
    simp only [Place.print, String.toList_append, List.append_assoc]
    exact ih hw.1

theorem Expr.opens (e : Expr) (hw : Every Token.Wf e.tokens) :
    Opens ((e.print Ident.name).toList ++ cs) := by
  cases e with
  | int node v =>
    obtain ⟨n, rfl, -⟩ : (Token.int v).Wf := by simpa [Expr.tokens] using hw
    have hdigits : (toString (n : Int)).toList = Nat.toDigits 10 n := Nat.toList_repr
    obtain ⟨c, w, hcw⟩ := List.exists_cons_of_ne_nil (Nat.toDigits_ne_nil (n := n) (b := 10))
    have hc : c.isDigit = true :=
      Nat.isDigit_of_mem_toDigits (by decide) (by decide) (hcw ▸ List.mem_cons_self)
    refine ⟨c, w ++ cs, by rw [Expr.print, hdigits, hcw]; rfl, ?_, ?_⟩
    · rintro rfl; exact absurd hc (by decide)
    · rintro rfl; exact absurd hc (by decide)
  | bool node v =>
    cases v
    · exact opens_word (isWord_keyword .falseWord)
    · exact opens_word (isWord_keyword .trueWord)
  | place p => exact p.opens hw
  | call node callee args =>
    have hc : (Token.ident callee.name).Wf := by
      simp only [Expr.tokens, every_cons] at hw
      exact hw.1
    simp only [Expr.print, String.toList_append, List.append_assoc]
    exact opens_word hc.1
  | str | assign | unary | binary => simp [Opens, Expr.print]

theorem Lexer.Lexes.sign (op : UnaryOp) (hcs : Opens cs) (h : Lexes cs ts) :
    Lexes (op.spelling.toList ++ cs) (.mark op.mark :: ts) := by
  obtain ⟨c, r, rfl, hminus, hequal⟩ := hcs
  cases op with
  | negate =>
    refine .mark .minus ?_ (by simp) h
    have : ('-' == c) = false := beq_false_of_ne hminus.symm
    simp [Mark.longest?, Mark.all, Mark.chars, List.isPrefixOf, this]
  | not =>
    refine .mark .bang ?_ (by simp) h
    have : ('=' == c) = false := beq_false_of_ne hequal.symm
    simp [Mark.longest?, Mark.all, Mark.chars, List.isPrefixOf, this]

theorem BinaryOp.mark_chars (op : BinaryOp) : op.spelling.toList = op.mark.chars := by
  obtain ⟨_ | _⟩ | ⟨_ | _⟩ | ⟨_ | _⟩ | ⟨_ | _⟩ := op <;> rfl

-- The text is followed from its end to its front, as `Lexes` is built.
mutual

theorem Expr.print_lexes : ∀ (e : Expr) {cs : List Char} {ts : List Token},
    Every Token.Wf e.tokens → Apart cs → Lexes cs ts →
      Lexes ((e.print Ident.name).toList ++ cs) (e.tokens ++ ts)
  | .int _ v, cs, ts, hw, ha, h => by
    obtain ⟨n, rfl, hn⟩ : (Token.int v).Wf := by simpa [Expr.tokens] using hw
    exact .number hn ha h
  | .str _ x, cs, ts, hw, ha, h => by
    have hx : (Token.str x).Wf := by simpa [Expr.tokens] using hw
    have := Lexes.string hx.1 hx.2 h
    simpa [Expr.print, Expr.tokens] using this
  | .bool _ v, cs, ts, hw, ha, h => by
    cases v
    · exact .keyword .falseWord ha h
    · exact .keyword .trueWord ha h
  | .place p, cs, ts, hw, ha, h => p.print_lexes hw ha h
  | .assign _ target value, cs, ts, hw, ha, h => by
    simp only [Expr.tokens, every_cons, every_append] at hw
    have hv := value.print_lexes hw.2.1.2.2 (apart_cons rfl) h.rightParen
    have ht := target.print_lexes hw.2.1.1 (apart_cons rfl) (hv.markSpace .equal).space
    simpa [Expr.print, Expr.tokens, Mark.chars] using ht.leftParen
  | .call _ callee args, cs, ts, hw, ha, h => by
    simp only [Expr.tokens, every_cons, every_append] at hw
    have hargs := Expr.printArgs_lexes args hw.2.2.1 (apart_cons rfl) h.rightParen
    have := Lexes.ident hw.1 (apart_cons rfl) hargs.leftParen
    simpa [Expr.print, Expr.tokens] using this
  | .unary _ op operand, cs, ts, hw, ha, h => by
    simp only [Expr.tokens, every_cons, every_append] at hw
    have he := operand.print_lexes hw.2.1.2 (apart_cons rfl) h.rightParen
    have := Lexes.sign op (operand.opens hw.2.1.2) he
    simpa [Expr.print, Expr.tokens] using this.leftParen
  | .binary _ op left right, cs, ts, hw, ha, h => by
    simp only [Expr.tokens, every_cons, every_append] at hw
    have hr := right.print_lexes hw.2.1.2.2 (apart_cons rfl) h.rightParen
    have hop := hr.markSpace op.mark
    rw [← op.mark_chars] at hop
    have hl := left.print_lexes hw.2.1.1 (apart_cons rfl) hop.space
    simpa [Expr.print, Expr.tokens] using hl.leftParen

theorem Expr.printArgs_lexes : ∀ (es : List Expr) {cs : List Char} {ts : List Token},
    Every Token.Wf (Expr.argTokens es) → Apart cs → Lexes cs ts →
      Lexes ((Expr.printArgs Ident.name es).toList ++ cs) (Expr.argTokens es ++ ts)
  | [], cs, ts, hw, ha, h => h
  | [e], cs, ts, hw, ha, h => by
    simp only [Expr.argTokens, Expr.moreTokens, List.append_nil] at hw ⊢
    exact e.print_lexes hw ha h
  | e :: e' :: es, cs, ts, hw, ha, h => by
    have hmore : Expr.moreTokens (e' :: es) = .mark .comma :: Expr.argTokens (e' :: es) := by
      simp [Expr.moreTokens, Expr.argTokens]
    rw [Expr.argTokens, hmore] at hw ⊢
    simp only [every_cons, every_append] at hw
    have hs := Expr.printArgs_lexes (e' :: es) hw.2.2 ha h
    have := e.print_lexes hw.1 (apart_cons rfl) hs.space.comma
    simpa [Expr.printArgs] using this

end

/-! ## Declarations and statements -/

theorem Scalar.text_eq (s : Scalar) : s.text = s.keyword.spelling := by cases s <;> rfl

theorem Lexer.Lexes.indent (n : Nat) (h : Lexes cs ts) : Lexes ((indent n).toList ++ cs) ts := by
  simp only [FlatC.indent, String.toList_ofList]
  induction 4 * n with
  | zero => exact h
  | succ k ih => exact ih.space

theorem VarDecl.print_lexes (d : VarDecl) (hw : Every Token.Wf d.tokens) (h : Lexes cs ts) :
    Lexes ((d.print Ident.name).toList ++ cs) (d.tokens ++ ts) := by
  obtain ⟨type, name, span⟩ := d
  simp only [VarDecl.tokens, every_append, every_cons] at hw
  have hname := Lexes.ident hw.2.1 (apart_cons rfl) h.semicolon
  cases type with
  | scalar s =>
    have := Lexes.keyword s.keyword (apart_cons rfl) hname.space
    simpa [VarDecl.print, TypeSpec.print, VarDecl.tokens, TypeSpec.tokens, s.text_eq] using this
  | struct i =>
    simp only [TypeSpec.tokens, every_cons] at hw
    have hs := Lexes.ident hw.1.2.1 (apart_cons rfl) hname.space
    have := Lexes.keyword .struct (apart_cons rfl) hs.space
    simpa [VarDecl.print, TypeSpec.print, VarDecl.tokens, TypeSpec.tokens, Keyword.spelling] using this

theorem VarDecl.printLines_lexes (n : Nat) (ds : List VarDecl)
    (hw : Every Token.Wf (ds.flatMap VarDecl.tokens)) (h : Lexes cs ts) :
    Lexes ((VarDecl.printLines Ident.name n ds).toList ++ cs)
      (ds.flatMap VarDecl.tokens ++ ts) := by
  induction ds with
  | nil => exact h
  | cons d ds ih =>
    simp only [List.flatMap_cons, every_append] at hw
    have := (d.print_lexes hw.1 (ih hw.2).newline).indent n
    simpa [VarDecl.printLines] using this

/-- A word with a condition in parentheses behind it. -/
theorem Lexer.Lexes.condition (w : Keyword) (e : Expr) (hw : Every Token.Wf e.tokens)
    (h : Lexes cs ts) :
    Lexes (w.spelling.toList ++ ' ' :: '(' :: ((e.print Ident.name).toList ++ ')' :: ' ' :: cs))
      (.word w :: .mark .leftParen :: (e.tokens ++ .mark .rightParen :: ts)) :=
  .keyword w (apart_cons rfl)
    (e.print_lexes hw (apart_cons rfl) h.space.rightParen).leftParen.space

mutual

theorem Stmt.print_lexes (n : Nat) : ∀ (s : Stmt) {cs : List Char} {ts : List Token},
    Every Token.Wf s.tokens → Lexes cs ts →
      Lexes ((s.print Ident.name n).toList ++ cs) (s.tokens ++ ts)
  | .assign _ _ target value, cs, ts, hw, h => by
    simp only [Stmt.tokens, every_cons, every_append] at hw
    have hv := value.print_lexes hw.2.2.1 (apart_cons rfl) h.newline.semicolon
    have ht := target.print_lexes hw.1 (apart_cons rfl) (hv.markSpace .equal).space
    simpa [Stmt.print, Stmt.tokens, Mark.chars] using ht.indent n
  | .increment _ target, cs, ts, hw, h => by
    simp only [Stmt.tokens, every_append] at hw
    have hm := Lexes.mark .plusPlus rfl (by simp) h.newline.semicolon
    have ht := target.print_lexes hw.1 (apart_cons rfl) hm
    simpa [Stmt.print, Stmt.tokens, Mark.chars] using ht.indent n
  | .decrement _ target, cs, ts, hw, h => by
    simp only [Stmt.tokens, every_append] at hw
    have hm := Lexes.mark .minusMinus rfl (by simp) h.newline.semicolon
    have ht := target.print_lexes hw.1 (apart_cons rfl) hm
    simpa [Stmt.print, Stmt.tokens, Mark.chars] using ht.indent n
  | .read _ target, cs, ts, hw, h => by
    simp only [Stmt.tokens, every_cons, every_append] at hw
    have ht := target.print_lexes hw.2.2.1 (apart_cons rfl) h.newline.semicolon
    have := Lexes.keyword .cin (apart_cons rfl) (ht.markSpace .shiftRight).space
    simpa [Stmt.print, Stmt.tokens, Keyword.spelling, Mark.chars] using this.indent n
  | .write _ value, cs, ts, hw, h => by
    simp only [Stmt.tokens, every_cons, every_append] at hw
    have hv := value.print_lexes hw.2.2.1 (apart_cons rfl) h.newline.semicolon
    have := Lexes.keyword .cout (apart_cons rfl) (hv.markSpace .shiftLeft).space
    simpa [Stmt.print, Stmt.tokens, Keyword.spelling, Mark.chars] using this.indent n
  | .ifThen _ cond body, cs, ts, hw, h => by
    simp only [Stmt.tokens, every_cons, every_append] at hw
    have hb := body.print_lexes (n + 1) n hw.2.2.2.2 h.newline
    have := Lexes.condition .ifWord cond hw.2.2.1 hb
    simpa [Stmt.print, Stmt.tokens, Keyword.spelling] using this.indent n
  | .ifElse _ cond thenBody elseBody, cs, ts, hw, h => by
    simp only [Stmt.tokens, every_cons, every_append] at hw
    have he := elseBody.print_lexes (n + 1) n hw.2.2.2.2.2.2 h.newline
    have hk := (Lexes.keyword .elseWord (apart_cons rfl) he.space).indent n
    have ht := thenBody.print_lexes (n + 1) n hw.2.2.2.2.1 hk.newline
    have := Lexes.condition .ifWord cond hw.2.2.1 ht
    simpa [Stmt.print, Stmt.tokens, Keyword.spelling] using this.indent n
  | .whileLoop _ cond body, cs, ts, hw, h => by
    simp only [Stmt.tokens, every_cons, every_append] at hw
    have hb := body.print_lexes (n + 1) n hw.2.2.2.2 h.newline
    have := Lexes.condition .whileWord cond hw.2.2.1 hb
    simpa [Stmt.print, Stmt.tokens, Keyword.spelling] using this.indent n
  | .call _ node callee args, cs, ts, hw, h => by
    have hw' : Every Token.Wf (Expr.call node callee args).tokens := by
      simp only [Stmt.tokens, every_cons, every_append] at hw
      simp only [Expr.tokens, every_cons, every_append]
      exact ⟨hw.1, hw.2.1, hw.2.2.1, hw.2.2.2.1, every_nil⟩
    have := Expr.print_lexes (.call node callee args) hw' (apart_cons rfl) h.newline.semicolon
    simpa [Stmt.print, Stmt.tokens, Expr.tokens] using this.indent n
  | .ret _ none, cs, ts, hw, h => by
    have := Lexes.keyword .returnWord (apart_cons rfl) h.newline.semicolon
    simpa [Stmt.print, Stmt.tokens, Keyword.spelling] using this.indent n
  | .ret _ (some value), cs, ts, hw, h => by
    simp only [Stmt.tokens, every_cons, every_append] at hw
    have hv := value.print_lexes hw.2.1 (apart_cons rfl) h.newline.semicolon
    have := Lexes.keyword .returnWord (apart_cons rfl) hv.space
    simpa [Stmt.print, Stmt.tokens, Keyword.spelling] using this.indent n

/-- The lines of a block in its braces; the closing one stands at depth `k`. -/
theorem Body.print_lexes (n k : Nat) : ∀ (b : Body) {cs : List Char} {ts : List Token},
    Every Token.Wf b.tokens → Lexes cs ts →
      Lexes ('\x7b' :: '\n' :: ((b.print Ident.name n).toList ++ ((indent k).toList ++ '\x7d' :: cs)))
        (b.tokens ++ ts)
  | .block decls stmts, cs, ts, hw, h => by
    simp only [Body.tokens, every_cons, every_append] at hw
    have hs := Stmt.printAll_lexes n stmts hw.2.1.2 (h.rightBrace.indent k)
    have hd := VarDecl.printLines_lexes n decls hw.2.1.1 hs
    simpa [Body.print, Body.tokens] using hd.newline.leftBrace

theorem Stmt.printAll_lexes (n : Nat) : ∀ (ss : List Stmt) {cs : List Char} {ts : List Token},
    Every Token.Wf (Stmt.allTokens ss) → Lexes cs ts →
      Lexes ((Stmt.printAll Ident.name n ss).toList ++ cs) (Stmt.allTokens ss ++ ts)
  | [], cs, ts, hw, h => h
  | s :: ss, cs, ts, hw, h => by
    simp only [Stmt.allTokens, every_append] at hw
    have hs := Stmt.printAll_lexes n ss hw.2 h
    simpa [Stmt.printAll, Stmt.allTokens] using s.print_lexes n hw.1 hs

end

/-! ## Programs -/

theorem Param.print_lexes (p : Param) (hw : Every Token.Wf p.tokens) (ha : Apart cs)
    (h : Lexes cs ts) : Lexes ((p.print Ident.name).toList ++ cs) (p.tokens ++ ts) := by
  simp only [Param.tokens, every_cons] at hw
  have hname := Lexes.ident hw.2.1 ha h
  have := Lexes.keyword p.type.keyword (apart_cons rfl) hname.space
  simpa [Param.print, Param.tokens, p.type.text_eq] using this

theorem Param.printAll_lexes (ps : List Param) (hw : Every Token.Wf (Param.allTokens ps))
    (ha : Apart cs) (h : Lexes cs ts) :
    Lexes ((", ".intercalate (ps.map (Param.print Ident.name))).toList ++ cs)
      (Param.allTokens ps ++ ts) := by
  induction ps with
  | nil => exact h
  | cons p ps ih =>
    cases ps with
    | nil =>
      simp only [Param.allTokens, List.flatMap_nil, List.append_nil] at hw ⊢
      exact p.print_lexes hw ha h
    | cons q qs =>
      have hmore : (q :: qs).flatMap (Token.mark .comma :: ·.tokens) =
          .mark .comma :: Param.allTokens (q :: qs) := by
        simp [Param.allTokens]
      rw [Param.allTokens, hmore] at hw ⊢
      simp only [every_cons, every_append] at hw
      have := p.print_lexes hw.1 (apart_cons rfl) (ih hw.2.2).space.comma
      simpa [String.intercalate_cons_cons] using this

theorem Decl.print_lexes (d : Decl) (hw : Every Token.Wf d.tokens) (h : Lexes cs ts) :
    Lexes ((d.print Ident.name).toList ++ cs) (d.tokens ++ ts) := by
  cases d with
  | var d => simpa [Decl.print, Decl.tokens] using d.print_lexes hw h.newline
  | struct d =>
    simp only [Decl.tokens, every_cons, every_append] at hw
    have hf := VarDecl.printLines_lexes 1 d.fields hw.2.2.2.1 h.newline.semicolon.rightBrace
    have hn := Lexes.ident hw.2.1 (apart_cons rfl) hf.newline.leftBrace.space
    have := Lexes.keyword .struct (apart_cons rfl) hn.space
    simpa [Decl.print, StructDecl.print, Decl.tokens, Keyword.spelling] using this
  | fn d =>
    simp only [Decl.tokens, every_cons, every_append] at hw
    have hb := d.body.print_lexes 1 0 hw.2.2.2.2.2 h.newline
    have hp := Param.printAll_lexes d.params hw.2.2.2.1 (apart_cons rfl) hb.space.rightParen
    have hn := Lexes.ident hw.2.1 (apart_cons rfl) hp.leftParen
    have := Lexes.keyword d.returns.keyword (apart_cons rfl) hn.space
    simpa [Decl.print, FnDecl.print, Decl.tokens, d.returns.text_eq, indent] using this

theorem Decl.gap_lexes (d : Decl) (h : Lexes cs ts) : Lexes (d.gap.toList ++ cs) ts := by
  cases d with
  | var => exact h
  | struct | fn => simpa [Decl.gap] using h.newline

/-- **The text of a program is cut into the printed tokens of the program.** -/
theorem Program.print_lexes (p : Program) (hw : Every Token.Wf p.tokens) :
    Lexes (p.print Ident.name).toList p.tokens := by
  have hrest : ∀ ds : List Decl, Every Token.Wf (ds.flatMap Decl.tokens) →
      Lexes (String.join (ds.map fun d => d.gap ++ d.print Ident.name)).toList
        (ds.flatMap Decl.tokens) := by
    intro ds hds
    induction ds with
    | nil => exact .nil
    | cons d ds ih =>
      simp only [List.flatMap_cons, every_append] at hds
      have := d.gap_lexes (d.print_lexes hds.1 (ih hds.2))
      simpa using this
  obtain ⟨ds, n⟩ := p
  cases ds with
  | nil => exact .nil
  | cons d ds =>
    simp only [Program.tokens, List.flatMap_cons, every_append] at hw ⊢
    have := d.print_lexes hw.1 (hrest ds hw.2)
    simpa [Program.print] using this

/-! ## The text of a tree is that of its shape -/

@[simp] theorem Ident.name_shape (i : Ident) : i.shape.name = i.name := rfl

theorem TypeSpec.print_shape (t : TypeSpec) : t.shape.print Ident.name = t.print Ident.name := by
  cases t <;> rfl

theorem Place.print_shape (p : Place) : p.shape.print Ident.name = p.print Ident.name := by
  induction p with
  | var => rfl
  | field _ _ _ ih => simp [Place.shape, Place.print, ih]

mutual

theorem Expr.print_shape : ∀ e : Expr, e.shape.print Ident.name = e.print Ident.name
  | .int .. | .str .. | .bool .. => rfl
  | .place p => by simp [Expr.shape, Expr.print, p.print_shape]
  | .assign _ target value => by
    simp [Expr.shape, Expr.print, target.print_shape, value.print_shape]
  | .call _ callee args => by simp [Expr.shape, Expr.print, Expr.printArgs_shape args]
  | .unary _ op operand => by simp [Expr.shape, Expr.print, operand.print_shape]
  | .binary _ op left right => by
    simp [Expr.shape, Expr.print, left.print_shape, right.print_shape]

theorem Expr.printArgs_shape :
    ∀ es : List Expr, Expr.printArgs Ident.name (Expr.shapes es) = Expr.printArgs Ident.name es
  | [] => rfl
  | [e] => by simp [Expr.shapes, Expr.printArgs, e.print_shape]
  | e :: e' :: es => by
    have := Expr.printArgs_shape (e' :: es)
    simp only [Expr.shapes] at this
    simp [Expr.shapes, Expr.printArgs, e.print_shape, this]

end

theorem VarDecl.print_shape (d : VarDecl) : d.shape.print Ident.name = d.print Ident.name := by
  simp [VarDecl.shape, VarDecl.print, TypeSpec.print_shape]

theorem VarDecl.printLines_shape (n : Nat) (ds : List VarDecl) :
    VarDecl.printLines Ident.name n (ds.map VarDecl.shape) =
      VarDecl.printLines Ident.name n ds := by
  simp [VarDecl.printLines, Function.comp_def, VarDecl.print_shape]

mutual

theorem Stmt.print_shape (n : Nat) :
    ∀ s : Stmt, s.shape.print Ident.name n = s.print Ident.name n
  | .assign _ _ target value => by
    simp [Stmt.shape, Stmt.print, target.print_shape, value.print_shape]
  | .increment _ target | .decrement _ target | .read _ target => by
    simp [Stmt.shape, Stmt.print, target.print_shape]
  | .write _ value | .ret _ (some value) => by simp [Stmt.shape, Stmt.print, value.print_shape]
  | .ifThen _ cond body | .whileLoop _ cond body => by
    simp [Stmt.shape, Stmt.print, cond.print_shape, body.print_shape]
  | .ifElse _ cond thenBody elseBody => by
    simp [Stmt.shape, Stmt.print, cond.print_shape, thenBody.print_shape, elseBody.print_shape]
  | .call _ node callee args => by
    simp [Stmt.shape, Stmt.print, Expr.print, Expr.printArgs_shape args]
  | .ret _ none => rfl

theorem Body.print_shape (n : Nat) :
    ∀ b : Body, b.shape.print Ident.name n = b.print Ident.name n
  | .block decls stmts => by
    simp [Body.shape, Body.print, VarDecl.printLines_shape, Stmt.printAll_shape n stmts]

theorem Stmt.printAll_shape (n : Nat) : ∀ ss : List Stmt,
    Stmt.printAll Ident.name n (Stmt.shapes ss) = Stmt.printAll Ident.name n ss
  | [] => rfl
  | s :: ss => by
    simp [Stmt.shapes, Stmt.printAll, s.print_shape n, Stmt.printAll_shape n ss]

end

theorem Param.print_shape (p : Param) : p.shape.print Ident.name = p.print Ident.name := rfl

theorem Decl.print_shape (d : Decl) : d.shape.print Ident.name = d.print Ident.name := by
  cases d with
  | var d => simp [Decl.shape, Decl.print, VarDecl.print_shape]
  | struct d =>
    simp [Decl.shape, StructDecl.shape, Decl.print, StructDecl.print, VarDecl.printLines_shape]
  | fn d =>
    simp [Decl.shape, FnDecl.shape, Decl.print, FnDecl.print, Body.print_shape, Function.comp_def,
      Param.print_shape]

theorem Program.print_shape (p : Program) : p.shape.print Ident.name = p.print Ident.name := by
  have hgap : ∀ d : Decl, d.shape.gap = d.gap := fun d => by cases d <;> rfl
  obtain ⟨ds, n⟩ := p
  cases ds with
  | nil => rfl
  | cons d ds => simp [Program.shape, Program.print, Function.comp_def, hgap, Decl.print_shape]

/-- **A program that was read is read again from its text**, without a warning: names, literals,
node ids and their number are the same, and so is the text of what was read. -/
theorem print_reads_back {source : String} {ts : Lexer.Tokens} {p : Program}
    (hlex : tokenize source = .ok ts) (hparse : parse ts.lexemes = .ok p) :
    ∃ us q, tokenize (p.print Ident.name) = .ok us ∧ us.warnings = [] ∧
      parse us.lexemes = .ok q ∧ q.shape = p.shape ∧
      q.print Ident.name = p.print Ident.name := by
  have hread := parse_sound hparse
  have hwf : Every Token.Wf (ts.lexemes.map Lexeme.token) := by
    intro t ht
    obtain ⟨l, hl, rfl⟩ := List.mem_map.1 ht
    exact tokenize_wf hlex l hl
  have hwfp : Every Token.Wf p.tokens :=
    hread.spelled (fun _ => trivial) (fun _ => trivial) hwf
  obtain ⟨us, hus, htokens, hwarn⟩ := (p.print_lexes hwfp).tokenize
  have hagain : ReadsProgram (us.lexemes.map Lexeme.token) p := htokens ▸ hread.reprint
  obtain ⟨q, hq, hshape⟩ := parse_complete hagain
  refine ⟨us, q, hus, hwarn, hq, hshape, ?_⟩
  rw [← q.print_shape, hshape, p.print_shape]

/-- A text that was seen to be read. -/
theorem exists_of_read (source : String)
    (h : ((tokenize source).toOption.any fun ts => (parse ts.lexemes).toOption.isSome) = true) :
    ∃ ts p, tokenize source = .ok ts ∧ parse ts.lexemes = .ok p := by
  cases hts : tokenize source with
  | error e => simp [hts, Except.toOption] at h
  | ok ts =>
    cases hp : parse ts.lexemes with
    | error e => simp [hts, hp, Except.toOption] at h
    | ok p => exact ⟨ts, p, rfl, hp⟩

/-- Signs behind signs, an assignment in a condition and an escaped quote. -/
theorem print_reads_back_nested :
    ∃ ts p,
      tokenize "bool f(int n) \x7b if ((n = - -n) < 3 && !g(n, \"\\\"\")) \x7b\x7d \x7d" = .ok ts ∧
      parse ts.lexemes = .ok p ∧
      ∃ us q, tokenize (p.print Ident.name) = .ok us ∧ us.warnings = [] ∧
        parse us.lexemes = .ok q ∧ q.shape = p.shape ∧
        q.print Ident.name = p.print Ident.name := by
  obtain ⟨ts, p, hts, hp⟩ := exists_of_read
    "bool f(int n) \x7b if ((n = - -n) < 3 && !g(n, \"\\\"\")) \x7b\x7d \x7d" (by decide +kernel)
  exact ⟨ts, p, hts, hp, print_reads_back hts hp⟩

end FlatC
