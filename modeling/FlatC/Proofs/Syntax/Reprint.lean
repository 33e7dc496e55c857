import FlatC.Proofs.Syntax.Grammar

/-!
# The tokens of a tree

`Program.tokens` lists the tokens that stand in the printed form of a program: every
operation and every assignment inside an expression is in parentheses. Whatever
tokens a tree was read from, these spell the same tree with the same node ids
(`ReadsProgram.reprint`), and they hold no literal or name that was not there
(`ReadsProgram.spelled`).
-/

namespace FlatC

def UnaryOp.mark : UnaryOp → Mark
  | .negate => .minus
  | .not => .bang

def BinaryOp.mark : BinaryOp → Mark
  | arith .add => .plus
  | arith .sub => .minus
  | arith .mul => .star
  | arith .div => .slash
  | equality .equal => .equalEqual
  | equality .notEqual => .bangEqual
  | order .less => .less
  | order .greater => .greater
  | order .lessEqual => .lessEqual
  | order .greaterEqual => .greaterEqual
  | logical .and => .andAnd
  | logical .or => .orOr

def Scalar.keyword : Scalar → Keyword
  | .int => .int
  | .bool => .bool
  | .void => .void

def TypeSpec.tokens : TypeSpec → List Token
  | .scalar s => [.word s.keyword]
  | .struct name => [.word .struct, .ident name.name]

def Place.tokens : Place → List Token
  | .var _ name => [.ident name.name]
  | .field _ base name => base.tokens ++ [.mark .dot, .ident name.name]

mutual

def Expr.tokens : Expr → List Token
  | .int _ value => [.int value]
  | .str _ text => [.str text]
  | .bool _ value => [.word (if value then .trueWord else .falseWord)]
  | .place p => p.tokens
  | .assign _ target value =>
    .mark .leftParen :: (target.tokens ++ .mark .equal :: value.tokens ++ [.mark .rightParen])
  | .call _ callee args =>
    .ident callee.name :: .mark .leftParen :: (Expr.argTokens args ++ [.mark .rightParen])
  | .unary _ op operand =>
    .mark .leftParen :: (.mark op.mark :: operand.tokens ++ [.mark .rightParen])
  | .binary _ op left right =>
    .mark .leftParen :: (left.tokens ++ .mark op.mark :: right.tokens ++ [.mark .rightParen])

def Expr.argTokens : List Expr → List Token
  | [] => []
  | e :: es => e.tokens ++ Expr.moreTokens es

/-- The tokens of arguments that each stand behind a comma. -/
def Expr.moreTokens : List Expr → List Token
  | [] => []
  | e :: es => .mark .comma :: (e.tokens ++ Expr.moreTokens es)

end

def VarDecl.tokens (d : VarDecl) : List Token :=
  d.type.tokens ++ [.ident d.name.name, .mark .semicolon]

def Param.tokens (p : Param) : List Token := [.word p.type.keyword, .ident p.name.name]

mutual

def Stmt.tokens : Stmt → List Token
  | .assign _ _ target value =>
    target.tokens ++ .mark .equal :: (value.tokens ++ [.mark .semicolon])
  | .increment _ target => target.tokens ++ [.mark .plusPlus, .mark .semicolon]
  | .decrement _ target => target.tokens ++ [.mark .minusMinus, .mark .semicolon]
  | .read _ target => .word .cin :: .mark .shiftRight :: (target.tokens ++ [.mark .semicolon])
  | .write _ value => .word .cout :: .mark .shiftLeft :: (value.tokens ++ [.mark .semicolon])
  | .ifThen _ cond body =>
    .word .ifWord :: .mark .leftParen :: (cond.tokens ++ .mark .rightParen :: body.tokens)
  | .ifElse _ cond thenBody elseBody =>
    .word .ifWord :: .mark .leftParen ::
      (cond.tokens ++ .mark .rightParen :: (thenBody.tokens ++ .word .elseWord :: elseBody.tokens))
  | .whileLoop _ cond body =>
    .word .whileWord :: .mark .leftParen :: (cond.tokens ++ .mark .rightParen :: body.tokens)
  | .call _ _ callee args =>
    .ident callee.name :: .mark .leftParen ::
      (Expr.argTokens args ++ [.mark .rightParen, .mark .semicolon])
  | .ret _ none => [.word .returnWord, .mark .semicolon]
  | .ret _ (some value) => .word .returnWord :: (value.tokens ++ [.mark .semicolon])

def Body.tokens : Body → List Token
  | .block decls stmts =>
    .mark .leftBrace ::
      (decls.flatMap VarDecl.tokens ++ Stmt.allTokens stmts ++ [.mark .rightBrace])

def Stmt.allTokens : List Stmt → List Token
  | [] => []
  | s :: ss => s.tokens ++ Stmt.allTokens ss

end

def Param.allTokens : List Param → List Token
  | [] => []
  | p :: ps => p.tokens ++ ps.flatMap (Token.mark .comma :: ·.tokens)

def Decl.tokens : Decl → List Token
  | .var d => d.tokens
  | .struct d =>
    .word .struct :: .ident d.name.name :: .mark .leftBrace ::
      (d.fields.flatMap VarDecl.tokens ++ [.mark .rightBrace, .mark .semicolon])
  | .fn d =>
    .word d.returns.keyword :: .ident d.name.name :: .mark .leftParen ::
      (Param.allTokens d.params ++ .mark .rightParen :: d.body.tokens)

def Program.tokens (p : Program) : List Token := p.decls.flatMap Decl.tokens

namespace Grammar

variable {n m k : NodeId} {ts us : List Token}

/-! ## The printed tokens spell the tree -/

/-- An operation on two primary expressions. -/
theorem Reads.binary {op : BinaryOp} {left right : Expr} (s : Span)
    (hl : Reads n ts (.expr .primary left) m) (hr : Reads m us (.expr .primary right) k) :
    ReadsExpr n (ts ++ .mark op.mark :: us) (.binary ⟨k, s⟩ op left right) (k + 1) := by
  have chain : ∀ {l o : Level}, l.operand? = some o → l.op? (.mark op.mark) = some op →
      Reads n (ts ++ .mark op.mark :: us) (.expr l (.binary ⟨k, s⟩ op left right)) (k + 1) :=
    fun ho hop => by
      simpa using Reads.chain ho (hl.ofPrimary _) (.chainCons s ho hop (hr.ofPrimary _) .chainNil)
  have compare : Parser.comparisonOp? (.mark op.mark) = some op →
      Reads n (ts ++ .mark op.mark :: us) (.expr .comparison (.binary ⟨k, s⟩ op left right))
        (k + 1) :=
    fun hop => .comparison s hop (hl.ofPrimary _) (hr.ofPrimary _)
  cases op with
  | arith op =>
    cases op with
    | add | sub => exact (chain (l := .additive) rfl rfl).toAssignment
    | mul | div => exact (chain (l := .multiplicative) rfl rfl).toAssignment
  | equality op => cases op <;> exact (compare rfl).toAssignment
  | order op => cases op <;> exact (compare rfl).toAssignment
  | logical op =>
    cases op with
    | and => exact (chain (l := .conjunction) rfl rfl).toAssignment
    | or => exact (chain (l := .disjunction) rfl rfl).toAssignment

/-- What the printed tokens of a phrase spell. -/
def Reprint (n : NodeId) (ts : List Token) (m : NodeId) : Phrase → Prop
  | .place p => ts = p.tokens
  | .fields base p => p.tokens = base.tokens ++ ts
  | .target p => Reads n p.tokens (.place p) m
  | .expr _ e => Reads n e.tokens (.expr .primary e) m
  | .chain _ left e => ∀ k, Reads k left.tokens (.expr .primary left) n →
      Reads k e.tokens (.expr .primary e) m
  | .args es => Reads n (Expr.argTokens es) (.args es) m
  | .moreArgs es => Reads n (Expr.moreTokens es) (.moreArgs es) m

theorem Reads.reprint {x : Phrase} (h : Reads n ts x m) : Reprint n ts m x := by
  induction h with
  | place s s' _ ih => simpa [Reprint, Place.tokens] using ih.symm
  | fieldsNil => simp [Reprint]
  | fieldsCons s s' _ ih => simpa [Reprint, Place.tokens] using ih
  | target h ih => exact ih ▸ h
  | targetParen _ ih => exact ih
  | int s => exact .int s
  | str s => exact .str s
  | trueWord s => exact .trueWord s
  | falseWord s => exact .falseWord s
  | placeExpr h ih =>
    obtain rfl : _ = _ := ih
    exact .placeExpr h
  | call s s' _ ih => exact .call s s' ih
  | paren _ ih => exact ih
  | primary _ ih => exact ih
  | @sign n m ts t op e s hop _ ih =>
    have hsign : Parser.signOp? (.mark op.mark) = some op := by cases op <;> rfl
    exact .paren (.toAssignment (.sign s hsign (.primary ih)))
  | chain _ _ _ ih ihc => exact ihc _ ih
  | chainNil => exact fun _ h => h
  | chainCons s _ _ _ _ ih ihc => exact fun _ hl => ihc _ (.paren (.binary s hl ih))
  | operand _ ih => exact ih
  | comparison s _ _ _ ihl ihr => exact .paren (.binary s ihl ihr)
  | disjunction _ ih => exact ih
  | assign s _ _ ihp ihe => exact .paren (.assign s (.target ihp) (ihe.ofPrimary _))
  | argsNil => exact .argsNil
  | argsCons _ _ ih ihs => exact .argsCons (ih.ofPrimary _) ihs
  | moreNil => exact .moreNil
  | moreCons _ _ ih ihs => exact .moreCons (ih.ofPrimary _) ihs

theorem ReadsExpr.reprint {e : Expr} (h : ReadsExpr n ts e m) : ReadsExpr n e.tokens e m :=
  (Reads.reprint h).ofPrimary _

theorem keyword_scalar? (s : Scalar) : Parser.scalar? (.word s.keyword) = some s := by
  cases s <;> rfl

theorem ReadsType.reprint {type : TypeSpec} (h : ReadsType n ts type m) :
    ReadsType n type.tokens type m := by
  cases h with
  | scalar => exact .scalar (keyword_scalar? _)
  | struct s => exact .struct s

theorem ReadsVar.reprint {d : VarDecl} (h : ReadsVar n ts d m) : ReadsVar n d.tokens d m := by
  cases h with
  | mk s s' h => exact .mk s s' h.reprint

theorem ReadsMany.reprint {α : Type} {R : NodeId → List Token → α → NodeId → Prop}
    {tokens : α → List Token} (hR : ∀ {n ts a m}, R n ts a m → R n (tokens a) a m) {as : List α}
    (h : ReadsMany R n ts as m) : ReadsMany R n (as.flatMap tokens) as m := by
  induction h with
  | nil => exact .nil
  | cons h _ ih => rw [List.flatMap_cons]; exact .cons (hR h) ih

def Part.tokens : Part → List Token
  | .stmt s => s.tokens
  | .stmts ss => Stmt.allTokens ss
  | .body b => b.tokens

theorem ReadsStmt.reprint {x : Part} (h : ReadsStmt n ts x m) : ReadsStmt n x.tokens x m := by
  induction h with
  | assign s s' hp he => exact .assign s s' (hp.reprint ▸ hp) he.reprint
  | increment s hp => exact .increment s (hp.reprint ▸ hp)
  | decrement s hp => exact .decrement s (hp.reprint ▸ hp)
  | read s hp => exact .read s (.target hp.reprint)
  | write s he => exact .write s he.reprint
  | ifThen s he _ ih => exact .ifThen s he.reprint ih
  | ifElse s he _ _ ih ih' => exact .ifElse s he.reprint ih ih'
  | whileLoop s he _ ih => exact .whileLoop s he.reprint ih
  | call s s' s'' h => exact .call s s' s'' h.reprint
  | ret s => exact .ret s
  | retValue s he => exact .retValue s he.reprint
  | nil => exact .nil
  | cons _ _ ih ihs => exact .cons ih ihs
  | body hd _ ihs => exact .body (hd.reprint .reprint) ihs

theorem ReadsParam.reprint {p : Param} (h : ReadsParam n ts p m) : ReadsParam n p.tokens p m := by
  cases h with
  | mk s s' => exact .mk s s' (keyword_scalar? _)

theorem ReadsParams.reprint {ps : List Param} (h : ReadsParams n ts ps m) :
    ReadsParams n (Param.allTokens ps) ps m := by
  cases h with
  | nil => exact .nil
  | cons h hs => exact .cons h.reprint (hs.reprint fun ⟨h⟩ => .mk h.reprint)

theorem ReadsDecl.reprint {d : Decl} (h : ReadsDecl n ts d m) : ReadsDecl n d.tokens d m := by
  cases h with
  | var h => exact .var h.reprint
  | struct s s' h hne => exact .struct s s' (h.reprint .reprint) hne
  | fn s s' _ hp hb => exact .fn s s' (keyword_scalar? _) hp.reprint hb.reprint

/-- **The printed tokens of a program spell that program**, with its node ids. -/
theorem ReadsProgram.reprint {p : Program} (h : ReadsProgram ts p) : ReadsProgram p.tokens p := by
  cases h with
  | mk h => exact .mk (h.reprint .reprint)

/-! ## The printed tokens come from the tokens that were read -/

/-- All of the tokens satisfy `Q`. -/
def Every (Q : Token → Prop) (ts : List Token) : Prop := ∀ t ∈ ts, Q t

section Every

variable {Q : Token → Prop}

@[simp] theorem every_nil : Every Q [] := by simp [Every]

@[simp] theorem every_cons {t : Token} : Every Q (t :: ts) ↔ Q t ∧ Every Q ts := by simp [Every]

@[simp] theorem every_append : Every Q (ts ++ us) ↔ Every Q ts ∧ Every Q us := by
  simp only [Every, List.forall_mem_append]

/-- The printed tokens of a phrase satisfy `Q`, if those that were there before do. -/
def Spelled (Q : Token → Prop) : Phrase → Prop
  | .place p | .target p => Every Q p.tokens
  | .fields base p => Every Q base.tokens → Every Q p.tokens
  | .expr _ e => Every Q e.tokens
  | .chain _ left e => Every Q left.tokens → Every Q e.tokens
  | .args es => Every Q (Expr.argTokens es)
  | .moreArgs es => Every Q (Expr.moreTokens es)

variable (hm : ∀ k : Mark, Q (.mark k)) (hw : ∀ w : Keyword, Q (.word w))
include hm hw

theorem Reads.spelled {x : Phrase} (h : Reads n ts x m) (hts : Every Q ts) : Spelled Q x := by
  induction h with
  | fieldsNil => exact id
  | chainNil => exact id
  | _ => simp_all [Spelled, Place.tokens, Expr.tokens, Expr.argTokens, Expr.moreTokens]

omit hm in
theorem ReadsType.spelled {type : TypeSpec} (h : ReadsType n ts type m) (hts : Every Q ts) :
    Every Q type.tokens := by
  cases h <;> simp_all [TypeSpec.tokens]

theorem ReadsVar.spelled {d : VarDecl} (h : ReadsVar n ts d m) (hts : Every Q ts) :
    Every Q d.tokens := by
  cases h with
  | mk s s' h =>
    rw [every_append] at hts
    simpa [VarDecl.tokens, hm, h.spelled hw hts.1] using hts.2

omit hm hw in
theorem ReadsMany.spelled {α : Type} {R : NodeId → List Token → α → NodeId → Prop}
    {tokens : α → List Token} {as : List α} (h : ReadsMany R n ts as m) (hts : Every Q ts)
    (hR : ∀ {n ts a m}, R n ts a m → Every Q ts → Every Q (tokens a)) :
    Every Q (as.flatMap tokens) := by
  induction h with
  | nil => simp
  | cons h _ ih =>
    rw [every_append] at hts
    rw [List.flatMap_cons, every_append]
    exact ⟨hR h hts.1, ih hts.2⟩

theorem ReadsStmt.spelled {x : Part} (h : ReadsStmt n ts x m) (hts : Every Q ts) :
    Every Q x.tokens := by
  induction h with
  | body hd _ ihs =>
    simp only [every_cons, every_append] at hts
    have h1 := hd.spelled hts.2.1.1 fun h => h.spelled hm hw
    simp_all [Part.tokens, Body.tokens]
  | assign _ _ hp he =>
    have h1 := hp.spelled hm hw
    have h2 := he.spelled hm hw
    simp_all [Part.tokens, Stmt.tokens, Spelled]
  | increment _ h | decrement _ h | read _ h | write _ h | call _ _ _ h | retValue _ h =>
    have h1 := h.spelled hm hw
    simp_all [Part.tokens, Stmt.tokens, Spelled]
  | ifThen _ he | ifElse _ he | whileLoop _ he =>
    have h1 := he.spelled hm hw
    simp_all [Part.tokens, Stmt.tokens, Spelled]
  | _ => simp_all [Part.tokens, Stmt.tokens, Stmt.allTokens]

omit hm in
theorem ReadsParam.spelled {p : Param} (h : ReadsParam n ts p m) (hts : Every Q ts) :
    Every Q p.tokens := by
  cases h with
  | mk => simp_all [Param.tokens]

omit hm in
theorem ReadsParams.spelled {ps : List Param} (h : ReadsParams n ts ps m) (hts : Every Q ts) :
    Every Q (Param.allTokens ps) := by
  cases h with
  | nil => simp [Param.allTokens]
  | cons h hs =>
    rw [every_append] at hts
    rw [Param.allTokens, every_append]
    refine ⟨h.spelled hw hts.1, hs.spelled hts.2 fun ⟨h⟩ hts => ?_⟩
    rw [every_cons] at hts ⊢
    exact ⟨hts.1, h.spelled hw hts.2⟩

theorem ReadsDecl.spelled {d : Decl} (h : ReadsDecl n ts d m) (hts : Every Q ts) :
    Every Q d.tokens := by
  cases h with
  | var h => exact h.spelled hm hw hts
  | struct _ _ h =>
    simp only [every_cons, every_append] at hts
    have h1 := h.spelled hts.2.2.2.1 fun h => h.spelled hm hw
    simp_all [Decl.tokens]
  | fn _ _ _ hp hb =>
    have h1 := hp.spelled hw
    have h2 := hb.spelled hm hw
    simp_all [Decl.tokens, Part.tokens]

/-- **What holds of all marks, words and tokens that were read holds of the printed tokens.** -/
theorem ReadsProgram.spelled {p : Program} (h : ReadsProgram ts p) (hts : Every Q ts) :
    Every Q p.tokens := by
  cases h with
  | mk h => exact h.spelled hts fun h => h.spelled hm hw

end Every

end Grammar

end FlatC
