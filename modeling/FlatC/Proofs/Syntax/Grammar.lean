import FlatC.Parser.Program

/-!
# The grammar

What a list of tokens spells, without a parser. `Reads n ts x m` says that the tokens
`ts` spell the phrase `x`, and that the identifier occurrences and expressions of `x`
are numbered from `n` up to, and not including, `m`, in the order in which their last
tokens stand. Spans are left open.

* `Reads` is for places, expressions and lists of arguments. An expression has a
  level; a loose level includes the tight ones. A chain of operators of one level
  is read from its left operand on (`Phrase.chain`), so it associates to the left.
* `ReadsStmt` is for statements and blocks, `ReadsDecl` and `ReadsProgram` for the
  rest.
-/

namespace FlatC

namespace Grammar

/-- The levels of expressions, from tight to loose. -/
inductive Level where
  | primary
  | unary
  | multiplicative
  | additive
  | comparison
  | conjunction
  | disjunction
  | assignment
  deriving DecidableEq, Repr

namespace Level

/-- The level of the operands of a chain, for the levels that are chains. -/
def operand? : Level → Option Level
  | multiplicative => some unary
  | additive => some multiplicative
  | conjunction => some comparison
  | disjunction => some conjunction
  | _ => none

/-- The next looser level. -/
def looser : Level → Level
  | primary => unary
  | unary => multiplicative
  | multiplicative => additive
  | additive => comparison
  | comparison => conjunction
  | conjunction => disjunction
  | disjunction => assignment
  | assignment => assignment

/-- The operator that a token is in a chain of a level. -/
def op? : Level → Token → Option BinaryOp
  | multiplicative => Parser.multiplicativeOp?
  | additive => Parser.additiveOp?
  | conjunction => Parser.andOp?
  | disjunction => Parser.orOp?
  | _ => fun _ => none

end Level

/-- What a list of tokens inside an expression can spell. -/
inductive Phrase where
  /-- A variable and the field names behind it. -/
  | place (p : Place)
  /-- The field names that make `p` of `base`. -/
  | fields (base p : Place)
  /-- A place, in any number of parentheses. -/
  | target (p : Place)
  | expr (l : Level) (e : Expr)
  /-- The operators and operands that make `e` of `left`. -/
  | chain (l : Level) (left e : Expr)
  /-- Arguments with commas between them, if there are any. -/
  | args (es : List Expr)
  /-- Arguments that each stand behind a comma. -/
  | moreArgs (es : List Expr)

inductive Reads : NodeId → List Token → Phrase → NodeId → Prop where
  | place {n m : NodeId} {ts : List Token} {x : String} {p : Place} (s s' : Span)
      (h : Reads (n + 2) ts (.fields (.var ⟨n + 1, s⟩ ⟨n, x, s'⟩) p) m) :
      Reads n (.ident x :: ts) (.place p) m
  | fieldsNil {n : NodeId} {p : Place} : Reads n [] (.fields p p) n
  | fieldsCons {n m : NodeId} {ts : List Token} {x : String} {base p : Place} (s s' : Span)
      (h : Reads (n + 2) ts (.fields (.field ⟨n + 1, s⟩ base ⟨n, x, s'⟩) p) m) :
      Reads n (.mark .dot :: .ident x :: ts) (.fields base p) m
  | target {n m : NodeId} {ts : List Token}
      {p : Place} (h : Reads n ts (.place p) m) : Reads n ts (.target p) m
  | targetParen {n m : NodeId} {ts : List Token} {p : Place} (h : Reads n ts (.target p) m) :
      Reads n (.mark .leftParen :: (ts ++ [.mark .rightParen])) (.target p) m
  | int {n : NodeId}
      {v : Int} (s : Span) : Reads n [.int v] (.expr .primary (.int ⟨n, s⟩ v)) (n + 1)
  | str {n : NodeId}
      {x : String} (s : Span) : Reads n [.str x] (.expr .primary (.str ⟨n, s⟩ x)) (n + 1)
  | trueWord {n : NodeId} (s : Span) :
      Reads n [.word .trueWord] (.expr .primary (.bool ⟨n, s⟩ true)) (n + 1)
  | falseWord {n : NodeId} (s : Span) :
      Reads n [.word .falseWord] (.expr .primary (.bool ⟨n, s⟩ false)) (n + 1)
  | placeExpr {n m : NodeId} {ts : List Token} {p : Place} (h : Reads n ts (.place p) m) :
      Reads n ts (.expr .primary (.place p)) m
  | call {n m : NodeId} {ts : List Token}
      {x : String} {es : List Expr} (s s' : Span) (h : Reads (n + 1) ts (.args es) m) :
      Reads n (.ident x :: .mark .leftParen :: (ts ++ [.mark .rightParen]))
        (.expr .primary (.call ⟨m, s⟩ ⟨n, x, s'⟩ es)) (m + 1)
  | paren {n m : NodeId} {ts : List Token} {e : Expr} (h : Reads n ts (.expr .assignment e) m) :
      Reads n (.mark .leftParen :: (ts ++ [.mark .rightParen])) (.expr .primary e) m
  | primary {n m : NodeId} {ts : List Token}
      {e : Expr} (h : Reads n ts (.expr .primary e) m) : Reads n ts (.expr .unary e) m
  | sign {n m : NodeId} {ts : List Token}
      {t : Token} {op : UnaryOp} {e : Expr} (s : Span) (hop : Parser.signOp? t = some op)
      (h : Reads n ts (.expr .unary e) m) :
      Reads n (t :: ts) (.expr .unary (.unary ⟨m, s⟩ op e)) (m + 1)
  | chain {n m k : NodeId} {ts us : List Token}
      {l o : Level} {left e : Expr} (ho : l.operand? = some o)
      (h : Reads n ts (.expr o left) m) (hc : Reads m us (.chain l left e) k) :
      Reads n (ts ++ us) (.expr l e) k
  | chainNil {n : NodeId} {l : Level} {e : Expr} : Reads n [] (.chain l e e) n
  | chainCons {n m k : NodeId} {ts us : List Token}
      {l o : Level} {t : Token} {op : BinaryOp} {left right e : Expr} (s : Span)
      (ho : l.operand? = some o) (hop : l.op? t = some op)
      (h : Reads n ts (.expr o right) m)
      (hc : Reads (m + 1) us (.chain l (.binary ⟨m, s⟩ op left right) e) k) :
      Reads n (t :: (ts ++ us)) (.chain l left e) k
  | operand {n m : NodeId} {ts : List Token} {e : Expr} (h : Reads n ts (.expr .additive e) m) :
      Reads n ts (.expr .comparison e) m
  | comparison {n m k : NodeId} {ts us : List Token}
      {t : Token} {op : BinaryOp} {left right : Expr} (s : Span)
      (hop : Parser.comparisonOp? t = some op) (hl : Reads n ts (.expr .additive left) m)
      (hr : Reads m us (.expr .additive right) k) :
      Reads n (ts ++ t :: us) (.expr .comparison (.binary ⟨k, s⟩ op left right)) (k + 1)
  | disjunction {n m : NodeId} {ts : List Token}
      {e : Expr} (h : Reads n ts (.expr .disjunction e) m) :
      Reads n ts (.expr .assignment e) m
  | assign {n m k : NodeId} {ts us : List Token}
      {p : Place} {e : Expr} (s : Span) (hp : Reads n ts (.target p) m)
      (he : Reads m us (.expr .assignment e) k) :
      Reads n (ts ++ .mark .equal :: us) (.expr .assignment (.assign ⟨k, s⟩ p e)) (k + 1)
  | argsNil {n : NodeId} : Reads n [] (.args []) n
  | argsCons {n m k : NodeId} {ts us : List Token}
      {e : Expr} {es : List Expr} (h : Reads n ts (.expr .assignment e) m)
      (hs : Reads m us (.moreArgs es) k) : Reads n (ts ++ us) (.args (e :: es)) k
  | moreNil {n : NodeId} : Reads n [] (.moreArgs []) n
  | moreCons {n m k : NodeId} {ts us : List Token}
      {e : Expr} {es : List Expr} (h : Reads n ts (.expr .assignment e) m)
      (hs : Reads m us (.moreArgs es) k) :
      Reads n (.mark .comma :: (ts ++ us)) (.moreArgs (e :: es)) k

/-- An expression is one of the next looser level too. -/
theorem Reads.loosen {n m : NodeId} {ts : List Token} {l : Level} {e : Expr}
    (h : Reads n ts (.expr l e) m) : Reads n ts (.expr l.looser e) m := by
  have chain : ∀ {l o : Level}, l.operand? = some o → Reads n ts (.expr o e) m →
      Reads n ts (.expr l e) m := fun ho h => by simpa using Reads.chain ho h .chainNil
  cases l with
  | primary => exact .primary h
  | unary => exact chain (l := .multiplicative) rfl h
  | multiplicative => exact chain (l := .additive) rfl h
  | additive => exact .operand h
  | comparison => exact chain (l := .conjunction) rfl h
  | conjunction => exact chain (l := .disjunction) rfl h
  | disjunction => exact .disjunction h
  | assignment => exact h

/-- A primary expression is one of every level. -/
theorem Reads.ofPrimary {n m : NodeId} {ts : List Token} {e : Expr}
    (h : Reads n ts (.expr .primary e) m) (l : Level) : Reads n ts (.expr l e) m := by
  cases l with
  | primary => exact h
  | unary => exact h.loosen
  | multiplicative => exact h.loosen.loosen
  | additive => exact h.loosen.loosen.loosen
  | comparison => exact h.loosen.loosen.loosen.loosen
  | conjunction => exact h.loosen.loosen.loosen.loosen.loosen
  | disjunction => exact h.loosen.loosen.loosen.loosen.loosen.loosen
  | assignment => exact h.loosen.loosen.loosen.loosen.loosen.loosen.loosen

/-- An expression of any level is one of the loosest. -/
theorem Reads.toAssignment {n m : NodeId} {ts : List Token} {l : Level} {e : Expr}
    (h : Reads n ts (.expr l e) m) : Reads n ts (.expr .assignment e) m := by
  cases l with
  | primary => exact h.ofPrimary .assignment
  | unary => exact h.loosen.loosen.loosen.loosen.loosen.loosen
  | multiplicative => exact h.loosen.loosen.loosen.loosen.loosen
  | additive => exact h.loosen.loosen.loosen.loosen
  | comparison => exact h.loosen.loosen.loosen
  | conjunction => exact h.loosen.loosen
  | disjunction => exact h.loosen
  | assignment => exact h

/-- An expression. -/
abbrev ReadsExpr (n : NodeId) (ts : List Token) (e : Expr) (m : NodeId) : Prop :=
  Reads n ts (.expr .assignment e) m

inductive ReadsType : NodeId → List Token → TypeSpec → NodeId → Prop where
  | scalar {n : NodeId} {t : Token} {s : Scalar} (h : Parser.scalar? t = some s) :
      ReadsType n [t] (.scalar s) n
  | struct {n : NodeId} {x : String} (s : Span) :
      ReadsType n [.word .struct, .ident x] (.struct ⟨n, x, s⟩) (n + 1)

inductive ReadsVar : NodeId → List Token → VarDecl → NodeId → Prop where
  | mk {n m : NodeId} {ts : List Token}
      {x : String} {type : TypeSpec} (s s' : Span) (h : ReadsType n ts type m) :
      ReadsVar n (ts ++ [.ident x, .mark .semicolon]) ⟨type, ⟨m, x, s⟩, s'⟩ (m + 1)

/-- Phrases one after the other. -/
inductive ReadsMany {α : Type} (R : NodeId → List Token → α → NodeId → Prop) :
    NodeId → List Token → List α → NodeId → Prop where
  | nil {n : NodeId} : ReadsMany R n [] [] n
  | cons {n m k : NodeId} {ts us : List Token}
      {a : α} {as : List α} (h : R n ts a m) (hs : ReadsMany R m us as k) :
      ReadsMany R n (ts ++ us) (a :: as) k

/-- What a list of tokens inside a function can spell. -/
inductive Part where
  | stmt (s : Stmt)
  | stmts (ss : List Stmt)
  | body (b : Body)

inductive ReadsStmt : NodeId → List Token → Part → NodeId → Prop where
  | assign {n m k : NodeId} {ts us : List Token}
      {p : Place} {e : Expr} (s s' : Span) (hp : Reads n ts (.place p) m)
      (he : ReadsExpr m us e k) :
      ReadsStmt n (ts ++ .mark .equal :: (us ++ [.mark .semicolon]))
        (.stmt (.assign s ⟨k, s'⟩ p e)) (k + 1)
  | increment {n m : NodeId} {ts : List Token}
      {p : Place} (s : Span) (h : Reads n ts (.place p) m) :
      ReadsStmt n (ts ++ [.mark .plusPlus, .mark .semicolon]) (.stmt (.increment s p)) m
  | decrement {n m : NodeId} {ts : List Token}
      {p : Place} (s : Span) (h : Reads n ts (.place p) m) :
      ReadsStmt n (ts ++ [.mark .minusMinus, .mark .semicolon]) (.stmt (.decrement s p)) m
  | read {n m : NodeId} {ts : List Token} {p : Place} (s : Span) (h : Reads n ts (.target p) m) :
      ReadsStmt n (.word .cin :: .mark .shiftRight :: (ts ++ [.mark .semicolon]))
        (.stmt (.read s p)) m
  | write {n m : NodeId} {ts : List Token} {e : Expr} (s : Span) (h : ReadsExpr n ts e m) :
      ReadsStmt n (.word .cout :: .mark .shiftLeft :: (ts ++ [.mark .semicolon]))
        (.stmt (.write s e)) m
  | ifThen {n m k : NodeId} {ts us : List Token}
      {e : Expr} {b : Body} (s : Span) (he : ReadsExpr n ts e m)
      (hb : ReadsStmt m us (.body b) k) :
      ReadsStmt n (.word .ifWord :: .mark .leftParen :: (ts ++ .mark .rightParen :: us))
        (.stmt (.ifThen s e b)) k
  | ifElse {n m k j : NodeId} {ts us vs : List Token} {e : Expr} {b b' : Body} (s : Span)
      (he : ReadsExpr n ts e m) (hb : ReadsStmt m us (.body b) k)
      (hb' : ReadsStmt k vs (.body b') j) :
      ReadsStmt n (.word .ifWord :: .mark .leftParen ::
        (ts ++ .mark .rightParen :: (us ++ .word .elseWord :: vs))) (.stmt (.ifElse s e b b')) j
  | whileLoop {n m k : NodeId} {ts us : List Token}
      {e : Expr} {b : Body} (s : Span) (he : ReadsExpr n ts e m)
      (hb : ReadsStmt m us (.body b) k) :
      ReadsStmt n (.word .whileWord :: .mark .leftParen :: (ts ++ .mark .rightParen :: us))
        (.stmt (.whileLoop s e b)) k
  | call {n m : NodeId} {ts : List Token}
      {x : String} {es : List Expr} (s s' s'' : Span) (h : Reads (n + 1) ts (.args es) m) :
      ReadsStmt n (.ident x :: .mark .leftParen :: (ts ++ [.mark .rightParen, .mark .semicolon]))
        (.stmt (.call s ⟨m, s'⟩ ⟨n, x, s''⟩ es)) (m + 1)
  | ret {n : NodeId}
      (s : Span) : ReadsStmt n [.word .returnWord, .mark .semicolon] (.stmt (.ret s none)) n
  | retValue {n m : NodeId} {ts : List Token} {e : Expr} (s : Span) (h : ReadsExpr n ts e m) :
      ReadsStmt n (.word .returnWord :: (ts ++ [.mark .semicolon])) (.stmt (.ret s (some e))) m
  | nil {n : NodeId} : ReadsStmt n [] (.stmts []) n
  | cons {n m k : NodeId} {ts us : List Token}
      {s : Stmt} {ss : List Stmt} (h : ReadsStmt n ts (.stmt s) m)
      (hs : ReadsStmt m us (.stmts ss) k) : ReadsStmt n (ts ++ us) (.stmts (s :: ss)) k
  | body {n m k : NodeId} {ts us : List Token}
      {ds : List VarDecl} {ss : List Stmt} (hd : ReadsMany ReadsVar n ts ds m)
      (hs : ReadsStmt m us (.stmts ss) k) :
      ReadsStmt n (.mark .leftBrace :: (ts ++ us ++ [.mark .rightBrace])) (.body (.block ds ss)) k

inductive ReadsParam : NodeId → List Token → Param → NodeId → Prop where
  | mk {n : NodeId} {t : Token} {type : Scalar} {x : String} (s s' : Span)
      (h : Parser.scalar? t = some type) :
      ReadsParam n [t, .ident x] ⟨type, ⟨n, x, s⟩, s'⟩ (n + 1)

/-- A parameter that stands behind a comma. -/
inductive ReadsNextParam : NodeId → List Token → Param → NodeId → Prop where
  | mk {n m : NodeId} {ts : List Token}
      {p : Param} (h : ReadsParam n ts p m) : ReadsNextParam n (.mark .comma :: ts) p m

/-- Parameters with commas between them, if there are any. -/
inductive ReadsParams : NodeId → List Token → List Param → NodeId → Prop where
  | nil {n : NodeId} : ReadsParams n [] [] n
  | cons {n m k : NodeId} {ts us : List Token}
      {p : Param} {ps : List Param} (h : ReadsParam n ts p m)
      (hs : ReadsMany ReadsNextParam m us ps k) : ReadsParams n (ts ++ us) (p :: ps) k

inductive ReadsDecl : NodeId → List Token → Decl → NodeId → Prop where
  | var {n m : NodeId} {ts : List Token}
      {d : VarDecl} (h : ReadsVar n ts d m) : ReadsDecl n ts (.var d) m
  | struct {n m : NodeId} {ts : List Token} {x : String} {ds : List VarDecl} (s s' : Span)
      (h : ReadsMany ReadsVar (n + 1) ts ds m) (hne : ds ≠ []) :
      ReadsDecl n (.word .struct :: .ident x :: .mark .leftBrace ::
        (ts ++ [.mark .rightBrace, .mark .semicolon])) (.struct ⟨⟨n, x, s⟩, ds, s'⟩) m
  | fn {n m k : NodeId} {ts us : List Token}
      {t : Token} {returns : Scalar} {x : String} {ps : List Param} {b : Body} (s s' : Span)
      (ht : Parser.scalar? t = some returns) (hp : ReadsParams (n + 1) ts ps m)
      (hb : ReadsStmt m us (.body b) k) :
      ReadsDecl n (t :: .ident x :: .mark .leftParen :: (ts ++ .mark .rightParen :: us))
        (.fn ⟨returns, ⟨n, x, s⟩, ps, b, s'⟩) k

/-- A list of tokens spells a program. -/
inductive ReadsProgram : List Token → Program → Prop where
  | mk {ts : List Token} {ds : List Decl} {n : NodeId} (h : ReadsMany ReadsDecl 0 ts ds n) :
      ReadsProgram ts ⟨ds, n⟩

end Grammar

end FlatC
