import FlatC.Proofs.Syntax.Progress
import FlatC.Proofs.Syntax.Complete
import FlatC.Proofs.Spans.Parser

/-!
# The operations of the parser go forward

Each operation takes a token at least if it succeeds (`Operation.takes`), and none of them goes
back. The lemmas `…_agree` are about operations that call others inside: given two parsers that
agree where fewer tokens are left, the operation with the one agrees with the operation with the
other. They say at once that the operation goes forward and that it makes its calls further ahead,
so each recursion of the parser is one on the tokens that are left (`parser_goes_forward`).
-/

namespace FlatC

namespace Parser

variable {α : Type} {m n : Nat} {s : Cursor}

theorem AgreeUnder.mono {p q : Parser α} (h : AgreeUnder m n p q) {k : Nat} (hk : k ≤ m) :
    AgreeUnder k n p q :=
  fun s hs => h s (Nat.lt_of_lt_of_le hs hk)

theorem Takes.under {p : Parser α} (h : Takes p) (m : Nat) : AgreeUnder m 1 p p := fun s _ => h s

/-! ## Rounds -/

/-- A round of `repeatWhile`, with `again` for those behind it. -/
def repeatRound (more : Token → Bool) (item : Parser α) (again : Parser (List α)) :
    Parser (List α) := do
  if ← look (·.peek?.any more) then
    let a ← item
    return a :: (← again)
  else return []

/-- A round of the items behind the first one of a `commaList`. -/
def commaRound (item : Parser α) (again : Parser (List α)) : Parser (List α) := do
  if ← accept (.mark .comma) then
    let a ← item
    return a :: (← again)
  else return []

/-- A round of a `chain`, with what was read before to the left. -/
def chainRound (operand : Parser Expr) (op? : Token → Option BinaryOp)
    (again : Expr → Parser Expr) (left : Expr) : Parser Expr := do
  match ← acceptMap op? with
  | none => return left
  | some op =>
    let right ← operand
    again (← binary left op right)

/-- A round of `fields`, with the place that was read before. -/
def fieldsRound (again : Place → Parser Place) (base : Place) : Parser Place := do
  if ← accept (.mark .dot) then
    let name ← identifier "Expected field name after '.'"
    let node ← freshNode (base.span.merge name.span)
    again (.field node base name)
  else return base

/-- A sign and what stands behind it, or no sign. -/
def signRound (nested again : Parser Expr) : Parser Expr := do
  let span ← look Cursor.here
  match ← acceptMap signOp? with
  | none => primaryOf nested
  | some op =>
    let operand ← again
    return .unary (← freshNode (span.merge operand.span)) op operand

section

variable {item item' : Parser α} {operand operand' : Parser Expr} {more : Token → Bool}
  {op? : Token → Option BinaryOp}

theorem unfolds_repeat (more : Token → Bool) (item : Parser α) :
    Unfolds (fun r (_ : Unit) => repeatRound more item (r ()))
      fun bound _ => repeatWithin more item bound := by
  rintro (_ | ⟨l, bound⟩) - ⟨last, rest, id⟩ h
  · obtain rfl := List.eq_nil_of_length_eq_zero (Nat.le_zero.1 h)
    rfl
  · rfl

theorem unfolds_comma (item : Parser α) :
    Unfolds (fun r (_ : Unit) => commaRound item (r ()))
      fun bound _ => moreItemsWithin item bound := by
  rintro (_ | ⟨l, bound⟩) - ⟨last, rest, id⟩ h
  · obtain rfl := List.eq_nil_of_length_eq_zero (Nat.le_zero.1 h)
    rfl
  · rfl

theorem unfolds_chain (operand : Parser Expr) (op? : Token → Option BinaryOp) :
    Unfolds (chainRound operand op?) fun bound left => chainWithin operand op? left bound := by
  rintro (_ | ⟨l, bound⟩) left ⟨last, rest, id⟩ h
  · obtain rfl := List.eq_nil_of_length_eq_zero (Nat.le_zero.1 h)
    rfl
  · rfl

theorem unfolds_fields : Unfolds fieldsRound fun bound base => fieldsWithin base bound := by
  rintro (_ | ⟨l, bound⟩) left ⟨last, rest, id⟩ h
  · obtain rfl := List.eq_nil_of_length_eq_zero (Nat.le_zero.1 h)
    rfl
  · rfl

theorem unfolds_sign (nested : Parser Expr) :
    Unfolds (fun r (_ : Unit) => signRound nested (r ()))
      fun bound _ => unaryWithin nested bound := by
  rintro (_ | ⟨l, bound⟩) - ⟨last, rest, id⟩ h
  · obtain rfl := List.eq_nil_of_length_eq_zero (Nat.le_zero.1 h)
    rfl
  · rfl

theorem unfolds_body :
    Unfolds (fun r (_ : Unit) => bodyOf (r ())) fun bound _ => bodyWithin bound := by
  rintro (_ | ⟨l, bound⟩) - ⟨last, rest, id⟩ h
  · obtain rfl := List.eq_nil_of_length_eq_zero (Nat.le_zero.1 h)
    rfl
  · rfl

theorem unfolds_expression :
    Unfolds (fun r (_ : Unit) => assignmentOf (r ())) fun bound _ => expressionWithin bound := by
  rintro (_ | ⟨l, bound⟩) - ⟨last, rest, id⟩ h
  · obtain rfl := List.eq_nil_of_length_eq_zero (Nat.le_zero.1 h)
    rfl
  · rfl

/-! ## Repetitions -/

theorem repeatRound_agree {k : Nat} (hitem : AgreeUnder (k + 1) 1 item item')
    {r r' : Parser (List α)} (hr : AgreeUnder k 0 r r') :
    AgreeUnder (k + 1) 0 (repeatRound more item r) (repeatRound more item' r') := by
  intro s hs
  refine .lookBind ?_
  split
  · exact .bind (hitem s hs) fun a t ht => .bind (hr t (ht.fewer hs)) fun _ _ _ => .pure
  · exact .pure

theorem commaRound_agree {k : Nat} (hitem : AgreeUnder k 1 item item')
    {r r' : Parser (List α)} (hr : AgreeUnder k 0 r r') :
    AgreeUnder (k + 1) 0 (commaRound item r) (commaRound item' r') := by
  intro s hs
  refine .acceptBind (Nat.zero_le 1) (fun u hu => ?_) .pure
  have hk := hu.fewer hs
  exact .bind (hitem u hk) fun a t ht => .bind (hr t (ht.under hk)) fun _ _ _ => .pure

theorem chainRound_agree {k : Nat} (ho : AgreeUnder k 1 operand operand')
    {r r' : Expr → Parser Expr} (hr : ∀ e, AgreeUnder k 0 (r e) (r' e)) (left : Expr) :
    AgreeUnder (k + 1) 0 (chainRound operand op? r left) (chainRound operand' op? r' left) := by
  intro s hs
  refine .acceptMapBind (Nat.zero_le 1) (fun op u hu => ?_) .pure
  have hk := hu.fewer hs
  refine .bind (ho u hk) fun right t ht => ?_
  refine .bind (.bind .freshNode fun _ _ _ => .pure) fun e v hv => ?_
  exact hr e v (hv.under (ht.under hk))

theorem fieldsRound_agree {k : Nat} {r r' : Place → Parser Place}
    (hr : ∀ p, AgreeUnder k 0 (r p) (r' p)) (base : Place) :
    AgreeUnder (k + 1) 0 (fieldsRound r base) (fieldsRound r' base) := by
  intro s hs
  refine .acceptBind (Nat.zero_le 1) (fun u hu => ?_) .pure
  refine .bind .identifier fun name t ht => ?_
  refine .bind .freshNode fun node v hv => ?_
  exact hr _ v (hv.under (ht.under (hu.fewer hs)))

theorem repeatWhile_agree (h : AgreeUnder m 1 item item') :
    AgreeUnder m 0 (repeatWhile more item) (repeatWhile more item') :=
  (unfolds_repeat more item).agreeUnder (unfolds_repeat more item')
    (fun _ hk _ _ hr _ => repeatRound_agree (h.mono hk) (hr ())) ()

theorem commaList_agree (h : AgreeUnder m 1 item item') :
    AgreeUnder m 1 (commaList item) (commaList item') := by
  intro s hs
  refine .take (h s hs) fun a t ht => ?_
  have hmore := (unfolds_comma item).agreeUnder (unfolds_comma item')
    (fun _ hk _ _ hr _ => commaRound_agree (h.mono (Nat.le_of_lt hk)) (hr ())) () t (ht.under hs)
  exact .bind hmore fun _ _ _ => .pure

theorem chain_agree (h : AgreeUnder m 1 operand operand') :
    AgreeUnder m 1 (chain operand op?) (chain operand' op?) := by
  intro s hs
  refine .take (h s hs) fun left t ht => ?_
  exact (unfolds_chain operand op?).agreeUnder (unfolds_chain operand' op?)
    (fun _ hk _ _ hr => chainRound_agree (h.mono (Nat.le_of_lt hk)) hr) left t (ht.under hs)

theorem fields_agree (base : Place) (s : Cursor) : Agree 0 s (fields base) (fields base) :=
  unfolds_fields.agreeUnder unfolds_fields (fun _ _ _ _ hr => fieldsRound_agree hr) base s
    (Nat.lt_succ_self _)

end

/-! ## Expressions -/

section

variable {e e' : Parser Expr}

theorem argumentsOf_agree (he : AgreeUnder m 1 e e') :
    AgreeUnder m 0 (argumentsOf e) (argumentsOf e') := by
  intro s hs
  refine .lookBind ?_
  split
  · exact .pure
  · exact (commaList_agree he s hs).mono (Nat.zero_le 1)

theorem identifierExprOf_agree (he : AgreeUnder m 1 e e') :
    AgreeUnder (m + 1) 1 (identifierExprOf e) (identifierExprOf e') := by
  intro s hs
  refine .take .identifier fun name t ht => ?_
  refine .acceptBind (Nat.zero_le 1) (fun u hu => ?_) ?_
  · refine .bind (argumentsOf_agree he u (hu.under (ht.fewer hs))) fun args _ _ => ?_
    exact .bind .expect fun stop _ _ => .bind .freshNode fun _ _ _ => .pure
  · refine .bind .freshNode fun node _ _ => ?_
    exact .bind (fields_agree _ _) fun _ _ _ => .pure

theorem literal_agree {make : Node → Expr} (h : s.rest ≠ []) :
    Agree 1 s (literal make) (literal make) :=
  .lookBind (.take (.advance h) fun _ _ _ => .bind .freshNode fun _ _ _ => .pure)

theorem primaryOf_agree (he : AgreeUnder m 1 e e') :
    AgreeUnder (m + 1) 1 (primaryOf e) (primaryOf e') := by
  intro s hs
  refine .lookBind ?_
  split
  next h => exact literal_agree (Cursor.rest_of_peek? h)
  next h => exact literal_agree (Cursor.rest_of_peek? h)
  next h => exact literal_agree (Cursor.rest_of_peek? h)
  next h => exact literal_agree (Cursor.rest_of_peek? h)
  next h => exact identifierExprOf_agree he s hs
  next h =>
    refine .take (.advance (Cursor.rest_of_peek? h)) fun _ t ht => ?_
    refine .bind (he t (ht.fewer hs)) fun inner _ _ => ?_
    exact .bind .expect fun _ _ _ => .pure
  next => exact .fail
  next => exact .unexpected

theorem signRound_agree {k : Nat} (he : AgreeUnder k 1 e e') {r r' : Parser Expr}
    (hr : AgreeUnder k 1 r r') : AgreeUnder (k + 1) 1 (signRound e r) (signRound e' r') := by
  intro s hs
  refine .lookBind ?_
  refine .acceptMapBind (Nat.le_refl 1) (fun op u hu => ?_) (primaryOf_agree he s hs)
  refine .bind (hr u (hu.fewer hs)) fun operand _ _ => ?_
  exact .bind .freshNode fun _ _ _ => .pure

theorem unaryOf_agree (he : AgreeUnder m 1 e e') :
    AgreeUnder (m + 1) 1 (unaryOf e) (unaryOf e') :=
  (unfolds_sign e).agreeUnder (unfolds_sign e')
    (fun _ hk _ _ hr _ => signRound_agree (he.mono (Nat.le_of_lt_succ hk)) (hr ())) ()

theorem multiplicativeOf_agree (he : AgreeUnder m 1 e e') :
    AgreeUnder (m + 1) 1 (multiplicativeOf e) (multiplicativeOf e') :=
  chain_agree (unaryOf_agree he)

theorem additiveOf_agree (he : AgreeUnder m 1 e e') :
    AgreeUnder (m + 1) 1 (additiveOf e) (additiveOf e') :=
  chain_agree (multiplicativeOf_agree he)

theorem comparisonOf_agree (he : AgreeUnder m 1 e e') :
    AgreeUnder (m + 1) 1 (comparisonOf e) (comparisonOf e') := by
  intro s hs
  refine .take (additiveOf_agree he s hs) fun left t ht => ?_
  refine .acceptMapBind (Nat.zero_le 1) (fun op u hu => ?_) .pure
  refine .bind (additiveOf_agree he u (hu.under (ht.under hs))) fun right _ _ => ?_
  refine .bind (.bind .freshNode fun _ _ _ => .pure) fun _ _ _ => .lookBind ?_
  split
  · exact .bind (n := 0) .fail fun _ _ _ => .pure
  · exact .pure

theorem conjunctionOf_agree (he : AgreeUnder m 1 e e') :
    AgreeUnder (m + 1) 1 (conjunctionOf e) (conjunctionOf e') :=
  chain_agree (comparisonOf_agree he)

theorem disjunctionOf_agree (he : AgreeUnder m 1 e e') :
    AgreeUnder (m + 1) 1 (disjunctionOf e) (disjunctionOf e') :=
  chain_agree (conjunctionOf_agree he)

theorem assignmentOf_agree (he : AgreeUnder m 1 e e') :
    AgreeUnder (m + 1) 1 (assignmentOf e) (assignmentOf e') := by
  intro s hs
  refine .take (disjunctionOf_agree he s hs) fun left t ht => .lookBind ?_
  split
  next h =>
    cases left.place? with
    | none => exact .failWith
    | some target =>
      refine .bind (.advance (Cursor.rest_of_check h)) fun _ u hu => ?_
      refine .bind (he u (hu.fewer (Nat.lt_succ_of_lt (ht.fewer hs)))) fun value _ _ => ?_
      exact .bind .freshNode fun _ _ _ => .pure
  next => exact .pure

theorem takes_expression : Takes expression := fun s =>
  unfolds_expression.agreeUnder unfolds_expression
    (fun _ _ _ _ hr _ => assignmentOf_agree (hr ())) () s (Nat.lt_succ_self _)

theorem recursion_expression : Recursion assignmentOf expression :=
  (unfolds_expression.recursionOn fun _ _ _ hr _ => assignmentOf_agree (hr ())).recursion

end

/-! ## Statements and blocks -/

theorem takes_typeSpec : Takes typeSpec := by
  intro s
  refine .acceptMapBind (Nat.le_refl 1) (fun _ _ _ => .pure) ?_
  refine .acceptBind (Nat.le_refl 1) (fun u _ => ?_) .failWith
  exact .bind .identifier fun _ _ _ => .pure

theorem takes_varDecl : Takes varDecl := by
  intro s
  refine .lookBind (.take (takes_typeSpec s) fun type _ _ => ?_)
  exact .bind .identifier fun name _ _ => .bind .expect fun stop _ _ => .pure

theorem takes_finishStatement (start : Span) : Takes (finishStatement start) := fun _ =>
  .take .expect fun _ _ _ => .pure

/-- What ends with the semicolon of a statement. -/
theorem finish_agree {start : Span} {make : Span → Stmt} :
    Agree 0 s (finishStatement start >>= fun span => pure (make span))
      (finishStatement start >>= fun span => pure (make span)) :=
  .bind (takes_finishStatement start s) fun _ _ _ => .pure

theorem finishExpression_agree (start : Span) (e : Expr) :
    Agree 0 s (finishExpression start e) (finishExpression start e) := by
  unfold finishExpression
  split
  · exact finish_agree
  · exact finish_agree
  · exact .failWith

theorem takes_identifierStatement (start : Span) : Takes (identifierStatement start) := by
  intro s
  refine .take (takes_expression s) fun e t _ => ?_
  cases e.place? with
  | none => exact finishExpression_agree start e
  | some target =>
    refine .acceptBind (Nat.zero_le 1) (fun _ _ => finish_agree) ?_
    exact .acceptBind (Nat.zero_le 1) (fun _ _ => finish_agree) (finishExpression_agree start e)

theorem takes_readStatement (start : Span) : Takes (readStatement start) := by
  intro s
  refine .bind .advanceAny fun _ _ _ => .take .expect fun _ t _ => ?_
  refine .bind (takes_expression t) fun e _ _ => ?_
  cases e.place? with
  | none => exact .failWith
  | some target => exact finish_agree

theorem takes_writeStatement (start : Span) : Takes (writeStatement start) := by
  intro s
  refine .bind .advanceAny fun _ _ _ => .take .expect fun _ t _ => ?_
  exact .bind (takes_expression t) fun _ _ _ => finish_agree

theorem takes_returnStatement (start : Span) : Takes (returnStatement start) := by
  intro s
  refine .bind .advanceAny fun _ t _ => .lookBind ?_
  split
  · exact .take (takes_finishStatement start t) fun _ _ _ => .pure
  · exact .take (takes_expression t) fun _ _ _ => finish_agree

theorem takes_condition (message : String) : Takes (condition message) := by
  intro s
  refine .bind .advanceAny fun _ _ _ => .take .expect fun _ t _ => ?_
  exact .bind (takes_expression t) fun _ _ _ => .bind .expect fun _ _ _ => .pure

section

variable {b b' : Parser Body}

theorem ifStatementOf_agree (start : Span) (hb : AgreeUnder m 1 b b') :
    AgreeUnder (m + 1) 1 (ifStatementOf b start) (ifStatementOf b' start) := by
  intro s hs
  refine .take (takes_condition _ s) fun cond t ht => ?_
  refine .bind (hb t (ht.fewer hs)) fun thenBody u hu => ?_
  refine .acceptBind (Nat.zero_le 1) (fun v hv => ?_) (.lookBind .pure)
  exact .bind (hb v (hv.under (hu.under (ht.fewer hs)))) fun _ _ _ => .lookBind .pure

theorem whileStatementOf_agree (start : Span) (hb : AgreeUnder m 1 b b') :
    AgreeUnder (m + 1) 1 (whileStatementOf b start) (whileStatementOf b' start) := by
  intro s hs
  refine .take (takes_condition _ s) fun cond t ht => ?_
  exact .bind (hb t (ht.fewer hs)) fun _ _ _ => .lookBind .pure

theorem statementOf_agree (hb : AgreeUnder m 1 b b') :
    AgreeUnder (m + 1) 1 (statementOf b) (statementOf b') := by
  intro s hs
  refine .lookBind (.lookBind ?_)
  split
  · exact takes_identifierStatement _ s
  · exact takes_readStatement _ s
  · exact takes_writeStatement _ s
  · exact ifStatementOf_agree _ hb s hs
  · exact whileStatementOf_agree _ hb s hs
  · exact takes_returnStatement _ s
  · exact .unexpected

theorem bodyOf_agree (hb : AgreeUnder m 1 b b') :
    AgreeUnder (m + 1) 1 (bodyOf b) (bodyOf b') := by
  intro s hs
  refine .take .expect fun _ t ht => ?_
  have hdecls : AgreeUnder (m + 1) 0 (repeatWhile startsVarDecl varDecl)
      (repeatWhile startsVarDecl varDecl) := repeatWhile_agree (takes_varDecl.under _)
  refine .bind (hdecls t (ht.under hs)) fun decls u hu => ?_
  refine .bind (repeatWhile_agree (statementOf_agree hb) u (hu.under (ht.under hs))) fun _ _ _ => ?_
  exact .bind .expect fun _ _ _ => .pure

end

theorem takes_body : Takes body := fun s =>
  unfolds_body.agreeUnder unfolds_body (fun _ _ _ _ hr _ => bodyOf_agree (hr ())) () s
    (Nat.lt_succ_self _)

theorem recursion_body : Recursion bodyOf body :=
  (unfolds_body.recursionOn fun _ _ _ hr _ => bodyOf_agree (hr ())).recursion

/-! ## Declarations -/

theorem takes_structDecl (start : Span) : Takes (structDecl start) := by
  intro s
  refine .take .identifier fun name _ _ => .bind .expect fun _ t _ => ?_
  refine .bind (repeatWhile_agree (takes_varDecl.under _) t (Nat.lt_succ_self _)) fun _ _ _ => ?_
  split
  · refine .bind (n := 0) .fail fun _ _ _ => ?_
    exact .bind .expect fun _ _ _ => .bind .expect fun _ _ _ => .pure
  · exact .bind .expect fun _ _ _ => .bind .expect fun _ _ _ => .pure

theorem takes_param : Takes param := by
  intro s
  refine .lookBind (.acceptMapBind (Nat.le_refl 1) (fun type _ _ => ?_) .fail)
  exact .bind .identifier fun _ _ _ => .pure

theorem params_agree (s : Cursor) : Agree 0 s params params := by
  refine .lookBind ?_
  split
  · exact .pure
  · exact (commaList_agree (takes_param.under _) s (Nat.lt_succ_self _)).mono (Nat.zero_le 1)

theorem takes_fnDecl (returns : Scalar) (name : Ident) (start : Span) :
    Takes (fnDecl returns name start) := by
  intro s
  refine .take .expect fun _ t _ => .bind (params_agree t) fun _ _ _ => ?_
  exact .bind .expect fun _ u _ => .bind (takes_body u) fun _ _ _ => .lookBind .pure

theorem takes_decl : Takes decl := by
  intro s
  refine .lookBind (.lookBind ?_)
  split
  · exact .bind .advanceAny fun _ t _ => .take (takes_structDecl _ t) fun _ _ _ => .pure
  · refine .take (takes_typeSpec s) fun type _ _ => .bind .identifier fun name t _ => .lookBind ?_
    split
    · cases type with
      | scalar returns => exact .bind (takes_fnDecl returns name _ t) fun _ _ _ => .pure
      | struct name => exact .failWith
    · exact .bind .expect fun _ _ _ => .pure

/-! ## Recursion -/

theorem recursion_repeat (more : Token → Bool) {item : Parser α} (h : Takes item) :
    Recursion (repeatRound more item) (repeatWhile more item) :=
  ((unfolds_repeat more item).recursionOn fun _ _ _ hr _ =>
    repeatRound_agree (h.under _) (hr ())).recursion

theorem recursion_comma {item : Parser α} (h : Takes item) :
    Recursion (commaRound item) (bounded (moreItemsWithin item)) :=
  ((unfolds_comma item).recursionOn fun _ _ _ hr _ =>
    commaRound_agree (h.under _) (hr ())).recursion

theorem recursion_chain (op? : Token → Option BinaryOp) {operand : Parser Expr}
    (h : Takes operand) :
    RecursionOn (chainRound operand op?) fun left => bounded (chainWithin operand op? left) :=
  (unfolds_chain operand op?).recursionOn fun _ _ _ hr => chainRound_agree (h.under _) hr

theorem recursion_fields : RecursionOn fieldsRound fields :=
  unfolds_fields.recursionOn fun _ _ _ hr => fieldsRound_agree hr

theorem recursion_sign : Recursion (signRound expression) (unaryOf expression) :=
  ((unfolds_sign expression).recursionOn fun _ _ _ hr _ =>
    signRound_agree (takes_expression.under _) (hr ())).recursion

/-- What a level calls inside it is `expression`. -/
theorem atLevel_eq {level : Parser Expr → Parser α} {k : Nat}
    (h : ∀ {m e e'}, AgreeUnder m 1 e e' → AgreeUnder m k (level e) (level e')) :
    atLevel level = level expression :=
  unfolds_expression.bounded_eq (fun _ _ _ hr _ => assignmentOf_agree (hr ())) h ()

theorem statement_eq : statement = statementOf body :=
  unfolds_body.bounded_eq (fun _ _ _ hr _ => bodyOf_agree (hr ()))
    (fun h => (statementOf_agree h).mono (Nat.le_succ _)) ()

open Grammar

theorem levelParser_agree {e e' : Parser Expr} (he : AgreeUnder m 1 e e') (l : Level) :
    AgreeUnder (m + 1) 1 (levelParser e l) (levelParser e' l) := by
  cases l with
  | primary => exact primaryOf_agree he
  | unary => exact unaryOf_agree he
  | multiplicative => exact multiplicativeOf_agree he
  | additive => exact additiveOf_agree he
  | comparison => exact comparisonOf_agree he
  | conjunction => exact conjunctionOf_agree he
  | disjunction => exact disjunctionOf_agree he
  | assignment => exact assignmentOf_agree he

/-! ## The operations -/

/-- The operations of the parser. Some are called behind what stood at `start`. -/
inductive Operation where
  | program
  | decl
  | structDecl (start : Span)
  | fnDecl (returns : Scalar) (name : Ident) (start : Span)
  | typeSpec
  | varDecl
  | param
  | body
  | statement
  | identifierStatement (start : Span)
  | readStatement (start : Span)
  | writeStatement (start : Span)
  | ifStatement (start : Span)
  | whileStatement (start : Span)
  | returnStatement (start : Span)
  | finishStatement (start : Span)
  | expression
  | level (l : Level)
  | identifierExpr
  | arguments

/-- The operation that reads the expressions of a level. -/
def levelOperation : Level → Parser Expr
  | .primary => primary
  | .unary => unary
  | .multiplicative => multiplicative
  | .additive => additive
  | .comparison => comparison
  | .conjunction => conjunction
  | .disjunction => disjunction
  | .assignment => assignment

namespace Operation

/-- What an operation reads. -/
def Result : Operation → Type
  | program => Program
  | decl => Decl
  | structDecl _ => StructDecl
  | fnDecl _ _ _ => FnDecl
  | typeSpec => TypeSpec
  | varDecl => VarDecl
  | param => Param
  | body => Body
  | finishStatement _ => Span
  | expression | level _ | identifierExpr => Expr
  | arguments => List Expr
  | statement | identifierStatement _ | readStatement _ | writeStatement _ | ifStatement _
  | whileStatement _ | returnStatement _ => Stmt

def parser : (o : Operation) → Parser o.Result
  | program => Parser.program
  | decl => Parser.decl
  | structDecl start => Parser.structDecl start
  | fnDecl returns name start => Parser.fnDecl returns name start
  | typeSpec => Parser.typeSpec
  | varDecl => Parser.varDecl
  | param => Parser.param
  | body => Parser.body
  | statement => Parser.statement
  | identifierStatement start => Parser.identifierStatement start
  | readStatement start => Parser.readStatement start
  | writeStatement start => Parser.writeStatement start
  | ifStatement start => ifStatementOf Parser.body start
  | whileStatement start => whileStatementOf Parser.body start
  | returnStatement start => Parser.returnStatement start
  | finishStatement start => Parser.finishStatement start
  | expression => Parser.expression
  | level l => levelOperation l
  | identifierExpr => Parser.identifierExpr
  | arguments => Parser.arguments

/-- Where an operation may succeed without a token. -/
def Idles : Operation → Cursor → Prop
  | program, s => s.atEnd = true
  | arguments, s => s.check (.mark .rightParen) = true
  | _, _ => False

end Operation

theorem levelOperation_eq (l : Level) : levelOperation l = levelParser expression l := by
  have h : levelOperation l = atLevel (levelParser · l) := by cases l <;> rfl
  rw [h]
  exact atLevel_eq fun he => (levelParser_agree he l).mono (Nat.le_succ _)

theorem arguments_eq : arguments = argumentsOf expression := atLevel_eq argumentsOf_agree

theorem identifierExpr_eq : identifierExpr = identifierExprOf expression :=
  atLevel_eq fun he => (identifierExprOf_agree he).mono (Nat.le_succ _)

theorem takes_level (l : Level) : Takes (levelParser expression l) := fun s =>
  levelParser_agree (takes_expression.under _) l s (Nat.lt_succ_self s.rest.length)

theorem takes_ifStatement (start : Span) : Takes (ifStatementOf body start) := fun s =>
  ifStatementOf_agree start (takes_body.under _) s (Nat.lt_succ_self s.rest.length)

theorem takes_whileStatement (start : Span) : Takes (whileStatementOf body start) := fun s =>
  whileStatementOf_agree start (takes_body.under _) s (Nat.lt_succ_self s.rest.length)

theorem takes_statement : Takes statement := by
  rw [statement_eq]
  exact fun s => statementOf_agree (takes_body.under _) s (Nat.lt_succ_self s.rest.length)

theorem program_agree (s : Cursor) : Agree 0 s program program :=
  .bind (repeatWhile_agree (takes_decl.under _) s (Nat.lt_succ_self _)) fun _ _ _ => .lookBind .pure

/-- Before the end a program has a declaration. -/
theorem program_takes (h : s.atEnd ≠ true) : Agree 1 s program program := by
  obtain ⟨last, rest, nextId⟩ := s
  cases rest with
  | nil => exact absurd rfl h
  | cons l rest =>
    -- the first round, whose declaration is there, and the rounds behind it
    have hround : Agree 1 ⟨last, l :: rest, nextId⟩
        (repeatRound (fun _ => true) decl (repeatWithin (fun _ => true) decl rest))
        (repeatRound (fun _ => true) decl (repeatWithin (fun _ => true) decl rest)) := by
      refine .lookBind (.take (takes_decl _) fun d t ht => ?_)
      have hbound : t.rest.length ≤ rest.length :=
        Nat.le_of_lt_succ (ht.fewer (Nat.lt_succ_self _))
      have hrounds := unfolds_repeat (fun _ => true) decl
      have hmore := hrounds.agree hrounds
        (fun _ _ _ _ hr _ => repeatRound_agree (takes_decl.under _) (hr ())) ()
        (Nat.lt_succ_self t.rest.length) hbound hbound
      exact .bind hmore fun _ _ _ => .pure
    exact .take ⟨hround.eq, hround.moves⟩ fun _ _ _ => .lookBind .pure

theorem argumentsOf_takes (h : s.check (.mark .rightParen) ≠ true) :
    Agree 1 s (argumentsOf expression) (argumentsOf expression) := by
  refine .lookBind ?_
  rw [if_neg h]
  exact commaList_agree (takes_expression.under _) s (Nat.lt_succ_self _)

namespace Operation

theorem takes (o : Operation) (h : ¬ o.Idles s) : Agree 1 s o.parser o.parser := by
  cases o with
  | program => exact program_takes h
  | decl => exact takes_decl s
  | structDecl start => exact takes_structDecl start s
  | fnDecl returns name start => exact takes_fnDecl returns name start s
  | typeSpec => exact takes_typeSpec s
  | varDecl => exact takes_varDecl s
  | param => exact takes_param s
  | body => exact takes_body s
  | statement => exact takes_statement s
  | identifierStatement start => exact takes_identifierStatement start s
  | readStatement start => exact takes_readStatement start s
  | writeStatement start => exact takes_writeStatement start s
  | ifStatement start => exact takes_ifStatement start s
  | whileStatement start => exact takes_whileStatement start s
  | returnStatement start => exact takes_returnStatement start s
  | finishStatement start => exact takes_finishStatement start s
  | expression => exact takes_expression s
  | level l =>
    show Agree 1 s (levelOperation l) (levelOperation l)
    rw [levelOperation_eq]
    exact takes_level l s
  | identifierExpr =>
    show Agree 1 s Parser.identifierExpr Parser.identifierExpr
    rw [identifierExpr_eq]
    exact identifierExprOf_agree (takes_expression.under _) s (Nat.lt_succ_self _)
  | arguments =>
    show Agree 1 s Parser.arguments Parser.arguments
    rw [arguments_eq]
    exact argumentsOf_takes h

theorem forward (o : Operation) (s : Cursor) : Agree 0 s o.parser o.parser := by
  by_cases h : o.Idles s
  · cases o with
    | program => exact program_agree s
    | arguments =>
      show Agree 0 s Parser.arguments Parser.arguments
      rw [arguments_eq]
      exact argumentsOf_agree (takes_expression.under _) s (Nat.lt_succ_self _)
    | _ => exact absurd h id
  · exact (o.takes h).mono (Nat.zero_le 1)

end Operation

/-- The cursor that a parser leaves behind, also where it fails. -/
def left (p : Parser α) (s : Cursor) : Cursor :=
  match p s with
  | .ok _ t => t
  | .error _ t => t

def Succeeds (p : Parser α) (s : Cursor) : Prop := ∃ a t, p s = .ok a t

theorem Agree.ahead {p : Parser α} (h : Agree n s p p) (hp : Succeeds p s) :
    s.Ahead n (left p s) := by
  obtain ⟨a, t, hp⟩ := hp
  have hmoves := h.moves
  rw [hp] at hmoves
  rw [left, hp]
  exact hmoves

theorem Agree.ahead_zero {p : Parser α} (h : Agree n s p p) : s.Ahead 0 (left p s) := by
  have hmoves := h.moves
  rw [left]
  cases hp : p s with
  | ok a t =>
    rw [hp] at hmoves
    exact hmoves.mono (Nat.zero_le n)
  | error e t =>
    rw [hp] at hmoves
    exact hmoves

end Parser

namespace Cursor.At

variable {ls : List Lexeme} {i n : Nat} {s t : Cursor}

theorem le_length (h : s.At ls i) : i ≤ ls.length := by
  cases i with
  | zero => exact Nat.zero_le _
  | succ k =>
    obtain ⟨l, hl, -⟩ := h.last k rfl
    exact (List.getElem?_eq_some_iff.1 hl).1

theorem ahead (h : s.At ls i) (ht : s.Ahead n t) : ∃ j, i + n ≤ j ∧ t.At ls j := by
  obtain ⟨⟨read, hread, hn, hlast⟩, -⟩ := ht
  have hdrop : ls.drop i = read ++ t.rest := h.rest.symm.trans hread
  refine ⟨i + read.length, Nat.add_le_add_left hn i, ?_, ?_⟩
  · rw [← List.drop_drop, hdrop, List.drop_left]
  · rcases List.eq_nil_or_concat read with rfl | ⟨read, l, rfl⟩
    · rw [hlast]
      exact h.last
    · intro k hk
      rw [List.length_concat, ← Nat.add_assoc] at hk
      obtain rfl := Nat.succ.inj hk
      refine ⟨l, ?_, ?_⟩
      · rw [← List.getElem?_drop, hdrop]
        simp
      · rw [hlast]
        simp

end Cursor.At

open FlatC.Parser FlatC.Grammar

/-- **The parser terminates and goes forward.** Its recursion is on the tokens that are left: each
operation that calls itself, and each round of its loops, goes on only with fewer of them. And no
operation goes back, or past the end, or lowers the next id, and where it succeeds it has read a
token; only arguments may be none, in front of a parenthesis, and a program, at the end. -/
theorem parser_goes_forward :
    (Recursion assignmentOf expression ∧ (∀ l, levelOperation l = levelParser expression l) ∧
      arguments = argumentsOf expression ∧ identifierExpr = identifierExprOf expression ∧
      Recursion (signRound expression) (levelOperation .unary) ∧
      Recursion bodyOf body ∧ statement = statementOf body) ∧
    (Recursion (repeatRound (fun _ => true) decl) (repeatWhile (fun _ => true) decl) ∧
      Recursion (repeatRound startsVarDecl varDecl) (repeatWhile startsVarDecl varDecl) ∧
      Recursion (repeatRound (!·.sameKind (.mark .rightBrace)) statement)
        (repeatWhile (!·.sameKind (.mark .rightBrace)) statement) ∧
      Recursion (commaRound param) (bounded (moreItemsWithin param)) ∧
      Recursion (commaRound expression) (bounded (moreItemsWithin expression)) ∧
      (∀ l o, Level.operand? l = some o →
        RecursionOn (chainRound (levelOperation o) l.op?)
          fun left => bounded (chainWithin (levelOperation o) l.op? left)) ∧
      RecursionOn fieldsRound fields) ∧
    ∀ (o : Operation) (ls : List Lexeme) (i : Nat) (s : Cursor), s.At ls i →
      ∃ j, i ≤ j ∧ j ≤ ls.length ∧ (left o.parser s).At ls j ∧
        s.nextId ≤ (left o.parser s).nextId ∧ (Succeeds o.parser s → i < j ∨ o.Idles s) := by
  refine ⟨⟨recursion_expression, levelOperation_eq, arguments_eq, identifierExpr_eq, ?_,
    recursion_body, statement_eq⟩, ⟨recursion_repeat _ takes_decl, recursion_repeat _ takes_varDecl,
    recursion_repeat _ takes_statement, recursion_comma takes_param,
    recursion_comma takes_expression, ?_, recursion_fields⟩, ?_⟩
  · rw [levelOperation_eq]
    exact recursion_sign
  · intro l o _
    rw [levelOperation_eq]
    exact recursion_chain l.op? (takes_level o)
  · intro o ls i s hs
    by_cases h : Succeeds o.parser s ∧ ¬ o.Idles s
    · have ht := (o.takes h.2).ahead h.1
      obtain ⟨j, hij, hj⟩ := hs.ahead ht
      exact ⟨j, Nat.le_of_succ_le hij, hj.le_length, hj, ht.nextId, fun _ => .inl hij⟩
    · have ht := (o.forward s).ahead_zero
      obtain ⟨j, hij, hj⟩ := hs.ahead ht
      refine ⟨j, hij, hj.le_length, hj, ht.nextId, fun hok => .inr ?_⟩
      exact Classical.byContradiction fun hidles => h ⟨hok, hidles⟩

/-- The tokens `) x ++ ;`, from the second on. -/
theorem parser_goes_forward_inside :
    let ls : List Lexeme := [⟨.mark .rightParen, ⟨0, 1⟩⟩, ⟨.ident "x", ⟨2, 3⟩⟩,
      ⟨.mark .plusPlus, ⟨3, 5⟩⟩, ⟨.mark .semicolon, ⟨5, 6⟩⟩]
    let s : Cursor := ⟨some ⟨0, 1⟩, ls.drop 1, 7⟩
    s.At ls 1 ∧ Succeeds statement s ∧ ¬ Succeeds decl s ∧
      (∃ j, 1 < j ∧ j ≤ 4 ∧ (left statement s).At ls j ∧ 7 ≤ (left statement s).nextId) ∧
      ∃ j, 1 ≤ j ∧ j ≤ 4 ∧ (left decl s).At ls j ∧ 7 ≤ (left decl s).nextId := by
  intro ls s
  have hs : s.At ls 1 := by
    refine ⟨rfl, fun k hk => ?_⟩
    obtain rfl := Nat.succ.inj hk
    exact ⟨_, rfl, rfl⟩
  have hok : Succeeds statement s := ⟨_, _, rfl⟩
  have hfail : ¬ Succeeds decl s := by
    rintro ⟨d, t, h⟩
    cases h
  obtain ⟨j, -, hj, ht, hid, htake⟩ := parser_goes_forward.2.2 .statement ls 1 s hs
  obtain ⟨k, hk, hk', hu, hid', -⟩ := parser_goes_forward.2.2 .decl ls 1 s hs
  exact ⟨hs, hok, hfail, ⟨j, (htake hok).resolve_right id, hj, ht, hid⟩, ⟨k, hk, hk', hu, hid'⟩⟩

end FlatC
