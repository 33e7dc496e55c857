import FlatC.Proofs.Syntax.Steps

/-!
# The parser reads the grammar

Whatever the parser accepts, the grammar derives: the tokens that an operation took
spell its result, with the ids that it handed out (`parse_sound`). The levels are
taken one by one, each for any parser of nested expressions that is sound.
-/

namespace FlatC

namespace Grammar

variable {n m : NodeId} {ts : List Token}

/-! ## Derivations that start or end in a certain way -/

/-- The phrases that take a token at least. -/
def Phrase.Solid : Phrase → Prop
  | place _ | target _ | expr _ _ => True
  | _ => False

theorem Reads.ne_nil {x : Phrase} (hx : x.Solid) (h : Reads n ts x m) : ts ≠ [] := by
  induction h <;> simp_all [Phrase.Solid]

/-- A chain ends with its left operand or with an operation. -/
theorem Reads.chain_result {l : Level} {left e : Expr} (h : Reads n ts (.chain l left e) m) :
    (e = left ∧ ts = [] ∧ m = n) ∨ ∃ node op a b, e = .binary node op a b := by
  generalize hx : Phrase.chain l left e = x at h
  induction h generalizing l left e with
  | chainNil => cases hx; exact .inl ⟨rfl, rfl, rfl⟩
  | chainCons s _ _ _ _ _ ih =>
    cases hx
    obtain ⟨rfl, -, -⟩ | h := ih rfl
    · exact .inr ⟨_, _, _, _, rfl⟩
    · exact .inr h
  | _ => cases hx

/-- An expression that is a place is that place in parentheses. -/
theorem Reads.target_of_expr {l : Level} {p : Place} (h : Reads n ts (.expr l (.place p)) m) :
    Reads n ts (.target p) m := by
  generalize hx : Phrase.expr l (.place p) = x at h
  induction h generalizing l with
  | placeExpr h => cases hx; exact .target h
  | paren _ ih => cases hx; exact .targetParen (ih rfl)
  | primary _ ih => cases hx; exact ih rfl
  | chain _ _ hc ih =>
    cases hx
    obtain ⟨rfl, rfl, rfl⟩ | ⟨_, _, _, _, he⟩ := hc.chain_result
    · rw [List.append_nil]; exact ih rfl
    · cases he
  | operand _ ih => cases hx; exact ih rfl
  | disjunction _ ih => cases hx; exact ih rfl
  | _ => cases hx

theorem Reads.place_of_target {x : String} {p : Place}
    (h : Reads n (.ident x :: ts) (.target p) m) : Reads n (.ident x :: ts) (.place p) m := by
  generalize hx : Phrase.target p = y at h
  generalize hz : Token.ident x :: ts = us at h
  cases h with
  | target h => cases hx; exact h
  | targetParen => cases hz
  | _ => cases hx

/-- An assignment that starts with a name is not in parentheses. -/
theorem Reads.assign_of_ident {x : String} {l : Level} {node : Node} {p : Place} {e : Expr}
    (h : Reads n (.ident x :: ts) (.expr l (.assign node p e)) m) :
    ∃ us vs k s, .ident x :: ts = us ++ .mark .equal :: vs ∧ node = ⟨k, s⟩ ∧ m = k + 1 ∧
      ∃ j, Reads n us (.place p) j ∧ ReadsExpr j vs e k := by
  generalize hx : Phrase.expr l (.assign node p e) = y at h
  generalize hz : Token.ident x :: ts = us at h
  induction h generalizing l ts with
  | primary _ ih => cases hx; exact ih rfl hz
  | chain _ h hc ih =>
    cases hx
    obtain ⟨rfl, rfl, rfl⟩ | ⟨_, _, _, _, he⟩ := hc.chain_result
    · rw [List.append_nil] at hz ⊢; exact ih rfl hz
    · cases he
  | operand _ ih => cases hx; exact ih rfl hz
  | disjunction _ ih => cases hx; exact ih rfl hz
  | @assign n j k us vs p e s hp he =>
    cases hx
    cases us with
    | nil => exact absurd rfl (hp.ne_nil (by trivial))
    | cons t us =>
      simp only [List.cons_append, List.cons.injEq] at hz
      obtain ⟨rfl, -⟩ := hz
      exact ⟨_, vs, k, s, rfl, rfl, rfl, j, hp.place_of_target, he⟩
  | paren => cases hz
  | _ => cases hx

/-- A call that starts with a name is not in parentheses. -/
theorem Reads.call_of_ident {x : String} {l : Level} {node : Node} {c : Ident} {es : List Expr}
    (h : Reads n (.ident x :: ts) (.expr l (.call node c es)) m) :
    ∃ us k s s', ts = .mark .leftParen :: (us ++ [.mark .rightParen]) ∧ node = ⟨k, s⟩ ∧
      c = ⟨n, x, s'⟩ ∧ m = k + 1 ∧ Reads (n + 1) us (.args es) k := by
  generalize hx : Phrase.expr l (.call node c es) = y at h
  generalize hz : Token.ident x :: ts = us at h
  induction h generalizing l ts with
  | call s s' h => cases hx; cases hz; exact ⟨_, _, s, s', rfl, rfl, rfl, rfl, h⟩
  | primary _ ih => cases hx; exact ih rfl hz
  | chain _ h hc ih =>
    cases hx
    obtain ⟨rfl, rfl, rfl⟩ | ⟨_, _, _, _, he⟩ := hc.chain_result
    · rw [List.append_nil] at hz; exact ih rfl hz
    · cases he
  | operand _ ih => cases hx; exact ih rfl hz
  | disjunction _ ih => cases hx; exact ih rfl hz
  | paren => cases hz
  | _ => cases hx

end Grammar

namespace Parser

open Grammar

/-- The tokens that `p` takes spell its result, in the sense of `R`. -/
def Sound {α : Type} (R : NodeId → List Token → α → NodeId → Prop) (p : Parser α) : Prop :=
  ∀ s a s', p s = .ok a s' → ∃ ts, s.tokens = ts ++ s'.tokens ∧ R s.nextId ts a s'.nextId

/-- As `Sound`, for expressions of a level. -/
abbrev SoundAt (l : Level) (p : Parser Expr) : Prop := Sound (fun n ts e m => Reads n ts (.expr l e) m) p

/-! ## Repetition -/

theorem repeatWithin_sound {α : Type} {R : NodeId → List Token → α → NodeId → Prop}
    {more : Token → Bool} {item : Parser α} (hi : Sound R item) (bound : List Lexeme) :
    Sound (ReadsMany R) (repeatWithin more item bound) := by
  induction bound with
  | nil =>
    intro s as s' h
    obtain ⟨rfl, rfl⟩ := pure_ok.1 h
    exact ⟨[], rfl, .nil⟩
  | cons l bound ih =>
    intro s as s' h
    simp only [repeatWithin, bind_ok, look_ok] at h
    obtain ⟨_, _, ⟨rfl, rfl⟩, h⟩ := h
    split at h
    · simp only [bind_ok, pure_ok] at h
      obtain ⟨a, s1, ha, as, s2, has, rfl, rfl⟩ := h
      obtain ⟨ts, hts, hR⟩ := hi _ _ _ ha
      obtain ⟨us, hus, hRs⟩ := ih _ _ _ has
      exact ⟨ts ++ us, by rw [hts, hus, List.append_assoc], .cons hR hRs⟩
    · obtain ⟨rfl, rfl⟩ := pure_ok.1 h
      exact ⟨[], rfl, .nil⟩

theorem repeatWhile_sound {α : Type} {R : NodeId → List Token → α → NodeId → Prop}
    {more : Token → Bool} {item : Parser α} (hi : Sound R item) :
    Sound (ReadsMany R) (repeatWhile more item) :=
  fun s a s' h => repeatWithin_sound hi s.rest s a s' h

/-! ## Expressions -/

section Levels

variable {nested : Parser Expr} (hn : SoundAt .assignment nested)

theorem fieldsWithin_sound (bound : List Lexeme) : ∀ base : Place,
    Sound (fun n ts p m => Reads n ts (.fields base p) m) (fieldsWithin base bound) := by
  induction bound with
  | nil =>
    intro base s p s' h
    obtain ⟨rfl, rfl⟩ := pure_ok.1 h
    exact ⟨[], rfl, .fieldsNil⟩
  | cons l bound ih =>
    intro base s p s' h
    simp only [fieldsWithin, bind_ok] at h
    obtain ⟨b, s1, ha, h⟩ := h
    obtain ⟨rfl, ht, hid⟩ | ⟨rfl, rfl⟩ := accept_ok (Token.fixed_mark _) ha
    · simp only [if_true, bind_ok, freshNode_ok] at h
      obtain ⟨i, s2, hi, node, s3, ⟨rfl, rfl⟩, h⟩ := h
      obtain ⟨x, span, rfl, hts, hid'⟩ := identifier_ok hi
      obtain ⟨us, hus, hR⟩ := ih _ _ _ _ h
      refine ⟨.mark .dot :: .ident x :: us, ?_, ?_⟩
      · rw [ht, hts]; simpa [Cursor.tokens] using hus
      · simp only [hid', hid] at hR
        exact .fieldsCons _ _ hR
    · obtain ⟨rfl, rfl⟩ := pure_ok.1 h
      exact ⟨[], rfl, .fieldsNil⟩

include hn

theorem moreItemsWithin_sound (bound : List Lexeme) :
    Sound (fun n ts es m => Reads n ts (.moreArgs es) m) (moreItemsWithin nested bound) := by
  induction bound with
  | nil =>
    intro s es s' h
    obtain ⟨rfl, rfl⟩ := pure_ok.1 h
    exact ⟨[], rfl, .moreNil⟩
  | cons l bound ih =>
    intro s es s' h
    simp only [moreItemsWithin, bind_ok] at h
    obtain ⟨b, s1, ha, h⟩ := h
    obtain ⟨rfl, ht, hid⟩ | ⟨rfl, rfl⟩ := accept_ok (Token.fixed_mark _) ha
    · simp only [if_true, bind_ok, pure_ok] at h
      obtain ⟨e, s2, he, es, s3, hes, rfl, rfl⟩ := h
      obtain ⟨ts, hts, hR⟩ := hn _ _ _ he
      obtain ⟨us, hus, hRs⟩ := ih _ _ _ hes
      refine ⟨.mark .comma :: (ts ++ us), by rw [ht, hts, hus]; simp, ?_⟩
      rw [hid] at hR
      exact .moreCons hR hRs
    · obtain ⟨rfl, rfl⟩ := pure_ok.1 h
      exact ⟨[], rfl, .moreNil⟩

theorem argumentsOf_sound :
    Sound (fun n ts es m => Reads n ts (.args es) m) (argumentsOf nested) := by
  intro s es s' h
  simp only [argumentsOf, bind_ok, look_ok] at h
  obtain ⟨_, _, ⟨rfl, rfl⟩, h⟩ := h
  split at h
  · obtain ⟨rfl, rfl⟩ := pure_ok.1 h
    exact ⟨[], rfl, .argsNil⟩
  · simp only [commaList, bind_ok, pure_ok] at h
    obtain ⟨e, s1, he, es, s2, hes, rfl, rfl⟩ := h
    obtain ⟨ts, hts, hR⟩ := hn _ _ _ he
    obtain ⟨us, hus, hRs⟩ := moreItemsWithin_sound hn _ _ _ _ (bounded_ok hes)
    exact ⟨ts ++ us, by rw [hts, hus, List.append_assoc], .argsCons hR hRs⟩

theorem identifierExprOf_sound : SoundAt .primary (identifierExprOf nested) := by
  intro s e s' h
  simp only [identifierExprOf, bind_ok] at h
  obtain ⟨i, s1, hi, b, s2, hb, h⟩ := h
  obtain ⟨x, span, rfl, hts, hid⟩ := identifier_ok hi
  obtain ⟨rfl, ht, hid'⟩ | ⟨rfl, rfl⟩ := accept_ok (Token.fixed_mark _) hb
  · simp only [if_true, bind_ok, freshNode_ok, pure_ok] at h
    obtain ⟨es, s3, hes, stop, s4, hstop, node, s5, ⟨rfl, rfl⟩, rfl, rfl⟩ := h
    obtain ⟨us, hus, hR⟩ := argumentsOf_sound hn _ _ _ hes
    obtain ⟨hrp, hid''⟩ := expectMark_ok hstop
    refine ⟨.ident x :: .mark .leftParen :: (us ++ [Token.mark .rightParen]), ?_, ?_⟩
    · rw [hts, ht, hus, hrp]; simp [Cursor.tokens]
    · simp only [hid'']
      rw [hid', hid] at hR
      exact .call _ _ hR
  · simp only [Bool.false_eq_true, if_false, bind_ok, freshNode_ok, pure_ok] at h
    obtain ⟨node, s3, ⟨rfl, rfl⟩, p, s4, hp, rfl, rfl⟩ := h
    obtain ⟨us, hus, hR⟩ := fieldsWithin_sound _ _ _ _ _ (bounded_ok hp)
    refine ⟨.ident x :: us, ?_, ?_⟩
    · rw [hts]; simpa [Cursor.tokens] using hus
    · simp only [hid] at hR
      exact .placeExpr (.place _ _ hR)

omit hn in
/-- A literal takes the token that was seen. -/
theorem literal_ok {make : Node → Expr} {t : Token} {s s' : Cursor} {e : Expr}
    (ht : s.peek? = some t) (h : literal make s = .ok e s') :
    s.tokens = t :: s'.tokens ∧ (∃ span, e = make ⟨s.nextId, span⟩) ∧ s'.nextId = s.nextId + 1 := by
  simp only [literal, bind_ok, look_ok, freshNode_ok, pure_ok] at h
  obtain ⟨span, _, ⟨rfl, rfl⟩, r, s1, ha, node, s2, ⟨rfl, rfl⟩, rfl, rfl⟩ := h
  obtain ⟨hts, hid⟩ := advance_ok ht ha
  exact ⟨by simpa [Cursor.tokens] using hts, ⟨_, by rw [hid]⟩, by simp [hid]⟩

theorem primaryOf_sound : SoundAt .primary (primaryOf nested) := by
  intro s e s' h
  simp only [primaryOf, bind_ok, look_ok] at h
  obtain ⟨t?, _, ⟨ht, rfl⟩, h⟩ := h
  split at h
  next v =>
    obtain ⟨hts, ⟨span, rfl⟩, hid⟩ := literal_ok ht h
    exact ⟨_, hts, by rw [hid]; exact .int span⟩
  next x =>
    obtain ⟨hts, ⟨span, rfl⟩, hid⟩ := literal_ok ht h
    exact ⟨_, hts, by rw [hid]; exact .str span⟩
  next =>
    obtain ⟨hts, ⟨span, rfl⟩, hid⟩ := literal_ok ht h
    exact ⟨_, hts, by rw [hid]; exact .trueWord span⟩
  next =>
    obtain ⟨hts, ⟨span, rfl⟩, hid⟩ := literal_ok ht h
    exact ⟨_, hts, by rw [hid]; exact .falseWord span⟩
  next => exact identifierExprOf_sound hn _ _ _ h
  next =>
    simp only [bind_ok, pure_ok] at h
    obtain ⟨_, s1, ha, e', s2, he, _, s3, hstop, rfl, rfl⟩ := h
    obtain ⟨hts, hid⟩ := advance_ok ht ha
    obtain ⟨us, hus, hR⟩ := hn _ _ _ he
    obtain ⟨hrp, hid'⟩ := expectMark_ok hstop
    refine ⟨.mark .leftParen :: (us ++ [Token.mark .rightParen]), by rw [hts, hus, hrp]; simp, ?_⟩
    rw [hid'] ; rw [hid] at hR
    exact .paren hR
  next => exact absurd h fail_ne_ok
  next => exact absurd h unexpected_ne_ok

theorem unaryWithin_sound (bound : List Lexeme) : SoundAt .unary (unaryWithin nested bound) := by
  induction bound with
  | nil =>
    intro s e s' h
    obtain ⟨ts, hts, hR⟩ := primaryOf_sound hn _ _ _ h
    exact ⟨ts, hts, .primary hR⟩
  | cons l bound ih =>
    intro s e s' h
    simp only [unaryWithin, bind_ok, look_ok] at h
    obtain ⟨span, _, ⟨-, rfl⟩, r, s1, ha, h⟩ := h
    obtain ⟨t, op, rfl, hop, ht, hid⟩ | ⟨rfl, rfl⟩ := acceptMap_ok ha
    · simp only [bind_ok, freshNode_ok, pure_ok] at h
      obtain ⟨e', s2, he, node, s3, ⟨rfl, rfl⟩, rfl, rfl⟩ := h
      obtain ⟨us, hus, hR⟩ := ih _ _ _ he
      refine ⟨t :: us, by rw [ht, hus]; simp [Cursor.tokens], ?_⟩
      rw [hid] at hR
      exact .sign _ hop hR
    · obtain ⟨ts, hts, hR⟩ := primaryOf_sound hn _ _ _ h
      exact ⟨ts, hts, .primary hR⟩

theorem unaryOf_sound : SoundAt .unary (unaryOf nested) :=
  fun s e s' h => unaryWithin_sound hn s.rest s e s' h

omit hn in
theorem chainWithin_sound {l o : Level} (ho : l.operand? = some o) {operand : Parser Expr}
    (hp : SoundAt o operand) (bound : List Lexeme) : ∀ left : Expr,
    Sound (fun n ts e m => Reads n ts (.chain l left e) m)
      (chainWithin operand l.op? left bound) := by
  induction bound with
  | nil =>
    intro left s e s' h
    obtain ⟨rfl, rfl⟩ := pure_ok.1 h
    exact ⟨[], rfl, .chainNil⟩
  | cons lx bound ih =>
    intro left s e s' h
    simp only [chainWithin, bind_ok] at h
    obtain ⟨r, s1, ha, h⟩ := h
    obtain ⟨t, op, rfl, hop, ht, hid⟩ | ⟨rfl, rfl⟩ := acceptMap_ok ha
    · simp only [bind_ok, binary, freshNode_ok, pure_ok] at h
      obtain ⟨right, s2, hr, b, s3, ⟨node, s4, ⟨rfl, rfl⟩, rfl, rfl⟩, h⟩ := h
      obtain ⟨ts, hts, hR⟩ := hp _ _ _ hr
      obtain ⟨us, hus, hRs⟩ := ih _ _ _ _ h
      refine ⟨t :: (ts ++ us), ?_, ?_⟩
      · rw [ht, hts]
        simpa [Cursor.tokens] using hus
      · rw [hid] at hR
        exact .chainCons _ ho hop hR hRs
    · obtain ⟨rfl, rfl⟩ := pure_ok.1 h
      exact ⟨[], rfl, .chainNil⟩

omit hn in
theorem chain_sound {l o : Level} (ho : l.operand? = some o) {operand : Parser Expr}
    (hp : SoundAt o operand) : SoundAt l (chain operand l.op?) := by
  intro s e s' h
  simp only [chain, bind_ok] at h
  obtain ⟨left, s1, hl, h⟩ := h
  obtain ⟨ts, hts, hR⟩ := hp _ _ _ hl
  obtain ⟨us, hus, hRs⟩ := chainWithin_sound ho hp _ _ _ _ _ (bounded_ok h)
  exact ⟨ts ++ us, by rw [hts, hus, List.append_assoc], .chain ho hR hRs⟩

theorem multiplicativeOf_sound : SoundAt .multiplicative (multiplicativeOf nested) :=
  chain_sound rfl (unaryOf_sound hn)

theorem additiveOf_sound : SoundAt .additive (additiveOf nested) :=
  chain_sound rfl (multiplicativeOf_sound hn)

theorem comparisonOf_sound : SoundAt .comparison (comparisonOf nested) := by
  intro s e s' h
  simp only [comparisonOf, bind_ok] at h
  obtain ⟨left, s1, hl, r, s2, ha, h⟩ := h
  obtain ⟨ts, hts, hL⟩ := additiveOf_sound hn _ _ _ hl
  obtain ⟨t, op, rfl, hop, ht, hid⟩ | ⟨rfl, rfl⟩ := acceptMap_ok ha
  · simp only [bind_ok, binary, freshNode_ok, pure_ok, look_ok] at h
    obtain ⟨right, s3, hr, e', s4, ⟨node, s5, ⟨rfl, rfl⟩, rfl, rfl⟩, b, _, ⟨-, rfl⟩, h⟩ := h
    obtain ⟨us, hus, hR⟩ := additiveOf_sound hn _ _ _ hr
    split at h
    · simp only [bind_ok, fail_ne_ok, false_and, exists_false] at h
    · simp only [pure_ok] at h
      obtain ⟨rfl, rfl⟩ := h
      refine ⟨ts ++ t :: us, by rw [hts, ht, hus]; simp [Cursor.tokens], ?_⟩
      rw [hid] at hR
      exact .comparison _ hop hL hR
  · obtain ⟨rfl, rfl⟩ := pure_ok.1 h
    exact ⟨ts, hts, .operand hL⟩

theorem conjunctionOf_sound : SoundAt .conjunction (conjunctionOf nested) :=
  chain_sound rfl (comparisonOf_sound hn)

theorem disjunctionOf_sound : SoundAt .disjunction (disjunctionOf nested) :=
  chain_sound rfl (conjunctionOf_sound hn)

theorem assignmentOf_sound : SoundAt .assignment (assignmentOf nested) := by
  intro s e s' h
  simp only [assignmentOf, bind_ok, look_ok] at h
  obtain ⟨left, s1, hl, b, _, ⟨hb, rfl⟩, h⟩ := h
  obtain ⟨ts, hts, hL⟩ := disjunctionOf_sound hn _ _ _ hl
  split at h
  next hc =>
    subst hc
    have heq := Cursor.tokens_of_head ((Cursor.check_iff (Token.fixed_mark _)).1 hb)
    cases hp : left.place? with
    | none => rw [hp] at h; exact absurd h failWith_ne_ok
    | some p =>
      have hp' : left = .place p := by
        cases left <;> simp_all [Expr.place?]
      subst hp'
      simp only [Expr.place?, bind_ok, freshNode_ok, pure_ok] at h
      obtain ⟨_, s2, ha, v, s3, hv, node, s4, ⟨rfl, rfl⟩, rfl, rfl⟩ := h
      cases ha
      obtain ⟨us, hus, hV⟩ := hn _ _ _ hv
      refine ⟨ts ++ Token.mark .equal :: us, by rw [hts, heq, hus]; simp [Cursor.tokens], ?_⟩
      rw [Cursor.nextId_next] at hV
      exact .assign _ hL.target_of_expr hV
  next =>
    obtain ⟨rfl, rfl⟩ := pure_ok.1 h
    exact ⟨ts, hts, .disjunction hL⟩

end Levels

theorem expressionWithin_sound (bound : List Lexeme) :
    SoundAt .assignment (expressionWithin bound) := by
  induction bound with
  | nil => intro s e s' h; exact absurd h unexpected_ne_ok
  | cons l bound ih => exact assignmentOf_sound ih

theorem expression_sound : SoundAt .assignment expression :=
  fun s e s' h => expressionWithin_sound s.rest s e s' h

/-! ## Statements and blocks -/

theorem typeSpec_sound : Sound ReadsType typeSpec := by
  intro s type s' h
  simp only [typeSpec, bind_ok] at h
  obtain ⟨r, s1, ha, h⟩ := h
  obtain ⟨t, sc, rfl, hsc, ht, hid⟩ | ⟨rfl, rfl⟩ := acceptMap_ok ha
  · obtain ⟨rfl, rfl⟩ := pure_ok.1 h
    exact ⟨[t], ht, by rw [hid]; exact .scalar hsc⟩
  · simp only [bind_ok] at h
    obtain ⟨b, s2, hb, h⟩ := h
    obtain ⟨rfl, ht, hid⟩ | ⟨rfl, rfl⟩ := accept_ok (Token.fixed_word _) hb
    · simp only [if_true, bind_ok, pure_ok] at h
      obtain ⟨i, s3, hi, rfl, rfl⟩ := h
      obtain ⟨x, span, rfl, hts, hid'⟩ := identifier_ok hi
      exact ⟨[.word .struct, .ident x], by rw [ht, hts]; rfl, by rw [hid', hid]; exact .struct span⟩
    · simp only [Bool.false_eq_true, if_false, failWith_ne_ok] at h

theorem varDecl_sound : Sound ReadsVar varDecl := by
  intro s d s' h
  simp only [varDecl, bind_ok, look_ok, pure_ok] at h
  obtain ⟨start, _, ⟨-, rfl⟩, type, s1, ht, i, s2, hi, stop, s3, hstop, rfl, rfl⟩ := h
  obtain ⟨ts, hts, hT⟩ := typeSpec_sound _ _ _ ht
  obtain ⟨x, span, rfl, hx, hid⟩ := identifier_ok hi
  obtain ⟨hsemi, hid'⟩ := expectMark_ok hstop
  refine ⟨ts ++ [Token.ident x, .mark .semicolon], by rw [hts, hx, hsemi]; simp, ?_⟩
  rw [hid', hid]
  exact .mk _ _ hT

theorem finishStatement_ok {start span : Span} {s s' : Cursor}
    (h : finishStatement start s = .ok span s') :
    s.tokens = .mark .semicolon :: s'.tokens ∧ s'.nextId = s.nextId := by
  simp only [finishStatement, bind_ok, pure_ok] at h
  obtain ⟨stop, s1, hstop, -, rfl⟩ := h
  exact expectMark_ok hstop

/-- A statement, in the sense of `Sound`. -/
abbrev SoundStmt (p : Parser Stmt) : Prop := Sound (fun n ts st m => ReadsStmt n ts (.stmt st) m) p

/-- The tokens that start with a token that was seen. -/
theorem cons_of_peek {s s' : Cursor} {t : Token} {ts : List Token} (ht : s.peek? = some t)
    (hts : s.tokens = ts ++ s'.tokens) (hne : ts ≠ []) : ∃ us, ts = t :: us := by
  rw [Cursor.peek?_eq, hts] at ht
  cases ts with
  | nil => exact absurd rfl hne
  | cons u us => simp_all

theorem finishExpression_sound {x : String} {ts : List Token} {e : Expr} {n : NodeId}
    {start : Span} {s s' : Cursor} {st : Stmt}
    (hR : ReadsExpr n (.ident x :: ts) e s.nextId) (h : finishExpression start e s = .ok st s') :
    ∃ us, .ident x :: (ts ++ s.tokens) = us ++ s'.tokens ∧
      ReadsStmt n us (.stmt st) s'.nextId := by
  unfold finishExpression at h
  split at h
  next node p v =>
    simp only [bind_ok, pure_ok] at h
    obtain ⟨span, s1, hs, rfl, rfl⟩ := h
    obtain ⟨hsemi, hid⟩ := finishStatement_ok hs
    obtain ⟨us, vs, k, sp, heq, rfl, hk, j, hp, hv⟩ := hR.assign_of_ident
    refine ⟨us ++ Token.mark .equal :: (vs ++ [Token.mark .semicolon]), ?_, ?_⟩
    · rw [← List.cons_append, heq, hsemi]; simp
    · rw [hid, hk]; exact .assign _ _ hp hv
  next node c es =>
    simp only [bind_ok, pure_ok] at h
    obtain ⟨span, s1, hs, rfl, rfl⟩ := h
    obtain ⟨hsemi, hid⟩ := finishStatement_ok hs
    obtain ⟨us, k, sp, sp', rfl, rfl, rfl, hk, ha⟩ := hR.call_of_ident
    refine ⟨.ident x :: .mark .leftParen :: (us ++ [Token.mark .rightParen, .mark .semicolon]),
      ?_, ?_⟩
    · rw [hsemi]; simp
    · rw [hid, hk]; exact .call _ _ _ ha
  next => exact absurd h failWith_ne_ok

theorem identifierStatement_sound {start : Span} {x : String} {s s' : Cursor} {st : Stmt}
    (ht : s.peek? = some (.ident x)) (h : identifierStatement start s = .ok st s') :
    ∃ ts, s.tokens = ts ++ s'.tokens ∧ ReadsStmt s.nextId ts (.stmt st) s'.nextId := by
  simp only [identifierStatement, bind_ok] at h
  obtain ⟨e, s1, he, h⟩ := h
  obtain ⟨ts, hts, hR⟩ := expression_sound _ _ _ he
  obtain ⟨us, rfl⟩ := cons_of_peek ht hts (hR.ne_nil (by trivial))
  rw [hts]
  cases hp : e.place? with
  | none => rw [hp] at h; exact finishExpression_sound hR h
  | some p =>
    have hp' : e = .place p := by cases e <;> simp_all [Expr.place?]
    subst hp'
    have hP := hR.target_of_expr.place_of_target
    simp only [hp, bind_ok] at h
    obtain ⟨b, s2, hb, h⟩ := h
    obtain ⟨rfl, htok, hid⟩ | ⟨rfl, rfl⟩ := accept_ok (Token.fixed_mark _) hb
    · simp only [if_true, bind_ok, pure_ok] at h
      obtain ⟨span, s3, hs, rfl, rfl⟩ := h
      obtain ⟨hsemi, hid'⟩ := finishStatement_ok hs
      rw [hid', hid]
      exact ⟨_, by rw [htok, hsemi]; simp, .increment _ hP⟩
    · simp only [Bool.false_eq_true, if_false, bind_ok] at h
      obtain ⟨b, s3, hb, h⟩ := h
      obtain ⟨rfl, htok, hid⟩ | ⟨rfl, rfl⟩ := accept_ok (Token.fixed_mark _) hb
      · simp only [if_true, bind_ok, pure_ok] at h
        obtain ⟨span, s4, hs, rfl, rfl⟩ := h
        obtain ⟨hsemi, hid'⟩ := finishStatement_ok hs
        rw [hid', hid]
        exact ⟨_, by rw [htok, hsemi]; simp, .decrement _ hP⟩
      · simp only [Bool.false_eq_true, if_false] at h
        exact finishExpression_sound hR h

theorem condition_ok {x : String} {t : Token} {s s' : Cursor} {e : Expr} (ht : s.peek? = some t)
    (h : condition x s = .ok e s') : ∃ ts, ReadsExpr s.nextId ts e s'.nextId ∧
      s.tokens = t :: .mark .leftParen :: (ts ++ .mark .rightParen :: s'.tokens) := by
  simp only [condition, bind_ok, pure_ok] at h
  obtain ⟨_, s1, ha, _, s2, hl, e', s3, he, _, s4, hr, rfl, rfl⟩ := h
  obtain ⟨h1, i1⟩ := advance_ok ht ha
  obtain ⟨h2, i2⟩ := expectMark_ok hl
  obtain ⟨ts, hts, hR⟩ := expression_sound _ _ _ he
  obtain ⟨h3, i3⟩ := expectMark_ok hr
  refine ⟨ts, ?_, by rw [h1, h2, hts, h3]⟩
  rw [i2, i1] at hR
  rw [i3]
  exact hR

section Nested

variable {nested : Parser Body} (hn : Sound (fun n ts b m => ReadsStmt n ts (.body b) m) nested)

include hn

theorem ifStatementOf_sound {start : Span} {s s' : Cursor} {st : Stmt}
    (ht : s.peek? = some (.word .ifWord)) (h : ifStatementOf nested start s = .ok st s') :
    ∃ ts, s.tokens = ts ++ s'.tokens ∧ ReadsStmt s.nextId ts (.stmt st) s'.nextId := by
  simp only [ifStatementOf, bind_ok] at h
  obtain ⟨e, s1, he, b, s2, hb, r, s3, hr, h⟩ := h
  obtain ⟨ts, hE, hts⟩ := condition_ok ht he
  obtain ⟨us, hus, hB⟩ := hn _ _ _ hb
  obtain ⟨rfl, htok, hid⟩ | ⟨rfl, rfl⟩ := accept_ok (Token.fixed_word _) hr
  · simp only [if_true, bind_ok, look_ok, pure_ok] at h
    obtain ⟨b', s4, hb', _, _, ⟨-, rfl⟩, rfl, rfl⟩ := h
    obtain ⟨vs, hvs, hB'⟩ := hn _ _ _ hb'
    rw [hid] at hB'
    exact ⟨_, by rw [hts, hus, htok, hvs]; simp, .ifElse _ hE hB hB'⟩
  · simp only [Bool.false_eq_true, if_false, bind_ok, look_ok, pure_ok] at h
    obtain ⟨_, _, ⟨-, rfl⟩, rfl, rfl⟩ := h
    exact ⟨_, by rw [hts, hus]; simp, .ifThen _ hE hB⟩

theorem whileStatementOf_sound {start : Span} {s s' : Cursor} {st : Stmt}
    (ht : s.peek? = some (.word .whileWord)) (h : whileStatementOf nested start s = .ok st s') :
    ∃ ts, s.tokens = ts ++ s'.tokens ∧ ReadsStmt s.nextId ts (.stmt st) s'.nextId := by
  simp only [whileStatementOf, bind_ok, look_ok, pure_ok] at h
  obtain ⟨e, s1, he, b, s2, hb, _, _, ⟨-, rfl⟩, rfl, rfl⟩ := h
  obtain ⟨ts, hE, hts⟩ := condition_ok ht he
  obtain ⟨us, hus, hB⟩ := hn _ _ _ hb
  exact ⟨_, by rw [hts, hus]; simp, .whileLoop _ hE hB⟩

omit hn in
theorem readStatement_sound {start : Span} {s s' : Cursor} {st : Stmt}
    (ht : s.peek? = some (.word .cin)) (h : readStatement start s = .ok st s') :
    ∃ ts, s.tokens = ts ++ s'.tokens ∧ ReadsStmt s.nextId ts (.stmt st) s'.nextId := by
  simp only [readStatement, bind_ok] at h
  obtain ⟨_, s1, ha, _, s2, hr, e, s3, he, h⟩ := h
  obtain ⟨h1, i1⟩ := advance_ok ht ha
  obtain ⟨h2, i2⟩ := expectMark_ok hr
  obtain ⟨ts, hts, hR⟩ := expression_sound _ _ _ he
  cases hp : e.place? with
  | none => rw [hp] at h; exact absurd h failWith_ne_ok
  | some p =>
    have hp' : e = .place p := by cases e <;> simp_all [Expr.place?]
    subst hp'
    simp only [hp, bind_ok, pure_ok] at h
    obtain ⟨span, s4, hs, rfl, rfl⟩ := h
    obtain ⟨h3, i3⟩ := finishStatement_ok hs
    refine ⟨.word .cin :: .mark .shiftRight :: (ts ++ [Token.mark .semicolon]), ?_, ?_⟩
    · rw [h1, h2, hts, h3]; simp
    · rw [i2, i1] at hR
      rw [i3]
      exact .read _ hR.target_of_expr

omit hn in
theorem writeStatement_sound {start : Span} {s s' : Cursor} {st : Stmt}
    (ht : s.peek? = some (.word .cout)) (h : writeStatement start s = .ok st s') :
    ∃ ts, s.tokens = ts ++ s'.tokens ∧ ReadsStmt s.nextId ts (.stmt st) s'.nextId := by
  simp only [writeStatement, bind_ok, pure_ok] at h
  obtain ⟨_, s1, ha, _, s2, hr, e, s3, he, span, s4, hs, rfl, rfl⟩ := h
  obtain ⟨h1, i1⟩ := advance_ok ht ha
  obtain ⟨h2, i2⟩ := expectMark_ok hr
  obtain ⟨ts, hts, hR⟩ := expression_sound _ _ _ he
  obtain ⟨h3, i3⟩ := finishStatement_ok hs
  refine ⟨.word .cout :: .mark .shiftLeft :: (ts ++ [Token.mark .semicolon]), ?_, ?_⟩
  · rw [h1, h2, hts, h3]; simp
  · rw [i2, i1] at hR
    rw [i3]
    exact .write _ hR

omit hn in
theorem returnStatement_sound {start : Span} {s s' : Cursor} {st : Stmt}
    (ht : s.peek? = some (.word .returnWord)) (h : returnStatement start s = .ok st s') :
    ∃ ts, s.tokens = ts ++ s'.tokens ∧ ReadsStmt s.nextId ts (.stmt st) s'.nextId := by
  simp only [returnStatement, bind_ok, look_ok] at h
  obtain ⟨_, s1, ha, _, _, ⟨rfl, rfl⟩, h⟩ := h
  obtain ⟨h1, i1⟩ := advance_ok ht ha
  split at h
  · simp only [bind_ok, pure_ok] at h
    obtain ⟨span, s2, hs, rfl, rfl⟩ := h
    obtain ⟨h2, i2⟩ := finishStatement_ok hs
    exact ⟨[.word .returnWord, .mark .semicolon], by rw [h1, h2]; rfl, by rw [i2, i1]; exact .ret _⟩
  · simp only [bind_ok, pure_ok] at h
    obtain ⟨e, s2, he, span, s3, hs, rfl, rfl⟩ := h
    obtain ⟨ts, hts, hR⟩ := expression_sound _ _ _ he
    obtain ⟨h3, i3⟩ := finishStatement_ok hs
    refine ⟨.word .returnWord :: (ts ++ [Token.mark .semicolon]), by rw [h1, hts, h3]; simp, ?_⟩
    rw [i1] at hR
    rw [i3]
    exact .retValue _ hR

theorem statementOf_sound : SoundStmt (statementOf nested) := by
  intro s st s' h
  simp only [statementOf, bind_ok, look_ok] at h
  obtain ⟨start, _, ⟨-, rfl⟩, t?, _, ⟨ht, rfl⟩, h⟩ := h
  split at h
  next => exact identifierStatement_sound ht h
  next => exact readStatement_sound ht h
  next => exact writeStatement_sound ht h
  next => exact ifStatementOf_sound hn ht h
  next => exact whileStatementOf_sound hn ht h
  next => exact returnStatement_sound ht h
  next => exact absurd h unexpected_ne_ok

omit hn in
theorem readsStmts_of_many {n m : NodeId} {ts : List Token} {ss : List Stmt}
    (h : ReadsMany (fun n ts st m => ReadsStmt n ts (.stmt st) m) n ts ss m) :
    ReadsStmt n ts (.stmts ss) m := by
  induction h with
  | nil => exact .nil
  | cons h _ ih => exact .cons h ih

theorem bodyOf_sound : Sound (fun n ts b m => ReadsStmt n ts (.body b) m) (bodyOf nested) := by
  intro s b s' h
  simp only [bodyOf, bind_ok, pure_ok] at h
  obtain ⟨_, s1, hl, ds, s2, hd, ss, s3, hs, _, s4, hr, rfl, rfl⟩ := h
  obtain ⟨h1, i1⟩ := expectMark_ok hl
  obtain ⟨ts, hts, hD⟩ := repeatWhile_sound varDecl_sound _ _ _ hd
  obtain ⟨us, hus, hS⟩ := repeatWhile_sound (statementOf_sound hn) _ _ _ hs
  obtain ⟨h2, i2⟩ := expectMark_ok hr
  refine ⟨.mark .leftBrace :: (ts ++ us ++ [Token.mark .rightBrace]),
    by rw [h1, hts, hus, h2]; simp, ?_⟩
  rw [i1] at hD
  rw [i2]
  exact .body hD (readsStmts_of_many hS)

end Nested

theorem bodyWithin_sound (bound : List Lexeme) :
    Sound (fun n ts b m => ReadsStmt n ts (.body b) m) (bodyWithin bound) := by
  induction bound with
  | nil => intro s b s' h; exact absurd h unexpected_ne_ok
  | cons l bound ih => exact bodyOf_sound ih

theorem body_sound : Sound (fun n ts b m => ReadsStmt n ts (.body b) m) body :=
  fun s b s' h => bodyWithin_sound s.rest s b s' h

/-! ## Declarations and programs -/

theorem structDecl_sound {start : Span} {x : String} {s s' : Cursor} {d : StructDecl}
    (ht : s.peek? = some (.ident x)) (h : structDecl start s = .ok d s') :
    ∃ ts, s.tokens = ts ++ s'.tokens ∧
      ReadsDecl s.nextId (.word .struct :: ts) (.struct d) s'.nextId := by
  simp only [structDecl, bind_ok] at h
  obtain ⟨i, s1, hi, _, s2, hl, ds, s3, hd, h⟩ := h
  obtain ⟨y, span, rfl, h1, i1⟩ := identifier_ok hi
  obtain ⟨h2, i2⟩ := expectMark_ok hl
  obtain ⟨ts, hts, hD⟩ := repeatWhile_sound varDecl_sound _ _ _ hd
  have hy : y = x := by
    rw [Cursor.peek?_eq, h1] at ht
    simpa using ht
  subst hy
  split at h
  · simp only [bind_ok, fail_ne_ok, false_and, exists_false] at h
  next hne =>
    simp only [bind_ok, pure_ok] at h
    obtain ⟨_, s4, hr, stop, s5, hs, rfl, rfl⟩ := h
    obtain ⟨h3, i3⟩ := expectMark_ok hr
    obtain ⟨h4, i4⟩ := expectMark_ok hs
    rw [i2, i1] at hD
    rw [i4, i3]
    exact ⟨_, by rw [h1, h2, hts, h3, h4]; simp, .struct _ _ hD (by simpa using hne)⟩

theorem param_sound : Sound ReadsParam param := by
  intro s p s' h
  simp only [param, bind_ok, look_ok] at h
  obtain ⟨start, _, ⟨-, rfl⟩, r, s1, ha, h⟩ := h
  obtain ⟨t, sc, rfl, hsc, ht, hid⟩ | ⟨rfl, rfl⟩ := acceptMap_ok ha
  · simp only [bind_ok, pure_ok] at h
    obtain ⟨i, s2, hi, rfl, rfl⟩ := h
    obtain ⟨x, span, rfl, hx, hid'⟩ := identifier_ok hi
    exact ⟨[t, .ident x], by rw [ht, hx]; rfl, by rw [hid', hid]; exact .mk _ _ hsc⟩
  · exact absurd h fail_ne_ok

theorem moreParams_sound (bound : List Lexeme) :
    Sound (ReadsMany ReadsNextParam) (moreItemsWithin param bound) := by
  induction bound with
  | nil =>
    intro s ps s' h
    obtain ⟨rfl, rfl⟩ := pure_ok.1 h
    exact ⟨[], rfl, .nil⟩
  | cons l bound ih =>
    intro s ps s' h
    simp only [moreItemsWithin, bind_ok] at h
    obtain ⟨b, s1, ha, h⟩ := h
    obtain ⟨rfl, ht, hid⟩ | ⟨rfl, rfl⟩ := accept_ok (Token.fixed_mark _) ha
    · simp only [if_true, bind_ok, pure_ok] at h
      obtain ⟨p, s2, hp, ps, s3, hps, rfl, rfl⟩ := h
      obtain ⟨ts, hts, hR⟩ := param_sound _ _ _ hp
      obtain ⟨us, hus, hRs⟩ := ih _ _ _ hps
      rw [hid] at hR
      exact ⟨_, by rw [ht, hts, hus]; simp, .cons (.mk hR) hRs⟩
    · obtain ⟨rfl, rfl⟩ := pure_ok.1 h
      exact ⟨[], rfl, .nil⟩

theorem params_sound : Sound ReadsParams params := by
  intro s ps s' h
  simp only [params, bind_ok, look_ok] at h
  obtain ⟨_, _, ⟨rfl, rfl⟩, h⟩ := h
  split at h
  · obtain ⟨rfl, rfl⟩ := pure_ok.1 h
    exact ⟨[], rfl, .nil⟩
  · simp only [commaList, bind_ok, pure_ok] at h
    obtain ⟨p, s1, hp, ps, s2, hps, rfl, rfl⟩ := h
    obtain ⟨ts, hts, hR⟩ := param_sound _ _ _ hp
    obtain ⟨us, hus, hRs⟩ := moreParams_sound _ _ _ _ (bounded_ok hps)
    exact ⟨ts ++ us, by rw [hts, hus, List.append_assoc], .cons hR hRs⟩

/-- A function behind its return type and its name, which had the id `n`. -/
theorem fnDecl_sound {t : Token} {returns : Scalar} {x : String} {n : NodeId} {start span : Span}
    {s s' : Cursor} {d : FnDecl} (hr : scalar? t = some returns) (hn : s.nextId = n + 1)
    (h : fnDecl returns ⟨n, x, span⟩ start s = .ok d s') :
    ∃ ts, s.tokens = ts ++ s'.tokens ∧ ReadsDecl n (t :: .ident x :: ts) (.fn d) s'.nextId := by
  simp only [fnDecl, bind_ok, look_ok, pure_ok] at h
  obtain ⟨_, s1, hl, ps, s2, hp, _, s3, hrp, b, s4, hb, _, _, ⟨-, rfl⟩, rfl, rfl⟩ := h
  obtain ⟨h1, i1⟩ := expectMark_ok hl
  obtain ⟨ts, hts, hP⟩ := params_sound _ _ _ hp
  obtain ⟨h2, i2⟩ := expectMark_ok hrp
  obtain ⟨us, hus, hB⟩ := body_sound _ _ _ hb
  rw [i1, hn] at hP
  rw [i2] at hB
  exact ⟨_, by rw [h1, hts, h2, hus]; simp, .fn _ _ hr hP hB⟩

theorem startsStructDecl_tokens {s : Cursor} (h : startsStructDecl s = true) :
    ∃ x ts, s.tokens = .word .struct :: .ident x :: ts := by
  unfold startsStructDecl at h
  split at h
  next x h0 h1 _ =>
    simp only [Cursor.ahead?] at h0 h1
    match hs : s.rest with
    | [] => simp [hs] at h0
    | [a] => simp [hs] at h1
    | a :: b :: rest =>
      simp only [hs] at h0 h1
      simp only [List.getElem?_cons_zero, List.getElem?_cons_succ, Option.map_some,
        Option.some.injEq] at h0 h1
      exact ⟨x, rest.map Lexeme.token, by simp [Cursor.tokens, hs, h0, h1]⟩
  next => cases h

theorem decl_sound : Sound ReadsDecl decl := by
  intro s d s' h
  simp only [decl, bind_ok, look_ok] at h
  obtain ⟨start, _, ⟨-, rfl⟩, _, _, ⟨rfl, rfl⟩, h⟩ := h
  split at h
  next hst =>
    obtain ⟨x, us, hs⟩ := startsStructDecl_tokens hst
    simp only [bind_ok, pure_ok] at h
    obtain ⟨_, s1, ha, d, s2, hd, rfl, rfl⟩ := h
    obtain ⟨h1, i1⟩ := advance_ok (by rw [Cursor.peek?_eq, hs]; rfl) ha
    have hpeek : s1.peek? = some (.ident x) := by
      rw [h1] at hs
      rw [Cursor.peek?_eq, (List.cons.inj hs).2]
      rfl
    obtain ⟨ts, hts, hD⟩ := structDecl_sound hpeek hd
    rw [i1] at hD
    exact ⟨.word .struct :: ts, by rw [h1, hts]; rfl, hD⟩
  next =>
    simp only [bind_ok, look_ok] at h
    obtain ⟨type, s1, hty, i, s2, hi, _, _, ⟨rfl, rfl⟩, h⟩ := h
    obtain ⟨ts, hts, hT⟩ := typeSpec_sound _ _ _ hty
    obtain ⟨x, span, rfl, hx, hid⟩ := identifier_ok hi
    split at h
    · generalize s1.nextId = k at hT hid h
      cases hT with
      | scalar hsc =>
        simp only [bind_ok, pure_ok] at h
        obtain ⟨f, s3, hf, rfl, rfl⟩ := h
        obtain ⟨us, hus, hF⟩ := fnDecl_sound hsc hid hf
        exact ⟨_, by rw [hts, hx, hus]; rfl, hF⟩
      | struct => simp only [bind_ok, failWith_ne_ok, false_and, exists_false] at h
    · simp only [bind_ok, pure_ok] at h
      obtain ⟨stop, s3, hs, rfl, rfl⟩ := h
      obtain ⟨h1, i1⟩ := expectMark_ok hs
      rw [i1, hid]
      exact ⟨_, by rw [hts, hx, h1]; simp, .var (.mk _ _ hT)⟩

theorem ReadsDecl.ne_nil {n m : NodeId} {ts : List Token} {d : Decl} (h : ReadsDecl n ts d m) :
    ts ≠ [] := by
  cases h with
  | var h => cases h; simp
  | struct => simp
  | fn => simp

/-- A repetition with a bound large enough ends where its condition does. -/
theorem repeatWithin_stops {α : Type} {R : NodeId → List Token → α → NodeId → Prop}
    {more : Token → Bool} {item : Parser α} (hi : Sound R item)
    (hne : ∀ {n ts a m}, R n ts a m → ts ≠ []) (bound : List Lexeme) :
    ∀ {s as s'}, repeatWithin more item bound s = .ok as s' → s.tokens.length ≤ bound.length →
      s'.peek?.any more = false := by
  induction bound with
  | nil =>
    intro s as s' h hb
    obtain ⟨rfl, rfl⟩ := pure_ok.1 h
    rw [Cursor.peek?_eq, List.length_eq_zero_iff.1 (Nat.le_zero.1 hb)]
    rfl
  | cons l bound ih =>
    intro s as s' h hb
    simp only [repeatWithin, bind_ok, look_ok] at h
    obtain ⟨_, _, ⟨rfl, rfl⟩, h⟩ := h
    split at h
    · simp only [bind_ok, pure_ok] at h
      obtain ⟨a, s1, ha, as, s2, has, rfl, rfl⟩ := h
      obtain ⟨ts, hts, hR⟩ := hi _ _ _ ha
      refine ih has ?_
      have := List.length_pos_iff.2 (hne hR)
      rw [hts, List.length_append, List.length_cons] at hb
      omega
    next hm =>
      obtain ⟨rfl, rfl⟩ := pure_ok.1 h
      simpa using hm

end Parser

/-- **What the parser accepts, the grammar derives**: all the tokens together spell the
program, with its ids. -/
theorem parse_sound {ls : List Lexeme} {p : Program} (h : parse ls = .ok p) :
    Grammar.ReadsProgram (ls.map Lexeme.token) p := by
  unfold parse at h
  split at h
  next q s hq =>
    cases h
    simp only [Parser.program, Parser.bind_ok, Parser.look_ok, Parser.pure_ok] at hq
    obtain ⟨ds, s1, hd, _, _, ⟨rfl, rfl⟩, rfl, rfl⟩ := hq
    obtain ⟨ts, hts, hD⟩ := Parser.repeatWhile_sound Parser.decl_sound _ _ _ hd
    have hend := Parser.repeatWithin_stops Parser.decl_sound Parser.ReadsDecl.ne_nil _ hd
      (by simp [Cursor.tokens])
    have hnil : s1.tokens = [] := by
      rw [Cursor.peek?_eq] at hend
      cases hs : s1.tokens <;> simp_all
    rw [hnil, List.append_nil] at hts
    have : ls.map Lexeme.token = ts := hts
    rw [this]
    exact .mk hD
  next => cases h

end FlatC
