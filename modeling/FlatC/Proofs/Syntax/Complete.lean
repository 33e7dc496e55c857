import FlatC.Proofs.Syntax.Sound
import FlatC.Proofs.Syntax.Shape

/-!
# The parser reads all of the grammar

What the grammar derives, the parser accepts, with the tree that was derived up to
spans (`parse_complete`). `Parses p n ts rest P m` says what a parser does in front
of the tokens `ts`, if `rest` follows: it takes `ts`, moves the next free id from `n`
to `m`, and gives something that satisfies `P`. It is composed step by step
(`Parses.bind`).

A level stops reading where the next token belongs to a looser level. `Level.Ends l rest`
says so: tokens that can go on with an expression have a rank, and it is above
the level's.
-/

namespace FlatC

namespace Parser

/-- In front of `ts` and `rest`, with `n` the next free id, `p` takes `ts`, leaves `m` as
the next free id, and gives something that satisfies `P`. -/
def Parses {α : Type} (p : Parser α) (n : NodeId) (ts rest : List Token) (P : α → Prop)
    (m : NodeId) : Prop :=
  ∀ s : Cursor, s.tokens = ts ++ rest → s.nextId = n →
    ∃ a s', p s = .ok a s' ∧ P a ∧ s'.tokens = rest ∧ s'.nextId = m

section

variable {α β : Type} {n m k : NodeId} {ts us rest : List Token} {P : α → Prop} {Q : β → Prop}

theorem Parses.bind {p : Parser α} {f : α → Parser β} (hp : Parses p n ts (us ++ rest) P k)
    (hf : ∀ a, P a → Parses (f a) k us rest Q m) : Parses (p >>= f) n (ts ++ us) rest Q m := by
  intro s hs hn
  obtain ⟨a, s1, h1, hP, hs1, hn1⟩ := hp s (by rw [hs, List.append_assoc]) hn
  obtain ⟨b, s2, h2, hQ, hs2, hn2⟩ := hf a hP s1 hs1 hn1
  exact ⟨b, s2, bind_ok.2 ⟨a, s1, h1, h2⟩, hQ, hs2, hn2⟩

/-- A step that takes no token comes first. -/
theorem Parses.before {p : Parser α} {f : α → Parser β} (hp : Parses p n [] (ts ++ rest) P k)
    (hf : ∀ a, P a → Parses (f a) k ts rest Q m) : Parses (p >>= f) n ts rest Q m :=
  List.nil_append ts ▸ hp.bind hf

/-- Steps that take no token come last. -/
theorem Parses.behind {p : Parser α} {f : α → Parser β} (hp : Parses p n ts rest P k)
    (hf : ∀ a, P a → Parses (f a) k [] rest Q m) : Parses (p >>= f) n ts rest Q m := by
  have : Parses (p >>= f) n (ts ++ []) rest Q m := .bind hp hf
  rwa [List.append_nil] at this

/-- A step that takes one token comes first. -/
theorem Parses.cons {t : Token} {p : Parser α} {f : α → Parser β}
    (hp : Parses p n [t] (ts ++ rest) P k) (hf : ∀ a, P a → Parses (f a) k ts rest Q m) :
    Parses (p >>= f) n (t :: ts) rest Q m :=
  List.singleton_append (x := t) (l := ts) ▸ hp.bind hf

theorem Parses.pure {a : α} (h : P a) : Parses (pure a : Parser α) n [] rest P n :=
  fun s hs hn => ⟨a, s, rfl, h, hs, hn⟩

theorem Parses.look {f : Cursor → α} (h : ∀ s : Cursor, s.tokens = rest → P (f s)) :
    Parses (look f) n [] rest P n :=
  fun s hs hn => ⟨f s, s, rfl, h s hs, hs, hn⟩

theorem Parses.lookHere : Parses (Parser.look Cursor.here) n [] rest (fun _ => True) n :=
  .look fun _ _ => trivial

theorem Parses.peek : Parses (Parser.look Cursor.peek?) n [] rest (· = rest.head?) n :=
  .look fun s hs => by rw [Cursor.peek?_eq, hs]

theorem Parses.check {t : Token} (ht : t.Fixed) :
    Parses (Parser.look (·.check t)) n [] rest (· = decide (rest.head? = some t)) n := by
  refine .look fun s hs => ?_
  rw [Bool.eq_iff_iff, Cursor.check_iff ht, hs, decide_eq_true_iff]

theorem tokens_next_of_cons {s : Cursor} {t : Token} (hs : s.tokens = t :: rest) :
    s.next.tokens = rest := by
  rw [Cursor.tokens_next, hs, List.tail_cons]

theorem Parses.advance {t : Token} : Parses advance n [t] rest (fun _ => True) n :=
  fun s hs hn =>
    ⟨_, s.next, rfl, trivial, tokens_next_of_cons hs, by rw [Cursor.nextId_next, hn]⟩

theorem Parses.accept {t : Token} (ht : t.Fixed) : Parses (accept t) n [t] rest (· = true) n := by
  intro s hs hn
  have hc : s.check t = true := (Cursor.check_iff ht).2 (by rw [hs]; rfl)
  exact ⟨true, s.next, by simp [Parser.accept, hc], rfl, tokens_next_of_cons hs,
    by rw [Cursor.nextId_next, hn]⟩

theorem Parses.acceptNot {t : Token} (ht : t.Fixed) (h : rest.head? ≠ some t) :
    Parses (Parser.accept t) n [] rest (· = false) n := by
  intro s hs hn
  have hc : ¬ s.check t = true := by rwa [Cursor.check_iff ht, hs]
  exact ⟨false, s, by simp [Parser.accept, hc], rfl, hs, hn⟩

theorem Parses.expect {t : Token} {x : String} (ht : t.Fixed) :
    Parses (expect t x) n [t] rest (fun _ => True) n := by
  intro s hs hn
  have hc : s.check t = true := (Cursor.check_iff ht).2 (by rw [hs]; rfl)
  exact ⟨s.here, s.next, by simp [Parser.expect, hc], trivial, tokens_next_of_cons hs,
    by rw [Cursor.nextId_next, hn]⟩

theorem Parses.expectMark {t : Mark} {x : String} :
    Parses (Parser.expect (.mark t) x) n [.mark t] rest (fun _ => True) n :=
  .expect (Token.fixed_mark t)

theorem Parses.identifier {x y : String} :
    Parses (identifier y) n [.ident x] rest (fun i => i.id = n ∧ i.name = x) (n + 1) := by
  intro s hs hn
  cases hr : s.rest with
  | nil => simp [Cursor.tokens, hr] at hs
  | cons l ls =>
    obtain ⟨t, span⟩ := l
    simp only [Cursor.tokens, hr, List.map_cons, List.cons_append, List.cons.injEq] at hs
    obtain ⟨rfl, hs⟩ := hs
    refine ⟨⟨s.nextId, x, span⟩, { s.next with nextId := s.nextId + 1 }, ?_, ?_, ?_, ?_⟩
    · simp [Parser.identifier, hr]
    · exact ⟨hn, rfl⟩
    · simpa [Cursor.tokens, hr] using hs
    · simp [hn]

theorem Parses.acceptMap {f : Token → Option α} {t : Token} {a : α} (hf : f t = some a) :
    Parses (acceptMap f) n [t] rest (· = some a) n := by
  intro s hs hn
  refine ⟨some a, s.next, ?_, rfl, tokens_next_of_cons hs, by rw [Cursor.nextId_next, hn]⟩
  simp [Parser.acceptMap, Cursor.peek?_eq, hs, hf]

theorem Parses.acceptMapNot {f : Token → Option α} (h : rest.head?.bind f = none) :
    Parses (Parser.acceptMap f) n [] rest (· = none) n :=
  fun s hs hn => ⟨none, s, by simp [Parser.acceptMap, Cursor.peek?_eq, hs, h], rfl, hs, hn⟩

theorem Parses.freshNode {span : Span} :
    Parses (freshNode span) n [] rest (·.id = n) (n + 1) :=
  fun s hs hn =>
    ⟨⟨s.nextId, span⟩, { s with nextId := s.nextId + 1 }, rfl, hn, hs, congrArg (· + 1) hn⟩

/-! Where the outcome of a step is known, what follows is read for that outcome. -/

theorem Parses.bindLook {f : Cursor → α} {c : α} {g : α → Parser β}
    (hf : ∀ s : Cursor, s.tokens = ts ++ rest → f s = c) (h : Parses (g c) n ts rest Q m) :
    Parses (Parser.look f >>= g) n ts rest Q m :=
  .before (.look (P := (· = c)) hf) fun _ ha => ha ▸ h

theorem Parses.bindPeek {t : Token} {f : Option Token → Parser β}
    (h : Parses (f (some t)) n (t :: ts) rest Q m) :
    Parses (Parser.look Cursor.peek? >>= f) n (t :: ts) rest Q m :=
  .before .peek fun _ ha => ha ▸ h

theorem Parses.bindCheck {t : Token} {f : Bool → Parser β} (ht : t.Fixed)
    (hhead : (ts ++ rest).head? = some t) (h : Parses (f true) n ts rest Q m) :
    Parses (Parser.look (·.check t) >>= f) n ts rest Q m := by
  refine .before (.check ht) ?_
  rintro _ rfl
  rwa [decide_eq_true hhead]

theorem Parses.bindCheckNot {t : Token} {f : Bool → Parser β} (ht : t.Fixed)
    (hhead : (ts ++ rest).head? ≠ some t) (h : Parses (f false) n ts rest Q m) :
    Parses (Parser.look (·.check t) >>= f) n ts rest Q m := by
  refine .before (.check ht) ?_
  rintro _ rfl
  rwa [decide_eq_false hhead]

theorem Parses.bindAccept {t : Token} {f : Bool → Parser β} (ht : t.Fixed)
    (h : Parses (f true) n ts rest Q m) : Parses (Parser.accept t >>= f) n (t :: ts) rest Q m :=
  .cons (.accept ht) fun _ ha => ha ▸ h

theorem Parses.bindAcceptNot {t : Token} {f : Bool → Parser β} (ht : t.Fixed)
    (hhead : (ts ++ rest).head? ≠ some t) (h : Parses (f false) n ts rest Q m) :
    Parses (Parser.accept t >>= f) n ts rest Q m :=
  .before (.acceptNot ht hhead) fun _ ha => ha ▸ h

theorem Parses.bindAcceptMap {g : Token → Option α} {f : Option α → Parser β} {t : Token} {a : α}
    (hg : g t = some a) (h : Parses (f (some a)) n ts rest Q m) :
    Parses (Parser.acceptMap g >>= f) n (t :: ts) rest Q m :=
  .cons (.acceptMap hg) fun _ ha => ha ▸ h

theorem Parses.bindAcceptMapNot {g : Token → Option α} {f : Option α → Parser β}
    (hg : (ts ++ rest).head?.bind g = none) (h : Parses (f none) n ts rest Q m) :
    Parses (Parser.acceptMap g >>= f) n ts rest Q m :=
  .before (.acceptMapNot hg) fun _ ha => ha ▸ h

/-- A bound that is taken from the cursor is as long as what is read. -/
theorem Parses.bounded {p : List Lexeme → Parser α}
    (h : ∀ bound : List Lexeme, ts.length ≤ bound.length → Parses (p bound) n ts rest P m) :
    Parses (bounded p) n ts rest P m := by
  intro s hs hn
  have hlen : ts.length ≤ s.rest.length := by
    have := congrArg List.length hs
    simp only [Cursor.tokens, List.length_map, List.length_append] at this
    omega
  exact h s.rest hlen s hs hn

end

end Parser

namespace Grammar

/-! ## Where a level ends -/

/-- The rank of a token that can go on with an expression: the loosest levels have the
greatest ones. -/
def rank? : Token → Option Nat
  | .mark .dot | .mark .leftParen => some 0
  | .mark .star | .mark .slash => some 1
  | .mark .plus | .mark .minus => some 2
  | .mark .equalEqual | .mark .bangEqual | .mark .less | .mark .greater | .mark .lessEqual
  | .mark .greaterEqual => some 3
  | .mark .andAnd => some 4
  | .mark .orOr => some 5
  | .mark .equal => some 6
  | _ => none

namespace Level

def rank : Level → Nat
  | primary | unary => 0
  | multiplicative => 1
  | additive => 2
  | comparison => 3
  | conjunction => 4
  | disjunction => 5
  | assignment => 6

/-- An expression of level `l` does not go on with `rest`. -/
def Ends (l : Level) (rest : List Token) : Prop :=
  ∀ t r, rest.head? = some t → rank? t = some r → l.rank < r

theorem Ends.mono {l o : Level} {rest : List Token} (h : l.Ends rest) (ho : o.rank ≤ l.rank) :
    o.Ends rest :=
  fun t r ht hr => Nat.lt_of_le_of_lt ho (h t r ht hr)

theorem ends_cons {l : Level} {t : Token} {rest : List Token} (h : rank? t = none) :
    l.Ends (t :: rest) := by
  intro u r hu hr
  cases hu
  simp [h] at hr

theorem ends_cons_of_rank {l : Level} {t : Token} {rest : List Token} {r : Nat}
    (h : rank? t = some r) (hl : l.rank < r) : l.Ends (t :: rest) := by
  intro u k hu hk
  cases hu
  rw [h] at hk
  cases hk
  exact hl

theorem rank_operand {l o : Level} (ho : l.operand? = some o) : o.rank < l.rank := by
  cases l <;> simp [operand?] at ho <;> subst ho <;> decide

theorem rank_of_op {l : Level} {t : Token} {op : BinaryOp} (h : l.op? t = some op) :
    rank? t = some l.rank := by
  cases l <;> simp only [op?, reduceCtorEq] at h
  · unfold Parser.multiplicativeOp? at h; split at h <;> first | rfl | cases h
  · unfold Parser.additiveOp? at h; split at h <;> first | rfl | cases h
  · unfold Parser.andOp? at h; split at h <;> first | rfl | cases h
  · unfold Parser.orOp? at h; split at h <;> first | rfl | cases h

theorem rank_of_comparison {t : Token} {op : BinaryOp} (h : Parser.comparisonOp? t = some op) :
    rank? t = some 3 := by
  unfold Parser.comparisonOp? at h; split at h <;> first | rfl | cases h

/-- Where a level ends there is no operator of it. -/
theorem Ends.op? {l : Level} {rest : List Token} (h : l.Ends rest) :
    rest.head?.bind l.op? = none := by
  rw [Option.eq_none_iff_forall_not_mem]
  intro op hop
  obtain ⟨t, ht, hop⟩ := Option.bind_eq_some_iff.1 hop
  exact absurd (h t _ ht (rank_of_op hop)) (Nat.lt_irrefl _)

theorem Ends.comparisonOp? {rest : List Token} (h : comparison.Ends rest) :
    rest.head?.bind Parser.comparisonOp? = none := by
  rw [Option.eq_none_iff_forall_not_mem]
  intro op hop
  obtain ⟨t, ht, hop⟩ := Option.bind_eq_some_iff.1 hop
  exact absurd (h t _ ht (rank_of_comparison hop)) (Nat.lt_irrefl _)

/-- Where a level ends, a token that goes on with it does not follow. -/
theorem Ends.ne {l : Level} {rest : List Token} (h : l.Ends rest) {t : Token} {r : Nat}
    (ht : rank? t = some r) (hr : r ≤ l.rank) : rest.head? ≠ some t :=
  fun hrest => absurd (h t r hrest ht) (Nat.not_lt.2 hr)

end Level

end Grammar

namespace Parser

open Grammar

/-! ## Items behind commas -/

section

variable {α : Type} {item : Parser α} {n m k : NodeId} {ts us rest : List Token}
  {A : α → Prop} {As R : List α → Prop}

/-- No more items stand in front of the parenthesis that closes the list. -/
theorem Parses.moreItemsEnd (fuel : List Lexeme) (hr : rest.head? = some (.mark .rightParen))
    (hR : R []) : Parses (moreItemsWithin item fuel) n [] rest R n := by
  cases fuel with
  | nil => exact .pure hR
  | cons l fuel =>
    refine .bindAcceptNot (Token.fixed_mark _) ?_ (.pure hR)
    rw [List.nil_append, hr]
    simp

/-- A comma, an item and the items behind it. -/
theorem Parses.moreItemsCons {fuel : List Lexeme}
    (hf : (Token.mark .comma :: (ts ++ us)).length ≤ fuel.length)
    (ha : Parses item n ts (us ++ rest) A k)
    (has : ∀ fuel : List Lexeme, us.length ≤ fuel.length →
      Parses (moreItemsWithin item fuel) k us rest As m)
    (hR : ∀ a as, A a → As as → R (a :: as)) :
    Parses (moreItemsWithin item fuel) n (.mark .comma :: (ts ++ us)) rest R m := by
  simp only [List.length_cons, List.length_append] at hf
  cases fuel with
  | nil => simp at hf
  | cons l fuel =>
    have hus : us.length ≤ fuel.length := by
      rw [List.length_cons] at hf
      omega
    exact .bindAccept (Token.fixed_mark _) (.bind ha fun a hA =>
      .behind (has fuel hus) fun as hAs => .pure (hR a as hA hAs))

/-- An item and the ones behind commas. -/
theorem Parses.commaList (ha : Parses item n ts (us ++ rest) A k)
    (has : ∀ fuel : List Lexeme, us.length ≤ fuel.length →
      Parses (moreItemsWithin item fuel) k us rest As m)
    (hR : ∀ a as, A a → As as → R (a :: as)) :
    Parses (commaList item) n (ts ++ us) rest R m :=
  .bind ha fun a hA => .behind (.bounded has) fun as hAs => .pure (hR a as hA hAs)

end

/-! ## One level from the next tighter one -/

theorem head?_append_of_ne_nil {α : Type} {as bs : List α} (h : as ≠ []) :
    (as ++ bs).head? = as.head? := by
  cases as with
  | nil => exact absurd rfl h
  | cons a as => rfl

/-- The parser of a level. -/
def levelParser (nested : Parser Expr) : Level → Parser Expr
  | .primary => primaryOf nested
  | .unary => unaryOf nested
  | .multiplicative => multiplicativeOf nested
  | .additive => additiveOf nested
  | .comparison => comparisonOf nested
  | .conjunction => conjunctionOf nested
  | .disjunction => disjunctionOf nested
  | .assignment => assignmentOf nested

theorem levelParser_chain {nested : Parser Expr} {l o : Level} (ho : l.operand? = some o) :
    levelParser nested l = chain (levelParser nested o) l.op? := by
  cases l <;> simp [Level.operand?] at ho <;> subst ho <;> rfl

section

variable {nested : Parser Expr} {n m : NodeId} {ts : List Token} {P : Expr → Prop}

theorem Parses.primaryToUnary {fuel : List Lexeme} {rest : List Token}
    (h : Parses (primaryOf nested) n ts rest P m) (hsign : (ts ++ rest).head?.bind signOp? = none) :
    Parses (unaryWithin nested fuel) n ts rest P m := by
  cases fuel with
  | nil => exact h
  | cons l fuel => exact .before .lookHere fun _ _ => .bindAcceptMapNot hsign h

theorem Parses.chainEnd {operand : Parser Expr} {l : Level} {left : Expr} {fuel : List Lexeme}
    {rest : List Token} (hr : l.Ends rest) (hP : P left) :
    Parses (chainWithin operand l.op? left fuel) n [] rest P n := by
  cases fuel with
  | nil => exact .pure hP
  | cons x fuel => exact .bindAcceptMapNot hr.op? (.pure hP)

theorem Parses.operandToChain {operand : Parser Expr} {l : Level} {rest : List Token}
    (h : Parses operand n ts rest P m) (hr : l.Ends rest) :
    Parses (chain operand l.op?) n ts rest P m :=
  .behind h fun _ hP => .bounded fun _ _ => .chainEnd hr hP

theorem Parses.additiveToComparison {rest : List Token}
    (h : Parses (additiveOf nested) n ts rest P m) (hr : Level.comparison.Ends rest) :
    Parses (comparisonOf nested) n ts rest P m :=
  .behind h fun _ hP => .bindAcceptMapNot hr.comparisonOp? (.pure hP)

theorem Parses.disjunctionToAssignment {rest : List Token}
    (h : Parses (disjunctionOf nested) n ts rest P m) (hr : Level.assignment.Ends rest) :
    Parses (assignmentOf nested) n ts rest P m :=
  .behind h fun _ hP =>
    .bindCheckNot (Token.fixed_mark _) (hr.ne rfl (Nat.le_refl _)) (.pure hP)

/-- The parser of level `l` does so, whatever bound the signs have. -/
def ParsesAt (l : Level) (nested : Parser Expr) (n : NodeId) (ts rest : List Token)
    (P : Expr → Prop) (m : NodeId) : Prop :=
  Parses (levelParser nested l) n ts rest P m ∧
    (l = .unary → ∀ fuel : List Lexeme, ts.length ≤ fuel.length →
      Parses (unaryWithin nested fuel) n ts rest P m)

theorem ParsesAt.unary {rest : List Token} (h : ∀ fuel : List Lexeme, ts.length ≤ fuel.length →
    Parses (unaryWithin nested fuel) n ts rest P m) : ParsesAt .unary nested n ts rest P m :=
  ⟨.bounded h, fun _ => h⟩

theorem ParsesAt.of_ne {l : Level} {rest : List Token} (hl : l ≠ .unary)
    (h : Parses (levelParser nested l) n ts rest P m) : ParsesAt l nested n ts rest P m :=
  ⟨h, fun h => absurd h hl⟩

/-- What is read as a primary expression is read the same at the levels above. -/
theorem ParsesAt.raise {rest : List Token} {l : Level} (hl : l ≠ .assignment)
    (h : ∀ rest, Level.primary.Ends rest → Parses (primaryOf nested) n ts rest P m)
    (hne : ts ≠ []) (hsign : ts.head?.bind signOp? = none) (hr : l.Ends rest) :
    ParsesAt l nested n ts rest P m := by
  have hu : ∀ rest, Level.unary.Ends rest → ParsesAt .unary nested n ts rest P m :=
    fun rest hr => .unary fun fuel _ => (h rest hr).primaryToUnary
      (by rwa [head?_append_of_ne_nil hne])
  have hm : ∀ rest, Level.multiplicative.Ends rest →
      Parses (multiplicativeOf nested) n ts rest P m :=
    fun rest hr => (hu rest (hr.mono (by decide))).1.operandToChain hr
  have ha : ∀ rest, Level.additive.Ends rest → Parses (additiveOf nested) n ts rest P m :=
    fun rest hr => (hm rest (hr.mono (by decide))).operandToChain hr
  have hc : ∀ rest, Level.comparison.Ends rest → Parses (comparisonOf nested) n ts rest P m :=
    fun rest hr => (ha rest (hr.mono (by decide))).additiveToComparison hr
  have hj : ∀ rest, Level.conjunction.Ends rest → Parses (conjunctionOf nested) n ts rest P m :=
    fun rest hr => (hc rest (hr.mono (by decide))).operandToChain hr
  have hd : ∀ rest, Level.disjunction.Ends rest → Parses (disjunctionOf nested) n ts rest P m :=
    fun rest hr => (hj rest (hr.mono (by decide))).operandToChain hr
  cases l with
  | primary => exact .of_ne (by decide) (h rest hr)
  | unary => exact hu rest hr
  | multiplicative => exact .of_ne (by decide) (hm rest hr)
  | additive => exact .of_ne (by decide) (ha rest hr)
  | comparison => exact .of_ne (by decide) (hc rest hr)
  | conjunction => exact .of_ne (by decide) (hj rest hr)
  | disjunction => exact .of_ne (by decide) (hd rest hr)
  | assignment => exact absurd rfl hl

end

/-! ## Expressions -/

/-- What the parsers do in front of a phrase that the grammar derives. -/
def Complete (n : NodeId) (ts : List Token) (m : NodeId) : Phrase → Prop
  | .place p => ∀ nested rest, Level.primary.Ends rest →
      Parses (primaryOf nested) n ts rest (·.shape = .place p.shape) m
  | .fields base p => ∀ (base' : Place) (fuel : List Lexeme) rest, base'.shape = base.shape →
      ts.length ≤ fuel.length → Level.primary.Ends rest →
      Parses (fieldsWithin base' fuel) n ts rest (·.shape = p.shape) m
  | .target p => ∀ bound rest l, l ≠ .assignment → ts.length ≤ bound.length + 1 → l.Ends rest →
      ParsesAt l (expressionWithin bound) n ts rest (·.shape = .place p.shape) m
  | .expr l e => ∀ bound rest, ts.length ≤ bound.length + 1 → l.Ends rest →
      ParsesAt l (expressionWithin bound) n ts rest (·.shape = e.shape) m
  | .chain l left e => ∀ o bound (fuel : List Lexeme) rest (left' : Expr),
      l.operand? = some o → left'.shape = left.shape → ts.length ≤ bound.length + 1 →
      ts.length ≤ fuel.length → l.Ends rest →
      Parses (chainWithin (levelParser (expressionWithin bound) o) l.op? left' fuel) n ts rest
        (·.shape = e.shape) m
  | .args es => ∀ bound rest, ts.length ≤ bound.length → rest.head? = some (.mark .rightParen) →
      Parses (argumentsOf (expressionWithin bound)) n ts rest
        (Expr.shapes · = Expr.shapes es) m
  | .moreArgs es => ∀ bound (fuel : List Lexeme) rest, ts.length ≤ bound.length →
      ts.length ≤ fuel.length → rest.head? = some (.mark .rightParen) →
      Parses (moreItemsWithin (expressionWithin bound) fuel) n ts rest
        (Expr.shapes · = Expr.shapes es) m

section

variable {n m k : NodeId} {ts us rest : List Token}

theorem Complete.nested {e : Expr} {bound : List Lexeme}
    (h : Complete n ts m (.expr .assignment e)) (hne : ts ≠ []) (hb : ts.length ≤ bound.length)
    (hr : Level.assignment.Ends rest) :
    Parses (expressionWithin bound) n ts rest (·.shape = e.shape) m := by
  cases bound with
  | nil => exact absurd (List.length_eq_zero_iff.1 (Nat.le_zero.1 hb)) hne
  | cons l bound => exact (h bound rest hb hr).1

/-- The tokens of a primary expression do not start with a sign. -/
theorem signOp?_of_primary {e : Expr} (h : Reads n ts (.expr .primary e) m) :
    ts.head?.bind signOp? = none := by
  generalize hx : Phrase.expr .primary e = x at h
  cases h with
  | placeExpr h => cases h; rfl
  | chain ho => cases hx; cases ho
  | sign => cases hx
  | primary => cases hx
  | operand => cases hx
  | comparison => cases hx
  | disjunction => cases hx
  | assign => cases hx
  | _ => first | rfl | cases hx

theorem head?_of_place {p : Place} (h : Reads n ts (.place p) m) : ∃ x us, ts = .ident x :: us := by
  cases h with
  | place => exact ⟨_, _, rfl⟩

theorem parenHead (l : Level) : l.Ends (.mark .rightParen :: rest) := Level.ends_cons rfl

theorem ends_of_rightParen {l : Level} (h : rest.head? = some (.mark .rightParen)) :
    l.Ends rest := by
  cases rest with
  | nil => cases h
  | cons t rest => cases h; exact Level.ends_cons rfl

/-- What stands in parentheses is read as a primary expression. -/
theorem Parses.paren {nested : Parser Expr} {P : Expr → Prop}
    (h : Parses nested n ts (.mark .rightParen :: rest) P m) :
    Parses (primaryOf nested) n (.mark .leftParen :: (ts ++ [.mark .rightParen])) rest P m :=
  .bindPeek (.cons .advance fun _ _ => .bind h fun _ he => .cons .expectMark fun _ _ => .pure he)

/-- A literal is its token. -/
theorem Parses.literal {make : Node → Expr} {t : Token} {P : Expr → Prop}
    (hP : ∀ node, node.id = n → P (make node)) : Parses (literal make) n [t] rest P (n + 1) :=
  .before .lookHere fun _ _ => .cons .advance fun _ _ => .behind .freshNode fun node hn =>
    .pure (hP node hn)

theorem fields_head {base p : Place} (h : Reads n ts (.fields base p) m) :
    ts = [] ∨ ∃ us, ts = .mark .dot :: us := by
  cases h with
  | fieldsNil => exact .inl rfl
  | fieldsCons => exact .inr ⟨_, rfl⟩

theorem ends_operand {l o : Level} {left e : Expr} (ho : l.operand? = some o)
    (h : Reads n ts (.chain l left e) m) (hr : l.Ends rest) : o.Ends (ts ++ rest) := by
  have hlt := Level.rank_operand ho
  cases h with
  | chainNil => exact hr.mono (Nat.le_of_lt hlt)
  | chainCons _ _ hop => exact Level.ends_cons_of_rank (Level.rank_of_op hop) hlt

theorem Parses.binary {op : BinaryOp} {left left' right right' : Expr} {s : Span}
    (hl : left'.shape = left.shape) (hr : right'.shape = right.shape) :
    Parses (binary left' op right') n [] rest
      (·.shape = (Expr.binary ⟨n, s⟩ op left right).shape) (n + 1) :=
  .before .freshNode fun node hn => .pure (by simp [Expr.shape, hl, hr, hn, Node.shape])

/-- The parts of a list of arguments behind which another one or the end comes. -/
theorem ends_moreArgs {l : Level} {es : List Expr} (h : Reads n ts (.moreArgs es) m)
    (hr : rest.head? = some (.mark .rightParen)) : l.Ends (ts ++ rest) := by
  cases h with
  | moreNil => exact ends_of_rightParen hr
  | moreCons => exact Level.ends_cons rfl

/-- A phrase starts with no mark but a sign or an opening parenthesis. -/
theorem head?_ne_mark {x : Phrase} {k : Mark} (hx : x.Solid) (h : Reads n ts x m)
    (hk : signOp? (.mark k) = none) (hparen : k ≠ .leftParen) : ts.head? ≠ some (.mark k) := by
  induction h with
  | chain _ h _ ih =>
    rw [head?_append_of_ne_nil (h.ne_nil (by trivial))]
    exact ih trivial
  | comparison _ _ hl _ ih =>
    rw [head?_append_of_ne_nil (hl.ne_nil (by trivial))]
    exact ih trivial
  | assign _ hp _ ih =>
    rw [head?_append_of_ne_nil (hp.ne_nil (by trivial))]
    exact ih trivial
  | sign _ hop => rintro ⟨⟩; simp [hk] at hop
  | target _ ih => exact ih trivial
  | placeExpr _ ih => exact ih trivial
  | primary _ ih => exact ih trivial
  | operand _ ih => exact ih trivial
  | disjunction _ ih => exact ih trivial
  | targetParen => simpa using hparen.symm
  | paren => simpa using hparen.symm
  | _ => first | exact hx.elim | simp

/-- **The parsers read what the grammar derives.** -/
theorem reads_complete {x : Phrase} (h : Reads n ts x m) : Complete n ts m x := by
  induction h with
  | @place n m ts x p s s' h ih =>
    intro nested rest hr
    have hparen : (ts ++ rest).head? ≠ some (.mark .leftParen) := by
      obtain rfl | ⟨us, rfl⟩ := fields_head h
      · exact hr.ne rfl (Nat.le_refl _)
      · simp
    refine .bindPeek (.cons .identifier fun i hi => .bindAcceptNot (Token.fixed_mark _) hparen ?_)
    refine .before .freshNode fun node hnode => .behind (.bounded fun fuel hf => ?_) fun q hq =>
      .pure (by simpa [Expr.shape] using hq)
    exact ih _ fuel rest (by simp [Place.shape, hi, hnode, Ident.shape, Node.shape]) hf hr
  | fieldsNil =>
    intro base' fuel rest hb _ hr
    cases fuel with
    | nil => exact .pure hb
    | cons l fuel =>
      exact .bindAcceptNot (Token.fixed_mark _) (hr.ne rfl (Nat.le_refl _)) (.pure hb)
  | fieldsCons s s' h ih =>
    intro base' fuel rest hb hf hr
    cases fuel with
    | nil => simp at hf
    | cons l fuel =>
      refine .bindAccept (Token.fixed_mark _) (.cons .identifier fun i hi =>
        .before .freshNode fun node hnode => ih _ fuel rest ?_ ?_ hr)
      · simp [Place.shape, hi, hnode, hb, Ident.shape, Node.shape]
      · simp only [List.length_cons] at hf
        omega
  | target h ih =>
    intro bound rest l hl _ hr
    obtain ⟨x, us, rfl⟩ := head?_of_place h
    exact .raise hl (fun rest hr => ih _ rest hr) (by simp) rfl hr
  | targetParen h ih =>
    intro bound rest l hl hb hr
    refine .raise hl (fun rest _ => .paren ?_) (by simp) rfl hr
    simp only [List.length_cons, List.length_append, List.length_nil] at hb
    cases bound with
    | nil => exact absurd (List.length_pos_iff.2 (h.ne_nil (by trivial))) (by simp at hb)
    | cons b bound =>
      simp only [List.length_cons] at hb
      exact (ih bound _ .disjunction (by decide) (by omega)
        (parenHead _)).1.disjunctionToAssignment (parenHead _)
  | int s =>
    intro bound rest _ _
    exact .of_ne (by decide) (.bindPeek (.literal fun _ hn => by simp [Expr.shape, hn, Node.shape]))
  | str s =>
    intro bound rest _ _
    exact .of_ne (by decide) (.bindPeek (.literal fun _ hn => by simp [Expr.shape, hn, Node.shape]))
  | trueWord s =>
    intro bound rest _ _
    exact .of_ne (by decide) (.bindPeek (.literal fun _ hn => by simp [Expr.shape, hn, Node.shape]))
  | falseWord s =>
    intro bound rest _ _
    exact .of_ne (by decide) (.bindPeek (.literal fun _ hn => by simp [Expr.shape, hn, Node.shape]))
  | placeExpr _ ih =>
    intro bound rest _ hr
    exact .of_ne (by decide) (ih _ rest hr)
  | call s s' h ih =>
    intro bound rest hb _
    simp only [List.length_cons, List.length_append, List.length_nil] at hb
    refine .of_ne (by decide) (.bindPeek (.cons .identifier fun i hi =>
      .bindAccept (Token.fixed_mark _) ?_))
    refine .bind (ih bound _ (by omega) rfl) fun es hes => .cons .expectMark fun _ _ =>
      .behind .freshNode fun node hn => .pure ?_
    simp [Expr.shape, hi, hn, hes, Ident.shape, Node.shape]
  | paren h ih =>
    intro bound rest hb _
    simp only [List.length_cons, List.length_append, List.length_nil] at hb
    exact .of_ne (by decide)
      (.paren (Complete.nested ih (h.ne_nil (by trivial)) (by omega) (parenHead _)))
  | primary h ih =>
    intro bound rest hb hr
    have hne := h.ne_nil (by trivial)
    have hs := signOp?_of_primary h
    exact .unary fun fuel _ => (ih bound rest hb hr).1.primaryToUnary
      (by rwa [head?_append_of_ne_nil hne])
  | sign s hop h ih =>
    intro bound rest hb hr
    refine .unary fun fuel hf => ?_
    cases fuel with
    | nil => simp at hf
    | cons l fuel =>
      simp only [List.length_cons] at hb hf
      have hoperand := (ih bound rest (by omega) hr).2 rfl fuel (by omega)
      exact .before .lookHere fun _ _ => .bindAcceptMap hop (.behind hoperand fun e he =>
        .before .freshNode fun node hn => .pure (by simp [Expr.shape, he, hn, Node.shape]))
  | @chain n m k ts us l o left e ho h hc ih ihc =>
    intro bound rest hb hr
    have hl : l ≠ .unary := by rintro rfl; cases ho
    rw [List.length_append] at hb
    have hleft := (ih bound _ (by omega) (ends_operand ho hc hr)).1
    refine .of_ne hl ?_
    rw [levelParser_chain ho]
    exact .bind hleft fun left' hleft => .bounded fun fuel hf =>
      ihc o bound fuel rest left' ho hleft (by omega) hf hr
  | chainNil =>
    intro o bound fuel rest left' _ hleft _ _ hr
    exact .chainEnd hr hleft
  | @chainCons n m k ts us l o t op left right e s ho hop h hc ih ihc =>
    intro o' bound fuel rest left' ho' hleft hb hf hr
    obtain rfl : o = o' := Option.some.inj (ho.symm.trans ho')
    simp only [List.length_cons, List.length_append] at hb hf
    cases fuel with
    | nil => simp at hf
    | cons x fuel =>
      rw [List.length_cons] at hf
      have hright := (ih bound _ (by omega) (ends_operand ho hc hr)).1
      exact .bindAcceptMap hop (.bind hright fun right' hright =>
        .before (.binary (s := s) hleft hright) fun b hb' =>
          ihc o bound fuel rest b ho hb' (by omega) (by omega) hr)
  | operand h ih =>
    intro bound rest hb hr
    exact .of_ne (by decide) ((ih bound rest hb (hr.mono (by decide))).1.additiveToComparison hr)
  | @comparison n m k ts us t op left right s hop hl hright ihl ihr =>
    intro bound rest hb hr
    simp only [List.length_cons, List.length_append] at hb
    have hends : Level.additive.Ends (t :: us ++ rest) :=
      Level.ends_cons_of_rank (Level.rank_of_comparison hop) (by decide)
    have hleft := (ihl bound _ (by omega) hends).1
    have hright := (ihr bound rest (by omega) (hr.mono (by decide))).1
    refine .of_ne (by decide) (.bind hleft fun left' hleft => .bindAcceptMap hop ?_)
    refine .behind hright fun right' hright =>
      .before (.binary (s := s) hleft hright) fun b hb' => ?_
    refine .bindLook (c := false) (fun c hc => ?_) (.pure hb')
    rw [Cursor.peek?_eq, hc, List.nil_append, hr.comparisonOp?]
    rfl
  | disjunction h ih =>
    intro bound rest hb hr
    exact .of_ne (by decide) ((ih bound rest hb (hr.mono (by decide))).1.disjunctionToAssignment hr)
  | @assign n m k ts us p e s hp he ihp ihe =>
    intro bound rest hb hr
    simp only [List.length_cons, List.length_append] at hb
    have hpos := List.length_pos_iff.2 (hp.ne_nil (by trivial))
    have hleft := (ihp bound (.mark .equal :: us ++ rest) .disjunction (by decide) (by omega)
      (Level.ends_cons_of_rank rfl (by decide))).1
    have hb' : us.length ≤ bound.length := by omega
    have hvalue := Complete.nested ihe (he.ne_nil (by trivial)) hb' hr
    refine .of_ne (by decide) (.bind hleft fun left hleft => ?_)
    obtain ⟨q, rfl, hq⟩ := Expr.eq_place_of_shape hleft
    exact .bindCheck (Token.fixed_mark _) rfl (.cons .advance fun _ _ => .behind hvalue fun v hv =>
      .before .freshNode fun node hn => .pure (by simp [Expr.shape, hn, hq, hv, Node.shape]))
  | argsNil =>
    intro bound rest _ hr
    exact .bindCheck (Token.fixed_mark _) hr (.pure rfl)
  | argsCons h hs ih ihs =>
    intro bound rest hb hr
    have hne := h.ne_nil (by trivial)
    have hhead := head?_ne_mark (k := .rightParen) (by trivial) h rfl (by decide)
    rw [← head?_append_of_ne_nil hne, ← List.append_assoc] at hhead
    rw [List.length_append] at hb
    refine .bindCheckNot (Token.fixed_mark _) hhead ?_
    exact .commaList (Complete.nested ih hne (by omega) (ends_moreArgs hs hr))
      (fun fuel hf => ihs bound fuel rest (by omega) hf hr)
      fun e es he hes => by simp [Expr.shapes, he, hes]
  | moreNil =>
    intro bound fuel rest _ _ hr
    exact .moreItemsEnd fuel hr rfl
  | moreCons h hs ih ihs =>
    intro bound fuel rest hb hf hr
    simp only [List.length_cons, List.length_append] at hb
    exact .moreItemsCons hf
      (Complete.nested ih (h.ne_nil (by trivial)) (by omega) (ends_moreArgs hs hr))
      (fun fuel hf => ihs bound fuel rest (by omega) hf hr)
      fun e es he hes => by simp [Expr.shapes, he, hes]

theorem Parses.expression {e : Expr} (h : ReadsExpr n ts e m) (hr : Level.assignment.Ends rest) :
    Parses expression n ts rest (·.shape = e.shape) m :=
  .bounded fun _ hb => (reads_complete h).nested (h.ne_nil (by trivial)) hb hr

/-- A place in parentheses is read as an expression. -/
theorem Parses.target {p : Place} (h : Reads n ts (.target p) m)
    (hr : Level.assignment.Ends rest) :
    Parses Parser.expression n ts rest (·.shape = .place p.shape) m := by
  refine .bounded fun bound hb => ?_
  cases bound with
  | nil => exact absurd (List.length_eq_zero_iff.1 (Nat.le_zero.1 hb)) (h.ne_nil (by trivial))
  | cons l bound =>
    exact (reads_complete h bound rest .disjunction (by decide) hb
      (hr.mono (by decide))).1.disjunctionToAssignment hr

theorem ends_semicolon {l : Level} : l.Ends (.mark .semicolon :: rest) := Level.ends_cons rfl

/-! ## Statements and blocks -/

theorem Parses.typeSpec {type : TypeSpec} (h : ReadsType n ts type m) :
    Parses typeSpec n ts rest (·.shape = type.shape) m := by
  cases h with
  | scalar hsc => exact .bindAcceptMap hsc (.pure rfl)
  | struct s =>
    exact .bindAcceptMapNot rfl (.bindAccept (Token.fixed_word _)
      (.behind .identifier fun i hi => .pure (by simp [TypeSpec.shape, Ident.shape, hi])))

theorem Parses.varDecl {d : VarDecl} (h : ReadsVar n ts d m) :
    Parses varDecl n ts rest (·.shape = d.shape) m := by
  cases h with
  | mk s s' h =>
    refine .before .lookHere fun _ _ => .bind (.typeSpec h) fun type ht =>
      .cons .identifier fun i hi => .behind .expectMark fun _ _ => .pure ?_
    simp [VarDecl.shape, Ident.shape, ht, hi]

/-- The first token of a phrase satisfies `p`. -/
def Starts (p : Token → Bool) (ts : List Token) : Prop := ∃ t us, ts = t :: us ∧ p t = true

theorem Starts.ne_nil {p : Token → Bool} (h : Starts p ts) : ts ≠ [] := by
  obtain ⟨t, us, rfl, -⟩ := h
  simp

theorem Starts.head? {p : Token → Bool} (h : Starts p ts) : (ts ++ rest).head?.any p = true := by
  obtain ⟨t, us, rfl, ht⟩ := h
  simpa using ht

theorem Starts.mono {p q : Token → Bool} (hpq : ∀ t, p t = true → q t = true)
    (h : Starts p ts) : Starts q ts := by
  obtain ⟨t, us, rfl, ht⟩ := h
  exact ⟨t, us, rfl, hpq t ht⟩

section

variable {α : Type} {more : Token → Bool} {item : Parser α} {A : α → Prop} {As R : List α → Prop}

/-- A repetition stops where the next token starts no item. -/
theorem Parses.repeatEnd (fuel : List Lexeme) (hr : rest.head?.any more = false) (hR : R []) :
    Parses (repeatWithin more item fuel) n [] rest R n := by
  cases fuel with
  | nil => exact .pure hR
  | cons l fuel =>
    refine .bindLook (c := false) (fun s hs => ?_) (.pure hR)
    rw [Cursor.peek?_eq, hs, List.nil_append, hr]

/-- A repetition reads an item and the ones behind it. -/
theorem Parses.repeatCons {fuel : List Lexeme} (hst : Starts more ts)
    (hf : (ts ++ us).length ≤ fuel.length) (ha : Parses item n ts (us ++ rest) A k)
    (has : ∀ fuel : List Lexeme, us.length ≤ fuel.length →
      Parses (repeatWithin more item fuel) k us rest As m)
    (hR : ∀ a as, A a → As as → R (a :: as)) :
    Parses (repeatWithin more item fuel) n (ts ++ us) rest R m := by
  have hpos := List.length_pos_iff.2 hst.ne_nil
  rw [List.length_append] at hf
  cases fuel with
  | nil =>
    rw [List.length_nil] at hf
    omega
  | cons l fuel =>
    have hus : us.length ≤ fuel.length := by
      rw [List.length_cons] at hf
      omega
    refine .bindLook (c := true) (fun s hs => ?_) (.bind ha fun a hA =>
      .behind (has fuel hus) fun as hAs => .pure (hR a as hA hAs))
    rw [Cursor.peek?_eq, hs, List.append_assoc, hst.head?]

end

/-- A repetition reads all of its items, if each of them starts as it should and what comes
behind does not. -/
theorem Parses.repeatWithin {α : Type} {R : NodeId → List Token → α → NodeId → Prop}
    {more : Token → Bool} {item : Parser α} {shape : α → α}
    (hR : ∀ {n ts a m}, R n ts a m → Starts more ts)
    {as : List α} (h : ReadsMany R n ts as m) (fuel : List Lexeme) (hf : ts.length ≤ fuel.length)
    (hi : ∀ {n us a m rest}, R n us a m → Parses item n us rest (shape · = shape a) m)
    (hr : rest.head?.any more = false) :
    Parses (repeatWithin more item fuel) n ts rest (List.map shape · = as.map shape) m := by
  induction h generalizing fuel with
  | nil => exact .repeatEnd fuel hr rfl
  | cons ha has ih =>
    exact .repeatCons (hR ha) hf (hi ha) ih fun a' as' ha' has' => by simp [ha', has']

theorem Parses.repeatWhile {α : Type} {R : NodeId → List Token → α → NodeId → Prop}
    {more : Token → Bool} {item : Parser α} {shape : α → α}
    (hR : ∀ {n ts a m}, R n ts a m → Starts more ts)
    {as : List α} (h : ReadsMany R n ts as m)
    (hi : ∀ {n us a m rest}, R n us a m → Parses item n us rest (shape · = shape a) m)
    (hr : rest.head?.any more = false) :
    Parses (repeatWhile more item) n ts rest (List.map shape · = as.map shape) m :=
  .bounded fun fuel hf => .repeatWithin hR h fuel hf hi hr

theorem starts_varDecl {d : VarDecl} (h : ReadsVar n ts d m) : Starts startsVarDecl ts := by
  cases h with
  | mk s s' h =>
    cases h with
    | @scalar t _ hsc =>
      refine ⟨t, _, rfl, ?_⟩
      unfold scalar? at hsc
      split at hsc <;> first | rfl | cases hsc
    | struct => exact ⟨_, _, rfl, rfl⟩

/-- A token that can start a statement. -/
def startsStmt : Token → Bool
  | .ident _ => true
  | .word .cin | .word .cout | .word .ifWord | .word .whileWord | .word .returnWord => true
  | _ => false

theorem starts_stmt {s : Stmt} (h : ReadsStmt n ts (.stmt s) m) : Starts startsStmt ts := by
  cases h with
  | assign _ _ hp => obtain ⟨x, us, rfl⟩ := head?_of_place hp; exact ⟨_, _, rfl, rfl⟩
  | increment _ hp => obtain ⟨x, us, rfl⟩ := head?_of_place hp; exact ⟨_, _, rfl, rfl⟩
  | decrement _ hp => obtain ⟨x, us, rfl⟩ := head?_of_place hp; exact ⟨_, _, rfl, rfl⟩
  | _ => exact ⟨_, _, rfl, rfl⟩

/-- Behind statements comes another one or the end of the block. -/
theorem head?_of_stmts {ss : List Stmt} (h : ReadsStmt n ts (.stmts ss) m)
    (hr : rest.head? = some (.mark .rightBrace)) :
    ∃ t, (ts ++ rest).head? = some t ∧ (startsStmt t = true ∨ t = .mark .rightBrace) := by
  cases h with
  | nil => exact ⟨_, hr, .inr rfl⟩
  | cons h =>
    obtain ⟨t, us, rfl, ht⟩ := starts_stmt h
    exact ⟨t, rfl, .inl ht⟩

/-- No variable declaration starts where the statements of a block do. -/
theorem head?_of_stmts_varDecl {ss : List Stmt} (h : ReadsStmt n ts (.stmts ss) m) :
    (ts ++ [Token.mark .rightBrace] ++ rest).head?.any startsVarDecl = false := by
  have hr : (Token.mark .rightBrace :: rest).head? = some (.mark .rightBrace) := rfl
  obtain ⟨t, ht, h⟩ := head?_of_stmts h hr
  rw [List.append_assoc, List.singleton_append, ht]
  obtain h | rfl := h
  · cases t with
    | word w => cases w <;> first | rfl | cases h
    | _ => rfl
  · rfl

theorem Parses.finishStatement {start : Span} :
    Parses (finishStatement start) n [.mark .semicolon] rest (fun _ => True) n :=
  .behind .expectMark fun _ _ => .pure trivial

theorem Parses.condition {x : String} {t : Token} {e : Expr} (h : ReadsExpr n ts e m) :
    Parses (condition x) n (t :: .mark .leftParen :: (ts ++ [.mark .rightParen])) rest
      (·.shape = e.shape) m :=
  .cons .advance fun _ _ => .cons .expectMark fun _ _ => .bind (.expression h (parenHead _))
    fun _ he => .cons .expectMark fun _ _ => .pure he

theorem Parses.previousSpan :
    Parses (Parser.look Cursor.previousSpan) n [] rest (fun _ => True) n :=
  .look fun _ _ => trivial

theorem condition_append {t : Token} :
    t :: Token.mark .leftParen :: (ts ++ Token.mark .rightParen :: us) =
      (t :: .mark .leftParen :: (ts ++ [Token.mark .rightParen])) ++ us := by
  simp

/-- A place in parentheses is read as that place. -/
theorem Parses.bindTarget {β : Type} {p : Place} {f : Expr → Parser β} {Q : β → Prop}
    (h : Reads n ts (.target p) k) (hr : Level.assignment.Ends (us ++ rest))
    (hf : ∀ q, q.shape = p.shape → Parses (f (.place q)) k us rest Q m) :
    Parses (Parser.expression >>= f) n (ts ++ us) rest Q m := by
  refine .bind (.target h hr) fun e he => ?_
  obtain ⟨q, rfl, hq⟩ := Expr.eq_place_of_shape he
  exact hf q hq

/-- What the parsers do in front of statements that the grammar derives. -/
def CompletePart (n : NodeId) (ts : List Token) (m : NodeId) : Part → Prop
  | .stmt s => ∀ bound rest, ts.length ≤ bound.length → rest.head? ≠ some (.word .elseWord) →
      Parses (statementOf (bodyWithin bound)) n ts rest (·.shape = s.shape) m
  | .stmts ss => ∀ bound (fuel : List Lexeme) rest, ts.length ≤ bound.length →
      ts.length ≤ fuel.length → rest.head? = some (.mark .rightBrace) →
      Parses (Parser.repeatWithin (!·.sameKind (.mark .rightBrace))
        (statementOf (bodyWithin bound)) fuel) n ts rest (Stmt.shapes · = Stmt.shapes ss) m
  | .body b => ∀ bound rest, ts.length ≤ bound.length →
      Parses (bodyWithin bound) n ts rest (·.shape = b.shape) m

theorem Parses.finishAssign {start s s' : Span} {e v : Expr} {p : Place} {i : NodeId}
    (he : e.shape = (Expr.assign ⟨i, s⟩ p v).shape) :
    Parses (finishExpression start e) n [.mark .semicolon] rest
      (·.shape = (Stmt.assign s' ⟨i, s⟩ p v).shape) n := by
  cases e with
  | assign node target value =>
    simp only [Expr.shape, Expr.assign.injEq] at he
    exact .behind .finishStatement fun _ _ => .pure (by simp [Stmt.shape, he])
  | _ => simp [Expr.shape] at he

theorem Parses.finishCall {start s s' s'' : Span} {e : Expr} {es : List Expr} {i j : NodeId}
    {x : String} (he : e.shape = (Expr.call ⟨i, s⟩ ⟨j, x, s''⟩ es).shape) :
    Parses (finishExpression start e) n [.mark .semicolon] rest
      (·.shape = (Stmt.call s' ⟨i, s⟩ ⟨j, x, s''⟩ es).shape) n := by
  cases e with
  | call node callee args =>
    simp only [Expr.shape, Expr.call.injEq] at he
    exact .behind .finishStatement fun _ _ => .pure (by simp [Stmt.shape, he])
  | _ => simp [Expr.shape] at he

/-- An expression at the head of a statement is the statement, if it is no place. -/
theorem Parses.expressionStatement {start : Span} {e : Expr} {P : Stmt → Prop}
    (h : ReadsExpr n ts e m) (hplace : e.place? = none)
    (hfinish : ∀ e', e'.shape = e.shape →
      Parses (finishExpression start e') m [.mark .semicolon] rest P m) :
    Parses (identifierStatement start) n (ts ++ [.mark .semicolon]) rest P m := by
  refine .bind (.expression h ends_semicolon) fun e' he' => ?_
  have hplace' := Expr.place?_eq_none_of_shape he' hplace
  simp only [hplace']
  exact hfinish e' he'

/-- A statement starts with the token that tells what kind it is of. -/
theorem Parses.bindStart {α : Type} {t : Token} {f : Span → Option Token → Parser α} {P : α → Prop}
    (h : ∀ start, Parses (f start (some t)) n (t :: ts) rest P m) :
    Parses (Parser.look Cursor.here >>= fun start => Parser.look Cursor.peek? >>= f start) n
      (t :: ts) rest P m :=
  .before .lookHere fun start _ => .bindPeek (h start)

theorem readsStmt_complete {x : Part} (h : ReadsStmt n ts x m) : CompletePart n ts m x := by
  induction h with
  | @assign n m k ts us p e s s' hp he =>
    intro bound rest _ _
    have hE : ReadsExpr n _ (.assign ⟨k, s'⟩ p e) (k + 1) := .assign s' (.target hp) he
    obtain ⟨x, vs, rfl⟩ := head?_of_place hp
    rw [← List.cons_append, ← List.append_assoc]
    exact .bindStart fun _ => .expressionStatement hE rfl fun _ he' => .finishAssign he'
  | @increment n m ts p s hp =>
    intro bound rest _ _
    have hends : Level.assignment.Ends
      (.mark .plusPlus :: .mark .semicolon :: rest) := Level.ends_cons rfl
    obtain ⟨x, vs, rfl⟩ := head?_of_place hp
    exact .bindStart fun _ => .bindTarget (.target hp) hends fun q hq =>
      .bindAccept (Token.fixed_mark _)
        (.behind .finishStatement fun _ _ => .pure (by simp [Stmt.shape, hq]))
  | @decrement n m ts p s hp =>
    intro bound rest _ _
    have hends : Level.assignment.Ends
      (.mark .minusMinus :: .mark .semicolon :: rest) := Level.ends_cons rfl
    obtain ⟨x, vs, rfl⟩ := head?_of_place hp
    exact .bindStart fun _ => .bindTarget (.target hp) hends fun q hq =>
      .bindAcceptNot (Token.fixed_mark _) (by simp) (.bindAccept (Token.fixed_mark _)
        (.behind .finishStatement fun _ _ => .pure (by simp [Stmt.shape, hq])))
  | read s hp =>
    intro bound rest _ _
    exact .bindStart fun _ => .cons .advance fun _ _ => .cons .expectMark fun _ _ =>
      .bindTarget hp ends_semicolon fun q hq =>
        .behind .finishStatement fun _ _ => .pure (by simp [Stmt.shape, hq])
  | write s he =>
    intro bound rest _ _
    exact .bindStart fun _ => .cons .advance fun _ _ => .cons .expectMark fun _ _ =>
      .bind (.expression he ends_semicolon) fun e' he' =>
        .behind .finishStatement fun _ _ => .pure (by simp [Stmt.shape, he'])
  | @ifThen n m k ts us e b s he hb ihb =>
    intro bound rest hlen helse
    simp only [List.length_cons, List.length_append] at hlen
    rw [condition_append]
    refine .bindStart fun _ => .bind (.condition he) fun e' he' =>
      .behind (ihb bound rest (by omega)) fun b' hb' => ?_
    exact .bindAcceptNot (Token.fixed_word _) helse
      (.before .previousSpan fun _ _ => .pure (by simp [Stmt.shape, he', hb']))
  | @ifElse n m k j ts us vs e b b' s he hb hb' ihb ihb' =>
    intro bound rest hlen helse
    simp only [List.length_cons, List.length_append] at hlen
    rw [condition_append]
    refine .bindStart fun _ => .bind (.condition he) fun e' he' =>
      .bind (ihb bound _ (by omega)) fun c hc => .bindAccept (Token.fixed_word _) ?_
    exact .behind (ihb' bound rest (by omega)) fun c' hc' =>
      .before .previousSpan fun _ _ => .pure (by simp [Stmt.shape, he', hc, hc'])
  | @whileLoop n m k ts us e b s he hb ihb =>
    intro bound rest hlen _
    simp only [List.length_cons, List.length_append] at hlen
    rw [condition_append]
    exact .bindStart fun _ => .bind (.condition he) fun e' he' =>
      .behind (ihb bound rest (by omega)) fun b' hb' =>
        .before .previousSpan fun _ _ => .pure (by simp [Stmt.shape, he', hb'])
  | @call n m ts x es s s' s'' h =>
    intro bound rest _ _
    have hE : ReadsExpr n _ (.call ⟨m, s'⟩ ⟨n, x, s''⟩ es) (m + 1) :=
      (Reads.call s' s'' h).ofPrimary _
    have hts :
        Token.ident x :: .mark .leftParen :: (ts ++ [Token.mark .rightParen, .mark .semicolon]) =
          (Token.ident x :: .mark .leftParen :: (ts ++ [Token.mark .rightParen])) ++
            [Token.mark .semicolon] := by
      simp
    rw [hts]
    exact .bindStart fun _ => .expressionStatement hE rfl fun _ he' => .finishCall he'
  | ret s =>
    intro bound rest _ _
    exact .bindStart fun _ => .cons .advance fun _ _ => .bindCheck (Token.fixed_mark _) rfl
      (.behind .finishStatement fun _ _ => .pure rfl)
  | @retValue n m ts e s he =>
    intro bound rest _ _
    have hhead := head?_ne_mark (k := .semicolon) (by trivial) he rfl (by decide)
    rw [← head?_append_of_ne_nil (he.ne_nil (by trivial)), ← List.append_assoc] at hhead
    exact .bindStart fun _ => .cons .advance fun _ _ => .bindCheckNot (Token.fixed_mark _) hhead
      (.bind (.expression he ends_semicolon) fun e' he' =>
        .behind .finishStatement fun _ _ => .pure (by simp [Stmt.shape, he']))
  | nil =>
    intro bound fuel rest _ _ hr
    exact .repeatEnd fuel (by rw [hr]; rfl) rfl
  | @cons n m k ts us s ss h hs ih ihs =>
    intro bound fuel rest hb hf hr
    have hst : Starts (!·.sameKind (.mark .rightBrace)) ts := (starts_stmt h).mono fun t ht => by
      have : t ≠ .mark .rightBrace := by rintro rfl; cases ht
      simpa [Token.sameKind_mark, ← Bool.not_eq_true] using this
    have helse : (us ++ rest).head? ≠ some (.word .elseWord) := by
      obtain ⟨t, ht, h⟩ := head?_of_stmts hs hr
      rw [ht]
      rintro ⟨⟩
      simp [startsStmt] at h
    rw [List.length_append] at hb
    exact .repeatCons hst hf (ih bound _ (by omega) helse)
      (fun fuel hf => ihs bound fuel rest (by omega) hf hr)
      fun s' ss' hs' hss' => by simp [Stmt.shapes, hs', hss']
  | @body n m k ts us ds ss hd hs ihs =>
    intro bound rest hb
    simp only [List.length_cons, List.length_append, List.length_nil] at hb
    cases bound with
    | nil => simp at hb
    | cons l bound =>
      simp only [List.length_cons] at hb
      rw [List.append_assoc]
      refine .cons .expectMark fun _ _ =>
        .bind (.repeatWhile starts_varDecl hd .varDecl (head?_of_stmts_varDecl hs)) fun ds' hds' =>
          .bind (.bounded fun fuel hf => ihs bound fuel _ (by omega) hf rfl) fun ss' hss' =>
            .behind .expectMark fun _ _ => .pure (by simp [Body.shape, hds', hss'])

/-! ## Declarations and programs -/

theorem Parses.body {b : Body} (h : ReadsStmt n ts (.body b) m) :
    Parses body n ts rest (·.shape = b.shape) m :=
  .bounded fun bound hb => readsStmt_complete h bound rest hb

theorem Parses.param {p : Param} (h : ReadsParam n ts p m) :
    Parses param n ts rest (·.shape = p.shape) m := by
  cases h with
  | mk s s' h =>
    exact .before .lookHere fun _ _ => .bindAcceptMap h
      (.behind .identifier fun i hi => .pure (by simp [Param.shape, Ident.shape, hi]))

theorem Parses.moreParams {ps : List Param} (h : ReadsMany ReadsNextParam n ts ps m)
    (fuel : List Lexeme) (hf : ts.length ≤ fuel.length)
    (hr : rest.head? = some (.mark .rightParen)) :
    Parses (moreItemsWithin Parser.param fuel) n ts rest
      (List.map Param.shape · = ps.map Param.shape) m := by
  induction h generalizing fuel with
  | nil => exact .moreItemsEnd fuel hr rfl
  | cons hp _ ih =>
    cases hp with
    | mk hp => exact .moreItemsCons hf (.param hp) ih fun p' ps' hp' hps' => by simp [hp', hps']

theorem Parses.params {ps : List Param} (h : ReadsParams n ts ps m)
    (hr : rest.head? = some (.mark .rightParen)) :
    Parses params n ts rest (List.map Param.shape · = ps.map Param.shape) m := by
  cases h with
  | nil => exact .bindCheck (Token.fixed_mark _) hr (.pure rfl)
  | cons hp hps =>
    have hfirst := hp
    cases hfirst with
    | @mk t type x s s' hsc =>
      have ht : t ≠ .mark .rightParen := by rintro rfl; cases hsc
      exact .bindCheckNot (Token.fixed_mark _) (by simpa using ht)
        (.commaList (.param hp) (fun fuel hf => .moreParams hps fuel hf hr)
          fun p' ps' hp' hps' => by simp [hp', hps'])

theorem ahead?_eq (s : Cursor) (i : Nat) : s.ahead? i = s.tokens[i]? := by
  simp [Cursor.ahead?, Cursor.tokens]

/-- No struct declaration starts where the word `struct` or the brace is missing. -/
theorem startsStructDecl_false {s : Cursor} (h : s.tokens[0]? ≠ some (.word .struct) ∨
    s.tokens[2]? ≠ some (.mark .leftBrace)) : startsStructDecl s = false := by
  unfold startsStructDecl
  rw [ahead?_eq, ahead?_eq, ahead?_eq]
  split
  next h0 _ h2 => exact absurd h (by simp [h0, h2])
  next => rfl

theorem scalar?_ne_struct {t : Token} {sc : Scalar} (h : scalar? t = some sc) :
    t ≠ .word .struct := by
  rintro rfl
  cases h

theorem Parses.structDecl {x : String} {ds : List VarDecl} {start s s' : Span}
    (h : ReadsMany ReadsVar (n + 1) ts ds m) (hne : ds ≠ []) :
    Parses (structDecl start) n (.ident x :: .mark .leftBrace ::
        (ts ++ [.mark .rightBrace, .mark .semicolon])) rest
      (·.shape = (StructDecl.mk ⟨n, x, s⟩ ds s').shape) m := by
  refine .cons .identifier fun i hi => .cons .expectMark fun _ _ =>
    .bind (.repeatWhile starts_varDecl h .varDecl rfl) fun ds' hds' => ?_
  have hne' : ds'.isEmpty = false := by
    cases ds' with
    | nil => simp [eq_comm, hne] at hds'
    | cons => rfl
  rw [hne']
  exact .cons .expectMark fun _ _ => .behind .expectMark fun _ _ =>
    .pure (by simp [StructDecl.shape, Ident.shape, hi, hds'])

theorem Parses.fnDecl {returns : Scalar} {i j : Ident} {ps : List Param} {b : Body}
    {start s' : Span} (hi : i.shape = j.shape) (hp : ReadsParams n ts ps m)
    (hb : ReadsStmt m us (.body b) k) :
    Parses (fnDecl returns i start) n (.mark .leftParen :: (ts ++ .mark .rightParen :: us)) rest
      (·.shape = (FnDecl.mk returns j ps b s').shape) k :=
  .cons .expectMark fun _ _ => .bind (.params hp rfl) fun ps' hps' => .cons .expectMark fun _ _ =>
    .behind (.body hb) fun b' hb' => .before .previousSpan fun _ _ =>
      .pure (by simp [FnDecl.shape, hi, hps', hb'])

theorem Parses.decl {d : Decl} (h : ReadsDecl n ts d m) :
    Parses decl n ts rest (·.shape = d.shape) m := by
  cases h with
  | var h =>
    cases h with
    | @mk k ts x type s s' h =>
      refine .before .lookHere fun _ _ => .bindLook (c := false) (fun c hc => ?_) ?_
      · refine startsStructDecl_false ?_
        rw [hc]
        cases h with
        | scalar hsc => exact .inl (by simpa using scalar?_ne_struct hsc)
        | struct => exact .inr (by simp)
      · exact .bind (.typeSpec h) fun type' htype => .cons .identifier fun i hi =>
          .bindCheckNot (Token.fixed_mark _) (by simp) (.behind .expectMark fun _ _ =>
            .pure (by simp [Decl.shape, VarDecl.shape, Ident.shape, htype, hi]))
  | struct s s' h hne =>
    refine .before .lookHere fun _ _ => .bindLook (c := true) (fun c hc => ?_) ?_
    · unfold startsStructDecl
      rw [ahead?_eq, ahead?_eq, ahead?_eq, hc]
      rfl
    · exact .cons .advance fun _ _ => .behind (.structDecl h hne) fun d' hd' =>
        .pure (by simpa [Decl.shape] using hd')
  | @fn _ m ts us t returns x ps b s s' ht hp hb =>
    refine .before .lookHere fun _ _ => .bindLook (c := false) (fun c hc => ?_) ?_
    · refine startsStructDecl_false (.inl ?_)
      rw [hc]
      simpa using scalar?_ne_struct ht
    · refine .cons (.typeSpec (.scalar ht)) fun type htype => .cons .identifier fun i hi =>
        .bindCheck (Token.fixed_mark _) rfl ?_
      cases type with
      | scalar sc =>
        obtain rfl : sc = returns := by simpa [TypeSpec.shape] using htype
        refine .behind (.fnDecl (j := ⟨n, x, s⟩) ?_ hp hb) fun d' hd' =>
          .pure (by simpa [Decl.shape] using hd')
        simp [Ident.shape, hi]
      | struct => simp [TypeSpec.shape] at htype

end

end Parser

/-- **The parser accepts what the grammar derives**, and finds the tree that was derived. -/
theorem parse_complete {ls : List Lexeme} {p : Program}
    (h : Grammar.ReadsProgram (ls.map Lexeme.token) p) :
    ∃ q, parse ls = .ok q ∧ q.shape = p.shape := by
  generalize hts : ls.map Lexeme.token = ts at h
  cases h with
  | mk h =>
    have hd := Parser.Parses.repeatWhile (R := Grammar.ReadsDecl) (fun h => by
        obtain ⟨t, us, ht⟩ := List.exists_cons_of_ne_nil (Parser.ReadsDecl.ne_nil h)
        exact ⟨t, us, ht, rfl⟩) h .decl
      (show ([] : List Token).head?.any (fun _ => true) = false from rfl)
    obtain ⟨ds, s, hs, hds, -, hn⟩ := hd (.start ls) (by rw [List.append_nil]; exact hts) rfl
    refine ⟨⟨ds, s.nextId⟩, ?_, by simp [Program.shape, hds, hn]⟩
    have : Parser.program (.start ls) = .ok ⟨ds, s.nextId⟩ s :=
      Parser.bind_ok.2 ⟨ds, s, hs, Parser.bind_ok.2 ⟨_, s, rfl, rfl⟩⟩
    rw [parse, this]

end FlatC
