import FlatC.Proofs.Spans.Nesting

/-!
# What the parser reads stands where it was read

`Parser.Traces ls p i Q` follows a parser over the tokens `ls`: from the `i`th it gets to a later one,
`Q` says which outlines stand in between, and if it fails, the problem is one of grammar and points
at tokens (`Blames`). An expression is traced by `Row ls i [e.outline] j`, and a list by a longer row.

A node is put around what was read by merging two spans. The first is that of the token where the
parser began, which it looked up beforehand; if there was no token it fails before the span is used.
-/

namespace FlatC

variable {ls : List Lexeme} {i j k m n : Nat}

/-- The problem is one of grammar, and at some tokens if there are any. -/
structure Blames (ls : List Lexeme) (e : Problem) : Prop where
  grammar : e.code.category = .grammar
  covered : ls ≠ [] → Covered ls e.span

/-- The cursor stands in front of the `i`th token. -/
structure Cursor.At (ls : List Lexeme) (i : Nat) (s : Cursor) : Prop where
  rest : s.rest = ls.drop i
  last : ∀ k, i = k + 1 → ∃ l, ls[k]? = some l ∧ s.last = some l.span

namespace Cursor.At

variable {s : Cursor}

theorem start : (Cursor.start ls).At ls 0 := ⟨rfl, fun _ h => (by cases h)⟩

theorem head? (h : s.At ls i) : s.rest.head? = ls[i]? := by
  rw [h.rest, List.head?_drop]

theorem peek? (h : s.At ls i) : s.peek? = ls[i]?.map Lexeme.token := by
  rw [Cursor.peek?, h.head?]

theorem peek?_lt (h : s.At ls i) {t : Token} (ht : s.peek? = some t) : i < ls.length := by
  rw [h.peek?] at ht
  obtain ⟨l, hl, -⟩ := Option.map_eq_some_iff.1 ht
  exact (List.getElem?_eq_some_iff.1 hl).1

theorem check_lt (h : s.At ls i) {t : Token} (ht : s.check t = true) : i < ls.length := by
  cases hx : s.peek? with
  | none =>
    rw [Cursor.check, hx] at ht
    cases ht
  | some x => exact h.peek?_lt hx

/-- A new id is handed out. -/
theorem fresh (h : s.At ls i) {id : NodeId} : ({ s with nextId := id } : Cursor).At ls i :=
  ⟨h.rest, h.last⟩

theorem next (h : s.At ls i) (hi : i < ls.length) : s.next.At ls (i + 1) := by
  have hdrop : s.rest = ls[i] :: ls.drop (i + 1) := by
    rw [h.rest, List.drop_eq_getElem_cons hi]
  refine ⟨by rw [rest_next, hdrop, List.tail_cons], fun k hk => ?_⟩
  obtain rfl := Nat.succ.inj hk
  refine ⟨ls[i], List.getElem?_eq_getElem hi, ?_⟩
  rw [Cursor.next, hdrop]

theorem here (h : s.At ls i) (hi : i < ls.length) : Covers ls i (i + 1) s.here := by
  have hl := List.getElem?_eq_getElem hi
  rw [Cursor.here, peekSpan?, h.head?, hl]
  exact .token hl

/-- Behind the last token a report points at it. -/
theorem covered (h : s.At ls i) (hne : ls ≠ []) : Covered ls s.here := by
  rcases Nat.lt_or_ge i ls.length with hi | hi
  · exact ⟨i, i + 1, h.here hi⟩
  · cases i with
    | zero => exact absurd (List.eq_nil_of_length_eq_zero (Nat.le_zero.1 hi)) hne
    | succ k =>
      obtain ⟨l, hl, hlast⟩ := h.last k rfl
      refine ⟨k, k + 1, ?_⟩
      rw [Cursor.here, peekSpan?, h.head?, List.getElem?_eq_none hi, previousSpan, hlast]
      exact .token hl

theorem previous (h : s.At ls (k + 1)) : Covers ls k (k + 1) s.previousSpan := by
  obtain ⟨l, hl, hlast⟩ := h.last k rfl
  rw [previousSpan, hlast]
  exact .token hl

theorem problem (h : s.At ls i) {c : ErrorCode} (hc : c.category = .grammar) (x : String) :
    Blames ls (s.problem c x) :=
  ⟨hc, h.covered⟩

theorem unexpected (h : s.At ls i) (x : String) : Blames ls (s.unexpected x) := by
  unfold Cursor.unexpected
  split
  · exact h.problem rfl _
  · exact h.problem rfl _

end Cursor.At

namespace Parser

variable {α β : Type} {p : Parser α} {f : α → Parser β} {P : α → Nat → Prop} {Q : β → Nat → Prop}

/-- From the `i`th token the parser moved forward, to where `P` holds of its result, or it failed and
blamed some tokens. -/
def Traced (ls : List Lexeme) (i : Nat) (P : α → Nat → Prop) :
    EStateM.Result Problem Cursor α → Prop
  | .ok a s => ∃ j, i ≤ j ∧ s.At ls j ∧ P a j
  | .error e _ => Blames ls e

/-- In front of the `i`th token the parser moves forward, to where `P` holds of its result, or it
fails and blames some tokens. -/
def Traces (ls : List Lexeme) (p : Parser α) (i : Nat) (P : α → Nat → Prop) : Prop :=
  ∀ s : Cursor, s.At ls i → Traced ls i P (p s)

/-- Wherever the parser begins, the outlines of what it reads stand in a row. -/
def Draws (ls : List Lexeme) (p : Parser α) (outlines : α → List Outline) : Prop :=
  ∀ i, Traces ls p i fun a j => Row ls i (outlines a) j

/-- The same of a block, which has a token also if it is empty. -/
def DrawsBody (ls : List Lexeme) (p : Parser Body) : Prop :=
  ∀ i, Traces ls p i fun b j => i < j ∧ Row ls i b.outlines j

namespace Traces

theorem bind (hp : Traces ls p i P) (hf : ∀ a j, i ≤ j → P a j → Traces ls (f a) j Q) :
    Traces ls (p >>= f) i Q := by
  intro s hs
  have h := hp s hs
  change Traced ls i Q (EStateM.bind p f s)
  unfold EStateM.bind
  cases hr : p s with
  | error e t =>
    rw [hr] at h
    exact h
  | ok a t =>
    rw [hr] at h
    obtain ⟨j, hij, ht, hP⟩ := h
    have h' := hf a j hij hP t ht
    change Traced ls i Q (f a t)
    cases hr' : f a t with
    | error e u =>
      rw [hr'] at h'
      exact h'
    | ok b u =>
      rw [hr'] at h'
      obtain ⟨k, hjk, hu, hQ⟩ := h'
      exact ⟨k, Nat.le_trans hij hjk, hu, hQ⟩

theorem pure {a : α} (h : P a i) : Traces ls (pure a) i P :=
  fun _ hs => ⟨i, Nat.le_refl i, hs, h⟩

theorem mono {P' : α → Nat → Prop} (hp : Traces ls p i P) (h : ∀ a j, i ≤ j → P a j → P' a j) :
    Traces ls p i P' := by
  intro s hs
  have hr := hp s hs
  cases hps : p s with
  | error e t =>
    rw [hps] at hr
    exact hr
  | ok a t =>
    rw [hps] at hr
    obtain ⟨j, hij, ht, hP⟩ := hr
    exact ⟨j, hij, ht, h a j hij hP⟩

theorem look {g : Cursor → α} (h : ∀ s : Cursor, s.At ls i → P (g s) i) :
    Traces ls (look g) i P :=
  fun s hs => ⟨i, Nat.le_refl i, hs, h s hs⟩

/-- A look at the cursor that later steps do not rest on. -/
theorem lookBind {g : Cursor → α} (h : ∀ a, Traces ls (f a) i Q) :
    Traces ls (Parser.look g >>= f) i Q :=
  bind (P := fun _ j => i = j) (look fun _ _ => rfl) fun a _ _ hj => hj ▸ h a

/-- Nothing is read behind a failure. -/
theorem fails (hp : Traces ls p i fun _ _ => False) : Traces ls (p >>= f) i Q :=
  hp.bind fun _ _ _ h => h.elim

/-- The span of the token where something is to begin. -/
theorem here : Traces ls (Parser.look Cursor.here) i fun start j =>
    i = j ∧ (i < ls.length → Covers ls i (i + 1) start) :=
  look fun _ hs => ⟨rfl, hs.here⟩

theorem previous : Traces ls (Parser.look Cursor.previousSpan) i fun stop j =>
    i = j ∧ ∀ k, i = k + 1 → Covers ls k (k + 1) stop := by
  refine look fun s hs => ⟨rfl, fun k hk => ?_⟩
  subst hk
  exact hs.previous

theorem peek? : Traces ls (Parser.look Cursor.peek?) i fun t? j =>
    i = j ∧ ∀ t, t? = some t → i < ls.length :=
  look fun _ hs => ⟨rfl, fun _ ht => hs.peek?_lt ht⟩

theorem advance : Traces ls advance i fun _ j => i < ls.length → i < j := by
  intro s hs
  rcases Nat.lt_or_ge i ls.length with hi | hi
  · exact ⟨i + 1, Nat.le_succ i, hs.next hi, fun _ => Nat.lt_succ_self i⟩
  · have hnext : s.next = s := by
      rw [Cursor.next, hs.rest, List.drop_eq_nil_of_le hi]
    refine ⟨i, Nat.le_refl i, ?_, fun h => absurd hi (Nat.not_le.2 h)⟩
    rw [hnext]
    exact hs

theorem accept {t : Token} : Traces ls (accept t) i fun b _ => b = true → i < ls.length := by
  intro s hs
  unfold Parser.accept
  split
  next h => exact ⟨i + 1, Nat.le_succ i, hs.next (hs.check_lt h), fun _ => hs.check_lt h⟩
  next => exact ⟨i, Nat.le_refl i, hs, fun h => (by cases h)⟩

theorem acceptMap {g : Token → Option α} :
    Traces ls (acceptMap g) i fun a? _ => ∀ a, a? = some a → i < ls.length := by
  intro s hs
  unfold Parser.acceptMap
  split
  next a h =>
    obtain ⟨t, ht, -⟩ := Option.bind_eq_some_iff.1 h
    have hi := hs.peek?_lt ht
    exact ⟨i + 1, Nat.le_succ i, hs.next hi, fun _ _ => hi⟩
  next => exact ⟨i, Nat.le_refl i, hs, fun _ h => (by cases h)⟩

theorem failWith {g : Cursor → Problem} (h : ∀ s : Cursor, s.At ls i → Blames ls (g s)) :
    Traces ls (failWith g) i P :=
  fun s hs => h s hs

theorem fail {c : ErrorCode} {x : String} (hc : c.category = .grammar) :
    Traces ls (fail c x) i P :=
  failWith fun _ hs => hs.problem hc x

theorem unexpected {x : String} : Traces ls (unexpected x) i P :=
  failWith fun _ hs => hs.unexpected x

theorem expect {t : Token} {x : String} :
    Traces ls (expect t x) i fun stop j => Covers ls i j stop := by
  intro s hs
  unfold Parser.expect
  split
  next h => exact ⟨i + 1, Nat.le_succ i, hs.next (hs.check_lt h), hs.here (hs.check_lt h)⟩
  next => exact hs.unexpected x

theorem freshNode {span : Span} :
    Traces ls (freshNode span) i fun node j => i = j ∧ node.span = span :=
  fun _ hs => ⟨i, Nat.le_refl i, hs.fresh, rfl, rfl⟩

theorem identifier {x : String} :
    Traces ls (identifier x) i fun name j => Covers ls i j name.span := by
  intro s hs
  unfold Parser.identifier
  split
  next name span rest h =>
    have hl : ls[i]? = some ⟨.ident name, span⟩ := by
      rw [← hs.head?, h, List.head?_cons]
    have hi := (List.getElem?_eq_some_iff.1 hl).1
    exact ⟨i + 1, Nat.le_succ i, (hs.next hi).fresh, .token hl⟩
  next =>
    change Blames ls (s.expectedIdent x)
    unfold Cursor.expectedIdent
    split
    · exact ⟨rfl, (hs.unexpected x).covered⟩
    · exact hs.unexpected x

/-- A bounded parser, whatever its bound. -/
theorem bounded {g : List Lexeme → Parser α} (h : ∀ bound, Traces ls (g bound) i P) :
    Traces ls (bounded g) i P :=
  fun s hs => h s.rest s hs

end Traces

/-! ## Repetition -/

section

variable {outline : α → Outline}

theorem Draws.repeatWhile {more : Token → Bool} (hp : Draws ls p fun a => [outline a]) :
    Draws ls (repeatWhile more p) (·.map outline) := by
  refine fun i => .bounded fun bound => ?_
  induction bound generalizing i with
  | nil => exact .pure (Nat.le_refl i)
  | cons _ bound ih =>
    refine Traces.lookBind fun b => ?_
    split
    · exact (hp i).bind fun a k _ ha => (ih k).bind fun as m _ has => .pure (ha.append has)
    · exact .pure (Nat.le_refl i)

theorem Draws.commaList (hp : Draws ls p fun a => [outline a]) :
    Draws ls (commaList p) (·.map outline) := by
  have hmore : ∀ bound, Draws ls (moreItemsWithin p bound) (·.map outline) := by
    intro bound
    induction bound with
    | nil => exact fun i => .pure (Nat.le_refl i)
    | cons _ bound ih =>
      intro i
      refine Traces.accept.bind fun b j hij _ => ?_
      split
      · exact (hp j).bind fun a k _ ha => (ih k).bind fun as m _ has =>
          .pure ((ha.mono hij (Nat.le_refl k)).append has)
      · exact .pure hij
  exact fun i => (hp i).bind fun a j _ ha =>
    (Traces.bounded fun bound => hmore bound j).bind fun as k _ has => .pure (ha.append has)

end

/-! ## Expressions

The levels, if what is nested in them is drawn. -/

section

variable {nested : Parser Expr}

namespace Draws

theorem fields (hls : InOrder ls) {base : Place} (hbase : Row ls i [base.outline] j) :
    Traces ls (fields base) j fun q k => Row ls i [q.outline] k := by
  refine .bounded fun bound => ?_
  induction bound generalizing base j with
  | nil => exact .pure hbase
  | cons _ bound ih =>
    refine Traces.accept.bind fun b k hjk _ => ?_
    replace hbase := hbase.mono (Nat.le_refl i) hjk
    split
    · refine Traces.identifier.bind fun name m _ hname => Traces.freshNode.bind ?_
      rintro node _ - ⟨rfl, hnode⟩
      have hpair := hbase.pair hls (.ident hls hname) (.inl rfl)
      rw [Place.span_outline, Place.mark_outline, Ident.span_outline, ← hnode] at hpair
      have hfield : Row ls i [(Place.field node base name).outline] m := hpair
      exact ih hfield
    · exact .pure hbase

theorem binary (hls : InOrder ls) {left right : Expr} {op : BinaryOp}
    (hleft : Row ls i [left.outline] j) (hright : Row ls j [right.outline] k) :
    Traces ls (binary left op right) k fun e m => Row ls i [e.outline] m := by
  refine Traces.freshNode.bind ?_
  rintro node _ - ⟨rfl, hnode⟩
  have hmark : (Expr.binary node op left right).reportSpan = left.outline.mark ∨
      (Expr.binary node op left right).reportSpan = left.outline.span.merge right.outline.span := by
    rw [Expr.span_outline, Expr.span_outline, ← hnode]
    exact Expr.reportSpan_of_part rfl
  have hpair := hleft.pair hls hright hmark
  rw [Expr.span_outline, Expr.span_outline, ← hnode] at hpair
  exact .pure hpair

theorem chain (hls : InOrder ls) {operand : Parser Expr} {op? : Token → Option BinaryOp}
    (h : Draws ls operand fun e => [e.outline]) :
    Draws ls (chain operand op?) fun e => [e.outline] := by
  have hmore : ∀ bound left {i j}, Row ls i [Expr.outline left] j →
      Traces ls (chainWithin operand op? left bound) j fun e k => Row ls i [e.outline] k := by
    intro bound
    induction bound with
    | nil => exact fun _ _ _ hleft => .pure hleft
    | cons _ bound ih =>
      intro left i j hleft
      refine Traces.acceptMap.bind fun op? k hjk _ => ?_
      replace hleft := hleft.mono (Nat.le_refl i) hjk
      cases op? with
      | none => exact .pure hleft
      | some op =>
        exact (h k).bind fun right m _ hright => (binary hls hleft hright).bind fun e n _ he =>
          ih e he
  exact fun i => (h i).bind fun left j _ hleft => .bounded fun bound => hmore bound left hleft

theorem argumentsOf (h : Draws ls nested fun e => [e.outline]) :
    Draws ls (argumentsOf nested) (·.map Expr.outline) := by
  refine fun i => Traces.lookBind fun b => ?_
  split
  · exact .pure (Nat.le_refl i)
  · exact commaList h i

theorem identifierExprOf (hls : InOrder ls) (h : Draws ls nested fun e => [e.outline]) :
    Draws ls (identifierExprOf nested) fun e => [e.outline] := by
  intro i
  refine Traces.identifier.bind fun name j hij hname => Traces.accept.bind fun b k hjk _ => ?_
  have hline := Row.ident hls hname
  split
  · refine (argumentsOf h k).bind fun args m _ hargs => Traces.expect.bind fun stop n hmn hstop =>
      Traces.freshNode.bind ?_
    rintro node _ - ⟨rfl, hnode⟩
    have hle := hargs.le
    have hlt := hstop.lt
    have hspan := hname.merge hls hstop (by omega) (by omega)
    refine .pure ?_
    show Row ls i [(Expr.call node name args).outline] n
    rw [Expr.outline, Expr.outlines_eq, hnode]
    exact .node hls hspan (.inr ⟨name.outline, List.mem_cons_self, rfl⟩)
      (hline.append (hargs.mono hjk (Nat.le_of_lt hlt)))
  · refine Traces.freshNode.bind ?_
    rintro node _ - ⟨rfl, hnode⟩
    have hvar : Row ls i [(Place.var node name).outline] j := by
      rw [Place.outline, hnode]
      exact .plain hls hname hline
    refine (fields hls (hvar.mono (Nat.le_refl i) hjk)).bind fun q m _ hq => .pure ?_
    show Row ls i [(Expr.place q).outline] m
    rwa [Expr.outline]

/-- A literal is a token. -/
theorem literal (hls : InOrder ls) {make : Node → Expr} (hi : i < ls.length)
    (hmake : ∀ node, (make node).outline = .node node.span node.span []) :
    Traces ls (literal make) i fun e j => Row ls i [e.outline] j := by
  refine Traces.here.bind ?_
  rintro span _ - ⟨rfl, hspan⟩
  refine Traces.advance.bind fun _ j _ hij => Traces.freshNode.bind ?_
  rintro node _ - ⟨rfl, hnode⟩
  refine .pure ?_
  rw [hmake, hnode]
  have htoken : Row ls i [.node span span []] (i + 1) := .plain hls (hspan hi) (Nat.le_succ i)
  exact htoken.mono (Nat.le_refl i) (hij hi)

theorem primaryOf (hls : InOrder ls) (h : Draws ls nested fun e => [e.outline]) :
    Draws ls (primaryOf nested) fun e => [e.outline] := by
  intro i
  refine Traces.peek?.bind ?_
  rintro t? _ - ⟨rfl, ht⟩
  split
  · exact literal hls (ht _ rfl) fun _ => rfl
  · exact literal hls (ht _ rfl) fun _ => rfl
  · exact literal hls (ht _ rfl) fun _ => rfl
  · exact literal hls (ht _ rfl) fun _ => rfl
  · exact identifierExprOf hls h i
  · exact Traces.advance.bind fun _ j hij _ => (h j).bind fun inner k _ hinner =>
      Traces.expect.bind fun _ m _ hstop => .pure (hinner.mono hij (Nat.le_of_lt hstop.lt))
  · exact .fail rfl
  · exact .unexpected

theorem unaryOf (hls : InOrder ls) (h : Draws ls nested fun e => [e.outline]) :
    Draws ls (unaryOf nested) fun e => [e.outline] := by
  refine fun i => .bounded fun bound => ?_
  induction bound generalizing i with
  | nil => exact primaryOf hls h i
  | cons _ bound ih =>
    refine Traces.here.bind ?_
    rintro span _ - ⟨rfl, hspan⟩
    refine Traces.acceptMap.bind fun op? j hij hi => ?_
    cases op? with
    | none => exact (primaryOf hls h j).mono fun e k _ he => he.mono hij (Nat.le_refl k)
    | some op =>
      refine (ih j).bind fun operand k _ hoperand => Traces.freshNode.bind ?_
      rintro node _ - ⟨rfl, hnode⟩
      obtain ⟨a, b, hja, hbk, hc, hw⟩ := hoperand.single
      have hab := hc.lt
      have hs := (hspan (hi op rfl)).merge hls hc (by omega) (by omega)
      rw [Expr.span_outline, ← hnode] at hs
      have hpart : Row ls i [operand.outline] b :=
        ⟨a, b, by omega, hc, hw, Nat.le_refl b⟩
      have hmark : (Expr.unary node op operand).reportSpan = operand.outline.mark ∨
          (Expr.unary node op operand).reportSpan = node.span := Expr.reportSpan_of_part rfl
      have hsign : Row ls i [(Expr.unary node op operand).outline] b :=
        .node hls hs (hmark.symm.imp_right fun hm => ⟨_, List.mem_singleton_self _, hm⟩) hpart
      exact .pure (hsign.mono (Nat.le_refl i) hbk)

theorem additiveOf (hls : InOrder ls) (h : Draws ls nested fun e => [e.outline]) :
    Draws ls (additiveOf nested) fun e => [e.outline] :=
  chain hls (chain hls (unaryOf hls h))

theorem comparisonOf (hls : InOrder ls) (h : Draws ls nested fun e => [e.outline]) :
    Draws ls (comparisonOf nested) fun e => [e.outline] := by
  intro i
  refine (additiveOf hls h i).bind fun left j _ hleft => Traces.acceptMap.bind fun op? k hjk _ => ?_
  replace hleft := hleft.mono (Nat.le_refl i) hjk
  cases op? with
  | none => exact .pure hleft
  | some op =>
    refine (additiveOf hls h k).bind fun right m _ hright =>
      (binary hls hleft hright).bind fun e n _ he => Traces.lookBind fun b => ?_
    split
    · exact Traces.fails (.fail rfl)
    · exact .pure he

theorem assignmentOf (hls : InOrder ls) (h : Draws ls nested fun e => [e.outline]) :
    Draws ls (assignmentOf nested) fun e => [e.outline] := by
  intro i
  refine (chain hls (chain hls (comparisonOf hls h)) i).bind fun left j _ hleft =>
    Traces.lookBind fun b => ?_
  split
  · split
    next => exact .failWith fun _ _ => ⟨rfl, fun _ => hleft.expr_covered⟩
    next target htarget =>
      refine Traces.advance.bind fun _ k hjk _ => (h k).bind fun value m _ hvalue =>
        Traces.freshNode.bind ?_
      rintro node _ - ⟨rfl, hnode⟩
      have hpair := ((hleft.place htarget).mono (Nat.le_refl i) hjk).pair hls hvalue (.inl rfl)
      rw [Place.span_outline, Place.mark_outline, Expr.span_outline, ← hnode] at hpair
      exact .pure hpair
  · exact .pure hleft

theorem expression (hls : InOrder ls) : Draws ls expression fun e => [e.outline] := by
  refine fun i => .bounded fun bound => ?_
  induction bound generalizing i with
  | nil => exact .unexpected
  | cons _ bound ih => exact assignmentOf hls ih i

end Draws

end

/-! ## Declarations and statements -/

section

variable {inner : Parser Body} {start : Span}

namespace Draws

/-- A type has a token, also if it has no part. -/
theorem typeSpec (hls : InOrder ls) : Traces ls typeSpec i fun type j =>
    i < ls.length ∧ Row ls i type.outlines j := by
  refine Traces.acceptMap.bind fun s? j hij hi => ?_
  cases s? with
  | some s => exact .pure ⟨hi s rfl, hij⟩
  | none =>
    refine Traces.accept.bind fun b k hjk hj => ?_
    split
    next h =>
      refine Traces.identifier.bind fun name m _ hname => .pure ⟨?_, ?_⟩
      · exact Nat.lt_of_le_of_lt hij (hj h)
      · exact (Row.ident hls hname).mono (Nat.le_trans hij hjk) (Nat.le_refl m)
    next =>
      refine .failWith fun s hs => ?_
      split
      · exact hs.problem rfl _
      · exact hs.unexpected _

/-- The token that ends a node which began at `start`. -/
theorem closing (hls : InOrder ls) {os : List Outline} {t : Token} {x : String}
    (hstart : Covers ls i (i + 1) start) (h : Row ls i os j) :
    Traces ls (expect t x) j fun stop k =>
      Row ls i [.node (start.merge stop) (start.merge stop) os] k :=
  Traces.expect.mono fun _ _ hjk hstop =>
    .enclose hls hstart hstop h.le (h.mono (Nat.le_refl i) hjk)

theorem varDecl (hls : InOrder ls) : Draws ls varDecl fun d => [d.outline] := by
  intro i
  refine Traces.here.bind ?_
  rintro start _ - ⟨rfl, hstart⟩
  refine (typeSpec hls).bind fun type j _ ⟨hi, htype⟩ =>
    Traces.identifier.bind fun name k _ hname => ?_
  have hparts := htype.append (Row.ident hls hname)
  exact (closing hls (hstart hi) hparts).bind fun stop m _ hstop => .pure hstop

theorem finishStatement (hls : InOrder ls) {os : List Outline} (hstart : Covers ls i (i + 1) start)
    (h : Row ls i os j) :
    Traces ls (finishStatement start) j fun span k => Row ls i [.node span span os] k :=
  (closing hls hstart h).bind fun _ _ _ hstop => .pure hstop

theorem finishExpression (hls : InOrder ls) {e : Expr} (hstart : Covers ls i (i + 1) start)
    (h : Row ls i [e.outline] j) :
    Traces ls (finishExpression start e) j fun s k => Row ls i [s.outline] k := by
  unfold Parser.finishExpression
  split
  · exact (finishStatement hls hstart h).bind fun span k _ hspan => .pure hspan
  · exact (finishStatement hls hstart h).bind fun span k _ hspan => .pure hspan
  · exact .failWith fun _ _ => ⟨rfl, fun _ => h.expr_covered⟩

theorem identifierStatement (hls : InOrder ls) (hstart : Covers ls i (i + 1) start) :
    Traces ls (identifierStatement start) i fun s j => Row ls i [s.outline] j := by
  refine (expression hls i).bind fun e j _ he => ?_
  split
  next target htarget =>
    refine Traces.accept.bind fun b k hjk _ => ?_
    replace he := he.mono (Nat.le_refl i) hjk
    have hplace := he.place htarget
    split
    · exact (finishStatement hls hstart hplace).bind fun span m _ hspan => .pure hspan
    · refine Traces.accept.bind fun b m hkm _ => ?_
      split
      · exact (finishStatement hls hstart (hplace.mono (Nat.le_refl i) hkm)).bind
          fun span n _ hspan => .pure hspan
      · exact finishExpression hls hstart (he.mono (Nat.le_refl i) hkm)
  next => exact finishExpression hls hstart he

theorem readStatement (hls : InOrder ls) (hstart : Covers ls i (i + 1) start) :
    Traces ls (readStatement start) i fun s j => Row ls i [s.outline] j := by
  refine Traces.advance.bind fun _ j hij _ => Traces.expect.bind fun _ k hjk _ =>
    (expression hls k).bind fun e m _ he => ?_
  replace he := he.mono (Nat.le_trans hij hjk) (Nat.le_refl m)
  split
  next target htarget =>
    exact (finishStatement hls hstart (he.place htarget)).bind fun span n _ hspan => .pure hspan
  next => exact .failWith fun _ _ => ⟨rfl, fun _ => he.expr_covered⟩

theorem writeStatement (hls : InOrder ls) (hstart : Covers ls i (i + 1) start) :
    Traces ls (writeStatement start) i fun s j => Row ls i [s.outline] j :=
  Traces.advance.bind fun _ _ hij _ => Traces.expect.bind fun _ k hjk _ =>
    (expression hls k).bind fun _ m _ he =>
      (finishStatement hls hstart (he.mono (Nat.le_trans hij hjk) (Nat.le_refl m))).bind
        fun _ _ _ hspan => .pure hspan

theorem returnStatement (hls : InOrder ls) (hstart : Covers ls i (i + 1) start) :
    Traces ls (returnStatement start) i fun s j => Row ls i [s.outline] j := by
  refine Traces.advance.bind fun _ j hij _ => Traces.lookBind fun b => ?_
  split
  · have hnone : Row ls i [] j := hij
    exact (finishStatement hls hstart hnone).bind fun _ _ _ hspan => .pure hspan
  · exact (expression hls j).bind fun _ k _ he =>
      (finishStatement hls hstart (he.mono hij (Nat.le_refl k))).bind
        fun _ _ _ hspan => .pure hspan

theorem condition (hls : InOrder ls) {x : String} :
    Draws ls (condition x) fun e => [e.outline] :=
  fun _ => Traces.advance.bind fun _ _ hij _ => Traces.expect.bind fun _ k hjk _ =>
    (expression hls k).bind fun _ _ _ he => Traces.expect.bind fun _ _ hmn _ =>
      .pure (he.mono (Nat.le_trans hij hjk) hmn)

/-- The node that began at `start` ends with the token read last. -/
theorem finishBlock (hls : InOrder ls) {os : List Outline} (hstart : Covers ls i (i + 1) start)
    (hij : i < j) (h : Row ls i os j) :
    Traces ls (look Cursor.previousSpan) j fun stop k =>
      Row ls i [.node (start.merge stop) (start.merge stop) os] k := by
  refine Traces.previous.mono ?_
  rintro stop _ - ⟨rfl, hstop⟩
  -- a token was read, so there is one in front of the cursor
  obtain ⟨k, rfl⟩ : ∃ k, j = k + 1 := ⟨j - 1, by omega⟩
  exact .enclose hls hstart (hstop k rfl) (Nat.le_of_lt_succ hij) h

theorem ifStatementOf (hls : InOrder ls) (h : DrawsBody ls inner)
    (hstart : Covers ls i (i + 1) start) :
    Traces ls (ifStatementOf inner start) i fun s j => Row ls i [s.outline] j := by
  refine (condition hls i).bind fun cond j hij hcond => (h j).bind fun b k _ ⟨hjk, hb⟩ =>
    Traces.accept.bind fun t m hkm _ => ?_
  have hparts := (hcond.append hb).mono (Nat.le_refl i) hkm
  split
  · refine (h m).bind fun b' n _ ⟨hmn, hb'⟩ => ?_
    have hparts' := hparts.append hb'
    exact (finishBlock hls hstart (by omega) hparts').bind fun stop o _ hstop => .pure hstop
  · exact (finishBlock hls hstart (by omega) hparts).bind fun stop o _ hstop => .pure hstop

theorem whileStatementOf (hls : InOrder ls) (h : DrawsBody ls inner)
    (hstart : Covers ls i (i + 1) start) :
    Traces ls (whileStatementOf inner start) i fun s j => Row ls i [s.outline] j :=
  (condition hls i).bind fun _ j hij hcond => (h j).bind fun _ _ _ ⟨hjk, hb⟩ =>
    (finishBlock hls hstart (Nat.lt_of_le_of_lt hij hjk) (hcond.append hb)).bind
      fun _ _ _ hstop => .pure hstop

theorem statementOf (hls : InOrder ls) (h : DrawsBody ls inner) :
    Draws ls (statementOf inner) fun s => [s.outline] := by
  intro i
  refine Traces.here.bind ?_
  rintro start _ - ⟨rfl, hstart⟩
  refine Traces.peek?.bind ?_
  rintro t? _ - ⟨rfl, ht⟩
  split
  · exact identifierStatement hls (hstart (ht _ rfl))
  · exact readStatement hls (hstart (ht _ rfl))
  · exact writeStatement hls (hstart (ht _ rfl))
  · exact ifStatementOf hls h (hstart (ht _ rfl))
  · exact whileStatementOf hls h (hstart (ht _ rfl))
  · exact returnStatement hls (hstart (ht _ rfl))
  · exact .unexpected

theorem body (hls : InOrder ls) : DrawsBody ls body := by
  refine fun i => .bounded fun bound => ?_
  induction bound generalizing i with
  | nil => exact .unexpected
  | cons _ bound ih =>
    refine Traces.expect.bind fun _ j _ hopen =>
      ((varDecl hls).repeatWhile j).bind fun ds k _ hds =>
      ((statementOf hls ih).repeatWhile k).bind fun ss m _ hss =>
        Traces.expect.bind fun _ n hmn _ => .pure ?_
    have hij := hopen.lt
    have hjk := hds.le
    have hkm := hss.le
    refine ⟨by omega, ?_⟩
    rw [Body.outlines, Stmt.outlines_eq]
    exact (hds.append hss).mono (Nat.le_of_lt hij) hmn

theorem structDecl (hls : InOrder ls) (hstart : Covers ls i (i + 1) start) (hij : i ≤ j) :
    Traces ls (structDecl start) j fun d k => Row ls i [(Decl.struct d).outline] k := by
  refine Traces.identifier.bind fun name k _ hname => Traces.expect.bind fun _ m hkm _ =>
    ((varDecl hls).repeatWhile m).bind fun ds n _ hds => ?_
  split
  · exact Traces.fails (.fail rfl)
  · refine Traces.expect.bind fun _ o hno _ => ?_
    have hparts := ((Row.ident hls hname).mono hij hkm).append (hds.mono (Nat.le_refl m) hno)
    exact (closing hls hstart hparts).bind fun stop _ _ hstop => .pure hstop

theorem param (hls : InOrder ls) : Draws ls param fun q => [q.outline] := by
  intro i
  refine Traces.here.bind ?_
  rintro start _ - ⟨rfl, hstart⟩
  refine Traces.acceptMap.bind fun s? j hij hi => ?_
  cases s? with
  | none => exact .fail rfl
  | some s =>
    refine Traces.identifier.bind fun name k _ hname => .pure ?_
    have hpart := (Row.ident hls hname).mono hij (Nat.le_refl k)
    exact .enclose hls (hstart (hi s rfl)) hname hij hpart

theorem params (hls : InOrder ls) : Draws ls params (·.map Param.outline) := by
  refine fun i => Traces.lookBind fun b => ?_
  split
  · exact .pure (Nat.le_refl i)
  · exact (param hls).commaList i

theorem fnDecl (hls : InOrder ls) {returns : Scalar} {name : Ident}
    (hstart : Covers ls i (i + 1) start) (h : Row ls i [name.outline] j) :
    Traces ls (fnDecl returns name start) j fun d k => Row ls i [(Decl.fn d).outline] k := by
  refine Traces.expect.bind fun _ k hjk _ => (params hls k).bind fun ps m _ hps =>
    Traces.expect.bind fun _ n hmn _ => (body hls n).bind fun b o _ ⟨hno, hb⟩ => ?_
  have hparts := ((h.mono (Nat.le_refl i) hjk).append (hps.mono (Nat.le_refl k) hmn)).append hb
  have hin := h.le
  exact (finishBlock hls hstart (by omega) hparts).bind fun stop _ _ hstop => .pure hstop

theorem startsStructDecl_lt {s : Cursor} (hs : s.At ls i) (h : startsStructDecl s = true) :
    i < ls.length := by
  unfold startsStructDecl at h
  split at h
  next hword _ _ =>
    rw [Cursor.ahead?, hs.rest, List.getElem?_drop] at hword
    obtain ⟨l, hl, -⟩ := Option.map_eq_some_iff.1 hword
    exact (List.getElem?_eq_some_iff.1 hl).1
  next => cases h

theorem decl (hls : InOrder ls) : Draws ls decl fun d => [d.outline] := by
  intro i
  refine Traces.here.bind ?_
  rintro start _ - ⟨rfl, hstart⟩
  refine Traces.bind (P := fun b j => i = j ∧ (b = true → i < ls.length))
    (.look fun _ hs => ⟨rfl, startsStructDecl_lt hs⟩) ?_
  rintro b _ - ⟨rfl, hb⟩
  split
  next h =>
    exact Traces.advance.bind fun _ j hij _ => (structDecl hls (hstart (hb h)) hij).bind
      fun d k _ hd => .pure hd
  next =>
    refine (typeSpec hls).bind fun type j hij ⟨hi, htype⟩ =>
      Traces.identifier.bind fun name k _ hname => Traces.lookBind fun b => ?_
    have hline := Row.ident hls hname
    split
    · split
      · exact (fnDecl hls (hstart hi) (hline.mono hij (Nat.le_refl k))).bind
          fun d m _ hd => .pure hd
      · exact Traces.fails (.failWith fun _ _ => ⟨rfl, fun _ => ⟨i, i + 1, hstart hi⟩⟩)
    · exact (closing hls (hstart hi) (htype.append hline)).bind fun stop m _ hstop => .pure hstop

theorem program (hls : InOrder ls) :
    Traces ls program 0 fun p j => Row ls 0 p.outlines j :=
  ((decl hls).repeatWhile 0).bind fun _ _ _ hds => Traces.lookBind fun _ => .pure hds

end Draws

end

end Parser

/-- **The tree that was read is well nested in the tokens.** -/
theorem parse_wellNested (hls : InOrder ls) {p : Program} (h : parse ls = .ok p) :
    p.WellNested ls := by
  have ht := Parser.Draws.program hls _ Cursor.At.start
  unfold parse at h
  split at h
  next q s hq =>
    cases h
    rw [hq] at ht
    obtain ⟨j, -, -, hline⟩ := ht
    exact ⟨fun o ho => (hline.mem ho).1, hline.pairwise hls⟩
  next => cases h

/-- If there is no program, the problem is one of grammar, and at some tokens. -/
theorem parse_blames (hls : InOrder ls) {e : Problem} (h : parse ls = .error e) :
    e.code.category = .grammar ∧ Covered ls e.span := by
  have hne : ls ≠ [] := by
    rintro rfl
    cases h
  have ht := Parser.Draws.program hls _ Cursor.At.start
  unfold parse at h
  split at h
  next => cases h
  next e' s he =>
    cases h
    rw [he] at ht
    exact ⟨ht.grammar, ht.covered hne⟩

end FlatC
