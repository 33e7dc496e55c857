import FlatC.Proofs.Spans.Outline

/-!
# Nesting

A tree is **well nested** in a list of tokens (`Outline.WellNested`) if every span of its outline
starts where a token starts and stops where one stops, has the spans of the parts in it, and the
parts follow each other.

Spans are counted in bytes, but the parser thinks in tokens: `Covers ls i j s` says that `s` is the
span of the tokens from the `i`th up to, and not including, the `j`th. `Row ls i os j` says that
outlines stand one behind the other between two tokens, each of them well nested.
-/

namespace FlatC

/-- The tokens are not empty and follow each other. -/
structure InOrder (ls : List Lexeme) : Prop where
  nonempty : ∀ l ∈ ls, l.span.start < l.span.stop
  order : ls.Pairwise fun l l' => l.span.stop ≤ l'.span.start

/-- The span is not empty, and begins and ends with a token. -/
structure Span.Bounded (ls : List Lexeme) (s : Span) : Prop where
  nonempty : s.start < s.stop
  start : ∃ l ∈ ls, l.span.start = s.start
  stop : ∃ l ∈ ls, l.span.stop = s.stop

theorem Span.Within.trans {a b c : Span} (h : a.Within b) (h' : b.Within c) : a.Within c :=
  ⟨Nat.le_trans h'.1 h.1, Nat.le_trans h.2 h'.2⟩

/-- Every span begins and ends with a token, those of the parts lie in it, one behind the other, and
reports point into it. -/
inductive Outline.WellNested (ls : List Lexeme) : Outline → Prop where
  | node {span mark : Span} {parts : List Outline} (bounded : span.Bounded ls)
      (marked : mark.start < mark.stop ∧ mark.Within span)
      (within : ∀ o ∈ parts, o.span.Within span)
      (order : parts.Pairwise fun o o' => o.span.stop ≤ o'.span.start)
      (nested : ∀ o ∈ parts, o.WellNested ls) : WellNested ls (.node span mark parts)

/-- The nodes of a program are well nested, and its declarations follow each other. -/
structure Program.WellNested (ls : List Lexeme) (p : Program) : Prop where
  nested : ∀ o ∈ p.outlines, o.WellNested ls
  order : p.outlines.Pairwise fun o o' => o.span.stop ≤ o'.span.start

/-- The span is not empty, and ends within `n` bytes. -/
def Span.Fits (n : Nat) (s : Span) : Prop := s.start < s.stop ∧ s.stop ≤ n

namespace Outline.WellNested

variable {ls : List Lexeme} {o : Outline}

theorem marks (h : o.WellNested ls) : o.mark.start < o.mark.stop ∧ o.mark.Within o.span := by
  cases h with
  | node _ hm => exact hm

/-- Every span of a tree that is well nested stands in the text. -/
theorem fits {n : Nat} (h : o.WellNested ls) (hls : ∀ l ∈ ls, l.span.stop ≤ n) :
    o.All (Span.Fits n) := by
  induction h with
  | node hb hm _ _ _ ih =>
    obtain ⟨l, hl, hstop⟩ := hb.stop
    have hn := hls l hl
    have hwithin := hm.2.2
    exact .node ⟨hb.nonempty, by omega⟩ ⟨hm.1, by omega⟩ ih

end Outline.WellNested

/-! ## Spans of tokens -/

section

variable {ls : List Lexeme} {i j k m : Nat} {s s' : Span}

theorem InOrder.le (h : InOrder ls) {l l' : Lexeme} (hl : ls[i]? = some l) (hl' : ls[k]? = some l')
    (hik : i < k) : l.span.stop ≤ l'.span.start := by
  obtain ⟨hi, rfl⟩ := List.getElem?_eq_some_iff.1 hl
  obtain ⟨hk, rfl⟩ := List.getElem?_eq_some_iff.1 hl'
  exact List.pairwise_iff_getElem.1 h.order i k hi hk hik

theorem InOrder.lt (h : InOrder ls) {l : Lexeme} (hl : ls[i]? = some l) :
    l.span.start < l.span.stop :=
  h.nonempty l (List.mem_of_getElem? hl)

/-- The span of the tokens from the `i`th up to, and not including, the `j`th. -/
def Covers (ls : List Lexeme) (i j : Nat) (s : Span) : Prop :=
  ∃ l l' k, ls[i]? = some l ∧ ls[k]? = some l' ∧ i ≤ k ∧ j = k + 1 ∧
    s = ⟨l.span.start, l'.span.stop⟩

/-- The span of some tokens. -/
def Covered (ls : List Lexeme) (s : Span) : Prop := ∃ i j, Covers ls i j s

namespace Covers

theorem token {l : Lexeme} (h : ls[i]? = some l) : Covers ls i (i + 1) l.span :=
  ⟨l, l, i, h, h, Nat.le_refl i, rfl, rfl⟩

theorem lt (h : Covers ls i j s) : i < j := by
  obtain ⟨-, -, k, -, -, hk, rfl, -⟩ := h
  omega

theorem start_le (h : Covers ls i j s) (hls : InOrder ls) (h' : Covers ls k m s') (hik : i ≤ k) :
    s.start ≤ s'.start := by
  obtain ⟨l, -, -, hl, -, -, -, rfl⟩ := h
  obtain ⟨l', -, -, hl', -, -, -, rfl⟩ := h'
  rcases Nat.eq_or_lt_of_le hik with rfl | hik
  · obtain rfl := Option.some.inj (hl.symm.trans hl')
    exact Nat.le_refl _
  · exact Nat.le_trans (Nat.le_of_lt (hls.lt hl)) (hls.le hl hl' hik)

theorem stop_le (h : Covers ls i j s) (hls : InOrder ls) (h' : Covers ls k m s') (hjm : j ≤ m) :
    s.stop ≤ s'.stop := by
  obtain ⟨-, l, n, -, hl, -, rfl, rfl⟩ := h
  obtain ⟨-, l', n', -, hl', -, rfl, rfl⟩ := h'
  rcases Nat.eq_or_lt_of_le (Nat.le_of_succ_le_succ hjm) with rfl | hlt
  · obtain rfl := Option.some.inj (hl.symm.trans hl')
    exact Nat.le_refl _
  · exact Nat.le_trans (hls.le hl hl' hlt) (Nat.le_of_lt (hls.lt hl'))

theorem within (h : Covers ls i j s) (hls : InOrder ls) (h' : Covers ls k m s') (hik : i ≤ k)
    (hmj : m ≤ j) : s'.Within s :=
  ⟨h.start_le hls h' hik, h'.stop_le hls h hmj⟩

theorem before (h : Covers ls i j s) (hls : InOrder ls) (h' : Covers ls k m s') (hjk : j ≤ k) :
    s.stop ≤ s'.start := by
  obtain ⟨-, l, n, -, hl, -, rfl, rfl⟩ := h
  obtain ⟨l', -, -, hl', -, -, -, rfl⟩ := h'
  exact hls.le hl hl' hjk

/-- The least span that covers both. -/
theorem merge (h : Covers ls i j s) (hls : InOrder ls) (h' : Covers ls k m s') (hik : i ≤ k)
    (hjm : j ≤ m) : Covers ls i m (s.merge s') := by
  have hstart := h.start_le hls h' hik
  have hstop := h.stop_le hls h' hjm
  obtain ⟨l, _, -, hl, -, -, -, hs⟩ := h
  obtain ⟨_, l', n, -, hl', hkn, hmn, hs'⟩ := h'
  refine ⟨l, l', n, hl, hl', Nat.le_trans hik hkn, hmn, ?_⟩
  rw [Span.merge, Nat.min_eq_left hstart, Nat.max_eq_right hstop, hs, hs']

theorem bounded (h : Covers ls i j s) (hls : InOrder ls) : s.Bounded ls := by
  have hlt : s.start < s.stop := by
    obtain ⟨l, l', k, hl, hl', hik, rfl, rfl⟩ := h
    rcases Nat.eq_or_lt_of_le hik with rfl | hik
    · obtain rfl := Option.some.inj (hl.symm.trans hl')
      exact hls.lt hl
    · exact Nat.lt_of_lt_of_le (hls.lt hl)
        (Nat.le_trans (hls.le hl hl' hik) (Nat.le_of_lt (hls.lt hl')))
  obtain ⟨l, l', k, hl, hl', -, -, rfl⟩ := h
  exact ⟨hlt, ⟨l, List.mem_of_getElem? hl, rfl⟩, ⟨l', List.mem_of_getElem? hl', rfl⟩⟩

end Covers

theorem Covered.bounded (h : Covered ls s) (hls : InOrder ls) : s.Bounded ls := by
  obtain ⟨i, j, h⟩ := h
  exact h.bounded hls

/-! ## Outlines in a row -/

/-- The outlines are well nested, and cover tokens from the `i`th up to the `j`th, one behind the
other. -/
def Row (ls : List Lexeme) : Nat → List Outline → Nat → Prop
  | i, [], j => i ≤ j
  | i, o :: os, j => ∃ k m, i ≤ k ∧ Covers ls k m o.span ∧ o.WellNested ls ∧ Row ls m os j

namespace Row

variable {os os' : List Outline} {o o' : Outline}

theorem le (h : Row ls i os j) : i ≤ j := by
  induction os generalizing i with
  | nil => exact h
  | cons o os ih =>
    obtain ⟨k, m, hik, hc, -, hrest⟩ := h
    have := hc.lt
    have := ih hrest
    omega

theorem append (h : Row ls i os j) (h' : Row ls j os' k) : Row ls i (os ++ os') k := by
  induction os generalizing i with
  | nil =>
    cases os' with
    | nil => exact Nat.le_trans h h'
    | cons o os' =>
      obtain ⟨n, m, hjn, hrest⟩ := h'
      exact ⟨n, m, Nat.le_trans h hjn, hrest⟩
  | cons o os ih =>
    obtain ⟨n, m, hin, hc, hw, hrest⟩ := h
    exact ⟨n, m, hin, hc, hw, ih hrest⟩

theorem mono (h : Row ls i os j) (hk : k ≤ i) (hm : j ≤ m) : Row ls k os m := by
  have hback : Row ls j [] m := hm
  have hfront : Row ls k [] i := hk
  simpa using hfront.append (h.append hback)

theorem single (h : Row ls i [o] j) :
    ∃ k m, i ≤ k ∧ m ≤ j ∧ Covers ls k m o.span ∧ o.WellNested ls := by
  obtain ⟨k, m, hik, hc, hw, hmj⟩ := h
  exact ⟨k, m, hik, hmj, hc, hw⟩

theorem covered (h : Row ls i [o] j) : Covered ls o.span := by
  obtain ⟨k, m, -, -, hc, -⟩ := h.single
  exact ⟨k, m, hc⟩

theorem mem (h : Row ls i os j) (ho : o ∈ os) :
    o.WellNested ls ∧ ∃ k m, i ≤ k ∧ m ≤ j ∧ Covers ls k m o.span := by
  induction os generalizing i with
  | nil => cases ho
  | cons x os ih =>
    obtain ⟨k, m, hik, hc, hw, hrest⟩ := h
    rcases List.mem_cons.1 ho with rfl | ho
    · exact ⟨hw, k, m, hik, hrest.le, hc⟩
    · obtain ⟨hw', k', m', hk', hm', hc'⟩ := ih hrest ho
      have := hc.lt
      exact ⟨hw', k', m', by omega, hm', hc'⟩

theorem pairwise (h : Row ls i os j) (hls : InOrder ls) :
    os.Pairwise fun o o' => o.span.stop ≤ o'.span.start := by
  induction os generalizing i with
  | nil => exact .nil
  | cons x os ih =>
    obtain ⟨k, m, -, hc, -, hrest⟩ := h
    refine .cons (fun o ho => ?_) (ih hrest)
    obtain ⟨-, k', m', hk', -, hc'⟩ := hrest.mem ho
    exact hc.before hls hc' hk'

/-- A node around outlines in a row, to which a report points as a whole or as it does to a part. -/
theorem node {mark : Span} (hls : InOrder ls) (hs : Covers ls i j s)
    (hmark : mark = s ∨ ∃ o ∈ os, mark = o.mark) (h : Row ls i os j) :
    Row ls i [.node s mark os] j := by
  have hwithin : ∀ o ∈ os, o.span.Within s := by
    intro o ho
    obtain ⟨-, k, m, hk, hm, hc⟩ := h.mem ho
    exact hs.within hls hc hk hm
  have hmarks : mark.start < mark.stop ∧ mark.Within s := by
    rcases hmark with rfl | ⟨o, ho, rfl⟩
    · exact ⟨(hs.bounded hls).nonempty, Nat.le_refl _, Nat.le_refl _⟩
    · obtain ⟨hlt, hm⟩ := (h.mem ho).1.marks
      exact ⟨hlt, Span.Within.trans hm (hwithin o ho)⟩
  exact ⟨i, j, Nat.le_refl i, hs, .node (hs.bounded hls) hmarks hwithin (h.pairwise hls)
    fun o ho => (h.mem ho).1, Nat.le_refl j⟩

/-- A node to which a report points as a whole. -/
theorem plain (hls : InOrder ls) (hs : Covers ls i j s) (h : Row ls i os j) :
    Row ls i [.node s s os] j :=
  node hls hs (.inl rfl) h

/-- A node around two outlines, to which a report points as it does to the first, or as a whole. -/
theorem pair {mark : Span} (hls : InOrder ls) (h : Row ls i [o] j) (h' : Row ls j [o'] k)
    (hmark : mark = o.mark ∨ mark = o.span.merge o'.span) :
    Row ls i [.node (o.span.merge o'.span) mark [o, o']] k := by
  obtain ⟨a, b, hia, hbj, hc, hw⟩ := h.single
  obtain ⟨a', b', hja, hbk, hc', hw'⟩ := h'.single
  have hab := hc.lt
  have hab' := hc'.lt
  have hs := hc.merge hls hc' (by omega) (by omega)
  have hparts : Row ls a [o, o'] b' :=
    ⟨a, b, Nat.le_refl a, hc, hw, a', b', by omega, hc', hw', Nat.le_refl b'⟩
  have hmark' : mark = o.span.merge o'.span ∨ ∃ x ∈ [o, o'], mark = x.mark :=
    hmark.symm.imp_right fun hm => ⟨o, List.mem_cons_self, hm⟩
  exact (node hls hs hmark' hparts).mono hia hbk

theorem expr_covered {e : Expr} (h : Row ls i [e.outline] j) : Covered ls e.span := by
  rw [← Expr.span_outline]
  exact h.covered

theorem place {e : Expr} {q : Place} (h : Row ls i [e.outline] j) (hq : e.place? = some q) :
    Row ls i [q.outline] j := by
  rw [← Expr.outline_of_place? hq]
  exact h

/-- A node from a token where the line begins to one behind it. -/
theorem enclose {start stop : Span} (hls : InOrder ls) (hstart : Covers ls i (i + 1) start)
    (hstop : Covers ls k m stop) (hik : i ≤ k) (h : Row ls i os m) :
    Row ls i [.node (start.merge stop) (start.merge stop) os] m :=
  plain hls (hstart.merge hls hstop hik (Nat.le_trans (Nat.succ_le_succ hik) hstop.lt)) h

theorem ident {name : Ident} (hls : InOrder ls) (h : Covers ls i j name.span) :
    Row ls i [name.outline] j :=
  plain hls h (Nat.le_of_lt h.lt)

end Row

end

end FlatC
