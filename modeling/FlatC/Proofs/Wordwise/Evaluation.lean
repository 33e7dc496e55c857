import FlatC.Proofs.Code.Anchors
import FlatC.Proofs.Code.Labels
import FlatC.Proofs.Simulation.Frame

/-!
# Expressions on words

What an expression computes if one knows no more of the memory than that it holds words:
`Expr.word` reads a variable at the address where its code keeps it, whatever was stored there, and
takes any word for a truth value. Unlike the running of programs in `Eval`, it needs neither types
nor variables that have been assigned to. It has no result only where an operation of arithmetic
has none; there are no calls.

The value of a string literal is the address of its label, so an evaluation has to know the numbers
of the labels. It goes by their count (`Expr.labelCount`), which does not depend on what is run.
-/

namespace FlatC

/-! ## The numbers of the labels -/

mutual

/-- How many labels the code of an expression makes. -/
def Expr.labelCount : Expr → Nat
  | .int .. | .bool .. | .place _ => 0
  | .str .. => 1
  | .assign _ _ value => value.labelCount
  | .call _ _ args => Expr.allLabelCount args
  | .unary _ _ operand => operand.labelCount
  | .binary _ (.logical _) left right => 1 + left.labelCount + right.labelCount
  | .binary _ _ left right => left.labelCount + right.labelCount

def Expr.allLabelCount : List Expr → Nat
  | [] => 0
  | e :: es => e.labelCount + Expr.allLabelCount es

end

namespace Code

variable {o : Options} {b : Annotations}

mutual

theorem expr_labelCount : ∀ (e : Expr) {n n' : Nat} {c : Code},
    (expr o b e).run n = .ok (c, n') → n' = n + e.labelCount
  | .int .., n, n', c, h | .bool .., n, n', c, h => (run_pure_ok.1 h).2.symm
  | .str .., n, n', c, h => by
    simp only [expr, stringLiteral, run_bind_ok, run_pure_ok] at h
    obtain ⟨l, m, hl, -, rfl⟩ := h
    exact (label_ok hl).2
  | .place q, n, n', c, h => by
    simp only [expr, run_bind_ok, run_pure_ok] at h
    obtain ⟨l, m, hl, -, rfl⟩ := h
    exact location_ok hl
  | .assign _ target value, n, n', c, h => by
    simp only [expr, run_bind_ok, run_pure_ok] at h
    obtain ⟨v, m, hv, l, m', hl, -, rfl⟩ := h
    rw [location_ok hl, expr_labelCount value hv, Expr.labelCount]
  | .call _ callee args, n, n', c, h => by
    simp only [expr, run_bind_ok, run_pure_ok] at h
    obtain ⟨xs, m, hxs, -, rfl⟩ := h
    rw [exprs_labelCount args hxs, Expr.labelCount]
  | .unary _ op operand, n, n', c, h => by
    simp only [expr, run_bind_ok, run_pure_ok] at h
    obtain ⟨x, m, hx, -, rfl⟩ := h
    rw [expr_labelCount operand hx, Expr.labelCount]
  | .binary _ (.arith _) left right, n, n', c, h
  | .binary _ (.equality _) left right, n, n', c, h
  | .binary _ (.order _) left right, n, n', c, h => by
    simp only [expr, run_bind_ok, run_pure_ok] at h
    obtain ⟨l, m, hl, r, m', hr, -, rfl⟩ := h
    rw [expr_labelCount right hr, expr_labelCount left hl, Expr.labelCount, Nat.add_assoc]
    simp
  | .binary _ (.logical _) left right, n, n', c, h => by
    simp only [expr, run_bind_ok, run_pure_ok] at h
    obtain ⟨stop, k, hstop, l, m, hl, r, m', hr, -, rfl⟩ := h
    rw [expr_labelCount right hr, expr_labelCount left hl, (label_ok hstop).2, Expr.labelCount]
    omega

theorem exprs_labelCount : ∀ (es : List Expr) {n n' : Nat} {c : Code},
    (exprs o b es).run n = .ok (c, n') → n' = n + Expr.allLabelCount es
  | [], n, n', c, h => (run_pure_ok.1 h).2.symm
  | e :: es, n, n', c, h => by
    simp only [exprs, run_bind_ok, run_pure_ok] at h
    obtain ⟨x, m, hx, xs, m', hxs, -, rfl⟩ := h
    rw [exprs_labelCount es hxs, expr_labelCount e hx, Expr.allLabelCount, Nat.add_assoc]

end

end Code

/-! ## Evaluation -/

/-- A step that reads and writes words, and that may have no result. -/
abbrev WordStep := StateT (Int → Int) Option

/-- The result of a sign. Whatever is not zero counts as true. -/
def UnaryOp.eval : UnaryOp → Int → Option Int
  | negate, x => word? (-x)
  | not, x => some (x == 0).toInt

section

variable (m : Machine) (b : Annotations) (fp : Int)

/-- The address of a place, in the frame at `fp`. -/
def Place.address? (q : Place) : Option Int :=
  match (Code.location b q).run 0 with
  | .ok (l, _) => m.place? fp l
  | .error _ => none

/-- The word that an expression evaluates to, with the labels of its code numbered from `n` on. -/
def Expr.word (n : Nat) : Expr → WordStep Int
  | .int _ value => return value
  | .str _ _ => m.address? (Label.numbered "str" n)
  | .bool _ value => return value.toInt
  | .place q => do
    let a ← q.address? m b fp
    return (← get) a
  | .assign _ target value => do
    let v ← value.word n
    let a ← target.address? m b fp
    modify fun mem => Function.update mem a v
    return v
  | .call .. => failure
  | .unary _ op operand => do
    let x ← operand.word n
    op.eval x
  | .binary _ (.arith op) left right => do
    let x ← left.word n
    let y ← right.word (n + left.labelCount)
    op.eval x y
  | .binary _ (.equality op) left right => do
    let x ← left.word n
    let y ← right.word (n + left.labelCount)
    return (op.holds (x == y)).toInt
  | .binary _ (.order op) left right => do
    let x ← left.word n
    let y ← right.word (n + left.labelCount)
    return (op.holds x y).toInt
  | .binary _ (.logical .and) left right => do
    let x ← left.word (n + 1)
    if x = 0 then return 0 else right.word (n + 1 + left.labelCount)
  | .binary _ (.logical .or) left right => do
    let x ← left.word (n + 1)
    if x = 1 then return 1 else right.word (n + 1 + left.labelCount)

/-- The places that an expression without calls assigns to. -/
def Expr.assigned : Expr → List Place
  | .int .. | .str .. | .bool .. | .place _ | .call .. => []
  | .assign _ target value => target :: value.assigned
  | .unary _ _ operand => operand.assigned
  | .binary _ _ left right => left.assigned ++ right.assigned

end

theorem Place.address?_eq {m : Machine} {b : Annotations} {fp : Int} {q : Place} {l : Location}
    (h : ∀ k, (Code.location b q).run k = .ok (l, k)) : q.address? m b fp = m.place? fp l := by
  rw [address?, h]

/-! ## What an evaluation leaves alone -/

/-- The step does not change the word at `a`. -/
def WordStep.Leaves {α : Type} (a : Int) (x : WordStep α) : Prop :=
  ∀ mem v mem', x.run mem = some (v, mem') → mem' a = mem a

namespace WordStep.Leaves

variable {α β : Type} {a : Int}

theorem bind {x : WordStep α} {f : α → WordStep β} (hx : Leaves a x) (hf : ∀ v, Leaves a (f v)) :
    Leaves a (x >>= f) := by
  intro mem u mem' h
  rw [StateT.run_bind] at h
  obtain ⟨⟨v, mem₁⟩, hrun, hrest⟩ := Option.bind_eq_some_iff.1 h
  rw [hf v mem₁ u mem' hrest, hx mem v mem₁ hrun]

theorem pure (v : α) : Leaves a (pure v : WordStep α) := by
  intro mem u mem' h
  obtain ⟨-, rfl⟩ := Prod.mk.inj (Option.some.inj h)
  rfl

theorem get : Leaves a (get : WordStep (Int → Int)) := by
  intro mem u mem' h
  obtain ⟨-, rfl⟩ := Prod.mk.inj (Option.some.inj h)
  rfl

theorem lift (r : Option α) : Leaves a (liftM r : WordStep α) := by
  intro mem u mem' h
  obtain ⟨v, -, hv⟩ := Option.bind_eq_some_iff.1 h
  obtain ⟨-, rfl⟩ := Prod.mk.inj (Option.some.inj hv)
  rfl

theorem lift_bind {r : Option α} {f : α → WordStep β} (h : ∀ v, r = some v → Leaves a (f v)) :
    Leaves a ((liftM r : WordStep α) >>= f) := by
  cases r with
  | none =>
    intro mem u mem' hrun
    cases hrun
  | some v => exact h v rfl

theorem update {c v : Int} (h : c ≠ a) :
    Leaves a (modify fun mem => Function.update mem c v : WordStep PUnit) := by
  intro mem u mem' hrun
  obtain ⟨-, rfl⟩ := Prod.mk.inj (Option.some.inj hrun)
  exact Function.update_of_ne h.symm ..

end WordStep.Leaves

/-- An evaluation changes no word but those that are assigned to. -/
theorem Expr.word_leaves {m : Machine} {b : Annotations} {fp a : Int} : ∀ (e : Expr) (n : Nat),
    (∀ q ∈ e.assigned, q.address? m b fp ≠ some a) → (e.word m b fp n).Leaves a
  | .int .., n, _ | .bool .., n, _ => .pure _
  | .str .., n, _ => .lift _
  | .place q, n, _ => .bind (.lift _) fun _ => .bind .get fun _ => .pure _
  | .assign _ target value, n, h => by
    rw [Expr.assigned, List.forall_mem_cons] at h
    refine .bind (value.word_leaves n h.2) fun v => .lift_bind fun c hc => ?_
    refine .bind (.update fun heq => h.1 (heq ▸ hc)) fun _ => .pure v
  | .call .., n, _ => fun _ _ _ hrun => nomatch hrun
  | .unary _ _ operand, n, h => .bind (operand.word_leaves n h) fun _ => .lift _
  | .binary _ op left right, n, h => by
    rw [Expr.assigned, List.forall_mem_append] at h
    have hl := fun n => left.word_leaves n h.1
    have hr := fun n => right.word_leaves n h.2
    cases op with
    | arith => exact .bind (hl _) fun _ => .bind (hr _) fun _ => .lift _
    | equality | order => exact .bind (hl _) fun _ => .bind (hr _) fun _ => .pure _
    | logical op =>
      cases op with
      | and | or =>
        refine .bind (hl _) fun _ => ?_
        split
        · exact .pure _
        · exact hr _

end FlatC
