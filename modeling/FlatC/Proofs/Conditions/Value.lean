import FlatC.Proofs.Conditions.Behind
import FlatC.Proofs.Typing.Movement

/-!
# The value of a condition

The code of an expression puts a word on the stack (`Expr.word`). An expression is **settled**
(`Expr.isSettled`) if nothing is called or assigned to in it and literals are compared with literals
only. Then the word hangs on the memory alone, and not on where the code of the expression stands:
it is `Expr.value?` (`Expr.word_reads`).

Only places and connectives can make a truth value that is neither zero nor one
(`HasType.value?_truth`). What is not zero counts as true, but `||` asks for one: it is true if one of
its operands is, where the left one is zero or one (`Expr.nonzero_or_of_truth`).
-/

namespace FlatC

open Machine

namespace Expr

/-- Nothing is called or assigned to in the expression, and literals are compared with literals
only. -/
def isSettled : Expr → Bool
  | .int .. | .bool .. | .place _ => true
  | .str .. | .assign .. | .call .. => false
  | .unary _ _ operand => operand.isSettled
  | .binary _ (.equality _) (.str ..) (.str ..) => true
  | .binary _ _ left right => left.isSettled && right.isSettled

section

variable (m : Machine) (b : Annotations) (fp : Int) (mem : Int → Int)

/-- The value of an expression that is settled, in the frame at `fp`. No two literals have the same
address. -/
def value? : Expr → Option Int
  | .int _ value => some value
  | .bool _ value => some value.toInt
  | .str .. | .assign .. | .call .. => none
  | .place q => (q.address? m b fp).map mem
  | .unary _ op operand => operand.value?.bind op.eval
  | .binary _ (.arith op) left right => left.value?.bind fun x => right.value?.bind (op.eval x)
  | .binary _ (.equality op) (.str ..) (.str ..) => some (op.holds false).toInt
  | .binary _ (.equality op) left right =>
    left.value?.bind fun x => right.value?.map fun y => (op.holds (x == y)).toInt
  | .binary _ (.order op) left right =>
    left.value?.bind fun x => right.value?.map fun y => (op.holds x y).toInt
  | .binary _ (.logical .and) left right =>
    left.value?.bind fun x => if x = 0 then some 0 else right.value?
  | .binary _ (.logical .or) left right =>
    left.value?.bind fun x => if x = 1 then some 1 else right.value?

end

variable {m m' : Machine} {o : Options} {b : Annotations} {fp : Int} {mem : Int → Int} {node : Node}
  {l r : Expr}

@[simp] theorem value?_bool {x : Bool} : (Expr.bool node x).value? m b fp mem = some x.toInt := rfl

@[simp] theorem value?_place {q : Place} :
    (Expr.place q).value? m b fp mem = (q.address? m b fp).map mem := rfl

theorem value?_unary {op : UnaryOp} :
    (Expr.unary node op l).value? m b fp mem = (l.value? m b fp mem).bind op.eval := rfl

theorem value?_and : (Expr.binary node (.logical .and) l r).value? m b fp mem =
    (l.value? m b fp mem).bind fun x => if x = 0 then some 0 else r.value? m b fp mem := rfl

theorem value?_or : (Expr.binary node (.logical .or) l r).value? m b fp mem =
    (l.value? m b fp mem).bind fun x => if x = 1 then some 1 else r.value? m b fp mem := rfl

theorem value?_equality {op : EqOp} (hl : ∀ i s, l ≠ .str i s) :
    (Expr.binary node (.equality op) l r).value? m b fp mem =
      (l.value? m b fp mem).bind fun x =>
        (r.value? m b fp mem).map fun y => (op.holds (x == y)).toInt := by
  cases l with
  | str i s => exact absurd rfl (hl i s)
  | _ => rfl

/-- Either two literals are compared, or both operands are settled. -/
theorem isSettled_cases {op : BinaryOp} (h : (Expr.binary node op l r).isSettled = true) :
    (∃ eq i s j t, op = .equality eq ∧ l = .str i s ∧ r = .str j t) ∨
      l.isSettled = true ∧ r.isSettled = true := by
  cases op with
  | arith | order | logical => exact .inr (Bool.and_eq_true_iff.1 h)
  | equality op =>
    cases l with
    | str i s =>
      cases r with
      | str j t => exact .inl ⟨op, i, s, j, t, rfl, rfl, rfl⟩
      | _ => exact absurd h (by simp [isSettled])
    | _ => exact .inr (Bool.and_eq_true_iff.1 h)

theorem isSettled_binary {op : BinaryOp} (hl : l.isSettled = true) (hr : r.isSettled = true) :
    (Expr.binary node op l r).isSettled = true := by
  have hboth := Bool.and_eq_true_iff.2 ⟨hl, hr⟩
  cases op with
  | arith | order | logical => exact hboth
  | equality =>
    cases l with
    | str => cases hl
    | _ => exact hboth

end Expr

/-! ## What is settled -/

/-- No type but the one of literals is printed like it, if no struct is. -/
theorem Decl.text_ty_ne {d : Decl} (h : d.ty ≠ .struct "string") : d.ty.text ≠ "string" := by
  cases d with
  | var d =>
    cases htype : d.type with
    | scalar s => cases s <;> simp [ty, htype, Ty.ofSpec, Ty.ofScalar, Ty.text]
    | struct i => simpa [ty, htype, Ty.ofSpec, Ty.text] using h
  | struct d =>
    intro heq
    have htext := congrArg String.toList heq
    simp [ty, Ty.text] at htext
  | fn f =>
    intro heq
    have hhead : (Decl.fn f).ty.text.toList.head? = some '(' := Ty.head?_text_fn
    rw [heq] at hhead
    exact absurd hhead (by decide)

namespace HasType

variable {v : Surroundings}

/-- Without calls and assignments, only literals have the type of literals. -/
theorem exists_str {e : Expr} {ty : Ty} (h : HasType v e ty) (hcalls : e.callees = [])
    (hassigned : e.assigned = [])
    (hq : ∀ q ∈ e.moved, ∀ d, v.Denotes q d → d.ty ≠ .struct "string")
    (htext : ty.text = "string") : ∃ i s, e = .str i s := by
  cases h with
  | str => exact ⟨_, _, rfl⟩
  | place hd => exact absurd htext (Decl.text_ty_ne (hq _ (.head _) _ hd))
  | assign => cases hassigned
  | call => cases hcalls
  | int | bool | negate | not | arith | logical | order | equality =>
    exact absurd htext (by decide)

/-- **Without calls and assignments, an expression is settled**, unless it compares literals with a
struct whose name is printed like their type. -/
theorem isSettled : ∀ {e : Expr} {ty : Ty}, HasType v e ty → e.callees = [] → e.assigned = [] →
    (∀ q ∈ e.moved, ∀ d, v.Denotes q d → d.ty ≠ .struct "string") → ty.text ≠ "string" →
    e.isSettled = true
  | .int .., _, _, _, _, _, _ | .bool .., _, _, _, _, _, _ | .place _, _, _, _, _, _, _ => rfl
  | .str .., _, h, _, _, _, htext => by
    cases h
    exact absurd rfl htext
  | .assign .., _, _, _, hassigned, _, _ => nomatch hassigned
  | .call .., _, _, hcalls, _, _, _ => nomatch hcalls
  | .unary _ op e, _, h, hcalls, hassigned, hq, _ => by
    show e.isSettled = true
    cases h with
    | negate he | not he => exact isSettled he hcalls hassigned hq (by decide)
  | .binary _ op l r, _, h, hcalls, hassigned, hq, _ => by
    rw [Expr.callees, List.append_eq_nil_iff] at hcalls
    rw [Expr.assigned, List.append_eq_nil_iff] at hassigned
    rw [Expr.moved, List.forall_mem_append] at hq
    cases h with
    | arith hl hr | logical hl hr | order hl hr =>
      exact Expr.isSettled_binary (isSettled hl hcalls.1 hassigned.1 hq.1 (by decide))
        (isSettled hr hcalls.2 hassigned.2 hq.2 (by decide))
    | @equality _ _ _ _ s t hl hr _ _ hsame =>
      by_cases htext : s.text = "string"
      · obtain ⟨i, x, rfl⟩ := hl.exists_str hcalls.1 hassigned.1 hq.1 htext
        obtain ⟨j, y, rfl⟩ := hr.exists_str hcalls.2 hassigned.2 hq.2 (hsame.symm.trans htext)
        rfl
      · exact Expr.isSettled_binary (isSettled hl hcalls.1 hassigned.1 hq.1 htext)
          (isSettled hr hcalls.2 hassigned.2 hq.2 fun heq => htext (hsame.trans heq))

end HasType

/-! ## Literals -/

/-- Texts lie at different addresses. -/
theorem Machine.texts_apart {m : Machine} (hl : m.code.labels.Nodup) {l l' q q' : String}
    (h : Item.datum l (.asciiz q) ∈ m.code) (h' : Item.datum l' (.asciiz q') ∈ m.code)
    (hne : l ≠ l') : ∃ a a', m.address? l = some a ∧ m.address? l' = some a' ∧ a ≠ a' := by
  obtain ⟨x, hx, rfl, hq⟩ := Code.exists_entry (a := m.dataStart) h
  obtain ⟨x', hx', rfl, hq'⟩ := Code.exists_entry (a := m.dataStart) h'
  refine ⟨_, _, address?_eq hl hx, address?_eq hl hx', fun heq => ?_⟩
  obtain rfl | hlt | hlt := data_apart hx hx'
  · exact hne rfl
  · simp only [hq, Datum.size] at hlt
    omega
  · simp only [hq', Datum.size] at hlt
    omega

theorem Code.datum_of_str {o : Options} {b : Annotations} {node : Node} {text : String} {n n' : Nat}
    {c : Code} (h : (Code.expr o b (.str node text)).run n = .ok (c, n')) :
    Item.datum (Label.numbered "str" n) (.asciiz (quoted text)) ∈ c ∧ n' = n + 1 := by
  simp only [Code.expr, Code.stringLiteral, run_bind_ok, run_pure_ok] at h
  obtain ⟨label, k, hlabel, rfl, rfl⟩ := h
  obtain ⟨rfl, rfl⟩ := Code.label_ok hlabel
  simp

/-- How many labels the code of an operator makes in front of the operands. -/
def BinaryOp.labelCount : BinaryOp → Nat
  | .logical _ => 1
  | _ => 0

/-- The code of an operator holds that of its operands. -/
theorem Code.operands_run {o : Options} {b : Annotations} {node : Node} {op : BinaryOp} {l r : Expr}
    {n n' : Nat} {c : Code} (h : (Code.expr o b (.binary node op l r)).run n = .ok (c, n')) :
    ∃ x y k, (Code.expr o b l).run (n + op.labelCount) = .ok (x, n + op.labelCount + l.labelCount) ∧
      (Code.expr o b r).run (n + op.labelCount + l.labelCount) = .ok (y, k) ∧ x ⊆ c ∧ y ⊆ c := by
  cases op with
  | arith | equality | order =>
    simp only [Code.expr, run_bind_ok, run_pure_ok] at h
    obtain ⟨x, k, hx, y, k', hy, rfl, -⟩ := h
    obtain rfl := Code.expr_labelCount l hx
    exact ⟨x, y, k', hx, hy, fun z hz => by simp [hz], fun z hz => by simp [hz]⟩
  | logical =>
    simp only [Code.expr, run_bind_ok, run_pure_ok] at h
    obtain ⟨stop, k₀, hstop, x, k, hx, y, k', hy, rfl, -⟩ := h
    obtain ⟨-, rfl⟩ := Code.label_ok hstop
    obtain rfl := Code.expr_labelCount l hx
    exact ⟨x, y, k', hx, hy, fun z hz => by simp [hz], fun z hz => by simp [hz]⟩

/-- On the memory `mem`, the step does nothing but read, and it has the result `r`. -/
def WordStep.Reads {α : Type} (mem : Int → Int) (x : WordStep α) (r : Option α) : Prop :=
  x.run mem = r.map fun v => (v, mem)

namespace WordStep.Reads

variable {α β : Type} {mem : Int → Int} {r : Option α}

theorem pure (v : α) : Reads mem (pure v) (some v) := rfl

theorem lift (r : Option α) : Reads mem (liftM r) r := by
  cases r <;> rfl

theorem bind {x : WordStep α} {f : α → WordStep β} {g : α → Option β} (hx : Reads mem x r)
    (hf : ∀ v, Reads mem (f v) (g v)) : Reads mem (x >>= f) (r.bind g) := by
  unfold Reads at hx
  cases r with
  | none => rw [Reads, StateT.run_bind, hx]; rfl
  | some v =>
    rw [Reads, StateT.run_bind, hx]
    exact hf v

theorem map {x : WordStep α} {f : α → β} (hx : Reads mem x r) :
    Reads mem (x >>= fun v => Pure.pure (f v)) (r.map f) := by
  have h := hx.bind (g := fun v => some (f v)) fun v => pure (f v)
  cases r <;> exact h

end WordStep.Reads

namespace Expr

variable {m m' : Machine} {o : Options} {b : Annotations} {fp : Int} {mem : Int → Int}

/-- Two literals are never equal. -/
theorem word_literals (hl : m'.code.labels.Nodup) {node i j : Node} {s t q q' : String} {n : Nat}
    {op : EqOp} (hs : Item.datum (Label.numbered "str" n) (.asciiz q) ∈ m'.code)
    (ht : Item.datum (Label.numbered "str" (n + 1)) (.asciiz q') ∈ m'.code) :
    ((Expr.binary node (.equality op) (.str i s) (.str j t)).word m' b fp n).Reads mem
      (some (op.holds false).toInt) := by
  obtain ⟨u, v, hu, hv, hne⟩ := texts_apart hl hs ht fun heq =>
    Nat.succ_ne_self n (Label.numbered_inj heq).symm
  have hfirst : ((Expr.str i s).word m' b fp n).Reads mem (some u) :=
    hu ▸ WordStep.Reads.lift (m'.address? (Label.numbered "str" n))
  have hsecond : ((Expr.str j t).word m' b fp (n + 1)).Reads mem (some v) :=
    hv ▸ WordStep.Reads.lift (m'.address? (Label.numbered "str" (n + 1)))
  have hcompare := hfirst.bind fun u => hsecond.map (f := fun v => (op.holds (u == v)).toInt)
  rw [Option.bind_some, Option.map_some, beq_false_of_ne hne] at hcompare
  exact hcompare

/-- **The word of an expression that is settled** is its value, wherever its code stands. -/
theorem word_reads (hl : m'.code.labels.Nodup) : ∀ (e : Expr) {n n' : Nat} {c : Code},
    e.isSettled = true → (∀ q ∈ e.moved, q.address? m' b fp = q.address? m b fp) →
    (Code.expr o b e).run n = .ok (c, n') → c ⊆ m'.code →
    (e.word m' b fp n).Reads mem (e.value? m b fp mem)
  | .int .., _, _, _, _, _, _, _ | .bool .., _, _, _, _, _, _, _ => .pure _
  | .str .., _, _, _, h, _, _, _ | .assign .., _, _, _, h, _, _, _
  | .call .., _, _, _, h, _, _, _ => nomatch h
  | .place q, n, n', c, _, hq, _, _ => by
    rw [Expr.moved, List.forall_mem_singleton] at hq
    rw [value?_place, ← hq, Option.map_eq_bind]
    exact (WordStep.Reads.lift _).bind fun a => rfl
  | .unary _ op e, n, n', c, h, hq, hrun, hc => by
    simp only [Code.expr, run_bind_ok, run_pure_ok] at hrun
    obtain ⟨x, k, hx, rfl, -⟩ := hrun
    have he := word_reads hl e h hq hx fun y hy => hc (by simp [hy])
    exact he.bind fun v => .lift _
  | .binary _ op l r, n, n', c, h, hq, hrun, hc => by
    rw [Expr.moved, List.forall_mem_append] at hq
    obtain ⟨x, y, k, hx, hy, hxc, hyc⟩ := Code.operands_run hrun
    rcases isSettled_cases h with ⟨op, i, s, j, t, rfl, rfl, rfl⟩ | ⟨hsl, hsr⟩
    · exact word_literals hl (hc (hxc (Code.datum_of_str hx).1)) (hc (hyc (Code.datum_of_str hy).1))
    · have hleft := word_reads hl l hsl hq.1 hx (List.Subset.trans hxc hc)
      have hright := word_reads hl r hsr hq.2 hy (List.Subset.trans hyc hc)
      cases op with
      | arith op => exact hleft.bind fun u => hright.bind fun v => .lift _
      | equality op =>
        rw [value?_equality (by rintro i s rfl; cases hsl)]
        exact hleft.bind fun u => hright.map
      | order op => exact hleft.bind fun u => hright.map
      | logical op =>
        cases op with
        | and | or =>
          refine hleft.bind fun u => ?_
          split
          · exact .pure _
          · exact hright

/-- The places whose word can be the value of a truth value. -/
def truths : Expr → List Place
  | .place q => [q]
  | .binary _ (.logical _) left right => left.truths ++ right.truths
  | _ => []

theorem toInt_truth (x : Bool) : x.toInt = 0 ∨ x.toInt = 1 := by
  cases x
  · exact .inl rfl
  · exact .inr rfl

theorem equality_truth {node : Node} {op : EqOp} {l r : Expr} {x : Int}
    (h : (Expr.binary node (.equality op) l r).value? m b fp mem = some x) : x = 0 ∨ x = 1 := by
  by_cases hl : ∃ i s, l = .str i s
  · obtain ⟨i, s, rfl⟩ := hl
    cases r with
    | str => exact Option.some.inj h ▸ toInt_truth _
    | _ => cases h
  · rw [value?_equality fun i s heq => hl ⟨i, s, heq⟩] at h
    obtain ⟨y, -, hy⟩ := Option.bind_eq_some_iff.1 h
    obtain ⟨z, -, rfl⟩ := Option.map_eq_some_iff.1 hy
    exact toInt_truth _

end Expr

/-- **A truth value is zero or one**, if the places are that it may come from. -/
theorem HasType.value?_truth {v : Surroundings} {m : Machine} {b : Annotations} {fp : Int}
    {mem : Int → Int} : ∀ {e : Expr} {x : Int}, HasType v e .bool →
    (∀ q ∈ e.truths, ∀ a, q.address? m b fp = some a → mem a = 0 ∨ mem a = 1) →
    e.value? m b fp mem = some x → x = 0 ∨ x = 1
  | .int .., x, ht, _, _ => nomatch ht
  | .str .., x, _, _, h | .assign .., x, _, _, h | .call .., x, _, _, h => nomatch h
  | .bool _ value, x, _, _, h => Option.some.inj h ▸ Expr.toInt_truth value
  | .place q, x, _, hq, h => by
    obtain ⟨a, ha, rfl⟩ := Option.map_eq_some_iff.1 h
    exact hq q (.head _) a ha
  | .unary _ .negate e, x, ht, _, _ => nomatch ht
  | .unary _ .not e, x, _, _, h => by
    obtain ⟨y, -, hy⟩ := Option.bind_eq_some_iff.1 h
    exact Option.some.inj hy ▸ Expr.toInt_truth _
  | .binary _ (.arith op) l r, x, ht, _, _ => nomatch ht
  | .binary _ (.equality op) l r, x, _, _, h => Expr.equality_truth h
  | .binary _ (.order op) l r, x, _, _, h => by
    obtain ⟨y, -, hy⟩ := Option.bind_eq_some_iff.1 h
    obtain ⟨z, -, rfl⟩ := Option.map_eq_some_iff.1 hy
    exact Expr.toInt_truth _
  | .binary _ (.logical op) l r, x, ht, hq, h => by
    rw [Expr.truths, List.forall_mem_append] at hq
    cases ht with
    | logical hl hr =>
      cases op with
      | and | or =>
        obtain ⟨y, -, hy⟩ := Option.bind_eq_some_iff.1 h
        split at hy
        · have := Option.some.inj hy
          omega
        · exact value?_truth hr hq.2 hy

/-! ## Values of connectives -/

section

variable {m : Machine} {b : Annotations} {fp : Int} {mem : Int → Int} {node i j : Node}
  {l r : Expr}

/-- The value of the expression is not zero. -/
def Expr.Nonzero (m : Machine) (b : Annotations) (fp : Int) (mem : Int → Int) (e : Expr) : Prop :=
  ∃ v, e.value? m b fp mem = some v ∧ v ≠ 0

namespace Expr

theorem nonzero_and : (Expr.binary node (.logical .and) l r).Nonzero m b fp mem ↔
    l.Nonzero m b fp mem ∧ r.Nonzero m b fp mem := by
  unfold Nonzero
  rw [value?_and]
  cases l.value? m b fp mem with
  | none => simp
  | some x =>
    by_cases hx : x = 0
    · simp [hx]
    · simp [hx]

theorem nonzero_compare {op : EqOp} (hl : l.isSettled = true) {x : Bool} :
    (Expr.binary i (.equality op) l (.bool j x)).Nonzero m b fp mem ↔
      ∃ v, l.value? m b fp mem = some v ∧ op.holds (v == x.toInt) = true := by
  unfold Nonzero
  rw [value?_equality (by rintro i s rfl; cases hl)]
  cases l.value? m b fp mem with
  | none => simp
  | some v => cases hop : op.holds (v == x.toInt) <;> simp [hop]

theorem nonzero_or (hl : l.isSettled = true) :
    (Expr.binary node (.logical .or) l r).Nonzero m b fp mem ↔
      (Expr.binary i (.equality .equal) l (.bool j true)).Nonzero m b fp mem ∨
        (Expr.binary i (.equality .notEqual) l (.bool j true)).Nonzero m b fp mem ∧
          r.Nonzero m b fp mem := by
  rw [nonzero_compare hl, nonzero_compare hl]
  unfold Nonzero
  rw [value?_or]
  cases l.value? m b fp mem with
  | none => simp
  | some x =>
    by_cases hx : x = 1
    · simp [hx, EqOp.holds]
    · simp [hx, EqOp.holds]

theorem nonzero_not : (Expr.unary i .not l).Nonzero m b fp mem ↔ l.value? m b fp mem = some 0 := by
  unfold Nonzero
  rw [value?_unary]
  cases l.value? m b fp mem with
  | none => simp
  | some x =>
    by_cases hx : x = 0
    · simp [hx, UnaryOp.eval]
    · simp [hx, UnaryOp.eval, beq_false_of_ne hx]

/-- A value that is zero or one decides both ways. -/
theorem nonzero_or_of_truth (hends : l.Nonzero m b fp mem ∨ (Expr.unary i .not l).Nonzero m b fp mem)
    (htruth : ∀ v, l.value? m b fp mem = some v → v = 0 ∨ v = 1) :
    (Expr.binary node (.logical .or) l r).Nonzero m b fp mem ↔
      l.Nonzero m b fp mem ∨ r.Nonzero m b fp mem := by
  rw [nonzero_not] at hends
  unfold Nonzero at hends ⊢
  rw [value?_or]
  cases hv : l.value? m b fp mem with
  | none =>
    rw [hv] at hends
    simp at hends
  | some x =>
    rcases htruth x hv with rfl | rfl
    · simp
    · simp

end Expr

end

end FlatC
