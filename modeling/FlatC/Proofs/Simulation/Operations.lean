import FlatC.Proofs.Simulation.Pieces

/-!
# Operations on the stack

`Shows` relates a value to the word that stands for it: a number, one or zero, or the address of
the literal. Each operation of a program is computed by its instruction on such words.
-/

namespace FlatC

open Machine

/-- The word stands for the value. A literal is one of the nodes `ids`, and its characters are at
a label that is defined between `start` and `stop`. -/
inductive Shows (m : Machine) (ids : List NodeId) (start stop : Nat) : Value → Int → Prop where
  | atom (a : Atom) : Shows m ids start stop (.atom a) a.word
  | str {id : NodeId} {text label : String} {k : Nat} {a : Int} (hid : id ∈ ids)
      (hstart : start ≤ k) (hstop : k < stop)
      (hk : m.code[k]? = some (.datum label (.asciiz (Code.quoted text))))
      (ha : m.address? label = some a) : Shows m ids start stop (.str id text) a

section

variable {m : Machine} {o : Options} {p : Program} {b : Annotations} {w : World} {s : State}
  {Q : Atom → World → State → Prop} {ids ids' : List NodeId} {start stop start' stop' : Nat}
  {v u : Value} {x y : Int}

theorem Shows.atom_eq {a : Atom} (h : Shows m ids start stop (.atom a) x) : x = a.word := by
  cases h
  rfl

/-- Literals at different places have different addresses. -/
theorem address_ne (hc : Compiled m o p b) {k k' : Nat} {label label' q q' : String} {a a' : Int}
    (hk : m.code[k]? = some (.datum label (.asciiz q)))
    (hk' : m.code[k']? = some (.datum label' (.asciiz q'))) (hne : k ≠ k')
    (ha : m.address? label = some a) (ha' : m.address? label' = some a') : a ≠ a' := by
  obtain ⟨x, hx, rfl, hd⟩ := Code.exists_entry (a := m.dataStart) (List.mem_of_getElem? hk)
  obtain ⟨x', hx', rfl, hd'⟩ := Code.exists_entry (a := m.dataStart) (List.mem_of_getElem? hk')
  obtain rfl := Option.some.inj ((address?_eq hc.labels hx).symm.trans ha)
  obtain rfl := Option.some.inj ((address?_eq hc.labels hx').symm.trans ha')
  obtain rfl | hlt | hlt := data_apart hx hx'
  · exact absurd (Code.index_unique hc.labels hk hk' rfl rfl) hne
  · simp only [hd, Datum.size] at hlt
    omega
  · simp only [hd', Datum.size] at hlt
    omega

/-- Values are the same if their words are. -/
theorem Shows.same (hc : Compiled m o p b) (hv : Shows m ids start stop v x)
    (hu : Shows m ids' start' stop' u y) (hdisj : ∀ i ∈ ids, i ∉ ids') (hle : stop ≤ start')
    {r : Bool} (h : v.same? u = some r) : (x == y) = r := by
  cases hv with
  | atom a =>
    cases hu with
    | atom a' =>
      cases a <;> cases a' <;> simp only [Value.same?, Option.some.injEq, reduceCtorEq] at h
      case int n k => exact h
      case bool n k =>
        subst h
        cases n <;> cases k <;> rfl
    | str => cases a <;> cases h
  | str hid hs ht hk ha =>
    cases hu with
    | atom a' => cases h
    | str hid' hs' ht' hk' ha' =>
      have hne := address_ne hc hk hk' (by omega) ha ha'
      simp only [Value.same?, Option.some.injEq] at h
      rw [← h, beq_false_of_ne hne, beq_false_of_ne]
      rintro rfl
      exact hdisj _ hid hid'

/-! ## Operators -/

theorem unary_simulates {op : UnaryOp}
    (h : ∀ u a, v = .atom u → (∀ s : State, s.regs .t0 = u.word →
      m.item s (Code.bare (Code.sign op)) = some (s.setReg .t0 a.word).next) → Q a w s) :
    m.Simulates (Eval.unary op v) w s Q := by
  cases op with
  | negate =>
    refine .from?_bind fun n hn => .from?_bind fun k hk => ⟨s, .refl, ?_⟩
    refine h (.int n) (.int k) (Value.atom_of_int? hn) fun s hs => ?_
    simp [Code.bare, Code.sign, item, exec, hs, Atom.word, hk]
  | not =>
    refine .from?_bind fun n hn => ⟨s, .refl, ?_⟩
    refine h (.bool n) (.bool (!n)) (Value.atom_of_bool? hn) fun s hs => ?_
    simp only [Code.bare, Code.sign, item, exec, hs, Atom.word, AluOp.eval, source]
    cases n <;> rfl

theorem arith_simulates {op : ArithOp}
    (h : ∀ n k a, v = .atom n → u = .atom k →
      (Code.arithAlu op).eval n.word k.word = some a.word → Q a w s) :
    m.Simulates (Eval.arith op v u) w s Q := by
  refine .from?_bind fun n hn => .from?_bind fun k hk => .from?_bind fun r hr => ⟨s, .refl, ?_⟩
  refine h (.int n) (.int k) (.int r) (Value.atom_of_int? hn) (Value.atom_of_int? hk) ?_
  rw [Code.eval_arithAlu]
  exact hr

theorem order_simulates {op : OrderOp}
    (h : ∀ n k a, v = .atom n → u = .atom k →
      (Code.orderAlu op).eval n.word k.word = some a.word → Q a w s) :
    m.Simulates (Eval.order op v u) w s Q := by
  refine .from?_bind fun n hn => .from?_bind fun k hk => ⟨s, .refl, ?_⟩
  refine h (.int n) (.int k) _ (Value.atom_of_int? hn) (Value.atom_of_int? hk) ?_
  exact Code.eval_orderAlu op n k

theorem equality_simulates {op : EqOp}
    (h : ∀ a, (∀ x y, (∀ r, v.same? u = some r → (x == y) = r) →
      (Code.equalityAlu op).eval x y = some a.word) → Q a w s) :
    m.Simulates (Eval.equality op v u) w s Q := by
  refine .from?_bind fun r hr => ⟨s, .refl, h (.bool (op.holds r)) fun x y hxy => ?_⟩
  rw [Code.eval_equalityAlu, hxy r hr]
  rfl

/-! ## Variables -/

variable {e : Env} {q : Place}

theorem target_bind {β : Type} {f : Target × Scalar → Exec β} {Q : β → World → State → Prop}
    (h : ∀ t sc, e.place? q = some t → t.type = .scalar sc → m.Simulates (f (t, sc)) w s Q) :
    m.Simulates (Eval.target e q >>= f) w s Q := by
  unfold Eval.target
  rw [bind_assoc]
  refine .from?_bind fun t ht => ?_
  cases htype : t.type with
  | scalar sc =>
    rw [pure_bind]
    exact h t sc ht htype
  | struct name => exact .stuck

theorem load_bind {β : Type} {f : Atom → Exec β} {Q : β → World → State → Prop}
    (h : ∀ t sc v, e.place? q = some t → t.type = .scalar sc → t.get sc w = some v →
      m.Simulates (f v) w s Q) : m.Simulates (Eval.load e q >>= f) w s Q := by
  unfold Eval.load
  rw [bind_assoc]
  refine target_bind fun t sc ht htype => ?_
  rw [bind_assoc]
  exact .get_bind (.from?_bind fun v hv => h t sc v ht htype hv)

theorem store_bind {β : Type} {f : Atom → Exec β} {Q : β → World → State → Prop}
    (h : ∀ t sc a, e.place? q = some t → t.type = .scalar sc → v.as? sc = some a →
      m.Simulates (f a) (t.set a w) s Q) : m.Simulates (Eval.store e q v >>= f) w s Q := by
  unfold Eval.store
  rw [bind_assoc]
  refine target_bind fun t sc ht htype => ?_
  rw [bind_assoc]
  refine .from?_bind fun a ha => ?_
  rw [bind_assoc]
  refine .modify_bind ?_
  rw [pure_bind]
  exact h t sc a ht htype ha

theorem next_bind {β : Type} {f : Int → Exec β} {Q : β → World → State → Prop}
    (h : ∀ n input, w.input = n :: input → m.Simulates (f n) { w with input } s Q) :
    m.Simulates (Eval.next >>= f) w s Q := by
  unfold Eval.next
  rw [bind_assoc]
  refine .get_bind ?_
  cases hin : w.input with
  | nil => exact .stuck
  | cons n input =>
    simp only [bind_assoc, pure_bind]
    exact h n input hin

end

namespace Frame

variable {m : Machine} {o : Options} {p : Program} {b : Annotations} {fr : Frame m p b}
  {w : World} {top : Int} {pos : Nat} {s : State}

/-- Two words are taken from the stack, and the result of the operation is put there. -/
theorem At.operate (hc : Compiled m o p b) {op : AluOp} {z : Int}
    (h : fr.At w (top - wordSize - wordSize) pos s) (htop : top ≤ fr.low)
    (hseg : m.Seg pos (Code.operate o op))
    (hz : op.eval (s.mem top) (s.mem (top - wordSize)) = some z) :
    ∃ s', m.Steps s s' ∧ fr.At w (top - wordSize) (pos + 7) s' ∧ s'.mem top = z ∧
      fr.Keeps top s.mem s'.mem := by
  obtain ⟨hseg, hpush⟩ := hseg.append
  obtain ⟨hseg, halu⟩ := hseg.append
  obtain ⟨hpop1, hpop0⟩ := hseg.append
  have htop' : top - wordSize ≤ fr.low := by omega
  obtain ⟨s1, hs1, hat1, hr1, hmem1, -⟩ := h.pop htop' hpop1 (by decide) (by decide)
  obtain ⟨s2, hs2, hat2, hr2, hmem2, hkept⟩ := hat1.pop htop hpop0 (by decide) (by decide)
  have hitem : m.item s2 (Code.bare (.alu op .t0 .t0 (.reg .t1))) = some (s2.setReg .t0 z).next := by
    simp [Code.bare, item, exec, source, hr2, hkept .t1 (by decide) (by decide), hr1, hmem1, hz]
  obtain ⟨hs3, hat3⟩ := hat2.set halu hitem (by decide) (by decide)
  obtain ⟨s4, hs4, hat4, hr4, hkeeps⟩ := hat3.push hc hpush
  refine ⟨s4, ((hs1.trans hs2).trans hs3).trans hs4, hat4, by simpa using hr4, ?_⟩
  have : s2.mem = s.mem := hmem2.trans hmem1
  rw [← this]
  exact hkeeps

end Frame

end FlatC
