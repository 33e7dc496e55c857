import FlatC.Proofs.Wordwise.Run

/-!
# Code for expressions, on words

The code of an expression without calls pushes the word that the expression evaluates to
(`Expr.computes`), from any state of the machine: all that is asked for is that the words of the
stack and those of the places in the expression can be used, and that the places lie above the
stack.
-/

namespace FlatC

open Machine

/-- The word of the place lies above `low` and can be used. -/
def Place.Above (m : Machine) (words : Int → Bool) (b : Annotations) (fp low : Int) (q : Place) :
    Prop :=
  ∃ l a, (∀ k, (Code.location b q).run k = .ok (l, k)) ∧ m.place? fp l = some a ∧ low < a ∧
    words a = true

/-- The code of the expression pushes the word that it evaluates to. -/
def Expr.Computes (m : Machine) (words : Int → Bool) (o : Options) (b : Annotations)
    (fp low : Int) (e : Expr) : Prop :=
  ∀ ⦃n n' : Nat⦄ ⦃c : Code⦄ ⦃pos : Nat⦄ ⦃mem : Int → Int⦄ ⦃s : State⦄,
    (Code.expr o b e).run n = .ok (c, n') → m.Seg pos c → Poised words fp low mem pos s →
    m.Evaluates words (e.word m b fp n) mem s (Pushed low s (pos + c.length))

namespace Expr

variable {m : Machine} {words : Int → Bool} {o : Options} {b : Annotations} {fp low : Int}
  {pos : Nat} {mem : Int → Int} {s : State} {node : Node}

theorem immediate_pushed {x : Int} (hseg : m.Seg pos (Code.immediate o x))
    (h : Poised words fp low mem pos s) :
    ∃ s', m.StepsIn words s s' ∧ Pushed low s (pos + 3) x mem s' := by
  obtain ⟨hs, h1⟩ := h.after.set (r := .t0) (x := x) hseg rfl (.inl rfl)
  obtain ⟨s', hs', hp⟩ := h1.push h.room h.word hseg.tail
  exact ⟨s', hs.trans hs', by simpa using hp⟩

theorem computes_int (value : Int) : (Expr.int node value).Computes m words o b fp low := by
  intro n n' c pos mem s hrun hseg h
  obtain ⟨rfl, -⟩ := run_pure_ok.1 hrun
  exact immediate_pushed hseg h

theorem computes_bool (value : Bool) : (Expr.bool node value).Computes m words o b fp low := by
  intro n n' c pos mem s hrun hseg h
  obtain ⟨rfl, -⟩ := run_pure_ok.1 hrun
  have hword : (if value then 1 else 0 : Int) = value.toInt := by cases value <;> rfl
  rw [hword] at hseg
  exact immediate_pushed hseg h

theorem computes_str (hl : m.code.labels.Nodup) (text : String) :
    (Expr.str node text).Computes m words o b fp low := by
  intro n n' c pos mem s hrun hseg h
  simp only [Code.expr, Code.stringLiteral, run_bind_ok, run_pure_ok] at hrun
  obtain ⟨label, _, hlabel, rfl, -⟩ := hrun
  obtain ⟨rfl, -⟩ := Code.label_ok hlabel
  obtain ⟨x, hx, hname, -⟩ := Code.exists_entry (a := m.dataStart)
    (List.mem_of_getElem? hseg.tail.head)
  have haddr : m.address? (Label.numbered "str" n) = some x.address :=
    hname ▸ address?_eq hl hx
  obtain ⟨hs1, h1⟩ := h.after.skip hseg rfl
  obtain ⟨hs2, h2⟩ := h1.skip hseg.tail rfl
  obtain ⟨hs3, h3⟩ := h2.skip hseg.tail.tail rfl
  obtain ⟨hs4, h4⟩ := h3.set (r := .t0) (x := x.address) hseg.tail.tail.tail
    (by simp [Code.bare, itemIn, execIn, exec, haddr]) (.inl rfl)
  obtain ⟨s5, hs5, hp⟩ := h4.push h.room h.word hseg.tail.tail.tail.tail
  refine .lift (fun v hv => ⟨s5, (((hs1.trans hs2).trans hs3).trans hs4).trans hs5, ?_⟩) fun hnone => ?_
  · obtain rfl := Option.some.inj (haddr.symm.trans hv)
    simpa using hp
  · rw [haddr] at hnone
    cases hnone

theorem computes_place {q : Place} (hq : q.Above m words b fp low) :
    (Expr.place q).Computes m words o b fp low := by
  intro n n' c pos mem s hrun hseg h
  obtain ⟨l, a, hloc, ha, hlow, hword⟩ := hq
  simp only [Code.expr, run_bind_ok, run_pure_ok] at hrun
  obtain ⟨l', _, hl', rfl, -⟩ := hrun
  obtain ⟨rfl, -⟩ := Prod.mk.inj (Except.ok.inj ((hloc n).symm.trans hl'))
  obtain ⟨hload, hpush⟩ := hseg.append
  obtain ⟨s1, hs1, h1, hr1⟩ := h.after.load (by rwa [h.fp]) hlow hword hload
  obtain ⟨s2, hs2, hp⟩ := h1.push h.room h.word hpush
  rw [hr1] at hp
  exact .some_bind ((Place.address?_eq hloc).trans ha) ⟨s2, hs1.trans hs2, hp⟩

theorem computes_assign {q : Place} {e : Expr} (hq : q.Above m words b fp low)
    (he : e.Computes m words o b fp low) :
    (Expr.assign node q e).Computes m words o b fp low := by
  intro n n' c pos mem s hrun hseg h
  obtain ⟨l, a, hloc, ha, hlow, hword⟩ := hq
  simp only [Code.expr, run_bind_ok, run_pure_ok] at hrun
  obtain ⟨cv, k, hcv, l', _, hl', rfl, -⟩ := hrun
  obtain ⟨rfl, -⟩ := Prod.mk.inj (Except.ok.inj ((hloc k).symm.trans hl'))
  simp only [List.append_assoc] at hseg
  obtain ⟨hvalue, hseg⟩ := hseg.append
  obtain ⟨hpeek, hstore⟩ := hseg.append
  refine (he hcv hvalue h).bind fun v mem1 s1 hp =>
    .some_bind ((Place.address?_eq hloc).trans ha) ?_
  obtain ⟨s2, hs2, h2, hr2, hmem2⟩ := hp.peek h.word hpeek
  obtain ⟨s3, hs3, h3, hbelow⟩ := h2.store (by rwa [h.fp]) hlow hword hstore
  rw [hr2, hp.word] at h3
  refine ⟨s3, hs2.trans hs3, h3.cast (by simp; omega), ?_⟩
  rw [hbelow _ h.room, hmem2, hp.word]

/-- The result of an instruction on `$t0` is pushed, if there is one. -/
theorem operation_pushed {i : Instr} {r : Option Int} {stop : Nat} {s₁ : State}
    (h : Poised words fp low mem pos s) {pos₁ : Nat} {mem₁ : Int → Int}
    (h₁ : After low s (s.regs .sp) pos₁ mem₁ s₁)
    (hseg : m.Seg pos₁ ([Code.bare i] ++ Code.push o .t0)) (harith : i.isArithmetic = true)
    (hi : m.itemIn words s₁ (Code.bare i) = r.map fun z => (s₁.setReg .t0 z).next)
    (hstop : pos₁ + 3 = stop) :
    m.Evaluates words (liftM r) mem₁ s₁ (Pushed low s stop) := by
  subst hstop
  refine .lift (fun z hz => ?_) fun hnone => ⟨s₁, .refl, ?_, i, none, ?_, harith⟩
  · rw [hz, Option.map_some] at hi
    obtain ⟨hs2, h2⟩ := h₁.set hseg hi (.inl rfl)
    obtain ⟨s3, hs3, hp⟩ := h2.push h.room h.word hseg.tail
    exact ⟨s3, hs2.trans hs3, by simpa using hp⟩
  · rw [hseg.stepIn h₁.pc, hi, hnone, Option.map_none]
  · rw [h₁.pc]
    exact hseg.head

theorem computes_unary {op : UnaryOp} {e : Expr} (he : e.Computes m words o b fp low) :
    (Expr.unary node op e).Computes m words o b fp low := by
  intro n n' c pos mem s hrun hseg h
  simp only [Code.expr, run_bind_ok, run_pure_ok] at hrun
  obtain ⟨cx, k, hcx, rfl, -⟩ := hrun
  simp only [List.append_assoc] at hseg
  obtain ⟨hoperand, hseg⟩ := hseg.append
  obtain ⟨hpop, hsign⟩ := hseg.append
  refine (he hcx hoperand h).bind fun x mem1 s1 hp => ?_
  obtain ⟨s2, hs2, h2, hr2, -⟩ := hp.pop h.word hpop (.inl rfl)
  rw [hp.word] at hr2
  refine .steps hs2 (operation_pushed h h2 hsign ?_ ?_ (by simp; omega))
  · cases op <;> rfl
  · rw [← hr2]
    cases op <;> rfl

/-- Two operands and an operation on them. -/
theorem operate_pushed {left right : Expr} (hleft : left.Computes m words o b fp low)
    (hright : right.Computes m words o b fp low) {op : AluOp} {f : Int → Int → WordStep Int}
    (hf : ∀ x y, f x y = liftM (op.eval x y)) {n n' n'' : Nat} {cl cr : Code}
    (hcl : (Code.expr o b left).run n = .ok (cl, n'))
    (hcr : (Code.expr o b right).run n' = .ok (cr, n''))
    (hseg : m.Seg pos (cl ++ cr ++ Code.operate o op)) (h : Poised words fp low mem pos s) :
    m.Evaluates words (do
      let x ← left.word m b fp n
      let y ← right.word m b fp (n + left.labelCount)
      f x y) mem s (Pushed low s (pos + (cl ++ cr ++ Code.operate o op).length)) := by
  obtain rfl := Code.expr_labelCount left hcl
  have hlt : s.regs .sp - wordSize < s.regs .sp := by
    simp only [wordSize]
    omega
  unfold Code.operate at hseg
  simp only [List.append_assoc] at hseg
  obtain ⟨hseg1, hseg⟩ := hseg.append
  obtain ⟨hseg2, hseg⟩ := hseg.append
  obtain ⟨hpop1, hseg⟩ := hseg.append
  obtain ⟨hpop0, halu⟩ := hseg.append
  refine (hleft hcl hseg1 h).bind fun x mem1 s1 hp1 => ?_
  have h1 := h.resume (k := 1) hp1.toAfter (by simp)
  refine (hright hcr hseg2 h1).bind fun y mem2 s2 hp2 => ?_
  -- the left operand lies where it was pushed, and the right one below it
  have hx : s2.mem (s.regs .sp) = x := by
    rw [hp2.between _ (hp1.sp ▸ hlt) h.room, hp1.word]
  have hy : s2.mem (s.regs .sp - wordSize) = y := by
    rw [← hp1.sp, hp2.word]
  have h2 := hp1.toAfter.trans (Int.le_of_lt hlt) hp2.toAfter
  rw [hp1.sp] at h2
  obtain ⟨s3, hs3, h3, hr3, hmem3, -⟩ := h2.pop (hp1.sp ▸ h1.word) hpop1 (.inr rfl)
  obtain ⟨s4, hs4, h4, hr4, -, hkept⟩ := h3.pop h.word hpop0 (.inl rfl)
  rw [hmem3, hx] at hr4
  have hr4' : s4.regs .t1 = y := by
    rw [hkept .t1 (by decide) (by decide), hr3, hy]
  rw [hf]
  refine .steps (hs3.trans hs4) (operation_pushed h h4 halu rfl ?_ ?_)
  · rw [← hr4, ← hr4']
    rfl
  · simp
    omega

theorem computes_arith {op : ArithOp} {left right : Expr}
    (hleft : left.Computes m words o b fp low) (hright : right.Computes m words o b fp low) :
    (Expr.binary node (.arith op) left right).Computes m words o b fp low := by
  intro n n' c pos mem s hrun hseg h
  simp only [Code.expr, run_bind_ok, run_pure_ok] at hrun
  obtain ⟨cl, _, hcl, cr, _, hcr, rfl, -⟩ := hrun
  exact operate_pushed hleft hright (fun x y => by rw [Code.eval_arithAlu]) hcl hcr hseg h

theorem computes_equality {op : EqOp} {left right : Expr}
    (hleft : left.Computes m words o b fp low) (hright : right.Computes m words o b fp low) :
    (Expr.binary node (.equality op) left right).Computes m words o b fp low := by
  intro n n' c pos mem s hrun hseg h
  simp only [Code.expr, run_bind_ok, run_pure_ok] at hrun
  obtain ⟨cl, _, hcl, cr, _, hcr, rfl, -⟩ := hrun
  exact operate_pushed hleft hright (fun x y => by rw [Code.eval_equalityAlu]; rfl) hcl hcr hseg h

theorem computes_order {op : OrderOp} {left right : Expr}
    (hleft : left.Computes m words o b fp low) (hright : right.Computes m words o b fp low) :
    (Expr.binary node (.order op) left right).Computes m words o b fp low := by
  intro n n' c pos mem s hrun hseg h
  simp only [Code.expr, run_bind_ok, run_pure_ok] at hrun
  obtain ⟨cl, _, hcl, cr, _, hcr, rfl, -⟩ := hrun
  exact operate_pushed hleft hright (fun x y => by rw [Code.eval_orderAlu]; rfl) hcl hcr hseg h

/-- Both connectives leave the left operand if it decides. -/
theorem word_logical (op : Connective) (left right : Expr) (n : Nat) :
    (Expr.binary node (.logical op) left right).word m b fp n = (do
      let x ← left.word m b fp (n + 1)
      if x = Code.decisive op then return x else right.word m b fp (n + 1 + left.labelCount)) := by
  cases op <;>
  · refine bind_congr fun x => ?_
    split
    next hx => simp [hx, Code.decisive]
    next hx => simp [hx, Code.decisive]

theorem computes_logical (hl : m.code.labels.Nodup) {op : Connective} {left right : Expr}
    (hleft : left.Computes m words o b fp low) (hright : right.Computes m words o b fp low) :
    (Expr.binary node (.logical op) left right).Computes m words o b fp low := by
  intro n n' c pos mem s hrun hseg h
  simp only [Code.expr, run_bind_ok, run_pure_ok] at hrun
  obtain ⟨stop, _, hstop, cl, _, hcl, cr, _, hcr, rfl, -⟩ := hrun
  obtain ⟨-, rfl⟩ := Code.label_ok hstop
  obtain rfl := Code.expr_labelCount left hcl
  simp only [List.append_assoc] at hseg
  obtain ⟨hseg1, hseg⟩ := hseg.append
  obtain ⟨hpeek, hseg⟩ := hseg.append
  obtain ⟨hbranch, hseg⟩ := hseg.append
  obtain ⟨hdiscard, hseg⟩ := hseg.append
  obtain ⟨hseg2, hend⟩ := hseg.append
  rw [word_logical]
  refine (hleft hcl hseg1 h).bind fun x mem1 s1 hp1 => ?_
  obtain ⟨s2, hs2, h2, hr2, hmem2⟩ := hp1.peek h.word hpeek
  rw [hp1.word] at hr2
  refine .steps hs2 ?_
  by_cases hx : x = Code.decisive op
  · rw [if_pos hx]
    obtain ⟨s3, hs3, h3, hmem3⟩ := h2.branch hl hbranch hend (hr2.trans hx)
    refine ⟨s3, hs3, h3.cast (by simp; omega), ?_⟩
    rw [hmem3, hmem2, hp1.word]
  · rw [if_neg hx]
    obtain ⟨hs3, h3⟩ := h2.pass hbranch fun heq => hx (hr2.symm.trans heq)
    obtain ⟨s4, hs4, h4⟩ := h3.discard hdiscard
    refine .steps (hs3.trans hs4) ?_
    refine (hright hcr hseg2 (h.resume (k := 0) h4 (by simp))).conclude fun y mem2 s5 _ hp5 => ?_
    have h5 := h4.trans (Int.le_refl _) hp5.toAfter
    rw [h4.sp] at h5
    obtain ⟨hs6, h6⟩ := h5.skip hend rfl
    refine ⟨_, hs6, h6.cast (by simp; omega), ?_⟩
    rw [State.mem_next, ← h4.sp, hp5.word]

/-- **The code of an expression computes it**, whatever the machine holds. -/
theorem computes (hl : m.code.labels.Nodup) : ∀ e : Expr, e.callees = [] →
    (∀ q ∈ e.moved, q.Above m words b fp low) → e.Computes m words o b fp low
  | .int _ value, _, _ => computes_int value
  | .str _ text, _, _ => computes_str hl text
  | .bool _ value, _, _ => computes_bool value
  | .place q, _, hq => computes_place (hq q (.head _))
  | .assign _ q e, hc, hq =>
    computes_assign (hq q (.head _)) (computes hl e hc fun q' h => hq q' (.tail _ h))
  | .call .., hc, _ => nomatch hc
  | .unary _ _ e, hc, hq => computes_unary (computes hl e hc hq)
  | .binary _ op left right, hc, hq => by
    rw [Expr.callees, List.append_eq_nil_iff] at hc
    rw [Expr.moved, List.forall_mem_append] at hq
    have hleft := computes hl left hc.1 hq.1
    have hright := computes hl right hc.2 hq.2
    cases op with
    | arith => exact computes_arith hleft hright
    | equality => exact computes_equality hleft hright
    | order => exact computes_order hleft hright
    | logical => exact computes_logical hl hleft hright

end Expr

end FlatC
