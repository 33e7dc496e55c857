import FlatC.Proofs.Code.Depth
import FlatC.Proofs.Wordwise.Function

/-!
# What the body of a function changes

The instructions in the body of a function leave the frame pointer alone, and they store on top of
the stack or where a place of the function is kept (`Instr.Modest`). With the depth of the stack,
that is all that is needed of an instruction to tell where the frame is behind it
(`Instr.Modest.inward`).
-/

namespace FlatC

open Machine Layout

/-- The instruction leaves the frame pointer alone and stays in the function. It stores on top of the
stack or at a location that satisfies `K`. -/
def Instr.Modest (K : Location → Prop) : Instr → Prop
  | .lw r _ | .li r _ | .la r _ | .move r _ | .addi r _ _ | .addu r _ _ | .subu r _ _ | .neg r _
  | .alu _ r _ _ => r ≠ .fp
  | .sw _ a => a = .indexed 0 .sp ∨ ∃ l, K l ∧ a = l.address
  | .jr _ => False
  | .beq .. | .b _ | .jal _ | .syscall => True

namespace Code

/-- The instructions of the code are modest. -/
def Modest (K : Location → Prop) (c : Code) : Prop :=
  ∀ i note, Item.instr i note ∈ c → i.Modest K

variable {K : Location → Prop} {o : Options} {c c' : Code}

namespace Modest

theorem nil : Modest K [] := fun _ _ h => nomatch h

theorem append (h : Modest K c) (h' : Modest K c') : Modest K (c ++ c') := by
  intro i note hi
  rcases List.mem_append.1 hi with hi | hi
  · exact h i note hi
  · exact h' i note hi

theorem instr {i : Instr} {note : Option String} (h : i.Modest K) : Modest K [.instr i note] := by
  intro i' note' hi
  obtain ⟨rfl, -⟩ := Item.instr.inj (List.mem_singleton.1 hi)
  exact h

/-- An item that is no instruction. -/
theorem item {x : Item} (h : ∀ i note, x ≠ .instr i note) : Modest K [x] := by
  intro i note hi
  exact absurd (List.mem_singleton.1 hi).symm (h i note)

theorem label (l : String) : Modest K [.label l] := item (by simp)

end Modest

/-! ## Pieces of code -/

theorem remark_modest (text : String) : Modest K (remark o text) := by
  unfold remark
  split
  · exact .item (by simp)
  · exact .nil

theorem push_modest (r : Reg) : Modest K (push o r) := by
  have hput : Modest K [noted o (.sw r (.indexed 0 .sp)) ("PUSH " ++ r.text)] := .instr (.inl rfl)
  exact hput.append (.instr (show Reg.sp ≠ .fp by decide))

theorem pop_modest {r : Reg} (hr : r ≠ .fp) : Modest K (pop o r) := by
  have htop : Modest K [noted o (.lw r (.indexed wordSize .sp)) ("POP " ++ r.text)] := .instr hr
  exact htop.append (.instr (show Reg.sp ≠ .fp by decide))

theorem peek_modest {r : Reg} (hr : r ≠ .fp) : Modest K (peek o r) := .instr hr

theorem discard_modest : Modest K (discard o) := .instr (show Reg.sp ≠ .fp by decide)

theorem load_modest {r : Reg} (hr : r ≠ .fp) (l : Location) : Modest K (load r l) := .instr hr

theorem store_modest {r : Reg} {l : Location} (h : K l) : Modest K (store r l) :=
  .instr (.inr ⟨l, h, rfl⟩)

theorem immediate_modest (value : Int) : Modest K (immediate o value) := by
  have hli : Modest K [bare (.li .t0 value)] := .instr (show Reg.t0 ≠ .fp by decide)
  exact hli.append (push_modest .t0)

theorem operate_modest (op : AluOp) : Modest K (operate o op) := by
  have halu : Modest K [bare (.alu op .t0 .t0 (.reg .t1))] := .instr (show Reg.t0 ≠ .fp by decide)
  have hpops : Modest K (pop o .t1 ++ pop o .t0) :=
    (pop_modest (by decide)).append (pop_modest (by decide))
  exact (hpops.append halu).append (push_modest .t0)

theorem system_modest (number : Int) : Modest K [bare (.li .v0 number), bare .syscall] := by
  have hli : Modest K [bare (.li .v0 number)] := .instr (show Reg.v0 ≠ .fp by decide)
  exact hli.append (.instr trivial)

/-! ## The code of a function -/

/-- A location where a place that satisfies `P` is kept. -/
def KeepsPlace (b : Annotations) (P : Place → Prop) (l : Location) : Prop :=
  ∃ q n m, P q ∧ (location b q).run n = .ok (l, m)

variable {b : Annotations} {P : Place → Prop} {exit : String}

theorem location_keeps (q : Place) (h : P q) : Emits (location b q) (KeepsPlace b P) :=
  fun n _ m _ hrun => ⟨trivial, q, n, m, h, hrun⟩

mutual

theorem expr_modest : ∀ e : Expr, (∀ q ∈ e.moved, P q) →
    Emits (expr o b e) (Modest (KeepsPlace b P))
  | .int .., _ | .bool .., _ => .pure (immediate_modest _)
  | .str _ text, _ => by
    refine .bind (emits_any _) fun l _ => .pure ?_
    have hdata : Modest (KeepsPlace b P) ([.data] ++ [.datum l (.asciiz (quoted text))] ++ [.text]) :=
      ((Modest.item (by simp)).append (.item (by simp))).append (.item (by simp))
    have hla : Modest (KeepsPlace b P) [bare (.la .t0 l)] := .instr (show Reg.t0 ≠ .fp by decide)
    exact (hdata.append hla).append (push_modest .t0)
  | .place q, _ =>
    .bind (emits_any _) fun l _ => .pure ((load_modest (by decide) l).append (push_modest .t0))
  | .assign _ target value, h => by
    rw [Expr.moved, List.forall_mem_cons] at h
    refine .bind (expr_modest value h.2) fun v hv => .bind (location_keeps target h.1) fun l hl => ?_
    exact .pure ((hv.append (peek_modest (by decide))).append (store_modest hl))
  | .call _ callee args, h => by
    refine .bind (exprs_modest args h) fun xs hxs => .pure ?_
    have hjal : Modest (KeepsPlace b P) [bare (.jal (Label.function callee.name))] := .instr trivial
    exact (hxs.append hjal).append (push_modest .v0)
  | .unary _ op operand, h => by
    refine .bind (expr_modest operand h) fun x hx => .pure ?_
    have hsign : Modest (KeepsPlace b P) [bare (sign op)] := by
      cases op <;> exact .instr (show Reg.t0 ≠ .fp by decide)
    exact ((hx.append (pop_modest (by decide))).append hsign).append (push_modest .t0)
  | .binary _ (.arith _) left right, h | .binary _ (.equality _) left right, h
  | .binary _ (.order _) left right, h => by
    rw [Expr.moved, List.forall_mem_append] at h
    exact .bind (expr_modest left h.1) fun l hl => .bind (expr_modest right h.2) fun r hr =>
      .pure ((hl.append hr).append (operate_modest _))
  | .binary _ (.logical op) left right, h => by
    rw [Expr.moved, List.forall_mem_append] at h
    refine .bind (emits_any _) fun stop _ => .bind (expr_modest left h.1) fun l hl =>
      .bind (expr_modest right h.2) fun r hr => .pure ?_
    have hbranch : Modest (KeepsPlace b P) [bare (.beq .t0 (decisive op) stop)] := .instr trivial
    have htest := (hl.append (peek_modest (o := o) (r := .t0) (by decide))).append hbranch
    exact ((htest.append discard_modest).append hr).append (.label stop)

theorem exprs_modest : ∀ es : List Expr, (∀ q ∈ Expr.allMoved es, P q) →
    Emits (exprs o b es) (Modest (KeepsPlace b P))
  | [], _ => .pure .nil
  | e :: es, h => by
    rw [Expr.allMoved, List.forall_mem_append] at h
    exact .bind (expr_modest e h.1) fun _ hx => .bind (exprs_modest es h.2) fun _ hxs =>
      .pure (hx.append hxs)

end

theorem step_modest (delta : Int) (q : Place) (h : P q) :
    Emits (step b delta q) (Modest (KeepsPlace b P)) := by
  refine .bind (location_keeps q h) fun l hl => .pure ?_
  have hadd : Modest (KeepsPlace b P) [bare (.addi .t0 .t0 delta)] :=
    .instr (show Reg.t0 ≠ .fp by decide)
  exact ((load_modest (by decide) l).append hadd).append (store_modest hl)

theorem read_modest (q : Place) (h : P q) :
    Emits (read o b q) (Modest (KeepsPlace b P)) := by
  refine .bind (location_keeps q h) fun l hl => .pure ?_
  exact ((remark_modest "READ").append (system_modest readInt)).append (store_modest hl)

theorem write_modest (e : Expr) (h : ∀ q ∈ e.moved, P q) :
    Emits (write o b e) (Modest (KeepsPlace b P)) := by
  refine .bind (emits_any _) fun number _ => .bind (expr_modest e h) fun x hx => .pure ?_
  exact (((remark_modest "WRITE").append hx).append (pop_modest (by decide))).append
    (system_modest number)

theorem branchUnless_modest (e : Expr) (h : ∀ q ∈ e.moved, P q) (target : String) :
    Emits (branchUnless o b e target) (Modest (KeepsPlace b P)) :=
  .bind (expr_modest e h) fun _ hx => .pure ((hx.append (pop_modest (by decide))).append
    (.instr trivial))

theorem returnValue_modest : ∀ value : Option Expr, (∀ e ∈ value, ∀ q ∈ e.moved, P q) →
    Emits (returnValue o b value) (Modest (KeepsPlace b P))
  | none, _ => .pure .nil
  | some e, h => .bind (expr_modest e (h e rfl)) fun _ hx => .pure (hx.append (pop_modest (by decide)))

mutual

theorem stmt_modest : ∀ (st : Stmt) (v : Surroundings), (∀ r ∈ st.exprs v, ∀ q ∈ r.2.moved, P q) →
    Emits (stmt o b exit st) (Modest (KeepsPlace b P))
  | .assign _ node target value, v, h => by
    rw [Stmt.exprs, List.forall_mem_singleton] at h
    refine .bind (expr_modest (.assign node target value) h) fun x hx => .pure ?_
    exact ((remark_modest "ASSIGN").append hx).append discard_modest
  | .increment _ target, v, h | .decrement _ target, v, h => by
    rw [Stmt.exprs, List.forall_mem_singleton] at h
    exact .bind (step_modest _ target (h target (.head _))) fun x hx =>
      .pure ((remark_modest _).append hx)
  | .read _ target, v, h => by
    rw [Stmt.exprs, List.forall_mem_singleton] at h
    exact read_modest target (h target (.head _))
  | .write _ value, v, h => by
    rw [Stmt.exprs, List.forall_mem_singleton] at h
    exact write_modest value h
  | .ifThen _ cond body, v, h => by
    rw [Stmt.exprs, List.forall_mem_cons] at h
    refine .bind (emits_any _) fun stop _ => .bind (branchUnless_modest cond h.1 stop) fun test ht =>
      .bind (body_modest body v h.2) fun code hcode => .pure ?_
    exact (((remark_modest "IF").append ht).append hcode).append (.label stop)
  | .ifElse _ cond thenBody elseBody, v, h => by
    rw [Stmt.exprs, List.forall_mem_cons, List.forall_mem_append] at h
    refine .bind (emits_any _) fun other _ => .bind (emits_any _) fun stop _ =>
      .bind (branchUnless_modest cond h.1 other) fun test ht =>
      .bind (body_modest thenBody v h.2.1) fun thenCode hthen =>
      .bind (body_modest elseBody v h.2.2) fun elseCode helse => .pure ?_
    have hjump : Modest (KeepsPlace b P) [bare (.b stop), .label other] :=
      .append (c := [bare (.b stop)]) (.instr trivial) (.label other)
    exact (((((remark_modest "IF").append ht).append hthen).append hjump).append helse).append
      (.label stop)
  | .whileLoop _ cond body, v, h => by
    rw [Stmt.exprs, List.forall_mem_cons] at h
    refine .bind (emits_any _) fun start _ => .bind (emits_any _) fun stop _ =>
      .bind (branchUnless_modest cond h.1 stop) fun test ht =>
      .bind (body_modest body v h.2) fun code hcode => .pure ?_
    have hjump : Modest (KeepsPlace b P) [bare (.b start), .label stop] :=
      .append (c := [bare (.b start)]) (.instr trivial) (.label stop)
    exact (((((remark_modest "WHILE").append (.label start)).append ht).append hcode)).append hjump
  | .call _ node callee args, v, h => by
    rw [Stmt.exprs, List.forall_mem_singleton] at h
    refine .bind (expr_modest (.call node callee args) h) fun x hx => .pure ?_
    exact ((remark_modest "CALL").append hx).append discard_modest
  | .ret _ value, v, h => by
    have hvalue : ∀ e ∈ value, ∀ q ∈ e.moved, P q := by
      intro e he
      obtain rfl : value = some e := he
      rw [Stmt.exprs, List.forall_mem_singleton] at h
      exact h
    refine .bind (returnValue_modest value hvalue) fun x hx => .pure ?_
    have hjump : Modest (KeepsPlace b P) [bare (.b exit)] := .instr trivial
    exact ((remark_modest "RETURN").append hx).append hjump

theorem body_modest : ∀ (t : Body) (v : Surroundings), (∀ r ∈ t.exprs v, ∀ q ∈ r.2.moved, P q) →
    Emits (body o b exit t) (Modest (KeepsPlace b P))
  | .block ds ss, v, h => stmts_modest ss (v.enter ds) h

theorem stmts_modest : ∀ (ss : List Stmt) (v : Surroundings),
    (∀ r ∈ Stmt.manyExprs v ss, ∀ q ∈ r.2.moved, P q) →
    Emits (stmts o b exit ss) (Modest (KeepsPlace b P))
  | [], _, _ => .pure .nil
  | s :: ss, v, h => by
    rw [Stmt.manyExprs, List.forall_mem_append] at h
    exact .bind (stmt_modest s v h.1) fun _ hx => .bind (stmts_modest ss v h.2) fun _ hxs =>
      .pure (hx.append hxs)

end

end Code

/-! ## What an instruction changes -/

/-- The register that an instruction sets. -/
def Instr.sets? : Instr → Option Reg
  | .lw r _ | .li r _ | .la r _ | .move r _ | .addi r _ _ | .addu r _ _ | .subu r _ _ | .neg r _
  | .alu _ r _ _ => some r
  | .sw .. | .beq .. | .b _ | .jal _ | .jr _ | .syscall => none

/-- Only pushes, pops and calls move the stack pointer. -/
theorem Instr.rise?_cases {p : Program} {d d' : Nat} {i : Instr} (h : i.rise? p d = some d') :
    (i = .subu .sp .sp wordSize ∧ d' = d + 1) ∨ (i = .addu .sp .sp wordSize ∧ d' + 1 = d) ∨
      (∃ l n, i = .jal l ∧ p.formals? l = some n ∧ d' + n = d) ∨
      (d' = d ∧ i.sets? ≠ some .sp ∧ ∀ l, i ≠ .jal l) := by
  unfold Instr.rise? at h
  split at h
  next n =>
    split at h
    next hn => exact .inl ⟨hn ▸ rfl, (Option.some.inj h).symm⟩
    next => cases h
  next n =>
    split at h
    next hn =>
      obtain ⟨rfl, hd⟩ := hn
      have := Option.some.inj h
      exact .inr (.inl ⟨rfl, by omega⟩)
    next => cases h
  next r n =>
    split at h
    next hr => exact .inr (.inr (.inr ⟨(Option.some.inj h).symm, by simp [sets?, hr.1], by simp⟩))
    next => cases h
  next r n =>
    split at h
    next => exact .inr (.inr (.inr ⟨(Option.some.inj h).symm, by simp [sets?], by simp⟩))
    next => cases h
  next l =>
    obtain ⟨n, hn, hd⟩ := Option.bind_eq_some_iff.1 h
    split at hd
    next hle =>
      have := Option.some.inj hd
      exact .inr (.inr (.inl ⟨l, n, rfl, hn, by omega⟩))
    next => cases hd
  next =>
    split at h
    next => cases h
    next huse =>
      refine .inr (.inr (.inr ⟨(Option.some.inj h).symm, ?_, ?_⟩))
      · cases i <;> simp_all [usesStack, sets?]
      · rintro l rfl
        exact huse rfl

/-- A jump inside a function leaves the stack alone. -/
theorem Instr.rise?_jump {p : Program} {d d' : Nat} {i : Instr} {l : String}
    (hi : i.ref? = some (.jump l)) (h : i.rise? p d = some d') : d' = d := by
  rcases Instr.rise?_cases h with ⟨rfl, -⟩ | ⟨rfl, -⟩ | ⟨l', n, rfl, -⟩ | ⟨hd, -⟩
  · cases hi
  · cases hi
  · cases hi
  · exact hd

namespace Machine

/-- A step inside a function: the frame pointer stays, the stack pointer goes with the depth, and a
word changes only on top of the stack or at a location that satisfies `K`. -/
structure Inward (m : Machine) (K : Location → Prop) (d d' : Nat) (s s' : State) : Prop where
  fp : s'.regs .fp = s.regs .fp
  sp : s'.regs .sp + wordSize * d' = s.regs .sp + wordSize * d
  mem : ∀ a, s'.mem a = s.mem a ∨ a = s.regs .sp ∨ ∃ l, K l ∧ m.place? (s.regs .fp) l = some a

variable {m : Machine} {words : Int → Bool} {K : Location → Prop} {p : Program} {d d' : Nat}
  {s s' : State} {i : Instr} {r : Reg}

theorem Inward.of_regs {pc : Nat} (hfp : s'.regs .fp = s.regs .fp) (hsp : s'.regs .sp = s.regs .sp)
    (hmem : s'.mem = s.mem) : Inward m K d d s (s'.jump pc) :=
  ⟨hfp, by simp [hsp], fun _ => .inl (by simp [hmem])⟩

/-- An instruction that sets a register does nothing else. -/
theorem execIn_sets (hi : i.sets? = some r) (h : m.execIn words s i = some s') :
    ∃ x, s' = (s.setReg r x).next := by
  cases i with
  | sw | beq | b | jal | jr | syscall => cases hi
  | lw | la | addi | neg | alu =>
    obtain rfl := Option.some.inj hi
    obtain ⟨x, -, hx⟩ := Option.map_eq_some_iff.1 h
    exact ⟨_, hx.symm⟩
  | li | move | addu | subu =>
    obtain rfl := Option.some.inj hi
    exact ⟨_, (Option.some.inj h).symm⟩

/-- A system call has nothing to do with the frame. -/
theorem syscall_inward (h : m.syscall s = some s') : Inward m K d d s s' ∧ s'.pc = s.pc + 1 := by
  unfold syscall at h
  split at h
  · obtain rfl := Option.some.inj h
    exact ⟨.of_regs rfl rfl rfl, rfl⟩
  · split at h
    · obtain ⟨text, -, rfl⟩ := Option.map_eq_some_iff.1 h
      exact ⟨.of_regs rfl rfl rfl, rfl⟩
    · split at h
      · split at h
        · cases h
        · obtain rfl := Option.some.inj h
          exact ⟨.of_regs (by simp) (by simp) rfl, rfl⟩
      · cases h

end Machine

/-- **What an instruction of a function does**, unless it is a call. -/
theorem Instr.Modest.inward {m : Machine} {words : Int → Bool} {K : Location → Prop} {p : Program}
    {d d' : Nat} {s s' : State} {i : Instr} (hi : i.Modest K) (hr : i.rise? p d = some d')
    (hcall : ∀ l, i ≠ .jal l) (h : m.execIn words s i = some s') :
    m.Inward K d d' s s' ∧
      (s'.pc = s.pc + 1 ∨ ∃ l, i.ref? = some (.jump l) ∧ m.position? l = some s'.pc) := by
  rcases Instr.rise?_cases hr with ⟨rfl, rfl⟩ | ⟨rfl, rfl⟩ | ⟨l, n, rfl, -⟩ | ⟨rfl, hsp, -⟩
  · obtain rfl := Option.some.inj h
    refine ⟨⟨by simp, ?_, fun _ => .inl rfl⟩, .inl rfl⟩
    simp only [State.regs_next, State.regs_setReg, if_true, wordSize]
    omega
  · obtain rfl := Option.some.inj h
    refine ⟨⟨by simp, ?_, fun _ => .inl rfl⟩, .inl rfl⟩
    simp only [State.regs_next, State.regs_setReg, if_true, wordSize]
    omega
  · exact absurd rfl (hcall l)
  · cases hset : i.sets? with
    | some r =>
      obtain ⟨x, rfl⟩ := Machine.execIn_sets hset h
      have hfp : r ≠ .fp := by
        cases i <;> first | cases hset; exact hi | cases hset
      have hne : r ≠ .sp := fun heq => hsp (heq ▸ hset)
      exact ⟨.of_regs (by simp [hfp.symm]) (by simp [hne.symm]) rfl, .inl rfl⟩
    | none =>
      cases i with
      | lw | li | la | move | addi | addu | subu | neg | alu => cases hset
      | jal l => exact absurd rfl (hcall l)
      | jr => exact absurd hi id
      | syscall => exact (Machine.syscall_inward h).imp_right .inl
      | beq r x l =>
        simp only [execIn, exec] at h
        split at h
        · obtain ⟨k, hk, rfl⟩ := Option.map_eq_some_iff.1 h
          exact ⟨.of_regs rfl rfl rfl, .inr ⟨l, rfl, hk⟩⟩
        · obtain rfl := Option.some.inj h
          exact ⟨.of_regs rfl rfl rfl, .inl rfl⟩
      | b l =>
        obtain ⟨k, hk, rfl⟩ := Option.map_eq_some_iff.1 h
        exact ⟨.of_regs rfl rfl rfl, .inr ⟨l, rfl, hk⟩⟩
      | sw r a =>
        obtain ⟨c, hc, rfl⟩ := Option.map_eq_some_iff.1 h
        obtain ⟨htarget, -⟩ := Option.filter_eq_some_iff.1 hc
        refine ⟨⟨rfl, rfl, fun x => ?_⟩, .inl rfl⟩
        by_cases hx : x = c
        · subst hx
          rcases hi with rfl | ⟨l, hl, rfl⟩
          · obtain rfl := Option.some.inj htarget
            exact .inr (.inl (by simp))
          · exact .inr (.inr ⟨l, hl, by rw [← Machine.target?_address, htarget]⟩)
        · exact .inl (by simp [hx])

end FlatC
