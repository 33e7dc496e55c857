import FlatC.Proofs.Code.Total
import FlatC.Proofs.Conditions.Value
import FlatC.Proofs.Wordwise.Expression

/-!
# Which way a branch goes

`m.Takes o b exit span t n s e` tries the branch `if (e) t` in the state `s`: its code is put behind
the program, and the machine gets from there to the code of `t`. If nothing is called or assigned to
in the condition, it does exactly if the condition has a value other than zero (`takes_iff`).
-/

namespace FlatC

open Machine

variable {m : Machine} {o : Options} {p : Program} {b : Annotations} {exit : String} {span : Span}
  {t : Body} {k n : Nat} {e : Expr} {s : State}

/-! ## The code of a branch -/

/-- There is code for every expression whose places are known. -/
theorem Code.expr_runs : ∀ (e : Expr), e.callees = [] →
    (∀ q ∈ e.moved, ∃ l, ∀ k, (Code.location b q).run k = .ok (l, k)) →
    ∀ n, Code.Ends (Code.expr o b e) n
  | .int .., _, _, _ | .bool .., _, _, _ => .pure trivial
  | .str .., _, _, n => (Code.label_ends _ n).bind fun _ _ _ => .pure trivial
  | .place q, _, hq, n => by
    obtain ⟨l, hl⟩ := hq q (.head _)
    exact Yields.bind (P := fun _ _ => True) ⟨l, n, hl n, trivial⟩ fun _ _ _ => .pure trivial
  | .assign _ q e, hc, hq, n => by
    rw [Expr.moved, List.forall_mem_cons] at hq
    obtain ⟨l, hl⟩ := hq.1
    refine (Code.expr_runs e hc hq.2 n).bind fun _ k _ => ?_
    exact Yields.bind (P := fun _ _ => True) ⟨l, k, hl k, trivial⟩ fun _ _ _ => .pure trivial
  | .call .., hc, _, _ => nomatch hc
  | .unary _ _ e, hc, hq, n => (Code.expr_runs e hc hq n).bind fun _ _ _ => .pure trivial
  | .binary _ op l r, hc, hq, n => by
    rw [Expr.callees, List.append_eq_nil_iff] at hc
    rw [Expr.moved, List.forall_mem_append] at hq
    have hl := Code.expr_runs l hc.1 hq.1
    have hr := Code.expr_runs r hc.2 hq.2
    cases op with
    | arith | equality | order =>
      exact (hl n).bind fun _ k _ => (hr k).bind fun _ _ _ => .pure trivial
    | logical =>
      exact (Code.label_ends _ n).bind fun _ k _ => (hl k).bind fun _ k' _ =>
        (hr k').bind fun _ _ _ => .pure trivial

theorem Code.branchUnless_runs (hc : e.callees = [])
    (hq : ∀ q ∈ e.moved, ∃ l, ∀ k, (Code.location b q).run k = .ok (l, k)) (target : String)
    (n : Nat) : ∃ c k, (Code.branchUnless o b e target).run n = .ok (c, k) := by
  obtain ⟨x, k, hx, -⟩ := Code.expr_runs (o := o) e hc hq n
  exact ⟨_, k, run_bind_ok.2 ⟨x, k, hx, rfl⟩⟩

/-- A branch is its test, the code of the block and the label behind it. -/
theorem Code.ifThen_run (span : Span) {test code : Code} {k' k'' : Nat}
    (htest : (Code.branchUnless o b e (Label.numbered "if_end" n)).run (n + 1) = .ok (test, k'))
    (hcode : (Code.body o b exit t).run k' = .ok (code, k'')) :
    (Code.stmt o b exit (.ifThen span e t)).run n =
      .ok (Code.remark o "IF" ++ test ++ code ++ [.label (Label.numbered "if_end" n)], k'') := by
  simp only [Code.stmt, run_bind_ok, run_pure_ok]
  exact ⟨_, _, rfl, test, k', htest, code, k'', hcode, rfl, rfl⟩

/-- There is code for the block, whatever the numbers of its labels. -/
def Body.HasCode (o : Options) (b : Annotations) (exit : String) (t : Body) : Prop :=
  ∀ n, Yields (Code.body o b exit t) n fun c _ => c ≠ []

/-- The branch `if (e) t` is put behind the program, with its labels numbered from `n` on, and the
machine is set in front of it. It gets to the code of `t`. -/
def Machine.Takes (m : Machine) (o : Options) (b : Annotations) (exit : String) (span : Span)
    (t : Body) (n : Nat) (s : State) (e : Expr) : Prop :=
  ∃ c k test k', (Code.stmt o b exit (.ifThen span e t)).run n = .ok (c, k) ∧
    (Code.branchUnless o b e (Label.numbered "if_end" n)).run (n + 1) = .ok (test, k') ∧
    (m.behind c).Reaches (m.code.length + (Code.remark o "IF" ++ test).length)
      (s.jump m.code.length)

/-- The code of a branch is cut behind its test. -/
theorem Machine.takes_iff_reaches {test code : Code} {k' k'' : Nat}
    (htest : (Code.branchUnless o b e (Label.numbered "if_end" n)).run (n + 1) = .ok (test, k'))
    (hcode : (Code.body o b exit t).run k' = .ok (code, k'')) :
    m.Takes o b exit span t n s e ↔
      ((m.behind (Code.remark o "IF" ++ test)).behind
          (code ++ [.label (Label.numbered "if_end" n)])).Reaches
        (m.behind (Code.remark o "IF" ++ test)).code.length (s.jump m.code.length) := by
  have hrun := Code.ifThen_run span htest hcode
  rw [behind_behind, ← List.append_assoc, code_behind, List.length_append]
  constructor
  · rintro ⟨c, k₁, test', k₂, hrun', htest', hreaches⟩
    obtain ⟨rfl, -⟩ := Prod.mk.inj (Except.ok.inj (hrun.symm.trans hrun'))
    obtain ⟨rfl, -⟩ := Prod.mk.inj (Except.ok.inj (htest.symm.trans htest'))
    exact hreaches
  · exact fun hreaches => ⟨_, _, test, k', hrun, htest, hreaches⟩

/-! ## The test -/

/-- In the state `s`, all that the code of the expression reads is there, above the stack. -/
structure Expr.Fits (m : Machine) (b : Annotations) (s : State) (e : Expr) : Prop where
  settled : e.isSettled = true
  places : ∀ q ∈ e.moved, q.Above m m.hasWord b (s.regs .fp) (s.regs .sp)

/-- Nothing is called in an expression that is settled. -/
theorem Expr.callees_of_isSettled : ∀ (e : Expr), e.isSettled = true → e.callees = []
  | .int .., _ | .bool .., _ | .place _, _ => rfl
  | .str .., h | .assign .., h | .call .., h => nomatch h
  | .unary _ _ e, h => callees_of_isSettled e h
  | .binary _ op l r, h => by
    rcases isSettled_cases h with ⟨op, i, s, j, t, rfl, rfl, rfl⟩ | ⟨hl, hr⟩
    · rfl
    · rw [Expr.callees, callees_of_isSettled l hl, callees_of_isSettled r hr]
      rfl

/-- Places stay above the stack when there is more code behind the program. -/
theorem Place.Above.behind {q : Place} {fp low : Int} (h : q.Above m m.hasWord b fp low)
    (c : Code) : q.Above (m.behind c) (m.behind c).hasWord b fp low := by
  obtain ⟨l, a, hloc, ha, hlow, hword⟩ := h
  exact ⟨l, a, hloc, place?_behind ha, hlow, hasWord_behind hword⟩

/-- The test leaves the word of the condition in `$t0`, in front of the instruction that branches. -/
theorem Expr.tests {words : Int → Bool} {low : Int} {mem : Int → Int} {fp : Int} {pos n' : Nat}
    {target : String} {c : Code} (hl : m.code.labels.Nodup) (hcalls : e.callees = [])
    (hq : ∀ q ∈ e.moved, q.Above m words b fp low)
    (hrun : (Code.branchUnless o b e target).run n = .ok (c, n')) (hseg : m.Seg pos c)
    (h : Poised words fp low mem pos s) :
    m.Evaluates words (e.word m b fp n) mem s fun v _ s' =>
      s'.regs .t0 = v ∧ s'.pc + 1 = pos + c.length ∧
        m.code[s'.pc]? = some (Code.bare (.beq .t0 0 target)) := by
  simp only [Code.branchUnless, run_bind_ok, run_pure_ok] at hrun
  obtain ⟨x, k, hx, rfl, -⟩ := hrun
  simp only [List.append_assoc] at hseg
  obtain ⟨hvalue, hseg⟩ := hseg.append
  obtain ⟨hpop, hbranch⟩ := hseg.append
  refine (Expr.computes hl e hcalls hq hx hvalue h).conclude fun v mem' s₁ _ hp => ?_
  obtain ⟨s₂, hs₂, h₂, hr₂, -⟩ := hp.pop h.word hpop (.inl rfl)
  refine ⟨s₂, hs₂, hr₂.trans hp.word, ?_, ?_⟩
  · rw [h₂.pc]
    simp [Code.pop, Nat.add_assoc]
  · rw [h₂.pc]
    exact hbranch.head

/-- The machine with the test behind it: it stops in front of the branch, with the value of the
condition in `$t0`, or at an operation that has no result. -/
theorem Expr.Fits.tested (h : e.Fits m b s) {test : Code} {k' : Nat} {target : String}
    (hstack : ∀ k : Nat, m.hasWord (s.regs .sp - wordSize * k) = true)
    (hrun : (Code.branchUnless o b e target).run n = .ok (test, k'))
    (hl : (m.behind (Code.remark o "IF" ++ test)).code.labels.Nodup) :
    ∃ s', (m.behind (Code.remark o "IF" ++ test)).Steps (s.jump m.code.length) s' ∧
      match e.value? m b (s.regs .fp) s.mem with
      | some v => s'.regs .t0 = v ∧ s'.pc + 1 = (m.behind (Code.remark o "IF" ++ test)).code.length ∧
          (m.behind (Code.remark o "IF" ++ test)).code[s'.pc]? =
            some (Code.bare (.beq .t0 0 target))
      | none => (m.behind (Code.remark o "IF" ++ test)).Faults
          (m.behind (Code.remark o "IF" ++ test)).hasWord s' := by
  generalize hm' : m.behind (Code.remark o "IF" ++ test) = m' at hl ⊢
  have hseg : m'.Seg m.code.length (Code.remark o "IF" ++ test) := hm' ▸ seg_behind
  obtain ⟨hremark, htest⟩ := hseg.append
  have hlen : m.code.length + (Code.remark o "IF").length + test.length = m'.code.length := by
    rw [← hm']
    simp [Nat.add_assoc]
  have hsteps := hremark.remark (s := s.jump m.code.length) rfl
  have hq : ∀ q ∈ e.moved, q.Above m' m'.hasWord b (s.regs .fp) (s.regs .sp) := fun q hq =>
    hm' ▸ (h.places q hq).behind _
  have hpoised : Poised m'.hasWord (s.regs .fp) (s.regs .sp) s.mem
      (m.code.length + (Code.remark o "IF").length)
      (s.jump (m.code.length + (Code.remark o "IF").length)) :=
    ⟨rfl, rfl, Int.le_refl _, fun k => hm' ▸ hasWord_behind (hstack k), fun _ _ => rfl⟩
  have hword : (e.word m' b (s.regs .fp) n).Reads s.mem (e.value? m b (s.regs .fp) s.mem) := by
    simp only [Code.branchUnless, run_bind_ok, run_pure_ok] at hrun
    obtain ⟨x, k, hx, rfl, -⟩ := hrun
    refine e.word_reads hl h.settled (fun q hq => ?_) hx fun y hy => ?_
    · obtain ⟨l, a, hloc, ha, -⟩ := h.places q hq
      rw [Place.address?_eq hloc, Place.address?_eq hloc, ha, ← hm', place?_behind ha]
    · rw [← hm']
      simp [hy]
  have htested := Expr.tests hl (e.callees_of_isSettled h.settled) hq hrun htest hpoised
  unfold Evaluates at htested
  rw [hword] at htested
  cases hvalue : e.value? m b (s.regs .fp) s.mem with
  | none =>
    rw [hvalue] at htested
    obtain ⟨s', hs', hfault⟩ := htested
    exact ⟨s', hsteps.trans (stepsIn_hasWord m' ▸ hs'), hfault⟩
  | some v =>
    rw [hvalue] at htested
    obtain ⟨s', hs', hv, hpc, hbranch⟩ := htested
    rw [hlen] at hpc
    exact ⟨s', hsteps.trans (stepsIn_hasWord m' ▸ hs'), hv, hpc, hbranch⟩

/-- Where arithmetic has no result, a machine stops, whatever stands behind its code. -/
theorem Machine.Faults.behind (h : m.Faults m.hasWord s) (c : Code) :
    s.pc < m.code.length ∧ (m.behind c).step s = none := by
  obtain ⟨hstops, i, note, hcode, harith⟩ := h
  have hlt := (List.getElem?_eq_some_iff.1 hcode).1
  rw [stepIn_hasWord, step, hcode, Option.bind_some] at hstops
  refine ⟨hlt, ?_⟩
  rw [step, code_behind, List.getElem?_append_left hlt, hcode, Option.bind_some]
  exact (exec_arithmetic_behind harith).trans hstops

/-- Behind a label at the end of the code, there is nowhere to go. -/
theorem Machine.Seg.not_reaches {pos j : Nat} {l : String} (hend : m.Seg j [.label l])
    (hlast : j + 1 = m.code.length) (hpos : pos < j) : ¬ m.Reaches pos (s.jump j) := by
  have hstep : m.step (s.jump j) = some (s.jump j).next := hend.step rfl rfl
  have hstop : m.step (s.jump j).next = none := by
    have hend : m.code[j + 1]? = none := List.getElem?_eq_none (Nat.le_of_eq hlast.symm)
    simp [Machine.step, hend]
  rw [reaches_step hstep (Nat.ne_of_gt hpos)]
  refine Machine.not_reaches hstop ?_
  rw [State.pc_next, State.pc_jump]
  omega

/-- Behind the test, the branch goes where the value in `$t0` says: to the code of the block, or behind
it, to the end. -/
theorem Machine.branch_iff {code : Code} {l : String} {v : Int}
    (hl : (m.behind (code ++ [.label l])).code.labels.Nodup) (hne : code ≠ [])
    (hbranch : m.code[s.pc]? = some (Code.bare (.beq .t0 0 l))) (hv : s.regs .t0 = v)
    (hpc : s.pc + 1 = m.code.length) :
    (m.behind (code ++ [.label l])).Reaches m.code.length s ↔ v ≠ 0 := by
  have hlt : s.pc < m.code.length := by omega
  have hpos := List.length_pos_of_ne_nil hne
  have hitem : (m.behind (code ++ [.label l])).code[s.pc]? =
      some (Code.bare (.beq .t0 0 l)) := by
    rwa [code_behind, List.getElem?_append_left hlt]
  have hend : (m.behind (code ++ [.label l])).Seg (m.code.length + code.length) [.label l] :=
    seg_behind.append.2
  have hlast : m.code.length + code.length + 1 = (m.behind (code ++ [.label l])).code.length := by
    simp [Nat.add_assoc]
  by_cases hzero : v = 0
  · have hstep : (m.behind (code ++ [.label l])).step s =
        some (s.jump (m.code.length + code.length)) := by
      rw [step, hitem, Option.bind_some]
      simp [Code.bare, item, exec, hv, hzero, position?_eq hl hend.head]
    rw [reaches_step hstep (by omega)]
    exact iff_of_false (hend.not_reaches hlast (by omega)) (absurd hzero)
  · have hstep : (m.behind (code ++ [.label l])).step s = some s.next := by
      rw [step, hitem, Option.bind_some]
      simp [Code.bare, item, exec, hv, hzero]
    rw [reaches_step hstep (by omega)]
    exact iff_of_true ⟨s.next, .refl, hpc⟩ hzero

/-- **A branch is taken if its condition has a value that is not zero**, in every state in which what
it reads is there. -/
theorem Expr.Fits.takes_iff (h : e.Fits m b s) (hgen : generate o p b 0 = .ok (m.code, k))
    (hl : m.code.labels.Nodup) (hn : k ≤ n)
    (hstack : ∀ k : Nat, m.hasWord (s.regs .sp - wordSize * k) = true)
    (hbody : t.HasCode o b exit) :
    m.Takes o b exit span t n s e ↔ e.Nonzero m b (s.regs .fp) s.mem := by
  unfold Nonzero
  have hlocated : ∀ q ∈ e.moved, ∃ l, ∀ k, (Code.location b q).run k = .ok (l, k) := fun q hq =>
    (h.places q hq).imp fun l ⟨_, hloc, _⟩ => hloc
  obtain ⟨test, k', htest⟩ := Code.branchUnless_runs (o := o) (e.callees_of_isSettled h.settled)
    hlocated (Label.numbered "if_end" n) (n + 1)
  obtain ⟨code, k'', hcode, hne⟩ := hbody k'
  have hlabels := labels_nodup_behind hgen hl hn
    (Code.stmt_numbered _ (Code.ifThen_run span htest hcode))
  rw [List.append_assoc _ code, ← behind_behind] at hlabels
  have hprefix := hlabels
  rw [code_behind, Code.labels_append] at hprefix
  obtain ⟨s', hs', hvalue⟩ := h.tested hstack htest hprefix.of_append_left
  rw [takes_iff_reaches htest hcode, reaches_behind hs']
  cases hv : e.value? m b (s.regs .fp) s.mem with
  | none =>
    rw [hv] at hvalue
    obtain ⟨hlt, hstop⟩ := Faults.behind hvalue _
    exact iff_of_false (Machine.not_reaches hstop (Nat.ne_of_lt hlt)) nofun
  | some v =>
    rw [hv] at hvalue
    obtain ⟨hreg, hpc, hbranch⟩ := hvalue
    rw [branch_iff hlabels hne hbranch hreg hpc]
    simp

end FlatC
