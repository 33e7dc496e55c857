import FlatC.Proofs.Calling.Activation
import FlatC.Proofs.Wordwise.Expression

/-!
# States that are reached

Whatever a program does from its start on, whenever the machine stands in the body of a function, it
does so in a frame of that function (`Initial.inside`): the frame pointer and the end of the stack are
those of an activation. So the variables that the function can reach lie above the stack, and they
can be read (`Inside.above`).
-/

namespace FlatC

open Machine Layout

variable {m : Machine} {o : Options} {p : Program} {b : Annotations} {words : Int → Bool}
  {input : List Int} {s₀ s : State}

namespace Activation

variable {A : Activation m o p b} {k : Nat}

/-- The frame and the operands on the stack below it take whole words. -/
theorem Inside.sp_eq (h : A.Inside k s) (hc : Compiled m o p b) :
    ∃ j : Nat, s.regs .sp = A.base - wordSize * j := by
  obtain ⟨hformal, c, hlocal⟩ := A.routine.spaces hc
  refine ⟨A.routine.fn.params.length + 2 + c + A.routine.depth k, ?_⟩
  rw [h.sp, low, hformal, hlocal]
  simp only [savedSpace, wordSize]
  omega

theorem Inside.stack (h : A.Inside k s) (hc : Compiled m o p b) (hA : A.Stands words) (i : Nat) :
    words (s.regs .sp - wordSize * i) = true := by
  obtain ⟨j, hj⟩ := h.sp_eq hc
  have heq : s.regs .sp - wordSize * i = A.base - wordSize * (j + i : Nat) := by
    rw [hj]
    simp only [wordSize]
    omega
  rw [heq]
  exact hA.usable _

/-- In the body of a function, places that it can reach lie above the stack and can be read. -/
theorem Inside.above (h : A.Inside k s) (hc : Compiled m o p b) (hA : A.Stands m.hasWord)
    {q : Place} (hq : q.Kept p b A.routine.fn) :
    q.Above m m.hasWord b (s.regs .fp) (s.regs .sp) := by
  obtain ⟨l, a, hloc, ha, hheld⟩ :=
    hq.held hc A.routine.mem A.routine.stands.noted (s.regs .fp)
  have hsp : s.regs .sp ≤ A.low := by
    rw [h.sp]
    simp only [wordSize]
    omega
  rw [h.fp] at hheld
  rcases hheld with ⟨⟨j, rfl⟩, hholds⟩ | ⟨hdvd, x, hx, hroom⟩
  · refine ⟨l, _, hloc, ha, ?_, hA.usable j⟩
    simp only [FnInfo.Holds] at hholds
    simp only [low] at hsp
    omega
  · refine ⟨l, a, hloc, ha, ?_, ?_⟩
    · have := hA.data x hx
      have := Entry.le_of_hasRoom hroom
      have := A.low_lt
      omega
    · rw [hasWord, Bool.and_eq_true, decide_eq_true_eq, Bool.or_eq_true]
      exact ⟨Int.emod_eq_zero_of_dvd hdvd, .inr (List.any_eq_true.2 ⟨x, hx, hroom⟩)⟩

end Activation

/-- A program starts with a call of `main`. -/
theorem Machine.Initial.called (h : m.Initial input s) (hc : Compiled m o p b)
    {r : Routine m o p b} (hmain : r.fn.name.name = "main") (hparams : r.fn.params = []) :
    ∃ A : Activation m o p b, A.Called s ∧ A.Stands m.hasWord ∧ A.routine.fn.isMain = true := by
  have his : r.fn.isMain = true := by simp [FnDecl.isMain, hmain]
  have hat := position?_eq hc.labels r.stands.label.head
  rw [hmain] at hat
  have hformal := (r.spaces hc).1
  rw [hparams] at hformal
  refine ⟨⟨r, m.stackStart, s.regs .ra, s.regs .fp⟩, ⟨?_, ?_, rfl, rfl⟩, ⟨fun k => ?_, ?_, ?_⟩, his⟩
  · exact Option.some.inj (h.pc.symm.trans hat)
  · simp [h.sp, Activation.retWord, hformal]
  · have hdvd : (wordSize : Int) ∣ m.stackStart - wordSize * k :=
      Int.dvd_sub m.stackStart_dvd (Int.dvd_mul_right _ _)
    have hle : m.stackStart - wordSize * k ≤ m.stackStart := by
      simp only [wordSize]
      omega
    rw [hasWord, Bool.and_eq_true, decide_eq_true_eq, Bool.or_eq_true, decide_eq_true_eq]
    exact ⟨Int.emod_eq_zero_of_dvd hdvd, .inl hle⟩
  · intro x hx
    have hapart := m.apart
    have hle := dataStart_le hx
    simp only [wordSize] at hapart
    show m.stackStart < x.address
    omega
  · intro hnot
    cases his.symm.trans hnot

/-- **Whenever the machine is in the body of a function, it is in a frame of that function**, however
it got there from the start of the program. -/
theorem Machine.Initial.inside (h : m.Initial input s₀) (hc : Compiled m o p b)
    (hall : ∀ f, Decl.fn f ∈ p.decls → ∃ r : Routine m o p b, r.fn = f)
    (hmain : ∃ f, Decl.fn f ∈ p.decls ∧ f.name.name = "main" ∧ f.params = [])
    (hs : m.Steps s₀ s) {r : Routine m o p b} (hpc : r.start ≤ s.pc ∧ s.pc ≤ r.stop) :
    ∃ (A : Activation m o p b) (k : Nat), A.routine.fn = r.fn ∧ A.Stands m.hasWord ∧
      A.Inside k s := by
  obtain ⟨g, hg, hname, hparams⟩ := hmain
  obtain ⟨r₀, rfl⟩ := hall g hg
  obtain ⟨A₀, hcalled, hA₀, his⟩ := h.called hc hname hparams
  rw [← stepsIn_hasWord] at hs
  rcases (hcalled.running hc hA₀).steps hc hall hA₀ hs with ⟨A, rest, hrun⟩ | ⟨t, -, hret, -⟩
  · obtain ⟨hentry, k, hinside⟩ := hrun.phase.inside_of_pc hc hpc
    exact ⟨A, k, (Routine.eq_of_entry hc hentry).1, (hrun.rests.stands hc hA₀).1, hinside⟩
  · cases his.symm.trans hret.called

end FlatC
