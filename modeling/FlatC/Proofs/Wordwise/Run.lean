import FlatC.Proofs.Simulation.Pieces
import FlatC.Proofs.Wordwise.Evaluation

/-!
# Running code from any state

Here the machine may stand anywhere, with whatever is in its registers and its memory. Which words
it can read and write is left open as well: `stepIn words` is a step of a machine that can use the
words at the addresses `words`, and the machine itself is the one that can use those of
`Machine.hasWord` (`stepIn_hasWord`).

`m.Evaluates words x mem s Q` says that the machine gets from `s` to a state that fits the result of
the evaluation `x`; if `x` has no result, it gets to an instruction of arithmetic that has none, and
stops there.
-/

namespace FlatC

/-- The instruction computes a word that there may not be. -/
def Instr.isArithmetic : Instr → Bool
  | .alu .. | .neg .. => true
  | _ => false

namespace Machine

section

variable (m : Machine) (words : Int → Bool)

/-! ## The words that can be used -/

def execIn (s : State) : Instr → Option State
  | .lw dst src => ((m.target? s src).filter words).map fun a => (s.setReg dst (s.mem a)).next
  | .sw src dst => ((m.target? s dst).filter words).map fun a => (s.setMem a (s.regs src)).next
  | i => m.exec s i

def itemIn (s : State) : Item → Option State
  | .instr i _ => m.execIn words s i
  | _ => some s.next

def stepIn (s : State) : Option State := m.code[s.pc]?.bind (m.itemIn words s)

/-- Any number of steps. -/
def StepsIn : State → State → Prop := Relation.ReflTransGen fun s s' => m.stepIn words s = some s'

/-- The machine itself can use the words in the stack and in the data section. -/
theorem stepIn_hasWord (s : State) : m.stepIn m.hasWord s = m.step s := by
  have hexec : ∀ i, m.execIn m.hasWord s i = m.exec s i := by
    intro i
    cases i <;> rfl
  have hitem : m.itemIn m.hasWord s = m.item s := by
    funext i
    cases i with
    | instr i note => exact hexec i
    | _ => rfl
  rw [stepIn, step, hitem]

theorem stepsIn_hasWord : m.StepsIn m.hasWord = m.Steps := by
  simp only [StepsIn, Steps, stepIn_hasWord]

/-- The machine stops at an instruction of arithmetic. -/
structure Faults (s : State) : Prop where
  stops : m.stepIn words s = none
  arithmetic : ∃ i note, m.code[s.pc]? = some (.instr i note) ∧ i.isArithmetic = true

/-- The machine gets to a state that fits the result of an evaluation, or to a fault. -/
def Evaluates {α : Type} (x : WordStep α) (mem : Int → Int) (s : State)
    (Q : α → (Int → Int) → State → Prop) : Prop :=
  match x.run mem with
  | some (v, mem') => ∃ s', m.StepsIn words s s' ∧ Q v mem' s'
  | none => ∃ s', m.StepsIn words s s' ∧ m.Faults words s'

end

variable {m : Machine} {words : Int → Bool} {s s' s'' : State}

namespace StepsIn

theorem refl : m.StepsIn words s s := Relation.ReflTransGen.refl

theorem trans (h : m.StepsIn words s s') (h' : m.StepsIn words s' s'') : m.StepsIn words s s'' :=
  Relation.ReflTransGen.trans h h'

end StepsIn

section

variable {pos : Nat} {c : Code} {i : Item}

theorem Seg.stepIn (h : m.Seg pos (i :: c)) (hpc : s.pc = pos) :
    m.stepIn words s = m.itemIn words s i := by
  rw [Machine.stepIn, hpc, h.head, Option.bind_some]

theorem Seg.one (h : m.Seg pos (i :: c)) (hpc : s.pc = pos) (hi : m.itemIn words s i = some s') :
    m.StepsIn words s s' :=
  Relation.ReflTransGen.single ((h.stepIn hpc).trans hi)

end

namespace Evaluates

variable {α β : Type} {x : WordStep α} {f : α → WordStep β} {mem : Int → Int}
  {P : α → (Int → Int) → State → Prop} {Q : β → (Int → Int) → State → Prop}

theorem steps (h : m.StepsIn words s s') (hx : m.Evaluates words x mem s' P) :
    m.Evaluates words x mem s P := by
  unfold Evaluates at hx ⊢
  split at hx
  next =>
    obtain ⟨s'', hs, hP⟩ := hx
    exact ⟨s'', h.trans hs, hP⟩
  next =>
    obtain ⟨s'', hs, hfault⟩ := hx
    exact ⟨s'', h.trans hs, hfault⟩

theorem bind (hx : m.Evaluates words x mem s P)
    (hf : ∀ v mem' s', P v mem' s' → m.Evaluates words (f v) mem' s' Q) :
    m.Evaluates words (x >>= f) mem s Q := by
  unfold Evaluates at hx
  cases hrun : x.run mem with
  | some r =>
    obtain ⟨v, mem'⟩ := r
    rw [hrun] at hx
    obtain ⟨s', hs, hP⟩ := hx
    have hrest := (hf v mem' s' hP).steps hs
    unfold Evaluates at hrest ⊢
    rwa [StateT.run_bind, hrun]
  | none =>
    rw [hrun] at hx
    unfold Evaluates
    rw [StateT.run_bind, hrun]
    exact hx

/-- The machine can go on behind the evaluation. -/
theorem conclude {P' : α → (Int → Int) → State → Prop} (hx : m.Evaluates words x mem s P)
    (h : ∀ v mem' s', x.run mem = some (v, mem') → P v mem' s' →
      ∃ s'', m.StepsIn words s' s'' ∧ P' v mem' s'') : m.Evaluates words x mem s P' := by
  unfold Evaluates at hx ⊢
  split at hx
  next v mem' hrun =>
    obtain ⟨s', hs, hP⟩ := hx
    obtain ⟨s'', hs', hP'⟩ := h v mem' s' hrun hP
    exact ⟨s'', hs.trans hs', hP'⟩
  next => exact hx

theorem lift {r : Option α} (hsome : ∀ v, r = some v → ∃ s', m.StepsIn words s s' ∧ P v mem s')
    (hnone : r = none → ∃ s', m.StepsIn words s s' ∧ m.Faults words s') :
    m.Evaluates words (liftM r) mem s P := by
  cases r with
  | none => exact hnone rfl
  | some v => exact hsome v rfl

theorem some_bind {r : Option α} {v : α} (hr : r = some v)
    (hf : m.Evaluates words (f v) mem s Q) :
    m.Evaluates words ((liftM r : WordStep α) >>= f) mem s Q := by
  subst hr
  exact hf

end Evaluates

/-! ## Small pieces of code -/

/-- The machine stands at `pos` in the frame at `fp`, with all of its stack at or below `low`. Above
`low`, the memory is `mem`. -/
structure Poised (words : Int → Bool) (fp low : Int) (mem : Int → Int) (pos : Nat) (s : State) :
    Prop where
  pc : s.pc = pos
  fp : s.regs .fp = fp
  room : s.regs .sp ≤ low
  stack : ∀ k : Nat, words (s.regs .sp - wordSize * k) = true
  above : ∀ a, low < a → s.mem a = mem a

/-- The machine has come from `s` to `s'`, where the stack ends at `top`. Above `low`, the memory is
now `mem`; all else is as it was, but for the two registers that are computed with and for what
lies below the stack. -/
structure After (low : Int) (s : State) (top : Int) (pos : Nat) (mem : Int → Int) (s' : State) :
    Prop where
  pc : s'.pc = pos
  sp : s'.regs .sp = top
  regs : ∀ r, r ≠ .sp → r ≠ .t0 → r ≠ .t1 → s'.regs r = s.regs r
  above : ∀ a, low < a → s'.mem a = mem a
  between : ∀ a, s.regs .sp < a → a ≤ low → s'.mem a = s.mem a
  input : s'.input = s.input
  output : s'.output = s.output

/-- The machine has come from `s` to `s'` and put the word `v` on the stack. -/
structure Pushed (low : Int) (s : State) (pos : Nat) (v : Int) (mem : Int → Int) (s' : State) :
    Prop extends After low s (s.regs .sp - wordSize) pos mem s' where
  word : s'.mem (s.regs .sp) = v

section

variable {o : Options} {fp low top : Int} {mem : Int → Int} {pos : Nat} {c : Code} {r : Reg}
  {s₁ s₂ : State}

theorem Poised.after (h : Poised words fp low mem pos s) :
    After low s (s.regs .sp) pos mem s :=
  ⟨h.pc, rfl, fun _ _ _ _ => rfl, h.above, fun _ _ _ => rfl, rfl, rfl⟩

/-- The stack may grow by whole words. -/
theorem Poised.resume (h : Poised words fp low mem pos s) {pos' k : Nat} {mem' : Int → Int}
    (hs : After low s top pos' mem' s₁) (htop : top = s.regs .sp - wordSize * k) :
    Poised words fp low mem' pos' s₁ := by
  have hroom := h.room
  refine ⟨hs.pc, ?_, ?_, fun j => ?_, hs.above⟩
  · exact (hs.regs .fp (by decide) (by decide) (by decide)).trans h.fp
  · rw [hs.sp, htop]
    simp only [wordSize]
    omega
  · have haddr : s.regs .sp - wordSize * k - wordSize * j =
        s.regs .sp - wordSize * (k + j : Nat) := by
      simp only [wordSize]
      omega
    rw [hs.sp, htop, haddr]
    exact h.stack (k + j)

theorem Poised.word (h : Poised words fp low mem pos s) : words (s.regs .sp) = true := by
  simpa using h.stack 0

namespace After

theorem cast (h : After low s top pos mem s₁) {pos' : Nat} (heq : pos = pos') :
    After low s top pos' mem s₁ :=
  heq ▸ h

/-- What has been pushed before stays on the stack. -/
theorem trans {pos₁ : Nat} {top₁ : Int} {mem₁ : Int → Int} (h : After low s top₁ pos₁ mem₁ s₁)
    (hle : top₁ ≤ s.regs .sp) (h' : After low s₁ top pos mem s₂) : After low s top pos mem s₂ := by
  refine ⟨h'.pc, h'.sp, fun r hsp h0 h1 => ?_, h'.above, fun a hlt hle' => ?_,
    h'.input.trans h.input, h'.output.trans h.output⟩
  · exact (h'.regs r hsp h0 h1).trans (h.regs r hsp h0 h1)
  · have hlt' : s₁.regs .sp < a := by
      rw [h.sp]
      omega
    exact (h'.between a hlt' hle').trans (h.between a hlt hle')

/-- The state matters only as far as `After` looks at it. -/
theorem of_eq {pos' : Nat} (h : After low s top pos mem s₁) (hpc : s₂.pc = pos')
    (hregs : ∀ r, r ≠ .t0 → r ≠ .t1 → s₂.regs r = s₁.regs r) (hmem : s₂.mem = s₁.mem)
    (hin : s₂.input = s₁.input) (hout : s₂.output = s₁.output) : After low s top pos' mem s₂ :=
  ⟨hpc, (hregs .sp (by decide) (by decide)).trans h.sp,
    fun r hsp h0 h1 => (hregs r h0 h1).trans (h.regs r hsp h0 h1), hmem ▸ h.above,
    hmem ▸ h.between, hin.trans h.input, hout.trans h.output⟩

/-- An item that is no instruction is passed over. -/
theorem skip (h : After low s top pos mem s₁) {i : Item} (hseg : m.Seg pos (i :: c))
    (hi : m.itemIn words s₁ i = some s₁.next) :
    m.StepsIn words s₁ s₁.next ∧ After low s top (pos + 1) mem s₁.next :=
  ⟨hseg.one h.pc hi, h.of_eq (by simp [h.pc]) (fun _ _ _ => rfl) rfl rfl rfl⟩

/-- An instruction that does no more than to set one of the two registers. -/
theorem set (h : After low s top pos mem s₁) {i : Item} {x : Int} (hseg : m.Seg pos (i :: c))
    (hi : m.itemIn words s₁ i = some (s₁.setReg r x).next) (hr : r = .t0 ∨ r = .t1) :
    m.StepsIn words s₁ (s₁.setReg r x).next ∧
      After low s top (pos + 1) mem (s₁.setReg r x).next := by
  refine ⟨hseg.one h.pc hi, h.of_eq (by simp [h.pc]) (fun q h0 h1 => ?_) rfl rfl rfl⟩
  have hne : q ≠ r := by
    rintro rfl
    exact hr.elim h0 h1
  simp [hne]

/-- A branch to a label gets behind the label. -/
theorem branch (hl : m.code.labels.Nodup) (h : After low s top pos mem s₁) {x : Int} {l : String}
    {k : Nat} {c' : Code} (hseg : m.Seg pos (Code.bare (.beq r x l) :: c))
    (hlabel : m.Seg k (.label l :: c')) (hx : s₁.regs r = x) :
    ∃ s₂, m.StepsIn words s₁ s₂ ∧ After low s top (k + 1) mem s₂ ∧ s₂.mem = s₁.mem := by
  have hjump : m.itemIn words s₁ (Code.bare (.beq r x l)) = some (s₁.jump k) := by
    simp [Code.bare, itemIn, execIn, exec, hx, position?_eq hl hlabel.head]
  have h' : After low s top k mem (s₁.jump k) := h.of_eq rfl (fun _ _ _ => rfl) rfl rfl rfl
  obtain ⟨hs, h''⟩ := h'.skip hlabel (show m.itemIn words (s₁.jump k) (.label l) = _ from rfl)
  exact ⟨_, (hseg.one h.pc hjump).trans hs, h'', rfl⟩

theorem pass (h : After low s top pos mem s₁) {x : Int} {l : String}
    (hseg : m.Seg pos (Code.bare (.beq r x l) :: c)) (hx : s₁.regs r ≠ x) :
    m.StepsIn words s₁ s₁.next ∧ After low s top (pos + 1) mem s₁.next :=
  h.skip hseg (by simp [Code.bare, itemIn, execIn, exec, hx])

theorem push (h : After low s (s.regs .sp) pos mem s₁) (hroom : s.regs .sp ≤ low)
    (hword : words (s.regs .sp) = true) (hseg : m.Seg pos (Code.push o r)) :
    ∃ s₂, m.StepsIn words s₁ s₂ ∧ Pushed low s (pos + 2) (s₁.regs r) mem s₂ := by
  have hstore : m.itemIn words s₁ (Code.noted o (.sw r (.indexed 0 .sp)) ("PUSH " ++ r.text)) =
      some (s₁.setMem (s.regs .sp) (s₁.regs r)).next := by
    simp [Code.noted, itemIn, execIn, target?, h.sp, hword]
  have hmove : m.itemIn words (s₁.setMem (s.regs .sp) (s₁.regs r)).next
      (Code.bare (.subu .sp .sp wordSize)) = some (((s₁.setMem (s.regs .sp) (s₁.regs r)).next).setReg
        .sp (s.regs .sp - wordSize)).next := by
    simp [Code.bare, itemIn, execIn, exec, h.sp]
  refine ⟨_, (hseg.one h.pc hstore).trans (hseg.tail.one (by simp [h.pc]) hmove),
    ⟨by simp [h.pc], by simp, fun q hsp h0 h1 => ?_, fun a ha => ?_, fun a hlt hle => ?_, h.input,
      h.output⟩, by simp⟩
  · simpa [hsp] using h.regs q hsp h0 h1
  · have hne : a ≠ s.regs .sp := by omega
    simpa [hne] using h.above a ha
  · have hne : a ≠ s.regs .sp := by omega
    simpa [hne] using h.between a hlt hle

/-- What is left of a state when a register has been taken from the stack. -/
theorem pop (h : After low s (top - wordSize) pos mem s₁) (hword : words top = true)
    (hseg : m.Seg pos (Code.pop o r)) (hr : r = .t0 ∨ r = .t1) :
    ∃ s₂, m.StepsIn words s₁ s₂ ∧ After low s top (pos + 2) mem s₂ ∧ s₂.regs r = s₁.mem top ∧
      s₂.mem = s₁.mem ∧ ∀ q, q ≠ r → q ≠ .sp → s₂.regs q = s₁.regs q := by
  have hload : m.itemIn words s₁ (Code.noted o (.lw r (.indexed wordSize .sp)) ("POP " ++ r.text)) =
      some (s₁.setReg r (s₁.mem top)).next := by
    simp [Code.noted, itemIn, execIn, target?, h.sp, hword]
  obtain ⟨hs, hafter⟩ := h.set hseg hload hr
  have hsp : r ≠ .sp := by rcases hr with rfl | rfl <;> decide
  have hmove : m.itemIn words (s₁.setReg r (s₁.mem top)).next (Code.bare (.addu .sp .sp wordSize)) =
      some ((s₁.setReg r (s₁.mem top)).next.setReg .sp top).next := by
    simp [Code.bare, itemIn, execIn, exec, h.sp, hsp.symm]
  refine ⟨_, hs.trans (hseg.tail.one hafter.pc hmove), ⟨by simp [h.pc], by simp, ?_, h.above,
    h.between, h.input, h.output⟩, by simp [hsp], rfl, fun q hq hq' => by simp [hq, hq']⟩
  intro q hq h0 h1
  simpa [hq] using hafter.regs q hq h0 h1

theorem peek (h : After low s (top - wordSize) pos mem s₁) (hword : words top = true)
    (hseg : m.Seg pos (Code.peek o .t0)) :
    ∃ s₂, m.StepsIn words s₁ s₂ ∧ After low s (top - wordSize) (pos + 1) mem s₂ ∧
      s₂.regs .t0 = s₁.mem top ∧ s₂.mem = s₁.mem := by
  have hload : m.itemIn words s₁ (Code.noted o (.lw .t0 (.indexed wordSize .sp)) "peek") =
      some (s₁.setReg .t0 (s₁.mem top)).next := by
    simp [Code.noted, itemIn, execIn, target?, h.sp, hword]
  obtain ⟨hs, hafter⟩ := h.set hseg hload (.inl rfl)
  exact ⟨_, hs, hafter, by simp, rfl⟩

theorem discard (h : After low s (top - wordSize) pos mem s₁) (hseg : m.Seg pos (Code.discard o)) :
    ∃ s₂, m.StepsIn words s₁ s₂ ∧ After low s top (pos + 1) mem s₂ := by
  have hmove : m.itemIn words s₁ (Code.noted o (.addu .sp .sp wordSize) "discard") =
      some (s₁.setReg .sp top).next := by
    simp [Code.noted, itemIn, execIn, exec, h.sp]
  refine ⟨_, hseg.one h.pc hmove, ⟨by simp [h.pc], by simp, fun q hq h0 h1 => ?_, h.above, h.between,
    h.input, h.output⟩⟩
  simpa [hq] using h.regs q hq h0 h1

/-- A load from above the stack. -/
theorem load (h : After low s top pos mem s₁) {l : Location} {a : Int}
    (ha : m.place? (s.regs .fp) l = some a) (hlow : low < a) (hword : words a = true)
    (hseg : m.Seg pos (Code.load .t0 l)) :
    ∃ s₂, m.StepsIn words s₁ s₂ ∧ After low s top (pos + 1) mem s₂ ∧ s₂.regs .t0 = mem a := by
  have hfp := h.regs .fp (by decide) (by decide) (by decide)
  have hload : m.itemIn words s₁ (Code.bare (.lw .t0 l.address)) =
      some (s₁.setReg .t0 (s₁.mem a)).next := by
    simp [Code.bare, itemIn, execIn, target?_address, hfp, ha, hword]
  obtain ⟨hs, hafter⟩ := h.set hseg hload (.inl rfl)
  exact ⟨_, hs, hafter, by simp [h.above a hlow]⟩

/-- A store above the stack. -/
theorem store (h : After low s top pos mem s₁) {l : Location} {a : Int}
    (ha : m.place? (s.regs .fp) l = some a) (hlow : low < a) (hword : words a = true)
    (hseg : m.Seg pos (Code.store .t0 l)) :
    ∃ s₂, m.StepsIn words s₁ s₂ ∧
      After low s top (pos + 1) (Function.update mem a (s₁.regs .t0)) s₂ ∧
      ∀ a, a ≤ low → s₂.mem a = s₁.mem a := by
  have hfp := h.regs .fp (by decide) (by decide) (by decide)
  have hstore : m.itemIn words s₁ (Code.bare (.sw .t0 l.address)) =
      some (s₁.setMem a (s₁.regs .t0)).next := by
    simp [Code.bare, itemIn, execIn, target?_address, hfp, ha, hword]
  have hbelow : ∀ c, c ≤ low → (s₁.setMem a (s₁.regs .t0)).next.mem c = s₁.mem c := by
    intro c hc
    have hne : c ≠ a := by omega
    simp [hne]
  refine ⟨_, hseg.one h.pc hstore, ⟨by simp [h.pc], by simp [h.sp], h.regs, fun c hc => ?_,
    fun c hlt hle => ?_, h.input, h.output⟩, hbelow⟩
  · simp [Function.update_apply, h.above c hc]
  · rw [hbelow c hle]
    exact h.between c hlt hle

end After

end

end Machine

end FlatC
