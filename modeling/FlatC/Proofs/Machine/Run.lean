import FlatC.Proofs.Machine.Data

/-!
# Runs of the machine

`m.Seg pos c` says that the piece of code `c` stands at the position `pos`. A machine
**simulates** a step of a program (`Simulates`) if it gets to a state that fits the
result of the step, and to the end of the program if the step ends the program; of a step that is
stuck, nothing is said. Simulations compose along `do` blocks (`Simulates.bind`).
-/

namespace FlatC.Machine

/-! ## States -/

namespace State

variable (s : State) (r q : Reg) (a x : Int)

@[simp] theorem regs_setReg : (s.setReg r x).regs q = if q = r then x else s.regs q := rfl
@[simp] theorem pc_setReg : (s.setReg r x).pc = s.pc := rfl
@[simp] theorem mem_setReg : (s.setReg r x).mem = s.mem := rfl
@[simp] theorem input_setReg : (s.setReg r x).input = s.input := rfl
@[simp] theorem output_setReg : (s.setReg r x).output = s.output := rfl

@[simp] theorem regs_setMem : (s.setMem a x).regs = s.regs := rfl
@[simp] theorem pc_setMem : (s.setMem a x).pc = s.pc := rfl
@[simp] theorem mem_setMem (c : Int) : (s.setMem a x).mem c = if c = a then x else s.mem c := rfl
@[simp] theorem input_setMem : (s.setMem a x).input = s.input := rfl
@[simp] theorem output_setMem : (s.setMem a x).output = s.output := rfl

@[simp] theorem pc_jump (k : Nat) : (s.jump k).pc = k := rfl
@[simp] theorem regs_jump (k : Nat) : (s.jump k).regs = s.regs := rfl
@[simp] theorem mem_jump (k : Nat) : (s.jump k).mem = s.mem := rfl
@[simp] theorem input_jump (k : Nat) : (s.jump k).input = s.input := rfl
@[simp] theorem output_jump (k : Nat) : (s.jump k).output = s.output := rfl

@[simp] theorem pc_next : s.next.pc = s.pc + 1 := rfl
@[simp] theorem regs_next : s.next.regs = s.regs := rfl
@[simp] theorem mem_next : s.next.mem = s.mem := rfl
@[simp] theorem input_next : s.next.input = s.input := rfl
@[simp] theorem output_next : s.next.output = s.output := rfl

@[simp] theorem pc_write (y : Output) : (s.write y).pc = s.pc := rfl
@[simp] theorem regs_write (y : Output) : (s.write y).regs = s.regs := rfl
@[simp] theorem mem_write (y : Output) : (s.write y).mem = s.mem := rfl
@[simp] theorem input_write (y : Output) : (s.write y).input = s.input := rfl
@[simp] theorem output_write (y : Output) : (s.write y).output = s.output ++ [y] := rfl

end State

/-! ## Code -/

variable {m : Machine}

/-- The piece of code stands at `pos`. -/
def Seg (m : Machine) (pos : Nat) (piece : Code) : Prop :=
  ∀ j, j < piece.length → m.code[pos + j]? = piece[j]?

namespace Seg

variable {pos : Nat} {c c' : Code} {i : Item}

theorem append (h : m.Seg pos (c ++ c')) : m.Seg pos c ∧ m.Seg (pos + c.length) c' := by
  constructor
  · intro j hj
    rw [h j (by simp; omega), List.getElem?_append_left hj]
  · intro j hj
    rw [Nat.add_assoc, h (c.length + j) (by simp; omega),
      List.getElem?_append_right (Nat.le_add_right _ _), Nat.add_sub_cancel_left]

theorem head (h : m.Seg pos (i :: c)) : m.code[pos]? = some i := h 0 (by simp)

theorem tail (h : m.Seg pos (i :: c)) : m.Seg (pos + 1) c := by
  have h' : m.Seg pos ([i] ++ c) := h
  exact h'.append.2

/-- A file stands in itself. -/
theorem whole (m : Machine) : m.Seg 0 m.code := fun j _ => by rw [Nat.zero_add]

theorem step {s s' : State} (h : m.Seg pos (i :: c)) (hpc : s.pc = pos)
    (hi : m.item s i = some s') : m.step s = some s' := by
  rw [Machine.step, hpc, h.head, Option.bind_some, hi]

end Seg

/-! ## Steps -/

namespace Steps

variable {s s' s'' : State}

theorem refl : m.Steps s s := Relation.ReflTransGen.refl

theorem trans (h : m.Steps s s') (h' : m.Steps s' s'') : m.Steps s s'' :=
  Relation.ReflTransGen.trans h h'

theorem single (h : m.step s = some s') : m.Steps s s' := Relation.ReflTransGen.single h

end Steps

/-- The machine gets to a state that fits what a step of a program does. -/
def Simulates {α : Type} (m : Machine) (x : Exec α) (w : World) (s : State)
    (Q : α → World → State → Prop) : Prop :=
  match x.run w with
  | .ok (a, w') => ∃ s', m.Steps s s' ∧ Q a w' s'
  | .error (.exit w') =>
    ∃ s', m.Steps s s' ∧ m.AtExit s' ∧ s'.input = w'.input ∧ s'.output = w'.output
  | .error (.stuck _) => True

namespace Simulates

variable {α β : Type} {x : Exec α} {w : World} {s s' : State} {Q : α → World → State → Prop}

theorem steps (h : m.Steps s s') (hx : m.Simulates x w s' Q) : m.Simulates x w s Q := by
  unfold Simulates at hx ⊢
  split at hx
  next =>
    obtain ⟨s'', hs, hQ⟩ := hx
    exact ⟨s'', h.trans hs, hQ⟩
  next =>
    obtain ⟨s'', hs, hQ⟩ := hx
    exact ⟨s'', h.trans hs, hQ⟩
  next => trivial

theorem bind {f : α → Exec β} {P : α → World → State → Prop} {Q : β → World → State → Prop}
    (hx : m.Simulates x w s P) (hf : ∀ a w' s', P a w' s' → m.Simulates (f a) w' s' Q) :
    m.Simulates (x >>= f) w s Q := by
  unfold Simulates at hx
  cases hrun : x.run w with
  | ok r =>
    obtain ⟨a, w'⟩ := r
    rw [hrun] at hx
    obtain ⟨s', hs, hP⟩ := hx
    have := (hf a w' s' hP).steps hs
    unfold Simulates at this ⊢
    rwa [StateT.run_bind, hrun]
  | error h =>
    rw [hrun] at hx
    unfold Simulates
    rw [StateT.run_bind, hrun]
    cases h with
    | exit w' => exact hx
    | stuck why => trivial

/-- The machine can go on behind the step. -/
theorem conclude {P : α → World → State → Prop} (hx : m.Simulates x w s P)
    (h : ∀ a w' s', P a w' s' → ∃ s'', m.Steps s' s'' ∧ Q a w' s'') : m.Simulates x w s Q := by
  unfold Simulates at hx ⊢
  split at hx
  next =>
    obtain ⟨s', hs, hP⟩ := hx
    obtain ⟨s'', hs', hQ⟩ := h _ _ _ hP
    exact ⟨s'', hs.trans hs', hQ⟩
  next => exact hx
  next => trivial

theorem mono {P : α → World → State → Prop} (hx : m.Simulates x w s P)
    (h : ∀ a w' s', P a w' s' → Q a w' s') : m.Simulates x w s Q :=
  hx.conclude fun a w' s' hP => ⟨s', .refl, h a w' s' hP⟩

/-- What is known of the result of a step. -/
theorem with_result {R : α → Prop} (hx : m.Simulates x w s Q)
    (hR : ∀ a w', x.run w = .ok (a, w') → R a) :
    m.Simulates x w s fun a w' s' => Q a w' s' ∧ R a := by
  unfold Simulates at hx ⊢
  split at hx
  next a w' hrun =>
    obtain ⟨s', hs, hQ⟩ := hx
    exact ⟨s', hs, hQ, hR a w' hrun⟩
  next => exact hx
  next => trivial

/-- Nothing is said of a program that is stuck. -/
theorem stuck {why : Stuck} : m.Simulates (Exec.stuck why : Exec α) w s Q := trivial

theorem from?_bind {f : α → Exec β} {why : Stuck} {r : Option α} {Q : β → World → State → Prop}
    (h : ∀ a, r = some a → m.Simulates (f a) w s Q) : m.Simulates (Exec.from? why r >>= f) w s Q := by
  cases r with
  | none => exact stuck
  | some a => exact h a rfl

theorem get_bind {f : World → Exec β} {Q : β → World → State → Prop} (h : m.Simulates (f w) w s Q) :
    m.Simulates (get >>= f) w s Q := h

theorem modify_bind {g : World → World} {f : PUnit → Exec β} {Q : β → World → State → Prop}
    (h : m.Simulates (f ⟨⟩) (g w) s Q) : m.Simulates (modify g >>= f) w s Q := h

theorem exit (hs : m.AtExit s) (hi : s.input = w.input) (ho : s.output = w.output) :
    m.Simulates (Exec.exit : Exec α) w s Q :=
  ⟨s, .refl, hs, hi, ho⟩

end Simulates

end FlatC.Machine
