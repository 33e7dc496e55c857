import FlatC.Proofs.Simulation.Places

/-!
# Runs of small pieces of code

`fr.At w top pos s` says that the machine stands in a function with the frame `fr`: at the
position `pos`, with the first free word of the stack at `top`, and with the memory as the
world `w` says. The lemmas run the pieces that code is made of. What they leave alone is said by
`fr.Keeps`: all of the stack above an address, but for the variables of the frame.
-/

namespace FlatC

open Machine Layout

namespace Code

variable (o : Options) (r : Reg) (l : Location)

@[simp] theorem length_push : (push o r).length = 2 := rfl
@[simp] theorem length_pop : (pop o r).length = 2 := rfl
@[simp] theorem length_peek : (peek o r).length = 1 := rfl
@[simp] theorem length_discard : (discard o).length = 1 := rfl
@[simp] theorem length_load : (load r l).length = 1 := rfl
@[simp] theorem length_store : (store r l).length = 1 := rfl
@[simp] theorem length_operate (op : AluOp) : (operate o op).length = 7 := rfl

end Code

theorem Machine.Seg.remark {m : Machine} {o : Options} {pos : Nat} {s : State} {text : String}
    (hseg : m.Seg pos (Code.remark o text)) (hpc : s.pc = pos) :
    m.Steps s (s.jump (pos + (Code.remark o text).length)) := by
  subst hpc
  cases ho : o.comments with
  | true =>
    simp only [Code.remark, ho, if_true] at hseg ⊢
    exact .single (hseg.step rfl rfl)
  | false =>
    simp only [Code.remark, ho, Bool.false_eq_true, if_false]
    exact .refl

/-- The state with a register put on the stack. -/
def Machine.State.push (s : State) (r : Reg) : State :=
  ((s.setMem (s.regs .sp) (s.regs r)).next.setReg .sp (s.regs .sp - wordSize)).next

theorem Machine.Seg.push {m : Machine} {o : Options} {pos : Nat} {s : State} {r : Reg}
    (hseg : m.Seg pos (Code.push o r)) (hpc : s.pc = pos)
    (hword : m.hasWord (s.regs .sp) = true) : m.Steps s (s.push r) := by
  have hstore : m.item s (Code.noted o (.sw r (.indexed 0 .sp)) ("PUSH " ++ r.text)) =
      some (s.setMem (s.regs .sp) (s.regs r)).next := by
    simp [Code.noted, item, exec, Machine.word?, target?, hword]
  refine (Steps.single (hseg.step hpc hstore)).trans (.single (hseg.tail.step ?_ rfl))
  simp [hpc]

namespace Frame

variable {m : Machine} {o : Options} {p : Program} {b : Annotations} {fr : Frame m p b}

/-- The machine stands in the function, with the world as it is. -/
structure At (fr : Frame m p b) (w : World) (top : Int) (pos : Nat) (s : State) : Prop where
  pc : s.pc = pos
  fp : s.regs .fp = fr.base
  sp : s.regs .sp = top
  room : top ≤ fr.low
  dvd : (wordSize : Int) ∣ top
  agrees : Agrees fr w s.mem
  input : s.input = w.input
  output : s.output = w.output

/-- Of the stack above `top`, only variables of the frame have changed. -/
def Keeps (fr : Frame m p b) (top : Int) (mem mem' : Int → Int) : Prop :=
  ∀ a, top < a → a ≤ m.stackStart → ¬ fr.HasVariable a → mem' a = mem a

namespace Keeps

variable {top top' : Int} {mem mem' mem'' : Int → Int}

theorem of_eq (h : mem' = mem) : fr.Keeps top mem mem' := fun a _ _ _ => congrFun h a

theorem trans (h : fr.Keeps top mem mem') (h' : fr.Keeps top mem' mem'') :
    fr.Keeps top mem mem'' :=
  fun a hlt hle hv => (h' a hlt hle hv).trans (h a hlt hle hv)

theorem mono (h : fr.Keeps top mem mem') (hle : top ≤ top') : fr.Keeps top' mem mem' :=
  fun a hlt => h a (Int.lt_of_le_of_lt hle hlt)

/-- A word between the frame and the top of the stack is kept. -/
theorem word (h : fr.Keeps top mem mem') {a : Int} (hlt : top < a) (hle : a ≤ fr.low) :
    mem' a = mem a := by
  have hbase := fr.base_le
  refine h a hlt ?_ ?_ <;>
  · simp only [HasVariable, low, savedSpace, wordSize] at *
    omega

end Keeps

theorem low_le_base (fr : Frame m p b) : fr.low + savedSpace ≤ fr.base := by
  unfold low
  omega

variable {w : World} {top : Int} {pos : Nat} {s : State} {c : Code} {r : Reg}

theorem hasWord_of_le {a : Int} (hdvd : (wordSize : Int) ∣ a) (hle : a ≤ m.stackStart) :
    m.hasWord a = true := by
  simp [hasWord, Int.emod_eq_zero_of_dvd hdvd, hle]

namespace At

theorem le_stackStart (h : fr.At w top pos s) : top + savedSpace ≤ m.stackStart := by
  have hroom := h.room
  have hlow := fr.low_le_base
  have hbase := fr.base_le
  omega

theorem hasWord (h : fr.At w top pos s) : m.hasWord top = true := by
  have := h.le_stackStart
  exact hasWord_of_le h.dvd (by omega)

/-- The word above the top of the stack. -/
theorem above (h : fr.At w (top - wordSize) pos s) (htop : top ≤ fr.low) :
    (wordSize : Int) ∣ top ∧ m.hasWord top = true := by
  have hdvd := Int.dvd_add h.dvd (Int.dvd_refl wordSize)
  rw [Int.sub_add_cancel] at hdvd
  have hlow := fr.low_le_base
  have hbase := fr.base_le
  exact ⟨hdvd, hasWord_of_le hdvd (by omega)⟩

/-- The state matters only as far as `At` looks at it. -/
theorem of_eq {s' : State} {pos' : Nat} (h : fr.At w top pos s) (hpc : s'.pc = pos')
    (hfp : s'.regs .fp = s.regs .fp) (hsp : s'.regs .sp = s.regs .sp) (hmem : s'.mem = s.mem)
    (hin : s'.input = s.input) (hout : s'.output = s.output) : fr.At w top pos' s' :=
  ⟨hpc, hfp.trans h.fp, hsp.trans h.sp, h.room, h.dvd, hmem ▸ h.agrees, hin.trans h.input,
    hout.trans h.output⟩

theorem cast (h : fr.At w top pos s) {pos' : Nat} (heq : pos = pos') : fr.At w top pos' s :=
  heq ▸ h

theorem jump (h : fr.At w top pos s) (pos' : Nat) : fr.At w top pos' (s.jump pos') :=
  h.of_eq rfl rfl rfl rfl rfl rfl

theorem next (h : fr.At w top pos s) : fr.At w top (pos + 1) s.next :=
  h.of_eq (by simp [h.pc]) rfl rfl rfl rfl rfl

/-- A register that is neither of the two pointers. -/
theorem setReg (h : fr.At w top pos s) (hsp : r ≠ .sp) (hfp : r ≠ .fp) (x : Int) :
    fr.At w top pos (s.setReg r x) :=
  h.of_eq h.pc (by simp [hfp.symm]) (by simp [hsp.symm]) rfl rfl rfl

/-- An item that is no instruction is passed over. -/
theorem skip (h : fr.At w top pos s) {i : Item} (hseg : m.Seg pos (i :: c))
    (hi : m.item s i = some s.next) : m.Steps s s.next ∧ fr.At w top (pos + 1) s.next :=
  ⟨.single (hseg.step h.pc hi), h.next⟩

/-- An instruction that does no more than to set a register. -/
theorem set (h : fr.At w top pos s) {i : Item} {x : Int} (hseg : m.Seg pos (i :: c))
    (hi : m.item s i = some (s.setReg r x).next) (hsp : r ≠ .sp) (hfp : r ≠ .fp) :
    m.Steps s (s.setReg r x).next ∧ fr.At w top (pos + 1) (s.setReg r x).next :=
  ⟨.single (hseg.step h.pc hi), (h.setReg hsp hfp x).next⟩

/-- An instruction that jumps to a label gets behind the label. -/
theorem goto (hc : Compiled m o p b) (h : fr.At w top pos s) {i : Item} {l : String} {k : Nat}
    {c' : Code} (hseg : m.Seg pos (i :: c)) (hl : m.Seg k (.label l :: c'))
    (hi : m.item s i = (m.position? l).map s.jump) :
    ∃ s', m.Steps s s' ∧ fr.At w top (k + 1) s' ∧ s'.mem = s.mem ∧ s'.regs = s.regs := by
  rw [position?_eq hc.labels hl.head] at hi
  obtain ⟨hs, hat⟩ := (h.jump k).skip hl rfl
  exact ⟨_, (Steps.single (hseg.step h.pc hi)).trans hs, hat, rfl, rfl⟩

theorem branch (hc : Compiled m o p b) (h : fr.At w top pos s) {x : Int} {l : String} {k : Nat}
    {c' : Code} (hseg : m.Seg pos (Code.bare (.beq r x l) :: c)) (hl : m.Seg k (.label l :: c'))
    (hx : s.regs r = x) :
    ∃ s', m.Steps s s' ∧ fr.At w top (k + 1) s' ∧ s'.mem = s.mem ∧ s'.regs = s.regs :=
  h.goto hc hseg hl (by simp [Code.bare, item, exec, hx])

theorem pass (h : fr.At w top pos s) {x : Int} {l : String}
    (hseg : m.Seg pos (Code.bare (.beq r x l) :: c)) (hx : s.regs r ≠ x) :
    m.Steps s s.next ∧ fr.At w top (pos + 1) s.next :=
  h.skip hseg (by simp [Code.bare, item, exec, hx])

theorem remark (h : fr.At w top pos s) {text : String} (hseg : m.Seg pos (Code.remark o text)) :
    ∃ s', m.Steps s s' ∧ fr.At w top (pos + (Code.remark o text).length) s' ∧ s'.mem = s.mem :=
  ⟨_, hseg.remark h.pc, h.jump _, rfl⟩

theorem push (hc : Compiled m o p b) (h : fr.At w top pos s) (hseg : m.Seg pos (Code.push o r)) :
    ∃ s', m.Steps s s' ∧ fr.At w (top - wordSize) (pos + 2) s' ∧ s'.mem top = s.regs r ∧
      fr.Keeps top s.mem s'.mem := by
  have hstack := h.le_stackStart
  have hapart := m.apart
  have hroom := h.room
  have hs := hseg.push h.pc (h.sp ▸ h.hasWord)
  rw [State.push, h.sp] at hs
  refine ⟨_, hs, ⟨by simp [h.pc], by simp [h.fp], by simp, ?_, ?_, ⟨?_, ?_⟩, by simp [h.input],
      by simp [h.output]⟩, by simp, fun a hlt _ _ => by simp [Int.ne_of_gt hlt]⟩
  · simp only [wordSize]
    omega
  · exact Int.dvd_sub h.dvd (Int.dvd_refl _)
  · refine h.agrees.outer.congr hc fun a ha => ?_
    have hne : a ≠ top := by
      simp only [wordSize, savedSpace] at hapart hstack
      omega
    simp [hne]
  · refine h.agrees.inner.congr hc fun a ha => ?_
    have hne : a ≠ top := by
      have := fr.le_of_hasVariable ha
      omega
    simp [hne]

/-- What is left of a state when a register has been taken from the stack. -/
theorem pop (h : fr.At w (top - wordSize) pos s) (htop : top ≤ fr.low)
    (hseg : m.Seg pos (Code.pop o r)) (hsp : r ≠ .sp) (hfp : r ≠ .fp) :
    ∃ s', m.Steps s s' ∧ fr.At w top (pos + 2) s' ∧ s'.regs r = s.mem top ∧ s'.mem = s.mem ∧
      ∀ q, q ≠ r → q ≠ .sp → s'.regs q = s.regs q := by
  obtain ⟨hdvd, hword⟩ := h.above htop
  have hload : m.item s (Code.noted o (.lw r (.indexed wordSize .sp)) ("POP " ++ r.text)) =
      some (s.setReg r (s.mem top)).next := by
    simp [Code.noted, item, exec, Machine.word?, target?, h.sp, hword]
  have hmove : m.item (s.setReg r (s.mem top)).next (Code.bare (.addu .sp .sp wordSize)) =
      some ((s.setReg r (s.mem top)).next.setReg .sp top).next := by
    simp [Code.bare, item, exec, h.sp, hsp.symm]
  have hpc : (s.setReg r (s.mem top)).next.pc = pos + 1 := by simp [h.pc]
  refine ⟨_, (Steps.single (hseg.step h.pc hload)).trans (.single (hseg.tail.step hpc hmove)),
    ⟨by simp [h.pc], by simp [h.fp, hfp.symm], by simp, htop, hdvd, h.agrees, h.input, h.output⟩,
    by simp [hsp], rfl, fun q hq hq' => by simp [hq, hq']⟩

theorem peek (h : fr.At w (top - wordSize) pos s) (htop : top ≤ fr.low)
    (hseg : m.Seg pos (Code.peek o r)) (hsp : r ≠ .sp) (hfp : r ≠ .fp) :
    ∃ s', m.Steps s s' ∧ fr.At w (top - wordSize) (pos + 1) s' ∧ s'.regs r = s.mem top ∧
      s'.mem = s.mem := by
  obtain ⟨-, hword⟩ := h.above htop
  have hload : m.item s (Code.noted o (.lw r (.indexed wordSize .sp)) "peek") =
      some (s.setReg r (s.mem top)).next := by
    simp [Code.noted, item, exec, Machine.word?, target?, h.sp, hword]
  obtain ⟨hs, hat⟩ := h.set hseg hload hsp hfp
  exact ⟨_, hs, hat, by simp, rfl⟩

theorem discard (h : fr.At w (top - wordSize) pos s) (htop : top ≤ fr.low)
    (hseg : m.Seg pos (Code.discard o)) :
    ∃ s', m.Steps s s' ∧ fr.At w top (pos + 1) s' ∧ s'.mem = s.mem := by
  obtain ⟨hdvd, -⟩ := h.above htop
  have hmove : m.item s (Code.noted o (.addu .sp .sp wordSize) "discard") =
      some (s.setReg .sp top).next := by
    simp [Code.noted, item, exec, h.sp]
  exact ⟨_, .single (hseg.step h.pc hmove),
    ⟨by simp [h.pc], by simp [h.fp], by simp, htop, hdvd, h.agrees, h.input, h.output⟩, rfl⟩

/-- The address of a word of a variable. -/
theorem word?_slot (hc : Compiled m o p b) (h : fr.At w top pos s) {t : Target}
    (ht : t.Denotes p fr.fn) :
    ∃ a, m.place? fr.base (slot b t.path.root t.path.fields) = some a ∧
      m.word? s (slot b t.path.root t.path.fields).address = some a ∧
      (fr.HasVariable a ∨ m.dataStart ≤ a) := by
  obtain ⟨hroot, hx⟩ := ht
  cases ho : t.isOuter with
  | true =>
    simp only [ho, if_true] at hroot
    obtain ⟨x, hmem, u, hslot, haddr, hdvd, bytes, hdatum, hle⟩ := hc.outer_at hroot hx
    have hplace : m.place? fr.base (slot b t.path.root t.path.fields) = some (x.address + u) := by
      simp [hslot, place?, haddr]
    have hroom : x.hasRoom (x.address + u) = true := by
      simp only [Entry.hasRoom, hdatum, Bool.and_eq_true, decide_eq_true_eq, wordSize] at hle ⊢
      exact ⟨by omega, decide_eq_true (by omega)⟩
    have hword : m.hasWord (x.address + u) = true := by
      simp only [Machine.hasWord, Bool.and_eq_true, Bool.or_eq_true, decide_eq_true_eq,
        Int.emod_eq_zero_of_dvd hdvd, List.any_eq_true]
      exact ⟨trivial, .inr ⟨x, hmem, hroom⟩⟩
    refine ⟨_, hplace, ?_, .inr (hc.dataStart_le hroot hx hplace)⟩
    simp [Machine.word?, target?_address, h.fp, hplace, hword]
  | false =>
    simp only [ho, Bool.false_eq_true, if_false] at hroot
    obtain ⟨u, hslot, hdvd, hvar⟩ := fr.variable_at hc hroot hx
    have hplace : m.place? fr.base (slot b t.path.root t.path.fields) = some (fr.base + u) := by
      simp [hslot, place?]
    have hword := hasWord_of_le hdvd (fr.le_of_hasVariable hvar).2
    refine ⟨_, hplace, ?_, .inl hvar⟩
    simp [Machine.word?, target?_address, h.fp, hplace, hword]

theorem load (hc : Compiled m o p b) (h : fr.At w top pos s) {t : Target}
    (ht : t.Denotes p fr.fn)
    (hseg : m.Seg pos (Code.load r (slot b t.path.root t.path.fields))) (hsp : r ≠ .sp)
    (hfp : r ≠ .fp) {sc : Scalar} {v : Atom} (hv : t.get sc w = some v) :
    ∃ s', m.Steps s s' ∧ fr.At w top (pos + 1) s' ∧ s'.regs r = v.word ∧ s'.mem = s.mem := by
  obtain ⟨a, hplace, hword, -⟩ := h.word?_slot hc ht
  have hload : m.item s (Code.bare (.lw r (slot b t.path.root t.path.fields).address)) =
      some (s.setReg r (s.mem a)).next := by
    simp [Code.bare, item, exec, hword]
  obtain ⟨hs, hat⟩ := h.set hseg hload hsp hfp
  exact ⟨_, hs, hat, by simp [h.agrees.get hc ht hplace hv], rfl⟩

theorem store (hc : Compiled m o p b) (h : fr.At w top pos s) {t : Target}
    (ht : t.Denotes p fr.fn)
    (hseg : m.Seg pos (Code.store r (slot b t.path.root t.path.fields))) {v : Atom}
    (hv : s.regs r = v.word) :
    ∃ s', m.Steps s s' ∧ fr.At (t.set v w) top (pos + 1) s' ∧ s'.regs = s.regs ∧
      ∀ top', fr.Keeps top' s.mem s'.mem := by
  obtain ⟨a, hplace, hword, hrange⟩ := h.word?_slot hc ht
  have hstore : m.item s (Code.bare (.sw r (slot b t.path.root t.path.fields).address)) =
      some (s.setMem a (s.regs r)).next := by
    simp [Code.bare, item, exec, hword]
  have hio : (t.set v w).input = w.input ∧ (t.set v w).output = w.output := by
    unfold Target.set
    split <;> exact ⟨rfl, rfl⟩
  refine ⟨_, .single (hseg.step h.pc hstore), ⟨by simp [h.pc], h.fp, h.sp, h.room, h.dvd, ?_,
    h.input.trans hio.1.symm, h.output.trans hio.2.symm⟩, rfl, fun top' c _ hle hvar => ?_⟩
  · exact h.agrees.set hc ht hplace v (by simpa using hv) fun c hne => by simp [hne]
  · have hne : c ≠ a := by
      rintro rfl
      have hapart := m.apart
      simp only [wordSize] at hapart
      obtain hv | hdata := hrange
      · exact hvar hv
      · omega
    simp [hne]

end At

end Frame

end FlatC
