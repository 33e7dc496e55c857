import FlatC.Proofs.Calling.Stores

/-!
# Frames are made and dropped

An **activation** is a function that has been called: its frame starts at `base`, and it owes its
caller the return address `ret` and the frame pointer `link`. Between prologue and epilogue the two
lie in the words of the frame that belong to no variable (`Activation.Saved`), and the stack ends as
many words below the frame as the line is deep (`Activation.Inside`). The prologue gets there from a
call (`Activation.opens`), and the epilogue from there back to the caller (`Activation.closes`).
-/

namespace FlatC

open Machine Layout

variable {m : Machine} {o : Options} {p : Program} {b : Annotations} {words : Int → Bool}

/-! ## Straight code -/

namespace Machine

/-- From `s`, the machine runs the straight code `c` to its end and gets to a state that satisfies
`Q`. On the way it leaves alone what lies above `top`. -/
def Runs (m : Machine) (words : Int → Bool) (top : Int) (Q : State → Prop) : Code → State → Prop
  | [], s => Q s
  | i :: c, s => ∃ s', m.itemIn words s i = some s' ∧ (∀ a, top < a → s'.mem a = s.mem a) ∧
      (c ≠ [] → s'.pc = s.pc + 1) ∧ m.Runs words top Q c s'

variable {top : Int} {Q Q' : State → Prop} {c : Code} {s : State}

namespace Runs

theorem mono (h : m.Runs words top Q c s) (hQ : ∀ s, Q s → Q' s) : m.Runs words top Q' c s := by
  induction c generalizing s with
  | nil => exact hQ s h
  | cons i c ih =>
    obtain ⟨s', hi, hmem, hpc, hc⟩ := h
    exact ⟨s', hi, hmem, hpc, ih hc⟩

theorem lift (h : m.Runs words top Q c s) {top' : Int} (hle : top ≤ top') :
    m.Runs words top' Q c s := by
  induction c generalizing s with
  | nil => exact h
  | cons i c ih =>
    obtain ⟨s', hi, hmem, hpc, hc⟩ := h
    exact ⟨s', hi, fun a ha => hmem a (Int.lt_of_le_of_lt hle ha), hpc, ih hc⟩

/-- The machine gets behind the code. -/
theorem steps (h : m.Runs words top Q c s) (hseg : m.Seg s.pc c) :
    ∃ s', m.StepsIn words s s' ∧ (∀ a, top < a → s'.mem a = s.mem a) ∧ Q s' := by
  induction c generalizing s with
  | nil => exact ⟨s, .refl, fun _ _ => rfl, h⟩
  | cons i c ih =>
    obtain ⟨s', hi, hmem, hpc, hc⟩ := h
    have hstep : m.StepsIn words s s' := hseg.one rfl hi
    by_cases hne : c = []
    · subst hne
      exact ⟨s', hstep, hmem, hc⟩
    · obtain ⟨s'', hs, hmem', hQ⟩ := ih hc (hpc hne ▸ hseg.tail)
      exact ⟨s'', hstep.trans hs, fun a ha => (hmem' a ha).trans (hmem a ha), hQ⟩

theorem instr {i : Instr} {note : Option String} (s' : State) (hi : m.execIn words s i = some s')
    (hmem : ∀ a, top < a → s'.mem a = s.mem a) (hpc : c ≠ [] → s'.pc = s.pc + 1)
    (h : m.Runs words top Q c s') : m.Runs words top Q (.instr i note :: c) s :=
  ⟨s', hi, hmem, hpc, h⟩

/-- An instruction that sets a register. -/
theorem set {i : Instr} {note : Option String} {r : Reg} {x : Int}
    (hi : m.execIn words s i = some (s.setReg r x).next)
    (h : m.Runs words top Q c (s.setReg r x).next) : m.Runs words top Q (.instr i note :: c) s :=
  instr _ hi (fun _ _ => rfl) (fun _ => rfl) h

theorem load {r q : Reg} {offset a : Int} {note : Option String} (ha : s.regs q + offset = a)
    (hword : words a = true) (h : m.Runs words top Q c (s.setReg r (s.mem a)).next) :
    m.Runs words top Q (.instr (.lw r (.indexed offset q)) note :: c) s :=
  set (by simp [execIn, target?, ha, hword]) h

theorem label {l : String} (h : m.Runs words top Q c s.next) :
    m.Runs words top Q (.label l :: c) s :=
  ⟨s.next, rfl, fun _ _ => rfl, fun _ => rfl, h⟩

theorem remark {text : String}
    (h : ∀ pc, pc = s.pc + (Code.remark o text).length → m.Runs words top Q c (s.jump pc)) :
    m.Runs words top Q (Code.remark o text ++ c) s := by
  unfold Code.remark at h ⊢
  split
  next ho =>
    rw [ho] at h
    exact ⟨s.next, rfl, fun _ _ => rfl, fun _ => rfl, h _ rfl⟩
  next ho =>
    rw [if_neg ho] at h
    exact h s.pc rfl

/-- A register is put on the stack, at or below `top`. -/
theorem push {r : Reg} (hword : words (s.regs .sp) = true) (htop : s.regs .sp ≤ top)
    (h : ∀ s', s'.pc = s.pc + 2 → s'.regs .sp = s.regs .sp - wordSize →
      (∀ q, q ≠ .sp → s'.regs q = s.regs q) → s'.mem (s.regs .sp) = s.regs r →
      (∀ a, a ≠ s.regs .sp → s'.mem a = s.mem a) → m.Runs words top Q c s') :
    m.Runs words top Q (Code.push o r ++ c) s := by
  refine instr (s.setMem (s.regs .sp) (s.regs r)).next ?_ (fun a ha => ?_) (fun _ => rfl)
    (set rfl (h _ rfl ?_ ?_ ?_ ?_))
  · simp [execIn, target?, hword]
  · have hne : a ≠ s.regs .sp := by omega
    simp [hne]
  · simp
  · intro q hq
    simp [hq]
  · simp
  · intro a ha
    simp [ha]

/-- The machine goes back to where a register says. -/
theorem back {r : Reg} {n : Nat} {note : Option String} (hr : s.regs r = n) (h : Q (s.jump n)) :
    m.Runs words top Q [.instr (.jr r) note] s := by
  refine instr (s.jump n) ?_ (fun _ _ => rfl) (absurd rfl) h
  show (s.regs r).toNat?.map s.jump = some (s.jump n)
  rw [hr]
  rfl

end Runs

theorem Seg.glue {pos : Nat} {c' : Code} (h : m.Seg pos c) (h' : m.Seg (pos + c.length) c') :
    m.Seg pos (c ++ c') := by
  intro j hj
  by_cases hlt : j < c.length
  · rw [List.getElem?_append_left hlt]
    exact h j hlt
  · have hat : pos + c.length + (j - c.length) = pos + j := by omega
    rw [List.getElem?_append_right (Nat.not_lt.1 hlt), ← hat]
    refine h' _ ?_
    rw [List.length_append] at hj
    omega

theorem Seg.take {pos : Nat} (h : m.Seg pos c) (k : Nat) : m.Seg pos (c.take k) := by
  rw [← List.take_append_drop k c] at h
  exact h.append.1

end Machine

/-- Only local variables take an instruction more. -/
theorem Code.length_prologue (o : Options) (formalSpace localSpace : Nat) :
    (Code.prologue o formalSpace localSpace).length = if localSpace = 0 then 5 else 6 := by
  unfold Code.prologue
  split
  · rfl
  · rfl

/-! ## Routines -/

/-- A function of a program, with its code in the machine and the depths of its lines. -/
structure Routine (m : Machine) (o : Options) (p : Program) (b : Annotations) where
  fn : FnDecl
  info : FnInfo
  entry : Nat
  start : Nat
  stop : Nat
  code : Code
  depth : Nat → Nat
  mem : Decl.fn fn ∈ p.decls
  stands : FnCode m o b fn info entry start stop code
  depths : Depths p (Label.exit fn.name.name)
    (code ++ Code.remark o "FUNCTION EXIT" ++ [.label (Label.exit fn.name.name)]) depth
  modest : code.Modest (Code.KeepsPlace b (Place.Kept p b fn))

/-- Every function of a text that is compiled has its routine. -/
theorem Analyzed.routine {source : String} (han : Analyzed source p b) (hc : Compiled m o p b)
    {f : FnDecl} (hf : Decl.fn f ∈ p.decls) : ∃ r : Routine m o p b, r.fn = f := by
  obtain ⟨info, entry, start, stop, code, hcode⟩ := hc.fnCode hf
  obtain ⟨n, n', hbody⟩ := hcode.generated
  obtain ⟨-, hdepths⟩ := Code.body_depths hc.ready han.accepted.wellFormed.2.2 hf hbody
  obtain ⟨before, after, hsplit⟩ := List.append_of_mem hf
  rw [Code.Part.body_eq] at hbody
  refine ⟨⟨f, info, entry, start, stop, code, _, hf, hcode, hdepths, ?_⟩, rfl⟩
  exact (Code.stmts_modest f.body.stmts (f.surroundings before)
    (fun r hr q hq => han.kept hsplit hr hq) n code n' trivial hbody).2

namespace Routine

variable (r : Routine m o p b)

/-- The lines of the body, the label at its end included. -/
def lines : Code :=
  r.code ++ Code.remark o "FUNCTION EXIT" ++ [.label (Label.exit r.fn.name.name)]

/-- The bytes between the start of a frame and the operands on its stack. -/
def frameSize : Nat := r.info.formalSpace + savedSpace + r.info.localSpace

theorem start_add : r.start + r.lines.length = r.stop + 1 := by
  rw [← r.stands.stop_eq]
  simp [lines, Nat.add_assoc]

theorem length_pos : 0 < r.lines.length := by
  simp [lines]

theorem seg_lines : m.Seg r.start r.lines := by
  have hexit : m.Seg r.stop [.label (Label.exit r.fn.name.name)] := r.stands.exit.take 1
  rw [← r.stands.stop_eq, Nat.add_assoc, ← List.length_append] at hexit
  exact (r.stands.body.glue r.stands.finish).glue hexit

/-- The lines that make the frame. -/
def opening : Code :=
  .label (Label.function r.fn.name.name) ::
    (Code.remark o "FUNCTION ENTRY" ++ Code.prologue o r.info.formalSpace r.info.localSpace)

theorem seg_opening : m.Seg r.entry r.opening := r.stands.label.glue r.stands.begin

theorem entry_add : r.entry + r.opening.length = r.start := by
  rw [← r.stands.start_eq, opening, List.length_cons]
  omega

/-- The lines that drop the frame. What `main` does last is no step. -/
def closing : Code :=
  (.label (Label.exit r.fn.name.name) :: Code.epilogue o r.info.formalSpace r.fn.isMain).take 6

theorem seg_closing : m.Seg r.stop r.closing := r.stands.exit.take 6

/-- The last item of the function is in front of this one. -/
def finish : Nat := r.stop + 1 + (Code.epilogue o r.info.formalSpace r.fn.isMain).length

theorem entry_lt : r.entry < r.start ∧ r.start ≤ r.stop ∧ r.stop < r.finish := by
  have hentry := r.entry_add
  have hstart := r.start_add
  have hpos := r.length_pos
  simp only [opening, List.length_cons] at hentry
  simp only [finish]
  omega

/-- What stands behind the label of a function. -/
def rest : Code :=
  Code.remark o "FUNCTION ENTRY" ++ Code.prologue o r.info.formalSpace r.info.localSpace ++
    (r.lines ++ Code.epilogue o r.info.formalSpace r.fn.isMain)

theorem seg_rest : m.Seg (r.entry + 1) r.rest := by
  refine r.stands.begin.glue ?_
  rw [r.stands.start_eq]
  refine r.seg_lines.glue ?_
  rw [r.start_add]
  exact r.stands.exit.tail

theorem entry_add_rest : r.entry + 1 + r.rest.length = r.finish := by
  have hstart := r.stands.start_eq
  have hstop := r.start_add
  simp only [rest, finish, List.length_append] at *
  omega

/-- Behind the label of a function, there is no label of a function. -/
theorem not_function_of_rest (hc : Compiled m o p b) (r' : Routine m o p b) {j : Nat}
    (hj : r.rest[j]? = some (.label (Label.function r'.fn.name.name))) : False := by
  obtain ⟨n, n', hbody⟩ := r.stands.generated
  have hmem : Label.function r'.fn.name.name ∈ r.rest.labels :=
    List.mem_filterMap.2 ⟨_, List.mem_of_getElem? hj, rfl⟩
  simp only [rest, lines, Code.labels_append, Code.labels_remark, Code.labels_prologue,
    Code.labels_epilogue, Code.labels_label, Code.labels_nil, List.append_nil, List.nil_append,
    List.mem_append, List.mem_singleton] at hmem
  rcases hmem with hmem | hmem
  · obtain ⟨stem, hstem, k, -, -, hk⟩ := (Code.body_numbered r.fn.body hbody).made _ hmem
    exact Label.numbered_ne_function hstem _ _ hk.symm
  · -- at the end of a function, something else comes next
    have hexit := r.stands.exit
    have hstop := Code.index_unique hc.labels hexit.head
      r'.stands.label.head rfl (congrArg some hmem)
    have hnext := r'.stands.begin 0 (by simp [Code.prologue, Code.push])
    rw [← hstop, Nat.add_zero, hexit.tail.head] at hnext
    unfold Code.remark at hnext
    split at hnext
    · simp [Code.noted] at hnext
    · simp [Code.noted, Code.prologue, Code.push] at hnext

/-- **Functions lie apart**: an item belongs to one function only. -/
theorem eq_of_item (hc : Compiled m o p b) {r r' : Routine m o p b} {k : Nat}
    (h : r.entry ≤ k ∧ k < r.finish) (h' : r'.entry ≤ k ∧ k < r'.finish) :
    r.entry = r'.entry := by
  have hlt : ∀ {r r' : Routine m o p b}, r.entry ≤ k ∧ k < r.finish →
      r'.entry ≤ k ∧ k < r'.finish → ¬ r.entry < r'.entry := by
    intro r r' h h' hlt
    obtain ⟨j, hj⟩ := Nat.exists_eq_add_of_lt hlt
    have hat : r.entry + 1 + j = r'.entry := by omega
    have hlast := r.entry_add_rest
    refine r.not_function_of_rest hc r' (j := j) ?_
    rw [← r.seg_rest j (by omega), hat, r'.stands.label.head]
  have := hlt h h'
  have := hlt h' h
  omega

/-- Where a function starts tells all there is to know of its frame and of its place. -/
theorem eq_of_entry (hc : Compiled m o p b) {r r' : Routine m o p b} (h : r.entry = r'.entry) :
    r.fn = r'.fn ∧ r.info = r'.info ∧ r.start = r'.start ∧ r.stop = r'.stop := by
  have hlabel := r.stands.label.head
  rw [h, r'.stands.label.head, Option.some.injEq, Item.label.injEq] at hlabel
  have hkey : (Decl.fn r.fn).key = (Decl.fn r'.fn).key :=
    Decl.start?_inj (l := Label.function r.fn.name.name) rfl (congrArg some hlabel)
  have hfn : r.fn = r'.fn :=
    Decl.fn.inj (List.inj_on_of_nodup_map hc.ready.resolved.nodup r.mem r'.mem hkey)
  have hnoted := r.stands.noted
  rw [hfn, r'.stands.noted, Option.some.injEq] at hnoted
  have hstart := r.stands.start_eq
  rw [h, ← hnoted, r'.stands.start_eq] at hstart
  refine ⟨hfn, hnoted.symm, hstart.symm, ?_⟩
  exact Code.index_unique hc.labels r.stands.exit.head r'.stands.exit.head rfl (by rw [hfn]; rfl)

theorem spaces (hc : Compiled m o p b) :
    r.info.formalSpace = wordSize * r.fn.params.length ∧ wordSize ∣ r.info.localSpace :=
  hc.spaces r.mem r.stands.noted

end Routine

/-! ## Activations -/

/-- A function that has been called: its frame starts at `base`, and it has to go back to `ret` with
the frame pointer at `link`. -/
structure Activation (m : Machine) (o : Options) (p : Program) (b : Annotations) where
  routine : Routine m o p b
  base : Int
  ret : Int
  link : Int

namespace Activation

section

variable (A : Activation m o p b)

/-- The word of the frame where the return address is saved. -/
def retWord : Int := A.base - A.routine.info.formalSpace

/-- The word of the frame where the frame pointer of the caller is saved. -/
def linkWord : Int := A.base - A.routine.info.formalSpace - wordSize

/-- The first word below the frame. -/
def low : Int := A.base - A.routine.info.formalSpace - savedSpace - A.routine.info.localSpace

/-- What the function owes its caller is in the frame. -/
structure Saved (mem : Int → Int) : Prop where
  ret : mem A.retWord = A.ret
  link : mem A.linkWord = A.link

/-- The machine stands at the label of the function, behind the call. -/
structure Called (s : State) : Prop where
  pc : s.pc = A.routine.entry
  sp : s.regs .sp = A.retWord
  ra : s.regs .ra = A.ret
  fp : s.regs .fp = A.link

/-- The machine stands in front of the line `k` of the function. The stack ends as many words below
the frame as the line is deep. -/
structure Inside (k : Nat) (s : State) : Prop where
  lt : k < A.routine.lines.length
  pc : s.pc = A.routine.start + k
  fp : s.regs .fp = A.base
  sp : s.regs .sp = A.low - wordSize * A.routine.depth k
  saved : A.Saved s.mem

/-- The machine is back at the caller, with the arguments off the stack. -/
structure Left (s : State) : Prop where
  pc : (s.pc : Int) = A.ret
  fp : s.regs .fp = A.link
  sp : s.regs .sp = A.base

/-- The frame can be read and written, as can all of the stack below it. -/
def Usable (words : Int → Bool) : Prop := ∀ k : Nat, words (A.base - wordSize * k) = true

end

variable {A : Activation m o p b} {s : State}

theorem Usable.saved (h : A.Usable words) (hc : Compiled m o p b) :
    words A.retWord = true ∧ words A.linkWord = true := by
  have hformal := (A.routine.spaces hc).1
  constructor
  · have heq : A.retWord = A.base - wordSize * (A.routine.fn.params.length : Nat) := by
      simp [retWord, hformal]
    rw [heq]
    exact h _
  · have heq : A.linkWord = A.base - wordSize * (A.routine.fn.params.length + 1 : Nat) := by
      simp only [linkWord, hformal, wordSize]
      omega
    rw [heq]
    exact h _

/-- **The prologue makes the frame**, whatever the stack and the memory hold. -/
theorem Called.opens (h : A.Called s) (hc : Compiled m o p b) (hw : A.Usable words) :
    m.Runs words A.retWord (A.Inside 0) A.routine.opening s := by
  obtain ⟨hret, hlink⟩ := hw.saved hc
  have hnext : A.retWord - wordSize = A.linkWord := rfl
  have hne : A.retWord ≠ A.linkWord := by
    simp only [retWord, linkWord, wordSize]
    omega
  have hlen := A.routine.stands.start_eq
  rw [List.length_append, Code.length_prologue, ← Nat.add_assoc] at hlen
  unfold Routine.opening Code.prologue
  simp only [List.append_assoc]
  refine .label (.remark fun pc hpc => .push (by simpa [h.sp]) (by simp [h.sp]) ?_)
  intro s₁ hpc₁ hsp₁ hregs₁ hput₁ hmem₁
  simp only [State.pc_jump, State.regs_jump, State.regs_next, State.mem_jump, State.mem_next, h.sp,
    h.ra, hnext] at hpc₁ hsp₁ hregs₁ hput₁ hmem₁
  refine .push (by simpa [hsp₁]) (by simp [hsp₁, retWord, linkWord, wordSize]) ?_
  intro s₂ hpc₂ hsp₂ hregs₂ hput₂ hmem₂
  have hfp : s₁.regs .fp = A.link := (hregs₁ .fp (by decide)).trans h.fp
  rw [hsp₁] at hsp₂ hput₂ hmem₂
  rw [hfp] at hput₂
  have hsaved : A.Saved s₂.mem := ⟨(hmem₂ _ hne).trans hput₁, hput₂⟩
  have hbase : s₂.regs .sp + (2 * wordSize + A.routine.info.formalSpace : Nat) = A.base := by
    simp only [hsp₂, linkWord, wordSize]
    omega
  have hpc' : s₂.pc = A.routine.entry + 1 + (Code.remark o "FUNCTION ENTRY").length + 4 := by
    rw [hpc₂, hpc₁, hpc, State.pc_next, h.pc]
  have hpos := A.routine.length_pos
  have hdepth := A.routine.depths.start
  by_cases hlocal : A.routine.info.localSpace = 0
  · rw [if_pos hlocal] at hlen
    rw [if_pos hlocal, List.append_nil]
    refine .set rfl ⟨hpos, ?_, by simpa using hbase, ?_, hsaved⟩
    · rw [State.pc_next, State.pc_setReg, hpc']
      omega
    · simp [hsp₂, hdepth, linkWord, low, hlocal, savedSpace, wordSize]
      omega
  · rw [if_neg hlocal] at hlen
    rw [if_neg hlocal]
    refine .set rfl (.set rfl ⟨hpos, ?_, by simpa using hbase, ?_, hsaved⟩)
    · rw [State.pc_next, State.pc_setReg, State.pc_next, State.pc_setReg, hpc']
      omega
    · simp [hsp₂, hdepth, linkWord, low, savedSpace, wordSize]
      omega

/-- **The epilogue drops the frame**, wherever the stack ends. -/
theorem closes (hw : words A.retWord = true ∧ words A.linkWord = true)
    (hmain : A.routine.fn.isMain = false) (hret : 0 ≤ A.ret) (hfp : s.regs .fp = A.base)
    (hsaved : A.Saved s.mem) (top : Int) :
    m.Runs words top (fun s' => A.Left s' ∧ s'.regs .v0 = s.regs .v0 ∧ s'.mem = s.mem)
      A.routine.closing s := by
  obtain ⟨hret', hlink'⟩ := hw
  obtain ⟨n, hn⟩ := Int.eq_ofNat_of_zero_le hret
  unfold Routine.closing Code.epilogue
  rw [hmain]
  refine .label (.load (a := A.retWord) ?_ hret' (.set rfl (.load (a := A.linkWord) ?_ hlink'
    (.set rfl (.back (n := n) ?_ ⟨⟨?_, ?_, ?_⟩, ?_, rfl⟩)))))
  · simp [hfp, retWord, ← Int.sub_eq_add_neg]
  · simp [hfp, linkWord]
    omega
  · simp [hsaved.ret, hn]
  · simp [hn]
  · simp [hsaved.link]
  · simp [hfp]
  · simp

/-- At the end of `main`, the program ends. -/
theorem closes_main (hw : words A.retWord = true ∧ words A.linkWord = true)
    (hmain : A.routine.fn.isMain = true) (hfp : s.regs .fp = A.base) (top : Int) :
    m.Runs words top (fun s' => s'.pc = s.pc + A.routine.closing.length ∧ s'.regs .v0 = 10)
      A.routine.closing s := by
  obtain ⟨hret', hlink'⟩ := hw
  unfold Routine.closing Code.epilogue
  rw [hmain]
  refine .label (.load (a := A.retWord) ?_ hret' (.set rfl (.load (a := A.linkWord) ?_ hlink'
    (.set rfl (.set rfl ⟨?_, ?_⟩)))))
  · simp [hfp, retWord, ← Int.sub_eq_add_neg]
  · simp [hfp, linkWord]
    omega
  · simp
  · simp

end Activation

end FlatC
