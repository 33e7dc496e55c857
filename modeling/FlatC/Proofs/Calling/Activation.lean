import FlatC.Proofs.Calling.Frame

/-!
# Calls inside of calls

While a function is carried out, it may call others. Each of them has an activation of its own, which
lies below the operands of the one that made the call, and that one waits for it
(`Activation.Awaits`). `Running` says that the machine carries out an activation, with those that
wait in a row down to the first one. No step leaves it but the return from the first one
(`Running.step`), and nothing above the frame of the first one changes outside of the data section.
-/

namespace FlatC

open Machine Layout

variable {m : Machine} {o : Options} {p : Program} {b : Annotations} {words : Int → Bool}

/-- The word at `a` lies in the room that is made in the data section. -/
def Machine.InData (m : Machine) (a : Int) : Prop := ∃ x ∈ m.data, x.hasRoom a = true

/-- At the end of the program, the machine stops. -/
theorem Machine.stepIn_atExit {s : State} (h : m.AtExit s) : m.stepIn words s = none := by
  obtain ⟨note, hcode, hv0⟩ := h
  simp [stepIn, hcode, itemIn, execIn, exec, syscall, hv0]

namespace Routine

variable {r : Routine m o p b}

/-- The words that a function stores to by name belong to variables. -/
theorem keeps (hc : Compiled m o p b) {l : Location}
    (hl : Code.KeepsPlace b (Place.Kept p b r.fn) l) {fp a : Int} (ha : m.place? fp l = some a) :
    r.info.Holds fp a ∨ m.InData a := by
  obtain ⟨q, n, n', hkept, hrun⟩ := hl
  obtain ⟨l', a', hloc, ha', hheld⟩ := hkept.held hc r.mem r.stands.noted fp
  obtain ⟨rfl, -⟩ := Prod.mk.inj (Except.ok.inj ((hloc n).symm.trans hrun))
  obtain rfl := Option.some.inj (ha'.symm.trans ha)
  exact hheld.imp And.right And.right

/-- The instructions of a function are those of its body. -/
theorem modest_of_line {k : Nat} {i : Instr} {note : Option String}
    (h : r.lines[k]? = some (.instr i note)) :
    i.Modest (Code.KeepsPlace b (Place.Kept p b r.fn)) := by
  have hmem := List.mem_of_getElem? h
  unfold lines Code.remark at hmem
  refine r.modest i note ?_
  split at hmem
  · simpa using hmem
  · simpa using hmem

end Routine

namespace Activation

/-! ## A step in an activation -/

/-- The activation can be carried out: its frame lies in the stack, which is apart from the data
section, and there is somewhere to go back to. -/
structure Stands (A : Activation m o p b) (words : Int → Bool) : Prop where
  usable : A.Usable words
  data : ∀ x ∈ m.data, A.base < x.address
  ret : A.routine.fn.isMain = false → 0 ≤ A.ret

/-- `A` has called `B`, and goes on behind the call when `B` has returned. -/
structure Awaits (A B : Activation m o p b) (mem : Int → Int) : Prop where
  line : ∃ k, k < A.routine.lines.length ∧ B.ret = (A.routine.start + k : Nat) ∧
    B.base = A.low - wordSize * A.routine.depth k
  link : B.link = A.base
  saved : A.Saved mem

variable {A B : Activation m o p b} {s s' : State} {k : Nat} {mem mem' : Int → Int}

theorem Stands.not_inData (h : A.Stands words) {a : Int} (ha : a ≤ A.base) : ¬ m.InData a := by
  rintro ⟨x, hx, hroom⟩
  have := h.data x hx
  have := Entry.le_of_hasRoom hroom
  omega

theorem low_lt (A : Activation m o p b) :
    A.low < A.linkWord ∧ A.linkWord < A.retWord ∧ A.retWord ≤ A.base := by
  simp only [low, linkWord, retWord, savedSpace, wordSize]
  omega

/-- The words of variables are not those of the saved registers. -/
theorem not_holds (A : Activation m o p b) :
    ¬ A.routine.info.Holds A.base A.retWord ∧ ¬ A.routine.info.Holds A.base A.linkWord := by
  simp only [FnInfo.Holds, retWord, linkWord, savedSpace, wordSize]
  omega

theorem Saved.congr (h : A.Saved mem) (hmem : ∀ a, A.low < a → a ≤ A.base →
    ¬ A.routine.info.Holds A.base a → mem' a = mem a) : A.Saved mem' := by
  obtain ⟨hlow, hlink, hret⟩ := A.low_lt
  constructor
  · rw [hmem A.retWord (by omega) hret A.not_holds.1]
    exact h.ret
  · rw [hmem A.linkWord hlow (by omega) A.not_holds.2]
    exact h.link

namespace Inside

theorem line (h : A.Inside k s) {x : Item} (hx : A.routine.lines[k]? = some x) :
    m.stepIn words s = m.itemIn words s x := by
  rw [stepIn, h.pc, A.routine.seg_lines k h.lt, hx, Option.bind_some]

/-- A step from one line to another one of the same function. -/
theorem go (h : A.Inside k s) (hc : Compiled m o p b) (hA : A.Stands words) {d : Nat}
    (hin : m.Inward (Code.KeepsPlace b (Place.Kept p b A.routine.fn)) (A.routine.depth k) d s s')
    {j : Nat} (hj : j < A.routine.lines.length) (hpc : s'.pc = A.routine.start + j)
    (hd : A.routine.depth j = d) :
    A.Inside j s' ∧ ∀ a, A.base < a → ¬ m.InData a → s'.mem a = s.mem a := by
  have hlow := A.low_lt
  have hle : s.regs .sp ≤ A.low := by
    rw [h.sp]
    simp only [wordSize]
    omega
  have hmem : ∀ a, s.regs .sp < a → ¬ A.routine.info.Holds A.base a → ¬ m.InData a →
      s'.mem a = s.mem a := by
    intro a hsp hnot hdata
    rcases hin.mem a with heq | rfl | ⟨l, hl, ha⟩
    · exact heq
    · exact absurd hsp (Int.lt_irrefl _)
    · rw [h.fp] at ha
      exact absurd (Routine.keeps hc hl ha) (by simp [hnot, hdata])
  refine ⟨⟨hj, hpc, hin.fp.trans h.fp, ?_, h.saved.congr fun a ha hbase hnot => ?_⟩, ?_⟩
  · have hsp := hin.sp
    rw [h.sp] at hsp
    rw [hd]
    simp only [wordSize] at hsp ⊢
    omega
  · exact hmem a (by omega) hnot (hA.not_inData hbase)
  · intro a ha hdata
    refine hmem a (by omega) ?_ hdata
    simp only [FnInfo.Holds, savedSpace]
    omega

/-- A call leads to the label of a function, with the arguments on the stack. -/
theorem call (h : A.Inside k s) (hc : Compiled m o p b)
    (hall : ∀ f, Decl.fn f ∈ p.decls → ∃ r : Routine m o p b, r.fn = f)
    (hk : k + 1 < A.routine.lines.length) {l : String}
    (hrise : (Instr.jal l).rise? p (A.routine.depth k) = some (A.routine.depth (k + 1)))
    (hs : m.exec s (.jal l) = some s') :
    ∃ B, A.Awaits B s'.mem ∧ B.Called s' ∧ s'.mem = s.mem := by
  obtain ⟨n, hn, hd⟩ : ∃ n, p.formals? l = some n ∧
      A.routine.depth (k + 1) + n = A.routine.depth k := by
    rcases Instr.rise?_cases hrise with ⟨heq, -⟩ | ⟨heq, -⟩ | ⟨l', n, heq, hn, hd⟩ | ⟨-, -, hnot⟩
    · cases heq
    · cases heq
    · exact ⟨n, Instr.jal.inj heq ▸ hn, hd⟩
    · exact absurd rfl (hnot l)
  obtain ⟨g, hg, hlen⟩ := Option.map_eq_some_iff.1 hn
  have hlabel : Label.function g.name.name = l := by simpa using List.find?_some hg
  obtain ⟨r, rfl⟩ := hall g (Program.mem_functions.1 (List.mem_of_find?_eq_some hg))
  have hat : m.position? l = some r.entry := by
    rw [← hlabel]
    exact position?_eq hc.labels r.stands.label.head
  obtain rfl : (s.setReg .ra (s.pc + 1)).jump r.entry = s' := by
    simpa [exec, hat] using hs
  let B : Activation m o p b :=
    ⟨r, A.low - wordSize * A.routine.depth (k + 1), s.pc + 1, A.base⟩
  refine ⟨B, ⟨⟨k + 1, hk, ?_, rfl⟩, rfl, h.saved⟩, ⟨rfl, ?_, by simp [B], by simp [B, h.fp]⟩, rfl⟩
  · show (s.pc + 1 : Int) = _
    rw [h.pc]
    omega
  · have hformal := (r.spaces hc).1
    simp only [State.regs_jump, State.regs_setReg, h.sp, Activation.retWord, B, hformal, hlen,
      wordSize]
    simp
    omega

/-- A step from one line of a function to another one, or into a function that is called. -/
theorem step (h : A.Inside k s) (hc : Compiled m o p b)
    (hall : ∀ f, Decl.fn f ∈ p.decls → ∃ r : Routine m o p b, r.fn = f) (hA : A.Stands words)
    (hk : k + 1 < A.routine.lines.length) (hs : m.stepIn words s = some s') :
    (∃ j, A.Inside j s' ∧ ∀ a, A.base < a → ¬ m.InData a → s'.mem a = s.mem a) ∨
      ∃ B, A.Awaits B s'.mem ∧ B.Called s' ∧ s'.mem = s.mem := by
  obtain ⟨x, hx⟩ : ∃ x, A.routine.lines[k]? = some x :=
    ⟨_, List.getElem?_eq_getElem (Nat.lt_of_succ_lt hk)⟩
  have hrise := A.routine.depths.moves k x hx
  rw [h.line hx] at hs
  -- a line that is no instruction is passed over
  have hskip : x.rise? p (A.routine.depth k) = some (A.routine.depth k) →
      m.itemIn words s x = some s.next →
      A.Inside (k + 1) s' ∧ ∀ a, A.base < a → ¬ m.InData a → s'.mem a = s.mem a := by
    intro hsame hnext
    have hd := Option.some.inj (hsame.symm.trans hrise)
    obtain rfl := Option.some.inj (hnext.symm.trans hs)
    exact h.go hc hA (.of_regs rfl rfl rfl) hk (by simp [h.pc, Nat.add_assoc]) hd.symm
  cases x with
  | instr i note =>
    by_cases hcall : ∃ l, i = .jal l
    · obtain ⟨l, rfl⟩ := hcall
      exact .inr (h.call hc hall hk hrise hs)
    · have hmodest := Routine.modest_of_line hx
      obtain ⟨hin, hpc | ⟨l, href, hpos⟩⟩ :=
        hmodest.inward hrise (fun l hl => hcall ⟨l, hl⟩) hs
      · exact .inl ⟨k + 1, h.go hc hA hin hk (by rw [hpc, h.pc, Nat.add_assoc]) rfl⟩
      · obtain ⟨⟨j, hj⟩, hdepth⟩ := A.routine.depths.jumps k i note l hx href
        obtain ⟨hlt, -⟩ := List.getElem?_eq_some_iff.1 hj
        have hat := position?_eq hc.labels ((A.routine.seg_lines j hlt).trans hj)
        exact .inl ⟨j, h.go hc hA hin hlt (Option.some.inj (hpos.symm.trans hat))
          ((hdepth j hj).trans (Instr.rise?_jump href hrise).symm)⟩
  | _ => exact .inl ⟨_, hskip rfl rfl⟩

end Inside

/-! ## Where the machine is -/

/-- The function has come to its end: it has gone back to its caller, or the program is about to end
behind it. -/
def Over (A : Activation m o p b) (s : State) : Prop :=
  A.routine.fn.isMain = false ∧ A.Left s ∨ m.AtExit s ∧ s.pc + 1 = A.routine.finish

/-- Where the machine is while it carries out `A`: in the prologue or the epilogue, in front of a line
of the body, or at the end of the program. -/
inductive Phase (A : Activation m o p b) (words : Int → Bool) (s : State) : Prop
  | straight {c : Code} (hne : c ≠ []) (hseg : m.Seg s.pc c)
      (hat : A.routine.entry ≤ s.pc ∧ s.pc + c.length = A.routine.start ∨
        A.routine.stop < s.pc ∧ s.pc + c.length = A.routine.stop + A.routine.closing.length)
      (hruns : m.Runs words A.base (fun s' => A.Inside 0 s' ∨ A.Over s') c s)
  | inside {k : Nat} (h : A.Inside k s)
  | ended (h : m.AtExit s) (hpc : s.pc + 1 = A.routine.finish)

theorem Called.phase (h : A.Called s) (hc : Compiled m o p b) (hA : A.Stands words) :
    A.Phase words s := by
  have hlen := A.routine.entry_add
  rw [← h.pc] at hlen
  refine .straight (List.cons_ne_nil _ _) (h.pc ▸ A.routine.seg_opening)
    (.inl ⟨Nat.le_of_eq h.pc.symm, hlen⟩) ?_
  exact ((h.opens hc hA.usable).lift A.low_lt.2.2).mono fun _ => .inl

/-- Behind the last line of a function stands its epilogue. -/
theorem Inside.closes (h : A.Inside k s) (hc : Compiled m o p b) (hA : A.Stands words)
    (hk : k + 1 = A.routine.lines.length) :
    s.pc = A.routine.stop ∧
      m.Runs words A.base (fun s' => A.Inside 0 s' ∨ A.Over s') A.routine.closing s := by
  have hpc : s.pc = A.routine.stop := by
    have := A.routine.start_add
    rw [h.pc]
    omega
  have hwords := hA.usable.saved hc
  refine ⟨hpc, ?_⟩
  cases hmain : A.routine.fn.isMain with
  | false =>
    refine (Activation.closes hwords hmain (hA.ret hmain) h.fp h.saved _).mono fun _ hs => ?_
    exact .inr (.inl ⟨hmain, hs.1⟩)
  | true =>
    refine (closes_main hwords hmain h.fp _).mono fun s' ⟨hpc', hv0⟩ => ?_
    have hexit := A.routine.stands.exit
    rw [hpc, Routine.closing, hmain] at hpc'
    rw [hmain] at hexit
    refine .inr (.inr ⟨⟨none, ?_, hv0⟩, ?_⟩)
    · rw [hpc']
      exact hexit 6 (by simp [Code.epilogue])
    · rw [hpc', Routine.finish, hmain]
      simp [Code.epilogue, Nat.add_assoc]

/-- **A step of an activation** goes on in it, leaves it, or calls a function. -/
theorem Phase.step (h : A.Phase words s) (hc : Compiled m o p b)
    (hall : ∀ f, Decl.fn f ∈ p.decls → ∃ r : Routine m o p b, r.fn = f) (hA : A.Stands words)
    (hs : m.stepIn words s = some s') :
    ((A.Phase words s' ∨ A.routine.fn.isMain = false ∧ A.Left s') ∧
        ∀ a, A.base < a → ¬ m.InData a → s'.mem a = s.mem a) ∨
      ∃ B, A.Awaits B s'.mem ∧ B.Called s' ∧ s'.mem = s.mem := by
  -- straight code does one step after the other
  have hstraight : ∀ {c : Code}, c ≠ [] → m.Seg s.pc c →
      (A.routine.entry ≤ s.pc ∧ s.pc + c.length = A.routine.start ∨
        A.routine.stop ≤ s.pc ∧ s.pc + c.length = A.routine.stop + A.routine.closing.length) →
      m.Runs words A.base (fun s' => A.Inside 0 s' ∨ A.Over s') c s →
      (A.Phase words s' ∨ A.routine.fn.isMain = false ∧ A.Left s') ∧
        ∀ a, A.base < a → ¬ m.InData a → s'.mem a = s.mem a := by
    intro c hne hseg hat hruns
    obtain ⟨i, c, rfl⟩ := List.exists_cons_of_ne_nil hne
    obtain ⟨s₁, hi, hmem, hpc, hrest⟩ := hruns
    rw [hseg.stepIn rfl] at hs
    obtain rfl := Option.some.inj (hi.symm.trans hs)
    refine ⟨?_, fun a ha _ => hmem a ha⟩
    by_cases hc : c = []
    · subst hc
      rcases hrest with hinside | hleft | ⟨hexit, hend⟩
      · exact .inl (.inside hinside)
      · exact .inr hleft
      · exact .inl (.ended hexit hend)
    · have hpc := hpc hc
      rw [List.length_cons] at hat
      exact .inl (.straight hc (hpc ▸ hseg.tail) (by omega) hrest)
  cases h with
  | straight hne hseg hat hruns =>
    exact .inl (hstraight hne hseg (hat.imp_right (And.imp_left Nat.le_of_lt)) hruns)
  | @inside k h =>
    have hlt := h.lt
    by_cases hk : k + 1 = A.routine.lines.length
    · obtain ⟨hpc, hruns⟩ := h.closes hc hA hk
      refine .inl (hstraight (by simp [Routine.closing]) (hpc ▸ A.routine.seg_closing) ?_ hruns)
      exact .inr ⟨Nat.le_of_eq hpc.symm, by rw [hpc]⟩
    · rcases h.step hc hall hA (by omega) hs with ⟨j, hj, hmem⟩ | hcall
      · exact .inl ⟨.inl (.inside hj), hmem⟩
      · exact .inr hcall
  | ended h =>
    rw [stepIn_atExit h] at hs
    cases hs

/-- In the body of a function, the machine is in an activation of that function, in front of a
line. -/
theorem Phase.inside_of_pc (h : A.Phase words s) (hc : Compiled m o p b) {r : Routine m o p b}
    (hpc : r.start ≤ s.pc ∧ s.pc ≤ r.stop) : A.routine.entry = r.entry ∧ ∃ k, A.Inside k s := by
  have hr := r.entry_lt
  have hA := A.routine.entry_lt
  have hclosing : A.routine.stop + A.routine.closing.length ≤ A.routine.finish ∧
      1 < A.routine.closing.length := by
    simp [Routine.closing, Routine.finish, Code.epilogue]
    omega
  have hfn : A.routine.entry ≤ s.pc ∧ s.pc < A.routine.finish → A.routine.entry = r.entry ∧
      A.routine.start = r.start ∧ A.routine.stop = r.stop := by
    intro hat
    have hentry : A.routine.entry = r.entry := Routine.eq_of_item hc hat (by omega)
    exact ⟨hentry, (Routine.eq_of_entry hc hentry).2.2⟩
  cases h with
  | @straight c hne hseg hat hruns =>
    have := List.length_pos_of_ne_nil hne
    have := hfn (by omega)
    omega
  | @inside k h =>
    have hlt := h.lt
    have hstart := A.routine.start_add
    have hk := h.pc
    exact ⟨(hfn (by omega)).1, k, h⟩
  | ended h hlast =>
    have := hfn (by omega)
    omega

/-! ## Activations that wait -/

theorem Awaits.congr (h : B.Awaits A mem) (hB : B.Stands words)
    (hmem : ∀ a, A.base < a → ¬ m.InData a → mem' a = mem a) : B.Awaits A mem' := by
  refine ⟨h.line, h.link, h.saved.congr fun a ha hbase _ => hmem a ?_ (hB.not_inData hbase)⟩
  obtain ⟨k, -, -, hk⟩ := h.line
  simp only [wordSize] at hk
  omega

/-- Whoever is called lies below its caller, by whole words. -/
theorem Awaits.base_eq (h : B.Awaits A mem) (hc : Compiled m o p b) :
    ∃ j : Nat, A.base = B.base - wordSize * j ∧ 0 < j := by
  obtain ⟨k, -, -, hk⟩ := h.line
  obtain ⟨hformal, c, hlocal⟩ := B.routine.spaces hc
  refine ⟨B.routine.fn.params.length + 2 + c + B.routine.depth k, ?_, by omega⟩
  rw [hk, low, hformal, hlocal]
  simp only [savedSpace, wordSize]
  omega

theorem Awaits.stands (h : B.Awaits A mem) (hc : Compiled m o p b) (hB : B.Stands words) :
    A.Stands words := by
  obtain ⟨j, hj, -⟩ := h.base_eq hc
  obtain ⟨k, -, hret, -⟩ := h.line
  refine ⟨fun i => ?_, fun x hx => ?_, fun _ => ?_⟩
  · have heq : A.base - wordSize * i = B.base - wordSize * (j + i : Nat) := by
      rw [hj]
      simp only [wordSize]
      omega
    rw [heq]
    exact hB.usable _
  · have := hB.data x hx
    simp only [wordSize] at hj
    omega
  · rw [hret]
    omega

/-- The caller goes on behind its call, with the arguments off the stack and in its own frame. -/
theorem Awaits.resume (h : B.Awaits A s.mem) (hleft : A.Left s) : ∃ k, B.Inside k s := by
  obtain ⟨k, hk, hret, hbase⟩ := h.line
  have hpc := hleft.pc
  rw [hret] at hpc
  exact ⟨k, hk, Int.ofNat.inj hpc, hleft.fp.trans h.link, hleft.sp.trans hbase, h.saved⟩

/-- `A` has been called by the first activation of `rest`, that one by the next, and so on, down to
the activation `A₀`. -/
def Rests (A₀ : Activation m o p b) (mem : Int → Int) :
    Activation m o p b → List (Activation m o p b) → Prop
  | A, [] => A = A₀
  | A, B :: rest => B.Awaits A mem ∧ Rests A₀ mem B rest

variable {A₀ : Activation m o p b} {rest : List (Activation m o p b)}

theorem Rests.stands (h : Rests A₀ mem A rest) (hc : Compiled m o p b) (h₀ : A₀.Stands words) :
    A.Stands words ∧ A.base ≤ A₀.base := by
  induction rest generalizing A with
  | nil =>
    obtain rfl : A = A₀ := h
    exact ⟨h₀, Int.le_refl _⟩
  | cons B rest ih =>
    obtain ⟨hawaits, hrest⟩ := h
    obtain ⟨hB, hle⟩ := ih hrest
    obtain ⟨j, hj, -⟩ := hawaits.base_eq hc
    refine ⟨hawaits.stands hc hB, ?_⟩
    simp only [wordSize] at hj
    omega

/-- What happens at or below the frame of `A` does not concern the activations that wait. -/
theorem Rests.congr (h : Rests A₀ mem A rest) (hc : Compiled m o p b) (h₀ : A₀.Stands words)
    (hmem : ∀ a, A.base < a → ¬ m.InData a → mem' a = mem a) : Rests A₀ mem' A rest := by
  induction rest generalizing A with
  | nil => exact h
  | cons B rest ih =>
    obtain ⟨hawaits, hrest⟩ := h
    obtain ⟨hB, -⟩ := hrest.stands hc h₀
    obtain ⟨j, hj, -⟩ := hawaits.base_eq hc
    refine ⟨hawaits.congr hB hmem, ih hrest fun a ha => hmem a ?_⟩
    simp only [wordSize] at hj
    omega

/-! ## Runs -/

/-- The machine carries out the call `A₀`: it is in the activation `A`, for which those of `rest`
wait. The memory above the frame of `A₀` is still `mem`, but for the data section. -/
structure Running (A₀ : Activation m o p b) (words : Int → Bool) (mem : Int → Int)
    (A : Activation m o p b) (rest : List (Activation m o p b)) (s : State) : Prop where
  phase : A.Phase words s
  rests : Rests A₀ s.mem A rest
  kept : ∀ a, A₀.base < a → ¬ m.InData a → s.mem a = mem a

/-- In the frame of the first activation, the machine carries out that activation and no other one. -/
theorem Running.at_stop (h : Running A₀ words mem A rest s) (hc : Compiled m o p b)
    (h₀ : A₀.Stands words) (hpc : s.pc = A₀.routine.stop) (hfp : s.regs .fp = A₀.base) :
    A₀.Saved s.mem := by
  have hstop := A₀.routine.entry_lt
  obtain ⟨-, k, hinside⟩ := h.phase.inside_of_pc hc ⟨by omega, Nat.le_of_eq hpc⟩
  have hrests := h.rests
  cases rest with
  | nil =>
    obtain rfl : A = A₀ := hrests
    exact hinside.saved
  | cons B rest =>
    obtain ⟨hawaits, hrest⟩ := hrests
    obtain ⟨j, hj, hpos⟩ := hawaits.base_eq hc
    have hle := (hrest.stands hc h₀).2
    have hbase := hinside.fp
    simp only [wordSize] at hj
    omega

/-- The call `A₀` is over, and the machine goes on behind it. Nobody returns from `main`. -/
structure Returned (A₀ : Activation m o p b) (mem : Int → Int) (s : State) : Prop where
  called : A₀.routine.fn.isMain = false
  left : A₀.Left s
  kept : ∀ a, A₀.base < a → ¬ m.InData a → s.mem a = mem a

/-- **No step leaves a call** but the return from it. -/
theorem Running.step (h : Running A₀ words mem A rest s) (hc : Compiled m o p b)
    (hall : ∀ f, Decl.fn f ∈ p.decls → ∃ r : Routine m o p b, r.fn = f) (h₀ : A₀.Stands words)
    (hs : m.stepIn words s = some s') :
    (∃ A rest, Running A₀ words mem A rest s') ∨ Returned A₀ mem s' := by
  obtain ⟨hA, hle⟩ := h.rests.stands hc h₀
  rcases h.phase.step hc hall hA hs with ⟨hphase, hmem⟩ | ⟨B, hawaits, hcalled, hmem⟩
  · have hkept : ∀ a, A₀.base < a → ¬ m.InData a → s'.mem a = mem a := fun a ha hdata =>
      (hmem a (by omega) hdata).trans (h.kept a ha hdata)
    have hrests := h.rests.congr hc h₀ hmem
    rcases hphase with hphase | ⟨hmain, hleft⟩
    · exact .inl ⟨A, rest, hphase, hrests, hkept⟩
    · cases rest with
      | nil =>
        obtain rfl : A = A₀ := hrests
        exact .inr ⟨hmain, hleft, hkept⟩
      | cons B rest =>
        obtain ⟨hawaits, hrest⟩ := hrests
        obtain ⟨k, hinside⟩ := hawaits.resume hleft
        exact .inl ⟨B, rest, .inside hinside, hrest, hkept⟩
  · refine .inl ⟨B, A :: rest, hcalled.phase hc (hawaits.stands hc hA), ⟨hawaits, ?_⟩, ?_⟩
    · rw [hmem]
      exact h.rests
    · rw [hmem]
      exact h.kept

/-- **Whatever the machine does during a call**, it stays in the call until it returns from it. -/
theorem Running.steps (h : Running A₀ words mem A rest s) (hc : Compiled m o p b)
    (hall : ∀ f, Decl.fn f ∈ p.decls → ∃ r : Routine m o p b, r.fn = f) (h₀ : A₀.Stands words)
    (hs : m.StepsIn words s s') :
    (∃ A rest, Running A₀ words mem A rest s') ∨
      ∃ t, m.StepsIn words s t ∧ Returned A₀ mem t ∧ m.StepsIn words t s' := by
  induction hs with
  | refl => exact .inl ⟨A, rest, h⟩
  | tail hsteps hstep ih =>
    rcases ih with ⟨A, rest, hrun⟩ | ⟨t, hto, ht, hfrom⟩
    · rcases hrun.step hc hall h₀ hstep with hrun | hret
      · exact .inl hrun
      · exact .inr ⟨_, hsteps.tail hstep, hret, .refl⟩
    · exact .inr ⟨t, hto, ht, hfrom.tail hstep⟩

/-- A call starts at the label of the function. -/
theorem Called.running (h : A.Called s) (hc : Compiled m o p b) (hA : A.Stands words) :
    Running A words s.mem A [] s :=
  ⟨h.phase hc hA, rfl, fun _ _ _ => rfl⟩

end Activation

end FlatC
