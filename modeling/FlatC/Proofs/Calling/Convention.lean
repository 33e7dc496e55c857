import FlatC.Proofs.Calling.Activation
import FlatC.Proofs.Layout.Frames

/-!
# The calling convention

A function is called with its arguments pushed one after the other from some address on, which is
where its frame starts. `compile_calls` says what every function but `main` makes of that, in every
program that is compiled and in whose code no label is defined twice: its prologue, its epilogue and
the stores of its body agree on the frame, so the caller goes on behind the call with the arguments
off the stack, whatever other calls are made on the way.
-/

namespace FlatC

open Machine Layout

variable {m : Machine} {o : Options} {p : Program} {b : Annotations}

namespace Routine

variable (r : Routine m o p b)

/-- The arguments have been pushed in order, the first at `base`. The machine can use the stack from
there on, which is apart from the data section. -/
structure Pushed (words : Int → Bool) (base : Int) (args : List Int) (s : State) : Prop where
  count : args.length = r.fn.params.length
  sp : s.regs .sp = base - wordSize * args.length
  args : ∀ (i : Nat) x, args[i]? = some x → s.mem (base - wordSize * i) = x
  stack : ∀ k : Nat, words (base - wordSize * k) = true
  data : ∀ x ∈ m.data, base < x.address

/-- The machine stands at the label of the function, with its arguments on the stack and with an
address to go back to. -/
structure Entered (words : Int → Bool) (base : Int) (args : List Int) (s : State) : Prop where
  pushed : r.Pushed words base args s
  pc : m.position? (Label.function r.fn.name.name) = some s.pc
  ra : 0 ≤ s.regs .ra

/-- What the prologue has made of the state `s` at the label. The last word of the frame is the one
right above the stack. -/
structure FrameMade (base : Int) (args : List Int) (s s' : State) : Prop where
  pc : s'.pc = r.start
  fp : s'.regs .fp = base
  arg : ∀ (i : Nat) q x, r.fn.params[i]? = some q → args[i]? = some x →
    ∃ sym, b.symbolOf? q.name.id = some sym ∧ sym.isGlobal = false ∧
      s'.mem (s'.regs .fp + sym.offset) = x
  ret : s'.mem (s'.regs .fp - r.info.formalSpace) = s.regs .ra
  link : s'.mem (s'.regs .fp - (r.info.formalSpace + wordSize)) = s.regs .fp
  sp : s'.regs .sp = base - wordSize * r.fn.params.length - 2 * wordSize - r.info.localSpace
  last : (b.frameWords r.fn).getLast? = some (s'.regs .sp + wordSize - s'.regs .fp)

/-- The call that is made in the state `s`, with the first argument at `base`. -/
def call (base : Int) (s : State) : Activation m o p b := ⟨r, base, s.regs .ra, s.regs .fp⟩

/-- The function keeps the calling convention. -/
structure Keeps : Prop where
  formals : r.info.formalSpace = wordSize * r.fn.params.length
  /-- The call itself. -/
  jump : ∀ words base args s note, r.Pushed words base args s →
    m.code[s.pc]? = some (.instr (.jal (Label.function r.fn.name.name)) note) →
    ∃ s', m.stepIn words s = some s' ∧ r.Entered words base args s' ∧ s'.regs .ra = s.pc + 1 ∧
      s'.regs .fp = s.regs .fp ∧ s'.mem = s.mem
  prologue : ∀ words base args s, r.Entered words base args s →
    ∃ s', m.StepsIn words s s' ∧ r.FrameMade base args s s'
  /-- At the label behind the body, nothing matters but the frame pointer and the two words. -/
  epilogue : ∀ words base (ret : Nat) link s, s.pc = r.stop → s.regs .fp = base →
    s.mem (base - r.info.formalSpace) = (ret : Int) →
    s.mem (base - (r.info.formalSpace + wordSize)) = link →
    words (base - r.info.formalSpace) = true →
    words (base - (r.info.formalSpace + wordSize)) = true →
    ∃ s', m.StepsIn words s s' ∧ s'.pc = ret ∧ s'.regs .fp = link ∧ s'.regs .sp = base ∧
      s'.regs .v0 = s.regs .v0 ∧ s'.mem = s.mem
  /-- No store of the body goes to the two words. -/
  stores : ∀ (k : Nat) q a note, r.code[k]? = some (.instr (.sw q a) note) → ∀ s : State,
    s.regs .sp ≤ s.regs .fp - r.info.formalSpace - 2 * wordSize - r.info.localSpace →
    (∀ x ∈ m.data, s.regs .fp < x.address) →
    m.target? s a ≠ some (s.regs .fp - r.info.formalSpace) ∧
      m.target? s a ≠ some (s.regs .fp - (r.info.formalSpace + wordSize))
  /-- Every state that is reached belongs to the call, or lies behind the return from it. At the label
  behind the body, the two words are what they were. -/
  returns : ∀ words base args s, r.Entered words base args s → ∀ s', m.StepsIn words s s' →
    ((∃ A rest, (r.call base s).Running words s.mem A rest s') ∧
      (s'.pc = r.stop → s'.regs .fp = base → s'.mem (base - r.info.formalSpace) = s.regs .ra ∧
        s'.mem (base - (r.info.formalSpace + wordSize)) = s.regs .fp)) ∨
      ∃ t, m.StepsIn words s t ∧ (r.call base s).Returned s.mem t ∧ m.StepsIn words t s'

variable {r} {words : Int → Bool} {base : Int} {args : List Int} {s s' : State}

theorem Pushed.sp_eq (h : r.Pushed words base args s) (hc : Compiled m o p b) :
    s.regs .sp = base - r.info.formalSpace := by
  rw [h.sp, h.count, (r.spaces hc).1]
  push_cast
  rfl

/-- A call leads to the label of the function. -/
theorem Pushed.jump (h : r.Pushed words base args s) (hc : Compiled m o p b) {note : Option String}
    (hcode : m.code[s.pc]? = some (.instr (.jal (Label.function r.fn.name.name)) note)) :
    ∃ s', m.stepIn words s = some s' ∧ r.Entered words base args s' ∧ s'.regs .ra = s.pc + 1 ∧
      s'.regs .fp = s.regs .fp ∧ s'.mem = s.mem := by
  have hat := position?_eq hc.labels r.stands.label.head
  refine ⟨(s.setReg .ra (s.pc + 1)).jump r.entry, ?_, ⟨⟨h.count, ?_, h.args, h.stack, h.data⟩, hat,
    ?_⟩, by simp, by simp, rfl⟩
  · simp [stepIn, hcode, itemIn, execIn, exec, hat]
  · simpa using h.sp
  · simp
    omega

theorem Entered.called (h : r.Entered words base args s) (hc : Compiled m o p b) :
    (r.call base s).Called s := by
  have hat := position?_eq hc.labels r.stands.label.head
  exact ⟨Option.some.inj (h.pc.symm.trans hat), h.pushed.sp_eq hc, rfl, rfl⟩

theorem Entered.stands (h : r.Entered words base args s) : (r.call base s).Stands words :=
  ⟨h.pushed.stack, h.pushed.data, fun _ => h.ra⟩

/-- The word of a parameter lies in the frame. -/
theorem param_symbol (hc : Compiled m o p b) {i : Nat} {q : Param} (hq : r.fn.params[i]? = some q) :
    ∃ sym, b.symbolOf? q.name.id = some sym ∧ sym.isGlobal = false ∧
      sym.offset = -((wordSize * i : Nat) : Int) := by
  obtain ⟨n, hn⟩ := hc.ready.fnAt r.mem
  obtain ⟨s, hs, -, hglobal⟩ := (hn.params hq).symbolOf? hc.ready.resolved
  obtain ⟨s', hs', -, hoffset⟩ := (hc.ready.tiles r.mem).param i q hq
  obtain rfl := Option.some.inj (hs.symm.trans hs')
  exact ⟨s, hs, hglobal, hoffset⟩

/-- The last word of a frame lies right above the stack. -/
theorem frameWords_getLast? (hc : Compiled m o p b) (base : Int) :
    (b.frameWords r.fn).getLast? =
      some (base - r.info.formalSpace - savedSpace - r.info.localSpace + wordSize - base) := by
  obtain ⟨⟨s, info, hs, hinfo, hformal, hlocal⟩, -, -, hwords, -⟩ := hc.ready.tiles r.mem
  have hnoted := r.stands.noted
  rw [hs, Option.bind_some, hinfo] at hnoted
  obtain rfl := Option.some.inj hnoted
  have hdvd : wordSize ∣ r.info.formalSpace + wordSize + r.info.localSpace :=
    Nat.dvd_add (Nat.dvd_add (hformal ▸ Nat.dvd_mul_right _ _) (Nat.dvd_refl _)) (r.spaces hc).2
  have hbytes : r.info.formalSpace + savedSpace + r.info.localSpace =
      r.info.formalSpace + wordSize + r.info.localSpace + wordSize := by
    simp only [savedSpace]
    omega
  rw [hwords, ← hlocal, ← hformal, hbytes, getLast?_wordsBelow hdvd]
  simp only [savedSpace, wordSize, Option.some.injEq]
  omega

theorem Entered.prologue (h : r.Entered words base args s) (hc : Compiled m o p b) :
    ∃ s', m.StepsIn words s s' ∧ r.FrameMade base args s s' := by
  have hcalled := h.called hc
  obtain ⟨s', hsteps, hmem, hinside⟩ :=
    (hcalled.opens hc h.stands.usable).steps (hcalled.pc ▸ r.seg_opening)
  have hformal := (r.spaces hc).1
  have hfp : s'.regs .fp = base := hinside.fp
  have hsp : s'.regs .sp = base - r.info.formalSpace - savedSpace - r.info.localSpace -
      wordSize * (r.depth 0 : Nat) := hinside.sp
  rw [r.depths.start, Int.natCast_zero, Int.mul_zero, Int.sub_zero] at hsp
  refine ⟨s', hsteps, hinside.pc, hfp, fun i q x hq hx => ?_, ?_, ?_, ?_, ?_⟩
  · obtain ⟨sym, hsym, hglobal, hoffset⟩ := param_symbol hc hq
    refine ⟨sym, hsym, hglobal, ?_⟩
    have hi := (List.getElem?_eq_some_iff.1 hq).1
    have hat : s'.regs .fp + sym.offset = base - wordSize * i := by
      rw [hfp, hoffset]
      push_cast
      omega
    rw [hat, ← h.pushed.args i x hx]
    refine hmem _ ?_
    show base - (r.info.formalSpace : Int) < base - wordSize * i
    rw [hformal]
    simp only [wordSize]
    omega
  · rw [hfp]
    exact hinside.saved.ret
  · rw [hfp, ← Int.sub_sub]
    exact hinside.saved.link
  · rw [hsp, hformal]
    simp only [savedSpace, wordSize]
    omega
  · rw [hsp, hfp]
    exact frameWords_getLast? hc base

/-- No store of a function goes where the caller's registers are saved. -/
theorem store_apart (hc : Compiled m o p b) {q : Reg} {a : Address} {note : Option String}
    (hi : Item.instr (.sw q a) note ∈ r.code)
    (hsp : s.regs .sp ≤ s.regs .fp - r.info.formalSpace - 2 * wordSize - r.info.localSpace)
    (hdata : ∀ x ∈ m.data, s.regs .fp < x.address) :
    m.target? s a ≠ some (s.regs .fp - r.info.formalSpace) ∧
      m.target? s a ≠ some (s.regs .fp - (r.info.formalSpace + wordSize)) := by
  simp only [wordSize] at hsp ⊢
  rcases r.modest _ _ hi with rfl | ⟨l, hl, rfl⟩
  · simp only [target?, Int.add_zero, ne_eq, Option.some.injEq]
    omega
  · rw [target?_address]
    refine ⟨fun ha => ?_, fun ha => ?_⟩
    all_goals
      rcases keeps hc hl ha with hheld | ⟨x, hx, hroom⟩
      · simp only [FnInfo.Holds, savedSpace, wordSize] at hheld
        omega
      · have := hdata x hx
        have := Entry.le_of_hasRoom hroom
        omega

/-- Every function but `main` keeps the calling convention. -/
theorem keeps_convention (r : Routine m o p b) (hc : Compiled m o p b)
    (hall : ∀ f, Decl.fn f ∈ p.decls → ∃ r : Routine m o p b, r.fn = f)
    (hmain : r.fn.isMain = false) : r.Keeps := by
  refine ⟨(r.spaces hc).1, fun words base args s note h hcode => h.jump hc hcode,
    fun words base args s h => h.prologue hc, ?_, ?_, ?_⟩
  · intro words base ret link s hpc hfp hret hlink hretWord hlinkWord
    rw [← Int.sub_sub] at hlink hlinkWord
    let A : Activation m o p b := ⟨r, base, ret, link⟩
    have hruns := A.closes ⟨hretWord, hlinkWord⟩ hmain (Int.natCast_nonneg ret) hfp ⟨hret, hlink⟩ base
    obtain ⟨s', hsteps, -, hleft, hv0, hmem⟩ := hruns.steps (hpc ▸ r.seg_closing)
    exact ⟨s', hsteps, Int.ofNat.inj hleft.pc, hleft.fp, hleft.sp, hv0, hmem⟩
  · intro k q a note hcode s hsp hdata
    exact store_apart hc (List.mem_of_getElem? hcode) hsp hdata
  · intro words base args s h s' hsteps
    refine (((h.called hc).running hc h.stands).steps hc hall h.stands hsteps).imp_left ?_
    rintro ⟨A, rest, hrun⟩
    refine ⟨⟨A, rest, hrun⟩, fun hpc hfp => ?_⟩
    obtain ⟨hret, hlink⟩ := hrun.at_stop hc h.stands hpc hfp
    rw [← Int.sub_sub]
    exact ⟨hret, hlink⟩

end Routine

/-- The program starts with a function with two parameters. -/
def twoParameters (p : Program) : Bool :=
  match p.decls with
  | .fn f :: _ => !f.isMain && f.params.length == 2
  | _ => false

end FlatC
