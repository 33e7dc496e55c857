import FlatC.Proofs.Simulation.Statement

/-!
# Code for functions

A call makes a frame below the arguments, runs the body, and drops the frame with the arguments in
it. So the machine runs calls as the program does, whatever they call in turn (`callAt_serves`): the
proof is by induction on the fuel.
-/

namespace FlatC

open Machine Layout
open Binding (DeclBound)

variable {m : Machine} {o : Options} {p : Program} {b : Annotations}

/-! ## Frames are made and dropped -/

/-- The caller's registers are saved, and the frame is made. -/
theorem prologue_steps {formal room pos : Nat} {s : State}
    (hseg : m.Seg pos (Code.prologue o formal room)) (hpc : s.pc = pos)
    (hword : m.hasWord (s.regs .sp) = true) (hword' : m.hasWord (s.regs .sp - wordSize) = true) :
    ∃ s', m.Steps s s' ∧ s'.pc = pos + (Code.prologue o formal room).length ∧
      s'.regs .fp = s.regs .sp + formal ∧ s'.regs .sp = s.regs .sp - savedSpace - room ∧
      s'.mem (s.regs .sp) = s.regs .ra ∧ s'.mem (s.regs .sp - wordSize) = s.regs .fp ∧
      (∀ a, a ≠ s.regs .sp → a ≠ s.regs .sp - wordSize → s'.mem a = s.mem a) ∧
      s'.input = s.input ∧ s'.output = s.output := by
  unfold Code.prologue at hseg ⊢
  simp only [List.append_assoc] at hseg
  obtain ⟨hra, hseg⟩ := hseg.append
  obtain ⟨hfp, hseg⟩ := hseg.append
  obtain ⟨hset, hsub⟩ := hseg.append
  have hs1 := hra.push hpc hword
  have hs2 := hfp.push (s := s.push .ra) (by simp [State.push, hpc])
    (by simpa [State.push] using hword')
  have hs3 := hset.step (s := (s.push .ra).push .fp) (by simp [State.push, hpc]) rfl
  have hs := (hs1.trans hs2).trans (.single hs3)
  have hne : s.regs .sp ≠ s.regs .sp - wordSize := by
    simp only [wordSize]
    omega
  by_cases hroom : room = 0
  · refine ⟨_, hs, ?_, ?_, ?_, ?_, ?_, fun a ha ha' => ?_, rfl, rfl⟩
    · simp [State.push, hpc, hroom]
    · simp [State.push, wordSize]
      omega
    · simp [State.push, hroom, savedSpace, wordSize]
      omega
    · simp [State.push, hne]
    · simp [State.push]
    · simp [State.push, ha, ha']
  · simp only [hroom, if_false] at hsub ⊢
    refine ⟨_, hs.trans (.single (hsub.step (by simp [State.push, hpc]) rfl)), ?_, ?_, ?_, ?_, ?_,
      fun a ha ha' => ?_, rfl, rfl⟩
    · simp [State.push, hpc]
    · simp [State.push, wordSize]
      omega
    · simp [State.push, savedSpace, wordSize]
      omega
    · simp [State.push, hne]
    · simp [State.push]
    · simp [State.push, ha, ha']

/-- The caller's registers are restored, and the frame is dropped. -/
theorem restore_steps {formal pos : Nat} {s : State} {c : Code}
    (hseg : m.Seg pos
      ([Code.noted o (.lw .ra (.indexed (-formal) .fp)) "get RA",
        Code.noted o (.move .t0 .fp) "save control link",
        Code.noted o (.lw .fp (.indexed (-formal - wordSize) .fp)) "restore FP",
        Code.noted o (.move .sp .t0) "restore SP"] ++ c)) (hpc : s.pc = pos)
    (hword : m.hasWord (s.regs .fp - formal) = true)
    (hword' : m.hasWord (s.regs .fp - formal - wordSize) = true) :
    ∃ s', m.Steps s s' ∧ s'.pc = pos + 4 ∧ s'.regs .ra = s.mem (s.regs .fp - formal) ∧
      s'.regs .fp = s.mem (s.regs .fp - formal - wordSize) ∧ s'.regs .sp = s.regs .fp ∧
      s'.regs .v0 = s.regs .v0 ∧ s'.mem = s.mem ∧ s'.input = s.input ∧ s'.output = s.output := by
  let s1 := (s.setReg .ra (s.mem (s.regs .fp - formal))).next
  let s2 := (s1.setReg .t0 (s.regs .fp)).next
  let s3 := (s2.setReg .fp (s.mem (s.regs .fp - formal - wordSize))).next
  let s4 := (s3.setReg .sp (s.regs .fp)).next
  have h1 : m.step s = some s1 := hseg.step hpc (by
    simp [Code.noted, item, exec, Machine.word?, target?, ← Int.sub_eq_add_neg, hword, s1])
  have h2 : m.step s1 = some s2 := hseg.tail.step (by simp [s1, hpc]) (by
    simp [Code.noted, item, exec, s1, s2])
  have h3 : m.step s2 = some s3 := hseg.tail.tail.step (by simp [s1, s2, hpc]) (by
    have : s.regs .fp + (-formal - wordSize) = s.regs .fp - formal - wordSize := by omega
    simp [Code.noted, item, exec, Machine.word?, target?, this, hword', s1, s2, s3])
  have h4 : m.step s3 = some s4 := hseg.tail.tail.tail.step (by simp [s1, s2, s3, hpc]) (by
    simp [Code.noted, item, exec, s1, s2, s3, s4])
  refine ⟨s4, (((Steps.single h1).trans (.single h2)).trans (.single h3)).trans (.single h4),
    ?_, ?_, ?_, ?_, ?_, rfl, rfl, rfl⟩ <;> simp [s1, s2, s3, s4, hpc]

/-! ## Calls -/

/-- The parts of a frame are whole words. -/
theorem Compiled.spaces (hc : Compiled m o p b) {f : FnDecl} (hf : Decl.fn f ∈ p.decls)
    {info : FnInfo} (hinfo : (b.symbolOf? f.name.id).bind Symbol.fnInfo? = some info) :
    info.formalSpace = wordSize * f.params.length ∧ wordSize ∣ info.localSpace := by
  obtain ⟨n, hn⟩ := hc.ready.fnAt hf
  obtain ⟨s, info', hs, hinfo', hformal, hlocal⟩ := hn.placed.info
  rw [hc.ready.resolved.symbolOf? hn.link, hs, Option.bind_some, hinfo'] at hinfo
  rw [← Option.some.inj hinfo, hlocal]
  refine ⟨hformal, Annotations.wordSize_dvd_total fun i hi => ?_⟩
  exact (hn.inner (List.getElem?_eq_getElem hi)).wordSize_dvd hc.ready

theorem Frame.spaces (hc : Compiled m o p b) (fr : Frame m p b) :
    fr.info.formalSpace = wordSize * fr.fn.params.length ∧ wordSize ∣ fr.info.localSpace :=
  hc.spaces fr.mem fr.noted

theorem Frame.low_dvd (hc : Compiled m o p b) (fr : Frame m p b) : (wordSize : Int) ∣ fr.low := by
  obtain ⟨hformal, hlocal⟩ := fr.spaces hc
  have hformal' : wordSize ∣ fr.info.formalSpace := hformal ▸ Nat.dvd_mul_right _ _
  refine Int.dvd_sub (Int.dvd_sub (Int.dvd_sub fr.dvd ?_) ⟨2, rfl⟩) ?_
  · exact Int.natCast_dvd_natCast.2 hformal'
  · exact Int.natCast_dvd_natCast.2 hlocal

/-- A parameter holds the argument that is passed for it. -/
theorem lookup_zip {params : List Param} {args : List Atom} {d : VarDecl} {v : Atom}
    (h : ((params.map Param.decl).zip args).lookup d = some v) :
    ∃ (i : Nat) (q : Param), params[i]? = some q ∧ q.decl = d ∧ args[i]? = some v := by
  induction params generalizing args with
  | nil => cases h
  | cons q params ih =>
    cases args with
    | nil => cases h
    | cons a args =>
      rw [List.map_cons, List.zip_cons_cons, List.lookup_cons] at h
      by_cases hd : d = q.decl
      · subst hd
        simp only [beq_self_eq_true, Option.some.injEq] at h
        exact ⟨0, q, rfl, rfl, by simp [h]⟩
      · rw [beq_false_of_ne hd] at h
        obtain ⟨i, q', hq', hd', hv⟩ := ih h
        exact ⟨i + 1, q', hq', hd', hv⟩

theorem arguments_agree (hc : Compiled m o p b) (fr : Frame m p b) {args : List Atom}
    {mem : Int → Int}
    (hargs : ∀ {i : Nat} {v : Atom}, args[i]? = some v → mem (fr.base - wordSize * i) = v.word) :
    InnerAgrees fr (Eval.arguments fr.fn.params args) mem := by
  intro d xs a v hd hx ha hv
  unfold Eval.arguments at hv
  split at hv
  next hxs =>
    obtain rfl : xs = [] := hxs
    obtain ⟨i, q, hq, rfl, hi⟩ := lookup_zip hv
    obtain ⟨n, hn⟩ := hc.ready.fnAt fr.mem
    rw [hn.slot_eq hc.ready.resolved (.param hq)] at ha
    have hat : fr.base - wordSize * i = a := by
      simp only [place?, depth, List.map_nil, List.sum_nil, Nat.add_zero, Option.some.injEq] at ha
      rw [← ha]
      simp only [wordSize]
      omega
    rw [← hat]
    exact hargs hi
  next => cases hv

theorem Compiled.body_nodup (hc : Compiled m o p b) {f : FnDecl} (hf : Decl.fn f ∈ p.decls) :
    f.body.ids.Nodup := by
  have hfn := (List.nodup_flatMap.1 hc.nodup).1 _ hf
  simp only [Decl.ids, List.nodup_cons, List.nodup_append] at hfn
  exact hfn.2.2.1

/-- The saved registers lie in words of the frame that belong to no variable. -/
theorem Frame.saved (hc : Compiled m o p b) (fr : Frame m p b) {a : Int}
    (ha : a = fr.base - fr.info.formalSpace ∨ a = fr.base - fr.info.formalSpace - wordSize) :
    fr.low < a ∧ a ≤ m.stackStart ∧ ¬ fr.HasVariable a ∧ m.hasWord a = true := by
  have hbase := fr.base_le
  have hdvd : (wordSize : Int) ∣ a := by
    have hformal : (wordSize : Int) ∣ fr.info.formalSpace := by
      rw [(fr.spaces hc).1]
      exact ⟨fr.fn.params.length, by simp⟩
    obtain rfl | rfl := ha
    · exact Int.dvd_sub fr.dvd hformal
    · exact Int.dvd_sub (Int.dvd_sub fr.dvd hformal) (Int.dvd_refl _)
  have hle : a ≤ m.stackStart := by
    simp only [wordSize] at ha
    omega
  refine ⟨?_, hle, ?_, hasWord_of_le hdvd hle⟩
  · simp only [low, savedSpace, wordSize] at *
    omega
  · simp only [HasVariable, low, savedSpace, wordSize] at *
    omega

/-- The parts of the code of a function, from its label at `entry` to the one at `stop`. -/
structure FnCode (m : Machine) (o : Options) (b : Annotations) (f : FnDecl) (info : FnInfo)
    (entry start stop : Nat) (code : Code) : Prop where
  noted : (b.symbolOf? f.name.id).bind Symbol.fnInfo? = some info
  generated : ∃ n n', (Code.body o b (Label.exit f.name.name) f.body).run n = .ok (code, n')
  label : m.Seg entry [.label (Label.function f.name.name)]
  begin : m.Seg (entry + 1) (Code.remark o "FUNCTION ENTRY" ++
    Code.prologue o info.formalSpace info.localSpace)
  body : m.Seg start code
  finish : m.Seg (start + code.length) (Code.remark o "FUNCTION EXIT")
  exit : m.Seg stop
    (.label (Label.exit f.name.name) :: Code.epilogue o info.formalSpace f.isMain)
  start_eq : entry + 1 + (Code.remark o "FUNCTION ENTRY" ++
    Code.prologue o info.formalSpace info.localSpace).length = start
  stop_eq : start + code.length + (Code.remark o "FUNCTION EXIT").length = stop

theorem Compiled.fnCode (hc : Compiled m o p b) {f : FnDecl} (hf : Decl.fn f ∈ p.decls) :
    ∃ info entry start stop code, FnCode m o b f info entry start stop code := by
  obtain ⟨pos, c, n, n', hseg, hrun⟩ := hc.fn_code hf
  simp only [Code.fnDecl, run_bind_ok, run_pure_ok] at hrun
  obtain ⟨info, n1, hinfo, code, n2, hcode, rfl, -⟩ := hrun
  have hnoted : (b.symbolOf? f.name.id).bind Symbol.fnInfo? = some info := by
    unfold Code.fnInfo at hinfo
    split at hinfo
    next i hi => rw [hi, (run_pure_ok.1 hinfo).1]
    next => cases hinfo
  have hparts : m.Seg pos (([Item.text] ++ if f.isMain then [Item.globl "main"] else []) ++
      ([Item.label (Label.function f.name.name)] ++ ((Code.remark o "FUNCTION ENTRY" ++
        Code.prologue o info.formalSpace info.localSpace) ++ (code ++
          (Code.remark o "FUNCTION EXIT" ++ ([Item.label (Label.exit f.name.name)] ++
            Code.epilogue o info.formalSpace f.isMain)))))) := by
    simpa only [List.append_assoc] using hseg
  obtain ⟨-, hseg⟩ := hparts.append
  obtain ⟨hlabel, hseg⟩ := hseg.append
  obtain ⟨hbegin, hseg⟩ := hseg.append
  obtain ⟨hbody, hseg⟩ := hseg.append
  obtain ⟨hfinish, hexit⟩ := hseg.append
  exact ⟨info, _, _, _, code, hnoted, ⟨n1, n2, hcode⟩, hlabel, hbegin, hbody, hfinish, hexit, rfl,
    rfl⟩

/-- The machine gets from the label of a function to its body, in a frame of its own. -/
theorem enter_steps (hc : Compiled m o p b) (fr : Frame m p b) {entry start stop : Nat}
    {code : Code} (hcode : FnCode m o b fr.fn fr.info entry start stop code) {args : List Atom}
    {w : World} {s : State} (h : Entered m p b fr.fn args w fr.base s)
    (hlen : args.length = fr.fn.params.length) :
    ∃ s', m.Steps s s' ∧
      fr.At { w with inner := Eval.arguments fr.fn.params args } fr.low start s' ∧
      s'.mem (fr.base - fr.info.formalSpace) = s.regs .ra ∧
      s'.mem (fr.base - fr.info.formalSpace - wordSize) = s.regs .fp ∧
      ∀ a, fr.base < a → s'.mem a = s.mem a := by
  have hpc : s.pc = entry := by
    have := position?_eq hc.labels hcode.label.head
    exact Option.some.inj (h.pc.symm.trans this)
  have hformal := (fr.spaces hc).1
  have hsp : s.regs .sp = fr.base - fr.info.formalSpace := by
    rw [h.sp, hlen, hformal]
    simp
  obtain ⟨-, -, -, hword⟩ := fr.saved hc (.inl rfl)
  obtain ⟨-, -, -, hword'⟩ := fr.saved hc (.inr rfl)
  obtain ⟨hremark, hprologue⟩ := hcode.begin.append
  have hs1 : m.Steps s s.next := .single (hcode.label.step hpc rfl)
  have hs2 := hremark.remark (s := s.next) (by simp [hpc])
  obtain ⟨s3, hs3, hpc3, hfp3, hsp3, hra, hfp, hmem3, hin3, hout3⟩ := prologue_steps
    (s := s.next.jump (entry + 1 + (Code.remark o "FUNCTION ENTRY").length)) hprologue rfl
    (by simpa [hsp] using hword) (by simpa [hsp] using hword')
  simp only [State.regs_jump, State.regs_next, State.mem_jump, State.mem_next, State.input_jump,
    State.input_next, State.output_jump, State.output_next, hsp] at hfp3 hsp3 hra hfp hmem3 hin3 hout3
  have hbase := fr.base_le
  have hapart := m.apart
  refine ⟨s3, (hs1.trans hs2).trans hs3, ⟨?_, by rw [hfp3]; omega, hsp3, Int.le_refl _,
    fr.low_dvd hc, ⟨?_, ?_⟩, hin3.trans h.input, hout3.trans h.output⟩, hra, hfp, fun a ha => ?_⟩
  · rw [hpc3, ← hcode.start_eq]
    simp [Nat.add_assoc]
  · refine h.outer.congr hc fun a ha => hmem3 a ?_ ?_
    · simp only [wordSize] at hapart
      omega
    · simp only [wordSize] at hapart ⊢
      omega
  · refine arguments_agree hc fr fun {i v} hv => ?_
    have hi := (List.getElem?_eq_some_iff.1 hv).1
    rw [hmem3, h.args hv]
    · simp only [wordSize] at hformal ⊢
      omega
    · simp only [wordSize] at hformal ⊢
      omega
  · apply hmem3
    · omega
    · simp only [wordSize]
      omega

/-- The body of a function runs up to the label at its end. -/
theorem fnBody_simulates (hc : Compiled m o p b) (fr : Frame m p b) {call : Handler}
    (hcall : Serves m p b call) {entry start stop : Nat} {code : Code}
    (hcode : FnCode m o b fr.fn fr.info entry start stop code) {rest : List Decl} {n : Nat}
    (hsuffix : Decl.fn fr.fn :: rest <:+ p.decls.reverse)
    (hbound : DeclBound b rest n (.fn fr.fn)) {w : World} {s : State}
    (h : fr.At w fr.low start s) (fuel : Nat) :
    m.Simulates
      (Eval.body call fuel fr.fn.returns (Env.ofFn fr.fn (.fn fr.fn :: rest)) fr.fn.body) w s
      fun flow w' s' => fr.At w' fr.low (stop + 1) s' ∧ fr.Keeps fr.low s.mem s'.mem ∧
        ∀ v, flow.result = some v → s'.regs .v0 = v.word := by
  have he : (Env.ofFn fr.fn (.fn fr.fn :: rest)).Fits p fr.fn :=
    Env.Fits.extend ⟨by simp, hsuffix⟩ fun d hd => List.mem_append_left _ hd
  have hb : Binding.BodyBound b (Env.ofFn fr.fn (.fn fr.fn :: rest)).decls
      (n + 1 + fr.fn.params.length) fr.fn.body := by
    rw [Env.ofFn, Env.decls_extend]
    exact hbound.2.2
  obtain ⟨k, k', hgen⟩ := hcode.generated
  have hbody : fr.ExecutesBody o call fuel (stop + 1) _ fr.fn.body :=
    fr.body_executes hc hcall hcode.exit fr.fn.body he hb (hc.ready.written _ fr.mem)
      (hc.body_nodup fr.mem) fun d hd => List.mem_append_right _ hd
  refine (hbody hgen hcode.body h).conclude fun flow w' s' hleft => ?_
  obtain ⟨s2, hs2, hleft2⟩ : ∃ s2, m.Steps s' s2 ∧
      fr.LeftOff (stop + 1) (stop + 1) fr.low s.mem flow w' s2 := by
    refine hleft.then (.of_eq rfl) fun hat => ?_
    obtain ⟨s3, hs3, hat3, hmem3⟩ := hat.remark hcode.finish
    obtain ⟨hs4, hat4⟩ := hat3.skip (hcode.stop_eq ▸ hcode.exit) rfl
    exact ⟨_, hs3.trans hs4, hat4.cast (by rw [hcode.stop_eq]), hmem3⟩
  refine ⟨s2, hs2, ?_, hleft2.keeps, fun v hv => ?_⟩
  · cases flow <;> exact hleft2.stands
  · cases flow with
    | next => cases hv
    | returned value => exact hleft2.value v (congrArg Flow.returned hv)

/-- **The machine runs calls as the program does.** -/
theorem callAt_serves (hc : Compiled m o p b) (fuel : Nat) : Serves m p b (Eval.callAt fuel) := by
  induction fuel with
  | zero => exact fun _ _ _ _ _ _ _ _ _ _ _ => .stuck
  | succ fuel ih =>
    intro f rest n args w top s hsuffix hbound hlen hent
    have hf : Decl.fn f ∈ p.decls := List.mem_reverse.1 (hsuffix.subset (.head _))
    obtain ⟨info, entry, start, stop, code, hcode⟩ := hc.fnCode hf
    let fr : Frame m p b := ⟨f, info, top, hf, hcode.noted, hent.top_le, hent.dvd⟩
    obtain ⟨s1, hs1, hat1, hra, hfp, habove⟩ := enter_steps hc fr hcode hent hlen
    unfold Eval.callAt
    refine .get_bind (.modify_bind (.steps hs1 ?_))
    refine (fnBody_simulates hc fr ih hcode hsuffix hbound hat1 fuel).bind
      fun flow w2 s2 ⟨hat2, hkeeps, hvalue⟩ => .modify_bind ?_
    -- the saved registers are where they were put
    obtain ⟨hlt, hle, hvar, hword⟩ := fr.saved hc (.inl rfl)
    obtain ⟨hlt', hle', hvar', hword'⟩ := fr.saved hc (.inr rfl)
    have hra2 := (hkeeps _ hlt hle hvar).trans hra
    have hfp2 := (hkeeps _ hlt' hle' hvar').trans hfp
    have hepi := hcode.exit.tail
    unfold Code.epilogue at hepi
    obtain ⟨s3, hs3, hpc3, hra3, hfp3, hsp3, hv3, hmem3, hin3, hout3⟩ := restore_steps hepi hat2.pc
      (hat2.fp ▸ hword) (hat2.fp ▸ hword')
    rw [hat2.fp] at hra3 hfp3 hsp3
    have hlast := hepi.append.2
    refine .steps hs3 ?_
    cases hmain : f.isMain with
    | true =>
      simp only [hmain, if_true] at hlast ⊢
      refine .steps (.single (hlast.step hpc3 rfl)) (.exit ⟨none, ?_, by simp⟩ ?_ ?_)
      · rw [State.pc_next, State.pc_setReg, hpc3]
        exact hlast.tail.head
      · exact hin3.trans hat2.input
      · exact hout3.trans hat2.output
    | false =>
      simp only [hmain, Bool.false_eq_true, if_false] at hlast ⊢
      obtain ⟨k, hk⟩ := Int.eq_ofNat_of_zero_le (hent.ra hmain)
      have hjr : m.item s3 (Code.noted o (.jr .ra) "return") = some (s3.jump k) := by
        simp only [Code.noted, item, exec, hra3.trans hra2, hk]
        rfl
      refine ⟨_, .single (hlast.step hpc3 hjr), hk.symm, hfp3.trans hfp2, hsp3, fun a ha hle => ?_, ?_,
        rfl, hin3.trans hat2.input, hout3.trans hat2.output, fun v hv => hv3.trans (hvalue v hv)⟩
      · -- above its frame, a function changes nothing
        have hbase : fr.base = top := rfl
        have hlow := fr.low_le_base
        have hkept := hkeeps a (by omega) hle (by
          unfold Frame.HasVariable
          omega)
        rw [State.mem_jump, hmem3, hkept, habove a ha]
      · rw [State.mem_jump, hmem3]
        exact hat2.agrees.outer

end FlatC
