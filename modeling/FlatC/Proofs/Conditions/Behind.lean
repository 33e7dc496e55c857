import FlatC.Proofs.Code.Labels
import FlatC.Proofs.Wordwise.Run

/-!
# More code behind a program

`m.behind c` is the machine `m` with the code `c` behind its own. What stands in front is where it
was, and so are the data: the machine takes every step that it took before (`step_behind`), and it
gets to the code behind only at the end of what it did before (`reaches_behind`). No label is defined
twice if the labels of `c` have numbers that the program has not used (`labels_nodup_behind`).
-/

namespace FlatC

namespace Machine

/-- The machine with more code behind its own. -/
def behind (m : Machine) (c : Code) : Machine := { m with code := m.code ++ c }

variable {m : Machine} {c c' : Code} {s s' : State}

@[simp] theorem code_behind : (m.behind c).code = m.code ++ c := rfl

theorem behind_behind : (m.behind c).behind c' = m.behind (c ++ c') := by
  simp [behind, List.append_assoc]

/-- The code stands behind the program. -/
theorem seg_behind : (m.behind c).Seg m.code.length c := by
  have hwhole := Seg.whole (m.behind c)
  rw [code_behind] at hwhole
  simpa using hwhole.append.2

/-- More data come behind those that were there. -/
theorem data_behind : ∃ d, (m.behind c).data = m.data ++ d := by
  obtain ⟨a, ha⟩ := Code.data_append m.dataStart m.code c
  exact ⟨_, ha⟩

theorem address?_behind {l : String} {a : Int} (h : m.address? l = some a) :
    (m.behind c).address? l = some a := by
  obtain ⟨d, hd⟩ := data_behind (m := m) (c := c)
  obtain ⟨x, hx, rfl⟩ := Option.map_eq_some_iff.1 h
  rw [address?, hd, List.find?_append, hx]
  rfl

theorem position?_behind {l : String} {k : Nat} (h : m.position? l = some k) :
    (m.behind c).position? l = some k := by
  rw [position?, code_behind, List.findIdx?_append]
  unfold position? at h
  rw [h]
  rfl

theorem place?_behind {fp a : Int} {l : Location} (h : m.place? fp l = some a) :
    (m.behind c).place? fp l = some a := by
  cases l with
  | frame offset => exact h
  | global label offset =>
    obtain ⟨a', ha, rfl⟩ := Option.map_eq_some_iff.1 h
    rw [place?, address?_behind ha]
    rfl

theorem hasWord_behind {a : Int} (h : m.hasWord a = true) : (m.behind c).hasWord a = true := by
  obtain ⟨d, hd⟩ := data_behind (m := m) (c := c)
  unfold hasWord at h ⊢
  rw [hd, List.any_append]
  simp only [Bool.and_eq_true, Bool.or_eq_true] at h ⊢
  exact ⟨h.1, h.2.imp id .inl⟩

theorem word?_behind {l : Address} {a : Int} (h : m.word? s l = some a) :
    (m.behind c).word? s l = some a := by
  obtain ⟨htarget, hword⟩ := Option.filter_eq_some_iff.1 h
  refine Option.filter_eq_some_iff.2 ⟨?_, hasWord_behind hword⟩
  cases l with
  | indexed offset base => exact htarget
  | label name offset =>
    obtain ⟨a', ha, rfl⟩ := Option.map_eq_some_iff.1 htarget
    rw [target?, address?_behind ha]
    rfl

theorem syscall_behind (h : m.syscall s = some s') : (m.behind c).syscall s = some s' := by
  obtain ⟨d, hd⟩ := data_behind (m := m) (c := c)
  unfold syscall at h ⊢
  by_cases hprint : s.regs .v0 = 1
  · rwa [if_pos hprint] at h ⊢
  rw [if_neg hprint] at h ⊢
  by_cases htext : s.regs .v0 = 4
  · rw [if_pos htext] at h ⊢
    obtain ⟨text, hfind, rfl⟩ := Option.map_eq_some_iff.1 h
    rw [hd, List.findSome?_append, hfind]
    rfl
  · rwa [if_neg htext] at h ⊢

/-- Arithmetic has nothing to do with what stands behind. -/
theorem exec_arithmetic_behind {i : Instr} (hi : i.isArithmetic = true) :
    (m.behind c).exec s i = m.exec s i := by
  cases i with
  | alu | neg => rfl
  | _ => cases hi

theorem exec_behind {i : Instr} (h : m.exec s i = some s') :
    (m.behind c).exec s i = some s' := by
  cases i with
  | lw dst src | sw dst src =>
    obtain ⟨a, ha, rfl⟩ := Option.map_eq_some_iff.1 h
    rw [exec, word?_behind ha]
    rfl
  | la dst label =>
    obtain ⟨a, ha, rfl⟩ := Option.map_eq_some_iff.1 h
    rw [exec, address?_behind ha]
    rfl
  | b label | jal label =>
    obtain ⟨k, hk, rfl⟩ := Option.map_eq_some_iff.1 h
    rw [exec, position?_behind hk]
    rfl
  | beq r x label =>
    simp only [exec] at h ⊢
    by_cases hx : s.regs r = x
    · rw [if_pos hx] at h ⊢
      obtain ⟨k, hk, rfl⟩ := Option.map_eq_some_iff.1 h
      rw [position?_behind hk]
      rfl
    · rwa [if_neg hx] at h ⊢
  | syscall => exact syscall_behind h
  | li | move | addi | addu | subu | neg | alu | jr => exact h

/-- **The machine takes every step that it took before.** -/
theorem step_behind (h : m.step s = some s') : (m.behind c).step s = some s' := by
  obtain ⟨x, hx, hitem⟩ := Option.bind_eq_some_iff.1 h
  obtain ⟨hlt, -⟩ := List.getElem?_eq_some_iff.1 hx
  rw [step, code_behind, List.getElem?_append_left hlt, hx, Option.bind_some]
  cases x with
  | instr i note => exact exec_behind hitem
  | _ => exact hitem

/-! ## Getting to a position -/

/-- The machine gets from the state to the position. -/
def Reaches (m : Machine) (pos : Nat) (s : State) : Prop := ∃ s', m.Steps s s' ∧ s'.pc = pos

variable {pos : Nat}

/-- In front of another item, the machine has to go on. -/
theorem reaches_step (h : m.step s = some s') (hne : s.pc ≠ pos) :
    m.Reaches pos s ↔ m.Reaches pos s' := by
  constructor
  · rintro ⟨t, hs, hpc⟩
    rcases Relation.ReflTransGen.cases_head hs with rfl | ⟨u, hu, hrest⟩
    · exact absurd hpc hne
    · obtain rfl := Option.some.inj (hu.symm.trans h)
      exact ⟨t, hrest, hpc⟩
  · rintro ⟨t, hs, hpc⟩
    exact ⟨t, (Steps.single h).trans hs, hpc⟩

theorem not_reaches (h : m.step s = none) (hne : s.pc ≠ pos) : ¬ m.Reaches pos s := by
  rintro ⟨t, hs, hpc⟩
  rcases Relation.ReflTransGen.cases_head hs with rfl | ⟨u, hu, -⟩
  · exact hne hpc
  · cases h.symm.trans hu

/-- On the way, a machine only steps where it has code, and the code behind is not reached yet. -/
theorem reaches_behind (h : m.Steps s s') :
    (m.behind c).Reaches m.code.length s ↔ (m.behind c).Reaches m.code.length s' := by
  induction h with
  | refl => exact Iff.rfl
  | @tail u v _ hstep ih =>
    obtain ⟨x, hx, -⟩ := Option.bind_eq_some_iff.1 hstep
    have hlt := (List.getElem?_eq_some_iff.1 hx).1
    exact ih.trans (reaches_step (step_behind hstep) (Nat.ne_of_lt hlt))

end Machine

/-! ## Labels -/

/-- The labels of a program have no number from the next free one on. -/
theorem labels_nodup_behind {m : Machine} {o : Options} {p : Program} {b : Annotations} {k n n' : Nat}
    {c : Code} (hgen : generate o p b 0 = .ok (m.code, k)) (hl : m.code.labels.Nodup) (hk : k ≤ n)
    (hc : Numbered n n' c.labels) : (m.behind c).code.labels.Nodup := by
  obtain ⟨inner, hinner, hperm⟩ := Code.decls_labels hgen
  rw [Machine.code_behind, Code.labels_append]
  refine List.nodup_append.2 ⟨hl, hc.nodup, ?_⟩
  rintro l hmem _ hmem' rfl
  obtain ⟨stem, hstem, i, hi, -, rfl⟩ := hc.made l hmem'
  rw [hperm.mem_iff, List.mem_append, List.mem_append] at hmem
  rcases hmem with hmem | hmem | hmem
  · obtain ⟨d, -, hd⟩ := List.mem_filterMap.1 hmem
    cases d with
    | var d => exact Label.numbered_ne_global hstem _ _ (Option.some.inj hd).symm
    | struct d => cases hd
    | fn f => exact Label.numbered_ne_function hstem _ _ (Option.some.inj hd).symm
  · obtain ⟨d, -, hd⟩ := List.mem_filterMap.1 hmem
    obtain ⟨f, -, hf⟩ := Decl.fn_of_exit? hd
    exact Label.numbered_ne_exit _ _ _ hf
  · obtain ⟨stem', hstem', i', -, hi', heq⟩ := hinner.made _ hmem
    have := Label.numbered_inj heq
    omega

end FlatC
