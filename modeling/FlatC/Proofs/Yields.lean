/-!
# Steps that succeed

A stage is a state monad over `Except`. `Yields x s Q` says that the step `x` succeeds from the
state `s`, and that what it gives satisfies `Q` together with the state behind it. The
lemmas compose it along `do` blocks; `run_bind_ok` takes a success apart again.

`Preserves I x Q` says less: where `x` succeeds, it keeps the invariant `I`, and what it gives
satisfies `Q`. It needs nothing that makes `x` succeed.
-/

namespace FlatC

variable {σ ε α β : Type}

/-- From `s`, the step `x` succeeds with a result and a state that satisfy `Q`. -/
def Yields (x : StateT σ (Except ε) α) (s : σ) (Q : α → σ → Prop) : Prop :=
  ∃ a s', x.run s = .ok (a, s') ∧ Q a s'

namespace Yields

variable {x : StateT σ (Except ε) α} {f : α → StateT σ (Except ε) β} {s : σ}

theorem bind {Q : β → σ → Prop} {P : α → σ → Prop} (hx : Yields x s P)
    (hf : ∀ a s', P a s' → Yields (f a) s' Q) : Yields (x >>= f) s Q := by
  obtain ⟨a, s1, hrun, hP⟩ := hx
  obtain ⟨b, s2, hrun2, hQ⟩ := hf a s1 hP
  refine ⟨b, s2, ?_, hQ⟩
  rw [StateT.run_bind, hrun]
  exact hrun2

theorem pure {a : α} {Q : α → σ → Prop} (h : Q a s) :
    Yields (pure a : StateT σ (Except ε) α) s Q :=
  ⟨a, s, rfl, h⟩

theorem mono {P Q : α → σ → Prop} (h : Yields x s P) (hPQ : ∀ a s', P a s' → Q a s') :
    Yields x s Q := by
  obtain ⟨a, s', hrun, hP⟩ := h
  exact ⟨a, s', hrun, hPQ a s' hP⟩

/-- The result of a step comes from running it. -/
theorem with_run {Q : α → σ → Prop} (h : Yields x s Q) :
    Yields x s fun a s' => x.run s = .ok (a, s') ∧ Q a s' := by
  obtain ⟨a, s', hrun, hQ⟩ := h
  exact ⟨a, s', hrun, hrun, hQ⟩

/-- What a step yields, it gives. -/
theorem of_run {Q : α → σ → Prop} {a : α} {s' : σ} (h : Yields x s Q)
    (hrun : x.run s = .ok (a, s')) : Q a s' := by
  obtain ⟨a', s1, hrun', hQ⟩ := h
  obtain ⟨rfl, rfl⟩ := Prod.mk.inj (Except.ok.inj (hrun'.symm.trans hrun))
  exact hQ

/-- Looking at the state. -/
theorem getBind {f : σ → StateT σ (Except ε) β} {Q : β → σ → Prop} (h : Yields (f s) s Q) :
    Yields (get >>= f) s Q :=
  bind (P := fun a s' => a = s ∧ s' = s) ⟨s, s, rfl, rfl, rfl⟩ fun _ _ ⟨ha, hs⟩ => ha ▸ hs ▸ h

theorem modify {g : σ → σ} {Q : PUnit → σ → Prop} (h : Q ⟨⟩ (g s)) :
    Yields (modify g : StateT σ (Except ε) PUnit) s Q :=
  ⟨⟨⟩, g s, rfl, h⟩

end Yields

/-- A success of two steps is one of each. -/
theorem run_bind_ok {x : StateT σ (Except ε) α} {f : α → StateT σ (Except ε) β} {s s'' : σ}
    {b : β} : (x >>= f).run s = .ok (b, s'') ↔
      ∃ a s', x.run s = .ok (a, s') ∧ (f a).run s' = .ok (b, s'') := by
  rw [StateT.run_bind]
  cases hx : x.run s with
  | error e => simp [bind, Except.bind]
  | ok r =>
    obtain ⟨a, s'⟩ := r
    simp only [bind, Except.bind, Except.ok.injEq, Prod.mk.injEq]
    exact ⟨fun h => ⟨a, s', ⟨rfl, rfl⟩, h⟩, fun ⟨_, _, ⟨ha, hs⟩, h⟩ => ha ▸ hs ▸ h⟩

theorem run_pure_ok {a b : α} {s s' : σ} :
    (pure a : StateT σ (Except ε) α).run s = .ok (b, s') ↔ a = b ∧ s = s' := by
  show Except.ok (a, s) = .ok (b, s') ↔ _
  simp

/-- Where the step `x` succeeds, it keeps `I`, and gives something that satisfies `Q`. -/
def Preserves (I : σ → Prop) (x : StateT σ (Except ε) α) (Q : α → Prop) : Prop :=
  ∀ s a s', I s → x.run s = .ok (a, s') → I s' ∧ Q a

namespace Preserves

variable {I : σ → Prop} {x : StateT σ (Except ε) α} {f : α → StateT σ (Except ε) β}
  {P Q : α → Prop} {R : β → Prop}

theorem bind (hx : Preserves I x Q) (hf : ∀ a, Q a → Preserves I (f a) R) :
    Preserves I (x >>= f) R := by
  intro s b s'' hs hrun
  obtain ⟨a, s', hrun1, hrun2⟩ := run_bind_ok.1 hrun
  obtain ⟨hs', ha⟩ := hx s a s' hs hrun1
  exact hf a ha s' b s'' hs' hrun2

theorem mono (h : Preserves I x P) (hPQ : ∀ a, P a → Q a) : Preserves I x Q := by
  intro s a s' hs hrun
  obtain ⟨hs', ha⟩ := h s a s' hs hrun
  exact ⟨hs', hPQ a ha⟩

theorem pure {a : α} (h : Q a) : Preserves I (pure a : StateT σ (Except ε) α) Q := by
  intro s b s' hs hrun
  obtain ⟨rfl, rfl⟩ := run_pure_ok.1 hrun
  exact ⟨hs, h⟩

theorem throw {e : ε} : Preserves I (throw e : StateT σ (Except ε) α) Q := by
  intro s a s' _ hrun
  cases hrun

theorem get : Preserves I (get : StateT σ (Except ε) σ) I := by
  intro s a s' hs hrun
  obtain ⟨rfl, rfl⟩ := Prod.mk.inj (Except.ok.inj hrun)
  exact ⟨hs, hs⟩

theorem modify {g : σ → σ} (h : ∀ s, I s → I (g s)) :
    Preserves I (modify g : StateT σ (Except ε) PUnit) fun _ => True := by
  intro s a s' hs hrun
  obtain ⟨-, rfl⟩ := Prod.mk.inj (Except.ok.inj hrun)
  exact ⟨h s hs, trivial⟩

theorem foldlM {γ : Type} {g : β → γ → StateT σ (Except ε) β} {R : β → Prop} {cs : List γ}
    (h : ∀ b, ∀ c ∈ cs, R b → Preserves I (g b c) R) {b : β} (hb : R b) :
    Preserves I (cs.foldlM g b) R := by
  induction cs generalizing b with
  | nil => exact pure hb
  | cons c cs ih =>
    rw [List.foldlM_cons]
    exact bind (h b c List.mem_cons_self hb) fun _ hb' =>
      ih (fun b c hc => h b c (List.mem_cons_of_mem _ hc)) hb'

end Preserves

end FlatC
