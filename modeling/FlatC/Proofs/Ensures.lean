import FlatC.Proofs.Yields

/-!
# What a step ensures

`Ensures x s Q` says that where the step `x` succeeds from the state `s`, what it gives satisfies `Q`
together with the state behind it. Unlike `Yields` it needs nothing that makes `x` succeed, and unlike
`Preserves` it lets `Q` speak of that state. The lemmas compose it along `do` blocks.
-/

namespace FlatC

variable {σ ε α β γ : Type}

/-- Where `x` succeeds from `s`, its result and the state behind it satisfy `Q`. -/
def Ensures (x : StateT σ (Except ε) α) (s : σ) (Q : α → σ → Prop) : Prop :=
  ∀ a s', x.run s = .ok (a, s') → Q a s'

namespace Ensures

variable {x : StateT σ (Except ε) α} {f : α → StateT σ (Except ε) β} {s : σ} {P : α → σ → Prop}
  {Q : β → σ → Prop}

theorem bind (hx : Ensures x s P) (hf : ∀ a s', P a s' → Ensures (f a) s' Q) :
    Ensures (x >>= f) s Q := by
  intro b s'' hrun
  obtain ⟨a, s', hrun1, hrun2⟩ := run_bind_ok.1 hrun
  exact hf a s' (hx a s' hrun1) b s'' hrun2

theorem mono {P' : α → σ → Prop} (h : Ensures x s P) (hP : ∀ a s', P a s' → P' a s') :
    Ensures x s P' :=
  fun a s' hrun => hP a s' (h a s' hrun)

theorem pure {a : α} (h : P a s) : Ensures (pure a : StateT σ (Except ε) α) s P := by
  intro b s' hrun
  obtain ⟨rfl, rfl⟩ := run_pure_ok.1 hrun
  exact h

theorem throw {e : ε} : Ensures (throw e : StateT σ (Except ε) α) s P := by
  intro a s' hrun
  cases hrun

/-- Looking at the state. -/
theorem getBind {g : σ → StateT σ (Except ε) β} (h : Ensures (g s) s Q) :
    Ensures (get >>= g) s Q :=
  fun a s' hrun => h a s' hrun

theorem modify {g : σ → σ} {Q : PUnit → σ → Prop} (h : Q ⟨⟩ (g s)) :
    Ensures (modify g : StateT σ (Except ε) PUnit) s Q := by
  intro a s' hrun
  obtain ⟨-, rfl⟩ := Prod.mk.inj (Except.ok.inj hrun)
  exact h

theorem foldlM {g : β → γ → StateT σ (Except ε) β} {cs : List γ}
    (h : ∀ b s, ∀ c ∈ cs, Q b s → Ensures (g b c) s Q) {b : β} (hb : Q b s) :
    Ensures (cs.foldlM g b) s Q := by
  induction cs generalizing b s with
  | nil => exact pure hb
  | cons c cs ih =>
    rw [List.foldlM_cons]
    exact bind (h b s c (.head cs) hb) fun _ _ hb' => ih (fun b s c hc => h b s c (.tail _ hc)) hb'

end Ensures

end FlatC
