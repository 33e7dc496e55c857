import FlatC.Proofs.Yields

/-!
# Runs side by side

`Follows S A x y` compares two steps: from states that `S` relates, where `x` succeeds `y` succeeds
as well, `A` relates what they give, and `S` the states behind them. Nothing is said of a step that
stops at a defect. The lemmas compose it along `do` blocks.
-/

namespace FlatC

variable {σ τ ε α β γ δ : Type}

/-- Where `x` succeeds, so does `y`, and their results and states stay related. -/
def Follows (S : σ → τ → Prop) (A : α → β → Prop) (x : StateT σ (Except ε) α)
    (y : StateT τ (Except ε) β) : Prop :=
  ∀ s t a s', S s t → x.run s = .ok (a, s') → ∃ b t', y.run t = .ok (b, t') ∧ A a b ∧ S s' t'

namespace Follows

variable {S : σ → τ → Prop} {A : α → β → Prop} {B : γ → δ → Prop} {x : StateT σ (Except ε) α}
  {y : StateT τ (Except ε) β} {f : α → StateT σ (Except ε) γ} {g : β → StateT τ (Except ε) δ}

theorem bind (hx : Follows S A x y) (hf : ∀ a b, A a b → Follows S B (f a) (g b)) :
    Follows S B (x >>= f) (y >>= g) := by
  intro s t c s'' hst hrun
  obtain ⟨a, s', hrun1, hrun2⟩ := run_bind_ok.1 hrun
  obtain ⟨b, t', hrun3, hab, hst'⟩ := hx s t a s' hst hrun1
  obtain ⟨d, t'', hrun4, hcd, hst''⟩ := hf a b hab s' t' c s'' hst' hrun2
  exact ⟨d, t'', run_bind_ok.2 ⟨b, t', hrun3, hrun4⟩, hcd, hst''⟩

theorem pure {a : α} {b : β} (h : A a b) :
    Follows S A (pure a : StateT σ (Except ε) α) (pure b) := by
  intro s t a' s' hst hrun
  obtain ⟨rfl, rfl⟩ := run_pure_ok.1 hrun
  exact ⟨b, t, rfl, h, hst⟩

/-- A step that stops is followed by any. -/
theorem throw {e : ε} : Follows S A (throw e : StateT σ (Except ε) α) y := by
  intro s t a s' _ hrun
  cases hrun

/-- Looking at the states. -/
theorem getBind {f : σ → StateT σ (Except ε) γ} {g : τ → StateT τ (Except ε) δ}
    (hf : ∀ s t, S s t → Follows S B (f s) (g t)) : Follows S B (get >>= f) (get >>= g) :=
  fun s t a s' hst hrun => hf s t hst s t a s' hst hrun

theorem modify {u : σ → σ} {v : τ → τ} (h : ∀ s t, S s t → S (u s) (v t)) :
    Follows S Eq (modify u : StateT σ (Except ε) PUnit) (modify v) := by
  intro s t a s' hst hrun
  obtain ⟨-, rfl⟩ := Prod.mk.inj (Except.ok.inj hrun)
  exact ⟨⟨⟩, v t, rfl, rfl, h s t hst⟩

theorem foldlM {k : γ → δ} {u : α → γ → StateT σ (Except ε) α}
    {v : β → δ → StateT τ (Except ε) β} {cs : List γ}
    (hu : ∀ a b, ∀ c ∈ cs, A a b → Follows S A (u a c) (v b (k c))) {a : α} {b : β} (hab : A a b) :
    Follows S A (cs.foldlM u a) ((cs.map k).foldlM v b) := by
  induction cs generalizing a b with
  | nil => exact pure hab
  | cons c cs ih =>
    rw [List.map_cons, List.foldlM_cons, List.foldlM_cons]
    refine bind (hu a b c (.head cs) hab) fun a' b' hab' => ?_
    exact ih (fun a b c hc => hu a b c (.tail _ hc)) hab'

end Follows

end FlatC
