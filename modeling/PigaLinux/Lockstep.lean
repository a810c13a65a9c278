import Mathlib.Data.List.Forall2

namespace PigaLinux.Lockstep

variable {σ σ₁ σ₂ ε ε₁ ε₂ ο ο₁ ο₂ : Type}

def outputs (step : σ → ε → σ × ο) (s : σ) : List ε → List ο
  | [] => []
  | e :: es => (step s e).2 :: outputs step (step s e).1 es

/-- Two machines that start related and stay so at every pair of related
events show related things. -/
theorem forall₂_outputs {step₁ : σ₁ → ε₁ → σ₁ × ο₁} {step₂ : σ₂ → ε₂ → σ₂ × ο₂} {R : σ₁ → σ₂ → Prop}
    {E : ε₁ → ε₂ → Prop} {Q : ο₁ → ο₂ → Prop}
    (hstep : ∀ s₁ s₂ e₁ e₂, R s₁ s₂ → E e₁ e₂ →
      R (step₁ s₁ e₁).1 (step₂ s₂ e₂).1 ∧ Q (step₁ s₁ e₁).2 (step₂ s₂ e₂).2)
    {es₁ : List ε₁} {es₂ : List ε₂} (hes : List.Forall₂ E es₁ es₂) {s₁ : σ₁} {s₂ : σ₂} (hs : R s₁ s₂) :
    List.Forall₂ Q (outputs step₁ s₁ es₁) (outputs step₂ s₂ es₂) := by
  induction hes generalizing s₁ s₂ with
  | nil => exact .nil
  | cons he _ ih =>
      obtain ⟨hnext, hout⟩ := hstep _ _ _ _ hs he
      exact .cons hout (ih hnext)

end PigaLinux.Lockstep
