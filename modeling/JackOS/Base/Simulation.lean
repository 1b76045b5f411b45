/-
  JackOS.Base.Simulation

  Runs with their labels, and forward simulation: where every step of one system
  is matched by a step of another under the same label, so is every run.
-/

import JackOS.Base.Transition

namespace JackOS
namespace Base
namespace System

variable {σ τ ι : Type _}

/-- `M.Run s is s'`: the steps `is`, one after the other, lead from `s` to `s'`. -/
inductive Run (M : System σ ι) : σ → List ι → σ → Prop
  | nil (s : σ) : Run M s [] s
  | cons {s s₁ s' : σ} {i : ι} {is : List ι} (hstep : M.next s i s₁) (hrun : Run M s₁ is s') :
      Run M s (i :: is) s'

/-- Related states stay related: `N` can follow every step of `M`. -/
def Simulates (M : System σ ι) (N : System τ ι) (R : σ → τ → Prop) : Prop :=
  ∀ s i s' t, R s t → M.next s i s' → ∃ t', N.next t i t' ∧ R s' t'

variable {M : System σ ι} {N : System τ ι} {R : σ → τ → Prop}

/-- `N` can follow every run of `M`. -/
theorem Simulates.run (h : Simulates M N R) {s s' : σ} {t : τ} {is : List ι} (hR : R s t)
    (hrun : M.Run s is s') : ∃ t', N.Run t is t' ∧ R s' t' := by
  induction hrun generalizing t with
  | nil s => exact ⟨t, .nil t, hR⟩
  | cons hstep _ ih =>
      obtain ⟨t₁, hstep', hR₁⟩ := h _ _ _ _ hR hstep
      obtain ⟨t', hrun', hR'⟩ := ih hR₁
      exact ⟨t', .cons hstep' hrun', hR'⟩

/-- Steps of code in a row are a run. -/
theorem Run.of_runSteps {legal : σ → ι → Prop} [∀ s i, Decidable (legal s i)]
    {run : σ → ι → Outcome σ} (hnext : ∀ s i s', legal s i → run s i = .ok s' → M.next s i s')
    {is : List ι} {s s' : σ} (hrun : runSteps legal run is s = .ok s') : M.Run s is s' := by
  induction is generalizing s with
  | nil =>
      cases hrun
      exact .nil _
  | cons i is ih =>
      obtain ⟨_, hlegal, hrun⟩ := Outcome.bind_eq_ok.1 hrun
      obtain ⟨s₁, hstep, hrun⟩ := Outcome.bind_eq_ok.1 hrun
      rw [require_eq_ok] at hlegal
      exact .cons (hnext s i s₁ hlegal hstep) (ih hrun)

end System
end Base
end JackOS
