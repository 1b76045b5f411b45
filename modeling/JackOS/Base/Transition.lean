/-
  JackOS.Base.Transition

  Labelled transition systems and the invariant rule: what holds initially and
  is kept by every step holds in every reachable state.  `System.restrict`
  keeps only the steps that meet a side condition, so that "every run whose
  steps all meet the condition" is reachability in the restricted system.
-/

import Mathlib.Logic.Relation
import JackOS.Base.Outcome

namespace JackOS
namespace Base

/-- A transition system with states `σ` and step labels `ι`. -/
structure System (σ : Type _) (ι : Type _) where
  /-- The initial states. -/
  init : σ → Prop
  /-- `next s i s'`: from `s` the step `i` leads to `s'`. -/
  next : σ → ι → σ → Prop

namespace System

variable {σ : Type _} {ι : Type _} (M : System σ ι)

/-- One step under some label. -/
def Step (s s' : σ) : Prop := ∃ i, M.next s i s'

/-- The states some run from an initial state leads to. -/
def Reachable (s : σ) : Prop := ∃ s₀, M.init s₀ ∧ Relation.ReflTransGen M.Step s₀ s

/-- The system whose steps are those of `M` that meet `ok` in the state they
    start from. -/
def restrict (ok : σ → ι → Prop) : System σ ι where
  init := M.init
  next := fun s i s' => ok s i ∧ M.next s i s'

variable {M}

theorem reachable_init {s : σ} (h : M.init s) : M.Reachable s :=
  ⟨s, h, .refl⟩

theorem Reachable.next {s s' : σ} {i : ι} (h : M.Reachable s) (hs : M.next s i s') :
    M.Reachable s' := by
  obtain ⟨s₀, h₀, hrun⟩ := h
  exact ⟨s₀, h₀, hrun.tail ⟨i, hs⟩⟩

/-- The invariant rule. -/
theorem Reachable.invariant {Inv : σ → Prop}
    (hinit : ∀ s, M.init s → Inv s)
    (hstep : ∀ s i s', Inv s → M.next s i s' → Inv s')
    {s : σ} (h : M.Reachable s) : Inv s := by
  obtain ⟨s₀, h₀, hrun⟩ := h
  induction hrun with
  | refl => exact hinit s₀ h₀
  | tail _ hlast ih =>
      obtain ⟨i, hi⟩ := hlast
      exact hstep _ i _ ih hi

/-- Steps of code in a row; each must be one that can happen. -/
def runSteps (legal : σ → ι → Prop) [∀ s i, Decidable (legal s i)] (run : σ → ι → Outcome σ) :
    List ι → σ → Outcome σ
  | [], s => .ok s
  | i :: is, s => do
      require (legal s i)
      let s ← run s i
      runSteps legal run is s

theorem Reachable.runSteps {legal : σ → ι → Prop} [∀ s i, Decidable (legal s i)]
    {run : σ → ι → Outcome σ} (hnext : ∀ s i s', legal s i → run s i = .ok s' → M.next s i s')
    {is : List ι} {s s' : σ} (h : M.Reachable s) (hrun : runSteps legal run is s = .ok s') :
    M.Reachable s' := by
  induction is generalizing s with
  | nil =>
      cases hrun
      exact h
  | cons i is ih =>
      obtain ⟨_, hlegal, hrun⟩ := Outcome.bind_eq_ok.1 hrun
      obtain ⟨s₁, hstep, hrun⟩ := Outcome.bind_eq_ok.1 hrun
      rw [require_eq_ok] at hlegal
      exact ih (h.next (hnext s i s₁ hlegal hstep)) hrun

end System

end Base
end JackOS
