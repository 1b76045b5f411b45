/-
  JackOS.Base.Ledger

  Accounting for a pool of resources handed out by a free map.  Slots `ι` hold
  references to resources `β`, where 0 is the null reference, and `used` is
  the set of resources marked as taken.  A ledger is `Sound` when no resource
  is referenced twice and every reference is marked.  `Grows` and `Extends` say
  how an operation moved a ledger; they compose, and they keep soundness.
-/

import Mathlib.Data.Set.Lattice

namespace JackOS
namespace Base
namespace Ledger

variable {ι β : Type _} [Zero β]

/-- References are distinct and marked as used. -/
structure Sound (ref : ι → β) (used : Set β) : Prop where
  inj : ∀ i j, ref i ≠ 0 → ref i = ref j → i = j
  mem : ∀ i, ref i ≠ 0 → ref i ∈ used

/-- `ref'` keeps every reference of `ref` and adds references to resources
    that were free, each once. -/
structure Grows (ref : ι → β) (used : Set β) (ref' : ι → β) (used' : Set β) : Prop where
  old : ∀ i, ref i ≠ 0 → ref' i = ref i
  fresh : ∀ i, ref i = 0 → ref' i ≠ 0 → ref' i ∉ used
  inj : ∀ i j, ref i = 0 → ref j = 0 → ref' i ≠ 0 → ref' i = ref' j → i = j
  mono : used ⊆ used'
  mem : ∀ i, ref i = 0 → ref' i ≠ 0 → ref' i ∈ used'

/-- A growth that marks nothing but what it references. -/
structure Extends (ref : ι → β) (used : Set β) (ref' : ι → β) (used' : Set β) : Prop
    extends Grows ref used ref' used' where
  exact : ∀ b, b ∈ used' → b ∈ used ∨ ∃ i, ref i = 0 ∧ ref' i ≠ 0 ∧ ref' i = b

variable {ref ref' ref'' : ι → β} {used used' used'' : Set β}

/-! ## Growth -/

theorem Extends.refl (ref : ι → β) (used : Set β) : Extends ref used ref used where
  old _ _ := rfl
  fresh _ h₀ h₁ := absurd h₀ h₁
  inj _ _ h₀ _ h₁ _ := absurd h₀ h₁
  mono := Set.Subset.rfl
  mem _ h₀ h₁ := absurd h₀ h₁
  exact _ hb := .inl hb

theorem Grows.trans (h₁ : Grows ref used ref' used') (h₂ : Grows ref' used' ref'' used'') :
    Grows ref used ref'' used'' where
  old i hi := by
    have := h₁.old i hi
    rw [h₂.old i (this ▸ hi), this]
  fresh i h₀ hi := by
    by_cases hz : ref' i = 0
    · exact fun hin => h₂.fresh i hz hi (h₁.mono hin)
    · rw [h₂.old i hz]
      exact h₁.fresh i h₀ hz
  inj i j hi₀ hj₀ hi heq := by
    by_cases hzi : ref' i = 0 <;> by_cases hzj : ref' j = 0
    · exact h₂.inj i j hzi hzj hi heq
    · refine absurd ?_ (h₂.fresh i hzi hi)
      rw [heq, h₂.old j hzj]
      exact h₁.mem j hj₀ hzj
    · have hj : ref'' j ≠ 0 := heq ▸ hi
      refine absurd ?_ (h₂.fresh j hzj hj)
      rw [← heq, h₂.old i hzi]
      exact h₁.mem i hi₀ hzi
    · rw [h₂.old i hzi, h₂.old j hzj] at heq
      exact h₁.inj i j hi₀ hj₀ hzi heq
  mono := h₁.mono.trans h₂.mono
  mem i h₀ hi := by
    by_cases hz : ref' i = 0
    · exact h₂.mem i hz hi
    · rw [h₂.old i hz]
      exact h₂.mono (h₁.mem i h₀ hz)

theorem Extends.trans (h₁ : Extends ref used ref' used')
    (h₂ : Extends ref' used' ref'' used'') : Extends ref used ref'' used'' where
  toGrows := h₁.toGrows.trans h₂.toGrows
  exact b hb := by
    rcases h₂.exact b hb with hb' | ⟨i, hz, hne, rfl⟩
    · rcases h₁.exact b hb' with hb | ⟨i, h₀, hne, rfl⟩
      · exact .inl hb
      · have := h₂.old i hne
        exact .inr ⟨i, h₀, this ▸ hne, this⟩
    · refine .inr ⟨i, ?_, hne, rfl⟩
      by_contra h₀
      exact h₀ ((h₁.old i h₀).symm.trans hz)

/-- One free resource goes to one empty slot. -/
theorem extends_single [DecidableEq ι] (i : ι) (b : β) (hi : ref i = 0) (hb : b ∉ used)
    (hb₀ : b ≠ 0) (hused : ∀ c, c ∈ used' ↔ c ∈ used ∨ c = b) :
    Extends ref used (Function.update ref i b) used' where
  old j hj := by
    have hne : j ≠ i := fun h => hj (h ▸ hi)
    rw [Function.update_of_ne hne]
  fresh j hj₀ hj := by
    by_cases h : j = i
    · subst h
      rwa [Function.update_self]
    · rw [Function.update_of_ne h] at hj
      exact absurd hj₀ hj
  inj j k hj₀ hk₀ hj heq := by
    by_cases h : j = i
    · by_cases h' : k = i
      · rw [h, h']
      · rw [h, Function.update_self, Function.update_of_ne h', hk₀] at heq
        exact absurd heq hb₀
    · rw [Function.update_of_ne h] at hj
      exact absurd hj₀ hj
  mono c hc := (hused c).2 (.inl hc)
  mem j hj₀ hj := by
    by_cases h : j = i
    · subst h
      rw [Function.update_self]
      exact (hused b).2 (.inr rfl)
    · rw [Function.update_of_ne h] at hj
      exact absurd hj₀ hj
  exact c hc := by
    rcases (hused c).1 hc with hc | rfl
    · exact .inl hc
    · exact .inr ⟨i, hi, by rwa [Function.update_self], by rw [Function.update_self]⟩

/-- Dropping some of the new references again keeps the rest good. -/
theorem Grows.forget (h : Grows ref used ref' used')
    (hf : ∀ i, ref'' i = ref' i ∨ ref i = 0 ∧ ref'' i = 0) : Grows ref used ref'' used' := by
  have hnew : ∀ i, ref'' i ≠ 0 → ref'' i = ref' i := fun i hi =>
    (hf i).resolve_right (fun h => hi h.2)
  refine ⟨fun i hi => ?_, fun i h₀ hi => ?_, fun i j hi₀ hj₀ hi heq => ?_, h.mono,
    fun i h₀ hi => ?_⟩
  · rw [(hf i).resolve_right (fun h => hi h.1), h.old i hi]
  · rw [hnew i hi]
    exact h.fresh i h₀ (hnew i hi ▸ hi)
  · have hj : ref'' j ≠ 0 := heq ▸ hi
    rw [hnew i hi, hnew j hj] at heq
    exact h.inj i j hi₀ hj₀ (hnew i hi ▸ hi) heq
  · rw [hnew i hi]
    exact h.mem i h₀ (hnew i hi ▸ hi)

theorem Sound.grows (h : Sound ref used) (hg : Grows ref used ref' used') :
    Sound ref' used' where
  inj i j hi heq := by
    by_cases hzi : ref i = 0 <;> by_cases hzj : ref j = 0
    · exact hg.inj i j hzi hzj hi heq
    · refine absurd ?_ (hg.fresh i hzi hi)
      rw [heq, hg.old j hzj]
      exact h.mem j hzj
    · refine absurd ?_ (hg.fresh j hzj (heq ▸ hi))
      rw [← heq, hg.old i hzi]
      exact h.mem i hzi
    · rw [hg.old i hzi, hg.old j hzj] at heq
      exact h.inj i j hzi heq
  mem i hi := by
    by_cases hz : ref i = 0
    · exact hg.mem i hz hi
    · rw [hg.old i hz]
      exact hg.mono (h.mem i hz)

/-- A growth never hands out what someone else holds. -/
theorem Grows.ne_of_mem (hg : Grows ref used ref' used') {i : ι} {b : β} (hb : b ∈ used)
    (hother : ∀ i, ref i ≠ b) (hb₀ : b ≠ 0) : ref' i ≠ b := by
  rintro rfl
  by_cases hz : ref i = 0
  · exact hg.fresh i hz hb₀ hb
  · exact hother i (hg.old i hz).symm

/-! ## Release -/

end Ledger
end Base
end JackOS
