/-
  JackOS.Base.Ring

  A cyclic buffer of `N` cells as a window on a stream: the cells hold the
  elements of the stream from position `k` to its end, each at its position
  modulo `N`.
-/

import Mathlib.Algebra.Ring.Nat
import Mathlib.Logic.Function.Basic

namespace JackOS
namespace Base

variable {α : Type _} {N k : Nat} {buf : Nat → α} {xs : List α}

/-- The buffer holds `xs` from position `k` on, and has room to tell a full
    buffer from an empty one. -/
structure Window (N : Nat) (buf : Nat → α) (xs : List α) (k : Nat) : Prop where
  le : k ≤ xs.length
  fits : xs.length < k + N
  cell : ∀ i (h : i < xs.length), k ≤ i → buf (i % N) = xs[i]

/-- Positions of the window lie in different cells. -/
theorem mod_ne_of_lt {i j : Nat} (hij : i < j) (hlt : j < i + N) : i % N ≠ j % N := by
  intro heq
  have hdvd : N ∣ j - i := Nat.dvd_of_mod_eq_zero (Nat.sub_mod_eq_zero_of_mod_eq heq.symm)
  have hle := Nat.le_of_dvd (by omega) hdvd
  omega

/-- An empty window. -/
theorem Window.empty (hN : 0 < N) (buf : Nat → α) : Window N buf [] 0 :=
  ⟨Nat.le_refl _, by simpa using hN, fun i h => absurd h (Nat.not_lt_zero i)⟩

/-- Adding an element at the end of the stream. -/
theorem Window.put (h : Window N buf xs k) (hroom : xs.length + 1 < k + N) (x : α) :
    Window N (Function.update buf (xs.length % N) x) (xs ++ [x]) k := by
  refine ⟨?_, ?_, fun i hi hk => ?_⟩
  · rw [List.length_append]
    exact Nat.le_add_right_of_le h.le
  · rw [List.length_append]
    exact hroom
  · rw [List.length_append, List.length_singleton] at hi
    by_cases hlast : i = xs.length
    · subst hlast
      rw [Function.update_self]
      simp
    · have hlt : i < xs.length := by omega
      have hle := h.le
      rw [Function.update_of_ne (mod_ne_of_lt hlt (by omega)), h.cell i hlt hk]
      exact (List.getElem_append_left hlt).symm

/-- Taking the first element of the window. -/
theorem Window.get (h : Window N buf xs k) (hk : k < xs.length) :
    buf (k % N) = xs[k] ∧ Window N buf xs (k + 1) := by
  refine ⟨h.cell k hk (Nat.le_refl k), hk, ?_, fun i hi hki => h.cell i hi (by omega)⟩
  have := h.fits
  omega

/-- The two ends meet in the same cell exactly when the window is empty. -/
theorem Window.mod_eq_iff (h : Window N buf xs k) : xs.length % N = k % N ↔ xs.length = k := by
  constructor
  · intro heq
    by_contra hne
    have hle := h.le
    exact mod_ne_of_lt (by omega) h.fits heq.symm
  · rintro rfl
    rfl

end Base
end JackOS
