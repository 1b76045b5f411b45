/-
  JackOS.Base.Outcome

  Results of C code that can stop: a call either returns a value or ends in a
  `Fault`.  Code is written in the `Except` monad with the state passed along
  explicitly, and proofs take a run apart with `Outcome.bind_eq_ok`, which
  splits one sequential composition at a time, or put it together with
  `Outcome.Meets`, a postcondition and the condition under which it returns.
-/

import Mathlib.Tactic.Common
import Mathlib.Algebra.Ring.Nat

namespace JackOS
namespace Base

/-- The ways a C call can fail to return. -/
inductive Fault where
  /-- An assertion failed and the machine spins for ever. -/
  | assertFailed
  /-- The run leaves the defined part of C (wild pointer, store out of bounds,
  read of an uninitialised object). -/
  | undefined
  /-- A loop makes no progress. -/
  | diverges
deriving DecidableEq, Repr

/-- The result of a call. -/
abbrev Outcome (α : Type _) := Except Fault α

namespace Outcome

variable {α β : Type _}

/-- A sequential composition returns exactly when both halves do. -/
theorem bind_eq_ok {x : Outcome α} {f : α → Outcome β} {b : β} :
    (x >>= f) = .ok b ↔ ∃ a, x = .ok a ∧ f a = .ok b := by
  constructor
  · intro h
    rcases x with e | a
    · cases h
    · exact ⟨a, rfl, h⟩
  · rintro ⟨a, rfl, h⟩
    exact h

@[simp] theorem ok_bind (a : α) (f : α → Outcome β) :
    ((Except.ok a : Outcome α) >>= f) = f a := rfl

@[simp] theorem error_bind (e : Fault) (f : α → Outcome β) :
    ((Except.error e : Outcome α) >>= f) = .error e := rfl

@[simp] theorem pure_eq_ok (a : α) : (pure a : Outcome α) = .ok a := rfl

/-- The call returns a value that passes the test. -/
def returns (r : Outcome α) (test : α → Bool) : Bool :=
  match r with
  | .ok a => test a
  | .error _ => false

theorem returns_iff {r : Outcome α} {test : α → Bool} :
    r.returns test = true ↔ ∃ a, r = .ok a ∧ test a = true := by
  cases r with
  | error e => simp [returns]
  | ok a => simp [returns]

/-! ## Safety -/

/-- No assertion fails, and the run stays in the defined part of C. -/
def Safe (r : Outcome α) : Prop := r ≠ .error .assertFailed ∧ r ≠ .error .undefined

theorem safe_ok (a : α) : Safe (.ok a) := ⟨nofun, nofun⟩

/-- One half after the other. -/
theorem safe_bind_iff {x : Outcome α} {f : α → Outcome β} :
    Safe (x >>= f) ↔ Safe x ∧ ∀ a, x = .ok a → Safe (f a) := by
  cases x with
  | ok a => exact ⟨fun h => ⟨safe_ok a, fun b hb => Except.ok.inj hb ▸ h⟩, fun h => h.2 a rfl⟩
  | error e =>
      refine ⟨fun h => ⟨⟨fun he => h.1 ?_, fun he => h.2 ?_⟩, nofun⟩,
        fun h => ⟨fun he => h.1.1 ?_, fun he => h.1.2 ?_⟩⟩
      all_goals
        cases he
        rfl

theorem not_safe_undefined : ¬ Safe (.error .undefined : Outcome α) := fun h => h.2 rfl

/-! ## Postconditions -/

/-- What the call returns is as `post` says, and where `served` holds it does
    return. -/
structure Meets (served : Prop) (r : Outcome α) (post : α → Prop) : Prop where
  post : ∀ a, r = .ok a → post a
  returns : served → ∃ a, r = .ok a

variable {served : Prop} {r : Outcome α} {post post' : α → Prop}

theorem meets_ok {a : α} (h : post a) : Meets served (.ok a) post :=
  ⟨fun _ hb => Except.ok.inj hb ▸ h, fun _ => ⟨a, rfl⟩⟩

theorem Meets.mono (h : Meets served r post) (himp : ∀ a, post a → post' a) :
    Meets served r post' :=
  ⟨fun a ha => himp a (h.post a ha), h.returns⟩

theorem Meets.weaken {served' : Prop} (h : Meets served r post) (himp : served' → served) :
    Meets served' r post :=
  ⟨h.post, fun hs => h.returns (himp hs)⟩

theorem Meets.with_eq (h : Meets served r post) :
    Meets served r fun a => r = .ok a ∧ post a :=
  ⟨fun a ha => ⟨ha, h.post a ha⟩, h.returns⟩

/-- One half after the other. -/
theorem Meets.bind {f : α → Outcome β} {post' : β → Prop} (h : Meets served r post)
    (hf : ∀ a, post a → Meets served (f a) post') : Meets served (r >>= f) post' := by
  constructor
  · intro b hb
    obtain ⟨a, ha, hb⟩ := bind_eq_ok.1 hb
    exact (hf a (h.post a ha)).post b hb
  · intro hserved
    obtain ⟨a, ha⟩ := h.returns hserved
    obtain ⟨b, hb⟩ := (hf a (h.post a ha)).returns hserved
    exact ⟨b, bind_eq_ok.2 ⟨a, ha, hb⟩⟩

/-- The value that is returned. -/
theorem Meets.exists (h : Meets served r post) (hserved : served) : ∃ a, r = .ok a ∧ post a := by
  obtain ⟨a, ha⟩ := h.returns hserved
  exact ⟨a, ha, h.post a ha⟩

end Outcome

/-- A checked assertion: returns when `c` holds, spins otherwise. -/
def require (c : Prop) [Decidable c] : Outcome Unit :=
  if c then .ok () else .error .assertFailed

@[simp] theorem require_eq_ok {c : Prop} [Decidable c] {u : Unit} :
    require c = .ok u ↔ c := by
  unfold require
  split <;> simp_all

theorem require_pos {c : Prop} [Decidable c] (h : c) : require c = .ok () := by
  simp [h]

theorem require_neg {c : Prop} [Decidable c] (h : ¬ c) :
    require c = .error .assertFailed := by
  simp [require, h]

end Base
end JackOS
