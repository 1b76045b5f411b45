/-
  JackOS.Base.Pointwise

  Lists of indices whose values change at one index.  Each lemma sets one
  element of a list apart from the rest, where nothing changes.
-/

import Mathlib.Data.List.Nodup
import Mathlib.Data.List.Perm.Basic

namespace JackOS
namespace Base

variable {α β : Type _} [DecidableEq α] {l : List α} {i : α}

/-- Counting, with one element set apart. -/
theorem countP_eq_erase (p : α → Bool) (h : i ∈ l) :
    l.countP p = (if p i then 1 else 0) + (l.erase i).countP p := by
  rw [(List.perm_cons_erase h).countP_eq p, List.countP_cons, Nat.add_comm]

theorem countP_erase_congr {p q : α → Bool} (hl : l.Nodup) (h : ∀ j, j ≠ i → p j = q j) :
    (l.erase i).countP p = (l.erase i).countP q := by
  refine List.countP_congr fun j hj => ?_
  rw [h j (hl.mem_erase_iff.1 hj).1]

/-- The values of a partial function, with one element set apart. -/
theorem filterMap_perm_erase (f : α → Option β) (h : i ∈ l) :
    (l.filterMap f).Perm ((f i).toList ++ (l.erase i).filterMap f) := by
  refine ((List.perm_cons_erase h).filterMap f).trans ?_
  cases hfi : f i with
  | none => rw [List.filterMap_cons_none hfi]; exact .refl _
  | some b => rw [List.filterMap_cons_some hfi]; exact .refl _

/-- A concatenation, with one part set apart. -/
theorem flatMap_perm_erase (f : α → List β) (h : i ∈ l) :
    (l.flatMap f).Perm (f i ++ (l.erase i).flatMap f) :=
  ((List.perm_cons_erase h).flatMap_right f).trans (by rw [List.flatMap_cons])

theorem flatMap_erase_congr {f g : α → List β} (hl : l.Nodup) (h : ∀ j, j ≠ i → f j = g j) :
    (l.erase i).flatMap f = (l.erase i).flatMap g :=
  List.flatMap_congr fun j hj => h j (hl.mem_erase_iff.1 hj).1

/-- Two tests that agree on a list find the same element. -/
theorem find?_eq_of_mem {α : Type _} {l : List α} {f g : α → Bool} (h : ∀ q ∈ l, f q = g q) :
    l.find? f = l.find? g := by
  induction l with
  | nil => rfl
  | cons q l ih =>
      have htail := ih fun r hr => h r (List.mem_cons_of_mem _ hr)
      have hq := h q List.mem_cons_self
      cases hf : f q with
      | true => rw [List.find?_cons_of_pos hf, List.find?_cons_of_pos (hq ▸ hf)]
      | false =>
          rw [List.find?_cons_of_neg (by simp [hf]), List.find?_cons_of_neg (by simp [← hq, hf]),
            htail]

/-- Searching a list without an element that is not looked for. -/
theorem find?_erase_of_not {α : Type _} [DecidableEq α] {l : List α} {p : α} {f : α → Bool} (hp : f p = false) :
    (l.erase p).find? f = l.find? f := by
  induction l with
  | nil => rfl
  | cons q l ih =>
      by_cases hqp : q = p
      · subst hqp
        rw [List.erase_cons_head, List.find?_cons_of_neg (by simp [hp])]
      · rw [List.erase_cons_tail (by simpa using hqp)]
        cases hq : f q with
        | true => rw [List.find?_cons_of_pos hq, List.find?_cons_of_pos hq]
        | false => rw [List.find?_cons_of_neg (by simp [hq]), List.find?_cons_of_neg (by simp [hq]), ih]

end Base
end JackOS
