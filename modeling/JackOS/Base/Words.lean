/-
  JackOS.Base.Words

  The words of a list: what stands between the separators, without the empty
  pieces.  `words` is told apart by its first separator (`words_sep_cons`,
  `words_append_sep`), which is how a scanner meets them, and words that are
  joined again come back as they were.
-/

import Mathlib.Tactic.Common
import Mathlib.Data.List.Basic
import Mathlib.Data.List.Flatten
import Mathlib.Data.List.TakeWhile

namespace JackOS
namespace Base

variable {α : Type*} {sep : α}

/-! ## Splitting -/

section Words

variable [DecidableEq α]

/-- The longest runs of a list without `sep`, the empty ones left out. -/
def words (sep : α) (l : List α) : List (List α) := (l.splitOn sep).filter (· ≠ [])

@[simp] theorem words_nil : words sep [] = [] := by
  simp [words]

theorem words_append_sep (l l' : List α) :
    words sep (l ++ sep :: l') = words sep l ++ words sep l' := by
  rw [words, List.splitOn_append_cons_self, List.filter_append]
  rfl

/-- Separators in front are skipped. -/
theorem words_sep_cons (l : List α) : words sep (sep :: l) = words sep l := by
  simpa using words_append_sep [] l

/-- A piece without separator is one word. -/
theorem words_of_notMem {w : List α} (hne : w ≠ []) (hw : sep ∉ w) : words sep w = [w] := by
  rw [words, List.splitOn_eq_singleton hw, List.filter_cons_of_pos (by simpa using hne)]
  rfl

/-- A word ends at the first separator. -/
theorem words_cons {w : List α} (hne : w ≠ []) (hw : sep ∉ w) (l : List α) :
    words sep (w ++ sep :: l) = w :: words sep l := by
  rw [words_append_sep, words_of_notMem hne hw]
  rfl

theorem words_eq_nil_of_all {l : List α} (h : ∀ a ∈ l, a = sep) : words sep l = [] := by
  induction l with
  | nil => exact words_nil
  | cons a l ih =>
      rw [h a List.mem_cons_self, words_sep_cons]
      exact ih fun b hb => h b (List.mem_cons_of_mem _ hb)

/-- A word is not empty, has no separator, and its elements are the list's. -/
theorem mem_words {l w : List α} (h : w ∈ words sep l) : w ≠ [] ∧ sep ∉ w ∧ ∀ a ∈ w, a ∈ l := by
  obtain ⟨n, hn⟩ : ∃ n, l.length = n := ⟨_, rfl⟩
  induction n using Nat.strong_induction_on generalizing l with
  | _ n ih =>
      by_cases hsep : sep ∈ l
      · obtain ⟨l₁, l₂, hl, hnot⟩ := List.eq_append_cons_of_mem hsep
        have hlen : l₁.length + 1 + l₂.length = n := by
          rw [← hn, hl, List.length_append, List.length_cons]
          omega
        rw [hl, words_append_sep] at h
        rcases List.mem_append.1 h with h | h
        · obtain ⟨hne, hfree, hmem⟩ := ih _ (by omega) h rfl
          exact ⟨hne, hfree, fun a ha => by rw [hl]; exact List.mem_append_left _ (hmem a ha)⟩
        · obtain ⟨hne, hfree, hmem⟩ := ih _ (by omega) h rfl
          refine ⟨hne, hfree, fun a ha => ?_⟩
          rw [hl]
          exact List.mem_append_right _ (List.mem_cons_of_mem _ (hmem a ha))
      · by_cases hnil : l = []
        · rw [hnil, words_nil] at h
          cases h
        · rw [words_of_notMem hnil hsep, List.mem_singleton] at h
          rw [h]
          exact ⟨hnil, hsep, fun _ ha => ha⟩

/-- Skipping what stands in front of a word. -/
theorem words_dropWhile (l : List α) : words sep (l.dropWhile (· == sep)) = words sep l := by
  induction l with
  | nil => rfl
  | cons a l ih =>
      by_cases ha : a = sep
      · rw [List.dropWhile_cons_of_pos (by simpa using ha), ih, ha, words_sep_cons]
      · rw [List.dropWhile_cons_of_neg (by simpa using ha)]

/-- The words of a list that starts inside a word: that word, and the words of
    what follows it. -/
theorem words_takeWhile {l : List α} (hne : l.takeWhile (· != sep) ≠ []) :
    words sep l = l.takeWhile (· != sep) :: words sep (l.dropWhile (· != sep)) := by
  have hfree : sep ∉ l.takeWhile (· != sep) := by
    intro hmem
    simpa using List.mem_takeWhile_imp hmem
  have hsplit := List.takeWhile_append_dropWhile (p := (· != sep)) (l := l)
  cases hrest : l.dropWhile (· != sep) with
  | nil =>
      rw [hrest, List.append_nil] at hsplit
      rw [words_nil]
      nth_rewrite 1 [← hsplit]
      exact words_of_notMem hne hfree
  | cons a rest =>
      have ha : a = sep := by
        have hhead := List.head_dropWhile_not (· != sep) (l := l) (by rw [hrest]; simp)
        simp only [hrest, List.head_cons] at hhead
        simpa using hhead
      rw [hrest] at hsplit
      nth_rewrite 1 [← hsplit]
      rw [ha, words_cons hne hfree, words_sep_cons]

/-- What follows the list starts with a new word. -/
def Boundary (sep : α) (l : List α) : Prop := ∀ l', words sep (l ++ l') = words sep l ++ words sep l'

theorem boundary_nil : Boundary sep [] := fun l' => by simp

theorem boundary_append_sep (l : List α) : Boundary sep (l ++ [sep]) := by
  intro l'
  rw [List.append_assoc, List.singleton_append, words_append_sep, words_append_sep, words_nil,
    List.append_nil]

/-- More separators change nothing. -/
theorem Boundary.append_seps {l : List α} (h : Boundary sep l) (seps : List α) (hseps : ∀ a ∈ seps, a = sep) :
    Boundary sep (l ++ seps) ∧ words sep (l ++ seps) = words sep l := by
  induction seps generalizing l with
  | nil =>
      rw [List.append_nil]
      exact ⟨h, rfl⟩
  | cons a seps ih =>
      obtain ⟨hbound, hwords⟩ := ih (boundary_append_sep l) fun b hb =>
        hseps b (List.mem_cons_of_mem a hb)
      rw [hseps a List.mem_cons_self, List.append_cons]
      refine ⟨hbound, hwords.trans ?_⟩
      rw [h, words_sep_cons, words_nil, List.append_nil]

end Words

/-! ## Joining -/

/-- The words, each after a separator. -/
def joinAll (sep : α) (ws : List (List α)) : List α := ws.flatMap fun w => sep :: w

@[simp] theorem joinAll_nil : joinAll sep [] = [] := rfl

theorem joinAll_append (ws ws' : List (List α)) :
    joinAll sep (ws ++ ws') = joinAll sep ws ++ joinAll sep ws' :=
  List.flatMap_append

@[simp] theorem joinAll_cons (w : List α) (ws : List (List α)) :
    joinAll sep (w :: ws) = sep :: w ++ joinAll sep ws :=
  List.flatMap_cons

theorem length_joinAll_le_of_sublist {ws ws' : List (List α)} (h : ws.Sublist ws') :
    (joinAll sep ws).length ≤ (joinAll sep ws').length :=
  (h.flatMap _).length_le

variable [DecidableEq α]

/-- Words that are joined are the words of the result. -/
theorem words_joinAll {ws : List (List α)} (h : ∀ w ∈ ws, w ≠ [] ∧ sep ∉ w) :
    words sep (joinAll sep ws) = ws := by
  induction ws with
  | nil => exact words_nil
  | cons w ws ih =>
      obtain ⟨hne, hfree⟩ := h w List.mem_cons_self
      have ih := ih fun w' hw' => h w' (List.mem_cons_of_mem _ hw')
      rw [joinAll_cons, List.cons_append, words_sep_cons]
      cases ws with
      | nil => simpa using words_of_notMem hne hfree
      | cons w' ws =>
          rw [joinAll_cons, List.cons_append, words_cons hne hfree, ← words_sep_cons,
            ← List.cons_append, ← joinAll_cons, ih]

/-- The words of a list fit into it, each with a separator, but perhaps for
    the first one's. -/
theorem length_joinAll_words (sep : α) (l : List α) : (joinAll sep (words sep l)).length ≤ l.length + 1 := by
  obtain ⟨n, hn⟩ : ∃ n, l.length = n := ⟨_, rfl⟩
  induction n using Nat.strong_induction_on generalizing l with
  | _ n ih =>
      by_cases hsep : sep ∈ l
      · obtain ⟨l₁, l₂, hl, -⟩ := List.eq_append_cons_of_mem hsep
        have hlen : l₁.length + 1 + l₂.length = n := by
          rw [← hn, hl, List.length_append, List.length_cons]
          omega
        have h₁ := ih _ (by omega) l₁ rfl
        have h₂ := ih _ (by omega) l₂ rfl
        rw [hl, words_append_sep, joinAll_append, List.length_append, List.length_append,
          List.length_cons]
        omega
      · by_cases hnil : l = []
        · rw [hnil]
          simp
        · rw [words_of_notMem hnil hsep]
          simp

end Base
end JackOS
