/-
  JackOS.Lib.List

  lib/kernel/list.c: the kernel's intrusive doubly linked lists, over any store
  of link fields.  Each function has one lemma that says which list it leaves
  and which nodes it writes; the `Family` versions add that all other lists of
  a family are untouched.
-/

import JackOS.Base.LinkedList
import JackOS.Base.Outcome

namespace JackOS
namespace Lib

open Base Base.LinkStore

/-- `list_t`. -/
abbrev ListT (α : Type _) := Anchor α

section Model

variable {σ α : Type _} (S : LinkStore σ α)

def listInit (s : σ) (list : ListT α) : σ :=
  let s := S.setPrev s list.head S.null
  let s := S.setNext s list.head list.tail
  let s := S.setPrev s list.tail list.head
  S.setNext s list.tail S.null

def listInsertBefore (s : σ) (before elem : α) : σ :=
  let s := S.setNext s (S.prev s before) elem
  let s := S.setPrev s elem (S.prev s before)
  let s := S.setNext s elem before
  S.setPrev s before elem

def listPush (s : σ) (plist : ListT α) (elem : α) : σ :=
  listInsertBefore S s (S.next s plist.head) elem

def listAppend (s : σ) (plist : ListT α) (elem : α) : σ :=
  listInsertBefore S s plist.tail elem

def listRemove (s : σ) (pelem : α) : σ :=
  let s := S.setNext s (S.prev s pelem) (S.next s pelem)
  S.setPrev s (S.next s pelem) (S.prev s pelem)

def listPop (s : σ) (plist : ListT α) : α × σ :=
  let elem := S.next s plist.head
  (elem, listRemove S s elem)

variable [DecidableEq α]

/-- The loop of `elem_find`, from `elem` on. -/
def elemFindFrom (s : σ) (plist : ListT α) (objElem : α) : Nat → α → Outcome Bool
  | 0, _ => .error .diverges
  | fuel + 1, elem =>
      if elem = plist.tail ∨ elem = S.null then .ok false
      else if elem = objElem then .ok true
      else elemFindFrom s plist objElem fuel (S.next s elem)

/-- More rounds than a list of 32-bit pointers has nodes. -/
def listFuel : Nat := 2 ^ 32 + 1

def elemFind (s : σ) (plist : ListT α) (objElem : α) : Outcome Bool :=
  elemFindFrom S s plist objElem listFuel (S.next s plist.head)

def listEmpty (s : σ) (plist : ListT α) : Bool :=
  decide (S.next s plist.head = plist.tail)

end Model

variable {σ α : Type _} {S : LinkStore σ α} {s : σ} {l : ListT α} {xs ys : List α} {e p q x : α}

/-! ## The lists the functions leave -/

theorem listInit_spec (hap : S.apart l.head l.tail) (hh : S.valid l.head ∧ l.head ≠ S.null)
    (ht : S.valid l.tail ∧ l.tail ≠ S.null) :
    S.Holds (listInit S s l) l [] ∧ Edits S {l.head, l.tail} s (listInit S s l) := by
  refine ⟨holds_nil hap ⟨?_, ?_⟩ hh ht, ?_⟩
  · rw [listInit, S.next_setNext_of_apart _ _ _ _ (S.apart_symm hap),
      S.next_setPrev _ _ _ _ (.inr (S.apart_symm hap)), S.next_setNext_self _ _ _ ht.1]
  · rw [listInit, S.prev_setNext _ _ _ _ (.inl rfl), S.prev_setPrev_self _ _ _ hh.1]
  · exact .next (.prev (.next (.prev .refl (by simp)) (by simp)) (by simp)) (by simp)

/-- Inserting before `q` links the new node between `q` and its predecessor. -/
theorem listInsertBefore_eq (hp : S.prev s q = p) (hpq : S.apart p q) :
    listInsertBefore S s q e = S.link s p e q := by
  have hq : S.prev (S.setNext s p e) q = p := by
    rw [S.prev_setNext _ _ _ _ (.inr hpq), hp]
  simp only [listInsertBefore, hp, hq, LinkStore.link]

/-- Removing `e` joins its neighbours. -/
theorem listRemove_eq (hp : S.prev s e = p) (hq : S.next s e = q) (hpe : S.apart p e) :
    listRemove S s e = S.unlink s p q := by
  have hn : S.next (S.setNext s p q) e = q := by
    rw [S.next_setNext_of_apart _ _ _ _ hpe, hq]
  have hv : S.prev (S.setNext s p q) e = p := by
    rw [S.prev_setNext _ _ _ _ (.inr hpe), hp]
  simp only [listRemove, hp, hq, hn, hv, LinkStore.unlink]

/-- The nodes an edit of a list may write. -/
theorem edits_of_subset {t : σ} {N : Set α} (h : Edits S N s t)
    (hN : ∀ x ∈ N, x ∈ l.nodes xs ∨ x = e) : Edits S {x | x ∈ l.nodes xs ∨ x = e} s t :=
  h.mono fun x hx => hN x hx

theorem listAppend_spec (h : S.Holds s l xs) (he : S.Fresh l xs e) :
    S.Holds (listAppend S s l e) l (xs ++ [e])
      ∧ Edits S {x | x ∈ l.nodes xs ∨ x = e} s (listAppend S s l e) := by
  obtain ⟨A, p, hA⟩ := exists_last l.head xs
  have hp : S.prev s l.tail = p := h.prev_tail hA
  have hnodes : l.nodes xs = (A ++ [p]) ++ [l.tail] := by
    rw [Anchor.nodes, ← List.cons_append, hA]
  have hpq : S.apart p l.tail := by
    have hap := h.apart
    rw [hnodes, List.pairwise_append] at hap
    exact hap.2.2 p (by simp) l.tail (by simp)
  rw [listAppend, listInsertBefore_eq hp hpq]
  refine ⟨?_, edits_of_subset edits_link fun x hx => ?_⟩
  · have h' : S.Holds s l (xs ++ []) := by simpa using h
    exact h'.link (B := []) hA rfl (by simpa using he)
  · rw [hnodes]
    simp only [Set.mem_insert_iff, Set.mem_singleton_iff] at hx
    rcases hx with rfl | rfl | rfl <;> simp

theorem listPush_spec (h : S.Holds s l xs) (he : S.Fresh l xs e) :
    S.Holds (listPush S s l e) l (e :: xs)
      ∧ Edits S {x | x ∈ l.nodes xs ∨ x = e} s (listPush S s l e) := by
  obtain ⟨q, B, hB⟩ : ∃ q B, xs ++ [l.tail] = q :: B := by
    rcases xs with _ | ⟨x, xs⟩
    · exact ⟨_, _, rfl⟩
    · exact ⟨_, _, rfl⟩
  have hnodes : l.nodes xs = [] ++ l.head :: q :: B := by
    rw [Anchor.nodes, hB]
    rfl
  have hc := h.chained
  have hap := h.apart
  rw [hnodes] at hc hap
  have hpq : S.apart l.head q := (List.pairwise_cons.1 hap).1 q (by simp)
  rw [listPush, hc.next_eq.1, listInsertBefore_eq hc.next_eq.2 hpq]
  refine ⟨?_, edits_of_subset edits_link fun x hx => ?_⟩
  · have h' : S.Holds s l ([] ++ xs) := by simpa using h
    exact h'.link (A := []) rfl hB (by simpa using he)
  · rw [hnodes]
    simp only [Set.mem_insert_iff, Set.mem_singleton_iff] at hx
    rcases hx with rfl | rfl | rfl <;> simp

theorem listRemove_spec (h : S.Holds s l (xs ++ e :: ys)) :
    S.Holds (listRemove S s e) l (xs ++ ys)
      ∧ Edits S {x | x ∈ l.nodes (xs ++ e :: ys)} s (listRemove S s e) := by
  obtain ⟨A, p, hA⟩ := exists_last l.head xs
  obtain ⟨q, B, hB⟩ : ∃ q B, ys ++ [l.tail] = q :: B := by
    rcases ys with _ | ⟨y, ys⟩
    · exact ⟨_, _, rfl⟩
    · exact ⟨_, _, rfl⟩
  obtain ⟨hp, hq⟩ := h.neighbours hA hB
  have hnodes : l.nodes (xs ++ e :: ys) = (A ++ [p]) ++ e :: q :: B := by
    rw [Anchor.nodes_append_cons, hA, hB]
  have hpe : S.apart p e := by
    have hap := h.apart
    rw [hnodes, List.pairwise_append] at hap
    exact hap.2.2 p (by simp) e (by simp)
  rw [listRemove_eq hp hq hpe]
  refine ⟨h.unlink hA hB, edits_unlink.mono fun x hx => ?_⟩
  rw [Set.mem_ofPred_eq, hnodes]
  simp only [Set.mem_insert_iff, Set.mem_singleton_iff] at hx
  rcases hx with rfl | rfl <;> simp

section Find

variable [DecidableEq α]

theorem listEmpty_eq (h : S.Holds s l xs) : listEmpty S s l = decide (xs = []) := by
  rcases xs with _ | ⟨x, xs⟩
  · simp [listEmpty, h.next_head_nil]
  · have hne : x ≠ l.tail := fun heq => h.tail_not_mem (heq ▸ List.mem_cons_self)
    simp [listEmpty, h.next_head, hne]

/-- The loop of `elem_find` walks the rest of the list. -/
theorem elemFindFrom_eq {pre : List α} (h : S.Holds s l (pre ++ xs)) {fuel : Nat}
    (hfuel : xs.length < fuel) {q : α} {B : List α} (hq : xs ++ [l.tail] = q :: B) :
    elemFindFrom S s l x fuel q = .ok (decide (x ∈ xs)) := by
  induction xs generalizing pre fuel q B with
  | nil =>
      obtain ⟨fuel, rfl⟩ : ∃ k, fuel = k + 1 := ⟨fuel - 1, by simp at hfuel; omega⟩
      obtain ⟨rfl, -⟩ : l.tail = q ∧ [] = B := by simpa using hq
      simp [elemFindFrom]
  | cons y ys ih =>
      obtain ⟨fuel, rfl⟩ : ∃ k, fuel = k + 1 := ⟨fuel - 1, by simp at hfuel; omega⟩
      obtain ⟨rfl, hB⟩ : y = q ∧ ys ++ [l.tail] = B := by simpa using hq
      have htail : y ≠ l.tail := fun heq => h.tail_not_mem (heq ▸ by simp)
      have hnull : y ≠ S.null := (h.valid y (by simp)).2
      rw [elemFindFrom, if_neg (not_or.2 ⟨htail, hnull⟩)]
      by_cases hyx : y = x
      · rw [if_pos hyx]
        simp [hyx]
      · rw [if_neg hyx]
        obtain ⟨r, C, hC⟩ : ∃ r C, ys ++ [l.tail] = r :: C := by
          rcases ys with _ | ⟨z, zs⟩
          · exact ⟨_, _, rfl⟩
          · exact ⟨_, _, rfl⟩
        obtain ⟨A, p, hA⟩ := exists_last l.head pre
        have h' : S.Holds s l ((pre ++ [y]) ++ ys) := by simpa using h
        rw [(h.neighbours hA hC).2, ih h' (by simp at hfuel; omega) hC]
        simp [Ne.symm hyx]

theorem elemFind_eq (h : S.Holds s l xs) (hlen : xs.length < listFuel) :
    elemFind S s l x = .ok (decide (x ∈ xs)) := by
  have h' : S.Holds s l ([] ++ xs) := h
  rcases xs with _ | ⟨y, ys⟩
  · rw [elemFind, h.next_head_nil]
    exact elemFindFrom_eq h' hlen rfl
  · rw [elemFind, h.next_head]
    exact elemFindFrom_eq h' hlen rfl

end Find

/-! ## Several lists -/

section Family

variable {κ : Type _} [DecidableEq κ] {ls : κ → ListT α} {xss : κ → List α} {k : κ}

/-- A node apart from all lists of the family. -/
def Outside (S : LinkStore σ α) (ls : κ → ListT α) (xss : κ → List α) (e : α) : Prop :=
  S.valid e ∧ e ≠ S.null ∧ ∀ k, ∀ z ∈ (ls k).nodes (xss k), S.apart z e

omit [DecidableEq κ] in
theorem Outside.fresh (he : Outside S ls xss e) : S.Fresh (ls k) (xss k) e :=
  ⟨he.1, he.2.1, he.2.2 k⟩

theorem Family.listAppend (h : S.Family s ls xss) (he : Outside S ls xss e) :
    S.Family (Lib.listAppend S s (ls k) e) ls (Function.update xss k (xss k ++ [e])) := by
  obtain ⟨hk, hed⟩ := listAppend_spec (h.holds k) he.fresh
  exact h.replace hk hed (fun k' _ z hz => S.apart_symm (he.2.2 k' z hz)) (by simp)

theorem Family.listPush (h : S.Family s ls xss) (he : Outside S ls xss e) :
    S.Family (Lib.listPush S s (ls k) e) ls (Function.update xss k (e :: xss k)) := by
  obtain ⟨hk, hed⟩ := listPush_spec (h.holds k) he.fresh
  refine h.replace hk hed (fun k' _ z hz => S.apart_symm (he.2.2 k' z hz)) fun y hy => ?_
  exact (List.mem_cons.1 hy).symm

theorem Family.listRemove (h : S.Family s ls xss) (hk : xss k = xs ++ e :: ys) :
    S.Family (Lib.listRemove S s e) ls (Function.update xss k (xs ++ ys)) := by
  obtain ⟨hrem, hed⟩ := listRemove_spec (hk ▸ h.holds k)
  have hmem : e ∈ (ls k).nodes (xss k) := by simp [hk]
  refine h.replace (e := e) hrem (hed.mono fun x hx => ?_) (fun k' hne z hz => ?_) ?_
  · exact .inl (hk ▸ hx)
  · exact h.apart k k' (Ne.symm hne) e hmem z hz
  · intro y hy
    rw [hk]
    simp only [List.mem_append, List.mem_cons] at hy ⊢
    tauto

theorem Family.listPop (h : S.Family s ls xss) (hk : xss k = e :: xs) :
    (Lib.listPop S s (ls k)).1 = e
      ∧ S.Family (Lib.listPop S s (ls k)).2 ls (Function.update xss k xs) := by
  have hhead : S.next s (ls k).head = e := (hk ▸ h.holds k).next_head
  have hk' : xss k = [] ++ e :: xs := hk
  simp only [Lib.listPop, hhead]
  exact ⟨trivial, Family.listRemove h hk'⟩

end Family

end Lib
end JackOS
