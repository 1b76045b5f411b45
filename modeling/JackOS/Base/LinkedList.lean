/-
  JackOS.Base.LinkedList

  Intrusive doubly linked lists with a head and a tail sentinel.  The links
  live in an arbitrary store: a `LinkStore` says how link fields are read and
  written, and which nodes have fields that do not overlap, so that the same
  lemmas serve links kept in records and links kept in raw memory.

  `Holds s l xs` reads a list between the sentinels `l` as the list `xs` of its
  nodes; `link` and `unlink` are the two edits, and `Edits N` bounds what an
  operation wrote.  `Family` is a collection of lists that share no node.
-/

import Mathlib.Data.List.Chain
import Mathlib.Data.Set.Lattice
import Mathlib.Logic.Function.Basic

namespace JackOS
namespace Base

/-- Link fields of nodes `α` kept in a store `σ`. -/
structure LinkStore (σ α : Type _) where
  next : σ → α → α
  prev : σ → α → α
  setNext : σ → α → α → σ
  setPrev : σ → α → α → σ
  null : α
  /-- The pointers a link field can hold. -/
  valid : α → Prop
  /-- The fields of the two nodes do not overlap. -/
  apart : α → α → Prop
  apart_symm : ∀ {x y}, apart x y → apart y x
  apart_irrefl : ∀ x, ¬ apart x x
  next_setNext_self : ∀ s x y, valid y → next (setNext s x y) x = y
  next_setNext_of_apart : ∀ s x y z, apart x z → next (setNext s x y) z = next s z
  next_setPrev : ∀ s x y z, x = z ∨ apart x z → next (setPrev s x y) z = next s z
  prev_setPrev_self : ∀ s x y, valid y → prev (setPrev s x y) x = y
  prev_setPrev_of_apart : ∀ s x y z, apart x z → prev (setPrev s x y) z = prev s z
  prev_setNext : ∀ s x y z, x = z ∨ apart x z → prev (setNext s x y) z = prev s z

/-- Link fields kept in the nodes themselves, one pair for each node. -/
structure Links (α : Type _) where
  next : α → α
  prev : α → α

/-- The link store of such nodes: different nodes have different fields. -/
def Links.store {α : Type _} [DecidableEq α] (null : α) : LinkStore (Links α) α where
  next L x := L.next x
  prev L x := L.prev x
  setNext L x y := { L with next := Function.update L.next x y }
  setPrev L x y := { L with prev := Function.update L.prev x y }
  null := null
  valid _ := True
  apart x y := x ≠ y
  apart_symm := Ne.symm
  apart_irrefl _ h := h rfl
  next_setNext_self _ _ _ _ := Function.update_self _ _ _
  next_setNext_of_apart _ _ _ _ h := Function.update_of_ne (Ne.symm h) _ _
  next_setPrev _ _ _ _ _ := rfl
  prev_setPrev_self _ _ _ _ := Function.update_self _ _ _
  prev_setPrev_of_apart _ _ _ _ h := Function.update_of_ne (Ne.symm h) _ _
  prev_setNext _ _ _ _ _ := rfl

/-- The two sentinels of a list. -/
structure Anchor (α : Type _) where
  head : α
  tail : α

/-- The nodes of a list, sentinels included. -/
def Anchor.nodes {α : Type _} (l : Anchor α) (xs : List α) : List α :=
  l.head :: (xs ++ [l.tail])

namespace Anchor

variable {α : Type _} {l : Anchor α} {xs ys : List α} {x : α}

@[simp] theorem mem_nodes : x ∈ l.nodes xs ↔ x = l.head ∨ x ∈ xs ∨ x = l.tail := by
  simp [nodes]

theorem nodes_append_cons : l.nodes (xs ++ x :: ys) = (l.head :: xs) ++ x :: (ys ++ [l.tail]) := by
  simp [nodes]

theorem nodes_append : l.nodes (xs ++ ys) = (l.head :: xs) ++ (ys ++ [l.tail]) := by
  simp [nodes]

end Anchor

namespace LinkStore

variable {σ α : Type _} (S : LinkStore σ α)

/-- `y` follows `x`. -/
def Linked (s : σ) (x y : α) : Prop := S.next s x = y ∧ S.prev s y = x

/-- Consecutive nodes are linked both ways. -/
def Chained (s : σ) (L : List α) : Prop := L.IsChain (S.Linked s)

/-- Put `e` between the neighbours `p` and `q`. -/
def link (s : σ) (p e q : α) : σ :=
  S.setPrev (S.setNext (S.setPrev (S.setNext s p e) e p) e q) q e

/-- Join `p` and `q`. -/
def unlink (s : σ) (p q : α) : σ := S.setPrev (S.setNext s p q) q p

variable {S} {s s' s'' : σ} {p e q z : α}

/-! ## The two edits, field by field -/

theorem next_link_of_apart (hp : S.apart p z) (he : S.apart e z) (hq : q = z ∨ S.apart q z) :
    S.next (S.link s p e q) z = S.next s z := by
  rw [link, S.next_setPrev _ _ _ _ hq, S.next_setNext_of_apart _ _ _ _ he,
    S.next_setPrev _ _ _ _ (.inr he), S.next_setNext_of_apart _ _ _ _ hp]

theorem prev_link_of_apart (hp : p = z ∨ S.apart p z) (he : S.apart e z) (hq : S.apart q z) :
    S.prev (S.link s p e q) z = S.prev s z := by
  rw [link, S.prev_setPrev_of_apart _ _ _ _ hq, S.prev_setNext _ _ _ _ (.inr he),
    S.prev_setPrev_of_apart _ _ _ _ he, S.prev_setNext _ _ _ _ hp]

/-- The inserted node is linked to both neighbours. -/
theorem linked_link (hpe : S.apart p e) (hqe : S.apart q e) (hqp : S.apart q p)
    (hvp : S.valid p) (hve : S.valid e) (hvq : S.valid q) :
    S.Linked (S.link s p e q) p e ∧ S.Linked (S.link s p e q) e q := by
  refine ⟨⟨?_, ?_⟩, ?_, ?_⟩
  · rw [link, S.next_setPrev _ _ _ _ (.inr hqp),
      S.next_setNext_of_apart _ _ _ _ (S.apart_symm hpe),
      S.next_setPrev _ _ _ _ (.inr (S.apart_symm hpe)), S.next_setNext_self _ _ _ hve]
  · rw [link, S.prev_setPrev_of_apart _ _ _ _ hqe, S.prev_setNext _ _ _ _ (.inl rfl),
      S.prev_setPrev_self _ _ _ hvp]
  · rw [link, S.next_setPrev _ _ _ _ (.inr hqe), S.next_setNext_self _ _ _ hvq]
  · rw [link, S.prev_setPrev_self _ _ _ hve]

theorem next_unlink_of_apart (hp : S.apart p z) (hq : q = z ∨ S.apart q z) :
    S.next (S.unlink s p q) z = S.next s z := by
  rw [unlink, S.next_setPrev _ _ _ _ hq, S.next_setNext_of_apart _ _ _ _ hp]

theorem prev_unlink_of_apart (hp : p = z ∨ S.apart p z) (hq : S.apart q z) :
    S.prev (S.unlink s p q) z = S.prev s z := by
  rw [unlink, S.prev_setPrev_of_apart _ _ _ _ hq, S.prev_setNext _ _ _ _ hp]

theorem linked_unlink (hpq : S.apart q p) (hvp : S.valid p) (hvq : S.valid q) :
    S.Linked (S.unlink s p q) p q := by
  refine ⟨?_, ?_⟩
  · rw [unlink, S.next_setPrev _ _ _ _ (.inr hpq), S.next_setNext_self _ _ _ hvq]
  · rw [unlink, S.prev_setPrev_self _ _ _ hvp]

/-! ## Chains -/

/-- A chain reads `next` of all nodes but the last and `prev` of all but the
    first. -/
theorem Chained.congr {L : List α} (h : S.Chained s L)
    (hn : ∀ x ∈ L.dropLast, S.next s' x = S.next s x)
    (hp : ∀ y ∈ L.tail, S.prev s' y = S.prev s y) : S.Chained s' L := by
  rw [Chained, List.isChain_iff_forall_rel_of_append_cons_cons] at h ⊢
  rintro a b l₁ l₂ rfl
  obtain ⟨hab, hba⟩ := h rfl
  refine ⟨?_, ?_⟩
  · rw [hn a (by simp [List.dropLast_append_of_ne_nil]), hab]
  · rw [hp b (by cases l₁ <;> simp), hba]

/-- Chains of a memory that keeps all links of the nodes. -/
theorem Chained.frame {L : List α} (h : S.Chained s L)
    (hz : ∀ z ∈ L, S.next s' z = S.next s z ∧ S.prev s' z = S.prev s z) : S.Chained s' L :=
  h.congr (fun x hx => (hz x (List.dropLast_subset _ hx)).1)
    (fun y hy => (hz y (List.mem_of_mem_tail hy)).2)

theorem Chained.next_eq {A B : List α} (h : S.Chained s (A ++ p :: q :: B)) :
    S.next s p = q ∧ S.prev s q = p :=
  (List.isChain_append_cons_cons.1 h).2.1

theorem Chained.unique {a z : α} {xs ys : List α} (hx : S.Chained s (a :: (xs ++ [z])))
    (hy : S.Chained s (a :: (ys ++ [z]))) (hzx : z ∉ xs) (hzy : z ∉ ys) : xs = ys := by
  induction xs generalizing a ys with
  | nil =>
      cases ys with
      | nil => rfl
      | cons y ys =>
          have hnx : S.next s a = z := (List.isChain_cons_cons.1 hx).1.1
          have hny : S.next s a = y := (List.isChain_cons_cons.1 hy).1.1
          exact absurd (hnx.symm.trans hny) fun heq => hzy (by simp [heq])
  | cons x xs ih =>
      obtain ⟨⟨hnx, -⟩, hx'⟩ := List.isChain_cons_cons.1 hx
      cases ys with
      | nil =>
          have hny : S.next s a = z := (List.isChain_cons_cons.1 hy).1.1
          exact absurd (hny.symm.trans hnx) fun heq => hzx (by simp [heq])
      | cons y ys =>
          obtain ⟨⟨hny, -⟩, hy'⟩ := List.isChain_cons_cons.1 hy
          have hxy : x = y := hnx.symm.trans hny
          subst hxy
          rw [ih hx' hy' (fun h => hzx (by simp [h])) (fun h => hzy (by simp [h]))]

/-- Linking a node in. -/
theorem Chained.link {A B : List α} (h : S.Chained s (A ++ p :: q :: B))
    (hap : (A ++ p :: q :: B).Pairwise S.apart)
    (hv : ∀ x ∈ A ++ p :: q :: B, S.valid x)
    (hve : S.valid e) (he : ∀ x ∈ A ++ p :: q :: B, S.apart x e) :
    S.Chained (S.link s p e q) (A ++ p :: e :: q :: B) := by
  obtain ⟨hA, -, hB⟩ := List.isChain_append_cons_cons.1 h
  rw [List.pairwise_append] at hap
  obtain ⟨-, hpqB, hcross⟩ := hap
  rw [List.pairwise_cons] at hpqB
  obtain ⟨hpx, hqB⟩ := hpqB
  have hqx := (List.pairwise_cons.1 hqB).1
  have hpq : S.apart p q := hpx q (by simp)
  obtain ⟨hlpe, hleq⟩ := linked_link (s := s) (he p (by simp)) (he q (by simp))
    (S.apart_symm hpq) (hv p (by simp)) hve (hv q (by simp))
  refine List.isChain_append_cons_cons.2 ⟨?_, hlpe, List.isChain_cons_cons.2 ⟨hleq, ?_⟩⟩
  · -- the chain up to `p` never looks at `next p`
    refine Chained.congr hA (fun x hx => ?_) (fun y hy => ?_)
    · have hxA : x ∈ A := by simpa using hx
      exact next_link_of_apart (S.apart_symm (hcross x hxA p (by simp)))
        (S.apart_symm (he x (by simp [hxA]))) (.inr (S.apart_symm (hcross x hxA q (by simp))))
    · have hyA : y ∈ A ∨ y = p := by simpa using List.mem_of_mem_tail hy
      rcases hyA with hyA | rfl
      · exact prev_link_of_apart (.inr (S.apart_symm (hcross y hyA p (by simp))))
          (S.apart_symm (he y (by simp [hyA]))) (S.apart_symm (hcross y hyA q (by simp)))
      · exact prev_link_of_apart (.inl rfl) (S.apart_symm (he y (by simp))) (S.apart_symm hpq)
  · -- the chain from `q` on never looks at `prev q`
    refine Chained.congr hB (fun x hx => ?_) (fun y hy => ?_)
    · have hxB : x = q ∨ x ∈ B := by simpa using List.dropLast_subset _ hx
      rcases hxB with rfl | hxB
      · exact next_link_of_apart hpq (S.apart_symm (he x (by simp))) (.inl rfl)
      · exact next_link_of_apart (hpx x (by simp [hxB])) (S.apart_symm (he x (by simp [hxB])))
          (.inr (hqx x hxB))
    · have hyB : y ∈ B := hy
      exact prev_link_of_apart (.inr (hpx y (by simp [hyB])))
        (S.apart_symm (he y (by simp [hyB]))) (hqx y hyB)

/-- Taking a node out. -/
theorem Chained.unlink {A B : List α} (h : S.Chained s (A ++ p :: e :: q :: B))
    (hap : (A ++ p :: e :: q :: B).Pairwise S.apart)
    (hv : ∀ x ∈ A ++ p :: e :: q :: B, S.valid x) :
    S.Chained (S.unlink s p q) (A ++ p :: q :: B) := by
  obtain ⟨hA, -, hB⟩ := List.isChain_append_cons_cons.1 h
  have hB := (List.isChain_cons_cons.1 hB).2
  rw [List.pairwise_append] at hap
  obtain ⟨-, hpeqB, hcross⟩ := hap
  rw [List.pairwise_cons] at hpeqB
  obtain ⟨hpx, heqB⟩ := hpeqB
  have hqx := (List.pairwise_cons.1 (List.pairwise_cons.1 heqB).2).1
  have hpq : S.apart p q := hpx q (by simp)
  refine List.isChain_append_cons_cons.2 ⟨?_, linked_unlink (S.apart_symm hpq) (hv p (by simp))
    (hv q (by simp)), ?_⟩
  · refine Chained.congr hA (fun x hx => ?_) (fun y hy => ?_)
    · have hxA : x ∈ A := by simpa using hx
      exact next_unlink_of_apart (S.apart_symm (hcross x hxA p (by simp)))
        (.inr (S.apart_symm (hcross x hxA q (by simp))))
    · have hyA : y ∈ A ∨ y = p := by simpa using List.mem_of_mem_tail hy
      rcases hyA with hyA | rfl
      · exact prev_unlink_of_apart (.inr (S.apart_symm (hcross y hyA p (by simp))))
          (S.apart_symm (hcross y hyA q (by simp)))
      · exact prev_unlink_of_apart (.inl rfl) (S.apart_symm hpq)
  · refine Chained.congr hB (fun x hx => ?_) (fun y hy => ?_)
    · have hxB : x = q ∨ x ∈ B := by simpa using List.dropLast_subset _ hx
      rcases hxB with rfl | hxB
      · exact next_unlink_of_apart hpq (.inl rfl)
      · exact next_unlink_of_apart (hpx x (by simp [hxB])) (.inr (hqx x hxB))
    · have hyB : y ∈ B := hy
      exact prev_unlink_of_apart (.inr (hpx y (by simp [hyB]))) (hqx y hyB)

/-! ## What an operation wrote -/

/-- `s'` comes from `s` by writing link fields of nodes in `N`. -/
inductive Edits (S : LinkStore σ α) (N : Set α) (s : σ) : σ → Prop
  | refl : Edits S N s s
  | next {s' : σ} {x y : α} : Edits S N s s' → x ∈ N → Edits S N s (S.setNext s' x y)
  | prev {s' : σ} {x y : α} : Edits S N s s' → x ∈ N → Edits S N s (S.setPrev s' x y)

theorem Edits.mono {N N' : Set α} (h : Edits S N s s') (hN : N ⊆ N') : Edits S N' s s' := by
  induction h with
  | refl => exact .refl
  | next _ hx ih => exact ih.next (hN hx)
  | prev _ hx ih => exact ih.prev (hN hx)

/-- Nodes apart from all written ones keep their links. -/
theorem Edits.keeps {N : Set α} (h : Edits S N s s') (hz : ∀ x ∈ N, S.apart x z) :
    S.next s' z = S.next s z ∧ S.prev s' z = S.prev s z := by
  induction h with
  | refl => exact ⟨rfl, rfl⟩
  | next _ hx ih =>
      rw [S.next_setNext_of_apart _ _ _ _ (hz _ hx), S.prev_setNext _ _ _ _ (.inr (hz _ hx))]
      exact ih
  | prev _ hx ih =>
      rw [S.prev_setPrev_of_apart _ _ _ _ (hz _ hx), S.next_setPrev _ _ _ _ (.inr (hz _ hx))]
      exact ih

/-- A relation that every single link write on `N` respects holds across the
    whole operation. -/
theorem Edits.induct {N : Set α} {R : σ → σ → Prop} (h : Edits S N s s') (hrefl : R s s)
    (hnext : ∀ t x y, R s t → x ∈ N → R s (S.setNext t x y))
    (hprev : ∀ t x y, R s t → x ∈ N → R s (S.setPrev t x y)) : R s s' := by
  induction h with
  | refl => exact hrefl
  | next _ hx ih => exact hnext _ _ _ ih hx
  | prev _ hx ih => exact hprev _ _ _ ih hx

theorem edits_link : Edits S {p, e, q} s (S.link s p e q) :=
  .prev (.next (.prev (.next .refl (by simp)) (by simp)) (by simp)) (by simp)

theorem edits_unlink : Edits S {p, q} s (S.unlink s p q) :=
  .prev (.next .refl (by simp)) (by simp)

/-! ## One list -/

variable (S)

/-- The list between the sentinels `l` has the nodes `xs`. -/
structure Holds (s : σ) (l : Anchor α) (xs : List α) : Prop where
  chained : S.Chained s (l.nodes xs)
  apart : (l.nodes xs).Pairwise S.apart
  valid : ∀ x ∈ l.nodes xs, S.valid x ∧ x ≠ S.null

/-- `e` can be added to the list `xs` at `l`. -/
structure Fresh (l : Anchor α) (xs : List α) (e : α) : Prop where
  valid : S.valid e
  ne_null : e ≠ S.null
  apart : ∀ z ∈ l.nodes xs, S.apart z e

variable {S} {l : Anchor α} {xs ys : List α}

theorem Holds.frame (h : S.Holds s l xs)
    (hz : ∀ z ∈ l.nodes xs, S.next s' z = S.next s z ∧ S.prev s' z = S.prev s z) :
    S.Holds s' l xs :=
  ⟨h.chained.frame hz, h.apart, h.valid⟩

theorem Holds.edits {N : Set α} (h : S.Holds s l xs) (he : Edits S N s s')
    (hN : ∀ x ∈ N, ∀ z ∈ l.nodes xs, S.apart x z) : S.Holds s' l xs :=
  h.frame fun z hz => he.keeps fun x hx => hN x hx z hz

theorem Holds.nodup (h : S.Holds s l xs) : (l.nodes xs).Nodup :=
  List.Pairwise.imp (fun {a b} (hab : S.apart a b) (heq : a = b) =>
    S.apart_irrefl b (heq ▸ hab)) h.apart

theorem Holds.nodup_elems (h : S.Holds s l xs) : xs.Nodup := by
  have hn := h.nodup
  rw [Anchor.nodes, List.nodup_cons] at hn
  exact (List.nodup_append.1 hn.2).1

theorem Holds.tail_not_mem (h : S.Holds s l xs) : l.tail ∉ xs := by
  have hn := h.nodup
  rw [Anchor.nodes, List.nodup_cons] at hn
  intro hmem
  exact (List.nodup_append.1 hn.2).2.2 _ hmem _ (by simp) rfl

/-- A list between given sentinels has only one reading. -/
theorem Holds.unique (h : S.Holds s l xs) (h' : S.Holds s l ys) : xs = ys :=
  Chained.unique h.chained h'.chained h.tail_not_mem h'.tail_not_mem

/-- An empty list between fresh sentinels. -/
theorem holds_nil (hap : S.apart l.head l.tail) (hlink : S.Linked s l.head l.tail)
    (hh : S.valid l.head ∧ l.head ≠ S.null) (ht : S.valid l.tail ∧ l.tail ≠ S.null) :
    S.Holds s l [] := by
  refine ⟨List.isChain_pair.2 hlink, ?_, ?_⟩
  · simpa [Anchor.nodes] using hap
  · intro x hx
    rcases Anchor.mem_nodes.1 hx with rfl | hx | rfl
    · exact hh
    · cases hx
    · exact ht

/-- Adding a node between `xs` and `ys`. -/
theorem Holds.link {A B : List α} (h : S.Holds s l (xs ++ ys)) (hA : l.head :: xs = A ++ [p])
    (hB : ys ++ [l.tail] = q :: B) (he : S.Fresh l (xs ++ ys) e) :
    S.Holds (S.link s p e q) l (xs ++ e :: ys) := by
  have hold : l.nodes (xs ++ ys) = A ++ p :: q :: B := by
    rw [Anchor.nodes_append, hA, hB]
    simp
  have hnew : l.nodes (xs ++ e :: ys) = A ++ p :: e :: q :: B := by
    rw [Anchor.nodes_append_cons, hA, hB]
    simp
  have hc := h.chained
  have hap := h.apart
  have hv := h.valid
  have hfr := he.apart
  rw [hold] at hc hap hv hfr
  refine ⟨?_, ?_, ?_⟩
  · rw [hnew]
    exact hc.link hap (fun x hx => (hv x hx).1) he.valid hfr
  · have hsplit : A ++ p :: e :: q :: B = (A ++ [p]) ++ e :: q :: B := by simp
    have hap' : ((A ++ [p]) ++ q :: B).Pairwise S.apart := by simpa using hap
    rw [List.pairwise_append] at hap'
    rw [hnew, hsplit, List.pairwise_append]
    refine ⟨hap'.1, List.pairwise_cons.2 ⟨fun x hx => ?_, hap'.2.1⟩, fun x hx y hy => ?_⟩
    · exact S.apart_symm (hfr x (by simp only [List.mem_append, List.mem_cons] at hx ⊢; tauto))
    · rcases List.mem_cons.1 hy with rfl | hy
      · exact hfr x (by simp only [List.mem_append, List.mem_cons] at hx ⊢; tauto)
      · exact hap'.2.2 x hx y hy
  · intro x hx
    rw [hnew] at hx
    by_cases hxe : x = e
    · exact hxe ▸ ⟨he.valid, he.ne_null⟩
    · exact hv x (by simp only [List.mem_append, List.mem_cons] at hx ⊢; tauto)

/-- Taking the node `e` out. -/
theorem Holds.unlink {A B : List α} (h : S.Holds s l (xs ++ e :: ys))
    (hA : l.head :: xs = A ++ [p]) (hB : ys ++ [l.tail] = q :: B) :
    S.Holds (S.unlink s p q) l (xs ++ ys) := by
  have hold : l.nodes (xs ++ e :: ys) = A ++ p :: e :: q :: B := by
    rw [Anchor.nodes_append_cons, hA, hB]
    simp
  have hnew : l.nodes (xs ++ ys) = A ++ p :: q :: B := by
    rw [Anchor.nodes_append, hA, hB]
    simp
  have hc := h.chained
  have hap := h.apart
  have hv := h.valid
  rw [hold] at hc hap hv
  have hsub : (A ++ p :: q :: B).Sublist (A ++ p :: e :: q :: B) :=
    (List.Sublist.refl A).append ((List.sublist_cons_self e _).cons_cons p)
  refine ⟨?_, ?_, ?_⟩
  · rw [hnew]
    exact hc.unlink hap fun x hx => (hv x hx).1
  · rw [hnew]
    exact hap.sublist hsub
  · intro x hx
    rw [hnew] at hx
    exact hv x (hsub.subset hx)

/-- The neighbours of a node of the list. -/
theorem Holds.neighbours {A B : List α} (h : S.Holds s l (xs ++ e :: ys))
    (hA : l.head :: xs = A ++ [p]) (hB : ys ++ [l.tail] = q :: B) :
    S.prev s e = p ∧ S.next s e = q := by
  have hc := h.chained
  rw [Anchor.nodes_append_cons, hA, hB] at hc
  have h₁ : S.Chained s (A ++ p :: e :: (q :: B)) := by simpa using hc
  have h₂ : S.Chained s ((A ++ [p]) ++ e :: q :: B) := by simpa using hc
  exact ⟨h₁.next_eq.2, h₂.next_eq.1⟩

theorem Holds.next_head (h : S.Holds s l (e :: xs)) : S.next s l.head = e := by
  have hc : S.Chained s ([] ++ l.head :: e :: (xs ++ [l.tail])) := h.chained
  exact hc.next_eq.1

theorem Holds.next_head_nil (h : S.Holds s l []) : S.next s l.head = l.tail := by
  have hc : S.Chained s ([] ++ l.head :: l.tail :: []) := h.chained
  exact hc.next_eq.1

/-- The node before the tail. -/
theorem Holds.prev_tail {A : List α} (h : S.Holds s l xs) (hA : l.head :: xs = A ++ [p]) :
    S.prev s l.tail = p := by
  have hc := h.chained
  have hn : l.nodes xs = A ++ p :: l.tail :: [] := by
    rw [Anchor.nodes, ← List.cons_append, hA]
    simp
  rw [hn] at hc
  exact hc.next_eq.2

/-- The nodes before a place in the list end in some node. -/
theorem exists_last (a : α) (xs : List α) : ∃ A p, a :: xs = A ++ [p] :=
  ⟨(a :: xs).dropLast, (a :: xs).getLast (by simp), (List.dropLast_append_getLast _).symm⟩

/-! ## Several lists -/

variable (S)

/-- Lists `xs k` at the anchors `l k` that share no node. -/
structure Family {κ : Type _} (s : σ) (l : κ → Anchor α) (xs : κ → List α) : Prop where
  holds : ∀ k, S.Holds s (l k) (xs k)
  apart : ∀ k k', k ≠ k' → ∀ x ∈ (l k).nodes (xs k), ∀ y ∈ (l k').nodes (xs k'), S.apart x y

variable {S} {κ : Type _} {l : κ → Anchor α} {xs : κ → List α}

theorem Family.frame (h : S.Family s l xs)
    (hz : ∀ k, ∀ z ∈ (l k).nodes (xs k), S.next s' z = S.next s z ∧ S.prev s' z = S.prev s z) :
    S.Family s' l xs :=
  ⟨fun k => (h.holds k).frame (hz k), h.apart⟩

/-- Replacing list `k` by `ys`, with all writes on nodes of this list and the
    node `e`, where the nodes of `ys` are old ones or `e`. -/
theorem Family.replace [DecidableEq κ] {k : κ} {ys : List α} (h : S.Family s l xs)
    (hk : S.Holds s' (l k) ys) (hed : Edits S {x | x ∈ (l k).nodes (xs k) ∨ x = e} s s')
    (he : ∀ k', k' ≠ k → ∀ z ∈ (l k').nodes (xs k'), S.apart e z)
    (hys : ∀ y ∈ ys, y ∈ xs k ∨ y = e) : S.Family s' l (Function.update xs k ys) := by
  have hnode : ∀ x ∈ (l k).nodes ys, x ∈ (l k).nodes (xs k) ∨ x = e := by
    intro x hx
    rcases Anchor.mem_nodes.1 hx with hx | hx | hx
    · exact .inl (Anchor.mem_nodes.2 (.inl hx))
    · exact (hys x hx).imp (fun h => Anchor.mem_nodes.2 (.inr (.inl h))) id
    · exact .inl (Anchor.mem_nodes.2 (.inr (.inr hx)))
  have hcross : ∀ k', k' ≠ k → ∀ x, x ∈ (l k).nodes (xs k) ∨ x = e →
      ∀ z ∈ (l k').nodes (xs k'), S.apart x z := by
    rintro k' hne x (hx | rfl) z hz
    · exact h.apart k k' (Ne.symm hne) x hx z hz
    · exact he k' hne z hz
  refine ⟨fun k' => ?_, fun k₁ k₂ hne x hx y hy => ?_⟩
  · by_cases hk' : k' = k
    · subst hk'
      rwa [Function.update_self]
    · rw [Function.update_of_ne hk']
      exact (h.holds k').edits hed fun x hx z hz => hcross k' hk' x hx z hz
  · by_cases h₁ : k₁ = k
    · subst h₁
      rw [Function.update_self] at hx
      rw [Function.update_of_ne (Ne.symm hne)] at hy
      exact hcross k₂ (Ne.symm hne) x (hnode x hx) y hy
    · rw [Function.update_of_ne h₁] at hx
      by_cases h₂ : k₂ = k
      · subst h₂
        rw [Function.update_self] at hy
        exact S.apart_symm (hcross k₁ h₁ y (hnode y hy) x hx)
      · rw [Function.update_of_ne h₂] at hy
        exact h.apart k₁ k₂ hne x hx y hy

end LinkStore
end Base
end JackOS
