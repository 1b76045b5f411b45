/-
  JackOS.Kernel.Heap

  Runs of one heap.  The clients of a heap call `sys_malloc` and `sys_free` in
  any order and write into what they hold; the rest of the machine writes
  anywhere else.  `Acct` is the accounting of blocks that every call keeps:
  each block of a small arena is either free or live, and the counters agree.
-/

import JackOS.Base.Transition
import JackOS.Kernel.ArenaCalls

namespace JackOS
namespace Kernel

open Base Base.Mem Base.LinkStore Lib

/-- A live allocation: what `sys_malloc(size)` returned. -/
structure Alloc where
  ptr : Nat
  size : Nat
deriving DecidableEq

/-- A heap in use. -/
structure HeapRun where
  heap : Heap
  /-- The allocations not freed yet. -/
  live : List Alloc

/-- The pointers in use. -/
def HeapRun.ptrs (s : HeapRun) : List Nat := s.live.map Alloc.ptr

/-- One step of a run.  `g` is `malloc_page`'s answer should the call ask. -/
inductive HeapOp where
  | malloc (size : Nat) (g : Option Nat)
  | free (ptr : Nat)
  | store (addr : Nat) (v : UInt8)

/-- What is assumed of `malloc_page`: fresh, contiguous, page-aligned pages in
    the heap's part of the address space. -/
def GrantOk (env : HeapEnv) (h : Heap) (size : Nat) (g : Option Nat) : Prop :=
  ∀ a, g = some a → a % pgSize = 0 ∧ 0 < a ∧ a + pgSize * pageCnt size ≤ 2 ^ 32
    ∧ (env.kernel = true → kHeapStart ≤ a)
    ∧ (env.descs + descSize * memUnitCnt ≤ a ∨ a + pgSize * pageCnt size ≤ env.descs)
    ∧ ∀ k, k < pageCnt size → h.pages (a / pgSize + k) = false

/-- The bytes that others than the allocator write: the inside of live
    allocations, and what belongs neither to the heap nor to its descriptors. -/
def MayStore (env : HeapEnv) (s : HeapRun) (x : Nat) : Prop :=
  (∃ q ∈ s.live, q.ptr ≤ x ∧ x < q.ptr + q.size)
    ∨ s.heap.pages (x / pgSize) = false
      ∧ ¬ (env.descs ≤ x ∧ x < env.descs + descSize * memUnitCnt)

/-- The client's call is allowed in `s`. -/
def HeapOp.Legal (env : HeapEnv) (s : HeapRun) : HeapOp → Prop
  | .malloc size g => size < 2 ^ 32 ∧ GrantOk env s.heap size g
  | .free p => p ∈ s.ptrs
  | .store x _ => MayStore env s x

/-- What the call does. -/
def HeapOp.run (env : HeapEnv) (s : HeapRun) : HeapOp → Outcome HeapRun
  | .malloc size g => do
      let (r, h) ← sysMalloc env g size s.heap
      .ok ⟨h, match r with | none => s.live | some p => ⟨p, size⟩ :: s.live⟩
  | .free p => do
      let h ← sysFree env p s.heap
      .ok ⟨h, s.live.filter fun q => q.ptr ≠ p⟩
  | .store x v => .ok { s with heap := { s.heap with mem := store8 s.heap.mem x v } }

/-- One heap from `block_desc_init` on. -/
def heapSystem (env : HeapEnv) : System HeapRun HeapOp where
  init s := s.live = [] ∧ (∀ p, s.heap.pages p = false)
    ∧ ∃ m, s.heap.mem = blockDescInit env.descs m
  next s op s' := op.Legal env s ∧ op.run env s = .ok s'

/-! ## Accounting -/

/-- The pointer lies in the arena at `a`. -/
def inArena (a x : Nat) : Bool := decide (block2arena x = a)

/-- What the allocator has given out for `q`. -/
def View.Piece (v : View) (q : Alloc) : Prop :=
  0 < q.size ∧ ((∃ i, v.IsBlock i q.ptr ∧ q.size ≤ blockSize i)
    ∨ ∃ a n, v.ar a = some (.large n) ∧ q.ptr = a + arenaSize ∧ q.size + arenaSize ≤ pgSize * n)

/-- The accounting of blocks, given the view and the live allocations. -/
structure Acct (v : View) (live : List Alloc) : Prop where
  nodup : (live.map Alloc.ptr).Nodup
  piece : ∀ q ∈ live, v.Piece q
  notLive : ∀ i x, x ∈ v.fl i → x ∉ live.map Alloc.ptr
  part : ∀ a i k, v.ar a = some (.small i) → k < blocksPerArena i →
    block a i k ∈ v.fl i ∨ block a i k ∈ live.map Alloc.ptr
  cnt : ∀ a i, v.ar a = some (.small i) → v.fc a = (v.fl i).countP (inArena a)
    ∧ (v.fl i).countP (inArena a) + (live.map Alloc.ptr).countP (inArena a) = blocksPerArena i
  large : ∀ a n, v.ar a = some (.large n) → a + arenaSize ∈ live.map Alloc.ptr

/-- Every small arena has a live block. -/
def NoIdle (v : View) (live : List Alloc) : Prop :=
  ∀ a i, v.ar a = some (.small i) → 0 < (live.map Alloc.ptr).countP (inArena a)

variable {env : HeapEnv} {h : Heap} {v : View} {live : List Alloc} {a e : Nat} {i : Fin 7}

/-- The piece of a large arena starts in its first page. -/
theorem Placed.base_large {ar : Nat → Option Kind} {n : Nat} (hp : Placed env ar)
    (ha : ar a = some (.large n)) : block2arena (a + arenaSize) = a := by
  obtain ⟨hmod, -, hlt, hn⟩ := hp.base _ _ ha
  rw [Kind.pages_large] at hlt hn
  exact block2arena_of_mem_page hmod (by omega) (Nat.le_add_right _ _)
    (Nat.add_lt_add_left (by decide) _)

/-- An allocation is a block of its arena, or all of it. -/
theorem Placed.piece_cases (hp : Placed env v.ar) {q : Alloc} (hq : v.Piece q) :
    (∃ i, v.ar (block2arena q.ptr) = some (.small i) ∧ v.IsBlock i q.ptr
      ∧ q.size ≤ blockSize i)
    ∨ ∃ n, v.ar (block2arena q.ptr) = some (.large n)
      ∧ q.ptr = block2arena q.ptr + arenaSize ∧ q.size + arenaSize ≤ pgSize * n := by
  obtain ⟨-, ⟨i, hblk, hsz⟩ | ⟨a, n, ha, hptr, hsz⟩⟩ := hq
  · obtain ⟨a, ha, hbase, -⟩ := hp.isBlock_bounds hblk
    exact .inl ⟨i, by rwa [hbase], hblk, hsz⟩
  · have hbase : block2arena q.ptr = a := by rw [hptr, hp.base_large ha]
    exact .inr ⟨n, by rwa [hbase], by rwa [hbase], hsz⟩

/-- An allocation lies in an arena, behind its header. -/
theorem Placed.piece_bounds (hp : Placed env v.ar) {q : Alloc} (hq : v.Piece q) :
    ∃ a k, v.ar a = some k ∧ block2arena q.ptr = a ∧ a + 12 ≤ q.ptr
      ∧ q.ptr + q.size ≤ a + 4096 * k.pages := by
  rcases hp.piece_cases hq with ⟨i, ha, hblk, hsz⟩ | ⟨n, ha, hptr, hsz⟩
  · obtain ⟨a, -, hbase, -, hlo, hhi, -⟩ := hp.isBlock_bounds hblk
    exact ⟨a, _, hbase ▸ ha, hbase, hlo, by rw [Kind.pages_small]; omega⟩
  · refine ⟨_, _, ha, rfl, ?_⟩
    simp only [Kind.pages_large, arenaSize, pgSize] at hptr hsz ⊢
    omega

/-- Two allocations do not overlap. -/
theorem Placed.pieces_apart (hp : Placed env v.ar) {q r : Alloc} (hq : v.Piece q)
    (hr : v.Piece r) (hne : q.ptr ≠ r.ptr) :
    q.ptr + q.size ≤ r.ptr ∨ r.ptr + r.size ≤ q.ptr := by
  by_cases hab : block2arena q.ptr = block2arena r.ptr
  · -- in one arena: two blocks of it, or the one allocation of a large arena
    rcases hp.piece_cases hq with ⟨i, ha, hqb, hqs⟩ | ⟨n, ha, hqp, -⟩
    · rcases hp.piece_cases hr with ⟨j, hb, hrb, hrs⟩ | ⟨m, hb, hrp, -⟩
      · have := hp.blocks_apart hqb hrb hne
        omega
      · rw [hab, hb] at ha
        cases ha
    · rcases hp.piece_cases hr with ⟨j, hb, hrb, hrs⟩ | ⟨m, hb, hrp, -⟩
      · rw [hab, hb] at ha
        cases ha
      · exact absurd (by rw [hqp, hrp, hab]) hne
  · obtain ⟨a, k, ha, hqa, hqlo, hqhi⟩ := hp.piece_bounds hq
    obtain ⟨b, j, hb, hrb, hrlo, hrhi⟩ := hp.piece_bounds hr
    rw [hqa, hrb] at hab
    -- in different arenas, which do not overlap
    have hdj := hp.disj _ _ _ _ ha hb hab
    omega

theorem inArena_iff {a x : Nat} : inArena a x = true ↔ block2arena x = a := by
  simp [inArena]

/-- The blocks of an arena are all in it. -/
theorem countP_blocksFrom (hp : Placed env v.ar) (ha : v.ar a = some (.small i)) (b : Nat)
    {idx left : Nat} (hle : idx + left ≤ blocksPerArena i) :
    (blocksFrom a i idx left).countP (inArena b) = if b = a then left else 0 := by
  have hin : ∀ x ∈ blocksFrom a i idx left, block2arena x = a := by
    intro x hx
    obtain ⟨k, -, hk, rfl⟩ := mem_blocksFrom.1 hx
    have hpage := hp.page ha
    have hb := block_bounds a (i := i) (k := k) (by omega)
    have hs := (blockSize_bounds i).1
    exact block2arena_of_mem_page hpage.1 hpage.2.2 (by omega) (by omega)
  split
  · rename_i heq
    rw [List.countP_eq_length.2 fun x hx => inArena_iff.2 (heq ▸ hin x hx)]
    simp [blocksFrom]
  · rename_i hne
    exact List.countP_eq_zero.2 fun x hx hx' => hne ((inArena_iff.1 hx').symm.trans (hin x hx))

/-- A new small arena, all of whose blocks are free. -/
theorem Acct.addSmall (A : Acct v live) (R : Rep env h v)
    (hp : Placed env (Function.update v.ar a (some (.small i)))) (hnew : v.ar a = none) :
    Acct (((v.setArena a (some (.small i))).setCnt a (blocksPerArena i)).setFree i
      (v.fl i ++ blocksFrom a i 0 (blocksPerArena i))) live := by
  have ha : Function.update v.ar a (some (Kind.small i)) a = some (.small i) :=
    Function.update_self _ _ _
  have hne : ∀ b k, v.ar b = some k → b ≠ a := by
    rintro b k hb rfl
    rw [hnew] at hb
    cases hb
  have hkeep : ∀ b k, v.ar b = some k → Function.update v.ar a (some (Kind.small i)) b = some k :=
    fun b k hb => by rwa [Function.update_of_ne (hne b k hb)]
  have hlive : ∀ x ∈ live.map Alloc.ptr, block2arena x ≠ a := by
    intro x hx
    obtain ⟨q, hq, rfl⟩ := List.mem_map.1 hx
    obtain ⟨b, k, hb, hbase, -⟩ := R.placed.piece_bounds (A.piece q hq)
    exact fun h => hne b k hb (hbase.symm.trans h)
  have hfree : ∀ j, ∀ x ∈ v.fl j, block2arena x ≠ a := by
    intro j x hx
    obtain ⟨b, hb, hbase, -⟩ := R.placed.isBlock_bounds (R.node j x hx)
    exact fun h => hne b _ hb (hbase.symm.trans h)
  -- no block and no allocation of before lies in the new arena
  let w := (v.setArena a (some (.small i))).setCnt a (blocksPerArena i)
  have hbase : ∀ x ∈ blocksFrom a i 0 (blocksPerArena i), block2arena x = a := by
    intro x hx
    obtain ⟨k, -, hk, rfl⟩ := mem_blocksFrom.1 hx
    have hblk : w.IsBlock i (block a i k) := ⟨a, k, ha, by omega, rfl⟩
    have hpw : Placed env w.ar := hp
    obtain ⟨hmod, -, hlt⟩ := hpw.page ha
    have hb := block_bounds a (i := i) (k := k) (by omega)
    have hs := (blockSize_bounds i).1
    exact block2arena_of_mem_page hmod hlt (by omega) (by omega)
  refine ⟨A.nodup, fun q hq => ?_, fun j x hx hmem => ?_, fun b j k hb hk => ?_,
    fun b j hb => ?_, fun b n hb => ?_⟩
  · obtain ⟨hpos, hcase⟩ := A.piece q hq
    refine ⟨hpos, hcase.imp ?_ ?_⟩
    · rintro ⟨j, ⟨b, k, hb, hk, hptr⟩, hsz⟩
      exact ⟨j, ⟨b, k, hkeep b _ hb, hk, hptr⟩, hsz⟩
    · rintro ⟨b, n, hb, hrest⟩
      exact ⟨b, n, hkeep b _ hb, hrest⟩
  · by_cases hj : j = i
    · subst hj
      rw [View.setFree_fl, Function.update_self, List.mem_append] at hx
      rcases hx with hx | hx
      · exact A.notLive _ x hx hmem
      · exact hlive x hmem (hbase x hx)
    · rw [View.setFree_fl, Function.update_of_ne hj] at hx
      exact A.notLive _ x hx hmem
  · by_cases hba : b = a
    · subst hba
      obtain rfl : i = j := by
        rw [View.setFree_ar, View.setCnt_ar, View.setArena_ar, ha] at hb
        cases hb
        rfl
      left
      rw [View.setFree_fl, Function.update_self, List.mem_append]
      exact .inr (mem_blocksFrom.2 ⟨k, Nat.zero_le _, by omega, rfl⟩)
    · rw [View.setFree_ar, View.setCnt_ar, View.setArena_ar, Function.update_of_ne hba] at hb
      refine (A.part b j k hb hk).imp (fun hx => ?_) id
      by_cases hj : j = i
      · subst hj
        rw [View.setFree_fl, Function.update_self, List.mem_append]
        exact .inl hx
      · rwa [View.setFree_fl, Function.update_of_ne hj]
  · by_cases hba : b = a
    · subst hba
      obtain rfl : i = j := by
        rw [View.setFree_ar, View.setCnt_ar, View.setArena_ar, ha] at hb
        cases hb
        rfl
      -- the counter starts with all blocks, which are those appended to the list
      have h₁ : (v.fl i).countP (inArena b) = 0 :=
        List.countP_eq_zero.2 fun x hx hx' => hfree i x hx (inArena_iff.1 hx')
      have h₂ : (live.map Alloc.ptr).countP (inArena b) = 0 :=
        List.countP_eq_zero.2 fun x hx hx' => hlive x hx (inArena_iff.1 hx')
      have h₃ := countP_blocksFrom (v := w) hp ha b
        (Nat.le_of_eq (Nat.zero_add (blocksPerArena i)))
      rw [if_pos rfl] at h₃
      rw [View.setFree_fl, Function.update_self, View.setFree_fc, View.setCnt_fc,
        Function.update_self, List.countP_append, h₁, h₂, h₃]
      omega
    · rw [View.setFree_ar, View.setCnt_ar, View.setArena_ar, Function.update_of_ne hba] at hb
      have hcnt := A.cnt b j hb
      rw [View.setFree_fc, View.setCnt_fc, Function.update_of_ne hba]
      by_cases hj : j = i
      · subst hj
        have h₃ := countP_blocksFrom (v := w) hp ha b
          (Nat.le_of_eq (Nat.zero_add (blocksPerArena j)))
        rw [if_neg hba] at h₃
        rw [View.setFree_fl, Function.update_self, List.countP_append, h₃, Nat.add_zero]
        exact hcnt
      · rw [View.setFree_fl, Function.update_of_ne hj]
        exact hcnt
  · have hba : b ≠ a := by
      rintro rfl
      rw [View.setFree_ar, View.setCnt_ar, View.setArena_ar, ha] at hb
      cases hb
    rw [View.setFree_ar, View.setCnt_ar, View.setArena_ar, Function.update_of_ne hba] at hb
    exact A.large b n hb

/-- Giving the first free block out. -/
theorem Acct.take {xs : List Nat} {c n : Nat} (A : Acct v live) (R : Rep env h v)
    (hfl : v.fl i = e :: xs) (hc : v.fc (block2arena e) = c + 1) (hpos : 0 < n)
    (hn : n ≤ blockSize i) :
    Acct ((v.setFree i xs).setCnt (block2arena e) c) (⟨e, n⟩ :: live) := by
  have he : e ∈ v.fl i := by simp [hfl]
  have hblk := R.node i e he
  obtain ⟨a, ha, hbase, -⟩ := R.placed.isBlock_bounds hblk
  have hnd := R.nodup i
  rw [hfl, List.nodup_cons] at hnd
  rw [hbase] at hc ⊢
  refine ⟨?_, fun q hq => ?_, fun j x hx hmem => ?_, fun b j k hb hk => ?_, fun b j hb => ?_,
    fun b m hb => ?_⟩
  · rw [List.map_cons, List.nodup_cons]
    exact ⟨A.notLive i e he, A.nodup⟩
  · rcases List.mem_cons.1 hq with rfl | hq
    · exact ⟨hpos, .inl ⟨i, hblk, hn⟩⟩
    · exact A.piece q hq
  · -- what is still free is not the block given out
    have hx' : x ∈ v.fl j ∧ x ≠ e := by
      by_cases hj : j = i
      · subst hj
        rw [View.setCnt_fl, View.setFree_fl, Function.update_self] at hx
        exact ⟨by simp [hfl, hx], fun heq => hnd.1 (heq ▸ hx)⟩
      · rw [View.setCnt_fl, View.setFree_fl, Function.update_of_ne hj] at hx
        exact ⟨hx, fun heq => R.not_mem_other hblk hj (heq ▸ hx)⟩
    rcases List.mem_cons.1 hmem with hxe | hmem
    · exact hx'.2 hxe
    · exact A.notLive j x hx'.1 hmem
  · rcases A.part b j k hb hk with hx | hx
    · by_cases hj : j = i
      · subst hj
        rw [hfl, List.mem_cons] at hx
        rcases hx with hx | hx
        · exact .inr (by simp [hx])
        · exact .inl (by rwa [View.setCnt_fl, View.setFree_fl, Function.update_self])
      · exact .inl (by rwa [View.setCnt_fl, View.setFree_fl, Function.update_of_ne hj])
    · exact .inr (List.mem_cons_of_mem _ hx)
  · have hcnt := A.cnt b j hb
    by_cases hba : b = a
    · -- the block's own arena
      subst hba
      obtain rfl : i = j := by
        rw [View.setCnt_ar, View.setFree_ar, ha] at hb
        cases hb
        rfl
      have hin : inArena b e = true := inArena_iff.2 hbase
      rw [hfl, List.countP_cons_of_pos hin] at hcnt
      rw [View.setCnt_fl, View.setFree_fl, Function.update_self, View.setCnt_fc,
        Function.update_self, List.map_cons, List.countP_cons_of_pos hin]
      omega
    · have hout : ¬ inArena b e = true := fun h => hba ((inArena_iff.1 h).symm.trans hbase)
      rw [View.setCnt_fc, Function.update_of_ne hba, List.map_cons,
        List.countP_cons_of_neg hout]
      by_cases hj : j = i
      · subst hj
        rw [hfl, List.countP_cons_of_neg hout] at hcnt
        rw [View.setCnt_fl, View.setFree_fl, Function.update_self]
        exact hcnt
      · rw [View.setCnt_fl, View.setFree_fl, Function.update_of_ne hj]
        exact hcnt
  · exact List.mem_cons_of_mem _ (A.large b m hb)

/-- Taking a block back. -/
theorem Acct.give {live₁ live₂ : List Alloc} {q : Alloc}
    (A : Acct v (live₁ ++ q :: live₂)) (R : Rep env h v) (hblk : v.IsBlock i q.ptr) :
    Acct ((v.setFree i (v.fl i ++ [q.ptr])).setCnt (block2arena q.ptr)
      (v.fc (block2arena q.ptr) + 1)) (live₁ ++ live₂) := by
  obtain ⟨a, ha, hbase, -, hlo, hhi, -⟩ := R.placed.isBlock_bounds hblk
  have hnd := A.nodup
  rw [List.map_append, List.map_cons] at hnd
  have hmid := hnd
  rw [List.perm_middle.nodup_iff, List.nodup_cons, ← List.map_append] at hmid
  have hsub : ∀ x, x ∈ (live₁ ++ live₂).map Alloc.ptr →
      x ∈ (live₁ ++ q :: live₂).map Alloc.ptr ∧ x ≠ q.ptr := by
    intro x hx
    refine ⟨?_, fun heq => hmid.1 (heq ▸ hx)⟩
    simp only [List.map_append, List.map_cons, List.mem_append, List.mem_cons] at hx ⊢
    tauto
  have hsplit : ∀ x, x ∈ (live₁ ++ q :: live₂).map Alloc.ptr → x ≠ q.ptr →
      x ∈ (live₁ ++ live₂).map Alloc.ptr := by
    intro x hx hne
    simp only [List.map_append, List.map_cons, List.mem_append, List.mem_cons] at hx ⊢
    tauto
  have hcount : ∀ b, ((live₁ ++ q :: live₂).map Alloc.ptr).countP (inArena b)
      = ((live₁ ++ live₂).map Alloc.ptr).countP (inArena b)
        + if inArena b q.ptr = true then 1 else 0 := by
    intro b
    simp only [List.map_append, List.map_cons, List.countP_append, List.countP_cons]
    omega
  rw [hbase]
  refine ⟨hmid.2, fun r hr => A.piece r ?_, fun j x hx hmem => ?_, fun b j k hb hk => ?_,
    fun b j hb => ?_, fun b m hb => ?_⟩
  · simp only [List.mem_append, List.mem_cons] at hr ⊢
    tauto
  · obtain ⟨hmem', hne⟩ := hsub x hmem
    by_cases hj : j = i
    · subst hj
      rw [View.setCnt_fl, View.setFree_fl, Function.update_self, List.mem_append,
        List.mem_singleton] at hx
      rcases hx with hx | hx
      · exact A.notLive _ x hx hmem'
      · exact hne hx
    · rw [View.setCnt_fl, View.setFree_fl, Function.update_of_ne hj] at hx
      exact A.notLive _ x hx hmem'
  · -- the block given back is free now; every other one is as before
    by_cases hxq : block b j k = q.ptr
    · left
      have hj : i = j := R.placed.isBlock_class (hxq ▸ hblk) ⟨b, k, hb, hk, rfl⟩
      subst hj
      rw [View.setCnt_fl, View.setFree_fl, Function.update_self, hxq]
      simp
    · refine (A.part b j k hb hk).imp (fun hx => ?_) fun hx => hsplit _ hx hxq
      by_cases hj : j = i
      · subst hj
        rw [View.setCnt_fl, View.setFree_fl, Function.update_self]
        exact List.mem_append_left _ hx
      · rwa [View.setCnt_fl, View.setFree_fl, Function.update_of_ne hj]
  · have hcnt := A.cnt b j hb
    rw [hcount b] at hcnt
    by_cases hba : b = a
    · subst hba
      obtain rfl : i = j := by
        rw [View.setCnt_ar, View.setFree_ar, ha] at hb
        cases hb
        rfl
      have hin : inArena b q.ptr = true := inArena_iff.2 hbase
      rw [if_pos hin] at hcnt
      rw [View.setCnt_fl, View.setFree_fl, Function.update_self, View.setCnt_fc,
        Function.update_self, List.countP_append, List.countP_singleton, if_pos hin]
      omega
    · have hout : ¬ inArena b q.ptr = true := fun h =>
        hba ((inArena_iff.1 h).symm.trans hbase)
      rw [if_neg hout, Nat.add_zero] at hcnt
      rw [View.setCnt_fc, Function.update_of_ne hba]
      by_cases hj : j = i
      · subst hj
        rw [View.setCnt_fl, View.setFree_fl, Function.update_self, List.countP_append,
          List.countP_singleton, if_neg hout, Nat.add_zero]
        exact hcnt
      · rw [View.setCnt_fl, View.setFree_fl, Function.update_of_ne hj]
        exact hcnt
  · -- the allocation of a large arena is not a block of a small one
    refine hsplit _ (A.large b m hb) fun heq => ?_
    have hpos := R.placed.base _ _ hb
    have hbb := R.placed.block_header hblk hb
    have hne : b ≠ a := by
      rintro rfl
      rw [View.setCnt_ar, View.setFree_ar, ha] at hb
      cases hb
    have hdj := R.placed.disj _ _ _ _ ha hb (Ne.symm hne)
    have hs := (blockSize_bounds i).1
    simp only [Kind.pages_small, Kind.pages_large, arenaSize] at hdj heq hpos
    omega

/-- Dissolving an arena without live blocks. -/
theorem Acct.dropSmall (A : Acct v live) (ha : v.ar a = some (.small i))
    (hidle : (live.map Alloc.ptr).countP (inArena a) = 0) (hp : Placed env v.ar) :
    Acct ((v.setFree i ((v.fl i).filter fun x => decide (block2arena x ≠ a))).setArena a none)
      live := by
  have hsub : ∀ b k, Function.update v.ar a none b = some k → b ≠ a ∧ v.ar b = some k := by
    intro b k hb
    by_cases hba : b = a
    · subst hba
      rw [Function.update_self] at hb
      cases hb
    · exact ⟨hba, by rwa [Function.update_of_ne hba] at hb⟩
  have hlive : ∀ x ∈ live.map Alloc.ptr, block2arena x ≠ a := fun x hx heq =>
    List.countP_eq_zero.1 hidle x hx (inArena_iff.2 heq)
  have hfl : ∀ j x, x ∈ (v.setFree i ((v.fl i).filter fun x =>
      decide (block2arena x ≠ a))).fl j → x ∈ v.fl j := by
    intro j x hx
    by_cases hj : j = i
    · subst hj
      rw [View.setFree_fl, Function.update_self, List.mem_filter] at hx
      exact hx.1
    · rwa [View.setFree_fl, Function.update_of_ne hj] at hx
  refine ⟨A.nodup, fun q hq => ?_, fun j x hx => A.notLive j x (hfl j x hx),
    fun b j k hb hk => ?_, fun b j hb => ?_, fun b n hb => A.large b n (hsub b _ hb).2⟩
  · -- no live allocation lies in the arena that goes
    obtain ⟨b, k, hb, hbase, -⟩ := hp.piece_bounds (A.piece q hq)
    have hba : b ≠ a := fun heq => hlive _ (List.mem_map_of_mem hq) (hbase.trans heq)
    obtain ⟨hpos, hcase⟩ := A.piece q hq
    refine ⟨hpos, hcase.imp ?_ ?_⟩
    · rintro ⟨j, hblk, hsz⟩
      obtain ⟨b', hb', hbase', -⟩ := hp.isBlock_bounds hblk
      obtain ⟨c, k, hc, hk, hptr⟩ := hblk
      refine ⟨j, ⟨c, k, ?_, hk, hptr⟩, hsz⟩
      have hca : c ≠ a := by
        rintro rfl
        have hpage := hp.page hc
        have hbd := block_bounds c hk
        have hs := (blockSize_bounds j).1
        refine hba (hbase.symm.trans ?_)
        rw [hptr]
        exact block2arena_of_mem_page hpage.1 hpage.2.2 (by omega) (by omega)
      show Function.update v.ar a none c = _
      rwa [Function.update_of_ne hca]
    · rintro ⟨c, n, hc, hrest⟩
      refine ⟨c, n, ?_, hrest⟩
      have hca : c ≠ a := by
        rintro rfl
        rw [ha] at hc
        cases hc
      show Function.update v.ar a none c = _
      rwa [Function.update_of_ne hca]
  · obtain ⟨hba, hb' : v.ar b = some (Kind.small j)⟩ := hsub b _ hb
    refine (A.part b j k hb' hk).imp (fun hx => ?_) id
    by_cases hj : j = i
    · subst hj
      have hpage := hp.page hb'
      have hbd := block_bounds b hk
      have hs := (blockSize_bounds j).1
      rw [View.setArena_fl, View.setFree_fl, Function.update_self, List.mem_filter]
      refine ⟨hx, decide_eq_true ?_⟩
      rw [block2arena_of_mem_page hpage.1 hpage.2.2 (by omega) (by omega)]
      exact hba
    · rwa [View.setArena_fl, View.setFree_fl, Function.update_of_ne hj]
  · obtain ⟨hba, hb⟩ := hsub b _ hb
    have hcnt := A.cnt b j hb
    by_cases hj : j = i
    · subst hj
      -- only blocks of the arena that goes leave the list
      have hfilter : ((v.fl j).filter fun x => decide (block2arena x ≠ a)).countP (inArena b)
          = (v.fl j).countP (inArena b) := by
        rw [List.countP_filter]
        refine List.countP_congr fun x _ => ?_
        rw [Bool.and_eq_true, decide_eq_true_eq, inArena_iff]
        exact ⟨And.left, fun h => ⟨h, fun h' => hba (h.symm.trans h')⟩⟩
      rw [View.setArena_fl, View.setFree_fl, Function.update_self, hfilter]
      exact hcnt
    · rw [View.setArena_fl, View.setFree_fl, Function.update_of_ne hj]
      exact hcnt

/-- A new large arena for the allocation at its start. -/
theorem Acct.addLarge {n c size : Nat} (A : Acct v live) (R : Rep env h v)
    (hp : Placed env (Function.update v.ar a (some (.large n)))) (hnew : v.ar a = none)
    (hpos : 0 < size) (hsz : size + arenaSize ≤ pgSize * n) :
    Acct ((v.setArena a (some (.large n))).setCnt a c) (⟨a + arenaSize, size⟩ :: live) := by
  have ha : Function.update v.ar a (some (Kind.large n)) a = some (.large n) :=
    Function.update_self _ _ _
  have hne : ∀ b k, v.ar b = some k → b ≠ a := by
    rintro b k hb rfl
    rw [hnew] at hb
    cases hb
  have hkeep : ∀ b k, v.ar b = some k → Function.update v.ar a (some (Kind.large n)) b = some k :=
    fun b k hb => by rwa [Function.update_of_ne (hne b k hb)]
  have hback : ∀ b j, Function.update v.ar a (some (Kind.large n)) b = some (.small j) →
      b ≠ a ∧ v.ar b = some (.small j) := by
    intro b j hb
    have hba : b ≠ a := by
      rintro rfl
      rw [ha] at hb
      cases hb
    exact ⟨hba, by rwa [Function.update_of_ne hba] at hb⟩
  have hbase := hp.base_large ha
  have hout : ∀ x ∈ live.map Alloc.ptr, block2arena x ≠ a := by
    intro x hx
    obtain ⟨q, hq, rfl⟩ := List.mem_map.1 hx
    obtain ⟨b, k, hb, hbb, -⟩ := R.placed.piece_bounds (A.piece q hq)
    exact fun h => hne b k hb (hbb.symm.trans h)
  -- nothing live lay in these pages, so the new pointer is fresh
  have hnewptr : a + arenaSize ∉ live.map Alloc.ptr := fun hmem => hout _ hmem hbase
  refine ⟨?_, fun q hq => ?_, fun j x hx hmem => ?_, fun b j k hb hk => ?_, fun b j hb => ?_,
    fun b m hb => ?_⟩
  · rw [List.map_cons, List.nodup_cons]
    exact ⟨hnewptr, A.nodup⟩
  · rcases List.mem_cons.1 hq with rfl | hq
    · exact ⟨hpos, .inr ⟨a, n, ha, rfl, hsz⟩⟩
    · obtain ⟨hq₀, hcase⟩ := A.piece q hq
      refine ⟨hq₀, hcase.imp ?_ ?_⟩
      · rintro ⟨j, ⟨b, k, hb, hk, hptr⟩, hle⟩
        exact ⟨j, ⟨b, k, hkeep b _ hb, hk, hptr⟩, hle⟩
      · rintro ⟨b, m, hb, hrest⟩
        exact ⟨b, m, hkeep b _ hb, hrest⟩
  · rcases List.mem_cons.1 hmem with rfl | hmem
    · obtain ⟨b, hb, hbb, -⟩ := R.placed.isBlock_bounds (R.node j _ hx)
      exact hne b _ hb (hbb.symm.trans hbase)
    · exact A.notLive j x hx hmem
  · obtain ⟨hba, hb⟩ := hback b j hb
    exact (A.part b j k hb hk).imp id (List.mem_cons_of_mem _)
  · obtain ⟨hba, hb⟩ := hback b j hb
    have hnot : ¬ inArena b (a + arenaSize) = true := fun h =>
      hba ((inArena_iff.1 h).symm.trans hbase)
    rw [View.setCnt_fc, Function.update_of_ne hba, List.map_cons, List.countP_cons_of_neg hnot]
    exact A.cnt b j hb
  · by_cases hba : b = a
    · subst hba
      exact List.mem_cons_self
    · rw [View.setCnt_ar, View.setArena_ar, Function.update_of_ne hba] at hb
      exact List.mem_cons_of_mem _ (A.large b m hb)

/-- Giving a large arena back with its allocation. -/
theorem Acct.dropLarge {live₁ live₂ : List Alloc} {q : Alloc} {n : Nat}
    (A : Acct v (live₁ ++ q :: live₂)) (R : Rep env h v) (ha : v.ar a = some (.large n))
    (hq : q.ptr = a + arenaSize) : Acct (v.setArena a none) (live₁ ++ live₂) := by
  have hnd := A.nodup
  rw [List.map_append, List.map_cons, List.perm_middle.nodup_iff, List.nodup_cons,
    ← List.map_append] at hnd
  have hsub : ∀ b k, Function.update v.ar a none b = some k → b ≠ a ∧ v.ar b = some k := by
    intro b k hb
    by_cases hba : b = a
    · subst hba
      rw [Function.update_self] at hb
      cases hb
    · exact ⟨hba, by rwa [Function.update_of_ne hba] at hb⟩
  have hold : ∀ r, r ∈ live₁ ++ live₂ → r ∈ live₁ ++ q :: live₂ := by
    intro r hr
    simp only [List.mem_append, List.mem_cons] at hr ⊢
    tauto
  have hsplit : ∀ x, x ∈ (live₁ ++ q :: live₂).map Alloc.ptr → x ≠ q.ptr →
      x ∈ (live₁ ++ live₂).map Alloc.ptr := by
    intro x hx hne
    simp only [List.map_append, List.map_cons, List.mem_append, List.mem_cons] at hx ⊢
    tauto
  have hbase : block2arena q.ptr = a := by rw [hq, R.placed.base_large ha]
  -- the arena is large and has no blocks
  have hblk : ∀ j x, v.IsBlock j x → block2arena x ≠ a := by
    intro j x hx heq
    obtain ⟨b, hb, hbb, -⟩ := R.placed.isBlock_bounds hx
    rw [hbb.symm.trans heq, ha] at hb
    cases hb
  refine ⟨hnd.2, fun r hr => ?_, fun j x hx hmem => ?_, fun b j k hb hk => ?_,
    fun b j hb => ?_, fun b m hb => ?_⟩
  · obtain ⟨hpos, hcase⟩ := A.piece r (hold r hr)
    refine ⟨hpos, hcase.imp ?_ ?_⟩
    · rintro ⟨j, ⟨b, k, hb, hk, hptr⟩, hle⟩
      have hba : b ≠ a := by
        rintro rfl
        rw [ha] at hb
        cases hb
      exact ⟨j, ⟨b, k, by rwa [View.setArena_ar, Function.update_of_ne hba], hk, hptr⟩, hle⟩
    · rintro ⟨b, m, hb, hptr, hle⟩
      have hba : b ≠ a := by
        rintro rfl
        exact hnd.1 (by rw [hq, ← hptr]; exact List.mem_map_of_mem hr)
      exact ⟨b, m, by rwa [View.setArena_ar, Function.update_of_ne hba], hptr, hle⟩
  · refine A.notLive j x hx ?_
    obtain ⟨r, hr, rfl⟩ := List.mem_map.1 hmem
    exact List.mem_map_of_mem (hold r hr)
  · obtain ⟨-, hb⟩ := hsub b _ hb
    refine (A.part b j k hb hk).imp id fun hx => hsplit _ hx fun heq => ?_
    exact hblk j _ ⟨b, k, hb, hk, rfl⟩ (heq ▸ hbase)
  · obtain ⟨hba, hb⟩ := hsub b _ hb
    have hout : ¬ inArena b q.ptr = true := fun h => hba ((inArena_iff.1 h).symm.trans hbase)
    have hcnt := A.cnt b j hb
    simp only [List.map_append, List.map_cons, List.countP_append,
      List.countP_cons_of_neg hout] at hcnt ⊢
    exact hcnt
  · obtain ⟨hba, hb⟩ := hsub b _ hb
    refine hsplit _ (A.large b m hb) fun heq => hba ?_
    rw [hq] at heq
    exact Nat.add_right_cancel heq

end Kernel
end JackOS
