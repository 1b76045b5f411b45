/-
  JackOS.Kernel.ArenaCalls

  What the loops and calls of the allocator do to the view of a heap: splitting
  a page into blocks, taking a block from a free list, putting one back, and
  dissolving an arena.  Each lemma also says that the ASSERTs on the way hold.
-/

import JackOS.Kernel.Arena
import Mathlib.Data.List.Perm.Subperm

namespace JackOS
namespace Kernel

open Base Base.Mem Base.LinkStore Lib

variable {env : HeapEnv} {h : Heap} {v : View} {a e : Nat} {i : Fin 7}

/-! ## Lookups -/

theorem Rep.arena2block (R : Rep env h v) (ha : v.ar a = some (.small i)) {k : Nat}
    (hk : k < blocksPerArena i) : arena2block h.mem a k = block a i k := by
  have hp := R.placed.page ha
  have hb := block_bounds a hk
  have hs := (blockSize_bounds i).1
  rw [Kernel.arena2block, (R.small a i ha).1, (R.desc i).1]
  show block a i k % 2 ^ 32 = block a i k
  exact Nat.mod_eq_of_lt (by omega)

/-- A list of distinct numbers below `n` has at most `n` of them. -/
theorem nodup_length_le {xs : List Nat} {n : Nat} (hnd : xs.Nodup) (hlt : ∀ x ∈ xs, x < n) :
    xs.length ≤ n := by
  have hsub : xs ⊆ List.range n := fun x hx => List.mem_range.2 (hlt x hx)
  simpa using (hnd.subperm hsub).length_le

theorem Rep.nodup (R : Rep env h v) (i : Fin 7) : (v.fl i).Nodup :=
  (R.lists.holds i).nodup_elems

theorem Rep.length_lt (R : Rep env h v) (i : Fin 7) : (v.fl i).length < listFuel := by
  have hle := nodup_length_le (n := 2 ^ 32) (R.nodup i) fun x hx =>
    ((R.lists.holds i).valid x (Anchor.mem_nodes.2 (.inr (.inl hx)))).1
  exact Nat.lt_succ_of_le hle

theorem Rep.elemFind (R : Rep env h v) (x : Nat) :
    elemFind memLinks h.mem (freeLists env i) x = .ok (decide (x ∈ v.fl i)) :=
  elemFind_eq (R.lists.holds i) (R.length_lt i)

theorem Rep.listEmpty (R : Rep env h v) :
    listEmpty memLinks h.mem (freeLists env i) = decide (v.fl i = []) :=
  listEmpty_eq (R.lists.holds i)

/-! ## Splitting an arena -/

/-- Blocks `idx..idx+left-1` of the arena at `a`. -/
def blocksFrom (a : Nat) (i : Fin 7) (idx left : Nat) : List Nat :=
  (List.range' idx left).map (block a i)

theorem mem_blocksFrom {idx left x : Nat} :
    x ∈ blocksFrom a i idx left ↔ ∃ k, idx ≤ k ∧ k < idx + left ∧ x = block a i k := by
  simp only [blocksFrom, List.mem_map, List.mem_range'_1]
  constructor
  · rintro ⟨k, ⟨h₁, h₂⟩, rfl⟩
    exact ⟨k, h₁, h₂, rfl⟩
  · rintro ⟨k, h₁, h₂, rfl⟩
    exact ⟨k, ⟨h₁, h₂⟩, rfl⟩

theorem blocksFrom_succ (a : Nat) (i : Fin 7) (idx left : Nat) :
    blocksFrom a i idx (left + 1) = block a i idx :: blocksFrom a i (idx + 1) left := by
  simp [blocksFrom, List.range'_succ]

/-- The splitting loop appends the remaining blocks in order. -/
theorem splitArena_rep {left idx : Nat} (R : Rep env h v) (ha : v.ar a = some (.small i))
    (hsum : idx + left = blocksPerArena i)
    (hfresh : ∀ k, idx ≤ k → k < blocksPerArena i → block a i k ∉ v.fl i) :
    ∃ m, splitArena a left idx h.mem = .ok m
      ∧ Rep env { h with mem := m } (v.setFree i (v.fl i ++ blocksFrom a i idx left)) := by
  induction left generalizing idx h v with
  | zero =>
      refine ⟨h.mem, rfl, ?_⟩
      have hnil : blocksFrom a i idx 0 = [] := rfl
      rw [hnil, List.append_nil, View.setFree_self]
      exact R
  | succ left ih =>
      have hk : idx < blocksPerArena i := by omega
      have hnew := hfresh idx (Nat.le_refl _) hk
      have hblk : v.IsBlock i (block a i idx) := ⟨a, idx, ha, hk, rfl⟩
      have R' := R.append hblk hnew
      obtain ⟨m, hm, Rm⟩ := ih R' ha (show idx + 1 + left = _ by omega) fun k h₁ h₂ => by
        rw [View.setFree_fl, Function.update_self, List.mem_append, List.mem_singleton]
        rintro (hmem | heq)
        · exact hfresh k (by omega) h₂ hmem
        · have := block_injective a i heq
          omega
      refine ⟨m, ?_, ?_⟩
      · have hfind := R.elemFind (i := i) (block a i idx)
        rw [splitArena, R.arena2block ha hk, (R.small a i ha).1]
        have hreq : require (decide (block a i idx ∈ v.fl i) = false) = .ok () :=
          require_pos (decide_eq_false hnew)
        simp only [hfind, Outcome.ok_bind, hreq]
        exact hm
      · rw [View.setFree_fl, Function.update_self, View.setFree_setFree, List.append_assoc] at Rm
        rw [blocksFrom_succ]
        exact Rm

/-! ## Dissolving an arena -/

/-- Filtering one element out of a list in which it occurs once. -/
theorem filter_ne_split {α : Type _} (f : α → Nat) {x : α} {xs ys : List α}
    (hnd : ((xs ++ x :: ys).map f).Nodup) :
    (xs ++ x :: ys).filter (fun y => decide (f y ≠ f x)) = xs ++ ys := by
  rw [List.map_append, List.map_cons, List.nodup_append, List.nodup_cons] at hnd
  obtain ⟨-, ⟨hys, -⟩, hxs⟩ := hnd
  have h₁ : ∀ y ∈ xs, decide (f y ≠ f x) = true := fun y hy =>
    decide_eq_true (hxs _ (List.mem_map_of_mem hy) _ List.mem_cons_self)
  have h₂ : ∀ y ∈ ys, decide (f y ≠ f x) = true := fun y hy =>
    decide_eq_true fun heq => hys (heq ▸ List.mem_map_of_mem hy)
  rw [List.filter_append, List.filter_cons_of_neg (by simp), List.filter_eq_self.2 h₁,
    List.filter_eq_self.2 h₂]

/-- The removing loop leaves the list without these blocks. -/
theorem removeBlocks_rep {left idx : Nat} (R : Rep env h v) (ha : v.ar a = some (.small i))
    (hsum : idx + left = blocksPerArena i)
    (hall : ∀ k, idx ≤ k → k < blocksPerArena i → block a i k ∈ v.fl i) :
    ∃ m, removeBlocks a left idx h.mem = .ok m
      ∧ Rep env { h with mem := m }
        (v.setFree i ((v.fl i).filter fun x => decide (x ∉ blocksFrom a i idx left))) := by
  induction left generalizing idx h v with
  | zero =>
      refine ⟨h.mem, rfl, ?_⟩
      have hnil : blocksFrom a i idx 0 = [] := rfl
      simp only [hnil, List.not_mem_nil, not_false_eq_true, decide_true, List.filter_true,
        View.setFree_self]
      exact R
  | succ left ih =>
      have hk : idx < blocksPerArena i := by omega
      have hmem := hall idx (Nat.le_refl _) hk
      obtain ⟨xs, ys, hfl⟩ := List.append_of_mem hmem
      have hnd := R.nodup i
      have herase : xs ++ ys = (v.fl i).filter fun x => decide (x ≠ block a i idx) := by
        rw [hfl] at hnd ⊢
        exact (filter_ne_split id (by rwa [List.map_id])).symm
      have R' := R.remove hfl
      obtain ⟨m, hm, Rm⟩ := ih R' ha (show idx + 1 + left = _ by omega) fun k h₁ h₂ => by
        rw [View.setFree_fl, Function.update_self, herase, List.mem_filter]
        refine ⟨hall k (by omega) h₂, ?_⟩
        have hne : block a i k ≠ block a i idx := fun heq => by
          have := block_injective a i heq
          omega
        exact decide_eq_true hne
      refine ⟨m, ?_, ?_⟩
      · have hfind := R.elemFind (i := i) (block a i idx)
        rw [removeBlocks, R.arena2block ha hk, (R.small a i ha).1]
        have hreq : require (decide (block a i idx ∈ v.fl i) = true) = .ok () :=
          require_pos (decide_eq_true hmem)
        simp only [hfind, Outcome.ok_bind, hreq]
        exact hm
      · rw [View.setFree_fl, Function.update_self, View.setFree_setFree, herase,
          List.filter_filter] at Rm
        have hpred : (fun x => decide (x ∉ blocksFrom a i idx (left + 1)))
            = fun x => decide (x ∉ blocksFrom a i (idx + 1) left)
                && decide (x ≠ block a i idx) := by
          funext x
          simp only [blocksFrom_succ, List.mem_cons, ← Bool.decide_and]
          exact decide_eq_decide.2 (by tauto)
        rw [hpred]
        exact Rm

/-- After all blocks of an arena are removed, the list has the blocks of the
    other arenas. -/
theorem Rep.filter_blocks (R : Rep env h v) (ha : v.ar a = some (.small i)) :
    (v.fl i).filter (fun x => decide (x ∉ blocksFrom a i 0 (blocksPerArena i)))
      = (v.fl i).filter fun x => decide (block2arena x ≠ a) := by
  apply List.filter_congr
  intro x hx
  obtain ⟨b, k, hb, hk, rfl⟩ := R.node i x hx
  have hpage := R.placed.page hb
  have hbb := block_bounds b hk
  have hs := (blockSize_bounds i).1
  have hbase : block2arena (block b i k) = b :=
    block2arena_of_mem_page hpage.1 hpage.2.2 (by omega) (by omega)
  rw [hbase]
  refine decide_eq_decide.2 (not_congr ?_)
  rw [mem_blocksFrom]
  constructor
  · rintro ⟨l, -, hl, heq⟩
    have hpa := R.placed.page ha
    have hba := block_bounds a (k := l) (i := i) (by omega)
    rw [← hbase, heq]
    exact block2arena_of_mem_page hpa.1 hpa.2.2 (by omega) (by omega)
  · rintro rfl
    exact ⟨k, Nat.zero_le _, by omega, rfl⟩

/-! ## Setting an arena up -/

/-- A page set up as an arena of class `i` gives its blocks to the free list. -/
theorem newArena_rep (R : Rep env h v)
    (hplace : Placed env (Function.update v.ar a (some (.small i)))) (hnew : v.ar a = none) :
    ∃ m, newArena (descAddr env i) a h.mem = .ok m
      ∧ Rep env { h.takePages (a / 4096) 1 with mem := m }
        (((v.setArena a (some (.small i))).setCnt a (blocksPerArena i)).setFree i
          (v.fl i ++ blocksFrom a i 0 (blocksPerArena i))) := by
  have ha : Function.update v.ar a (some (Kind.small i)) a = some (.small i) :=
    Function.update_self _ _ _
  have hd := descAddr_bounds env i
  have hda := hplace.descs _ _ ha
  simp only [Kind.pages_small] at hda
  -- the header is written inside the page, away from the descriptor
  let m₁ := store32 (store32 (fill h.mem a 0 pgSize) a (descAddr env i)) (a + 8) 0
  have hout₁ : ∀ x, (x < a ∨ a + 4096 ≤ x) → m₁ x = h.mem x := by
    intro x hx
    show store32 _ _ _ x = _
    rw [store32_outside (by omega), store32_outside (by omega), fill_outside]
    simp only [pgSize]
    omega
  have hper : descBlocksPerArena m₁ (descAddr env i) = blocksPerArena i := by
    rw [← (R.desc i).2]
    exact (descWords_eq fun x h₁ h₂ => hout₁ x (by omega)).2
  let m₂ := setArenaFreeCnt m₁ a (blocksPerArena i)
  have R₂ : Rep env { h.takePages (a / 4096) (Kind.small i).pages with mem := m₂ }
      ((v.setArena a (some (.small i))).setCnt a (blocksPerArena i)) := by
    refine R.addArena hplace hnew (fun x hx => ?_) (fun j hj => ?_) (fun n hn => by cases hn)
    · rw [Kind.pages_small] at hx
      show store32 _ _ _ x = _
      rw [store32_outside (by omega)]
      exact hout₁ x (by omega)
    · cases hj
      refine ⟨?_, le32_store32_self (blocksPerArena_lt i), ?_⟩
      · show le32 (store32 _ _ _) a = _
        rw [le32_store32_of_disjoint (by omega)]
        show le32 (store32 _ _ _) a = _
        rw [le32_store32_of_disjoint (by omega)]
        exact le32_store32_self (by omega)
      · show le32 (store32 _ _ _) (a + 8) = _
        rw [le32_store32_of_disjoint (by omega)]
        exact le32_store32_self (by decide)
  obtain ⟨m, hm, Rm⟩ := splitArena_rep R₂ ha (Nat.zero_add (blocksPerArena i))
    fun k _ hk hmem => by
      -- no free block lies in a page that was not owned
      obtain ⟨b, l, hb, hl, heq⟩ := R.node i _ hmem
      have hne : b ≠ a := by
        rintro rfl
        rw [hnew] at hb
        cases hb
      have hb' : Function.update v.ar a (some (Kind.small i)) b = some (.small i) := by
        rwa [Function.update_of_ne hne]
      have hdj := hplace.disj _ _ _ _ hb' ha hne
      have h₁ := block_bounds a hk
      have h₂ := block_bounds b hl
      simp only [Kind.pages_small] at hdj
      have hs := (blockSize_bounds i).1
      omega
  refine ⟨m, ?_, Rm⟩
  have hper₂ : descBlocksPerArena m₂ (descAddr env i) = blocksPerArena i := (R₂.desc i).2
  show splitArena a (descBlocksPerArena (setArenaFreeCnt m₁ a
    (descBlocksPerArena m₁ (descAddr env i))) (descAddr env i)) 0
    (setArenaFreeCnt m₁ a (descBlocksPerArena m₁ (descAddr env i))) = .ok m
  rw [hper]
  show splitArena a (descBlocksPerArena m₂ (descAddr env i)) 0 m₂ = .ok m
  rw [hper₂]
  exact hm

/-! ## Taking and returning blocks -/

/-- Popping a block clears it and counts it out of its arena. -/
theorem takeBlock_rep {xs : List Nat} {c : Nat} (R : Rep env h v) (hfl : v.fl i = e :: xs)
    (hc : v.fc (block2arena e) = c + 1) (hlt : c + 1 < 2 ^ 32) :
    ∃ m, takeBlock (descAddr env i) h = (some e, { h with mem := m })
      ∧ Rep env { h with mem := m } ((v.setFree i xs).setCnt (block2arena e) c) := by
  obtain ⟨hfst, Rp⟩ := R.pop hfl
  have he : v.IsBlock i e := R.node i e (by simp [hfl])
  obtain ⟨a, ha, hbase, -, hlo, hhi, -⟩ := R.placed.isBlock_bounds he
  obtain ⟨hs₁, hs₂⟩ := blockSize_bounds i
  let m₁ := (listPop memLinks h.mem (freeLists env i)).2
  let m₂ := fill m₁ e 0 (blockSize i)
  have hnd := R.nodup i
  rw [hfl, List.nodup_cons] at hnd
  -- clearing the block touches nothing the rest of the view depends on
  have R₂ : Rep env { h with mem := m₂ } (v.setFree i xs) := by
    refine Rp.frame fun x hx => fill_outside ?_
    rcases hx with hx | ⟨b, k, hb, h₁, h₂⟩ | ⟨j, y, hy, h₁, h₂⟩
    · have := R.placed.block_descs he
      omega
    · have := R.placed.block_header he hb
      omega
    · have hyj : y ∈ v.fl j ∧ y ≠ e := by
        by_cases hj : j = i
        · subst hj
          rw [View.setFree_fl, Function.update_self] at hy
          exact ⟨by simp [hfl, hy], fun heq => hnd.1 (heq ▸ hy)⟩
        · rw [View.setFree_fl, Function.update_of_ne hj] at hy
          exact ⟨hy, fun heq => R.not_mem_other he hj (heq ▸ hy)⟩
      have := R.placed.blocks_apart (R.node j y hyj.1) he hyj.2
      have := (blockSize_bounds j).1
      omega
  have hcnt : arenaFreeCnt m₂ a = c + 1 := by
    rw [(R₂.small a i ha).2.1, ← hc, hbase]
    rfl
  refine ⟨setArenaFreeCnt m₂ a c, ?_, ?_⟩
  · have hsz : descBlockSize m₁ (descAddr env i) = blockSize i := (Rp.desc i).1
    have hval : (c + 1 + 2 ^ 32 - 1) % 2 ^ 32 = c := by
      rw [show c + 1 + 2 ^ 32 - 1 = c + 2 ^ 32 by omega, Nat.add_mod_right]
      exact Nat.mod_eq_of_lt (by omega)
    have hpop : listPop memLinks h.mem (descFreeList (descAddr env i)) = (e, m₁) :=
      Prod.ext hfst rfl
    have hcnt' : arenaFreeCnt (fill m₁ e 0 (blockSize i)) a = c + 1 := hcnt
    simp only [takeBlock, hpop, hsz, hbase, hcnt', hval]
    rfl
  · rw [hbase]
    exact R₂.setCnt ha (by omega)

/-- Returning a block counts it in; the arena stays as long as a block of it
    is missing. -/
theorem freeSmall_rep_keep {c : Nat} (R : Rep env h v) (he : v.IsBlock i e)
    (hout : e ∉ v.fl i) (hc : v.fc (block2arena e) = c) (hlt : c + 1 < blocksPerArena i) :
    ∃ m, freeSmall (block2arena e) e h = .ok { h with mem := m }
      ∧ Rep env { h with mem := m }
        ((v.setFree i (v.fl i ++ [e])).setCnt (block2arena e) (c + 1)) := by
  obtain ⟨a, ha, hbase, -⟩ := R.placed.isBlock_bounds he
  have hb := blocksPerArena_lt i
  rw [hbase] at hc ⊢
  have R₁ := R.append he hout
  have hcnt := (R₁.small a i ha).2.1
  rw [View.setFree_fc, hc] at hcnt
  have R₂ := R₁.setCnt (c := c + 1) ha (by omega)
  refine ⟨_, ?_, R₂⟩
  have hdesc₀ := (R.small a i ha).1
  have hdesc := (R₂.small a i ha).1
  have hcnt₂ := (R₂.small a i ha).2.1
  rw [View.setCnt_fc, Function.update_self] at hcnt₂
  have hper := (R₂.desc i).2
  have hmod : (c + 1) % 2 ^ 32 = c + 1 := Nat.mod_eq_of_lt (by omega)
  have hne : ¬ c + 1 = blocksPerArena i := by omega
  simp only [freeSmall, hdesc₀, hcnt, hmod, hcnt₂, hdesc, hper]
  exact if_neg hne

/-- Returning the last missing block dissolves the arena. -/
theorem freeSmall_rep_drop {c : Nat} (R : Rep env h v) (he : v.IsBlock i e)
    (hout : e ∉ v.fl i) (hc : v.fc (block2arena e) = c) (heq : c + 1 = blocksPerArena i)
    (hall : ∀ k, k < blocksPerArena i → block (block2arena e) i k ∈ v.fl i
      ∨ block (block2arena e) i k = e) :
    ∃ m, freeSmall (block2arena e) e h
        = .ok ({ h with mem := m }.dropPages (block2arena e / 4096) 1)
      ∧ Rep env ({ h with mem := m }.dropPages (block2arena e / 4096) 1)
        ((((v.setFree i (v.fl i ++ [e])).setCnt (block2arena e) (c + 1)).setFree i
          ((v.fl i ++ [e]).filter fun x => decide (block2arena x ≠ block2arena e))).setArena
            (block2arena e) none) := by
  obtain ⟨a, ha, hbase, -⟩ := R.placed.isBlock_bounds he
  have hb := blocksPerArena_lt i
  rw [hbase] at hc hall ⊢
  have R₁ := R.append he hout
  have hcnt := (R₁.small a i ha).2.1
  rw [View.setFree_fc, hc] at hcnt
  have R₂ := R₁.setCnt (c := c + 1) ha (by omega)
  obtain ⟨m, hm, R₃⟩ := removeBlocks_rep R₂ ha (Nat.zero_add (blocksPerArena i))
    fun k _ hk => by
      rw [View.setCnt_fl, View.setFree_fl, Function.update_self, List.mem_append,
        List.mem_singleton]
      exact hall k hk
  rw [R₂.filter_blocks ha] at R₃
  rw [View.setCnt_fl, View.setFree_fl, Function.update_self] at R₃
  obtain ⟨hfree, R₄⟩ := R₃.dropArena (k := .small i) ha fun j x hx => by
    by_cases hj : j = i
    · subst hj
      rw [View.setFree_fl, Function.update_self, List.mem_filter] at hx
      exact of_decide_eq_true hx.2
    · rw [View.setFree_fl, Function.update_of_ne hj, View.setCnt_fl, View.setFree_fl,
        Function.update_of_ne hj] at hx
      obtain ⟨b, hb, hbb, -⟩ := R.placed.isBlock_bounds (R.node j x hx)
      rintro rfl
      rw [hbb] at ha
      rw [hb] at ha
      cases ha
      exact hj rfl
  refine ⟨m, ?_, R₄⟩
  have hdesc₀ := (R.small a i ha).1
  have hdesc := (R₂.small a i ha).1
  have hcnt₂ := (R₂.small a i ha).2.1
  rw [View.setCnt_fc, Function.update_self] at hcnt₂
  have hper := (R₂.desc i).2
  have hmod : (c + 1) % 2 ^ 32 = c + 1 := Nat.mod_eq_of_lt (by omega)
  simp only [freeSmall, hdesc₀, hcnt, hmod, hcnt₂, hdesc, hper]
  rw [if_pos heq]
  have hm' : removeBlocks a (blocksPerArena i) 0 (setArenaFreeCnt
      (listAppend memLinks h.mem (descFreeList (descAddr env i)) e) a (c + 1)) = .ok m := hm
  rw [hm', Outcome.ok_bind]
  exact hfree

end Kernel
end JackOS
