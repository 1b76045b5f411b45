/-
  JackOS.Kernel.HeapSafe

  Heap safety of the arena allocator.  `block_desc_init` establishes the
  invariant, each call keeps it and meets none of its ASSERTs badly, and the
  invariant gives disjoint allocations, exact counters and well-formed free
  lists in every reachable state of every run.
-/

import JackOS.Kernel.Heap

namespace JackOS
namespace Kernel

open Base Base.Mem Base.LinkStore Lib

variable {env : HeapEnv} {h : Heap} {v : View} {live : List Alloc} {a : Nat} {i : Fin 7}

/-- The invariant of a heap in use. -/
def HeapInv (env : HeapEnv) (s : HeapRun) : Prop :=
  ∃ v, Rep env s.heap v ∧ Acct v s.live ∧ NoIdle v s.live

/-! ## Initialisation -/

/-- The heap without arenas. -/
def emptyView : View := ⟨fun _ => none, fun _ => [], fun _ => 0⟩

/-- The descriptor of class `i` is set up. -/
structure DescReady (env : HeapEnv) (m : Mem) (i : Fin 7) : Prop where
  words : descBlockSize m (descAddr env i) = blockSize i
    ∧ descBlocksPerArena m (descAddr env i) = blocksPerArena i
  list : memLinks.Holds m (freeLists env i) []

theorem DescReady.frame {m m' : Mem} (hd : DescReady env m i)
    (hm : ∀ x, descAddr env i ≤ x → x < descAddr env i + 24 → m' x = m x) :
    DescReady env m' i := by
  refine ⟨?_, hd.list.frame fun z hz => links_eq fun x h₁ h₂ => ?_⟩
  · obtain ⟨h₁, h₂⟩ := descWords_eq fun x h₁ h₂ => hm x h₁ (by omega)
    rw [h₁, h₂]
    exact hd.words
  · rcases freeLists_node hz with rfl | rfl | hz
    · exact hm x (by omega) (by omega)
    · exact hm x (by omega) (by omega)
    · cases hz

/-- One round of `block_desc_init`. -/
theorem descReady_round (env : HeapEnv) (m : Mem) (i : Fin 7) :
    DescReady env (listInit memLinks (store32 (store32 m (descAddr env i) (blockSize i))
      (descAddr env i + 4) (blocksPerArena i)) (freeLists env i)) i
    ∧ ∀ x, (x < descAddr env i ∨ descAddr env i + 24 ≤ x) →
      listInit memLinks (store32 (store32 m (descAddr env i) (blockSize i))
        (descAddr env i + 4) (blocksPerArena i)) (freeLists env i) x = m x := by
  have hd := descAddr_bounds env i
  have hpos := env.descs_pos
  have hs := blockSize_bounds i
  obtain ⟨hlist, hed⟩ := listInit_spec (S := memLinks)
    (s := store32 (store32 m (descAddr env i) (blockSize i)) (descAddr env i + 4)
      (blocksPerArena i)) (l := freeLists env i)
    (show descAddr env i + 8 + 8 ≤ descAddr env i + 16 ∨ _ from .inl (by omega))
    ⟨show descAddr env i + 8 < 2 ^ 32 by omega, show descAddr env i + 8 ≠ 0 by omega⟩
    ⟨show descAddr env i + 16 < 2 ^ 32 by omega, show descAddr env i + 16 ≠ 0 by omega⟩
  have hcell : ∀ x, (x < descAddr env i + 8 ∨ descAddr env i + 24 ≤ x) →
      listInit memLinks (store32 (store32 m (descAddr env i) (blockSize i))
        (descAddr env i + 4) (blocksPerArena i)) (freeLists env i) x
      = store32 (store32 m (descAddr env i) (blockSize i)) (descAddr env i + 4)
        (blocksPerArena i) x := by
    intro x hx
    refine edits_outside hed fun z hz => ?_
    rcases hz with rfl | rfl
    · show x < descAddr env i + 8 ∨ descAddr env i + 8 + 8 ≤ x
      omega
    · show x < descAddr env i + 16 ∨ descAddr env i + 16 + 8 ≤ x
      omega
  refine ⟨⟨?_, hlist⟩, fun x hx => ?_⟩
  · obtain ⟨h₁, h₂⟩ := descWords_eq (d := descAddr env i) fun x _ h₂ => hcell x (by omega)
    rw [h₁, h₂]
    refine ⟨?_, le32_store32_self (blocksPerArena_lt i)⟩
    rw [descBlockSize, le32_store32_of_disjoint (by omega)]
    exact le32_store32_self (by omega)
  · rw [hcell x (by omega), store32_outside (by omega), store32_outside (by omega)]

/-- The loop of `block_desc_init`. -/
theorem blockDescInitFrom_ready {left idx : Nat} {m : Mem} (hsum : idx + left = 7)
    (hready : ∀ j : Fin 7, j.val < idx → DescReady env m j) :
    ∀ j, DescReady env (blockDescInitFrom env.descs left idx (16 * 2 ^ idx) m) j := by
  induction left generalizing idx m with
  | zero => exact fun j => hready j (by have := j.isLt; omega)
  | succ left ih =>
      let i : Fin 7 := ⟨idx, by omega⟩
      obtain ⟨hi, hout⟩ := descReady_round env m i
      have hsize : 16 * 2 ^ idx * 2 % 2 ^ 16 = 16 * 2 ^ (idx + 1) := by
        have hle : 2 ^ idx ≤ 2 ^ 6 := Nat.pow_le_pow_right (by omega) (by omega)
        have hdouble : 2 ^ (idx + 1) = 2 ^ idx * 2 := Nat.pow_succ ..
        omega
      rw [blockDescInitFrom, hsize]
      refine ih (show idx + 1 + left = 7 by omega) fun j hj => ?_
      by_cases hji : j = i
      · subst hji
        exact hi
      · have hlt : j.val < idx := by
          have : j.val ≠ idx := fun heq => hji (Fin.ext heq)
          omega
        refine (hready j hlt).frame fun x h₁ h₂ => hout x ?_
        have := descAddr_apart env hji
        omega

/-- After `block_desc_init` the heap is empty. -/
theorem blockDescInit_rep (env : HeapEnv) (m : Mem) {pages : Nat → Bool}
    (hpages : ∀ p, pages p = false) : Rep env ⟨blockDescInit env.descs m, pages⟩ emptyView := by
  have hready : ∀ j, DescReady env (blockDescInit env.descs m) j :=
    blockDescInitFrom_ready (Nat.zero_add 7) (fun j hj => absurd hj (Nat.not_lt_zero _))
  refine ⟨⟨?_, ?_, ?_, ?_⟩, fun p => ?_, ?_, ?_, fun j => (hready j).words, ⟨fun j =>
    (hready j).list, fun j j' hne x hx y hy => ?_⟩, ?_⟩
  · exact fun a k hk => (by cases hk)
  · exact fun a k hk => (by cases hk)
  · exact fun a k hk => (by cases hk)
  · exact fun a k a' k' hk => (by cases hk)
  · constructor
    · intro hp
      have hno : pages p = true := hp
      rw [hpages p] at hno
      cases hno
    · rintro ⟨a, k, hk, -⟩
      cases hk
  · exact fun a i hk => (by cases hk)
  · exact fun a n hk => (by cases hk)
  · have hd := descAddr_bounds env j
    have hd' := descAddr_bounds env j'
    have hap := descAddr_apart env hne
    show x + 8 ≤ y ∨ y + 8 ≤ x
    rcases freeLists_node hx with rfl | rfl | hx
    · rcases freeLists_node hy with rfl | rfl | hy
      · omega
      · omega
      · cases hy
    · rcases freeLists_node hy with rfl | rfl | hy
      · omega
      · omega
      · cases hy
    · cases hx
  · exact fun j x hx => (by cases hx)

theorem heapInv_init {s : HeapRun} (hs : (heapSystem env).init s) : HeapInv env s := by
  obtain ⟨hlive, hpages, m, hm⟩ := hs
  refine ⟨emptyView, ?_, ?_, fun a i ha => (by cases ha)⟩
  · have R := blockDescInit_rep env m hpages
    rw [← hm] at R
    exact R
  · rw [hlive]
    refine ⟨List.nodup_nil, ?_, ?_, ?_, ?_, ?_⟩
    · exact fun q hq => (by cases hq)
    · exact fun i x hx => (by cases hx)
    · exact fun a i k ha => (by cases ha)
    · exact fun a i ha => (by cases ha)
    · exact fun a n ha => (by cases ha)

/-! ## Requests -/

theorem pageCnt_small {size : Nat} (hs : size ≤ 1024) : pageCnt size = 1 := by
  rw [pageCnt, if_neg (by omega)]

theorem pageCnt_large (env : HeapEnv) {size : Nat} (hs : 1024 < size) (hp : size < env.poolSize) :
    0 < pageCnt size ∧ size + arenaSize ≤ pgSize * pageCnt size ∧ pageCnt size < 2 ^ 32 := by
  have hle := env.poolSize_le
  rw [pageCnt, if_pos hs, divCeiling]
  simp only [arenaSize, pgSize] at hle ⊢
  rw [Nat.mod_eq_of_lt (show size + 12 < 2 ^ 32 by omega),
    Nat.mod_eq_of_lt (show size + 12 + 4096 - 1 < 2 ^ 32 by omega)]
  omega

/-- Granted pages can hold a new arena. -/
theorem Rep.granted (R : Rep env h v) {size : Nat} {k : Kind} (hk : k.pages = pageCnt size)
    (hpos : 0 < k.pages) (hg : GrantOk env h size (some a)) :
    Placed env (Function.update v.ar a (some k)) ∧ v.ar a = none := by
  obtain ⟨hmod, ha₀, hlt, hkern, hdesc, hfree⟩ := hg a rfl
  simp only [← hk, pgSize, descSize, memUnitCnt] at hmod hlt hdesc hfree
  have hp := R.placed
  have hnone : v.ar a = none := by
    rcases hv : v.ar a with _ | j
    · rfl
    · have hown := (R.owned (a / 4096)).2 ⟨a, j, hv, Nat.le_refl _,
        Nat.lt_add_of_pos_right (hp.base _ _ hv).2.2.2⟩
      have := hfree 0 hpos
      rw [Nat.add_zero, hown] at this
      cases this
  -- an arena that overlapped the new pages would own one of them
  have hdis : ∀ b j, v.ar b = some j → a + 4096 * k.pages ≤ b ∨ b + 4096 * j.pages ≤ a := by
    intro b j hb
    by_contra hov
    obtain ⟨hbmod, -, -, hbpos⟩ := hp.base _ _ hb
    have hin : b / 4096 ≤ max (a / 4096) (b / 4096)
        ∧ max (a / 4096) (b / 4096) < b / 4096 + j.pages
        ∧ max (a / 4096) (b / 4096) < a / 4096 + k.pages := by
      omega
    have hown := (R.owned _).2 ⟨b, j, hb, hin.1, hin.2.1⟩
    have hun := hfree (max (a / 4096) (b / 4096) - a / 4096) (by omega)
    rw [show a / 4096 + (max (a / 4096) (b / 4096) - a / 4096)
      = max (a / 4096) (b / 4096) by omega, hown] at hun
    cases hun
  have hcases : ∀ b j, Function.update v.ar a (some k) b = some j →
      (b = a ∧ j = k) ∨ v.ar b = some j := by
    intro b j hb
    by_cases hba : b = a
    · subst hba
      rw [Function.update_self] at hb
      cases hb
      exact .inl ⟨rfl, rfl⟩
    · rw [Function.update_of_ne hba] at hb
      exact .inr hb
  refine ⟨⟨fun b j hb => ?_, fun b j hb hkn => ?_, fun b j hb => ?_,
    fun b j b' j' hb hb' hne => ?_⟩, hnone⟩
  · rcases hcases b j hb with ⟨rfl, rfl⟩ | hb
    · exact ⟨hmod, ha₀, hlt, hpos⟩
    · exact hp.base b j hb
  · rcases hcases b j hb with ⟨rfl, rfl⟩ | hb
    · exact hkern hkn
    · exact hp.kernel b j hb hkn
  · rcases hcases b j hb with ⟨rfl, rfl⟩ | hb
    · omega
    · exact hp.descs b j hb
  · rcases hcases b j hb with ⟨hba, hjk⟩ | hold
    · rcases hcases b' j' hb' with ⟨hba', -⟩ | hold'
      · exact absurd (hba.trans hba'.symm) hne
      · rw [hba, hjk]
        exact hdis b' j' hold'
    · rcases hcases b' j' hb' with ⟨hba', hjk'⟩ | hold'
      · rw [hba', hjk']
        exact (hdis b j hold).symm
      · exact hp.disj b j b' j' hold hold' hne

/-- The search ends at a class whose blocks are large enough. -/
theorem Rep.descIdxFrom (R : Rep env h v) {size left idx : Nat} (hsize : size ≤ 1024)
    (hsum : idx + left = 7) (hleft : 0 < left) :
    ∃ i : Fin 7, descIdxFrom h.mem env.descs size left idx = i.val ∧ size ≤ blockSize i := by
  induction left generalizing idx with
  | zero => exact absurd hleft (Nat.lt_irrefl _)
  | succ left ih =>
      let j : Fin 7 := ⟨idx, by omega⟩
      have hj : descBlockSize h.mem (env.descs + descSize * idx) = blockSize j := (R.desc j).1
      rw [Kernel.descIdxFrom, hj]
      by_cases hle : size ≤ blockSize j
      · exact ⟨j, if_pos hle, hle⟩
      · rw [if_neg hle]
        refine ih (show idx + 1 + left = 7 by omega) (Nat.pos_of_ne_zero fun hz => hle ?_)
        -- the last class has blocks of 1024 bytes
        have hidx : j = 6 := Fin.ext (by show idx = 6; omega)
        rw [hidx]
        exact hsize

/-! ## One call of sys_malloc -/

/-- What a call that may only add arenas leaves. -/
structure Grown (env : HeapEnv) (v : View) (h' : Heap) (live' : List Alloc) (v' : View) :
    Prop where
  rep : Rep env h' v'
  acct : Acct v' live'
  noIdle : NoIdle v' live'
  keeps : ∀ b k, v.ar b = some k → v'.ar b = some k

/-- Taking a block from a non-empty free list; its arena may have been idle. -/
theorem takeBlock_step {e n : Nat} {xs : List Nat} (R : Rep env h v) (A : Acct v live)
    (hidle : ∀ b j, v.ar b = some (.small j) →
      b = block2arena e ∨ 0 < (live.map Alloc.ptr).countP (inArena b))
    (hfl : v.fl i = e :: xs) (hpos : 0 < n) (hn : n ≤ blockSize i) :
    ∃ h' v', takeBlock (descAddr env i) h = (some e, h')
      ∧ Grown env v h' (⟨e, n⟩ :: live) v' := by
  obtain ⟨a, ha, hbase, -⟩ := R.placed.isBlock_bounds (R.node i e (by simp [hfl]))
  have hin : inArena a e = true := inArena_iff.2 hbase
  obtain ⟨hfc, hsum⟩ := A.cnt a i ha
  rw [hfl, List.countP_cons_of_pos hin] at hfc hsum
  have hlt := blocksPerArena_lt i
  obtain ⟨m, htake, R'⟩ := takeBlock_rep R hfl (by rw [hbase]; exact hfc) (by omega)
  refine ⟨_, _, htake, R', A.take R hfl (by rw [hbase]; exact hfc) hpos hn, fun b j hb => ?_,
    fun b k hb => hb⟩
  rw [List.map_cons]
  rcases hidle b j hb with rfl | hlive
  · rw [List.countP_cons_of_pos (by rw [inArena_iff])]
    omega
  · exact Nat.lt_of_lt_of_le hlive (List.sublist_cons_self _ _).countP_le

theorem mallocSmall_step {size : Nat} {g : Option Nat} (R : Rep env h v) (A : Acct v live)
    (N : NoIdle v live) (hpos : 0 < size) (hsize : size ≤ 1024) (hg : GrantOk env h size g) :
    ∃ r h' v', mallocSmall env g size h = .ok (r, h')
      ∧ Grown env v h' (match r with | none => live | some p => ⟨p, size⟩ :: live) v' := by
  obtain ⟨i, hidx, hle⟩ := R.descIdxFrom hsize (Nat.zero_add memUnitCnt) (by decide)
  have hd : env.descs + descSize * Kernel.descIdxFrom h.mem env.descs size memUnitCnt 0
      = descAddr env i := by
    rw [hidx, descAddr]
  simp only [mallocSmall, hd]
  rw [show descFreeList (descAddr env i) = freeLists env i from rfl, R.listEmpty]
  rcases hfl : v.fl i with _ | ⟨e, xs⟩
  · simp only [decide_true, if_true]
    rcases g with _ | a
    · exact ⟨none, h, v, rfl, R, A, N, fun b k hb => hb⟩
    · -- a new arena, whose first block is then taken
      have hone : (Kind.small i).pages = pageCnt size := (pageCnt_small hsize).symm
      obtain ⟨hplace, hnew⟩ := R.granted hone Nat.one_pos hg
      obtain ⟨m, hm, R₁⟩ := newArena_rep R hplace hnew
      have A₁ := A.addSmall R hplace hnew
      obtain ⟨left, hleft⟩ : ∃ k, blocksPerArena i = k + 1 :=
        ⟨blocksPerArena i - 1, by have := blocksPerArena_pos i; omega⟩
      have hfl₁ : (((v.setArena a (some (.small i))).setCnt a (blocksPerArena i)).setFree i
          (v.fl i ++ blocksFrom a i 0 (blocksPerArena i))).fl i
          = block a i 0 :: blocksFrom a i 1 left := by
        rw [View.setFree_fl, Function.update_self, hfl, List.nil_append, hleft, blocksFrom_succ]
      have ha : Function.update v.ar a (some (Kind.small i)) a = some (.small i) :=
        Function.update_self _ _ _
      obtain ⟨b, hb, hbase, hmod, hlo, hhi, hlt⟩ := R₁.placed.isBlock_bounds
        (R₁.node i (block a i 0) (by rw [hfl₁]; exact List.mem_cons_self))
      have hba : block2arena (block a i 0) = a := by
        obtain ⟨hmod, -, hlt⟩ := R₁.placed.page (a := a) (i := i) ha
        have hbb := block_bounds a (blocksPerArena_pos i)
        have hs := (blockSize_bounds i).1
        exact block2arena_of_mem_page hmod hlt (by omega) (by omega)
      obtain ⟨h', v', htake, hgrown⟩ := takeBlock_step R₁ A₁ (fun c j hc => by
        by_cases hca : c = a
        · exact .inl (hca.trans hba.symm)
        · rw [View.setFree_ar, View.setCnt_ar, View.setArena_ar, Function.update_of_ne hca] at hc
          exact .inr (N c j hc)) hfl₁ hpos hle
      refine ⟨some (block a i 0), h', v', ?_, hgrown.rep, hgrown.acct, hgrown.noIdle,
        fun c k hc => hgrown.keeps c k ?_⟩
      · have hcall : newArena (descAddr env i) a (h.takePages (a / pgSize) 1).mem = .ok m := hm
        simp only [mallocPage, hcall, Outcome.ok_bind]
        rw [← htake]
        rfl
      · have hca : c ≠ a := by
          rintro rfl
          rw [hnew] at hc
          cases hc
        rw [View.setFree_ar, View.setCnt_ar, View.setArena_ar, Function.update_of_ne hca]
        exact hc
  · simp only [reduceCtorEq, decide_false, Bool.false_eq_true, if_false]
    obtain ⟨h', v', htake, hgrown⟩ := takeBlock_step R A (fun b j hb => .inr (N b j hb)) hfl hpos hle
    exact ⟨some e, h', v', by rw [htake], hgrown⟩

theorem mallocLarge_step {size : Nat} {g : Option Nat} (R : Rep env h v) (A : Acct v live)
    (N : NoIdle v live) (hsize : 1024 < size) (hpool : size < env.poolSize)
    (hg : GrantOk env h size g) :
    ∃ r h' v', mallocLarge g size h = .ok (r, h')
      ∧ Grown env v h' (match r with | none => live | some p => ⟨p, size⟩ :: live) v' := by
  obtain ⟨hpos, hroom, hlt⟩ := pageCnt_large env hsize hpool
  rcases g with _ | a
  · exact ⟨none, h, v, rfl, R, A, N, fun b k hb => hb⟩
  · obtain ⟨hplace, hnew⟩ := R.granted (k := .large (pageCnt size)) rfl hpos hg
    let m := store32 (setArenaFreeCnt (store32 (fill h.mem a 0 (pageCnt size * pgSize)) a 0) a
      (pageCnt size)) (a + 8) 1
    have hm : ∀ x, x < a + 8 ∨ a + 12 ≤ x → m x = setArenaFreeCnt (store32 (fill h.mem a 0
        (pageCnt size * pgSize)) a 0) a (pageCnt size) x :=
      fun x hx => store32_outside (by omega)
    have R' : Rep env { h.takePages (a / 4096) (Kind.large (pageCnt size)).pages with mem := m }
        ((v.setArena a (some (.large (pageCnt size)))).setCnt a 0) := by
      refine R.addArena hplace hnew (fun x hx => ?_) (fun j hj => by cases hj) (fun n hn => ?_)
      · simp only [Kind.pages_large] at hx
        rw [hm x (by omega), setArenaFreeCnt, store32_outside (by omega),
          store32_outside (by omega), fill_outside]
        simp only [pgSize]
        omega
      · cases hn
        refine ⟨?_, ?_, le32_store32_self (by decide)⟩
        · rw [arenaDesc, le32_eq_of_outside fun x h₁ h₂ => hm x (by omega), setArenaFreeCnt,
            le32_store32_of_disjoint (by omega)]
          exact le32_store32_self (by decide)
        · rw [arenaFreeCnt, le32_eq_of_outside fun x h₁ h₂ => hm x (by omega)]
          exact le32_store32_self hlt
    refine ⟨some (a + arenaSize), _, _, rfl, R', A.addLarge R hplace hnew (by omega) hroom,
      fun b j hb => ?_, fun b k hb => ?_⟩
    · have hba : b ≠ a := by
        rintro rfl
        rw [View.setCnt_ar, View.setArena_ar, Function.update_self] at hb
        cases hb
      rw [View.setCnt_ar, View.setArena_ar, Function.update_of_ne hba] at hb
      rw [List.map_cons]
      exact Nat.lt_of_lt_of_le (N b j hb)
        (List.sublist_cons_self _ _).countP_le
    · have hba : b ≠ a := by
        rintro rfl
        rw [hnew] at hb
        cases hb
      rw [View.setCnt_ar, View.setArena_ar, Function.update_of_ne hba]
      exact hb

/-- `sys_malloc` returns, keeps the invariant and drops no arena. -/
theorem sysMalloc_step {size : Nat} {g : Option Nat} (R : Rep env h v) (A : Acct v live)
    (N : NoIdle v live) (hg : GrantOk env h size g) :
    ∃ r h' v', sysMalloc env g size h = .ok (r, h')
      ∧ Grown env v h' (match r with | none => live | some p => ⟨p, size⟩ :: live) v' := by
  by_cases hbad : size = 0 ∨ env.poolSize ≤ size
  · exact ⟨none, h, v, by rw [sysMalloc, if_pos hbad], R, A, N, fun b k hb => hb⟩
  · rw [sysMalloc, if_neg hbad]
    by_cases hlarge : size > 1024
    · rw [if_pos hlarge]
      exact mallocLarge_step R A N hlarge (by omega) hg
    · rw [if_neg hlarge]
      exact mallocSmall_step R A N (by omega) (by omega) hg

/-! ## One call of sys_free -/

/-- What `sys_free` does to the arena it frees from. -/
structure Freed (env : HeapEnv) (v : View) (a : Nat) (h' : Heap) (live' : List Alloc)
    (v' : View) : Prop where
  rep : Rep env h' v'
  acct : Acct v' live'
  noIdle : NoIdle v' live'
  arenas : v'.ar = v.ar ∧ 0 < (live'.map Alloc.ptr).countP (inArena a)
    ∨ v'.ar = Function.update v.ar a none ∧ (live'.map Alloc.ptr).countP (inArena a) = 0

/-- Removing a pointer changes only its own arena's count. -/
theorem countP_split {live₁ live₂ : List Alloc} {q : Alloc} (b : Nat) :
    ((live₁ ++ q :: live₂).map Alloc.ptr).countP (inArena b)
      = ((live₁ ++ live₂).map Alloc.ptr).countP (inArena b)
        + if inArena b q.ptr = true then 1 else 0 := by
  simp only [List.map_append, List.map_cons, List.countP_append, List.countP_cons]
  omega

theorem freeSmall_step {live₁ live₂ : List Alloc} {q : Alloc} (R : Rep env h v)
    (A : Acct v (live₁ ++ q :: live₂)) (N : NoIdle v (live₁ ++ q :: live₂))
    (hblk : v.IsBlock i q.ptr) :
    ∃ h' v', freeSmall (block2arena q.ptr) q.ptr h = .ok h'
      ∧ Freed env v (block2arena q.ptr) h' (live₁ ++ live₂) v' := by
  obtain ⟨a, ha, hbase, -⟩ := R.placed.isBlock_bounds hblk
  have hin : inArena a q.ptr = true := inArena_iff.2 hbase
  obtain ⟨hfc, hsum⟩ := A.cnt a i ha
  rw [countP_split, if_pos hin] at hsum
  have hlive : q.ptr ∈ (live₁ ++ q :: live₂).map Alloc.ptr := by simp
  have hout : q.ptr ∉ v.fl i := fun hmem => A.notLive i _ hmem hlive
  have A' := A.give R hblk
  rw [hbase] at A' ⊢
  have hidle : ∀ b j, v.ar b = some (.small j) → b ≠ a →
      0 < ((live₁ ++ live₂).map Alloc.ptr).countP (inArena b) := by
    intro b j hb hba
    have hb' := N b j hb
    rw [countP_split, if_neg fun h => hba ((inArena_iff.1 h).symm.trans hbase)] at hb'
    exact hb'
  by_cases hlast : v.fc a + 1 < blocksPerArena i
  · obtain ⟨m, hm, R'⟩ := freeSmall_rep_keep R hblk hout (by rw [hbase]) hlast
    rw [hbase] at hm R'
    have hcnt : 0 < ((live₁ ++ live₂).map Alloc.ptr).countP (inArena a) := by omega
    refine ⟨_, _, hm, R', A', fun b j hb => ?_, .inl ⟨rfl, hcnt⟩⟩
    by_cases hba : b = a
    · rw [hba]
      exact hcnt
    · exact hidle b j hb hba
  · -- all blocks are back: the arena goes
    have hcnt : ((live₁ ++ live₂).map Alloc.ptr).countP (inArena a) = 0 := by omega
    have hall : ∀ k, k < blocksPerArena i →
        block (block2arena q.ptr) i k ∈ v.fl i ∨ block (block2arena q.ptr) i k = q.ptr := by
      intro k hk
      rw [hbase]
      rcases A'.part a i k ha hk with hx | hx
      · rw [View.setCnt_fl, View.setFree_fl, Function.update_self, List.mem_append,
          List.mem_singleton] at hx
        exact hx
      · obtain ⟨hmod, -, hlt⟩ := R.placed.page ha
        have hbb := block_bounds a hk
        have hs := (blockSize_bounds i).1
        have hbk : block2arena (block a i k) = a :=
          block2arena_of_mem_page hmod hlt (by omega) (by omega)
        exact absurd (inArena_iff.2 hbk) (List.countP_eq_zero.1 hcnt _ hx)
    obtain ⟨m, hm, R'⟩ := freeSmall_rep_drop R hblk hout (by rw [hbase]) (by omega) hall
    rw [hbase] at hm R'
    have ha' : ((v.setFree i (v.fl i ++ [q.ptr])).setCnt a (v.fc a + 1)).ar a
        = some (.small i) := ha
    have A'' := A'.dropSmall ha' hcnt R.placed
    rw [View.setCnt_fl, View.setFree_fl, Function.update_self] at A''
    refine ⟨_, _, hm, R', A'', fun b j hb => ?_, .inr ⟨rfl, hcnt⟩⟩
    have hb' : Function.update v.ar a none b = some (.small j) := hb
    have hba : b ≠ a := by
      rintro rfl
      rw [Function.update_self] at hb'
      cases hb'
    rw [Function.update_of_ne hba] at hb'
    exact hidle b j hb' hba

/-- Giving back a large piece. -/
theorem freeLarge_step {live₁ live₂ : List Alloc} {q : Alloc} {n : Nat} (R : Rep env h v)
    (A : Acct v (live₁ ++ q :: live₂)) (N : NoIdle v (live₁ ++ q :: live₂))
    (ha : v.ar a = some (.large n)) (hq : q.ptr = a + arenaSize) :
    ∃ h' v', mfreePage a n h = .ok h' ∧ Freed env v a h' (live₁ ++ live₂) v' := by
  have hbase : block2arena q.ptr = a := by rw [hq, R.placed.base_large ha]
  obtain ⟨hfree, R'⟩ := R.dropArena ha fun j x hx heq => by
    obtain ⟨b, hb, hbb, -⟩ := R.placed.isBlock_bounds (R.node j x hx)
    rw [hbb.symm.trans heq, ha] at hb
    cases hb
  -- the piece was the arena's only allocation
  have hcnt : ((live₁ ++ live₂).map Alloc.ptr).countP (inArena a) = 0 := by
    refine List.countP_eq_zero.2 fun x hx hin => ?_
    obtain ⟨r, hr, rfl⟩ := List.mem_map.1 hx
    have hr' : r ∈ live₁ ++ q :: live₂ := by
      simp only [List.mem_append, List.mem_cons] at hr ⊢
      tauto
    have hra := inArena_iff.1 hin
    have hrq : r.ptr = q.ptr := by
      rcases R.placed.piece_cases (A.piece r hr') with ⟨j, hb, -⟩ | ⟨m, -, hptr, -⟩
      · rw [hra, ha] at hb
        cases hb
      · rw [hptr, hq, hra]
    have hnd := A.nodup
    rw [List.map_append, List.map_cons, List.perm_middle.nodup_iff, List.nodup_cons,
      ← List.map_append] at hnd
    exact hnd.1 (hrq ▸ hx)
  refine ⟨_, _, hfree, R', A.dropLarge R ha hq, fun b j hb => ?_, .inr ⟨rfl, hcnt⟩⟩
  have hb' : Function.update v.ar a none b = some (.small j) := hb
  have hba : b ≠ a := by
    rintro rfl
    rw [Function.update_self] at hb'
    cases hb'
  rw [Function.update_of_ne hba] at hb'
  have hlive := N b j hb'
  rw [countP_split, if_neg fun h => hba ((inArena_iff.1 h).symm.trans hbase)] at hlive
  exact hlive

/-- `sys_free` of a live pointer returns and keeps the invariant. -/
theorem sysFree_step {live₁ live₂ : List Alloc} {q : Alloc} (R : Rep env h v)
    (A : Acct v (live₁ ++ q :: live₂)) (N : NoIdle v (live₁ ++ q :: live₂)) :
    ∃ h' v', sysFree env q.ptr h = .ok h'
      ∧ Freed env v (block2arena q.ptr) h' (live₁ ++ live₂) v' := by
  have hpiece := A.piece q (by simp)
  obtain ⟨a, k, ha, hbase, hlo, -⟩ := R.placed.piece_bounds hpiece
  have hnull : q.ptr ≠ 0 := by omega
  have hkern : env.kernel = true → kHeapStart ≤ q.ptr := fun hk => by
    have := R.placed.kernel a k ha hk
    omega
  rw [sysFree, require_pos hnull, Outcome.ok_bind, require_pos hkern, Outcome.ok_bind]
  rcases R.placed.piece_cases hpiece with ⟨i, ha, hblk, -⟩ | ⟨n, ha, hq, -⟩
  · obtain ⟨hdesc, -, hlarge⟩ := R.small _ i ha
    have hd := descAddr_bounds env i
    have hpos := env.descs_pos
    have hne : ¬ (arenaDesc h.mem (block2arena q.ptr) = 0
        ∧ arenaLarge h.mem (block2arena q.ptr) = 1) := by
      rw [hdesc]
      omega
    simp only [require_pos (Or.inl hlarge), Outcome.ok_bind, if_neg hne]
    exact freeSmall_step R A N hblk
  · obtain ⟨hdesc, hcnt, hlarge⟩ := R.large _ n ha
    simp only [require_pos (Or.inr hlarge), Outcome.ok_bind, hcnt,
      if_pos (And.intro hdesc hlarge)]
    exact freeLarge_step R A N ha hq

/-! ## Stores of others -/

/-- The pages of an arena are owned. -/
theorem Rep.owned_of_mem (R : Rep env h v) {k : Kind} {x : Nat} (ha : v.ar a = some k)
    (h₁ : a ≤ x) (h₂ : x < a + 4096 * k.pages) : h.pages (x / 4096) = true := by
  have hmod := (R.placed.base a k ha).1
  exact (R.owned _).2 ⟨a, k, ha, by omega, by omega⟩

/-- The allocator's own bytes lie in its pages or its descriptors, outside the
    live allocations. -/
theorem Rep.used (R : Rep env h v) (A : Acct v live) {x : Nat} (hx : Used env v x) :
    (h.pages (x / 4096) = true ∨ env.descs ≤ x ∧ x < env.descs + 168)
      ∧ ∀ q ∈ live, x < q.ptr ∨ q.ptr + q.size ≤ x := by
  have hp := R.placed
  rcases hx with hx | ⟨a, k, ha, h₁, h₂⟩ | ⟨i, y, hy, h₁, h₂⟩
  · refine ⟨.inr hx, fun q hq => ?_⟩
    obtain ⟨b, j, hb, -, hlo, hhi⟩ := hp.piece_bounds (A.piece q hq)
    have := hp.descs b j hb
    omega
  · have hpos := (hp.base a k ha).2.2.2
    refine ⟨.inl (R.owned_of_mem ha h₁ (by omega)), fun q hq => ?_⟩
    obtain ⟨b, j, hb, -, hlo, hhi⟩ := hp.piece_bounds (A.piece q hq)
    by_cases hab : a = b
    · omega
    · have := hp.disj _ _ _ _ ha hb hab
      omega
  · have hblk := R.node i y hy
    obtain ⟨a, ha, hya, hmod, hlo, hhi, -⟩ := hp.isBlock_bounds hblk
    have hs := (blockSize_bounds i).1
    refine ⟨.inl (R.owned_of_mem ha (by omega) (by rw [Kind.pages_small]; omega)),
      fun q hq => ?_⟩
    have hne : y ≠ q.ptr := fun heq => A.notLive i y hy (heq ▸ List.mem_map_of_mem hq)
    -- the free block counts as an allocation of full size
    have hpiece : v.Piece ⟨y, blockSize i⟩ :=
      ⟨by show 0 < blockSize i; omega, .inl ⟨i, hblk, Nat.le_refl _⟩⟩
    have hap : y + blockSize i ≤ q.ptr ∨ q.ptr + q.size ≤ y :=
      hp.pieces_apart hpiece (A.piece q hq) hne
    omega

/-! ## Runs -/

/-- Every legal call returns, and keeps the invariant. -/
theorem heapInv_step {s : HeapRun} {op : HeapOp} (hs : HeapInv env s) (hop : op.Legal env s) :
    ∃ s', op.run env s = .ok s' ∧ HeapInv env s' := by
  obtain ⟨v, R, A, N⟩ := hs
  cases op with
  | malloc size g =>
      obtain ⟨r, h', v', hcall, hg⟩ := sysMalloc_step R A N (hop.2 : GrantOk env _ size g)
      refine ⟨_, by simp only [HeapOp.run, hcall, Outcome.ok_bind]; rfl, v', hg.rep, hg.acct,
        hg.noIdle⟩
  | free p =>
      obtain ⟨q, hq, rfl⟩ := List.mem_map.1 hop
      obtain ⟨live₁, live₂, hlive⟩ := List.append_of_mem hq
      rw [hlive] at A N
      obtain ⟨h', v', hcall, hf⟩ := sysFree_step (q := q) R A N
      refine ⟨⟨h', live₁ ++ live₂⟩, ?_, v', hf.rep, hf.acct, hf.noIdle⟩
      have hfilter := filter_ne_split Alloc.ptr A.nodup
      simp only [HeapOp.run, hcall, Outcome.ok_bind, hlive, hfilter]
  | store x b =>
      refine ⟨_, rfl, v, R.frame fun y hy => ?_, A, N⟩
      obtain ⟨hown, hout⟩ := R.used A hy
      refine store8_outside ?_
      rintro rfl
      rcases hop with ⟨q, hq, h₁, h₂⟩ | ⟨hfree, hdesc⟩
      · have := hout q hq
        omega
      · rcases hown with hown | hown
        · rw [show y / pgSize = y / 4096 from rfl, hown] at hfree
          cases hfree
        · exact hdesc hown

theorem heapInv_reachable {s : HeapRun} (hs : (heapSystem env).Reachable s) : HeapInv env s := by
  refine hs.invariant (fun _ => heapInv_init) fun s op s' hinv hnext => ?_
  obtain ⟨t, hrun, ht⟩ := heapInv_step hinv hnext.1
  have heq : (Except.ok t : Outcome HeapRun) = .ok s' := hrun.symm.trans hnext.2
  cases heq
  exact ht

/-! ## Heap safety -/

/-- What the claim of heap safety says of one state. -/
structure HeapSafe (env : HeapEnv) (s : HeapRun) : Prop where
  /-- Live allocations do not overlap, -/
  disjoint : s.live.Pairwise fun q r => q.ptr + q.size ≤ r.ptr ∨ r.ptr + r.size ≤ q.ptr
  /-- lie in pages of the heap, -/
  owned : ∀ q ∈ s.live, ∀ x, q.ptr ≤ x → x < q.ptr + q.size →
    s.heap.pages (x / pgSize) = true
  /-- and outside all arena headers. -/
  headers : ∀ q ∈ s.live, ∀ r ∈ s.live,
    q.ptr + q.size ≤ block2arena r.ptr ∨ block2arena r.ptr + arenaSize ≤ q.ptr
  /-- Every page of the heap belongs to the arena of a live allocation. -/
  arenas : ∀ p, s.heap.pages p = true → ∃ q ∈ s.live,
    block2arena q.ptr / pgSize ≤ p ∧ p < block2arena q.ptr / pgSize
      + if arenaLarge s.heap.mem (block2arena q.ptr) = 0 then 1
        else arenaFreeCnt s.heap.mem (block2arena q.ptr)
  /-- A small arena counts its blocks on the free list of its descriptor, which
      are those that are not live. -/
  counted : ∀ q ∈ s.live, arenaLarge s.heap.mem (block2arena q.ptr) = 0 →
    ∃ i xs, arenaDesc s.heap.mem (block2arena q.ptr) = descAddr env i
      ∧ memLinks.Holds s.heap.mem (descFreeList (descAddr env i)) xs
      ∧ arenaFreeCnt s.heap.mem (block2arena q.ptr)
        = xs.countP (inArena (block2arena q.ptr))
      ∧ arenaFreeCnt s.heap.mem (block2arena q.ptr)
        + s.ptrs.countP (inArena (block2arena q.ptr))
        = descBlocksPerArena s.heap.mem (descAddr env i)
  /-- The free lists are lists of distinct blocks of allocated small arenas. -/
  lists : ∀ i, ∃ xs, memLinks.Holds s.heap.mem (descFreeList (descAddr env i)) xs ∧ xs.Nodup
    ∧ ∀ x ∈ xs, ∃ a k, s.heap.pages (a / pgSize) = true ∧ arenaLarge s.heap.mem a = 0
      ∧ arenaDesc s.heap.mem a = descAddr env i
      ∧ k < descBlocksPerArena s.heap.mem (descAddr env i)
      ∧ x = arena2block s.heap.mem a k

theorem heapSafe_of_inv {s : HeapRun} (hs : HeapInv env s) : HeapSafe env s := by
  obtain ⟨v, R, A, N⟩ := hs
  have hp := R.placed
  refine ⟨?_, fun q hq x h₁ h₂ => ?_, fun q hq r hr => ?_, fun p hpg => ?_,
    fun q hq hsmall => ?_, fun i => ⟨v.fl i, R.lists.holds i, R.nodup i, fun x hx => ?_⟩⟩
  · have hnd : s.live.Pairwise fun q r => q.ptr ≠ r.ptr := List.pairwise_map.1 A.nodup
    exact hnd.imp_of_mem fun hq hr hne => hp.pieces_apart (A.piece _ hq) (A.piece _ hr) hne
  · obtain ⟨a, k, ha, -, hlo, hhi⟩ := hp.piece_bounds (A.piece q hq)
    exact R.owned_of_mem ha (by omega) (by omega)
  · obtain ⟨a, k, ha, hqa, hlo, hhi⟩ := hp.piece_bounds (A.piece q hq)
    obtain ⟨b, j, hb, hrb, -⟩ := hp.piece_bounds (A.piece r hr)
    have hbpos := (hp.base b j hb).2.2.2
    rw [hrb]
    show _ ∨ b + 12 ≤ _
    by_cases hab : a = b
    · omega
    · have := hp.disj _ _ _ _ ha hb hab
      omega
  · obtain ⟨a, k, ha, h₁, h₂⟩ := (R.owned p).1 hpg
    cases k with
    | small i =>
        obtain ⟨x, hx, hin⟩ := List.countP_pos_iff.1 (N a i ha)
        obtain ⟨q, hq, rfl⟩ := List.mem_map.1 hx
        refine ⟨q, hq, ?_⟩
        rw [inArena_iff.1 hin, if_pos (R.small a i ha).2.2]
        exact ⟨h₁, h₂⟩
    | large n =>
        obtain ⟨q, hq, hptr⟩ := List.mem_map.1 (A.large a n ha)
        refine ⟨q, hq, ?_⟩
        rw [hptr, hp.base_large ha, (R.large a n ha).2.2, (R.large a n ha).2.1,
          if_neg (by decide)]
        exact ⟨h₁, h₂⟩
  · rcases hp.piece_cases (A.piece q hq) with ⟨i, ha, -⟩ | ⟨n, ha, -⟩
    · obtain ⟨hdesc, hcnt, -⟩ := R.small _ i ha
      obtain ⟨hfc, hsum⟩ := A.cnt _ i ha
      refine ⟨i, v.fl i, hdesc, R.lists.holds i, hcnt.trans hfc, ?_⟩
      rw [hcnt, hfc, (R.desc i).2]
      exact hsum
    · rw [(R.large _ n ha).2.2] at hsmall
      exact absurd hsmall (by decide)
  · obtain ⟨a, k, ha, hk, rfl⟩ := R.node i x hx
    obtain ⟨hdesc, -, hlarge⟩ := R.small a i ha
    refine ⟨a, k, R.owned_of_mem ha (Nat.le_refl _) (by rw [Kind.pages_small]; omega), hlarge,
      hdesc, ?_, (R.arena2block ha hk).symm⟩
    rw [(R.desc i).2]
    exact hk

/-- `a` is a small arena with a live block. -/
def IsSmallArena (s : HeapRun) (a : Nat) : Prop :=
  (∃ q ∈ s.live, block2arena q.ptr = a) ∧ arenaLarge s.heap.mem a = 0

/-- An arena that is kept keeps its page; a dropped one loses it. -/
theorem Rep.page_iff {h' : Heap} {v' : View} (R : Rep env h v) (R' : Rep env h' v')
    (ha : v.ar a = some (.small i)) {b : Nat}
    (hv : v'.ar = v.ar ∨ v'.ar = Function.update v.ar b none) :
    h'.pages (a / 4096) = false ↔ v'.ar a = none := by
  have hmod := (R.placed.base _ _ ha).1
  have hsub : ∀ c k, v'.ar c = some k → v.ar c = some k := by
    intro c k hc
    rcases hv with hv | hv
    · rwa [hv] at hc
    · rw [hv] at hc
      by_cases hcb : c = b
      · rw [hcb, Function.update_self] at hc
        cases hc
      · rwa [Function.update_of_ne hcb] at hc
  constructor
  · intro hpg
    rcases hva : v'.ar a with _ | k
    · rfl
    · rw [R'.owned_of_mem hva (Nat.le_refl _)
        (Nat.lt_add_of_pos_right (Nat.mul_pos (by decide) (R'.placed.base _ _ hva).2.2.2))] at hpg
      cases hpg
  · intro hva
    by_contra hpg
    obtain ⟨c, k, hc, h₁, h₂⟩ := (R'.owned _).1 (by simpa using hpg)
    have hca : c ≠ a := by
      rintro rfl
      rw [hva] at hc
      cases hc
    have hcmod := (R'.placed.base _ _ hc).1
    have hdj := R.placed.disj _ _ _ _ (hsub c k hc) ha hca
    simp only [Kind.pages_small] at hdj
    omega

/-- The page of a small arena is given back by the step that frees its last
    live block, and by no other. -/
theorem page_returned_iff {s s' : HeapRun} {op : HeapOp} (hs : HeapInv env s)
    (hop : op.Legal env s) (hrun : op.run env s = .ok s') {a : Nat} (hsmall : IsSmallArena s a) :
    s'.heap.pages (a / pgSize) = false
      ↔ ∃ p, op = .free p ∧ ∀ q ∈ s.live, block2arena q.ptr = a → q.ptr = p := by
  obtain ⟨v, R, A, N⟩ := hs
  obtain ⟨⟨r, hr, hra⟩, hlarge⟩ := hsmall
  obtain ⟨i, ha⟩ : ∃ i, v.ar a = some (.small i) := by
    rcases R.placed.piece_cases (A.piece r hr) with ⟨i, ha, -⟩ | ⟨n, ha, -⟩
    · exact ⟨i, hra ▸ ha⟩
    · rw [hra] at ha
      rw [(R.large a n ha).2.2] at hlarge
      exact absurd hlarge (by decide)
  cases op with
  | malloc size g =>
      obtain ⟨r', h', v', hcall, hg⟩ := sysMalloc_step R A N (hop.2 : GrantOk env _ size g)
      simp only [HeapOp.run, hcall, Outcome.ok_bind, Except.ok.injEq] at hrun
      subst hrun
      have hpg := hg.rep.owned_of_mem (hg.keeps a _ ha) (Nat.le_refl _)
        (by rw [Kind.pages_small]; omega)
      constructor
      · intro hfalse
        have : h'.pages (a / 4096) = false := hfalse
        rw [hpg] at this
        cases this
      · rintro ⟨p, hp, -⟩
        cases hp
  | store x b =>
      simp only [HeapOp.run, Except.ok.injEq] at hrun
      subst hrun
      have hpg := R.owned_of_mem ha (Nat.le_refl _) (by rw [Kind.pages_small]; omega)
      constructor
      · intro hfalse
        have : s.heap.pages (a / 4096) = false := hfalse
        rw [hpg] at this
        cases this
      · rintro ⟨p, hp, -⟩
        cases hp
  | free p =>
      obtain ⟨q, hq, rfl⟩ := List.mem_map.1 hop
      obtain ⟨live₁, live₂, hlive⟩ := List.append_of_mem hq
      rw [hlive] at A N hr
      obtain ⟨h', v', hcall, hf⟩ := sysFree_step (q := q) R A N
      simp only [HeapOp.run, hcall, Outcome.ok_bind, Except.ok.injEq] at hrun
      subst hrun
      have hiff : h'.pages (a / 4096) = false ↔ v'.ar a = none :=
        R.page_iff hf.rep ha (hf.arenas.imp And.left And.left)
      show h'.pages (a / 4096) = false ↔ _
      rw [hiff, hlive]
      constructor
      · intro hnone
        refine ⟨q.ptr, rfl, fun t ht hta => ?_⟩
        rcases hf.arenas with ⟨hsame, -⟩ | ⟨hdrop, hcnt⟩
        · rw [hsame, ha] at hnone
          cases hnone
        · have hqa : a = block2arena q.ptr := by
            by_contra hne
            rw [hdrop, Function.update_of_ne hne, ha] at hnone
            cases hnone
          by_contra hne
          have ht' : t ∈ live₁ ++ live₂ := by
            have htq : t ≠ q := fun heq => hne (heq ▸ rfl)
            simp only [List.mem_append, List.mem_cons] at ht ⊢
            tauto
          exact List.countP_eq_zero.1 hcnt _ (List.mem_map_of_mem ht')
            (inArena_iff.2 (hta.trans hqa))
      · rintro ⟨p, hp, hall⟩
        cases hp
        -- the freed block is the one that makes `a` a small arena
        have hqa : block2arena q.ptr = a := by
          rw [← hall r hr hra]
          exact hra
        rcases hf.arenas with ⟨-, hcnt⟩ | ⟨hdrop, -⟩
        · obtain ⟨x, hx, hin⟩ := List.countP_pos_iff.1 hcnt
          obtain ⟨t, ht, rfl⟩ := List.mem_map.1 hx
          have ht' : t ∈ live₁ ++ q :: live₂ := by
            simp only [List.mem_append, List.mem_cons] at ht ⊢
            tauto
          have htq := hall t ht' ((inArena_iff.1 hin).trans hqa)
          have hnd := A.nodup
          rw [List.map_append, List.map_cons, List.perm_middle.nodup_iff, List.nodup_cons,
            ← List.map_append] at hnd
          exact absurd (htq ▸ hx) hnd.1
        · rw [hdrop, hqa, Function.update_self]

/-- Heap safety: in every state of every run of a heap, allocations are apart
    and inside the heap, counters and free lists are right, every legal call
    returns, and a small arena's page is given back with its last live block. -/
theorem heap_safe (env : HeapEnv) {s : HeapRun} (hs : (heapSystem env).Reachable s) :
    HeapSafe env s ∧ (∀ op : HeapOp, op.Legal env s → ∃ s', op.run env s = .ok s')
      ∧ ∀ (op : HeapOp) (s' : HeapRun) (a : Nat), op.Legal env s → op.run env s = .ok s' →
        IsSmallArena s a → (s'.heap.pages (a / pgSize) = false
          ↔ ∃ p, op = .free p ∧ ∀ q ∈ s.live, block2arena q.ptr = a → q.ptr = p) := by
  have hinv := heapInv_reachable hs
  refine ⟨heapSafe_of_inv hinv, fun op hop => ?_, fun op s' a hop hrun hsmall =>
    page_returned_iff hinv hop hrun hsmall⟩
  obtain ⟨s', hrun, -⟩ := heapInv_step hinv hop
  exact ⟨s', hrun⟩

/-- A kernel heap with its descriptors in the kernel image. -/
def kernelHeap : HeapEnv where
  kernel := true
  poolSize := 0x800000
  descs := 0xC0009000
  poolSize_le := by decide
  descs_pos := by decide
  descs_le := by decide

/-- The heap after `block_desc_init`. -/
def freshHeap : HeapRun := ⟨⟨blockDescInit kernelHeap.descs Mem.zero, fun _ => false⟩, []⟩

/-- Two pages for 5000 bytes. -/
def firstMalloc : HeapOp := .malloc 5000 (some 0xC0200000)

/-- The heap after its first call. -/
def usedHeap : HeapRun :=
  match firstMalloc.run kernelHeap freshHeap with
  | .ok s => s
  | .error _ => freshHeap

theorem usedHeap_reachable : (heapSystem kernelHeap).Reachable usedHeap := by
  have hinit : (heapSystem kernelHeap).init freshHeap := ⟨rfl, fun _ => rfl, Mem.zero, rfl⟩
  refine (System.reachable_init hinit).next (i := firstMalloc) ⟨⟨by decide, fun a ha => ?_⟩, rfl⟩
  cases ha
  exact ⟨by decide, by decide, by decide, fun _ => by decide, .inl (by decide), fun k _ => rfl⟩

theorem heap_safe_usedHeap : usedHeap.live = [⟨0xC020000C, 5000⟩]
    ∧ HeapSafe kernelHeap usedHeap
    ∧ (∀ op : HeapOp, op.Legal kernelHeap usedHeap → ∃ s', op.run kernelHeap usedHeap = .ok s') :=
  ⟨rfl, (heap_safe kernelHeap usedHeap_reachable).1,
    (heap_safe kernelHeap usedHeap_reachable).2.1⟩

end Kernel
end JackOS
