/-
  JackOS.Kernel.PageRuns

  `get_kernel_pages` and `mfree_page` as an allocator: any sequence of calls in
  which runs of pages are handed out and given back.  The virtual bitmap, the
  pool's bitmap and the page table always agree on the runs that are live; a
  run given back frees exactly its pages and frames, and when no run is live
  every bitmap is what it was at the start.

  The scan may return a run that ends one page past the bitmap, so that page
  counts as one of the heap.  Page-table entries of the kernel are there from
  boot on, and there is no TLB.
-/

import JackOS.Base.Transition
import JackOS.Kernel.KernelPages
import JackOS.Lib.BitmapFit

namespace JackOS
namespace Kernel

open Base Base.Mem

variable {L : Layout} {m m' m₀ : Machine} {p cnt : Nat}

/-! ## What the calls do to the bitmaps -/

/-- Two byte arrays with the same bits are the same. -/
theorem bits_ext {b b' : Mem} (h : ∀ i, bitAt b i = bitAt b' i) : b = b' := by
  funext a
  apply UInt8.toBitVec_inj.1
  apply BitVec.eq_of_getLsbD_eq
  intro j hj
  have hbit := h (8 * a + j)
  rwa [bitAt, bitAt, show (8 * a + j) / 8 = a by omega, show (8 * a + j) % 8 = j by omega] at hbit

theorem bitAt_setRun (v : Bool) (i j : Nat) (btmp : Bitmap) :
    bitAt (Machine.setRun v cnt i btmp).bits j
      = if i ≤ j ∧ j < i + cnt then v else bitAt btmp.bits j := by
  induction cnt generalizing i btmp with
  | zero =>
      rw [Machine.setRun, if_neg (by omega)]
  | succ cnt ih =>
      rw [Machine.setRun, ih, bitmapSet_bits, bitAt_setBitAt]
      by_cases hj : j = i
      · rw [if_neg (by omega), if_pos hj, if_pos (by omega)]
      · rw [if_neg hj]
        by_cases hin : i + 1 ≤ j ∧ j < i + 1 + cnt
        · rw [if_pos hin, if_pos (by omega)]
        · rw [if_neg hin, if_neg (by omega)]

/-- The bits of the kernel's frames. -/
def kernelBit (m : Machine) (i : Nat) : Bool := bitAt m.kernelPool.poolBitmap.bits i

/-- The bits of the kernel's addresses. -/
def vaddrBit (m : Machine) (i : Nat) : Bool := bitAt m.kernelVaddr.vaddrBitmap.bits i

theorem palloc_bits {r : Option Nat} (hL : L.Of m) (hcall : m.palloc .kernel = .ok (r, m')) :
    ∃ i, i < 8 * L.kernelLen ∧ kernelBit m i = false ∧ r = some ((L.kernelBase + i) * pgSize)
      ∧ m' = m.setPoolBitmap .kernel (bitmapSet m.kernelPool.poolBitmap i true) := by
  obtain ⟨f, hr, -, -, -, -⟩ := palloc_spec hL hcall
  obtain ⟨bitIdx, hscan, hcall⟩ := Outcome.bind_eq_ok.1 hcall
  cases bitIdx with
  | none =>
      cases hcall
      cases hr
  | some i =>
      cases hcall
      have hfirst := firstClear_of_bitmapScan hscan
      have hlen := hL.byteLen .kernel
      have hstart := hL.start .kernel
      have hlt := hfirst.lt
      rw [hlen] at hlt
      refine ⟨i, hlt, hfirst.clear, ?_, rfl⟩
      rw [hstart, Layout.base, Nat.add_mul, Nat.add_comm]

/-- The loop of `malloc_page` sets the bits of the frames that it maps. -/
theorem mapPages_bits {b : Bool} (hL : L.Of m) (hlow : 0xC0000 ≤ p) (hhigh : p + cnt ≤ 2 ^ 20)
    (hcall : Machine.mapPages cnt (p * pgSize % 2 ^ 32) m = .ok (b, m')) :
    m'.kernelVaddr = m.kernelVaddr ∧ m'.userPool = m.userPool
      ∧ ∀ i, kernelBit m' i = true ↔ kernelBit m i = true
        ∨ ∃ k, k < cnt ∧ Machine.frameOf (m'.kernelPte (p + k)) = L.kernelBase + i := by
  induction cnt generalizing p m with
  | zero =>
      cases hcall
      refine ⟨rfl, rfl, fun i => ⟨.inl, ?_⟩⟩
      rintro (hbit | ⟨k, hk, -⟩)
      · exact hbit
      · omega
  | succ cnt ih =>
      obtain ⟨⟨r, m₁⟩, hpalloc, hcall⟩ := Outcome.bind_eq_ok.1 hcall
      obtain ⟨f, hr, hf, hL₁, hsame, hfree⟩ := palloc_spec hL hpalloc
      obtain ⟨i₀, hi₀, -, hr', hm₁⟩ := palloc_bits hL hpalloc
      rw [hr'] at hr hpalloc hcall
      have hframe : f = L.kernelBase + i₀ :=
        (Nat.eq_of_mul_eq_mul_right (by norm_num [pgSize]) (Option.some.inj hr)).symm
      subst hframe
      obtain ⟨m₂, hadd, hcall⟩ := Outcome.bind_eq_ok.1 hcall
      have hmod : p * pgSize % 2 ^ 32 = p * pgSize := by
        rw [pgSize]
        omega
      have hstart : kernelStart ≤ p * pgSize := by
        rw [kernelStart, pgSize]
        omega
      have hpage : p * pgSize / pgSize = p := Nat.mul_div_cancel p (by norm_num [pgSize])
      have hnext : (p * pgSize + pgSize) % 2 ^ 32 = (p + 1) * pgSize % 2 ^ 32 := by
        rw [Nat.add_mul, Nat.one_mul]
      rw [hmod, Machine.pageTableAdd, if_pos hstart, hpage] at hadd
      obtain ⟨_, hreq, hadd⟩ := Outcome.bind_eq_ok.1 hadd
      rw [require_eq_ok, hsame.kernelPte] at hreq
      cases hadd
      rw [hmod, hnext] at hcall
      have htakes := (Takes.of_palloc hL₁ hsame hfree).setKernelPte hf hreq
      obtain ⟨hvaddr, huser, hbits⟩ := ih htakes.layout (by omega) (by omega) hcall
      obtain ⟨-, fr, hrest⟩ := mapPages_spec htakes.layout (by omega) (by omega) hcall
      -- the rest of the loop leaves the first page as it is
      have hfirst : Machine.frameOf (m'.kernelPte p) = L.kernelBase + i₀ := by
        rw [hrest.other p (by omega), Machine.setKernelPte_kernelPte, Function.update_self,
          frameOf_entryOf]
      refine ⟨?_, ?_, fun i => ?_⟩
      · rw [hvaddr, hm₁]
        rfl
      · rw [huser, hm₁]
        rfl
      · rw [hbits i]
        have hset : kernelBit (m₁.setKernelPte p (Machine.entryOf ((L.kernelBase + i₀) * pgSize))) i
            = if i = i₀ then true else kernelBit m i := by
          rw [hm₁]
          exact bitAt_setBitAt ..
        rw [hset]
        constructor
        · rintro (hbit | ⟨k, hk, heq⟩)
          · by_cases hi : i = i₀
            · exact .inr ⟨0, by omega, by rw [Nat.add_zero, hfirst, hi]⟩
            · rw [if_neg hi] at hbit
              exact .inl hbit
          · exact .inr ⟨k + 1, by omega, by rw [← heq, Nat.add_right_comm, Nat.add_assoc]⟩
        · rintro (hbit | ⟨k, hk, heq⟩)
          · left
            rw [hbit, ite_self]
          · cases k with
            | zero =>
                rw [Nat.add_zero, hfirst] at heq
                left
                rw [if_pos (by omega)]
            | succ k => exact .inr ⟨k, by omega, by rw [← heq, Nat.add_right_comm, Nat.add_assoc]⟩

/-- `memset` leaves the bitmaps and page tables alone. -/
theorem zeroPages_machine {v : Nat} (hcall : Machine.zeroPages cnt v m = .ok m') :
    m' = { m with phys := m'.phys } := by
  induction cnt generalizing v m with
  | zero =>
      cases hcall
      rfl
  | succ cnt ih =>
      obtain ⟨frame, -, hcall⟩ := Outcome.bind_eq_ok.1 hcall
      have hrest := ih hcall
      exact hrest

/-- From `m` to `m'` the pages `p, …, p + cnt - 1` of the heap were handed
    out. -/
structure HandsOut (L : Layout) (m m' : Machine) (p cnt : Nat) : Prop where
  layout : L.Of m'
  low : L.vaddrBase ≤ p
  high : p + cnt ≤ L.vaddrBase + 8 * L.vaddrLen + 1
  clear : ∀ i, p ≤ L.vaddrBase + i → L.vaddrBase + i < p + cnt → vaddrBit m i = false
  vaddrBits : ∀ i, vaddrBit m' i = true ↔ vaddrBit m i = true
    ∨ p ≤ L.vaddrBase + i ∧ L.vaddrBase + i < p + cnt
  mapped : ∀ k, k < cnt → Machine.present (m'.kernelPte (p + k)) ∧ ∃ i, i < 8 * L.kernelLen
    ∧ Machine.frameOf (m'.kernelPte (p + k)) = L.kernelBase + i ∧ kernelBit m i = false
  distinct : ∀ k l, k < cnt → l < cnt →
    Machine.frameOf (m'.kernelPte (p + k)) = Machine.frameOf (m'.kernelPte (p + l)) → k = l
  other : ∀ q, (∀ k, k < cnt → q ≠ p + k) → m'.kernelPte q = m.kernelPte q
  kernelBits : ∀ i, kernelBit m' i = true ↔ kernelBit m i = true
    ∨ ∃ k, k < cnt ∧ Machine.frameOf (m'.kernelPte (p + k)) = L.kernelBase + i
  userPool : m'.userPool = m.userPool

theorem getKernelPages_handsOut {r : Option Nat} (hL : L.Of m)
    (hcall : m.getKernelPages cnt = .ok (r, m')) :
    (r = none → m' = m) ∧ ∀ vaddr, r = some vaddr → ∃ p, vaddr = p * pgSize ∧ HandsOut L m m' p cnt := by
  have hspec := getKernelPages_spec hL hcall
  obtain ⟨⟨vaddr, m₁⟩, hmalloc, hcall⟩ := Outcome.bind_eq_ok.1 hcall
  obtain ⟨_, hcnt, hmalloc⟩ := Outcome.bind_eq_ok.1 hmalloc
  rw [require_eq_ok] at hcnt
  obtain ⟨⟨start, m₂⟩, hget, hmalloc⟩ := Outcome.bind_eq_ok.1 hmalloc
  obtain ⟨out, hscan, hget⟩ := Outcome.bind_eq_ok.1 hget
  cases out with
  | none =>
      cases hget
      cases hmalloc
      cases hcall
      exact ⟨fun _ => rfl, fun _ h => by cases h⟩
  | some i =>
      have hclear : ∃ j, j < 8 * m.kernelVaddr.vaddrBitmap.btmpByteLen
          ∧ bitAt m.kernelVaddr.vaddrBitmap.bits j = false := by
        rw [← Bitmap.not_full]
        intro hfull
        rw [bitmapScan_full hfull] at hscan
        cases hscan
      obtain ⟨out, hscan', hsome, -⟩ := bitmapScan_run false hcnt.1 hclear
      rw [hscan] at hscan'
      cases hscan'
      have hrun := hsome i rfl
      have hends : i + cnt ≤ 8 * L.vaddrLen + 1 := by
        have hle := hrun.ends
        unfold scanLimit at hle
        rw [hL.vaddrLen] at hle
        split at hle <;> omega
      cases hget
      obtain ⟨⟨b, m₃⟩, hmap, hmalloc⟩ := Outcome.bind_eq_ok.1 hmalloc
      have hlow := L.vaddrLow
      have hend := L.vaddrEnd
      have hstart : (m.kernelVaddr.vaddrStart + i * pgSize) % 2 ^ 32
          = (L.vaddrBase + i) * pgSize % 2 ^ 32 := by
        rw [hL.vaddrStart, Nat.add_mul]
      have hmod : (L.vaddrBase + i) * pgSize % 2 ^ 32 = (L.vaddrBase + i) * pgSize := by
        rw [pgSize]
        omega
      rw [hstart] at hmap hmalloc
      have hL₂ : L.Of { m with kernelVaddr := { m.kernelVaddr with
          vaddrBitmap := Machine.setRun true cnt i m.kernelVaddr.vaddrBitmap } } :=
        ⟨hL.start, hL.byteLen, hL.vaddrStart, (setRun_btmpByteLen ..).trans hL.vaddrLen⟩
      obtain ⟨hvaddr, huser, hbits⟩ := mapPages_bits hL₂ (by omega) (by omega) hmap
      obtain ⟨rfl, -⟩ := mapPages_spec hL₂ (by omega) (by omega) hmap
      cases hmalloc
      rw [if_pos rfl, hmod] at hcall
      obtain ⟨m₄, hzero, hcall⟩ := Outcome.bind_eq_ok.1 hcall
      cases hcall
      refine ⟨fun h => (by cases h), fun vaddr hv => ?_⟩
      cases hv
      obtain ⟨p, fr, hp, hpages, -⟩ := hspec.2 _ rfl
      have hpi : p = L.vaddrBase + i :=
        (Nat.eq_of_mul_eq_mul_right (by norm_num [pgSize]) hp).symm
      subst hpi
      have hm := zeroPages_machine hzero
      refine ⟨_, rfl, hpages.takes.layout, by omega, by omega, fun j h₁ h₂ => ?_, fun j => ?_,
        fun k hk => ⟨(hpages.maps hk).present, ?_⟩, fun k l hk hl heq => ?_, hpages.other,
        fun j => ?_, ?_⟩
      · exact hrun.clear.bit (by omega) (by omega)
      · have hrunBit : vaddrBit m' j = if i ≤ j ∧ j < i + cnt then true else vaddrBit m j := by
          rw [hm, vaddrBit]
          dsimp only
          rw [hvaddr]
          exact bitAt_setRun ..
        rw [hrunBit]
        by_cases hin : i ≤ j ∧ j < i + cnt
        · rw [if_pos hin]
          exact ⟨fun _ => .inr (by omega), fun _ => rfl⟩
        · rw [if_neg hin]
          exact ⟨.inl, fun h => h.resolve_right (by omega)⟩
      · obtain ⟨j, hj, hframe, hfree⟩ := hpages.free k hk
        exact ⟨j, hj, (hpages.maps hk).frame.trans hframe, hfree⟩
      · rw [(hpages.maps hk).frame, (hpages.maps hl).frame] at heq
        exact hpages.inj k l hk hl heq
      · have hj := hbits j
        rw [hm]
        exact hj
      · rw [hm]
        exact huser

/-- `pfree` of a frame of the kernel's pool clears its bit. -/
theorem pfree_bits {f : Nat} (hL : L.Of m) (hlow : L.kernelBase ≤ f) (hhigh : f < L.userBase) :
    m.pfree (f * pgSize)
      = m.setPoolBitmap .kernel (bitmapSet m.kernelPool.poolBitmap (f - L.kernelBase) false) := by
  have huser := hL.start .user
  have hkernel := hL.start .kernel
  simp only [Machine.pool, Layout.base] at huser hkernel
  have hlt : ¬ L.userBase * pgSize ≤ f * pgSize := by
    rw [pgSize]
    omega
  have hidx : (f * pgSize + 2 ^ 32 - L.kernelBase * pgSize) % 2 ^ 32 / pgSize
      = f - L.kernelBase := by
    have := L.userEnd
    rw [pgSize]
    omega
  rw [Machine.pfree, huser, if_neg hlt, hkernel, hidx]

/-- The loops of `mfree_page` clear the bits of the frames that the pages had. -/
theorem freePages_bits {pf : PoolFlags} (hL : L.Of m) (hlow : 0xC0000 ≤ p)
    (hframe : ∀ k, k < cnt → L.kernelBase ≤ Machine.frameOf (m.kernelPte (p + k))
      ∧ Machine.frameOf (m.kernelPte (p + k)) < L.userBase)
    (hcall : Machine.freePages pf cnt (p * pgSize) m = .ok m') :
    m'.kernelVaddr = m.kernelVaddr ∧ m'.userPool = m.userPool
      ∧ ∀ i, kernelBit m' i = true ↔ kernelBit m i = true
        ∧ ∀ k, k < cnt → Machine.frameOf (m.kernelPte (p + k)) ≠ L.kernelBase + i := by
  induction cnt generalizing p m with
  | zero =>
      cases hcall
      exact ⟨rfl, rfl, fun i => ⟨fun h => ⟨h, by omega⟩, And.left⟩⟩
  | succ cnt ih =>
      obtain ⟨pgPhyAddr, hv2p, hcall⟩ := Outcome.bind_eq_ok.1 hcall
      rw [addrV2p_kernel hlow] at hv2p
      cases hv2p
      obtain ⟨_, -, hcall⟩ := Outcome.bind_eq_ok.1 hcall
      have hfirst := hframe 0 (by omega)
      rw [Nat.add_zero] at hfirst
      have hpage : p * pgSize / pgSize = p := Nat.mul_div_cancel p (by norm_num [pgSize])
      have hnext : p * pgSize + pgSize = (p + 1) * pgSize := by rw [Nat.add_mul, Nat.one_mul]
      obtain ⟨hL₁, hsame, -⟩ := pfree_spec hL hfirst.1
      have hbitsFirst := pfree_bits hL hfirst.1 hfirst.2
      rw [hnext] at hcall
      generalize hm₂ : (m.pfree (Machine.frameOf (m.kernelPte p) * pgSize)).pageTablePteRemove
        (p * pgSize) = m₂ at hcall
      have hL₂ : L.Of m₂ := by
        rw [← hm₂]
        exact ⟨hL₁.start, hL₁.byteLen, hL₁.vaddrStart, hL₁.vaddrLen⟩
      have hpte : ∀ k, m₂.kernelPte (p + 1 + k) = m.kernelPte (p + (k + 1)) := by
        intro k
        rw [← hm₂, Machine.pageTablePteRemove, hpage, Machine.setKernelPte_kernelPte,
          Function.update_of_ne (by omega), hsame.kernelPte]
        exact congrArg m.kernelPte (by omega)
      obtain ⟨hvaddr, huser, hbits⟩ := ih hL₂ (by omega)
        (fun k hk => by rw [hpte]; exact hframe (k + 1) (by omega)) hcall
      have hset : ∀ i, kernelBit m₂ i
          = if i = Machine.frameOf (m.kernelPte p) - L.kernelBase then false else kernelBit m i := by
        intro i
        rw [← hm₂, hbitsFirst]
        exact bitAt_setBitAt ..
      refine ⟨?_, ?_, fun i => ?_⟩
      · rw [hvaddr, ← hm₂]
        exact hsame.kernelVaddr
      · rw [huser, ← hm₂, hbitsFirst]
        rfl
      · rw [hbits i, hset i]
        constructor
        · rintro ⟨hbit, hrest⟩
          by_cases hi : i = Machine.frameOf (m.kernelPte p) - L.kernelBase
          · rw [if_pos hi] at hbit
            cases hbit
          · rw [if_neg hi] at hbit
            refine ⟨hbit, fun k hk => ?_⟩
            cases k with
            | zero =>
                rw [Nat.add_zero]
                omega
            | succ k =>
                rw [← hpte k]
                exact hrest k (by omega)
        · rintro ⟨hbit, hrest⟩
          refine ⟨?_, fun k hk => ?_⟩
          · have hne := hrest 0 (by omega)
            rw [Nat.add_zero] at hne
            rw [if_neg (by omega)]
            exact hbit
          · rw [hpte k]
            exact hrest (k + 1) (by omega)

/-- From `m` to `m'` the pages `p, …, p + cnt - 1` of the heap were taken
    back. -/
structure TakesBack (L : Layout) (m m' : Machine) (p cnt : Nat) : Prop where
  layout : L.Of m'
  vaddrBits : ∀ i, vaddrBit m' i = true ↔ vaddrBit m i = true
    ∧ ¬ (p ≤ L.vaddrBase + i ∧ L.vaddrBase + i < p + cnt)
  absent : ∀ k, k < cnt → ¬ Machine.present (m'.kernelPte (p + k))
  other : ∀ q, (∀ k, k < cnt → q ≠ p + k) → m'.kernelPte q = m.kernelPte q
  kernelBits : ∀ i, kernelBit m' i = true ↔ kernelBit m i = true
    ∧ ∀ k, k < cnt → Machine.frameOf (m.kernelPte (p + k)) ≠ L.kernelBase + i
  userPool : m'.userPool = m.userPool

theorem mfreePage_takesBack (hL : L.Of m) (hlow : L.vaddrBase ≤ p) (hhigh : p + cnt ≤ 2 ^ 20)
    (hframe : ∀ k, k < cnt → L.kernelBase ≤ Machine.frameOf (m.kernelPte (p + k))
      ∧ Machine.frameOf (m.kernelPte (p + k)) < L.userBase)
    (hcall : m.mfreePage (p * pgSize) cnt = .ok m') : TakesBack L m m' p cnt := by
  have hheap := L.vaddrLow
  have hgives := mfreePage_spec hL (by omega) hcall
  obtain ⟨_, hcnt, hcall⟩ := Outcome.bind_eq_ok.1 hcall
  rw [require_eq_ok] at hcnt
  obtain ⟨_, -, hcall⟩ := Outcome.bind_eq_ok.1 hcall
  obtain ⟨_, -, hcall⟩ := Outcome.bind_eq_ok.1 hcall
  obtain ⟨m₁, hfree, hcall⟩ := Outcome.bind_eq_ok.1 hcall
  obtain ⟨hvaddr, huser, hbits⟩ := freePages_bits hL (by omega) hframe hfree
  have hidx : (p * pgSize + 2 ^ 32 - m₁.kernelVaddr.vaddrStart) % 2 ^ 32 / pgSize
      = p - L.vaddrBase := by
    rw [hvaddr, hL.vaddrStart, pgSize]
    omega
  cases hcall
  refine ⟨hgives.layout, fun i => ?_, hgives.absent, hgives.other, hbits, huser⟩
  rw [vaddrBit]
  dsimp only
  rw [hidx, bitAt_setRun, hvaddr]
  by_cases hin : p - L.vaddrBase ≤ i ∧ i < p - L.vaddrBase + cnt
  · rw [if_pos hin]
    exact ⟨fun h => (by cases h), fun h => absurd h.2 (by omega)⟩
  · rw [if_neg hin]
    exact ⟨fun h => ⟨h, by omega⟩, And.left⟩

/-! ## The allocator -/

/-- A run of pages that was handed out. -/
structure PageRun where
  vaddr : Nat
  pgCnt : Nat
deriving DecidableEq

/-- Page `q` is one of the run's. -/
def PageRun.Has (r : PageRun) (q : Nat) : Prop :=
  r.vaddr / pgSize ≤ q ∧ q < r.vaddr / pgSize + r.pgCnt

/-- The machine, and the runs that are live. -/
structure PageHeap where
  machine : Machine
  live : List PageRun

/-- Page `q` is of a live run. -/
def PageHeap.Live (s : PageHeap) (q : Nat) : Prop := ∃ r ∈ s.live, r.Has q

/-- The frame behind page `q`. -/
def PageHeap.frame (s : PageHeap) (q : Nat) : Nat := Machine.frameOf (s.machine.kernelPte q)

/-- Page `q` is of the heap. -/
def Layout.HeapPage (L : Layout) (q : Nat) : Prop :=
  L.vaddrBase ≤ q ∧ q ≤ L.vaddrBase + 8 * L.vaddrLen

/-- The calls, with their results. -/
inductive PageCall where
  | getKernelPages (pgCnt : Nat) (vaddr : Option Nat)
  | mfreePage (vaddr pgCnt : Nat)

/-- The live runs after `get_kernel_pages` returned. -/
def record (live : List PageRun) (pgCnt : Nat) : Option Nat → List PageRun
  | none => live
  | some vaddr => ⟨vaddr, pgCnt⟩ :: live

/-- Calls of the two, on a heap of which no page is mapped at first. -/
def pageSystem (L : Layout) : System PageHeap PageCall where
  init s := L.Of s.machine ∧ (∀ q, L.HeapPage q → ¬ Machine.present (s.machine.kernelPte q))
    ∧ s.live = []
  next s call s' :=
    match call with
    | .getKernelPages pgCnt vaddr =>
        0 < pgCnt ∧ pgCnt < 3840 ∧ s.machine.getKernelPages pgCnt = .ok (vaddr, s'.machine)
          ∧ s'.live = record s.live pgCnt vaddr
    | .mfreePage vaddr pgCnt =>
        ⟨vaddr, pgCnt⟩ ∈ s.live ∧ s.machine.mfreePage vaddr pgCnt = .ok s'.machine
          ∧ s'.live = s.live.erase ⟨vaddr, pgCnt⟩

/-- The bitmaps and the page table agree on the live runs. -/
structure PagesOk (L : Layout) (m₀ : Machine) (s : PageHeap) : Prop where
  layout : L.Of s.machine
  run : ∀ r ∈ s.live, r.vaddr % pgSize = 0 ∧ 0 < r.pgCnt
  disjoint : s.live.Pairwise fun r r' => ∀ q, ¬ (r.Has q ∧ r'.Has q)
  heap : ∀ q, s.Live q → L.HeapPage q
  /-- every live page is mapped to a frame of the kernel's pool -/
  mapped : ∀ q, s.Live q → Machine.present (s.machine.kernelPte q)
    ∧ ∃ i, i < 8 * L.kernelLen ∧ s.frame q = L.kernelBase + i ∧ kernelBit s.machine i = true
  distinct : ∀ q q', s.Live q → s.Live q' → s.frame q = s.frame q' → q = q'
  absent : ∀ q, L.HeapPage q → ¬ s.Live q → ¬ Machine.present (s.machine.kernelPte q)
  /-- the bits that are set are those of the start and those of the live pages -/
  vaddrBits : ∀ i, vaddrBit s.machine i = true ↔ vaddrBit m₀ i = true ∨ s.Live (L.vaddrBase + i)
  vaddrFresh : ∀ i, s.Live (L.vaddrBase + i) → vaddrBit m₀ i = false
  kernelBits : ∀ i, kernelBit s.machine i = true ↔ kernelBit m₀ i = true
    ∨ ∃ q, s.Live q ∧ s.frame q = L.kernelBase + i
  kernelFresh : ∀ q i, s.Live q → s.frame q = L.kernelBase + i → kernelBit m₀ i = false
  userPool : s.machine.userPool = m₀.userPool

theorem PagesOk.init {s : PageHeap} (h : (pageSystem L).init s) : PagesOk L s.machine s := by
  obtain ⟨hL, habsent, hlive⟩ := h
  have hnone : ∀ q, ¬ s.Live q := by
    rintro q ⟨r, hr, -⟩
    rw [hlive] at hr
    cases hr
  refine ⟨hL, ?_, ?_, fun q hq => absurd hq (hnone q), fun q hq => absurd hq (hnone q),
    fun q _ hq => absurd hq (hnone q), fun q hq _ => habsent q hq, fun i => ?_,
    fun i hi => absurd hi (hnone _), fun i => ?_, fun q _ hq => absurd hq (hnone q), rfl⟩
  · rw [hlive]
    simp
  · rw [hlive]
    exact .nil
  · exact ⟨.inl, fun h => h.resolve_right (hnone _)⟩
  · refine ⟨.inl, fun h => h.resolve_right ?_⟩
    rintro ⟨q, hq, -⟩
    exact hnone q hq

variable {s s' : PageHeap}

theorem has_run {q : Nat} : (PageRun.mk (p * pgSize) cnt).Has q ↔ p ≤ q ∧ q < p + cnt := by
  unfold PageRun.Has
  rw [Nat.mul_div_cancel p (by norm_num [pgSize])]

/-! ### Handing out -/

/-- The pages handed out were not live. -/
theorem PagesOk.not_live {q : Nat} (h : PagesOk L m₀ s) (hout : HandsOut L s.machine m' p cnt)
    (h₁ : p ≤ q) (h₂ : q < p + cnt) : ¬ s.Live q := by
  intro hq
  have hlow := hout.low
  have hpage : L.vaddrBase + (q - L.vaddrBase) = q := by omega
  have hclear := hout.clear (q - L.vaddrBase) (by omega) (by omega)
  have hset := (h.vaddrBits (q - L.vaddrBase)).2 (.inr (hpage.symm ▸ hq))
  rw [hset] at hclear
  cases hclear

theorem PagesOk.handOut (h : PagesOk L m₀ s) (hcnt : 0 < cnt)
    (hout : HandsOut L s.machine s'.machine p cnt)
    (hlive : s'.live = ⟨p * pgSize, cnt⟩ :: s.live) : PagesOk L m₀ s' := by
  have hnew : ∀ q, s'.Live q ↔ (p ≤ q ∧ q < p + cnt) ∨ s.Live q := by
    intro q
    unfold PageHeap.Live
    rw [hlive]
    simp only [List.mem_cons, exists_eq_or_imp, has_run]
  have hold : ∀ q, s.Live q → s'.machine.kernelPte q = s.machine.kernelPte q := by
    intro q hq
    refine hout.other q ?_
    rintro k hk rfl
    exact h.not_live hout (by omega) (by omega) hq
  have hframe : ∀ q, s.Live q → s'.frame q = s.frame q := fun q hq =>
    congrArg Machine.frameOf (hold q hq)
  -- the frames behind the new pages were free
  have hfresh : ∀ q, p ≤ q → q < p + cnt → Machine.present (s'.machine.kernelPte q)
      ∧ ∃ i, i < 8 * L.kernelLen ∧ s'.frame q = L.kernelBase + i
        ∧ kernelBit s.machine i = false := by
    intro q h₁ h₂
    have hmap := hout.mapped (q - p) (by omega)
    rw [Nat.add_sub_cancel' h₁] at hmap
    exact hmap
  have hapart : ∀ q q', p ≤ q → q < p + cnt → s.Live q' → s'.frame q ≠ s'.frame q' := by
    intro q q' h₁ h₂ hq' heq
    obtain ⟨-, i, -, hi, hclear⟩ := hfresh q h₁ h₂
    rw [hframe q' hq', hi] at heq
    have hset := (h.kernelBits i).2 (.inr ⟨q', hq', heq.symm⟩)
    rw [hset] at hclear
    cases hclear
  refine ⟨hout.layout, ?_, ?_, fun q hq => ?_, fun q hq => ?_, fun q q' hq hq' heq => ?_,
    fun q hq hdead => ?_, fun i => ?_, fun i hi => ?_, fun i => ?_, fun q i hq hi => ?_, ?_⟩
  · rw [hlive]
    intro r hr
    rcases List.mem_cons.1 hr with rfl | hr
    · exact ⟨Nat.mul_mod_left p pgSize, hcnt⟩
    · exact h.run r hr
  · rw [hlive]
    refine List.pairwise_cons.2 ⟨fun r hr q hboth => ?_, h.disjoint⟩
    obtain ⟨h₁, h₂⟩ := has_run.1 hboth.1
    exact h.not_live hout h₁ h₂ ⟨r, hr, hboth.2⟩
  · rcases (hnew q).1 hq with hin | hq
    · have := hout.low
      have := hout.high
      unfold Layout.HeapPage
      omega
    · exact h.heap q hq
  · rcases (hnew q).1 hq with ⟨h₁, h₂⟩ | hq
    · obtain ⟨hpresent, i, hi, hf, -⟩ := hfresh q h₁ h₂
      refine ⟨hpresent, i, hi, hf, (hout.kernelBits i).2 (.inr ⟨q - p, by omega, ?_⟩)⟩
      rw [Nat.add_sub_cancel' h₁]
      exact hf
    · obtain ⟨hpresent, i, hi, hf, hbit⟩ := h.mapped q hq
      refine ⟨?_, i, hi, (hframe q hq).trans hf, (hout.kernelBits i).2 (.inl hbit)⟩
      rw [hold q hq]
      exact hpresent
  · rcases (hnew q).1 hq with ⟨h₁, h₂⟩ | hq
    · rcases (hnew q').1 hq' with ⟨h₁', h₂'⟩ | hq'
      · have heq' := hout.distinct (q - p) (q' - p) (by omega) (by omega)
        rw [Nat.add_sub_cancel' h₁, Nat.add_sub_cancel' h₁'] at heq'
        have := heq' heq
        omega
      · exact absurd heq (hapart q q' h₁ h₂ hq')
    · rcases (hnew q').1 hq' with ⟨h₁', h₂'⟩ | hq'
      · exact absurd heq.symm (hapart q' q h₁' h₂' hq)
      · rw [hframe q hq, hframe q' hq'] at heq
        exact h.distinct q q' hq hq' heq
  · have hout' : ∀ k, k < cnt → q ≠ p + k := by
      rintro k hk rfl
      exact hdead ((hnew _).2 (.inl (by omega)))
    rw [hout.other q hout']
    exact h.absent q hq fun hlive => hdead ((hnew q).2 (.inr hlive))
  · rw [hout.vaddrBits i, h.vaddrBits i, hnew, or_assoc, or_comm (a := s.Live _)]
  · rcases (hnew _).1 hi with ⟨h₁, h₂⟩ | hi
    · have hclear := hout.clear i h₁ h₂
      cases hbit : vaddrBit m₀ i with
      | false => rfl
      | true =>
          rw [(h.vaddrBits i).2 (.inl hbit)] at hclear
          cases hclear
    · exact h.vaddrFresh i hi
  · rw [hout.kernelBits i, h.kernelBits i]
    constructor
    · rintro ((hbit | ⟨q, hq, hf⟩) | ⟨k, hk, hf⟩)
      · exact .inl hbit
      · exact .inr ⟨q, (hnew q).2 (.inr hq), (hframe q hq).trans hf⟩
      · exact .inr ⟨p + k, (hnew _).2 (.inl (by omega)), hf⟩
    · rintro (hbit | ⟨q, hq, hf⟩)
      · exact .inl (.inl hbit)
      · rcases (hnew q).1 hq with ⟨h₁, h₂⟩ | hq
        · refine .inr ⟨q - p, by omega, ?_⟩
          rw [Nat.add_sub_cancel' h₁]
          exact hf
        · exact .inl (.inr ⟨q, hq, (hframe q hq).symm.trans hf⟩)
  · rcases (hnew q).1 hq with ⟨h₁, h₂⟩ | hq
    · obtain ⟨-, j, -, hj, hclear⟩ := hfresh q h₁ h₂
      have hij : i = j := by omega
      subst hij
      cases hbit : kernelBit m₀ i with
      | false => rfl
      | true =>
          rw [(h.kernelBits i).2 (.inl hbit)] at hclear
          cases hclear
    · exact h.kernelFresh q i hq ((hframe q hq).symm.trans hi)
  · rw [hout.userPool]
    exact h.userPool

/-! ### Taking back -/

/-- Two live runs that share a page are one. -/
theorem PagesOk.run_eq {r r' : PageRun} {q : Nat} (h : PagesOk L m₀ s) (hr : r ∈ s.live)
    (hr' : r' ∈ s.live) (hq : r.Has q) (hq' : r'.Has q) : r = r' := by
  by_contra hne
  have hsymm : Std.Symm fun r r' : PageRun => ∀ q, ¬ (r.Has q ∧ r'.Has q) :=
    ⟨fun _ _ hrr q hboth => hrr q hboth.symm⟩
  exact h.disjoint.forall hr hr' hne q ⟨hq, hq'⟩

theorem PagesOk.nodup (h : PagesOk L m₀ s) : s.live.Nodup := by
  refine h.disjoint.imp_of_mem fun {r r'} hr _ hrr heq => ?_
  subst heq
  have hpos := (h.run r hr).2
  have hfirst : r.Has (r.vaddr / pgSize) := ⟨Nat.le_refl _, by omega⟩
  exact hrr _ ⟨hfirst, hfirst⟩

/-- From `s` to `s'` the run's pages and frames were given back, and no others. -/
structure GivesBack (L : Layout) (s s' : PageHeap) (r : PageRun) : Prop where
  vaddrBits : ∀ i, vaddrBit s'.machine i = true
    ↔ vaddrBit s.machine i = true ∧ ¬ r.Has (L.vaddrBase + i)
  kernelBits : ∀ i, kernelBit s'.machine i = true
    ↔ kernelBit s.machine i = true ∧ ∀ q, r.Has q → s.frame q ≠ L.kernelBase + i
  absent : ∀ q, r.Has q → ¬ Machine.present (s'.machine.kernelPte q)
  other : ∀ q, ¬ r.Has q → s'.machine.kernelPte q = s.machine.kernelPte q
  userPool : s'.machine.userPool = s.machine.userPool

/-- `mfree_page` of a live run gives it back. -/
theorem PagesOk.givesBack {r : PageRun} (h : PagesOk L m₀ s) (hr : r ∈ s.live)
    (hcall : s.machine.mfreePage r.vaddr r.pgCnt = .ok s'.machine) :
    GivesBack L s s' r ∧ L.Of s'.machine := by
  obtain ⟨vaddr, cnt⟩ := r
  obtain ⟨halign, hcnt⟩ := h.run _ hr
  dsimp only at halign hcnt hcall
  obtain ⟨p, rfl⟩ : ∃ p, vaddr = p * pgSize :=
    ⟨vaddr / pgSize, (Nat.div_mul_cancel (Nat.dvd_of_mod_eq_zero halign)).symm⟩
  have hlive : ∀ k, k < cnt → s.Live (p + k) :=
    fun k hk => ⟨_, hr, has_run.2 (by omega)⟩
  have hlow := (h.heap _ (hlive 0 hcnt)).1
  have hlast := (h.heap _ (hlive (cnt - 1) (by omega))).2
  have hend := L.vaddrEnd
  have hback : TakesBack L s.machine s'.machine p cnt := by
    refine mfreePage_takesBack h.layout (by omega) (by omega) (fun k hk => ?_) hcall
    obtain ⟨-, i, hi, hf, -⟩ := h.mapped _ (hlive k hk)
    have := L.kernelEnd
    unfold PageHeap.frame at hf
    omega
  refine ⟨⟨fun i => ?_, fun i => ?_, fun q hq => ?_, fun q hq => ?_, hback.userPool⟩,
    hback.layout⟩
  · rw [has_run]
    exact hback.vaddrBits i
  · rw [hback.kernelBits i]
    refine and_congr_right fun _ => ⟨fun hrest q hq => ?_, fun hrest k hk => ?_⟩
    · obtain ⟨h₁, h₂⟩ := has_run.1 hq
      have hk := hrest (q - p) (by omega)
      rwa [Nat.add_sub_cancel' h₁] at hk
    · exact hrest (p + k) (has_run.2 (by omega))
  · obtain ⟨h₁, h₂⟩ := has_run.1 hq
    have hk := hback.absent (q - p) (by omega)
    rwa [Nat.add_sub_cancel' h₁] at hk
  · refine hback.other q ?_
    rintro k hk rfl
    exact hq (has_run.2 (by omega))

theorem PagesOk.takeBack {r : PageRun} (h : PagesOk L m₀ s) (hr : r ∈ s.live)
    (hcall : s.machine.mfreePage r.vaddr r.pgCnt = .ok s'.machine)
    (hlive : s'.live = s.live.erase r) : PagesOk L m₀ s' := by
  obtain ⟨hback, hL'⟩ := h.givesBack hr hcall
  have hstays : ∀ q, s'.Live q ↔ s.Live q ∧ ¬ r.Has q := by
    intro q
    unfold PageHeap.Live
    rw [hlive]
    constructor
    · rintro ⟨r', hr', hq⟩
      obtain ⟨hne, hmem⟩ := h.nodup.mem_erase_iff.1 hr'
      exact ⟨⟨r', hmem, hq⟩, fun hq' => hne (h.run_eq hmem hr hq hq')⟩
    · rintro ⟨⟨r', hmem, hq⟩, hout⟩
      exact ⟨r', h.nodup.mem_erase_iff.2 ⟨fun heq => hout (heq ▸ hq), hmem⟩, hq⟩
  have hframe : ∀ q, s'.Live q → s'.frame q = s.frame q := fun q hq =>
    congrArg Machine.frameOf (hback.other q ((hstays q).1 hq).2)
  -- the frame of a page that stays is not among those given back
  have hapart : ∀ q q', s'.Live q → r.Has q' → s.frame q' ≠ s.frame q := by
    intro q q' hq hq' heq
    obtain ⟨hq, hout⟩ := (hstays q).1 hq
    have hsame := h.distinct q' q ⟨r, hr, hq'⟩ hq heq
    subst hsame
    exact hout hq'
  refine ⟨hL', fun r' hr' => ?_, ?_, fun q hq => ?_, fun q hq => ?_, fun q q' hq hq' heq => ?_,
    fun q hq hdead => ?_, fun i => ?_, fun i hi => ?_, fun i => ?_, fun q i hq hi => ?_, ?_⟩
  · rw [hlive] at hr'
    exact h.run r' (List.mem_of_mem_erase hr')
  · rw [hlive]
    exact h.disjoint.sublist List.erase_sublist
  · exact h.heap q ((hstays q).1 hq).1
  · obtain ⟨hpresent, i, hi, hf, hbit⟩ := h.mapped q ((hstays q).1 hq).1
    refine ⟨?_, i, hi, (hframe q hq).trans hf, (hback.kernelBits i).2 ⟨hbit, fun q' hq' => ?_⟩⟩
    · rw [hback.other q ((hstays q).1 hq).2]
      exact hpresent
    · rw [← hf]
      exact hapart q q' hq hq'
  · rw [hframe q hq, hframe q' hq'] at heq
    exact h.distinct q q' ((hstays q).1 hq).1 ((hstays q').1 hq').1 heq
  · by_cases hin : r.Has q
    · exact hback.absent q hin
    · rw [hback.other q hin]
      exact h.absent q hq fun hq' => hdead ((hstays q).2 ⟨hq', hin⟩)
  · rw [hback.vaddrBits i, h.vaddrBits i, hstays]
    constructor
    · rintro ⟨hbit | hq, hout⟩
      · exact .inl hbit
      · exact .inr ⟨hq, hout⟩
    · rintro (hbit | ⟨hq, hout⟩)
      · refine ⟨.inl hbit, fun hin => ?_⟩
        rw [h.vaddrFresh i ⟨r, hr, hin⟩] at hbit
        cases hbit
      · exact ⟨.inr hq, hout⟩
  · exact h.vaddrFresh i ((hstays _).1 hi).1
  · rw [hback.kernelBits i, h.kernelBits i]
    constructor
    · rintro ⟨hbit | ⟨q, hq, hf⟩, hout⟩
      · exact .inl hbit
      · have hq' := (hstays q).2 ⟨hq, fun hin => hout q hin hf⟩
        exact .inr ⟨q, hq', (hframe q hq').trans hf⟩
    · rintro (hbit | ⟨q, hq, hf⟩)
      · refine ⟨.inl hbit, fun q hq hf => ?_⟩
        rw [h.kernelFresh q i ⟨r, hr, hq⟩ hf] at hbit
        cases hbit
      · have hf' := (hframe q hq).symm.trans hf
        refine ⟨.inr ⟨q, ((hstays q).1 hq).1, hf'⟩, fun q' hq' => ?_⟩
        rw [← hf']
        exact hapart q q' hq hq'
  · exact h.kernelFresh q i ((hstays q).1 hq).1 ((hframe q hq).symm.trans hi)
  · rw [hback.userPool]
    exact h.userPool

/-! ### Runs of the system -/

/-- A NULL result changes nothing. -/
theorem PagesOk.null {pgCnt : Nat} (h : PagesOk L m₀ s)
    (hnext : (pageSystem L).next s (.getKernelPages pgCnt none) s') : s' = s := by
  obtain ⟨-, -, hcall, hlive⟩ := hnext
  have hm := (getKernelPages_handsOut h.layout hcall).1 rfl
  obtain ⟨m', live'⟩ := s'
  dsimp only at hm
  rw [record] at hlive
  dsimp only at hlive
  rw [hm, hlive]

theorem PagesOk.next {call : PageCall} (h : PagesOk L m₀ s)
    (hnext : (pageSystem L).next s call s') : PagesOk L m₀ s' := by
  cases call with
  | getKernelPages pgCnt vaddr =>
      cases vaddr with
      | none =>
          rw [h.null hnext]
          exact h
      | some vaddr =>
          obtain ⟨hpos, -, hcall, hlive⟩ := hnext
          obtain ⟨p, rfl, hout⟩ := (getKernelPages_handsOut h.layout hcall).2 vaddr rfl
          exact h.handOut hpos hout hlive
  | mfreePage vaddr pgCnt =>
      obtain ⟨hmem, hcall, hlive⟩ := hnext
      exact h.takeBack hmem hcall hlive

theorem PagesOk.of_run {s₀ : PageHeap} (hinit : (pageSystem L).init s₀)
    (hrun : Relation.ReflTransGen (pageSystem L).Step s₀ s) : PagesOk L s₀.machine s := by
  induction hrun with
  | refl => exact PagesOk.init hinit
  | tail _ hstep ih =>
      obtain ⟨call, hnext⟩ := hstep
      exact ih.next hnext

theorem bitmap_eq {b b' : Bitmap} (hlen : b.btmpByteLen = b'.btmpByteLen)
    (hbits : ∀ i, bitAt b.bits i = true ↔ bitAt b'.bits i = true) : b = b' := by
  obtain ⟨len, bits⟩ := b
  obtain ⟨len', bits'⟩ := b'
  dsimp only at hlen hbits
  rw [hlen, bits_ext fun i => Bool.eq_iff_iff.2 (hbits i)]

/-- With no live run the bitmaps are those of the start. -/
theorem PagesOk.bitmaps_eq (h : PagesOk L m₀ s) (hL : L.Of m₀) (hlive : s.live = []) :
    s.machine.kernelPool.poolBitmap = m₀.kernelPool.poolBitmap
      ∧ s.machine.userPool.poolBitmap = m₀.userPool.poolBitmap
      ∧ s.machine.kernelVaddr.vaddrBitmap = m₀.kernelVaddr.vaddrBitmap := by
  have hnone : ∀ q, ¬ s.Live q := by
    rintro q ⟨r, hr, -⟩
    rw [hlive] at hr
    cases hr
  refine ⟨bitmap_eq ?_ fun i => (h.kernelBits i).trans (or_iff_left ?_), by rw [h.userPool],
    bitmap_eq ?_ fun i => (h.vaddrBits i).trans (or_iff_left (hnone _))⟩
  · exact (h.layout.byteLen .kernel).trans (hL.byteLen .kernel).symm
  · rintro ⟨q, hq, -⟩
    exact hnone q hq
  · exact h.layout.vaddrLen.trans hL.vaddrLen.symm

/-- In every run of the two calls the live runs are disjoint and mapped to
    frames of their own, a run given back frees exactly its pages and frames, a
    NULL result changes nothing, and with no live run all is as at the start. -/
theorem pageAllocator_invariant {L : Layout} {s₀ s : PageHeap} (hinit : (pageSystem L).init s₀)
    (hrun : Relation.ReflTransGen (pageSystem L).Step s₀ s) :
    PagesOk L s₀.machine s
      ∧ (∀ pgCnt s', (pageSystem L).next s (.getKernelPages pgCnt none) s' → s' = s)
      ∧ (∀ vaddr pgCnt s', (pageSystem L).next s (.mfreePage vaddr pgCnt) s' →
        GivesBack L s s' ⟨vaddr, pgCnt⟩)
      ∧ (s.live = [] → s.machine.kernelPool.poolBitmap = s₀.machine.kernelPool.poolBitmap
        ∧ s.machine.userPool.poolBitmap = s₀.machine.userPool.poolBitmap
        ∧ s.machine.kernelVaddr.vaddrBitmap = s₀.machine.kernelVaddr.vaddrBitmap) := by
  have hok := PagesOk.of_run hinit hrun
  exact ⟨hok, fun _ _ => hok.null, fun _ _ _ hnext => (hok.givesBack hnext.1 hnext.2.1).1,
    hok.bitmaps_eq hinit.1⟩

/-- Eight frames and eight pages, nothing mapped. -/
def emptyHeapLayout : Layout where
  kernelBase := 0x210
  kernelLen := 1
  userBase := 0x218
  userLen := 1
  vaddrBase := 0xC0110
  vaddrLen := 1
  low := by decide
  kernelEnd := by decide
  userEnd := by decide
  vaddrLow := by decide
  vaddrEnd := by decide

def emptyHeap : PageHeap where
  machine :=
    { kernelPool := ⟨⟨1, zero⟩, 0x210 * pgSize⟩
      userPool := ⟨⟨1, zero⟩, 0x218 * pgSize⟩
      kernelVaddr := ⟨⟨1, zero⟩, 0xC0110 * pgSize⟩
      kernelPte := fun _ => 0
      phys := fun _ => zero
      tcb := fun _ => ⟨0, 0, 0, 0⟩
      cr3 := 0x100 * pgSize }
  live := []

theorem emptyHeap_init : (pageSystem emptyHeapLayout).init emptyHeap :=
  ⟨⟨fun pf => by cases pf <;> rfl, fun pf => by cases pf <;> rfl, rfl, rfl⟩,
    fun _ _ => (by decide : ¬ Machine.present 0), rfl⟩

/-- Two calls for pages, and the first two pages go back. -/
def emptyHeapCalls : Outcome (Option Nat × Option Nat) := do
  let (r₁, m₁) ← emptyHeap.machine.getKernelPages 2
  let (r₂, m₂) ← m₁.getKernelPages 3
  let _ ← m₂.mfreePage (0xC0110 * pgSize) 2
  .ok (r₁, r₂)

/-- Two pages and three are handed out, and the two are given back. -/
theorem pageAllocator_invariant_three : ∃ s, PagesOk emptyHeapLayout emptyHeap.machine s
    ∧ s.live = [⟨0xC0112 * pgSize, 3⟩] := by
  have hcalls : emptyHeapCalls.returns
      (fun r => decide (r = (some (0xC0110 * pgSize), some (0xC0112 * pgSize)))) = true := by
    decide +kernel
  obtain ⟨r, hcalls, hr⟩ := Outcome.returns_iff.1 hcalls
  obtain ⟨⟨r₁, m₁⟩, hfirst, hcalls⟩ := Outcome.bind_eq_ok.1 hcalls
  obtain ⟨⟨r₂, m₂⟩, hsecond, hcalls⟩ := Outcome.bind_eq_ok.1 hcalls
  obtain ⟨m₃, hfree, hcalls⟩ := Outcome.bind_eq_ok.1 hcalls
  cases hcalls
  obtain ⟨rfl, rfl⟩ := Prod.mk.inj (of_decide_eq_true hr)
  have h₁ : (pageSystem emptyHeapLayout).Step emptyHeap ⟨m₁, [⟨0xC0110 * pgSize, 2⟩]⟩ :=
    ⟨.getKernelPages 2 _, by decide, by decide, hfirst, rfl⟩
  have h₂ : (pageSystem emptyHeapLayout).Step ⟨m₁, [⟨0xC0110 * pgSize, 2⟩]⟩
      ⟨m₂, [⟨0xC0112 * pgSize, 3⟩, ⟨0xC0110 * pgSize, 2⟩]⟩ :=
    ⟨.getKernelPages 3 _, by decide, by decide, hsecond, rfl⟩
  have h₃ : (pageSystem emptyHeapLayout).Step
      ⟨m₂, [⟨0xC0112 * pgSize, 3⟩, ⟨0xC0110 * pgSize, 2⟩]⟩ ⟨m₃, [⟨0xC0112 * pgSize, 3⟩]⟩ :=
    ⟨.mfreePage _ _, List.mem_cons_of_mem _ List.mem_cons_self, hfree, rfl⟩
  exact ⟨_, (pageAllocator_invariant emptyHeap_init
    (((Relation.ReflTransGen.single h₁).tail h₂).tail h₃)).1, rfl⟩

end Kernel
end JackOS
