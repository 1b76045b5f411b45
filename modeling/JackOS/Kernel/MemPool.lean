/-
  JackOS.Kernel.MemPool

  `mem_pool_init` of kernel/memory.c: the memory above the first two megabytes
  is cut into the pools of the kernel and of the users, and the three bitmaps
  are packed between `MEM_BITMAP_BASE` and the PCB of the main thread.  The
  pages are counted in 16 bits, so that of a large memory only the remainder is
  shared out.

  What is set up is one of the layouts that the specifications of `palloc` and
  `malloc_page` are stated for (`memPoolInit_layout`).
-/

import JackOS.Kernel.PagingSpec

namespace JackOS
namespace Kernel

open Base Base.Mem

/-! ## The code -/

/-- `bitmap_t`, with the address of its bits. -/
structure BitmapAt where
  btmpByteLen : Nat
  bits : Nat
deriving DecidableEq, Repr

/-- `bitmap_init` -/
def bitmapInit (btmp : BitmapAt) (mem : Mem) : Mem := mem.fill btmp.bits 0 btmp.btmpByteLen

/-- `pool_t`, but for its mutex. -/
structure PoolAt where
  poolBitmap : BitmapAt
  phyAddrStart : Nat
  poolSize : Nat
deriving DecidableEq, Repr

/-- `virtual_addr_t` -/
structure VirtualAddrAt where
  vaddrBitmap : BitmapAt
  vaddrStart : Nat
deriving DecidableEq, Repr

/-- What `mem_pool_init` sets, and the memory in which the bitmaps lie. -/
structure MemPools where
  kernelPool : PoolAt
  userPool : PoolAt
  kernelVaddr : VirtualAddrAt
  mem : Mem

/-- `MEM_BITMAP_BASE` -/
def memBitmapBase : Nat := 0xC009A000

/-- `mem_pool_init` -/
def memPoolInit (allMem : Nat) (mem : Mem) : MemPools :=
  let pageTableSize := pgSize * 256
  let usedMem := pageTableSize + 0x100000
  let freeMem := (allMem + 2 ^ 32 - usedMem) % 2 ^ 32
  -- `uint16_t`
  let allFreePage := freeMem / pgSize % 2 ^ 16
  let kernelFreePages := allFreePage / 2
  let userFreePages := (allFreePage + 2 ^ 16 - kernelFreePages) % 2 ^ 16
  let kbmLength := kernelFreePages / 8
  let kpStart := usedMem
  let kernelPool : PoolAt :=
    { poolBitmap := ⟨kbmLength, memBitmapBase⟩
      phyAddrStart := kpStart
      poolSize := kernelFreePages * pgSize }
  let mem := bitmapInit kernelPool.poolBitmap mem
  let ubmLength := userFreePages / 8
  let upStart := (kpStart + kernelFreePages * pgSize) % 2 ^ 32
  let userPool : PoolAt :=
    { poolBitmap := ⟨ubmLength, (memBitmapBase + kbmLength) % 2 ^ 32⟩
      phyAddrStart := upStart
      poolSize := userFreePages * pgSize }
  let mem := bitmapInit userPool.poolBitmap mem
  let kernelVaddr : VirtualAddrAt :=
    { vaddrBitmap := ⟨kbmLength, (memBitmapBase + kbmLength + ubmLength) % 2 ^ 32⟩
      vaddrStart := kHeapStart }
  let mem := bitmapInit kernelVaddr.vaddrBitmap mem
  ⟨kernelPool, userPool, kernelVaddr, mem⟩

/-! ## The layout -/

namespace MemPools

def pool (p : MemPools) : PoolFlags → PoolAt
  | .kernel => p.kernelPool
  | .user => p.userPool

/-- The bitmaps. -/
def bitmaps (p : MemPools) : List BitmapAt :=
  [p.kernelPool.poolBitmap, p.userPool.poolBitmap, p.kernelVaddr.vaddrBitmap]

end MemPools

/-- The physical address is of the pool. -/
def PoolAt.Has (p : PoolAt) (a : Nat) : Prop := p.phyAddrStart ≤ a ∧ a < p.phyAddrStart + p.poolSize

/-- The address is of the bitmap. -/
def BitmapAt.Has (b : BitmapAt) (a : Nat) : Prop := b.bits ≤ a ∧ a < b.bits + b.btmpByteLen

/-- The pools of the machine are these, with any bits set. -/
structure MemPools.Of (p : MemPools) (m : Machine) : Prop where
  start : ∀ pf, (m.pool pf).phyAddrStart = (p.pool pf).phyAddrStart
  byteLen : ∀ pf, (m.pool pf).poolBitmap.btmpByteLen = (p.pool pf).poolBitmap.btmpByteLen
  vaddrStart : m.kernelVaddr.vaddrStart = p.kernelVaddr.vaddrStart
  vaddrLen : m.kernelVaddr.vaddrBitmap.btmpByteLen = p.kernelVaddr.vaddrBitmap.btmpByteLen

/-- How the pools and their bitmaps have to lie. -/
structure MemPools.LaidOut (allMem : Nat) (p : MemPools) : Prop where
  inside : ∀ pf a, (p.pool pf).Has a → 0x200000 ≤ a ∧ a < allMem
  disjoint : ∀ a, ¬ (p.kernelPool.Has a ∧ p.userPool.Has a)
  palloc : ∀ m m' pf page, p.Of m → m.palloc pf = .ok (some page, m') →
    ∀ a, page ≤ a → a < page + pgSize → (p.pool pf).Has a
  apart : p.bitmaps.Pairwise fun b b' => ∀ a, ¬ (b.Has a ∧ b'.Has a)
  below : ∀ b ∈ p.bitmaps, b.bits + b.btmpByteLen ≤ 0xC009E000
  window : ∀ i < 8 * p.kernelVaddr.vaddrBitmap.btmpByteLen,
    p.kernelVaddr.vaddrStart + i * pgSize + pgSize ≤ 0xFFC00000

variable {allMem : Nat} {mem : Mem}

theorem free_toNat (hlow : 0x200000 ≤ allMem) (hhigh : allMem < 2 ^ 32) :
    (allMem + 2 ^ 32 - (pgSize * 256 + 0x100000)) % 2 ^ 32 = allMem - 0x200000 := by
  have hpg : pgSize = 4096 := rfl
  rw [hpg]
  omega

/-- Addresses behind `MEM_BITMAP_BASE` do not wrap. -/
theorem bitmapAddr_toNat {k : Nat} (hk : k < 2 ^ 24) :
    (memBitmapBase + k) % 2 ^ 32 = memBitmapBase + k := by
  unfold memBitmapBase
  omega

/-- The numbers: with `n` pages counted, the kernel gets the smaller half. -/
theorem memPoolInit_eq (hlow : 0x200000 ≤ allMem) (hhigh : allMem < 2 ^ 32) :
    ∃ n, n < 2 ^ 16 ∧ 0x200000 + n * pgSize ≤ allMem
      ∧ (memPoolInit allMem mem).kernelPool
        = ⟨⟨n / 2 / 8, memBitmapBase⟩, 0x200000, n / 2 * pgSize⟩
      ∧ (memPoolInit allMem mem).userPool
        = ⟨⟨(n - n / 2) / 8, memBitmapBase + n / 2 / 8⟩, 0x200000 + n / 2 * pgSize,
            (n - n / 2) * pgSize⟩
      ∧ (memPoolInit allMem mem).kernelVaddr
        = ⟨⟨n / 2 / 8, memBitmapBase + n / 2 / 8 + (n - n / 2) / 8⟩, kHeapStart⟩ := by
  have hpg : pgSize = 4096 := rfl
  generalize hn : (allMem - 0x200000) / pgSize % 2 ^ 16 = n
  have hlt : n < 2 ^ 16 := by
    rw [← hn]
    exact Nat.mod_lt _ (by decide)
  have hfits : 0x200000 + n * pgSize ≤ allMem := by
    rw [← hn, hpg]
    omega
  have huser : (n + 2 ^ 16 - n / 2) % 2 ^ 16 = n - n / 2 := by omega
  have hubits := @bitmapAddr_toNat (n / 2 / 8) (by omega)
  have hvbits := @bitmapAddr_toNat (n / 2 / 8 + (n - n / 2) / 8) (by omega)
  rw [← Nat.add_assoc] at hvbits
  have hstart : (pgSize * 256 + 0x100000 + n / 2 * pgSize) % 2 ^ 32 = 0x200000 + n / 2 * pgSize := by
    rw [hpg]
    omega
  refine ⟨n, hlt, hfits, ?_, ?_, ?_⟩
  · simp only [memPoolInit, free_toNat hlow hhigh, hn]
    rfl
  · simp only [memPoolInit, free_toNat hlow hhigh, hn, huser, hstart, hubits]
  · simp only [memPoolInit, free_toNat hlow hhigh, hn, huser, hvbits]

/-- A page that `palloc` returns belongs to a bit of the bitmap. -/
theorem palloc_page {m m' : Machine} {pf : PoolFlags} {page : Nat}
    (h : m.palloc pf = .ok (some page, m')) :
    ∃ i, i < 8 * (m.pool pf).poolBitmap.btmpByteLen
      ∧ page = i * pgSize + (m.pool pf).phyAddrStart := by
  obtain ⟨bitIdx, hscan, h⟩ := Outcome.bind_eq_ok.1 h
  cases bitIdx with
  | none => cases h
  | some i =>
      cases h
      exact ⟨i, (firstClear_of_bitmapScan hscan).lt, rfl⟩

/-- A bitmap of whole bytes has no bit behind the pool. -/
theorem page_inside {i k : Nat} (hi : i < 8 * (k / 8)) : i * pgSize + pgSize ≤ k * pgSize := by
  rw [← Nat.succ_mul]
  apply Nat.mul_le_mul_right
  omega

/-- `mem_pool_init` lays the pools out, whatever the size of the memory. -/
theorem memPoolInit_laidOut (hmem : 0x200000 ≤ allMem ∧ allMem < 2 ^ 32) (mem : Mem) :
    (memPoolInit allMem mem).LaidOut allMem := by
  obtain ⟨n, hn, hfits, hkernel, huser, hvaddr⟩ := @memPoolInit_eq allMem mem hmem.1 hmem.2
  generalize memPoolInit allMem mem = p at *
  obtain ⟨kernelPool, userPool, kernelVaddr, mem⟩ := p
  subst hkernel huser hvaddr
  have hpages : n / 2 * pgSize + (n - n / 2) * pgSize = n * pgSize := by
    rw [← Nat.add_mul]
    congr 1
    omega
  have hspan := (by omega : n / 2 / 8 + (n - n / 2) / 8 + n / 2 / 8 < 0x4000)
  constructor
  · rintro (_ | _) a ⟨hstart, hend⟩
    · dsimp only [MemPools.pool] at hstart hend
      omega
    · dsimp only [MemPools.pool] at hstart hend
      omega
  · rintro a ⟨⟨-, hend⟩, ⟨hstart, -⟩⟩
    exact absurd (Nat.lt_of_lt_of_le hend hstart) (Nat.lt_irrefl a)
  · intro m m' pf page hof hpalloc a hfirst hlast
    obtain ⟨i, hi, rfl⟩ := palloc_page hpalloc
    rw [hof.start] at hfirst hlast
    rw [hof.byteLen] at hi
    cases pf with
    | kernel =>
        have hle := page_inside hi
        dsimp only [MemPools.pool] at hfirst hlast
        exact ⟨by dsimp only [MemPools.pool]; omega, by dsimp only [MemPools.pool]; omega⟩
    | user =>
        have hle := page_inside hi
        dsimp only [MemPools.pool] at hfirst hlast
        exact ⟨by dsimp only [MemPools.pool]; omega, by dsimp only [MemPools.pool]; omega⟩
  · simp only [MemPools.bitmaps, List.pairwise_cons, List.mem_cons, List.not_mem_nil, or_false,
      forall_eq_or_imp, forall_eq, BitmapAt.Has]
    refine ⟨⟨fun a h => ?_, fun a h => ?_⟩, fun a h => ?_, fun _ h => (by cases h), .nil⟩
    · omega
    · omega
    · omega
  · simp only [MemPools.bitmaps, List.mem_cons, List.not_mem_nil, or_false, forall_eq_or_imp,
      forall_eq, memBitmapBase]
    omega
  · intro i hi
    have hle := page_inside hi
    dsimp only
    unfold kHeapStart pgSize at *
    omega

/-- 512 MiB, of which 16 bits do not count all pages. -/
theorem memPoolInit_laidOut_wrap : (memPoolInit 0x20000000 Mem.zero).LaidOut 0x20000000 :=
  memPoolInit_laidOut ⟨by decide, by decide⟩ Mem.zero

theorem kHeapStart_page : kHeapStart = 0xC0100 * pgSize := by
  unfold kHeapStart pgSize
  norm_num

/-- The machine starts in a layout for which the allocators are specified. -/
theorem memPoolInit_layout (hlow : 0x200000 ≤ allMem) (hhigh : allMem < 2 ^ 32) (mem : Mem) :
    ∃ L : Layout, ∀ m, (memPoolInit allMem mem).Of m → L.Of m := by
  obtain ⟨n, hn, -, hkernel, huser, hvaddr⟩ := @memPoolInit_eq allMem mem hlow hhigh
  let L : Layout :=
    { kernelBase := 0x200
      kernelLen := n / 2 / 8
      userBase := 0x200 + n / 2
      userLen := (n - n / 2) / 8
      vaddrBase := 0xC0100
      vaddrLen := n / 2 / 8
      low := by decide
      kernelEnd := by omega
      userEnd := by omega
      vaddrLow := by decide
      vaddrEnd := by omega }
  refine ⟨L, fun m hof => ⟨?_, ?_, ?_, ?_⟩⟩
  · rintro (_ | _)
    · rw [hof.start]
      change (memPoolInit allMem mem).kernelPool.phyAddrStart = 0x200 * pgSize
      rw [hkernel]
      rfl
    · rw [hof.start]
      change (memPoolInit allMem mem).userPool.phyAddrStart = (0x200 + n / 2) * pgSize
      rw [huser, Nat.add_mul]
      rfl
  · rintro (_ | _)
    · rw [hof.byteLen]
      change (memPoolInit allMem mem).kernelPool.poolBitmap.btmpByteLen = n / 2 / 8
      rw [hkernel]
    · rw [hof.byteLen]
      change (memPoolInit allMem mem).userPool.poolBitmap.btmpByteLen = (n - n / 2) / 8
      rw [huser]
  · rw [hof.vaddrStart, hvaddr]
    exact kHeapStart_page
  · rw [hof.vaddrLen, hvaddr]

theorem bitmapInit_inside {b : BitmapAt} {a : Nat} (h : b.Has a) (mem : Mem) :
    bitmapInit b mem a = 0 :=
  fill_inside h.1 h.2

/-- Zeros stay. -/
theorem bitmapInit_zero {a : Nat} (b : BitmapAt) (h : mem a = 0) : bitmapInit b mem a = 0 := by
  by_cases hin : b.Has a
  · exact bitmapInit_inside hin mem
  · rw [bitmapInit, fill_outside (by unfold BitmapAt.Has at hin; omega)]
    exact h

/-- All pages are free at first. -/
theorem memPoolInit_free (allMem : Nat) (mem : Mem) {b : BitmapAt} {a : Nat}
    (hb : b ∈ (memPoolInit allMem mem).bitmaps) (ha : b.Has a) :
    (memPoolInit allMem mem).mem a = 0 := by
  simp only [MemPools.bitmaps, List.mem_cons, List.not_mem_nil, or_false] at hb
  rcases hb with rfl | rfl | rfl
  · exact bitmapInit_zero _ (bitmapInit_zero _ (bitmapInit_inside ha mem))
  · exact bitmapInit_zero _ (bitmapInit_inside ha _)
  · exact bitmapInit_inside ha _

end Kernel
end JackOS
