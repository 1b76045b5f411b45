/-
  JackOS.Userprog.UserPages

  The calls of kernel/memory.c that take pages for a process: `get_a_page`, and
  `malloc_page` of the user pool.  The address bitmap of the process lies in
  pages of the kernel, so that setting a bit of it writes a page frame.

  `running_thread()` is the process `t`.
-/

import JackOS.Userprog.ForkStart

namespace JackOS
namespace Userprog

open Base Base.Mem Kernel

/-! ## The address bitmap of a process -/

/-- `userprog_vaddr.vaddr_bitmap` -/
def userVaddrBitmap (m : Machine) (t : Nat) : Bitmap :=
  ⟨(m.tcb t).vaddrByteLen, vaddrBitmap m t⟩

/-- `bitmap_set(&cur->userprog_vaddr.vaddr_bitmap, bit_idx, 1)` -/
def setVaddrBit (m : Machine) (t bitIdx : Nat) : Outcome Machine := do
  let addr := (m.tcb t).vaddrBits + bitIdx / 8
  let frame ← m.frameAt addr
  .ok (m.setFrame frame (Function.update (m.phys frame) (addr % pgSize)
    (setBitAt (vaddrBitmap m t) bitIdx true (bitIdx / 8))))

/-- `bitmap_set` of `cnt` bits from `bitIdx` on -/
def setVaddrRun (t : Nat) : (cnt bitIdx : Nat) → Machine → Outcome Machine
  | 0, _, m => .ok m
  | cnt + 1, bitIdx, m => do
      let m ← setVaddrBit m t bitIdx
      setVaddrRun t cnt (bitIdx + 1) m

/-! ## get_a_page -/

/-- `(vaddr - vaddr_start) / PG_SIZE` -/
def bitIdxOf (vaddr vaddrStart : Nat) : Nat := (vaddr + 2 ^ 32 - vaddrStart) % 2 ^ 32 / pgSize

/-- `get_a_page` up to `palloc`: the page is marked in the bitmap of its
    addresses. -/
def markVaddr (m : Machine) (t : Nat) (pf : PoolFlags) (vaddr : Nat) : Outcome Machine :=
  if (m.tcb t).pgdir ≠ 0 ∧ pf = .user then do
    let bitIdx := bitIdxOf vaddr (m.tcb t).vaddrStart
    require (0 < bitIdx)
    setVaddrBit m t bitIdx
  else if (m.tcb t).pgdir = 0 ∧ pf = .kernel then do
    let bitIdx := bitIdxOf vaddr m.kernelVaddr.vaddrStart
    require (0 < bitIdx)
    .ok { m with kernelVaddr := { m.kernelVaddr with
      vaddrBitmap := bitmapSet m.kernelVaddr.vaddrBitmap bitIdx true } }
  else
    -- PANIC spins like an ASSERT
    .error .assertFailed

/-- `get_a_page` between `mutex_acquire` and `mutex_release` -/
def getAPage (m : Machine) (t : Nat) (pf : PoolFlags) (vaddr : Nat) :
    Outcome (Option Nat × Machine) := do
  let m ← markVaddr m t pf vaddr
  let (pagePhyaddr, m) ← m.palloc pf
  match pagePhyaddr with
  | none => .ok (none, m)
  | some pagePhyaddr => do
      let m ← m.pageTableAdd vaddr pagePhyaddr
      .ok (some vaddr, m)

/-! ## malloc_page of the user pool -/

/-- `vaddr_get(PF_USER, pg_cnt)` -/
def userVaddrGet (m : Machine) (t pgCnt : Nat) : Outcome (Option Nat × Machine) := do
  let bitIdxStart ← bitmapScan false (userVaddrBitmap m t) pgCnt
  match bitIdxStart with
  | none => .ok (none, m)
  | some bitIdxStart => do
      let m ← setVaddrRun t pgCnt bitIdxStart m
      let vaddrStart := ((m.tcb t).vaddrStart + bitIdxStart * pgSize) % 2 ^ 32
      require (vaddrStart < kernelStart - pgSize)
      .ok (some vaddrStart, m)

/-- The loop of `malloc_page` with pages of the user pool. -/
def mapUserPages : (cnt vaddr : Nat) → Machine → Outcome (Bool × Machine)
  | 0, _, m => .ok (true, m)
  | cnt + 1, vaddr, m => do
      let (pagePhyaddr, m) ← m.palloc .user
      match pagePhyaddr with
      | none => .ok (false, m)
      | some pagePhyaddr => do
          let m ← m.pageTableAdd vaddr pagePhyaddr
          mapUserPages cnt ((vaddr + pgSize) % 2 ^ 32) m

/-- `malloc_page(PF_USER, pg_cnt)` -/
def mallocUserPage (m : Machine) (t pgCnt : Nat) : Outcome (Option Nat × Machine) := do
  require (0 < pgCnt ∧ pgCnt < 3840)
  let (vaddrStart, m) ← userVaddrGet m t pgCnt
  match vaddrStart with
  | none => .ok (none, m)
  | some vaddrStart => do
      let (mapped, m) ← mapUserPages pgCnt vaddrStart m
      .ok (if mapped then some vaddrStart else none, m)

/-- `malloc_page` -/
def mallocPage (m : Machine) (t : Nat) (pf : PoolFlags) (pgCnt : Nat) :
    Outcome (Option Nat × Machine) :=
  match pf with
  | .kernel => m.mallocPage pgCnt
  | .user => mallocUserPage m t pgCnt

end Userprog
end JackOS
