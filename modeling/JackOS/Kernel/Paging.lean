/-
  JackOS.Kernel.Paging

  Pools, page tables and whole pages: the part of kernel/memory.c below
  `sys_malloc`, with the page directories of userprog/process.c.  Physical
  memory is a memory of 4096 bytes for every page frame; page directories and
  the page tables of user space lie in it.  The page tables of the kernel's
  gigabyte are there from boot on and every page directory has them, so they
  are one table of the machine.

  The ASSERTs are compiled in.  The calls run with interrupts off, so that the
  pools' mutexes are free.
-/

import JackOS.Kernel.Memory
import JackOS.Lib.Bitmap

namespace JackOS
namespace Kernel

open Base Base.Mem

/-- `pool_t` -/
structure Pool where
  poolBitmap : Bitmap
  phyAddrStart : Nat

/-- `virtual_addr_t` of the kernel -/
structure VirtualAddr where
  vaddrBitmap : Bitmap
  vaddrStart : Nat

/-- The fields of `task_struct_t` about memory: `pgdir` and those of
    `userprog_vaddr`.  `pgdir = 0` is NULL. -/
structure Tcb where
  pgdir : Nat
  vaddrBits : Nat
  vaddrByteLen : Nat
  vaddrStart : Nat

/-- `pool_flags_t` -/
inductive PoolFlags where
  | kernel
  | user
deriving DecidableEq

/-- The state. -/
structure Machine where
  kernelPool : Pool
  userPool : Pool
  kernelVaddr : VirtualAddr
  /-- the kernel's page-table entries, by the number of the virtual page -/
  kernelPte : Nat → Nat
  /-- the contents of the page frames -/
  phys : Nat → Mem
  /-- the PCBs, by address -/
  tcb : Nat → Tcb
  /-- the physical address of the page directory in use -/
  cr3 : Nat

/-- The first address of the kernel. -/
def kernelStart : Nat := 0xC0000000

namespace Machine

/-! ## Pools -/

def pool (m : Machine) : PoolFlags → Pool
  | .kernel => m.kernelPool
  | .user => m.userPool

def setPoolBitmap (m : Machine) (pf : PoolFlags) (btmp : Bitmap) : Machine :=
  match pf with
  | .kernel => { m with kernelPool := { m.kernelPool with poolBitmap := btmp } }
  | .user => { m with userPool := { m.userPool with poolBitmap := btmp } }

/-- `palloc` -/
def palloc (m : Machine) (pf : PoolFlags) : Outcome (Option Nat × Machine) := do
  let bitIdx ← bitmapScan false (m.pool pf).poolBitmap 1
  match bitIdx with
  | none => .ok (none, m)
  | some bitIdx =>
      .ok (some (bitIdx * pgSize + (m.pool pf).phyAddrStart),
        m.setPoolBitmap pf (bitmapSet (m.pool pf).poolBitmap bitIdx true))

/-- `pfree` and `free_a_phy_page` -/
def pfree (m : Machine) (pgPhyAddr : Nat) : Machine :=
  if m.userPool.phyAddrStart ≤ pgPhyAddr then
    m.setPoolBitmap .user (bitmapSet m.userPool.poolBitmap
      ((pgPhyAddr - m.userPool.phyAddrStart) / pgSize) false)
  else
    m.setPoolBitmap .kernel (bitmapSet m.kernelPool.poolBitmap
      ((pgPhyAddr + 2 ^ 32 - m.kernelPool.phyAddrStart) % 2 ^ 32 / pgSize) false)

/-! ## Page tables -/

/-- A page-table or page-directory entry: `phyaddr | PG_US_U | PG_RW_W | PG_P_1`. -/
def entryOf (phyaddr : Nat) : Nat := phyaddr ||| 7

/-- `entry & PG_P_1` -/
def present (entry : Nat) : Prop := entry % 2 = 1

instance (entry : Nat) : Decidable (present entry) := by
  unfold present
  infer_instance

/-- The page frame of an entry: `entry & 0xFFFFF000`, as a number of frames. -/
def frameOf (entry : Nat) : Nat := entry / pgSize

/-- `PDE_IDX` -/
def pdeIdx (vaddr : Nat) : Nat := vaddr / (1024 * pgSize)

/-- `PTE_IDX` -/
def pteIdx (vaddr : Nat) : Nat := vaddr / pgSize % 1024

/-- Word `idx` of a page frame. -/
def word (m : Machine) (frame idx : Nat) : Nat := le32 (m.phys frame) (4 * idx)

/-- The page frame gets other contents. -/
def setFrame (m : Machine) (frame : Nat) (contents : Mem) : Machine :=
  { m with phys := Function.update m.phys frame contents }

def setWord (m : Machine) (frame idx v : Nat) : Machine :=
  m.setFrame frame (store32 (m.phys frame) (4 * idx) v)

/-- `*pde_addr(vaddr)`, in the page directory `dir` -/
def pdeIn (m : Machine) (dir vaddr : Nat) : Nat := m.word dir (pdeIdx vaddr)

/-- `*pte_addr(vaddr)`; where there is no page table the access faults. -/
def pteAt (m : Machine) (vaddr : Nat) : Outcome Nat :=
  if kernelStart ≤ vaddr then .ok (m.kernelPte (vaddr / pgSize))
  else if present (m.pdeIn (frameOf m.cr3) vaddr) then
    .ok (m.word (frameOf (m.pdeIn (frameOf m.cr3) vaddr)) (pteIdx vaddr))
  else .error .undefined

/-- The page frame that an address in use lies in. -/
def frameAt (m : Machine) (vaddr : Nat) : Outcome Nat := do
  let pte ← m.pteAt vaddr
  if present pte then .ok (frameOf pte) else .error .undefined

/-- `addr_v2p`, of the first address of a page -/
def addrV2p (m : Machine) (vaddr : Nat) : Outcome Nat := do
  let pte ← m.pteAt vaddr
  .ok (frameOf pte * pgSize)

def setKernelPte (m : Machine) (page entry : Nat) : Machine :=
  { m with kernelPte := Function.update m.kernelPte page entry }

/-- `page_table_add` for a page of user space, in the page directory `dir` -/
def addUserPage (m : Machine) (dir vaddr pagePhyaddr : Nat) : Outcome Machine :=
  let pde := m.pdeIn dir vaddr
  if present pde then do
    require (¬ present (m.word (frameOf pde) (pteIdx vaddr)))
    .ok (m.setWord (frameOf pde) (pteIdx vaddr) (entryOf pagePhyaddr))
  else do
    let (ptPhyaddr, m) ← m.palloc .kernel
    let pt := frameOf (ptPhyaddr.getD 0)
    let m := m.setWord dir (pdeIdx vaddr) (entryOf (ptPhyaddr.getD 0))
    let m := m.setFrame pt (fill (m.phys pt) 0 0 pgSize)
    require (¬ present (m.word pt (pteIdx vaddr)))
    .ok (m.setWord pt (pteIdx vaddr) (entryOf pagePhyaddr))

/-- `page_table_add` -/
def pageTableAdd (m : Machine) (vaddr pagePhyaddr : Nat) : Outcome Machine :=
  if kernelStart ≤ vaddr then do
    require (¬ present (m.kernelPte (vaddr / pgSize)))
    .ok (m.setKernelPte (vaddr / pgSize) (entryOf pagePhyaddr))
  else m.addUserPage (frameOf m.cr3) vaddr pagePhyaddr

/-- `get_a_page_without_opvaddrbitmap` of the user pool; the result is not
    looked at. -/
def getAPageWithoutOpvaddrbitmap (m : Machine) (vaddr : Nat) : Outcome Machine := do
  let (pagePhyaddr, m) ← m.palloc .user
  match pagePhyaddr with
  | none => .ok m
  | some pagePhyaddr => m.pageTableAdd vaddr pagePhyaddr

/-! ## Kernel pages -/

/-- `bitmap_set` of `cnt` bits from `bitIdx` on -/
def setRun (value : Bool) : (cnt bitIdx : Nat) → Bitmap → Bitmap
  | 0, _, btmp => btmp
  | cnt + 1, bitIdx, btmp => setRun value cnt (bitIdx + 1) (bitmapSet btmp bitIdx value)

/-- `vaddr_get(PF_KERNEL, pg_cnt)` -/
def vaddrGet (m : Machine) (pgCnt : Nat) : Outcome (Option Nat × Machine) := do
  let bitIdxStart ← bitmapScan false m.kernelVaddr.vaddrBitmap pgCnt
  match bitIdxStart with
  | none => .ok (none, m)
  | some bitIdxStart =>
      .ok (some ((m.kernelVaddr.vaddrStart + bitIdxStart * pgSize) % 2 ^ 32),
        { m with kernelVaddr := { m.kernelVaddr with
            vaddrBitmap := setRun true pgCnt bitIdxStart m.kernelVaddr.vaddrBitmap } })

/-- The loop of `malloc_page`, from `vaddr` on: whether all pages were there. -/
def mapPages : (cnt vaddr : Nat) → Machine → Outcome (Bool × Machine)
  | 0, _, m => .ok (true, m)
  | cnt + 1, vaddr, m => do
      let (pagePhyaddr, m) ← m.palloc .kernel
      match pagePhyaddr with
      | none => .ok (false, m)
      | some pagePhyaddr => do
          let m ← m.pageTableAdd vaddr pagePhyaddr
          mapPages cnt ((vaddr + pgSize) % 2 ^ 32) m

/-- `malloc_page(PF_KERNEL, pg_cnt)` -/
def mallocPage (m : Machine) (pgCnt : Nat) : Outcome (Option Nat × Machine) := do
  require (0 < pgCnt ∧ pgCnt < 3840)
  let (vaddrStart, m) ← m.vaddrGet pgCnt
  match vaddrStart with
  | none => .ok (none, m)
  | some vaddrStart => do
      let (mapped, m) ← mapPages pgCnt vaddrStart m
      .ok (if mapped then some vaddrStart else none, m)

/-- `memset(vaddr, 0, cnt * PG_SIZE)` -/
def zeroPages : (cnt vaddr : Nat) → Machine → Outcome Machine
  | 0, _, m => .ok m
  | cnt + 1, vaddr, m => do
      let frame ← m.frameAt vaddr
      zeroPages cnt (vaddr + pgSize) (m.setFrame frame (fill (m.phys frame) 0 0 pgSize))

/-- `get_kernel_pages` -/
def getKernelPages (m : Machine) (pgCnt : Nat) : Outcome (Option Nat × Machine) := do
  let (vaddr, m) ← m.mallocPage pgCnt
  match vaddr with
  | none => .ok (none, m)
  | some vaddr => do
      let m ← zeroPages pgCnt vaddr m
      .ok (some vaddr, m)

/-- `memcpy(dst, src, cnt * PG_SIZE)` of whole pages -/
def copyPages : (cnt dst src : Nat) → Machine → Outcome Machine
  | 0, _, _, m => .ok m
  | cnt + 1, dst, src, m => do
      let dstFrame ← m.frameAt dst
      let srcFrame ← m.frameAt src
      copyPages cnt (dst + pgSize) (src + pgSize)
        (m.setFrame dstFrame (copy (m.phys dstFrame) 0 (m.phys srcFrame) 0 pgSize))

/-- `page_table_pte_remove`, of a kernel page: `*pte &= ~PG_P_1` -/
def pageTablePteRemove (m : Machine) (vaddr : Nat) : Machine :=
  m.setKernelPte (vaddr / pgSize)
    (m.kernelPte (vaddr / pgSize) - m.kernelPte (vaddr / pgSize) % 2)

/-- The two checks in the loops of `mfree_page`. -/
def inPool (m : Machine) : PoolFlags → Nat → Prop
  | .user, pgPhyAddr => m.userPool.phyAddrStart ≤ pgPhyAddr
  | .kernel, pgPhyAddr =>
      m.kernelPool.phyAddrStart ≤ pgPhyAddr ∧ pgPhyAddr < m.userPool.phyAddrStart

instance (m : Machine) (pf : PoolFlags) (pgPhyAddr : Nat) :
    Decidable (m.inPool pf pgPhyAddr) := by
  cases pf <;> unfold inPool <;> infer_instance

/-- The loops of `mfree_page`, for the pool that the first page is of. -/
def freePages (pf : PoolFlags) : (cnt vaddr : Nat) → Machine → Outcome Machine
  | 0, _, m => .ok m
  | cnt + 1, vaddr, m => do
      let pgPhyAddr ← m.addrV2p vaddr
      require (m.inPool pf pgPhyAddr)
      freePages pf cnt (vaddr + pgSize) ((m.pfree pgPhyAddr).pageTablePteRemove vaddr)

/-- `mfree_page(PF_KERNEL, _vaddr, pg_cnt)` -/
def mfreePage (m : Machine) (vaddr pgCnt : Nat) : Outcome Machine := do
  require (1 ≤ pgCnt ∧ vaddr % pgSize = 0)
  let pgPhyAddr ← m.addrV2p vaddr
  require (0x102000 ≤ pgPhyAddr)
  let pf := if m.userPool.phyAddrStart ≤ pgPhyAddr then PoolFlags.user else .kernel
  let m ← freePages pf pgCnt vaddr m
  let bitIdxStart := (vaddr + 2 ^ 32 - m.kernelVaddr.vaddrStart) % 2 ^ 32 / pgSize
  .ok { m with kernelVaddr := { m.kernelVaddr with
    vaddrBitmap := setRun false pgCnt bitIdxStart m.kernelVaddr.vaddrBitmap } }

/-! ## Page directories -/

/-- `page_dir_activate`; the kernel's own page directory lies at 0x100000. -/
def pageDirActivate (m : Machine) (t : Nat) : Outcome Machine :=
  if (m.tcb t).pgdir = 0 then .ok { m with cr3 := 0x100000 }
  else do
    let pagedirPhyAddr ← m.addrV2p (m.tcb t).pgdir
    .ok { m with cr3 := pagedirPhyAddr }

/-- `create_page_dir`: the kernel's half is copied, and the last entry is the
    page directory itself. -/
def createPageDir (m : Machine) : Outcome (Option Nat × Machine) := do
  let (pageDirVaddr, m) ← m.getKernelPages 1
  match pageDirVaddr with
  | none => .ok (none, m)
  | some pageDirVaddr => do
      let dir ← m.frameAt pageDirVaddr
      let m := m.setFrame dir (copy (m.phys dir) 0xC00 (m.phys (frameOf m.cr3)) 0xC00 1024)
      .ok (some pageDirVaddr, m.setWord dir 1023 (entryOf (dir * pgSize)))

end Machine
end Kernel
end JackOS
