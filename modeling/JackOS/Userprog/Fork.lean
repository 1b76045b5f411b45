/-
  JackOS.Userprog.Fork

  What `sys_fork` of userprog/fork.c does to memory, and what the exit of the
  child and the wait of its parent give back: `release_prog_resource` of
  userprog/wait_exit.c and `thread_exit` of thread/thread.c.  A PCB's page is
  represented by its record `tcb`.
-/

import JackOS.Kernel.Paging

namespace JackOS
namespace Userprog

open Base Kernel

/-! ## Fork -/

/-- `USER_VADDR_START` -/
def userVaddrStart : Nat := 0x8048000

/-- The bytes of the bitmap of a process's address space. -/
def userBitmapLen : Nat := (kernelStart - userVaddrStart) / pgSize / 8

def setTcb (m : Machine) (t : Nat) (tcb : Tcb) : Machine :=
  { m with tcb := Function.update m.tcb t tcb }

/-- `copy_pcb_vaddrbitmap_stack0`: whether there was memory for the bitmap. -/
def copyPcbVaddrbitmapStack0 (m : Machine) (child parent : Nat) : Outcome (Bool × Machine) := do
  let m := setTcb m child (m.tcb parent)
  let bitmapPgCnt := divCeiling userBitmapLen pgSize
  let (vaddrBtmp, m) ← m.getKernelPages bitmapPgCnt
  match vaddrBtmp with
  | none => .ok (false, m)
  | some vaddrBtmp => do
      let m ← Machine.copyPages bitmapPgCnt vaddrBtmp (m.tcb child).vaddrBits m
      .ok (true, setTcb m child { m.tcb child with vaddrBits := vaddrBtmp })

/-- Byte `idxByte` of the parent's bitmap. -/
def bitmapByte (m : Machine) (bits idxByte : Nat) : Outcome UInt8 := do
  let frame ← m.frameAt (bits + idxByte)
  .ok (m.phys frame ((bits + idxByte) % pgSize))

/-- A page of the parent goes through `buf_page` into a new page of the child,
    while the page directory is switched back and forth. -/
def copyPage (child parent bufPage progVaddr : Nat) (m : Machine) : Outcome Machine := do
  let m ← Machine.copyPages 1 bufPage progVaddr m
  let m ← m.pageDirActivate child
  let m ← m.getAPageWithoutOpvaddrbitmap progVaddr
  let m ← Machine.copyPages 1 progVaddr bufPage m
  m.pageDirActivate parent

/-- `while (idx_bit < 8)`, with `left` bits to go -/
def copyByte (child parent bufPage idxByte : Nat) : (left idxBit : Nat) → Machine → Outcome Machine
  | 0, _, m => .ok m
  | left + 1, idxBit, m => do
      let byte ← bitmapByte m (m.tcb parent).vaddrBits idxByte
      let m ← (if byte.toBitVec.getLsbD idxBit then
          copyPage child parent bufPage
            (((idxByte * 8 + idxBit) * pgSize + (m.tcb parent).vaddrStart) % 2 ^ 32) m
        else .ok m)
      copyByte child parent bufPage idxByte left (idxBit + 1) m

/-- `while (idx_byte < btmp_bytes_len)`, with `left` bytes to go -/
def copyBytes (child parent bufPage : Nat) : (left idxByte : Nat) → Machine → Outcome Machine
  | 0, _, m => .ok m
  | left + 1, idxByte, m => do
      let byte ← bitmapByte m (m.tcb parent).vaddrBits idxByte
      let m ← (if byte ≠ 0 then copyByte child parent bufPage idxByte 8 0 m else .ok m)
      copyBytes child parent bufPage left (idxByte + 1) m

/-- `copy_body_stack3` -/
def copyBodyStack3 (child parent bufPage : Nat) (m : Machine) : Outcome Machine :=
  copyBytes child parent bufPage (m.tcb parent).vaddrByteLen 0 m

/-- `copy_process` up to `copy_body_stack3`: the buffer page, if all memory was
    there. -/
def copyProcessStart (m : Machine) (child parent : Nat) : Outcome (Option Nat × Machine) := do
  let (bufPage, m) ← m.getKernelPages 1
  match bufPage with
  | none => .ok (none, m)
  | some bufPage => do
      let (copied, m) ← copyPcbVaddrbitmapStack0 m child parent
      if copied = false then .ok (none, m)
      else do
        let (pgdir, m) ← m.createPageDir
        let m := setTcb m child { m.tcb child with pgdir := pgdir.getD 0 }
        .ok (if pgdir.isSome then some bufPage else none, m)

/-- `copy_process` -/
def copyProcessMem (m : Machine) (child parent : Nat) : Outcome (Bool × Machine) := do
  let (bufPage, m) ← copyProcessStart m child parent
  match bufPage with
  | none => .ok (false, m)
  | some bufPage => do
      let m ← copyBodyStack3 child parent bufPage m
      let m ← m.mfreePage bufPage 1
      .ok (true, m)

/-- `sys_fork` by `parent`; the result is the child's PCB. -/
def sysForkMem (m : Machine) (parent : Nat) : Outcome (Option Nat × Machine) := do
  let (child, m) ← m.getKernelPages 1
  match child with
  | none => .ok (none, m)
  | some child => do
      require ((m.tcb parent).pgdir ≠ 0)
      let (copied, m) ← copyProcessMem m child parent
      .ok (if copied then some child else none, m)

/-! ## Exit and wait -/

/-- The inner loop of `release_prog_resource`, over the table in frame `pt`. -/
def freeTablePages (pt : Nat) : (left pteIdx : Nat) → Machine → Machine
  | 0, _, m => m
  | left + 1, pteIdx, m =>
      let pte := m.word pt pteIdx
      let m := if Machine.present pte then m.pfree (Machine.frameOf pte * pgSize) else m
      freeTablePages pt left (pteIdx + 1) m

/-- The outer loop, over the page directory in frame `dir`. -/
def freeTables (dir : Nat) : (left pdeIdx : Nat) → Machine → Machine
  | 0, _, m => m
  | left + 1, pdeIdx, m =>
      let pde := m.word dir pdeIdx
      let m :=
        if Machine.present pde then
          (freeTablePages (Machine.frameOf pde) 1024 0 m).pfree (Machine.frameOf pde * pgSize)
        else m
      freeTables dir left (pdeIdx + 1) m

/-- `release_prog_resource` of the running process, as far as memory goes. -/
def releaseProgMem (m : Machine) (t : Nat) : Outcome Machine := do
  let dir ← m.frameAt (m.tcb t).pgdir
  let m := freeTables dir 768 0 m
  let bitmapPgCnt := (m.tcb t).vaddrByteLen / pgSize
  m.mfreePage (m.tcb t).vaddrBits bitmapPgCnt

/-- `thread_exit` of a process, as far as memory goes. -/
def threadExitMem (m : Machine) (t : Nat) : Outcome Machine := do
  let m ← (if (m.tcb t).pgdir ≠ 0 then m.mfreePage (m.tcb t).pgdir 1 else .ok m)
  m.mfreePage t 1

/-- The child exits and the parent, which runs next, reaps it. -/
def exitAndWait (m : Machine) (child parent : Nat) : Outcome Machine := do
  let m ← m.pageDirActivate child
  let m ← releaseProgMem m child
  let m ← m.pageDirActivate parent
  threadExitMem m child

end Userprog
end JackOS
