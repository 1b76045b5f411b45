/-
  JackOS.Userprog.ForkFail

  `sys_fork` with everything that it takes: pages, a pid, places in the thread
  lists and references to open files.  With ASSERT compiled in a single page is
  never refused, so the only way to -1 is that no run of addresses is left for
  the child's address bitmap.  By then the PCB, the buffer page and the pid are
  taken, and they are not given back.
-/

import JackOS.Kernel.PageRuns
import JackOS.Userprog.Exhaustion
import JackOS.Userprog.FdTable
import JackOS.Userprog.ProcTree

namespace JackOS
namespace Userprog

open Base Base.Mem Kernel

/-! ## sys_fork -/

/-- The state: memory, the pids and `thread_all_list`, the file table and the
    inodes, and `thread_ready_list`. -/
structure ForkState where
  machine : Machine
  family : Family
  fs : Fs.FsState
  readyList : List Thread.Pcb

/-- The PCB at an address. -/
def pcbAt (addr : Nat) : Thread.Pcb := Fin.ofNat (2 ^ 32) addr

namespace ForkState

def setMachine (s : ForkState) (m : Machine) : ForkState := { s with machine := m }

/-- The child's PCB gets the pid, and the parent's other fields. -/
def copyPcb (s : ForkState) (child parent pid : Nat) (family : Family) : ForkState :=
  { s with
    family := family.setTask (pcbAt child) (childTask (s.family.tcb (pcbAt parent)) pid)
    fs := { s.fs with procs := Function.update s.fs.procs child (s.fs.procs parent) } }

/-- `child_thread->pgdir = …`, as the file system sees it. -/
def setPgdir (s : ForkState) (child pgdir : Nat) : ForkState :=
  { s with
    machine := setTcb s.machine child { s.machine.tcb child with pgdir := pgdir }
    fs := { s.fs with
      procs := Function.update s.fs.procs child { s.fs.procs child with pgdir := some pgdir } } }

end ForkState

/-- `copy_pcb_vaddrbitmap_stack0`: whether it returned 0. -/
def copyPcbVaddrbitmap (s : ForkState) (child parent : Nat) : Outcome (Bool × ForkState) := do
  let (pid, family) ← allocatePid s.family
  let (copied, m) ← copyPcbVaddrbitmapStack0 s.machine child parent
  .ok (copied, (s.copyPcb child parent pid family).setMachine m)

/-- `copy_process`: whether it returned 0. -/
def forkProcess (s : ForkState) (child parent : Nat) : Outcome (Bool × ForkState) := do
  let (bufPage, m) ← s.machine.getKernelPages 1
  let s := s.setMachine m
  match bufPage with
  | none => .ok (false, s)
  | some bufPage => do
      let (copied, s) ← copyPcbVaddrbitmap s child parent
      if copied = false then .ok (false, s)
      else do
        let (pgdir, m) ← s.machine.createPageDir
        let s := (s.setMachine m).setPgdir child (pgdir.getD 0)
        if pgdir = none then .ok (false, s)
        else do
          let m ← copyBodyStack3 child parent bufPage s.machine
          let fs ← updateInodeOpenCnts (s.fs.procs child) s.fs
          let m ← m.mfreePage bufPage 1
          .ok (true, { s with machine := m, fs := fs })

/-- `sys_fork` by `parent`; `none` is -1, otherwise the child's pid. -/
def forkCall (s : ForkState) (parent : Nat) : Outcome (Option Nat × ForkState) := do
  let (child, m) ← s.machine.getKernelPages 1
  let s := s.setMachine m
  match child with
  | none => .ok (none, s)
  | some child => do
      require ((s.machine.tcb parent).pgdir ≠ 0)
      let (copied, s) ← forkProcess s child parent
      if copied = false then .ok (none, s)
      else do
        require (¬ s.readyList.contains (pcbAt child))
        require (¬ s.family.allList.contains (pcbAt child))
        .ok (some (s.family.tcb (pcbAt child)).pid,
          { s with
            readyList := s.readyList ++ [pcbAt child]
            family := { s.family with allList := s.family.allList ++ [pcbAt child] } })

/-! ## The resources of a fork -/

/-- The pids, frames, addresses, thread lists and reference counts are the same. -/
structure SameResources (s s' : ForkState) : Prop where
  pids : s'.family.pidBitmapBits = s.family.pidBitmapBits
  pool : s'.machine.pool = s.machine.pool
  kernelVaddr : s'.machine.kernelVaddr = s.machine.kernelVaddr
  readyList : s'.readyList = s.readyList
  allList : s'.family.allList = s.family.allList
  fdPos : ∀ i, (s'.fs.fileTable i).fdPos = (s.fs.fileTable i).fdPos
  iOpenCnt : ∀ p, (s'.fs.inodes p).iOpenCnt = (s.fs.inodes p).iOpenCnt

/-- When `sys_fork` returns -1 nothing has changed. -/
def FailsInvisibly (s : ForkState) (parent : Nat) : Prop :=
  ∀ s', forkCall s parent = .ok (none, s') → SameResources s s'

/-! ## Single pages -/

variable {L : Layout} {m m' : Machine} {i : Nat}

/-- No frame is mapped to the page of bit `i`. -/
def Unmapped (m : Machine) (i : Nat) : Prop :=
  ¬ Machine.present (m.kernelPte (m.kernelVaddr.vaddrStart / pgSize + i))

/-- The page that `get_kernel_pages(1)` takes: its bit is the first clear one,
    it is not mapped, and there is a frame. -/
structure FirstPage (m : Machine) (i : Nat) : Prop where
  first : FirstClear m.kernelVaddr.vaddrBitmap i
  unmapped : Unmapped m i
  frame : 0 < freeCnt m .kernel

/-- From `m` to `m'` the page of bit `i` was handed out. -/
structure TookPage (L : Layout) (m m' : Machine) (i : Nat) : Prop where
  layout : L.Of m'
  vaddrMap : m'.kernelVaddr.vaddrBitmap = bitmapSet m.kernelVaddr.vaddrBitmap i true
  tcb : m'.tcb = m.tcb
  kernelPte : ∀ p, p ≠ L.vaddrBase + i → m'.kernelPte p = m.kernelPte p
  frames : freeCnt m' .kernel + 1 = freeCnt m .kernel

/-- The address of a bit of the kernel's map. -/
theorem vaddr_of_bit (hL : L.Of m) (hi : i < 8 * m.kernelVaddr.vaddrBitmap.btmpByteLen) :
    (m.kernelVaddr.vaddrStart + i * pgSize) % 2 ^ 32 = (L.vaddrBase + i) * pgSize
      ∧ kernelStart ≤ (L.vaddrBase + i) * pgSize
      ∧ (L.vaddrBase + i) * pgSize / pgSize = L.vaddrBase + i
      ∧ m.kernelVaddr.vaddrStart / pgSize + i = L.vaddrBase + i := by
  have hlow := L.vaddrLow
  have hend := L.vaddrEnd
  have hstart := hL.vaddrStart
  rw [hL.vaddrLen] at hi
  rw [hstart, kernelStart]
  simp only [pgSize]
  omega

/-- A call for one page that returns has one. -/
theorem getKernelPages_one {r : Option Nat} (hL : L.Of m)
    (hcall : m.getKernelPages 1 = .ok (r, m')) :
    r ≠ none ∧ ∃ i, FirstPage m i ∧ TookPage L m m' i := by
  obtain ⟨⟨vaddr, m₁⟩, hmalloc, hcall⟩ := Outcome.bind_eq_ok.1 hcall
  obtain ⟨_, -, hmalloc⟩ := Outcome.bind_eq_ok.1 hmalloc
  obtain ⟨⟨start, m₂⟩, hget, hmalloc⟩ := Outcome.bind_eq_ok.1 hmalloc
  obtain ⟨out, hscan, hget⟩ := Outcome.bind_eq_ok.1 hget
  obtain ⟨i, rfl, hfirst⟩ := bitmapScan_one_some hscan
  obtain ⟨haddr, hkernel, hpage, hbit⟩ := vaddr_of_bit hL hfirst.lt
  cases hget
  rw [haddr] at hmalloc
  obtain ⟨⟨b, m₃⟩, hmap, hmalloc⟩ := Outcome.bind_eq_ok.1 hmalloc
  obtain ⟨⟨page, m₄⟩, hpalloc, hmap⟩ := Outcome.bind_eq_ok.1 hmap
  obtain ⟨⟨a, rfl⟩, -, hframes⟩ := palloc_card hpalloc
  have hL₂ : L.Of { m with kernelVaddr := { m.kernelVaddr with
      vaddrBitmap := Machine.setRun true 1 i m.kernelVaddr.vaddrBitmap } } :=
    ⟨hL.start, hL.byteLen, hL.vaddrStart, (setRun_btmpByteLen ..).trans hL.vaddrLen⟩
  obtain ⟨f, -, -, hL₄, hsame, -⟩ := palloc_spec hL₂ hpalloc
  obtain ⟨m₅, hadd, hmap⟩ := Outcome.bind_eq_ok.1 hmap
  cases hmap
  cases hmalloc
  rw [Machine.pageTableAdd, if_pos hkernel, hpage] at hadd
  obtain ⟨_, habsent, hadd⟩ := Outcome.bind_eq_ok.1 hadd
  rw [require_eq_ok, hsame.kernelPte] at habsent
  cases hadd
  obtain ⟨m₆, hzero, hcall⟩ := Outcome.bind_eq_ok.1 hcall
  cases hcall
  have hm := zeroPages_machine hzero
  have hpool : m'.pool = m₄.pool := by
    rw [hm]
    exact pool_setKernelPte m₄ (L.vaddrBase + i) (Machine.entryOf a)
  have hframes' : freeCnt m' .kernel + 1 = freeCnt m .kernel := by
    rw [freeCnt_congr hpool]
    exact hframes
  refine ⟨fun h => (by cases h), i, ⟨hfirst, ?_, by omega⟩, ?_, ?_, ?_, fun p hp => ?_, hframes'⟩
  · rw [Unmapped, hbit]
    exact habsent
  · rw [hm]
    exact ⟨hL₄.start, hL₄.byteLen, hL₄.vaddrStart, hL₄.vaddrLen⟩
  · rw [hm]
    exact congrArg VirtualAddr.vaddrBitmap hsame.kernelVaddr
  · rw [hm]
    exact hsame.tcb
  · rw [hm]
    exact (Function.update_of_ne hp ..).trans (congrFun hsame.kernelPte p)

/-- With a free bit, a frame and no stale entry a page is there. -/
theorem getKernelPages_first (hL : L.Of m) (h : FirstPage m i) :
    ∃ a m', m.getKernelPages 1 = .ok (some a, m') ∧ TookPage L m m' i := by
  have hreturns : ∃ r m', m.getKernelPages 1 = .ok (r, m') := by
    obtain ⟨haddr, hkernel, hpage, hbit⟩ := vaddr_of_bit hL h.first.lt
    have hclear := Bitmap.not_full.2 ⟨i, h.first.lt, h.first.clear⟩
    obtain ⟨k, hscan, hk⟩ := bitmapScan_not_full hclear
    cases h.first.unique hk
    have hget : m.vaddrGet 1 = .ok (some ((L.vaddrBase + i) * pgSize),
        { m with kernelVaddr := { m.kernelVaddr with
          vaddrBitmap := Machine.setRun true 1 i m.kernelVaddr.vaddrBitmap } }) := by
      rw [Machine.vaddrGet, hscan, Outcome.ok_bind]
      dsimp only
      rw [haddr]
    generalize hm₁ : { m with kernelVaddr := { m.kernelVaddr with
          vaddrBitmap := Machine.setRun true 1 i m.kernelVaddr.vaddrBitmap } } = m₁ at hget
    have hL₁ : L.Of m₁ := by
      rw [← hm₁]
      exact ⟨hL.start, hL.byteLen, hL.vaddrStart, (setRun_btmpByteLen ..).trans hL.vaddrLen⟩
    have habsent : ¬ Machine.present (m₁.kernelPte (L.vaddrBase + i)) := by
      rw [← hm₁, ← hbit]
      exact h.unmapped
    have hframe : 0 < freeCnt m₁ .kernel := by
      rw [← hm₁]
      exact h.frame
    obtain ⟨r, m₂, hpalloc⟩ := palloc_ok hframe
    obtain ⟨f, rfl, -, -, hsame, -⟩ := palloc_spec hL₁ hpalloc
    have hadd : m₂.pageTableAdd ((L.vaddrBase + i) * pgSize) (f * pgSize)
        = .ok (m₂.setKernelPte (L.vaddrBase + i) (Machine.entryOf (f * pgSize))) := by
      rw [← hsame.kernelPte] at habsent
      rw [Machine.pageTableAdd, if_pos hkernel, hpage, require_pos habsent, Outcome.ok_bind]
    have hmapped : (m₂.setKernelPte (L.vaddrBase + i) (Machine.entryOf (f * pgSize))).frameAt
        ((L.vaddrBase + i) * pgSize) = .ok f := by
      rw [Machine.frameAt, Machine.pteAt, if_pos hkernel, hpage, Outcome.ok_bind,
        Machine.setKernelPte_kernelPte, Function.update_self, if_pos (present_entryOf f),
        frameOf_entryOf]
    generalize m₂.setKernelPte (L.vaddrBase + i) (Machine.entryOf (f * pgSize)) = m₃ at hadd hmapped
    refine ⟨some ((L.vaddrBase + i) * pgSize), m₃.setFrame f (fill (m₃.phys f) 0 0 pgSize), ?_⟩
    rw [Machine.getKernelPages, Machine.mallocPage, require_pos (by decide), Outcome.ok_bind, hget,
      Outcome.ok_bind]
    dsimp only
    rw [Machine.mapPages, hpalloc, Outcome.ok_bind]
    dsimp only
    rw [hadd, Outcome.ok_bind, Machine.mapPages, Outcome.ok_bind, Outcome.ok_bind]
    dsimp only
    rw [if_pos rfl]
    dsimp only
    rw [Machine.zeroPages, hmapped, Outcome.ok_bind, Machine.zeroPages, Outcome.ok_bind]
  obtain ⟨r, m', hcall⟩ := hreturns
  obtain ⟨hsome, i', hfirst, htook⟩ := getKernelPages_one hL hcall
  cases h.first.unique hfirst.first
  cases r with
  | none => exact absurd rfl hsome
  | some a => exact ⟨a, m', hcall, htook⟩

/-! ## Requests that are refused -/

theorem mapPages_true {b : Bool} {cnt vaddr : Nat}
    (h : Machine.mapPages cnt vaddr m = .ok (b, m')) : b = true := by
  induction cnt generalizing vaddr m with
  | zero =>
      cases h
      rfl
  | succ cnt ih =>
      obtain ⟨⟨page, m₁⟩, hpalloc, h⟩ := Outcome.bind_eq_ok.1 h
      obtain ⟨⟨a, rfl⟩, -, -⟩ := palloc_card hpalloc
      obtain ⟨m₂, -, h⟩ := Outcome.bind_eq_ok.1 h
      exact ih h

/-- Pages are refused for want of a run of addresses only. -/
theorem noRoom_of_getKernelPages {cnt : Nat} (h : m.getKernelPages cnt = .ok (none, m')) :
    NoRoom m.kernelVaddr.vaddrBitmap cnt := by
  obtain ⟨⟨vaddr, m₁⟩, hmalloc, h⟩ := Outcome.bind_eq_ok.1 h
  cases vaddr with
  | some vaddr =>
      obtain ⟨m₂, -, h⟩ := Outcome.bind_eq_ok.1 h
      cases h
  | none =>
      obtain ⟨_, hcnt, hmalloc⟩ := Outcome.bind_eq_ok.1 hmalloc
      rw [require_eq_ok] at hcnt
      obtain ⟨⟨start, m₂⟩, hget, hmalloc⟩ := Outcome.bind_eq_ok.1 hmalloc
      obtain ⟨out, hscan, hget⟩ := Outcome.bind_eq_ok.1 hget
      cases out with
      | none => exact (noRoom_of_scan hcnt hscan).2.1 rfl
      | some i =>
          cases hget
          obtain ⟨⟨b, m₃⟩, hmap, hmalloc⟩ := Outcome.bind_eq_ok.1 hmalloc
          rw [mapPages_true hmap] at hmalloc
          cases hmalloc

theorem not_noRoom_one (btmp : Bitmap) : ¬ NoRoom btmp 1 := by
  intro h
  obtain ⟨i, hi, -⟩ := bitmapScan_one_some h.scan
  cases hi

/-- `create_page_dir` never reports that there is no memory. -/
theorem createPageDir_ne_none {r : Option Nat} (h : m.createPageDir = .ok (r, m')) : r ≠ none := by
  obtain ⟨⟨vaddr, m₁⟩, hget, h⟩ := Outcome.bind_eq_ok.1 h
  cases vaddr with
  | none => exact absurd (noRoom_of_getKernelPages hget) (not_noRoom_one _)
  | some vaddr =>
      obtain ⟨dir, -, h⟩ := Outcome.bind_eq_ok.1 h
      cases h
      exact Option.some_ne_none vaddr

theorem copyPcbVaddrbitmapStack0_false {child parent : Nat}
    (h : copyPcbVaddrbitmapStack0 m child parent = .ok (false, m')) :
    NoRoom m.kernelVaddr.vaddrBitmap bitmapPgCnt := by
  obtain ⟨⟨bits, m₁⟩, hget, h⟩ := Outcome.bind_eq_ok.1 h
  cases bits with
  | none =>
      exact noRoom_of_getKernelPages (m := setTcb m child (m.tcb parent)) hget
  | some bits =>
      obtain ⟨m₂, -, h⟩ := Outcome.bind_eq_ok.1 h
      cases h

theorem copyPcbVaddrbitmapStack0_noRoom {child parent : Nat}
    (h : NoRoom m.kernelVaddr.vaddrBitmap bitmapPgCnt) :
    copyPcbVaddrbitmapStack0 m child parent = .ok (false, setTcb m child (m.tcb parent)) := by
  have hget := getKernelPages_noRoom (m := setTcb m child (m.tcb parent)) h
  rw [bitmapPgCnt] at hget
  rw [copyPcbVaddrbitmapStack0]
  dsimp only
  rw [hget, Outcome.ok_bind]

theorem allocatePid_returns {family : Family} {r : Nat × Family}
    (h : allocatePid family = .ok r) : ¬ (pidBitmap family).Full := by
  obtain ⟨out, hscan, -⟩ := Outcome.bind_eq_ok.1 h
  exact (noRoom_of_scan (by decide) hscan).1

theorem allocatePid_of_clear {family : Family} (h : ¬ (pidBitmap family).Full) :
    ∃ r, allocatePid family = .ok r := by
  obtain ⟨k, hscan, -⟩ := bitmapScan_not_full h
  rw [allocatePid, hscan]
  exact ⟨_, rfl⟩

/-! ## A fork that fails -/

variable {s s' : ForkState} {parent : Nat}

/-- There is a pid, and there are two frames and the two addresses that the PCB
    and the buffer page get; after those the address map has clear bits left, but
    no run for the child's bitmap. -/
structure Fragmented (s : ForkState) (parent : Nat) : Prop where
  isProcess : (s.machine.tcb parent).pgdir ≠ 0
  pids : ¬ (pidBitmap s.family).Full
  frames : 2 ≤ freeCnt s.machine .kernel
  pages : ∃ i j, FirstClear s.machine.kernelVaddr.vaddrBitmap i
    ∧ FirstClear (bitmapSet s.machine.kernelVaddr.vaddrBitmap i true) j
    ∧ Unmapped s.machine i ∧ Unmapped s.machine j
    ∧ NoRoom (bitmapSet (bitmapSet s.machine.kernelVaddr.vaddrBitmap i true) j true) bitmapPgCnt

/-- What is mapped to the second page is not changed by the first. -/
theorem TookPage.unmapped {i j : Nat} (hL : L.Of m) (h : TookPage L m m' i)
    (hj : FirstClear (bitmapSet m.kernelVaddr.vaddrBitmap i true) j) :
    Unmapped m' j ↔ Unmapped m j := by
  have hne : L.vaddrBase + j ≠ L.vaddrBase + i := by
    intro heq
    have hclear := hj.clear
    rw [bitmapSet_bits, bitAt_setBitAt, if_pos (Nat.add_left_cancel heq)] at hclear
    cases hclear
  have hpage : L.vaddrBase * pgSize / pgSize = L.vaddrBase :=
    Nat.mul_div_cancel _ (by norm_num [pgSize])
  rw [Unmapped, Unmapped, h.layout.vaddrStart, hL.vaddrStart, hpage, h.kernelPte _ hne]

/-- `copy_process` that returns -1 got as far as the child's bitmap. -/
theorem forkProcess_false {child : Nat} (hL : L.Of s.machine)
    (h : forkProcess s child parent = .ok (false, s')) :
    ¬ (pidBitmap s.family).Full ∧ ∃ j, FirstPage s.machine j
      ∧ NoRoom (bitmapSet s.machine.kernelVaddr.vaddrBitmap j true) bitmapPgCnt := by
  obtain ⟨⟨bufPage, m₁⟩, hbuf, h⟩ := Outcome.bind_eq_ok.1 h
  obtain ⟨hsome, j, hfirst, htook⟩ := getKernelPages_one hL hbuf
  cases bufPage with
  | none => exact absurd rfl hsome
  | some bufPage =>
      obtain ⟨⟨copied, s₂⟩, hcopy, h⟩ := Outcome.bind_eq_ok.1 h
      cases copied with
      | true =>
          -- the rest of `copy_process` does not fail
          obtain ⟨⟨pgdir, m₃⟩, hdir, h⟩ := Outcome.bind_eq_ok.1 h
          dsimp only at h
          rw [if_neg (createPageDir_ne_none hdir)] at h
          obtain ⟨_, -, h⟩ := Outcome.bind_eq_ok.1 h
          obtain ⟨_, -, h⟩ := Outcome.bind_eq_ok.1 h
          obtain ⟨_, -, h⟩ := Outcome.bind_eq_ok.1 h
          cases h
      | false =>
          obtain ⟨⟨pid, family⟩, hpid, hcopy⟩ := Outcome.bind_eq_ok.1 hcopy
          obtain ⟨⟨copied, m₂⟩, hstack, hcopy⟩ := Outcome.bind_eq_ok.1 hcopy
          cases hcopy
          have hroom := copyPcbVaddrbitmapStack0_false hstack
          rw [show (s.setMachine m₁).machine = m₁ from rfl, htook.vaddrMap] at hroom
          exact ⟨allocatePid_returns hpid, j, hfirst, hroom⟩

theorem fragmented_of_fork (hL : L.Of s.machine) (h : forkCall s parent = .ok (none, s')) :
    Fragmented s parent := by
  obtain ⟨⟨child, m₁⟩, hchild, h⟩ := Outcome.bind_eq_ok.1 h
  obtain ⟨hsome, i, hfirst, htook⟩ := getKernelPages_one hL hchild
  cases child with
  | none => exact absurd rfl hsome
  | some child =>
      obtain ⟨_, hprocess, h⟩ := Outcome.bind_eq_ok.1 h
      rw [require_eq_ok] at hprocess
      obtain ⟨⟨copied, s₂⟩, hcopy, h⟩ := Outcome.bind_eq_ok.1 h
      cases copied with
      | true =>
          obtain ⟨_, -, h⟩ := Outcome.bind_eq_ok.1 h
          obtain ⟨_, -, h⟩ := Outcome.bind_eq_ok.1 h
          cases h
      | false =>
          obtain ⟨hpids, j, hsecond, hroom⟩ := forkProcess_false htook.layout hcopy
          have hj := hsecond.first
          have hframe := hsecond.frame
          have hunmapped := hsecond.unmapped
          have hframes := htook.frames
          simp only [ForkState.setMachine] at hprocess hpids hj hframe hunmapped hroom
          rw [htook.vaddrMap] at hj hroom
          rw [htook.tcb] at hprocess
          refine ⟨hprocess, hpids, by omega, i, j, hfirst.first, hj, hfirst.unmapped, ?_, hroom⟩
          exact (htook.unmapped hL hj).1 hunmapped

/-- Then the call returns -1, and the address of the PCB stays taken. -/
theorem fork_of_fragmented (hL : L.Of s.machine) (h : Fragmented s parent) :
    ∃ s' i, forkCall s parent = .ok (none, s')
      ∧ bitAt s.machine.kernelVaddr.vaddrBitmap.bits i = false
      ∧ bitAt s'.machine.kernelVaddr.vaddrBitmap.bits i = true := by
  obtain ⟨i, j, hi, hj, hfreeI, hfreeJ, hroom⟩ := h.pages
  have hframes := h.frames
  obtain ⟨child, m₁, hchild, htook₁⟩ := getKernelPages_first hL ⟨hi, hfreeI, by omega⟩
  have hleft := htook₁.frames
  have hsecond : FirstPage m₁ j := by
    refine ⟨?_, (htook₁.unmapped hL hj).2 hfreeJ, by omega⟩
    rw [htook₁.vaddrMap]
    exact hj
  obtain ⟨bufPage, m₂, hbuf, htook₂⟩ := getKernelPages_first htook₁.layout hsecond
  have hmap : m₂.kernelVaddr.vaddrBitmap
      = bitmapSet (bitmapSet s.machine.kernelVaddr.vaddrBitmap i true) j true := by
    rw [htook₂.vaddrMap, htook₁.vaddrMap]
  obtain ⟨⟨pid, family⟩, hpid⟩ := allocatePid_of_clear h.pids
  rw [← hmap] at hroom
  have hstack : copyPcbVaddrbitmapStack0 m₂ child parent
      = .ok (false, setTcb m₂ child (m₂.tcb parent)) := copyPcbVaddrbitmapStack0_noRoom hroom
  have hcopy : forkProcess (s.setMachine m₁) child parent = .ok (false,
      ((s.setMachine m₂).copyPcb child parent pid family).setMachine
        (setTcb m₂ child (m₂.tcb parent))) := by
    rw [forkProcess, show (s.setMachine m₁).machine = m₁ from rfl, hbuf, Outcome.ok_bind]
    dsimp only
    rw [copyPcbVaddrbitmap, show ((s.setMachine m₁).setMachine m₂).family = s.family from rfl, hpid,
      Outcome.ok_bind]
    dsimp only
    rw [show ((s.setMachine m₁).setMachine m₂).machine = m₂ from rfl, hstack, Outcome.ok_bind,
      Outcome.ok_bind]
    rfl
  have hprocess : ((s.setMachine m₁).machine.tcb parent).pgdir ≠ 0 := by
    rw [show (s.setMachine m₁).machine = m₁ from rfl, htook₁.tcb]
    exact h.isProcess
  refine ⟨((s.setMachine m₂).copyPcb child parent pid family).setMachine
    (setTcb m₂ child (m₂.tcb parent)), i, ?_, hi.clear, ?_⟩
  · rw [forkCall, hchild, Outcome.ok_bind]
    dsimp only
    rw [require_pos hprocess, Outcome.ok_bind, hcopy, Outcome.ok_bind]
    rfl
  · change bitAt m₂.kernelVaddr.vaddrBitmap.bits i = true
    rw [hmap, bitmapSet_bits, bitAt_setBitAt, bitmapSet_bits, bitAt_setBitAt, if_pos rfl, ite_self]

/-! ## The fork of memory -/

/-- As far as memory goes this is the `copy_process` of `Fork`. -/
theorem forkProcess_machine {b : Bool} {child : Nat}
    (h : forkProcess s child parent = .ok (b, s')) :
    copyProcessMem s.machine child parent = .ok (b, s'.machine) := by
  obtain ⟨⟨bufPage, m₁⟩, hbuf, h⟩ := Outcome.bind_eq_ok.1 h
  cases bufPage with
  | none =>
      cases h
      rw [copyProcessMem, copyProcessStart, hbuf]
      rfl
  | some bufPage =>
      obtain ⟨⟨copied, s₂⟩, hcopy, h⟩ := Outcome.bind_eq_ok.1 h
      obtain ⟨⟨pid, family⟩, -, hcopy⟩ := Outcome.bind_eq_ok.1 hcopy
      obtain ⟨⟨copied', m₂⟩, hstack, hcopy⟩ := Outcome.bind_eq_ok.1 hcopy
      cases hcopy
      rw [show (s.setMachine m₁).machine = m₁ from rfl] at hstack
      cases copied with
      | false =>
          cases h
          rw [copyProcessMem, copyProcessStart, hbuf, Outcome.ok_bind]
          dsimp only
          rw [hstack]
          rfl
      | true =>
          obtain ⟨⟨pgdir, m₃⟩, hdir, h⟩ := Outcome.bind_eq_ok.1 h
          dsimp only at h
          rw [if_neg (createPageDir_ne_none hdir)] at h
          obtain ⟨m₄, hbody, h⟩ := Outcome.bind_eq_ok.1 h
          obtain ⟨fs, -, h⟩ := Outcome.bind_eq_ok.1 h
          obtain ⟨m₅, hfree, h⟩ := Outcome.bind_eq_ok.1 h
          cases h
          obtain ⟨a, rfl⟩ := Option.isSome_iff_exists.1
            (Option.ne_none_iff_isSome.1 (createPageDir_ne_none hdir))
          have hstart : copyProcessStart s.machine child parent = .ok (some bufPage,
              setTcb m₃ child { m₃.tcb child with pgdir := a }) := by
            rw [copyProcessStart, hbuf, Outcome.ok_bind]
            dsimp only
            rw [hstack, Outcome.ok_bind]
            dsimp only
            rw [if_neg (by decide), show m₂.createPageDir = .ok (some a, m₃) from hdir]
            rfl
          rw [copyProcessMem, hstart, Outcome.ok_bind]
          dsimp only
          rw [show copyBodyStack3 child parent bufPage
            (setTcb m₃ child { m₃.tcb child with pgdir := a }) = .ok m₄ from hbody, Outcome.ok_bind,
            hfree]
          rfl

/-- What `sys_fork` does to memory, with or without success. -/
theorem forkCall_machine {r : Option Nat} (h : forkCall s parent = .ok (r, s')) :
    ∃ child, sysForkMem s.machine parent = .ok (child, s'.machine) ∧ (child = none ↔ r = none) := by
  obtain ⟨⟨child, m₁⟩, hchild, h⟩ := Outcome.bind_eq_ok.1 h
  cases child with
  | none =>
      cases h
      refine ⟨none, ?_, by simp⟩
      rw [sysForkMem, hchild]
      rfl
  | some child =>
      obtain ⟨_, hprocess, h⟩ := Outcome.bind_eq_ok.1 h
      rw [require_eq_ok] at hprocess
      obtain ⟨⟨copied, s₂⟩, hcopy, h⟩ := Outcome.bind_eq_ok.1 h
      have hprocessMem := forkProcess_machine hcopy
      rw [show (s.setMachine m₁).machine = m₁ from rfl] at hprocessMem
      have hmem : sysForkMem s.machine parent
          = .ok (if copied then some child else none, s₂.machine) := by
        rw [sysForkMem, hchild, Outcome.ok_bind]
        dsimp only
        rw [require_pos (show (m₁.tcb parent).pgdir ≠ 0 from hprocess), Outcome.ok_bind,
          hprocessMem, Outcome.ok_bind]
      cases copied with
      | false =>
          cases h
          exact ⟨none, hmem, by simp⟩
      | true =>
          obtain ⟨_, -, h⟩ := Outcome.bind_eq_ok.1 h
          obtain ⟨_, -, h⟩ := Outcome.bind_eq_ok.1 h
          cases h
          exact ⟨some child, hmem, by simp⟩

/-! ## Failing without a trace -/

/-- A fork that fails leaves no trace unless the kernel's addresses are too
    fragmented for the child's bitmap; in a kernel with ASSERT that is the only
    way to fail. -/
theorem failsInvisibly_iff (hL : L.Of s.machine) :
    FailsInvisibly s parent ↔ ¬ Fragmented s parent := by
  constructor
  · intro hsame hfrag
    obtain ⟨s', i, hcall, hclear, hset⟩ := fork_of_fragmented hL hfrag
    rw [(hsame s' hcall).kernelVaddr, hclear] at hset
    cases hset
  · intro hfrag s' hcall
    exact absurd (fragmented_of_fork hL hcall) hfrag

/-- The state in which the process of a machine forks; pids 1 to 3 are in use. -/
def forkProbe (m : Machine) : ForkState where
  machine := m
  family := ⟨[], fun _ => ⟨3, 1, .running, 0, true, false⟩, store8 zero 0 7, []⟩
  fs := Fs.tinyFs
  readyList := []

/-- `oneProc` has 32 addresses in a row. -/
theorem failsInvisibly_iff_oneProc : FailsInvisibly (forkProbe oneProc) oneProcPcb := by
  refine (failsInvisibly_iff oneProc_of).2 fun h => ?_
  obtain ⟨i, j, hi, hj, -, -, hroom⟩ := h.pages
  have h32 : FirstClear oneProc.kernelVaddr.vaddrBitmap 32 := ⟨by decide, by decide, by decide⟩
  cases hi.unique h32
  have h33 : FirstClear (bitmapSet oneProc.kernelVaddr.vaddrBitmap 32 true) 33 :=
    ⟨by decide, by decide, by decide⟩
  cases hj.unique h33
  exact hroom.noRun 34 (by decide) (by unfold ClearRun; decide)

/-- Of the 128 pages and frames the first 32 are in use, and every other one of
    the rest. -/
def crowdedMap : Bitmap := ⟨16, fun a => if a < 4 then 0xFF else if a < 16 then 0xAA else 0⟩

def crowdedLayout : Layout where
  kernelBase := 0x300
  kernelLen := 16
  userBase := 0x380
  userLen := 1
  vaddrBase := 0xC0140
  vaddrLen := 16
  low := by decide
  kernelEnd := by decide
  userEnd := by decide
  vaddrLow := by decide
  vaddrEnd := by decide

/-- A machine with one process, without user pages, and 48 free frames. -/
def crowdedProc : Machine where
  kernelPool := ⟨crowdedMap, 0x300 * pgSize⟩
  userPool := ⟨⟨1, zero⟩, 0x380 * pgSize⟩
  kernelVaddr := ⟨crowdedMap, 0xC0140 * pgSize⟩
  kernelPte p :=
    if 0xC0140 ≤ p ∧ p < 0xC01C0 ∧ bitAt crowdedMap.bits (p - 0xC0140) then
      Machine.entryOf ((p - 0xC0140 + 0x300) * pgSize)
    else 0
  phys _ := zero
  tcb _ := ⟨0xC0141 * pgSize, 0xC0142 * pgSize, userBitmapLen, userVaddrStart⟩
  cr3 := 0x301 * pgSize

/-- 48 addresses are free, but no two in a row: fork fails and keeps a page for
    the PCB. -/
theorem not_failsInvisibly_crowded : ¬ ∀ (L : Layout) (s : ForkState) (parent : Nat),
    L.Of s.machine → FailsInvisibly s parent := by
  intro hall
  have hL : crowdedLayout.Of (forkProbe crowdedProc).machine :=
    ⟨fun pf => by cases pf <;> rfl, fun pf => by cases pf <;> rfl, rfl, rfl⟩
  have hpairs : ∀ r, r < 107 →
      ¬ (bitAt (bitmapSet (bitmapSet crowdedMap 32 true) 34 true).bits (r + 0) = false
        ∧ bitAt (bitmapSet (bitmapSet crowdedMap 32 true) 34 true).bits (r + 1) = false) := by
    decide +kernel
  have hfrag : Fragmented (forkProbe crowdedProc) (0xC0140 * pgSize) := by
    refine ⟨by decide, fun hfull => ?_, by decide +kernel, 32, 34, ⟨by decide, by decide, by decide⟩,
      ⟨by decide, by decide, by decide⟩, by unfold Unmapped; decide +kernel,
      by unfold Unmapped; decide +kernel, by decide, fun hfull => ?_,
      fun r hr hrun => ?_⟩
    · exact absurd (hfull 3 (by decide)) (by decide)
    · exact absurd (hfull 36 (by decide)) (by decide)
    · have hlimit : r + 23 ≤ 129 := hr
      exact hpairs r (by omega) ⟨hrun 0 (by decide), hrun 1 (by decide)⟩
  obtain ⟨s', i, hcall, hclear, hset⟩ := fork_of_fragmented hL hfrag
  rw [(hall _ _ _ hL s' hcall).kernelVaddr, hclear] at hset
  cases hset

end Userprog
end JackOS
