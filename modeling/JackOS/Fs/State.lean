/-
  JackOS.Fs.State

  The data the file system works on: the structures of lib/types.h, fs/file.h,
  fs/super_block.h and device/ide.h, and one state holding the disk, the
  mounted partition, the in-memory inode nodes, the open-file table and the
  processes.  Disk contents are raw bytes; on-disk structures are read and
  written through the layouts below, as the kernel's memcpy does.

  `sys_malloc` is seen here only through its result (it may fail), the heap
  its block comes from and the bytes that happen to follow the block.
-/

import JackOS.Base.Outcome
import JackOS.Lib.Bitmap

namespace JackOS
namespace Fs

open Base

/-- The value a `uint32_t` keeps of `x`. -/
def u32 (x : Nat) : Nat := x % 2 ^ 32

/-- `a - b` on `uint32_t`. -/
def subU32 (a b : Nat) : Nat := (a + (2 ^ 32 - b)) % 2 ^ 32

theorem u32_of_lt {x : Nat} (h : x < 2 ^ 32) : u32 x = x := Nat.mod_eq_of_lt h

theorem subU32_of_le {a b : Nat} (h : b ≤ a) (ha : a < 2 ^ 32) : subU32 a b = a - b := by
  unfold subU32
  omega

/-! ## Constants -/

/-- `SECTOR_SIZE` and `BLOCK_SIZE` -/
abbrev blockSize : Nat := 512

/-- `MAX_FILE_OPEN` -/
abbrev maxFileOpen : Nat := 32

/-- `MAX_FILE_OPEN_PER_PROC` -/
abbrev maxFileOpenPerProc : Nat := 8

/-- `MAX_FILE_NAME_LEN` -/
abbrev maxFileNameLen : Nat := 16

/-- `MAX_PATH_LEN` -/
abbrev maxPathLen : Nat := 512

/-- `max_lba` of device/ide.c -/
abbrev maxLba : Nat := 80 * 1024 * 1024 / 512 - 1

/-- `sizeof(inode_t)` -/
abbrev inodeSize : Nat := 76

/-- `PIPE_FLAG` -/
abbrev pipeFlag : Nat := 0xFFFF

/-! ## Structures -/

/-- `file_type_t` -/
inductive FileType where
  | unknow
  | regular
  | directory
deriving DecidableEq, Repr

/-- The value of the enumeration constant. -/
def FileType.toWord : FileType → Nat
  | .unknow => 0
  | .regular => 1
  | .directory => 2

/-- `inode_t`, without the list tag.  `iSectors` has thirteen entries. -/
structure Inode where
  iNo : Nat
  iSize : Nat
  iOpenCnt : Nat
  writeDeny : Bool
  iSectors : Nat → Nat

/-- The inode with other sector pointers. -/
def Inode.withSectors (ino : Inode) (sec : Nat → Nat) : Inode := { ino with iSectors := sec }

@[simp] theorem Inode.withSectors_iNo (ino : Inode) (sec : Nat → Nat) :
    (ino.withSectors sec).iNo = ino.iNo := rfl

@[simp] theorem Inode.withSectors_iSize (ino : Inode) (sec : Nat → Nat) :
    (ino.withSectors sec).iSize = ino.iSize := rfl

@[simp] theorem Inode.withSectors_iOpenCnt (ino : Inode) (sec : Nat → Nat) :
    (ino.withSectors sec).iOpenCnt = ino.iOpenCnt := rfl

@[simp] theorem Inode.withSectors_writeDeny (ino : Inode) (sec : Nat → Nat) :
    (ino.withSectors sec).writeDeny = ino.writeDeny := rfl

@[simp] theorem Inode.withSectors_iSectors (ino : Inode) (sec : Nat → Nat) :
    (ino.withSectors sec).iSectors = sec := rfl

@[simp] theorem Inode.withSectors_withSectors (ino : Inode) (sec sec' : Nat → Nat) :
    (ino.withSectors sec).withSectors sec' = ino.withSectors sec' := rfl

/-- The inode with another size. -/
def Inode.withSize (ino : Inode) (n : Nat) : Inode := { ino with iSize := n }

@[simp] theorem Inode.withSize_iNo (ino : Inode) (n : Nat) : (ino.withSize n).iNo = ino.iNo := rfl

@[simp] theorem Inode.withSize_iSize (ino : Inode) (n : Nat) : (ino.withSize n).iSize = n := rfl

@[simp] theorem Inode.withSize_iSectors (ino : Inode) (n : Nat) :
    (ino.withSize n).iSectors = ino.iSectors := rfl

@[simp] theorem Inode.withSize_withSize (ino : Inode) (n m : Nat) :
    (ino.withSize n).withSize m = ino.withSize m := rfl

/-- `super_block_t`, without the padding -/
structure SuperBlock where
  magic : Nat
  secCnt : Nat
  inodeCnt : Nat
  partitionLbaBase : Nat
  blockBitmapLba : Nat
  blockBitmapSects : Nat
  inodeBitmapLba : Nat
  inodeBitmapSects : Nat
  inodeTableLba : Nat
  inodeTableSects : Nat
  dataStartLba : Nat
  rootInodeNo : Nat
  dirEntrySize : Nat

/-- `partition_t` of the mounted partition.  `openInodes` lists the addresses
    of the in-memory inode nodes, first element first. -/
structure Partition where
  startLba : Nat
  secCnt : Nat
  sb : SuperBlock
  blockBitmap : Bitmap
  inodeBitmap : Bitmap
  openInodes : List Nat

/-- `file_desc_t`; `fdInode = none` is the NULL pointer of a free slot. -/
structure FileDesc where
  fdPos : Nat
  fdFlag : Nat
  fdInode : Option Nat

/-- The part of `task_struct_t` the file system uses; `pgdir = none` is NULL. -/
structure Task where
  fdTable : Nat → Int
  pgdir : Option Nat
  cwdInodeNo : Nat

/-- A block handed out by `sys_malloc`: whether it lies in the kernel heap, and
    the number of the request. -/
structure HeapBlock where
  kernel : Bool
  serial : Nat

/-- `dir_t`: the address of the inode node, the read position and the block the
    object lies in; the static `root_dir` lies in none. -/
structure Dir where
  inode : Nat
  dirPos : Nat
  block : Option HeapBlock

/-- `dir_entry_t`; the name is the 16-byte array. -/
structure DirEntry where
  filename : Nat → UInt8
  iNo : Nat
  fType : Nat

/-- The whole state.  `ndebug` is the build option that compiles ASSERT out;
    `mallocOk k` says whether the `k`-th heap request succeeds and `heapJunk k`
    is what lies in memory from the end of that block on. -/
structure FsState where
  ndebug : Bool
  disk : Mem
  part : Partition
  /-- the inode nodes in the kernel heap, by address -/
  inodes : Nat → Inode
  /-- the next unused node address -/
  nextNode : Nat
  fileTable : Nat → FileDesc
  /-- `root_dir.inode` -/
  rootInode : Nat
  procs : Nat → Task
  /-- the running process -/
  cur : Nat
  mallocOk : Nat → Bool
  mallocCnt : Nat
  heapJunk : Nat → Mem

namespace FsState

/-- `running_thread()` -/
def task (s : FsState) : Task := s.procs s.cur

def setTask (s : FsState) (t : Task) : FsState :=
  { s with procs := Function.update s.procs s.cur t }

def setInode (s : FsState) (p : Nat) (ino : Inode) : FsState :=
  { s with inodes := Function.update s.inodes p ino }

def setFd (s : FsState) (i : Nat) (fd : FileDesc) : FsState :=
  { s with fileTable := Function.update s.fileTable i fd }

def setPart (s : FsState) (p : Partition) : FsState := { s with part := p }

def setDisk (s : FsState) (d : Mem) : FsState := { s with disk := d }

/-- A new node in the kernel heap. -/
def newNode (s : FsState) (ino : Inode) : FsState :=
  { s with
    nextNode := s.nextNode + 1
    inodes := Function.update s.inodes s.nextNode ino }

/-- One more request to the heap was made. -/
def countMalloc (s : FsState) : FsState := { s with mallocCnt := s.mallocCnt + 1 }

/-- `list_push(&partition->open_inodes, &p->inode_tag)` -/
def pushOpen (s : FsState) (p : Nat) : FsState :=
  s.setPart { s.part with openInodes := p :: s.part.openInodes }

/-! ### Projections of the setters -/

variable (s : FsState)

@[simp] theorem setTask_ndebug (t : Task) : (s.setTask t).ndebug = s.ndebug := rfl
@[simp] theorem setTask_disk (t : Task) : (s.setTask t).disk = s.disk := rfl
@[simp] theorem setTask_part (t : Task) : (s.setTask t).part = s.part := rfl
@[simp] theorem setTask_inodes (t : Task) : (s.setTask t).inodes = s.inodes := rfl
@[simp] theorem setTask_nextNode (t : Task) : (s.setTask t).nextNode = s.nextNode := rfl
@[simp] theorem setTask_fileTable (t : Task) : (s.setTask t).fileTable = s.fileTable := rfl
@[simp] theorem setTask_rootInode (t : Task) : (s.setTask t).rootInode = s.rootInode := rfl
@[simp] theorem setTask_procs (t : Task) : (s.setTask t).procs = Function.update s.procs s.cur t := rfl
@[simp] theorem setTask_cur (t : Task) : (s.setTask t).cur = s.cur := rfl
@[simp] theorem setTask_mallocOk (t : Task) : (s.setTask t).mallocOk = s.mallocOk := rfl
@[simp] theorem setTask_mallocCnt (t : Task) : (s.setTask t).mallocCnt = s.mallocCnt := rfl
@[simp] theorem setTask_heapJunk (t : Task) : (s.setTask t).heapJunk = s.heapJunk := rfl
@[simp] theorem setTask_task (t : Task) : (s.setTask t).task = t := by
  simp [task]

@[simp] theorem setInode_ndebug (p : Nat) (ino : Inode) : (s.setInode p ino).ndebug = s.ndebug := rfl
@[simp] theorem setInode_disk (p : Nat) (ino : Inode) : (s.setInode p ino).disk = s.disk := rfl
@[simp] theorem setInode_part (p : Nat) (ino : Inode) : (s.setInode p ino).part = s.part := rfl
@[simp] theorem setInode_inodes (p : Nat) (ino : Inode) : (s.setInode p ino).inodes = Function.update s.inodes p ino := rfl
@[simp] theorem setInode_nextNode (p : Nat) (ino : Inode) : (s.setInode p ino).nextNode = s.nextNode := rfl
@[simp] theorem setInode_fileTable (p : Nat) (ino : Inode) : (s.setInode p ino).fileTable = s.fileTable := rfl
@[simp] theorem setInode_rootInode (p : Nat) (ino : Inode) : (s.setInode p ino).rootInode = s.rootInode := rfl
@[simp] theorem setInode_procs (p : Nat) (ino : Inode) : (s.setInode p ino).procs = s.procs := rfl
@[simp] theorem setInode_cur (p : Nat) (ino : Inode) : (s.setInode p ino).cur = s.cur := rfl
@[simp] theorem setInode_mallocOk (p : Nat) (ino : Inode) : (s.setInode p ino).mallocOk = s.mallocOk := rfl
@[simp] theorem setInode_mallocCnt (p : Nat) (ino : Inode) : (s.setInode p ino).mallocCnt = s.mallocCnt := rfl
@[simp] theorem setInode_heapJunk (p : Nat) (ino : Inode) : (s.setInode p ino).heapJunk = s.heapJunk := rfl
@[simp] theorem setInode_task (p : Nat) (ino : Inode) : (s.setInode p ino).task = s.task := rfl

@[simp] theorem setFd_ndebug (i : Nat) (fd : FileDesc) : (s.setFd i fd).ndebug = s.ndebug := rfl
@[simp] theorem setFd_disk (i : Nat) (fd : FileDesc) : (s.setFd i fd).disk = s.disk := rfl
@[simp] theorem setFd_part (i : Nat) (fd : FileDesc) : (s.setFd i fd).part = s.part := rfl
@[simp] theorem setFd_inodes (i : Nat) (fd : FileDesc) : (s.setFd i fd).inodes = s.inodes := rfl
@[simp] theorem setFd_nextNode (i : Nat) (fd : FileDesc) : (s.setFd i fd).nextNode = s.nextNode := rfl
@[simp] theorem setFd_fileTable (i : Nat) (fd : FileDesc) : (s.setFd i fd).fileTable = Function.update s.fileTable i fd := rfl
@[simp] theorem setFd_rootInode (i : Nat) (fd : FileDesc) : (s.setFd i fd).rootInode = s.rootInode := rfl
@[simp] theorem setFd_procs (i : Nat) (fd : FileDesc) : (s.setFd i fd).procs = s.procs := rfl
@[simp] theorem setFd_cur (i : Nat) (fd : FileDesc) : (s.setFd i fd).cur = s.cur := rfl
@[simp] theorem setFd_mallocOk (i : Nat) (fd : FileDesc) : (s.setFd i fd).mallocOk = s.mallocOk := rfl
@[simp] theorem setFd_mallocCnt (i : Nat) (fd : FileDesc) : (s.setFd i fd).mallocCnt = s.mallocCnt := rfl
@[simp] theorem setFd_heapJunk (i : Nat) (fd : FileDesc) : (s.setFd i fd).heapJunk = s.heapJunk := rfl
@[simp] theorem setFd_task (i : Nat) (fd : FileDesc) : (s.setFd i fd).task = s.task := rfl

@[simp] theorem setPart_ndebug (p : Partition) : (s.setPart p).ndebug = s.ndebug := rfl
@[simp] theorem setPart_disk (p : Partition) : (s.setPart p).disk = s.disk := rfl
@[simp] theorem setPart_part (p : Partition) : (s.setPart p).part = p := rfl
@[simp] theorem setPart_inodes (p : Partition) : (s.setPart p).inodes = s.inodes := rfl
@[simp] theorem setPart_nextNode (p : Partition) : (s.setPart p).nextNode = s.nextNode := rfl
@[simp] theorem setPart_fileTable (p : Partition) : (s.setPart p).fileTable = s.fileTable := rfl
@[simp] theorem setPart_rootInode (p : Partition) : (s.setPart p).rootInode = s.rootInode := rfl
@[simp] theorem setPart_procs (p : Partition) : (s.setPart p).procs = s.procs := rfl
@[simp] theorem setPart_cur (p : Partition) : (s.setPart p).cur = s.cur := rfl
@[simp] theorem setPart_mallocOk (p : Partition) : (s.setPart p).mallocOk = s.mallocOk := rfl
@[simp] theorem setPart_mallocCnt (p : Partition) : (s.setPart p).mallocCnt = s.mallocCnt := rfl
@[simp] theorem setPart_heapJunk (p : Partition) : (s.setPart p).heapJunk = s.heapJunk := rfl
@[simp] theorem setPart_task (p : Partition) : (s.setPart p).task = s.task := rfl

@[simp] theorem setDisk_ndebug (d : Mem) : (s.setDisk d).ndebug = s.ndebug := rfl
@[simp] theorem setDisk_disk (d : Mem) : (s.setDisk d).disk = d := rfl
@[simp] theorem setDisk_part (d : Mem) : (s.setDisk d).part = s.part := rfl
@[simp] theorem setDisk_inodes (d : Mem) : (s.setDisk d).inodes = s.inodes := rfl
@[simp] theorem setDisk_nextNode (d : Mem) : (s.setDisk d).nextNode = s.nextNode := rfl
@[simp] theorem setDisk_fileTable (d : Mem) : (s.setDisk d).fileTable = s.fileTable := rfl
@[simp] theorem setDisk_rootInode (d : Mem) : (s.setDisk d).rootInode = s.rootInode := rfl
@[simp] theorem setDisk_procs (d : Mem) : (s.setDisk d).procs = s.procs := rfl
@[simp] theorem setDisk_cur (d : Mem) : (s.setDisk d).cur = s.cur := rfl
@[simp] theorem setDisk_mallocOk (d : Mem) : (s.setDisk d).mallocOk = s.mallocOk := rfl
@[simp] theorem setDisk_mallocCnt (d : Mem) : (s.setDisk d).mallocCnt = s.mallocCnt := rfl
@[simp] theorem setDisk_heapJunk (d : Mem) : (s.setDisk d).heapJunk = s.heapJunk := rfl
@[simp] theorem setDisk_task (d : Mem) : (s.setDisk d).task = s.task := rfl
@[simp] theorem newNode_ndebug (ino : Inode) : (s.newNode ino).ndebug = s.ndebug := rfl
@[simp] theorem newNode_disk (ino : Inode) : (s.newNode ino).disk = s.disk := rfl
@[simp] theorem newNode_part (ino : Inode) : (s.newNode ino).part = s.part := rfl
@[simp] theorem newNode_inodes (ino : Inode) : (s.newNode ino).inodes = Function.update s.inodes s.nextNode ino := rfl
@[simp] theorem newNode_nextNode (ino : Inode) : (s.newNode ino).nextNode = s.nextNode + 1 := rfl
@[simp] theorem newNode_fileTable (ino : Inode) : (s.newNode ino).fileTable = s.fileTable := rfl
@[simp] theorem newNode_rootInode (ino : Inode) : (s.newNode ino).rootInode = s.rootInode := rfl
@[simp] theorem newNode_procs (ino : Inode) : (s.newNode ino).procs = s.procs := rfl
@[simp] theorem newNode_cur (ino : Inode) : (s.newNode ino).cur = s.cur := rfl
@[simp] theorem newNode_mallocOk (ino : Inode) : (s.newNode ino).mallocOk = s.mallocOk := rfl
@[simp] theorem newNode_mallocCnt (ino : Inode) : (s.newNode ino).mallocCnt = s.mallocCnt := rfl
@[simp] theorem newNode_heapJunk (ino : Inode) : (s.newNode ino).heapJunk = s.heapJunk := rfl
@[simp] theorem newNode_task (ino : Inode) : (s.newNode ino).task = s.task := rfl

@[simp] theorem countMalloc_ndebug : (s.countMalloc).ndebug = s.ndebug := rfl
@[simp] theorem countMalloc_disk : (s.countMalloc).disk = s.disk := rfl
@[simp] theorem countMalloc_part : (s.countMalloc).part = s.part := rfl
@[simp] theorem countMalloc_inodes : (s.countMalloc).inodes = s.inodes := rfl
@[simp] theorem countMalloc_nextNode : (s.countMalloc).nextNode = s.nextNode := rfl
@[simp] theorem countMalloc_fileTable : (s.countMalloc).fileTable = s.fileTable := rfl
@[simp] theorem countMalloc_rootInode : (s.countMalloc).rootInode = s.rootInode := rfl
@[simp] theorem countMalloc_procs : (s.countMalloc).procs = s.procs := rfl
@[simp] theorem countMalloc_cur : (s.countMalloc).cur = s.cur := rfl
@[simp] theorem countMalloc_mallocOk : (s.countMalloc).mallocOk = s.mallocOk := rfl
@[simp] theorem countMalloc_mallocCnt : (s.countMalloc).mallocCnt = s.mallocCnt + 1 := rfl
@[simp] theorem countMalloc_heapJunk : (s.countMalloc).heapJunk = s.heapJunk := rfl
@[simp] theorem countMalloc_task : (s.countMalloc).task = s.task := rfl

end FsState

/-- `ASSERT(c)` -/
def kassert (s : FsState) (c : Prop) [Decidable c] : Outcome Unit :=
  require (c ∨ s.ndebug = true)

theorem kassert_pos {s : FsState} {c : Prop} [Decidable c] (h : c) :
    kassert s c = .ok () := by
  simp [kassert, h]

theorem kassert_neg {s : FsState} {c : Prop} [Decidable c] (h : ¬ c) (hdebug : s.ndebug = false) :
    kassert s c = .error .assertFailed := by
  simp [kassert, require, h, hdebug]

theorem kassert_eq_ok {s : FsState} {c : Prop} [Decidable c] {u : Unit} :
    kassert s c = .ok u ↔ c ∨ s.ndebug = true := by
  simp [kassert]

/-! ## The heap, as the file system sees it -/

/-- `sys_malloc`; `none` is NULL.  The block is zeroed. -/
def sysMalloc (s : FsState) : Option HeapBlock × FsState :=
  if s.mallocOk s.mallocCnt then
    (some { kernel := s.task.pgdir.isNone, serial := s.mallocCnt }, s.countMalloc)
  else
    (none, s.countMalloc)

/-- `sys_free`: a thread without page directory frees kernel blocks only
    (`ASSERT((uint32_t)ptr >= K_HEAP_START)`). -/
def sysFree (s : FsState) (b : HeapBlock) : Outcome Unit :=
  if s.task.pgdir = none then kassert s (b.kernel = true) else .ok ()

/-- Every request to the heap from here on is served.  With ASSERT compiled in,
    a request of at most 1024 bytes never returns NULL: `bitmap_scan` stops
    the kernel first. -/
def HeapServes (s : FsState) : Prop := ∀ k, s.mallocCnt ≤ k → s.mallocOk k = true

theorem HeapServes.sysMalloc {s : FsState} (h : HeapServes s) :
    sysMalloc s = (some ⟨s.task.pgdir.isNone, s.mallocCnt⟩, s.countMalloc) := by
  rw [Fs.sysMalloc, if_pos (h _ (Nat.le_refl _))]

theorem HeapServes.countMalloc {s : FsState} (h : HeapServes s) : HeapServes s.countMalloc :=
  fun k hk => h k (by simp only [FsState.countMalloc_mallocCnt] at hk; omega)

/-- A block is freed under the page directory it was requested under. -/
theorem sysFree_own {s : FsState} {b : HeapBlock} (h : b.kernel = s.task.pgdir.isNone) :
    sysFree s b = .ok () := by
  unfold sysFree
  split
  · rename_i hnone
    exact kassert_pos (by rw [h, hnone]; rfl)
  · rfl

/-! ## Disk transfers -/

/-- `ide_read(hd, lba, buf + off, sec_cnt)`: the buffer afterwards. -/
def ideRead (s : FsState) (lba : Nat) (buf : Mem) (off secCnt : Nat) : Outcome Mem := do
  kassert s (lba ≤ maxLba)
  kassert s (secCnt > 0)
  .ok (buf.copy off s.disk (lba * 512) (secCnt * 512))

/-- `ide_write(hd, lba, buf + off, sec_cnt)` -/
def ideWrite (s : FsState) (lba : Nat) (buf : Mem) (off secCnt : Nat) : Outcome FsState := do
  kassert s (lba ≤ maxLba)
  kassert s (secCnt > 0)
  .ok (s.setDisk (s.disk.copy (lba * 512) buf off (secCnt * 512)))

/-- `ide_read` of one sector into an array of words, from entry `idx` on. -/
def ideReadWords (s : FsState) (lba : Nat) (arr : Nat → Nat) (idx : Nat) :
    Outcome (Nat → Nat) := do
  kassert s (lba ≤ maxLba)
  .ok (fun k => if idx ≤ k ∧ k < idx + 128 then s.disk.le32 (lba * 512 + 4 * (k - idx)) else arr k)

/-- `ide_write` of one sector from an array of words, from entry `idx` on. -/
def ideWriteWords (s : FsState) (lba : Nat) (arr : Nat → Nat) (idx : Nat) : Outcome FsState :=
  ideWrite s lba (Mem.wordBytes arr) (4 * idx) 1

/-! ## Bitmaps of the partition -/

/-- `bitmap_type_t` -/
inductive BitmapType where
  | inodeBitmap
  | blockBitmap
deriving DecidableEq, Repr

/-- `bitmap_set` on one of the partition's bitmaps.  A bit outside the map is
    a store outside the array. -/
def partBitmapSet (s : FsState) (t : BitmapType) (bitIdx : Nat) (value : Bool) :
    Outcome FsState :=
  match t with
  | .inodeBitmap =>
      if bitIdx < 8 * s.part.inodeBitmap.btmpByteLen then
        .ok (s.setPart { s.part with inodeBitmap := bitmapSet s.part.inodeBitmap bitIdx value })
      else .error .undefined
  | .blockBitmap =>
      if bitIdx < 8 * s.part.blockBitmap.btmpByteLen then
        .ok (s.setPart { s.part with blockBitmap := bitmapSet s.part.blockBitmap bitIdx value })
      else .error .undefined

/-- `inode_bitmap_alloc` -/
def inodeBitmapAlloc (s : FsState) : Outcome (Option Nat × FsState) := do
  let bitIdx ← bitmapScan s.ndebug s.part.inodeBitmap 1
  match bitIdx with
  | none => .ok (none, s)
  | some bitIdx =>
      let s ← partBitmapSet s .inodeBitmap bitIdx true
      .ok (some bitIdx, s)

/-- `block_bitmap_alloc`: the LBA of the block found. -/
def blockBitmapAlloc (s : FsState) : Outcome (Option Nat × FsState) := do
  let bitIdx ← bitmapScan s.ndebug s.part.blockBitmap 1
  match bitIdx with
  | none => .ok (none, s)
  | some bitIdx =>
      let s ← partBitmapSet s .blockBitmap bitIdx true
      .ok (some (s.part.sb.dataStartLba + bitIdx), s)

/-- `bitmap_sync`: writes the sector of the bitmap that holds bit `bitIdx`. -/
def bitmapSync (s : FsState) (bitIdx : Nat) (btmp : BitmapType) : Outcome FsState :=
  let offSec := bitIdx / 4096
  let offSize := offSec * blockSize
  match btmp with
  | .inodeBitmap =>
      ideWrite s (s.part.sb.inodeBitmapLba + offSec) s.part.inodeBitmap.bits offSize 1
  | .blockBitmap =>
      ideWrite s (s.part.sb.blockBitmapLba + offSec) s.part.blockBitmap.bits offSize 1

end Fs
end JackOS
