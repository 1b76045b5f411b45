/-
  JackOS.Fs.Syscall

  `file_create` of fs/file.c and the system calls of fs/fs.c on paths,
  descriptors and directory handles.  A call runs as the thread `cur` of the
  state.
-/

import JackOS.Fs.Format
import JackOS.Fs.Path
import JackOS.Lib.Stdio

namespace JackOS
namespace Fs

open Base

/-! ## Creating a file -/

/-- `cur->pgdir = pgdir` -/
def FsState.setPgdir (s : FsState) (pgdir : Option Nat) : FsState :=
  s.setTask { s.task with pgdir := pgdir }

/-- `rollback` of `file_create` from step 1 on: the inode number is free again,
    in memory. -/
def rollbackInodeNo (inodeNo : Nat) (ioBuf : HeapBlock) (s : FsState) :
    Outcome (Int × FsState) := do
  let s ← partBitmapSet s .inodeBitmap inodeNo false
  sysFree s ioBuf
  .ok (-1, s)

/-- `rollback` of `file_create` from step 2 on: the node is freed too. -/
def rollbackNode (inodeNo : Nat) (node ioBuf : HeapBlock) (s : FsState) :
    Outcome (Int × FsState) := do
  sysFree (s.setPgdir none) node
  rollbackInodeNo inodeNo ioBuf s

/-- `file_create` from the filled descriptor `fdIdx` on. -/
def createInDir (parentDir : Dir) (filename : List UInt8) (inodeNo fdIdx p : Nat)
    (node ioBuf : HeapBlock) (s : FsState) : Outcome (Int × FsState) := do
  let newDirEntry ← createDirEntry s filename inodeNo .regular
  let (synced, s) ← syncDirEntry s parentDir.inode newDirEntry
  if synced = false then
    rollbackNode inodeNo node ioBuf (s.setFd fdIdx { fdPos := 0, fdFlag := 0, fdInode := none })
  else
    let s ← inodeSync s (s.inodes parentDir.inode) Mem.zero
    let s ← inodeSync s (s.inodes p) Mem.zero
    let s ← bitmapSync s inodeNo .inodeBitmap
    let s := s.pushOpen p
    let s := s.setInode p { s.inodes p with iOpenCnt := 1 }
    sysFree s ioBuf
    .ok (pcbFdInstall s fdIdx)

/-- `file_create` from the new inode number on. -/
def createNode (parentDir : Dir) (filename : List UInt8) (flag inodeNo : Nat)
    (ioBuf : HeapBlock) (s : FsState) : Outcome (Int × FsState) :=
  let pgdir := s.task.pgdir
  let (node, s) := sysMalloc (s.setPgdir none)
  match node with
  -- `pgdir` stays NULL here
  | none => rollbackInodeNo inodeNo ioBuf s
  | some node =>
      let p := s.nextNode
      let s := (s.newNode (inodeInit inodeNo)).setPgdir pgdir
      match getFreeSlotInGlobal s with
      | none => rollbackNode inodeNo node ioBuf s
      | some fdIdx =>
          let s := s.setFd fdIdx { fdPos := 0, fdFlag := flag, fdInode := some p }
          let s := s.setInode p { s.inodes p with writeDeny := false }
          createInDir parentDir filename inodeNo fdIdx p node ioBuf s

/-- `file_create` -/
def fileCreate (s : FsState) (parentDir : Dir) (filename : List UInt8) (flag : Nat) :
    Outcome (Int × FsState) :=
  let (ioBuf, s) := sysMalloc s
  match ioBuf with
  | none => .ok (-1, s)
  | some ioBuf => do
      let (inodeNo, s) ← inodeBitmapAlloc s
      match inodeNo with
      | none => .ok (-1, s)
      | some inodeNo => createNode parentDir filename flag inodeNo ioBuf s

/-! ## Messages -/

/-- `kprintf` with strings as its arguments.  Only the messages that need not fit
    its array are here: those with two paths, and the one for a path that was
    never searched. -/
@[irreducible] def kprintStrings (format : String) (args : List (List UInt8)) : Outcome Unit := do
  let _ ← kprintf (literal format ++ [0]) (args.map fun arg => .ptr (arg ++ [0]))
  .ok ()

/-- A message that fits: texts with a string behind each, and a last text. -/
theorem kprintStrings_eq {format : String} (segs : List (List UInt8 × List UInt8))
    (last : List UInt8)
    (hformat : literal format = segs.flatMap (fun seg => seg.1 ++ [37, 115]) ++ last)
    (hplain : Unformatted (segs.flatMap Prod.fst ++ last))
    (hroom : (segs.map fun seg => seg.1.length + seg.2.length).sum + last.length < 1024) :
    kprintStrings format (segs.map Prod.snd) = .ok () := by
  unfold kprintStrings
  rw [hformat, List.map_map, Function.comp_def, kprintf_strings segs last hplain hroom]
  rfl

/-- Every message about the path that also has what was searched of it fits. -/
abbrev Printable (pathname : List UInt8) : Prop := pathname.length ≤ 480

/-! ## sys_open -/

/-- The search did not give what was wanted: `dir_close(parent_dir)`, -1. -/
def refuse (s : FsState) (searchedRecord : PathSearchRecord) : Outcome (Int × FsState) := do
  let s ← dirClose s searchedRecord.parentDir
  .ok (-1, s)

/-- The end of `sys_open`, where the path was searched to its last name: the
    file is created or opened. -/
def openSearched (pathname : List UInt8) (flags : Nat) (inodeNo : Option Nat)
    (searchedRecord : PathSearchRecord) (s : FsState) : Outcome (Int × FsState) :=
  match inodeNo with
  | none =>
      if flags.testBit 2 = false then refuse s searchedRecord
      else
        match baseName pathname with
        | none => .error .undefined
        | some filename => do
            let (fd, s) ← fileCreate s searchedRecord.parentDir filename flags
            let s ← dirClose s searchedRecord.parentDir
            .ok (fd, s)
  | some inodeNo =>
      if flags.testBit 2 then refuse s searchedRecord
      -- the parent directory stays open
      else fileOpen s inodeNo flags

/-- `sys_open` -/
def sysOpen (s : FsState) (pathname : List UInt8) (flags : Nat) : Outcome (Int × FsState) :=
  match pathname.getLast? with
  | none => .error .undefined
  | some c =>
      if c = slash then do
        kprintStrings "sys_open: cannot open a directory %s\n" [pathname]
        .ok (-1, s)
      else do
        kassert s (flags ≤ 7)
        let pathnameDepth ← pathDepthCnt pathname
        let (inodeNo, searchedRecord, s) ← searchFile s pathname
        if searchedRecord.fileType = .directory then refuse s searchedRecord
        else
          let pathSearchedDepth ← pathDepthCnt searchedRecord.searchedPath
          if pathnameDepth ≠ pathSearchedDepth then do
            kprintStrings "Cannot access %s: Not a directory, subpath %s doesn't exist\n"
              [pathname, searchedRecord.searchedPath]
            refuse s searchedRecord
          else openSearched pathname flags inodeNo searchedRecord s

/-! ## sys_close -/

/-- `fd_local2global` -/
def fdLocal2Global (s : FsState) (localFd : Int) : Outcome Nat :=
  if 0 ≤ localFd ∧ localFd < maxFileOpenPerProc then do
    let globalFd := s.task.fdTable localFd.toNat
    kassert s (0 ≤ globalFd ∧ globalFd < maxFileOpen)
    if 0 ≤ globalFd ∧ globalFd < maxFileOpen then .ok globalFd.toNat else .error .undefined
  else .error .undefined

/-- `is_pipe`, of entry `globalFd` of the file table -/
def isPipe (s : FsState) (globalFd : Nat) : Bool := (s.fileTable globalFd).fdFlag == pipeFlag

/-- One user less of a pipe; the last one gives its page back. -/
def pipeClose (s : FsState) (globalFd : Nat) : FsState :=
  let fd := s.fileTable globalFd
  let fdPos := subU32 fd.fdPos 1
  if fdPos = 0 then s.setFd globalFd { fd with fdPos := 0, fdInode := none }
  else s.setFd globalFd { fd with fdPos := fdPos }

/-- The two ways `sys_close` closes entry `globalFd`. -/
def closeGlobal (s : FsState) (globalFd : Nat) : Outcome FsState :=
  if isPipe s globalFd then .ok (pipeClose s globalFd) else fileClose s globalFd

/-- `sys_close` -/
def sysClose (s : FsState) (fd : Int) : Outcome (Int × FsState) :=
  if 2 < fd then do
    let globalFd ← fdLocal2Global s fd
    let s ← closeGlobal s globalFd
    .ok (0, s.setTask { s.task with fdTable := Function.update s.task.fdTable fd.toNat (-1) })
  else .ok (-1, s)

/-! ## sys_write -/

/-- `sys_write`.  `out` is what the console and the pipes do; they are no part
    of this state. -/
def sysWrite (out : FsState → Int → Mem → Nat → Outcome (Int × FsState)) (s : FsState) (fd : Int)
    (buf : Mem) (count : Nat) : Outcome (Int × FsState) :=
  if fd < 0 then .ok (-1, s)
  else do
    let globalFd ← fdLocal2Global s fd
    if fd = 1 ∨ isPipe s globalFd = true then out s fd buf count
    else if wantsWrite (s.fileTable globalFd).fdFlag then fileWrite s globalFd buf count
    else .ok (-1, s)

/-! ## sys_read and sys_lseek -/

/-- `sys_read`, into a buffer that is not NULL.  `inp` is what the keyboard and
    the pipes do. -/
def sysRead (inp : FsState → Int → Mem → Nat → Outcome (Int × Mem × FsState)) (s : FsState)
    (fd : Int) (buf : Mem) (count : Nat) : Outcome (Int × Mem × FsState) :=
  if fd < 0 ∨ fd = 1 ∨ fd = 2 then .ok (-1, buf, s)
  else do
    let globalFd ← fdLocal2Global s fd
    if fd = 0 ∨ isPipe s globalFd = true then inp s fd buf count
    else fileRead s globalFd buf count

/-- The value an `int32_t` keeps of `x`; the sums of `sys_lseek` wrap around. -/
def int32 (x : Int) : Int := Int.bmod x (2 ^ 32)

/-- `new_pos` of `sys_lseek`, with SEEK_SET, SEEK_CUR and SEEK_END. -/
def seekPos (fdPos iSize : Nat) (offset : Int) (whence : Nat) : Int :=
  if whence = 1 then offset
  else if whence = 2 then int32 (int32 fdPos + offset)
  else if whence = 3 then int32 (int32 iSize + offset)
  else 0

/-- `sys_lseek` on entry `globalFd` of the file table, whose inode is in node
    `p`. -/
def seekFile (s : FsState) (globalFd p : Nat) (offset : Int) (whence : Nat) : Int × FsState :=
  let file := s.fileTable globalFd
  let fileSize := (s.inodes p).iSize
  let newPos := seekPos file.fdPos fileSize offset whence
  if newPos < 0 ∨ int32 (int32 fileSize - 1) < newPos then (-1, s)
  else (newPos, s.setFd globalFd { file with fdPos := newPos.toNat })

/-- `sys_lseek` -/
def sysLseek (s : FsState) (fd offset : Int) (whence : Nat) : Outcome (Int × FsState) :=
  if fd < 0 then .ok (-1, s)
  else do
    kassert s (0 < whence ∧ whence < 4)
    let globalFd ← fdLocal2Global s fd
    match (s.fileTable globalFd).fdInode with
    | none => .error .undefined
    | some p =>
        -- the queue of a pipe is not an inode
        if isPipe s globalFd then .error .undefined
        else .ok (seekFile s globalFd p offset whence)

/-! ## Files and directories by path -/

/-- The loop of `sys_unlink` over the file table: an entry of the inode. -/
def isOpenInTable (s : FsState) (inodeNo : Nat) : Bool :=
  (List.range maxFileOpen).any fun i =>
    match (s.fileTable i).fdInode with
    | none => false
    | some p => (s.inodes p).iNo == inodeNo

/-- `sys_unlink` from the test of the file table on. -/
def unlinkFile (parentDir : Dir) (inodeNo : Nat) (s : FsState) : Outcome (Int × FsState) :=
  if isOpenInTable s inodeNo then do
    let s ← dirClose s parentDir
    .ok (-1, s)
  else
    let (ioBuf, s) := sysMalloc s
    match ioBuf with
    | none => do
        let s ← dirClose s parentDir
        .ok (-1, s)
    | some ioBuf => do
        let (_, s) ← deleteDirEntry s parentDir.inode inodeNo
        let s ← inodeRelease s inodeNo
        sysFree s ioBuf
        let s ← dirClose s parentDir
        .ok (0, s)

/-- `sys_unlink` -/
def sysUnlink (s : FsState) (pathname : List UInt8) : Outcome (Int × FsState) := do
  kassert s (pathname.length < maxPathLen)
  let (inodeNo, searchedRecord, s) ← searchFile s pathname
  kassert s (inodeNo ≠ some 0)
  match inodeNo with
  | none => refuse s searchedRecord
  | some inodeNo =>
      if searchedRecord.fileType = .directory then refuse s searchedRecord
      else unlinkFile searchedRecord.parentDir inodeNo s

/-- `rollback` of `sys_mkdir` from step 1 on. -/
def mkdirFail (parentDir : Dir) (ioBuf : HeapBlock) (s : FsState) : Outcome (Int × FsState) := do
  let s ← dirClose s parentDir
  sysFree s ioBuf
  .ok (-1, s)

/-- `rollback` of `sys_mkdir` from step 2 on. -/
def mkdirFailInode (parentDir : Dir) (inodeNo : Nat) (ioBuf : HeapBlock) (s : FsState) :
    Outcome (Int × FsState) := do
  let s ← partBitmapSet s .inodeBitmap inodeNo false
  mkdirFail parentDir ioBuf s

/-- `sys_mkdir` from the first block `blockLba` of the new directory on.  The
    inode bitmap is not written back. -/
def mkdirInBlock (parentDir : Dir) (dirname : List UInt8) (inodeNo blockLba : Nat)
    (ioBuf : HeapBlock) (s : FsState) : Outcome (Int × FsState) := do
  let blockBitmapIdx := subU32 blockLba s.part.sb.dataStartLba
  kassert s (blockBitmapIdx ≠ 0)
  let s ← bitmapSync s blockBitmapIdx .blockBitmap
  let newDirInode :=
    { inodeInit inodeNo with
      iSize := u32 (2 * s.part.sb.dirEntrySize)
      iSectors := Function.update (inodeInit inodeNo).iSectors 0 blockLba }
  let s ← ideWrite s blockLba (dotEntries inodeNo (s.inodes parentDir.inode).iNo) 0 1
  let newDe ← createDirEntry s dirname inodeNo .directory
  let (synced, s) ← syncDirEntry s parentDir.inode newDe
  if synced = false then mkdirFailInode parentDir inodeNo ioBuf s
  else
    let s ← inodeSync s (s.inodes parentDir.inode) Mem.zero
    let s ← inodeSync s newDirInode Mem.zero
    sysFree s ioBuf
    let s ← dirClose s parentDir
    .ok (0, s)

/-- `sys_mkdir` from the allocation of the inode on. -/
def mkdirInode (parentDir : Dir) (dirname : List UInt8) (ioBuf : HeapBlock) (s : FsState) :
    Outcome (Int × FsState) := do
  let (inodeNo, s) ← inodeBitmapAlloc s
  match inodeNo with
  | none => mkdirFail parentDir ioBuf s
  | some inodeNo =>
      let (blockLba, s) ← blockBitmapAlloc s
      match blockLba with
      | none => mkdirFailInode parentDir inodeNo ioBuf s
      | some blockLba => mkdirInBlock parentDir dirname inodeNo blockLba ioBuf s

/-- `sys_mkdir` -/
def sysMkdir (s : FsState) (pathname : List UInt8) : Outcome (Int × FsState) :=
  let (ioBuf, s) := sysMalloc s
  match ioBuf with
  | none => .ok (-1, s)
  | some ioBuf => do
      let (inodeNo, searchedRecord, s) ← searchFile s pathname
      match inodeNo with
      | some _ => mkdirFail searchedRecord.parentDir ioBuf s
      | none =>
          let pathnameDepth ← pathDepthCnt pathname
          let pathSearchedDepth ← pathDepthCnt searchedRecord.searchedPath
          if pathnameDepth ≠ pathSearchedDepth then do
            kprintStrings "sys_mkdir: cannot access %s, parent directory %s not exists!\n"
              [pathname, searchedRecord.searchedPath]
            mkdirFail searchedRecord.parentDir ioBuf s
          else
            match baseName searchedRecord.searchedPath with
            | none => .error .undefined
            | some dirname => mkdirInode searchedRecord.parentDir dirname ioBuf s

/-- `sys_opendir`; `none` is NULL. -/
def sysOpendir (s : FsState) (pathname : List UInt8) : Outcome (Option Dir × FsState) := do
  kassert s (pathname.length < maxPathLen)
  if pathname = [slash] then .ok (some s.rootDir, s)
  else
    let (inodeNo, searchedRecord, s) ← searchFile s pathname
    match inodeNo with
    | none =>
        let s ← dirClose s searchedRecord.parentDir
        .ok (none, s)
    | some inodeNo =>
        if searchedRecord.fileType = .directory then
          let (dir, s) ← dirOpen s inodeNo
          let s ← dirClose s searchedRecord.parentDir
          .ok (some dir, s)
        else
          let s ← dirClose s searchedRecord.parentDir
          .ok (none, s)

/-- `sys_closedir` -/
def sysClosedir (s : FsState) (dir : Option Dir) : Outcome (Int × FsState) :=
  match dir with
  | none => .ok (-1, s)
  | some dir => do
      let s ← dirClose s dir
      .ok (0, s)

/-- `sys_rmdir` removes the directory if it is empty. -/
def removeIfEmpty (s : FsState) (parentDir dir : Dir) : Outcome (Bool × FsState) :=
  if dirIsEmpty s dir then dirRemove s parentDir dir else .ok (false, s)

/-- `sys_rmdir` of the directory `dir`, which is open. -/
def rmdirOpened (parentDir dir : Dir) (s : FsState) : Outcome (Int × FsState) := do
  let (removed, s) ← removeIfEmpty s parentDir dir
  let s ← dirClose s dir
  let s ← dirClose s parentDir
  .ok (if removed then 0 else -1, s)

/-- `sys_rmdir` -/
def sysRmdir (s : FsState) (pathname : List UInt8) : Outcome (Int × FsState) := do
  let (inodeNo, searchedRecord, s) ← searchFile s pathname
  kassert s (inodeNo ≠ some 0)
  match inodeNo with
  | none => do
      kprintStrings "%s: In %s, subpath %s not exists!\n"
        [literal "sys_rmdir", pathname, searchedRecord.searchedPath]
      refuse s searchedRecord
  | some inodeNo =>
      if searchedRecord.fileType = .regular then refuse s searchedRecord
      else
        let (dir, s) ← dirOpen s inodeNo
        rmdirOpened searchedRecord.parentDir dir s

/-- `sys_chdir` -/
def sysChdir (s : FsState) (path : List UInt8) : Outcome (Int × FsState) := do
  let (inodeNo, searchedRecord, s) ← searchFile s path
  match inodeNo with
  | none => refuse s searchedRecord
  | some inodeNo =>
      if searchedRecord.fileType = .directory then
        let s ← dirClose (s.setTask { s.task with cwdInodeNo := inodeNo }) searchedRecord.parentDir
        .ok (0, s)
      else refuse s searchedRecord

/-- `stat_t` -/
structure Stat where
  stIno : Nat
  stSize : Nat
  stFiletype : FileType

/-- `sys_stat`; the search goes on when the path is the root's. -/
def sysStat (s : FsState) (path : List UInt8) (buf : Stat) : Outcome (Int × Stat × FsState) := do
  let buf : Stat :=
    if isRootPath path then ⟨0, (s.inodes s.rootInode).iSize, .directory⟩ else buf
  let (inodeNo, searchedRecord, s) ← searchFile s path
  match inodeNo with
  | none =>
      let s ← dirClose s searchedRecord.parentDir
      .ok (-1, buf, s)
  | some inodeNo =>
      let (p, s) ← inodeOpen s inodeNo
      let stSize := (s.inodes p).iSize
      let s ← dirClose (inodeClose s p) searchedRecord.parentDir
      .ok (0, ⟨inodeNo, stSize, searchedRecord.fileType⟩, s)

/-! ## Processes -/

/-- Thread `t` runs. -/
def FsState.runAs (s : FsState) (t : Nat) : FsState := { s with cur := t }

end Fs
end JackOS
