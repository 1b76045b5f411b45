/-
  JackOS.Fs.OpenCut

  `sys_open` on a file that exists, cut at the disk waits of `ide_read`, where
  other processes run.  The functions are those of Fs.Dir, Fs.Path, Fs.File and
  Fs.Syscall with a wait before each read; where nobody else runs they are the
  same (`sysOpenCut_alone`).  While a call waits, its `OpenPoint` says what it goes
  on with.
-/

import JackOS.Base.Cut
import JackOS.Fs.Syscall

namespace JackOS
namespace Fs

open Base

/-! ## Points and events -/

/-- The variables of a `sys_open` that waits, and what is left of one that has
    ended. -/
structure OpenPoint where
  /-- the node of the `dir_t` that it has open, and the node's number -/
  dir : Option (Nat × Nat) := none
  /-- the slot that `file_open` has found -/
  slot : Option Nat := none
  /-- the number that `inode_open` has not found among the open inodes -/
  iNo : Option Nat := none
  /-- the process and its new descriptor, and the inode's number -/
  got : Option (Nat × Nat × Nat) := none
deriving DecidableEq

/-- What a `sys_open` does that others may have done and not yet finished. -/
inductive OpenEvent where
  /-- `get_free_slot_in_global` finds a slot for `file_open` -/
  | picksSlot
  /-- `inode_open` does not find the number among the open inodes -/
  | misses (inodeNo : Nat)

/-- A computation of `sys_open`. -/
abbrev OpenCut := Cut OpenPoint OpenEvent FsState

/-- The point of a call that has the directory open. -/
def Dir.point (s : FsState) (dir : Dir) : OpenPoint where
  dir := dir.block.map fun _ => (dir.inode, (s.inodes dir.inode).iNo)

/-! ## Reading -/

/-- `ide_read`, which waits for the disk. -/
def ideReadCut (point : OpenPoint) (s : FsState) (lba : Nat) (buf : Mem) (off secCnt : Nat) :
    OpenCut (Mem × FsState) :=
  .wait point s fun s => do
    let buf ← .lift (ideRead s lba buf off secCnt)
    return (buf, s)

/-- `ide_read` into an array of words. -/
def ideReadWordsCut (point : OpenPoint) (s : FsState) (lba : Nat) (arr : Nat → Nat) (idx : Nat) :
    OpenCut ((Nat → Nat) × FsState) :=
  .wait point s fun s => do
    let arr ← .lift (ideReadWords s lba arr idx)
    return (arr, s)

/-- What `inode_open` reads from the disk. -/
def loadInodeCut (point : OpenPoint) (s : FsState) (inodeNo : Nat) (junk : Mem) :
    OpenCut (Inode × FsState) := do
  let pos ← .lift (inodeLocate s inodeNo)
  let (buf, s) ← ideReadCut point s pos.secLba
    (fun a => if a < pos.sectors * 512 then 0 else junk (a - pos.sectors * 512)) 0 pos.sectors
  return (Inode.ofBytes buf pos.offSize, s)

/-- The 140 entries of `all_blocks_lba`. -/
def allBlocksCut (point : OpenPoint) (s : FsState) (ino : Inode) :
    OpenCut ((Nat → Nat) × FsState) :=
  if ino.iSectors 12 ≠ 0 then
    ideReadWordsCut point s (ino.iSectors 12) (directBlocks ino) 12
  else return (directBlocks ino, s)

/-- The loop of `search_dir_entry`. -/
def searchBlocksCut (point : OpenPoint) (all : Nat → Nat) (name : List UInt8) :
    (left blockIdx : Nat) → FsState → OpenCut (Option DirEntry × FsState)
  | 0, _, s => return (none, s)
  | left + 1, blockIdx, s =>
      if all blockIdx = 0 then searchBlocksCut point all name left (blockIdx + 1) s
      else do
        let (buf, s) ← ideReadCut point s (all blockIdx) Mem.zero 0 1
        match findName s buf name with
        | some i => return (some (DirEntry.ofBytes buf (dirEntryBytes * i)), s)
        | none => searchBlocksCut point all name left (blockIdx + 1) s

/-! ## Nodes and directories -/

/-- `inode_open` -/
def inodeOpenCut (point : OpenPoint) (s : FsState) (inodeNo : Nat) : OpenCut (Nat × FsState) :=
  match findOpen s inodeNo with
  | some p =>
      let ino := s.inodes p
      return (p, s.setInode p { ino with iOpenCnt := u32 (ino.iOpenCnt + 1) })
  | none => .note (.misses inodeNo) do
      let (node, s) := sysMalloc s
      let (inodeBuf, s) := sysMalloc s
      match node, inodeBuf with
      | some _, some inodeBuf => do
          let (ino, s) ← loadInodeCut { point with iNo := some inodeNo } s inodeNo
            (s.heapJunk inodeBuf.serial)
          .lift (sysFree s inodeBuf)
          return (s.nextNode, (s.newNode { ino with iOpenCnt := 1 }).pushOpen s.nextNode)
      | _, _ => .fail .undefined

/-- `dir_open` -/
def dirOpenCut (point : OpenPoint) (s : FsState) (inodeNo : Nat) : OpenCut (Dir × FsState) :=
  let (block, s) := sysMalloc s
  match block with
  | none => .fail .undefined
  | some block => do
      let (p, s) ← inodeOpenCut point s inodeNo
      return ({ inode := p, dirPos := 0, block := some block }, s)

/-- `search_dir_entry` -/
def searchDirEntryCut (point : OpenPoint) (s : FsState) (p : Nat) (name : List UInt8) :
    OpenCut (Option DirEntry × FsState) :=
  let (allBlocksLba, s) := sysMalloc s
  match allBlocksLba with
  | none => .fail .undefined
  | some allBlocksLba => do
      let (all, s) ← allBlocksCut point s (s.inodes p)
      let (buf, s) := sysMalloc s
      match buf with
      | none => .fail .undefined
      | some buf =>
          let (dirE, s) ← searchBlocksCut point all name 140 0 s
          .lift (sysFree s buf)
          .lift (sysFree s allBlocksLba)
          return (dirE, s)

/-! ## search_file -/

/-- The end of `search_file`. -/
def searchEndCut (parentDir : Dir) (parentInodeNo : Nat) (dirE : Option DirEntry)
    (searchedPath : List UInt8) (s : FsState) :
    OpenCut (Option Nat × PathSearchRecord × FsState) := do
  let s ← .lift (dirClose s parentDir)
  let (parentDir, s) ← dirOpenCut {} s parentInodeNo
  match dirE with
  | none => .fail .undefined
  | some dirE => return (inodeNoAsInt dirE.iNo, ⟨searchedPath, parentDir, .directory⟩, s)

/-- The loop of `search_file`, at most `fuel` rounds. -/
def searchLoopCut : (fuel : Nat) → (name : List UInt8) → (subPath : Option (List UInt8)) →
    (parentDir : Dir) → (parentInodeNo : Nat) → (dirE : Option DirEntry) →
    (searchedPath : List UInt8) → FsState → OpenCut (Option Nat × PathSearchRecord × FsState)
  | fuel, name, subPath, parentDir, parentInodeNo, dirE, searchedPath, s =>
      if name = [] then searchEndCut parentDir parentInodeNo dirE searchedPath s
      else
        match fuel with
        | 0 => .fail .diverges
        | fuel + 1 => do
            .lift (kassert s (searchedPath.length < maxPathLen))
            let searchedPath ← .lift (appendName searchedPath name)
            let (found, s) ← searchDirEntryCut (parentDir.point s) s parentDir.inode name
            match found with
            | none => return (none, ⟨searchedPath, parentDir, .unknow⟩, s)
            | some de =>
                let (name, subPath) ← .lift (parseNext subPath)
                if de.fType = FileType.directory.toWord then
                  let parentInodeNo := (s.inodes parentDir.inode).iNo
                  let s ← .lift (dirClose s parentDir)
                  let (parentDir, s) ← dirOpenCut {} s de.iNo
                  searchLoopCut fuel name subPath parentDir parentInodeNo (some de) searchedPath s
                else if de.fType = FileType.regular.toWord then
                  return (inodeNoAsInt de.iNo, ⟨searchedPath, parentDir, .regular⟩, s)
                else
                  searchLoopCut fuel name subPath parentDir parentInodeNo (some de) searchedPath s

/-- `search_file` -/
def searchFileCut (s : FsState) (pathname : List UInt8) :
    OpenCut (Option Nat × PathSearchRecord × FsState) :=
  if isRootPath pathname then return (some 0, ⟨[], s.rootDir, .directory⟩, s)
  else do
    .lift (kassert s (pathname.head? = some slash ∧ 1 < pathname.length
      ∧ pathname.length < maxPathLen))
    let (name, subPath) ← .lift (parseName pathname)
    searchLoopCut (pathname.length + 1) name subPath s.rootDir 0 none [] s

/-! ## sys_open -/

/-- What a `sys_open` gives: the descriptor.  The rest is no value of the source
    but says what the call leaves behind, the parent directory that stays open
    and the number of the inode that it opened. -/
structure Opened where
  fd : Int
  dir : Option (Nat × Nat) := none
  iNo : Nat := 0
deriving DecidableEq

/-- `file_open` -/
def fileOpenCut (point : OpenPoint) (s : FsState) (inodeNo flag : Nat) : OpenCut (Int × FsState) :=
  match getFreeSlotInGlobal s with
  | none => return (-1, s)
  | some fdIdx => .note .picksSlot do
      let (p, s) ← inodeOpenCut { point with slot := some fdIdx } s inodeNo
      let s := s.setFd fdIdx { fdPos := 0, fdFlag := flag, fdInode := some p }
      if wantsWrite flag then
        if (s.inodes p).writeDeny then
          return (-1, s)
        else
          return pcbFdInstall (s.setInode p { s.inodes p with writeDeny := true }) fdIdx
      else
        return pcbFdInstall s fdIdx

/-- `dir_close(parent_dir)`, -1. -/
def refuseCut (s : FsState) (searchedRecord : PathSearchRecord) : OpenCut (Opened × FsState) := do
  let s ← .lift (dirClose s searchedRecord.parentDir)
  return ({ fd := -1 }, s)

/-- The end of `sys_open`.  `file_create` is not cut: a call that may create a
    file is no part of a run. -/
def openSearchedCut (pathname : List UInt8) (flags : Nat) (inodeNo : Option Nat)
    (searchedRecord : PathSearchRecord) (s : FsState) : OpenCut (Opened × FsState) :=
  match inodeNo with
  | none =>
      if flags.testBit 2 = false then refuseCut s searchedRecord
      else
        match baseName pathname with
        | none => .fail .undefined
        | some filename => do
            let (fd, s) ← .lift (fileCreate s searchedRecord.parentDir filename flags)
            let s ← .lift (dirClose s searchedRecord.parentDir)
            return ({ fd := fd }, s)
  | some inodeNo =>
      if flags.testBit 2 then refuseCut s searchedRecord
      else do
        -- the parent directory stays open
        let point := searchedRecord.parentDir.point s
        let (fd, s) ← fileOpenCut point s inodeNo flags
        return ({ fd := fd, dir := point.dir, iNo := inodeNo }, s)

/-- `sys_open` -/
def sysOpenCut (pathname : List UInt8) (flags : Nat) (s : FsState) :
    OpenCut (Opened × FsState) :=
  match pathname.getLast? with
  | none => .fail .undefined
  | some c =>
      if c = slash then do
        .lift (kprintStrings "sys_open: cannot open a directory %s\n" [pathname])
        return ({ fd := -1 }, s)
      else do
        .lift (kassert s (flags ≤ 7))
        let pathnameDepth ← .lift (pathDepthCnt pathname)
        let (inodeNo, searchedRecord, s) ← searchFileCut s pathname
        if searchedRecord.fileType = .directory then refuseCut s searchedRecord
        else
          let pathSearchedDepth ← .lift (pathDepthCnt searchedRecord.searchedPath)
          if pathnameDepth ≠ pathSearchedDepth then do
            .lift (kprintStrings "Cannot access %s: Not a directory, subpath %s doesn't exist\n"
              [pathname, searchedRecord.searchedPath])
            refuseCut s searchedRecord
          else openSearchedCut pathname flags inodeNo searchedRecord s

/-! ## Alone -/

variable {s : FsState} {point : OpenPoint}

@[simp] theorem pure_alone {α : Type} (a : α) : (pure a : OpenCut α).alone = .ok a := rfl

@[simp] theorem ideReadCut_alone (lba : Nat) (buf : Mem) (off secCnt : Nat) :
    (ideReadCut point s lba buf off secCnt).alone
      = (ideRead s lba buf off secCnt).map fun buf => (buf, s) := by
  unfold ideReadCut
  rw [Cut.alone_wait, Cut.alone_bind, Cut.alone_lift]
  rfl

@[simp] theorem loadInodeCut_alone (inodeNo : Nat) (junk : Mem) :
    (loadInodeCut point s inodeNo junk).alone
      = (loadInode s inodeNo junk).map fun ino => (ino, s) := by
  unfold loadInodeCut loadInode
  rw [Cut.alone_bind, Cut.alone_lift]
  cases inodeLocate s inodeNo with
  | error e => rfl
  | ok pos =>
      rw [Outcome.ok_bind, Outcome.ok_bind, Cut.alone_bind, ideReadCut_alone]
      cases ideRead s pos.secLba _ 0 pos.sectors <;> rfl

@[simp] theorem allBlocksCut_alone (ino : Inode) :
    (allBlocksCut point s ino).alone = (allBlocks s ino).map fun all => (all, s) := by
  unfold allBlocksCut allBlocks
  split
  · unfold ideReadWordsCut
    rw [Cut.alone_wait, Cut.alone_bind, Cut.alone_lift]
    rfl
  · rfl

@[simp] theorem searchBlocksCut_alone (all : Nat → Nat) (name : List UInt8) (left k : Nat) :
    (searchBlocksCut point all name left k s).alone
      = (searchBlocks s all name left k).map fun r => (r, s) := by
  induction left generalizing k with
  | zero => rfl
  | succ left ih =>
      rw [searchBlocksCut, searchBlocks]
      split
      · exact ih (k + 1)
      · rw [Cut.alone_bind, ideReadCut_alone]
        cases ideRead s (all k) Mem.zero 0 1 with
        | error e => rfl
        | ok buf =>
            change Cut.alone (match findName s buf name with
              | some i => _
              | none => _) = Except.map _ (match findName s buf name with
              | some i => _
              | none => _)
            cases findName s buf name with
            | some i => rfl
            | none => exact ih (k + 1)

@[simp] theorem inodeOpenCut_alone (inodeNo : Nat) :
    (inodeOpenCut point s inodeNo).alone = inodeOpen s inodeNo := by
  unfold inodeOpenCut inodeOpen
  cases findOpen s inodeNo with
  | some p => rfl
  | none =>
      rw [Cut.alone_note]
      dsimp only
      cases (sysMalloc s).1 with
      | none => rfl
      | some node =>
        cases (sysMalloc (sysMalloc s).2).1 with
        | none => rfl
        | some inodeBuf =>
          dsimp only
          rw [Cut.alone_bind, loadInodeCut_alone]
          cases loadInode _ inodeNo _ with
          | error e => rfl
          | ok ino =>
              change Cut.alone (Cut.lift _ >>= _) = _
              rw [Cut.alone_bind, Cut.alone_lift]
              rfl

@[simp] theorem dirOpenCut_alone (inodeNo : Nat) :
    (dirOpenCut point s inodeNo).alone = dirOpen s inodeNo := by
  unfold dirOpenCut dirOpen
  dsimp only
  cases (sysMalloc s).1 with
  | none => rfl
  | some block =>
      dsimp only
      rw [Cut.alone_bind, inodeOpenCut_alone]
      rfl

@[simp] theorem searchDirEntryCut_alone (p : Nat) (name : List UInt8) :
    (searchDirEntryCut point s p name).alone = searchDirEntry s p name := by
  unfold searchDirEntryCut searchDirEntry
  dsimp only
  cases (sysMalloc s).1 with
  | none => rfl
  | some allBlocksLba =>
      dsimp only
      rw [Cut.alone_bind, allBlocksCut_alone]
      cases allBlocks (sysMalloc s).2 _ with
      | error e => rfl
      | ok all =>
          change Cut.alone (match (sysMalloc (sysMalloc s).2).1 with
            | none => _
            | some buf => _) = match (sysMalloc (sysMalloc s).2).1 with
            | none => _
            | some buf => _
          cases (sysMalloc (sysMalloc s).2).1 with
          | none => rfl
          | some buf =>
              dsimp only
              rw [Cut.alone_bind, searchBlocksCut_alone]
              cases searchBlocks (sysMalloc (sysMalloc s).2).2 all name 140 0 with
              | error e => rfl
              | ok dirE =>
                  change Cut.alone (Cut.lift _ >>= fun _ => Cut.lift _ >>= _) = _
                  rw [Cut.alone_bind, Cut.alone_lift]
                  refine congrArg (Bind.bind _) (funext fun _ => ?_)
                  rw [Cut.alone_bind, Cut.alone_lift]
                  rfl

@[simp] theorem searchEndCut_alone (parentDir : Dir) (parentInodeNo : Nat)
    (dirE : Option DirEntry) (searchedPath : List UInt8) :
    (searchEndCut parentDir parentInodeNo dirE searchedPath s).alone
      = searchEnd parentDir parentInodeNo dirE searchedPath s := by
  unfold searchEndCut searchEnd
  rw [Cut.alone_bind, Cut.alone_lift]
  refine congrArg (Bind.bind _) (funext fun s₁ => ?_)
  rw [Cut.alone_bind, dirOpenCut_alone]
  cases dirE <;> rfl

/-- The loop goes through the same rounds. -/
@[simp] theorem searchLoopCut_alone (fuel : Nat) (name : List UInt8)
    (subPath : Option (List UInt8)) (parentDir : Dir) (parentInodeNo : Nat)
    (dirE : Option DirEntry) (searchedPath : List UInt8) :
    (searchLoopCut fuel name subPath parentDir parentInodeNo dirE searchedPath s).alone
      = searchLoop fuel name subPath parentDir parentInodeNo dirE searchedPath s := by
  induction fuel generalizing name subPath parentDir parentInodeNo dirE searchedPath s with
  | zero =>
      rw [searchLoopCut, searchLoop]
      split
      · exact searchEndCut_alone ..
      · rfl
  | succ fuel ih =>
      rw [searchLoopCut, searchLoop]
      split
      · exact searchEndCut_alone ..
      · dsimp only
        rw [Cut.alone_bind, Cut.alone_lift]
        refine congrArg (Bind.bind _) (funext fun _ => ?_)
        rw [Cut.alone_bind, Cut.alone_lift]
        refine congrArg (Bind.bind _) (funext fun path => ?_)
        rw [Cut.alone_bind, searchDirEntryCut_alone]
        refine congrArg (Bind.bind _) (funext fun r => ?_)
        obtain ⟨found, s₁⟩ := r
        cases found with
        | none => rfl
        | some de =>
            dsimp only
            rw [Cut.alone_bind, Cut.alone_lift]
            refine congrArg (Bind.bind _) (funext fun r => ?_)
            obtain ⟨name', subPath'⟩ := r
            dsimp only
            split
            · rw [Cut.alone_bind, Cut.alone_lift]
              refine congrArg (Bind.bind _) (funext fun s₂ => ?_)
              rw [Cut.alone_bind, dirOpenCut_alone]
              refine congrArg (Bind.bind _) (funext fun r => ?_)
              exact ih ..
            · split
              · rfl
              · exact ih ..

@[simp] theorem searchFileCut_alone (pathname : List UInt8) :
    (searchFileCut s pathname).alone = searchFile s pathname := by
  unfold searchFileCut searchFile
  split
  · rfl
  · rw [Cut.alone_bind, Cut.alone_lift]
    refine congrArg (Bind.bind _) (funext fun _ => ?_)
    rw [Cut.alone_bind, Cut.alone_lift]
    refine congrArg (Bind.bind _) (funext fun r => ?_)
    exact searchLoopCut_alone ..

@[simp] theorem fileOpenCut_alone (inodeNo flag : Nat) :
    (fileOpenCut point s inodeNo flag).alone = fileOpen s inodeNo flag := by
  unfold fileOpenCut fileOpen
  cases getFreeSlotInGlobal s with
  | none => rfl
  | some fdIdx =>
      dsimp only
      rw [Cut.alone_note, Cut.alone_bind, inodeOpenCut_alone]
      refine congrArg (Bind.bind _) (funext fun r => ?_)
      split
      · split <;> rfl
      · rfl

/-- The descriptor that the call returns. -/
def Opened.result (r : Opened × FsState) : Int × FsState := (r.1.fd, r.2)

@[simp] theorem refuseCut_alone (searchedRecord : PathSearchRecord) :
    (refuseCut s searchedRecord).alone.map Opened.result = refuse s searchedRecord := by
  unfold refuseCut refuse
  rw [Cut.alone_bind, Cut.alone_lift]
  cases dirClose s searchedRecord.parentDir <;> rfl

theorem openSearchedCut_alone (pathname : List UInt8) (flags : Nat) (inodeNo : Option Nat)
    (searchedRecord : PathSearchRecord) :
    (openSearchedCut pathname flags inodeNo searchedRecord s).alone.map Opened.result
      = openSearched pathname flags inodeNo searchedRecord s := by
  unfold openSearchedCut openSearched
  cases inodeNo with
  | none =>
      dsimp only
      split
      · exact refuseCut_alone _
      · cases baseName pathname with
        | none => rfl
        | some filename =>
            dsimp only
            rw [Cut.alone_bind, Cut.alone_lift]
            cases fileCreate s searchedRecord.parentDir filename flags with
            | error e => rfl
            | ok r =>
                rw [Outcome.ok_bind, Outcome.ok_bind, Cut.alone_bind, Cut.alone_lift]
                cases dirClose r.2 searchedRecord.parentDir <;> rfl
  | some inodeNo =>
      dsimp only
      split
      · exact refuseCut_alone _
      · rw [Cut.alone_bind, fileOpenCut_alone]
        cases fileOpen s inodeNo flags <;> rfl

/-- Where nobody else runs, the call is that of `sysOpen`. -/
theorem sysOpenCut_alone (pathname : List UInt8) (flags : Nat) :
    (sysOpenCut pathname flags s).alone.map Opened.result = sysOpen s pathname flags := by
  unfold sysOpenCut sysOpen
  cases pathname.getLast? with
  | none => rfl
  | some c =>
      dsimp only
      split
      · rw [Cut.alone_bind, Cut.alone_lift]
        cases kprintStrings "sys_open: cannot open a directory %s\n" [pathname] <;> rfl
      · rw [Cut.alone_bind, Cut.alone_lift]
        cases kassert s (flags ≤ 7) with
        | error e => rfl
        | ok _ =>
            rw [Outcome.ok_bind, Outcome.ok_bind, Cut.alone_bind, Cut.alone_lift]
            cases pathDepthCnt pathname with
            | error e => rfl
            | ok depth =>
                rw [Outcome.ok_bind, Outcome.ok_bind, Cut.alone_bind, searchFileCut_alone]
                cases searchFile s pathname with
                | error e => rfl
                | ok r =>
                    obtain ⟨inodeNo, record, s₁⟩ := r
                    rw [Outcome.ok_bind, Outcome.ok_bind]
                    dsimp only
                    split
                    · exact refuseCut_alone _
                    · rw [Cut.alone_bind, Cut.alone_lift]
                      cases pathDepthCnt record.searchedPath with
                      | error e => rfl
                      | ok depth' =>
                          rw [Outcome.ok_bind, Outcome.ok_bind]
                          split
                          · rw [Cut.alone_bind, Cut.alone_lift]
                            cases kprintStrings
                              "Cannot access %s: Not a directory, subpath %s doesn't exist\n"
                              [pathname, record.searchedPath] with
                            | error e => rfl
                            | ok _ => exact refuseCut_alone _
                          · exact openSearchedCut_alone ..

end Fs
end JackOS
