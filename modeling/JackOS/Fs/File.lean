/-
  JackOS.Fs.File

  fs/file.c without file_create: the two descriptor tables, opening and
  closing, and file_write and file_read with the block map they build in
  `all_blocks_lba` before they move any data.
-/

import JackOS.Fs.Inode

namespace JackOS
namespace Fs

open Base

/-! ## Descriptor tables -/

/-- `get_free_slot_in_global`: the first slot from 3 on whose inode is NULL. -/
def getFreeSlotInGlobal (s : FsState) : Option Nat :=
  (List.range' 3 (maxFileOpen - 3)).find? (fun i => (s.fileTable i).fdInode.isNone)

/-- The first entry from 3 on of the process's table that is -1. -/
def freeLocalFd (t : Task) : Option Nat :=
  (List.range' 3 (maxFileOpenPerProc - 3)).find? (fun i => t.fdTable i = -1)

/-- `pcb_fd_install` -/
def pcbFdInstall (s : FsState) (globalFdIdx : Int) : Int × FsState :=
  match freeLocalFd s.task with
  | none => (-1, s)
  | some i =>
      (i, s.setTask { s.task with fdTable := Function.update s.task.fdTable i globalFdIdx })

/-! ## Opening and closing -/

/-- `flag & O_WRONLY || flag & O_RDWD` -/
def wantsWrite (flag : Nat) : Bool := flag.testBit 0 || flag.testBit 1

/-- `file_open` -/
def fileOpen (s : FsState) (inodeNo flag : Nat) : Outcome (Int × FsState) :=
  match getFreeSlotInGlobal s with
  | none => .ok (-1, s)
  | some fdIdx => do
      let (p, s) ← inodeOpen s inodeNo
      let s := s.setFd fdIdx { fdPos := 0, fdFlag := flag, fdInode := some p }
      if wantsWrite flag then
        if (s.inodes p).writeDeny then
          .ok (-1, s)
        else
          .ok (pcbFdInstall (s.setInode p { s.inodes p with writeDeny := true }) fdIdx)
      else
        .ok (pcbFdInstall s fdIdx)

/-- `file_close`, on slot `fdIdx` of the global table -/
def fileClose (s : FsState) (fdIdx : Nat) : Outcome FsState :=
  match (s.fileTable fdIdx).fdInode with
  | none => .error .undefined
  | some p =>
      let s := s.setInode p { s.inodes p with writeDeny := false }
      let s := inodeClose s p
      .ok (s.setFd fdIdx { s.fileTable fdIdx with fdInode := none })

/-! ## Writing -/

/-- `max_byts` -/
abbrev maxFileBytes : Nat := (12 + 512 / 4) * blockSize

/-- `i_sectors[j] = lba`; an index past the array is a wild store. -/
def setSector (s : FsState) (p j lba : Nat) : Outcome FsState :=
  if j < 13 then
    .ok (s.setInode p ((s.inodes p).withSectors (Function.update (s.inodes p).iSectors j lba)))
  else .error .undefined

/-- `ASSERT(i_sectors[block_idx] == 0); i_sectors[block_idx] = block_lba`, when
    the block is to be recorded. -/
def recordBlock (record : Bool) (p blockIdx lba : Nat) (s : FsState) : Outcome FsState :=
  if record then do
    kassert s ((s.inodes p).iSectors blockIdx = 0)
    setSector s p blockIdx lba
  else .ok s

/-- `all_blocks_lba[idx]`: the array has 140 entries. -/
def blockEntry (all : Nat → Nat) (idx : Nat) : Outcome Nat :=
  if idx < 140 then .ok (all idx) else .error .undefined

/-- One round of the three loops of `file_write` that allocate blocks: block
    `blockIdx` gets a new LBA in `all_blocks_lba`, and in `i_sectors` too when
    `record` says so.  `none` stands for an allocation that failed. -/
def allocBlock (record : Nat → Bool) (p blockIdx : Nat) (all : Nat → Nat) (s : FsState) :
    Outcome (Option (Nat → Nat) × FsState) := do
  let (lba, s) ← blockBitmapAlloc s
  match lba with
  | none => .ok (none, s)
  | some lba =>
      let s ← recordBlock (record lba) p blockIdx lba s
      let s ← bitmapSync s (subU32 lba s.part.sb.dataStartLba) .blockBitmap
      .ok (some (Function.update all blockIdx lba), s)

/-- `while (block_idx < file_will_use_blocks)`, with `left` blocks to go. -/
def allocBlocks (record : Nat → Bool) (p : Nat) :
    (left blockIdx : Nat) → (Nat → Nat) → FsState → Outcome (Option (Nat → Nat) × FsState)
  | 0, _, all, s => .ok (some all, s)
  | left + 1, blockIdx, all, s => do
      let (all, s) ← allocBlock record p blockIdx all s
      match all with
      | none => .ok (none, s)
      | some all => allocBlocks record p left (blockIdx + 1) all s

/-- The block a file gets at its first write. -/
def firstBlock (p : Nat) (s : FsState) : Outcome (Bool × FsState) :=
  if (s.inodes p).iSectors 0 = 0 then do
    let (lba, s) ← blockBitmapAlloc s
    match lba with
    | none => .ok (false, s)
    | some lba =>
        let s ← setSector s p 0 lba
        let blockBitmapIdx := subU32 lba s.part.sb.dataStartLba
        kassert s (blockBitmapIdx ≠ 0)
        let s ← bitmapSync s blockBitmapIdx .blockBitmap
        .ok (true, s)
  else .ok (true, s)

/-- `add_blocks == 0`: everything goes into the last block. -/
def mapSameBlock (p used will : Nat) (all : Nat → Nat) (s : FsState) : Outcome (Nat → Nat) :=
  let ino := s.inodes p
  if will ≤ 12 then
    .ok (Function.update all (used - 1) (ino.iSectors (used - 1)))
  else do
    kassert s (ino.iSectors 12 ≠ 0)
    ideReadWords s (ino.iSectors 12) all 12

/-- Situation 1: all new blocks are direct ones. -/
def mapDirect (p used will : Nat) (all : Nat → Nat) (s : FsState) :
    Outcome (Option (Nat → Nat) × FsState) := do
  let ino := s.inodes p
  kassert s (ino.iSectors (used - 1) ≠ 0)
  let all := Function.update all (used - 1) (ino.iSectors (used - 1))
  allocBlocks (fun _ => true) p (will - used) used all s

/-- Situation 2: the write reaches the indirect blocks, whose table is
    allocated here.  A new block is recorded in `i_sectors` when its LBA, not
    its index, is below 12. -/
def mapCrossing (p used will : Nat) (all : Nat → Nat) (s : FsState) :
    Outcome (Option (Nat → Nat) × FsState) := do
  let all := Function.update all (used - 1) ((s.inodes p).iSectors (used - 1))
  let (table, s) ← blockBitmapAlloc s
  match table with
  | none => .ok (none, s)
  | some table =>
      kassert s ((s.inodes p).iSectors 12 = 0)
      let s ← setSector s p 12 table
      let (all, s) ← allocBlocks (fun lba => lba < 12) p (will - used) used all s
      match all with
      | none => .ok (none, s)
      | some all =>
          let s ← ideWriteWords s table all 12
          .ok (some all, s)

/-- Situation 3: all new blocks are entries of the indirect table. -/
def mapIndirect (p used will : Nat) (all : Nat → Nat) (s : FsState) :
    Outcome (Option (Nat → Nat) × FsState) := do
  let table := (s.inodes p).iSectors 12
  kassert s (table ≠ 0)
  let all ← ideReadWords s table all 12
  let (all, s) ← allocBlocks (fun _ => false) p (will - used) used all s
  match all with
  | none => .ok (none, s)
  | some all =>
      let s ← ideWriteWords s table all 12
      .ok (some all, s)

/-- The construction of `all_blocks_lba`, which starts out zeroed. -/
def mapBlocks (p used will : Nat) (s : FsState) : Outcome (Option (Nat → Nat) × FsState) :=
  let all : Nat → Nat := fun _ => 0
  if will = used then do
    let all ← mapSameBlock p used will all s
    .ok (some all, s)
  else if will ≤ 12 then mapDirect p used will all s
  else if used ≤ 12 then mapCrossing p used will all s
  else mapIndirect p used will all s

/-- `io_buf` before the new bytes go in: only the first block written is read
    from the disk. -/
def firstBlockBytes (s : FsState) (firstWriteBlock : Bool) (secLba : Nat) : Outcome Mem :=
  if firstWriteBlock then ideRead s secLba Mem.zero 0 1 else .ok Mem.zero

/-- `while (bytes_written < count)`: at most `fuel` rounds, each of which
    writes the rest of the block the file ends in. -/
def writeLoop (fdIdx p : Nat) (all : Nat → Nat) (src : Mem) :
    (fuel bytesWritten sizeLeft : Nat) → (firstWriteBlock : Bool) → FsState → Outcome FsState
  | fuel, bytesWritten, sizeLeft, firstWriteBlock, s =>
      if sizeLeft = 0 then .ok s
      else
        match fuel with
        | 0 => .error .diverges
        | fuel + 1 => do
            let ino := s.inodes p
            let secLba ← blockEntry all (ino.iSize / blockSize)
            let secOffBytes := ino.iSize % blockSize
            let secLeftBytes := blockSize - secOffBytes
            let chunkSize := min sizeLeft secLeftBytes
            let ioBuf ← firstBlockBytes s firstWriteBlock secLba
            let s ← ideWrite s secLba (ioBuf.copy secOffBytes src bytesWritten chunkSize) 0 1
            let s := s.setInode p ((s.inodes p).withSize (u32 ((s.inodes p).iSize + chunkSize)))
            let fd := s.fileTable fdIdx
            let s := s.setFd fdIdx { fd with fdPos := u32 (fd.fdPos + chunkSize) }
            writeLoop fdIdx p all src fuel (bytesWritten + chunkSize) (sizeLeft - chunkSize) false s

/-- The end of `file_write`: the inode goes to the disk if there is a buffer for it. -/
def syncFileInode (s : FsState) (p : Nat) : Outcome FsState :=
  let (inodeBuf, s) := sysMalloc s
  match inodeBuf with
  | none => .ok s
  | some inodeBuf => do
      let s ← inodeSync s (s.inodes p) Mem.zero
      sysFree s inodeBuf
      .ok s

/-- `file_write`, on slot `fdIdx` of the global table.  The buffers come from
    `sys_malloc`, which zeroes them. -/
def fileWrite (s : FsState) (fdIdx : Nat) (buf : Mem) (count : Nat) :
    Outcome (Int × FsState) :=
  match (s.fileTable fdIdx).fdInode with
  | none => .error .undefined
  | some p =>
      if u32 ((s.inodes p).iSize + count) > maxFileBytes then .ok (-1, s)
      else
        let (ioBuf, s) := sysMalloc s
        match ioBuf with
        | none => .ok (-1, s)
        | some ioBuf =>
            let (allBlocksLba, s) := sysMalloc s
            match allBlocksLba with
            | none => .ok (-1, s)
            | some allBlocksLba => do
                let (ok, s) ← firstBlock p s
                if ok = false then .ok (-1, s)
                else
                  let iSize := (s.inodes p).iSize
                  let used := iSize / blockSize + 1
                  let will := u32 (iSize + count) / blockSize + 1
                  kassert s (will ≤ 140)
                  let (all, s) ← mapBlocks p used will s
                  match all with
                  | none => .ok (-1, s)
                  | some all =>
                      let s := s.setFd fdIdx
                        { s.fileTable fdIdx with fdPos := subU32 (s.inodes p).iSize 1 }
                      let s ← writeLoop fdIdx p all buf count 0 count true s
                      let s ← syncFileInode s p
                      sysFree s allBlocksLba
                      sysFree s ioBuf
                      .ok (count, s)

/-! ## Reading -/

/-- The two ways `file_read` fills `all_blocks_lba` for blocks `start..last`:
    direct entries up to but not including `stop`. -/
def copyDirect (ino : Inode) (start stop : Nat) (all : Nat → Nat) : Nat → Nat :=
  fun k => if start ≤ k ∧ k < stop then ino.iSectors k else all k

/-- The construction of `all_blocks_lba` in `file_read`. -/
def mapForRead (s : FsState) (ino : Inode) (start last : Nat) : Outcome (Nat → Nat) :=
  let all : Nat → Nat := fun _ => 0
  if last = start then
    if last < 12 then .ok (copyDirect ino last (last + 1) all)
    else ideReadWords s (ino.iSectors 12) all 12
  else if last ≤ 12 then
    -- inclusive bound: for last = 12 this copies the table's own LBA
    .ok (copyDirect ino start (last + 1) all)
  else if start < 12 then do
    let all := copyDirect ino start 12 all
    kassert s (ino.iSectors 12 ≠ 0)
    ideReadWords s (ino.iSectors 12) all 12
  else
    -- no branch of the source covers 12 ≤ start < last
    .ok all

/-- `while (bytes_read < size)`, at most `fuel` rounds: the destination buffer
    and the descriptor's position afterwards. -/
def readLoop (s : FsState) (all : Nat → Nat) :
    (fuel bytesRead sizeLeft fdPos : Nat) → (dst : Mem) → Outcome (Mem × Nat)
  | fuel, bytesRead, sizeLeft, fdPos, dst =>
      if sizeLeft = 0 then .ok (dst, fdPos)
      else
        match fuel with
        | 0 => .error .diverges
        | fuel + 1 => do
            let secLba ← blockEntry all (fdPos / blockSize)
            let secOffBytes := fdPos % blockSize
            let secLeftBytes := blockSize - secOffBytes
            let chunkSize := min sizeLeft secLeftBytes
            let ioBuf ← ideRead s secLba Mem.zero 0 1
            readLoop s all fuel (bytesRead + chunkSize) (sizeLeft - chunkSize)
              (u32 (fdPos + chunkSize)) (dst.copy bytesRead ioBuf secOffBytes chunkSize)

/-- The number of bytes `file_read` is going to read. -/
def readSize (fdPos iSize count : Nat) : Nat :=
  if u32 (fdPos + count) > iSize then subU32 iSize fdPos else count

/-- `file_read`, on slot `fdIdx` of the global table: the value returned, the
    buffer afterwards and the state afterwards. -/
def fileRead (s : FsState) (fdIdx : Nat) (buf : Mem) (count : Nat) :
    Outcome (Int × Mem × FsState) :=
  match (s.fileTable fdIdx).fdInode with
  | none => .error .undefined
  | some p =>
      let ino := s.inodes p
      let fdPos := (s.fileTable fdIdx).fdPos
      let size := readSize fdPos ino.iSize count
      if u32 (fdPos + count) > ino.iSize ∧ size = 0 then .ok (-1, buf, s)
      else
        let (ioBuf, s) := sysMalloc s
        match ioBuf with
        | none => .ok (-1, buf, s)
        | some ioBuf =>
            let (allBlocksLba, s) := sysMalloc s
            match allBlocksLba with
            | none => .ok (-1, buf, s)
            | some allBlocksLba => do
                let start := fdPos / blockSize
                let last := u32 (fdPos + size) / blockSize
                kassert s (start < 139 ∧ last < 139)
                let all ← mapForRead s ino start last
                let (dst, fdPos) ← readLoop s all size 0 size fdPos buf
                let s := s.setFd fdIdx { s.fileTable fdIdx with fdPos := fdPos }
                sysFree s allBlocksLba
                sysFree s ioBuf
                .ok (size, dst, s)

end Fs
end JackOS
