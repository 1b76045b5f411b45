/-
  JackOS.Fs.Dir

  fs/dir.c: directories as sequences of 24-byte entries in the blocks of an
  inode, opening and closing them, and looking up, adding and deleting an
  entry.  `dir_entry_size` of the superblock is `sizeof(dir_entry_t)` on every
  partition that `partition_format` made.
-/

import JackOS.Fs.File

namespace JackOS
namespace Fs

open Base

/-! ## Entries -/

/-- `sizeof(dir_entry_t)` -/
abbrev dirEntryBytes : Nat := 24

/-- The two words behind the name. -/
def DirEntry.word (de : DirEntry) (k : Nat) : Nat := if k = 4 then de.iNo else de.fType

/-- The bytes of a `dir_entry_t`. -/
def DirEntry.bytes (de : DirEntry) : Mem :=
  fun a => if a < 16 then de.filename a else Mem.wordBytes de.word a

/-- The `dir_entry_t` whose bytes start at `m + off`. -/
def DirEntry.ofBytes (m : Mem) (off : Nat) : DirEntry where
  filename := fun k => m (off + k)
  iNo := m.le32 (off + 16)
  fType := m.le32 (off + 20)

/-- `!strcmp(m + off, str)`, for a string without the NUL that ends it. -/
def strEq (m : Mem) : (off : Nat) → (str : List UInt8) → Bool
  | off, [] => m off == 0
  | off, c :: str => m off == c && strEq m (off + 1) str

/-- `"."` and `".."` -/
abbrev dot : List UInt8 := [46]
abbrev dotDot : List UInt8 := [46, 46]

/-- `SECTOR_SIZE / dir_entry_size` -/
def FsState.dirEntryPerSec (s : FsState) : Nat := blockSize / s.part.sb.dirEntrySize

/-- `create_dir_entry`, on an entry that is all zero. -/
def createDirEntry (s : FsState) (filename : List UInt8) (inodeNo : Nat) (fileType : FileType) :
    Outcome DirEntry := do
  kassert s (filename.length ≤ maxFileNameLen)
  if filename.length ≤ dirEntryBytes then
    .ok { filename := fun k => filename.getD k 0, iNo := inodeNo, fType := fileType.toWord }
  else .error .undefined

/-! ## Opening and closing -/

/-- `&root_dir` -/
def FsState.rootDir (s : FsState) : Dir := { inode := s.rootInode, dirPos := 0, block := none }

/-- `dir_open` -/
def dirOpen (s : FsState) (inodeNo : Nat) : Outcome (Dir × FsState) :=
  let (block, s) := sysMalloc s
  match block with
  | none => .error .undefined
  | some block => do
      let (p, s) ← inodeOpen s inodeNo
      .ok ({ inode := p, dirPos := 0, block := some block }, s)

/-- `dir_close` -/
def dirClose (s : FsState) (dir : Dir) : Outcome FsState :=
  match dir.block with
  | none => .ok s
  | some block => do
      let s := inodeClose s dir.inode
      sysFree s block
      .ok s

/-! ## Looking up -/

/-- The 140 entries of `all_blocks_lba`. -/
def allBlocks (s : FsState) (ino : Inode) : Outcome (Nat → Nat) :=
  if ino.iSectors 12 ≠ 0 then ideReadWords s (ino.iSectors 12) (directBlocks ino) 12
  else .ok (directBlocks ino)

/-- The first entry of the sector with this name. -/
def findName (s : FsState) (buf : Mem) (name : List UInt8) : Option Nat :=
  (List.range s.dirEntryPerSec).find? fun i => strEq buf (dirEntryBytes * i) name

/-- The loop of `search_dir_entry`, with `left` blocks to go. -/
def searchBlocks (s : FsState) (all : Nat → Nat) (name : List UInt8) :
    (left blockIdx : Nat) → Outcome (Option DirEntry)
  | 0, _ => .ok none
  | left + 1, blockIdx =>
      if all blockIdx = 0 then searchBlocks s all name left (blockIdx + 1)
      else do
        let buf ← ideRead s (all blockIdx) Mem.zero 0 1
        match findName s buf name with
        | some i => .ok (some (DirEntry.ofBytes buf (dirEntryBytes * i)))
        | none => searchBlocks s all name left (blockIdx + 1)

/-- `search_dir_entry` in the directory whose node is `p`. -/
def searchDirEntry (s : FsState) (p : Nat) (name : List UInt8) :
    Outcome (Option DirEntry × FsState) :=
  let (allBlocksLba, s) := sysMalloc s
  match allBlocksLba with
  -- the block is cleared before it is tested
  | none => .error .undefined
  | some allBlocksLba => do
      let all ← allBlocks s (s.inodes p)
      let (buf, s) := sysMalloc s
      match buf with
      | none => .error .undefined
      | some buf =>
          let dirE ← searchBlocks s all name 140 0
          sysFree s buf
          sysFree s allBlocksLba
          .ok (dirE, s)

/-! ## Adding an entry -/

/-- The new data block of a directory gets its first entry. -/
def writeFirstEntry (p : Nat) (de : DirEntry) (lba : Nat) (s : FsState) :
    Outcome (Bool × FsState) := do
  let size := s.part.sb.dirEntrySize
  let s ← ideWrite s lba (Mem.zero.copy 0 de.bytes 0 size) 0 1
  .ok (true, s.setInode p ((s.inodes p).withSize (u32 ((s.inodes p).iSize + size))))

/-- The first block behind a new indirect table: the table is `lba`.  It is
    given back in memory when there is no block for the data. -/
def syncFirstIndirect (p : Nat) (de : DirEntry) (lba : Nat) (all : Nat → Nat) (s : FsState) :
    Outcome (Bool × FsState) := do
  let s ← setSector s p 12 lba
  let (data, s) ← blockBitmapAlloc s
  match data with
  | none =>
      let blockBitmapIdx := subU32 ((s.inodes p).iSectors 12) s.part.sb.dataStartLba
      let s ← partBitmapSet s .blockBitmap blockBitmapIdx false
      let s ← setSector s p 12 0
      .ok (false, s)
  | some data =>
      let blockBitmapIdx := subU32 data s.part.sb.dataStartLba
      kassert s (blockBitmapIdx ≠ 2 ^ 32 - 1)
      let s ← bitmapSync s blockBitmapIdx .blockBitmap
      let s ← ideWriteWords s ((s.inodes p).iSectors 12) (Function.update all 12 data) 12
      writeFirstEntry p de data s

/-- The case of `sync_dir_entry` where block `blockIdx` is not there yet. -/
def syncNewBlock (p : Nat) (de : DirEntry) (blockIdx : Nat) (all : Nat → Nat) (s : FsState) :
    Outcome (Bool × FsState) := do
  let (lba, s) ← blockBitmapAlloc s
  match lba with
  | none => .ok (false, s)
  | some lba =>
      let blockBitmapIdx := subU32 lba s.part.sb.dataStartLba
      kassert s (blockBitmapIdx ≠ 2 ^ 32 - 1)
      let s ← bitmapSync s blockBitmapIdx .blockBitmap
      if blockIdx < 12 then
        let s ← setSector s p blockIdx lba
        writeFirstEntry p de lba s
      else if blockIdx = 12 then syncFirstIndirect p de lba all s
      else
        let s ← ideWriteWords s ((s.inodes p).iSectors 12) (Function.update all blockIdx lba) 12
        writeFirstEntry p de lba s

/-- The first free entry of the sector. -/
def findFree (s : FsState) (buf : Mem) : Option Nat :=
  (List.range s.dirEntryPerSec).find? fun i =>
    (DirEntry.ofBytes buf (dirEntryBytes * i)).fType = FileType.unknow.toWord

/-- The loop of `sync_dir_entry`, with `left` blocks to go. -/
def syncBlocks (p : Nat) (de : DirEntry) (all : Nat → Nat) :
    (left blockIdx : Nat) → FsState → Outcome (Bool × FsState)
  | 0, _, s => .ok (false, s)
  | left + 1, blockIdx, s =>
      if all blockIdx = 0 then syncNewBlock p de blockIdx all s
      else do
        let buf ← ideRead s (all blockIdx) Mem.zero 0 1
        match findFree s buf with
        | some i =>
            let size := s.part.sb.dirEntrySize
            let s ← ideWrite s (all blockIdx) (buf.copy (dirEntryBytes * i) de.bytes 0 size) 0 1
            .ok (true, s.setInode p ((s.inodes p).withSize (u32 ((s.inodes p).iSize + size))))
        | none => syncBlocks p de all left (blockIdx + 1) s

/-- `sync_dir_entry` in the directory whose node is `p`.  Of `all_blocks_lba`
    only the direct blocks are filled in. -/
def syncDirEntry (s : FsState) (p : Nat) (de : DirEntry) : Outcome (Bool × FsState) := do
  kassert s ((s.inodes p).iSize % s.part.sb.dirEntrySize = 0)
  syncBlocks p de (directBlocks (s.inodes p)) 140 0 s

/-! ## Deleting an entry -/

/-- The inner loop of `delete_dir_entry`, with `left` entries to go: how many
    entries it counted, whether it met ".", and the entry it found. -/
def scanEntries (buf : Mem) (inodeNo : Nat) :
    (left idx cnt : Nat) → (first : Bool) → Nat × Bool × Option Nat
  | 0, _, cnt, first => (cnt, first, none)
  | left + 1, idx, cnt, first =>
      let de := DirEntry.ofBytes buf (dirEntryBytes * idx)
      if de.fType = FileType.unknow.toWord then scanEntries buf inodeNo left (idx + 1) cnt first
      else if strEq buf (dirEntryBytes * idx) dot then
        scanEntries buf inodeNo left (idx + 1) cnt true
      else if strEq buf (dirEntryBytes * idx) dotDot then
        scanEntries buf inodeNo left (idx + 1) cnt first
      else if de.iNo = inodeNo then (cnt + 1, first, some idx)
      else scanEntries buf inodeNo left (idx + 1) (cnt + 1) first

/-- An entry of the indirect table goes away.  The loop that counts the entries
    stands still at the first one that is 0, and counts none. -/
def dropIndirect (p : Nat) (all : Nat → Nat) (s : FsState) : Outcome FsState :=
  if ∃ k ∈ List.range' 12 128, all k = 0 then .error .diverges
  else do
    kassert s False
    let blockBitmapIdx := subU32 ((s.inodes p).iSectors 12) s.part.sb.dataStartLba
    let s ← partBitmapSet s .blockBitmap blockBitmapIdx false
    let s ← bitmapSync s blockBitmapIdx .blockBitmap
    setSector s p 12 0

/-- The block that held the deleted entry only goes away; its bit is computed
    from `block_bitmap_lba`. -/
def dropBlock (p : Nat) (all : Nat → Nat) (blockIdx : Nat) (s : FsState) : Outcome FsState := do
  let blockBitmapIdx := subU32 (all blockIdx) s.part.sb.blockBitmapLba
  let s ← partBitmapSet s .blockBitmap blockBitmapIdx false
  let s ← bitmapSync s blockBitmapIdx .blockBitmap
  if blockIdx < 12 then setSector s p blockIdx 0 else dropIndirect p all s

/-- Entry `i` of block `blockIdx` goes, with its block if it is the only one
    there; `buf` holds the block. -/
def clearEntry (p : Nat) (all : Nat → Nat) (blockIdx cnt : Nat) (first : Bool) (buf : Mem)
    (i : Nat) (s : FsState) : Outcome FsState :=
  if cnt = 1 ∧ first = false then dropBlock p all blockIdx s
  else ideWrite s (all blockIdx) (buf.fill (dirEntryBytes * i) 0 s.part.sb.dirEntrySize) 0 1

/-- What `delete_dir_entry` does once it has found entry `i` of block
    `blockIdx`. -/
def removeEntry (p : Nat) (all : Nat → Nat) (blockIdx cnt : Nat) (first : Bool) (buf : Mem)
    (i : Nat) (s : FsState) : Outcome FsState := do
  kassert s (1 ≤ cnt)
  let size := s.part.sb.dirEntrySize
  let s ← clearEntry p all blockIdx cnt first buf i s
  kassert s (size ≤ (s.inodes p).iSize)
  let s := s.setInode p ((s.inodes p).withSize (subU32 (s.inodes p).iSize size))
  inodeSync s (s.inodes p) Mem.zero

/-- The loop of `delete_dir_entry`, with `left` blocks to go. -/
def deleteBlocks (p inodeNo : Nat) (all : Nat → Nat) :
    (left blockIdx : Nat) → FsState → Outcome (Bool × FsState)
  | 0, _, s => .ok (false, s)
  | left + 1, blockIdx, s =>
      if all blockIdx = 0 then deleteBlocks p inodeNo all left (blockIdx + 1) s
      else do
        let buf ← ideRead s (all blockIdx) Mem.zero 0 1
        match scanEntries buf inodeNo s.dirEntryPerSec 0 0 false with
        | (cnt, first, some i) =>
            let s ← removeEntry p all blockIdx cnt first buf i s
            .ok (true, s)
        | (_, _, none) => deleteBlocks p inodeNo all left (blockIdx + 1) s

/-- `delete_dir_entry` in the directory whose node is `p`. -/
def deleteDirEntry (s : FsState) (p inodeNo : Nat) : Outcome (Bool × FsState) := do
  let all ← allBlocks s (s.inodes p)
  deleteBlocks p inodeNo all 140 0 s

/-! ## Removing a directory -/

/-- `dir_is_empty` -/
def dirIsEmpty (s : FsState) (dir : Dir) : Bool :=
  (s.inodes dir.inode).iSize == s.part.sb.dirEntrySize * 2

/-- `dir_remove`: whether it succeeded. -/
def dirRemove (s : FsState) (parentDir childDir : Dir) : Outcome (Bool × FsState) := do
  kassert s (∀ k ∈ List.range' 1 11, (s.inodes childDir.inode).iSectors k = 0)
  let (ioBuf, s) := sysMalloc s
  match ioBuf with
  | none => .ok (false, s)
  | some ioBuf =>
      let (_, s) ← deleteDirEntry s parentDir.inode (s.inodes childDir.inode).iNo
      let s ← inodeRelease s (s.inodes childDir.inode).iNo
      sysFree s ioBuf
      .ok (true, s)

end Fs
end JackOS
