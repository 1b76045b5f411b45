/-
  JackOS.Fs.Format

  `partition_format`, `mount_partition` and `filesys_init` of fs/fs.c, for the
  partition that gets mounted.  The padding of the superblock is written as
  zero.
-/

import JackOS.Fs.Dir

namespace JackOS
namespace Fs

open Base

/-! ## The superblock on disk -/

/-- The words of a `super_block_t` in memory order. -/
def SuperBlock.words (sb : SuperBlock) : List Nat :=
  [sb.magic, sb.secCnt, sb.inodeCnt, sb.partitionLbaBase, sb.blockBitmapLba, sb.blockBitmapSects,
    sb.inodeBitmapLba, sb.inodeBitmapSects, sb.inodeTableLba, sb.inodeTableSects, sb.dataStartLba,
    sb.rootInodeNo, sb.dirEntrySize]

def SuperBlock.bytes (sb : SuperBlock) : Mem := Mem.wordBytes fun k => sb.words.getD k 0

/-- The `super_block_t` whose bytes start at `m + off`. -/
def SuperBlock.ofBytes (m : Mem) (off : Nat) : SuperBlock where
  magic := m.le32 off
  secCnt := m.le32 (off + 4)
  inodeCnt := m.le32 (off + 8)
  partitionLbaBase := m.le32 (off + 12)
  blockBitmapLba := m.le32 (off + 16)
  blockBitmapSects := m.le32 (off + 20)
  inodeBitmapLba := m.le32 (off + 24)
  inodeBitmapSects := m.le32 (off + 28)
  inodeTableLba := m.le32 (off + 32)
  inodeTableSects := m.le32 (off + 36)
  dataStartLba := m.le32 (off + 40)
  rootInodeNo := m.le32 (off + 44)
  dirEntrySize := m.le32 (off + 48)

/-- The magic number of the file system. -/
abbrev fsMagic : Nat := 0x20010107

/-! ## Formatting -/

/-- `DIV_CEILING` on `uint32_t`. -/
def divCeiling (x step : Nat) : Nat := u32 (x + step - 1) / step

/-- `inode_table_sects` -/
def inodeTableSectors : Nat := divCeiling (inodeSize * 4096) blockSize

/-- `free_sects`: one sector each for the boot block, the superblock and the
    inode bitmap are used. -/
def freeSects (secCnt : Nat) : Nat := subU32 secCnt (1 + 1 + 1 + inodeTableSectors)

/-- `block_bitmap_bit_len` -/
def blockBitmapBitLen (secCnt : Nat) : Nat :=
  subU32 (freeSects secCnt) (divCeiling (freeSects secCnt) 4096)

/-- The superblock `partition_format` makes. -/
def newSuperBlock (startLba secCnt : Nat) : SuperBlock :=
  let blockBitmapSects := divCeiling (blockBitmapBitLen secCnt) 4096
  let blockBitmapLba := u32 (startLba + 2)
  let inodeBitmapLba := u32 (blockBitmapLba + blockBitmapSects)
  let inodeTableLba := u32 (inodeBitmapLba + 1)
  { magic := fsMagic
    secCnt := secCnt
    inodeCnt := 4096
    partitionLbaBase := startLba
    blockBitmapLba := blockBitmapLba
    blockBitmapSects := blockBitmapSects
    inodeBitmapLba := inodeBitmapLba
    inodeBitmapSects := 1
    inodeTableLba := inodeTableLba
    inodeTableSects := inodeTableSectors
    dataStartLba := u32 (inodeTableLba + inodeTableSectors)
    rootInodeNo := 0
    dirEntrySize := dirEntryBytes }

/-- `buf[byte] &= ~(1 << bit_idx)` for the bits `0..lastBit`. -/
def clearLowBits (v : UInt8) (lastBit : Nat) : UInt8 :=
  (List.range (lastBit + 1)).foldl (fun v bitIdx => v &&& ~~~ (1 <<< UInt8.ofNat bitIdx)) v

/-- The block bitmap as it is first written: block 0 is the root directory's,
    and the bits behind the last block of the partition are set. -/
def newBlockBitmap (secCnt : Nat) : Mem :=
  let lastByte := blockBitmapBitLen secCnt / 8
  let lastBit := blockBitmapBitLen secCnt % 8
  let buf := Mem.zero.store8 0 1
  let buf := buf.fill lastByte 0xFF (blockSize - lastByte % blockSize)
  buf.store8 lastByte (clearLowBits (buf lastByte) lastBit)

/-- The root directory's inode. -/
def rootDirInode (sb : SuperBlock) : Inode :=
  { inodeInit 0 with
    iSize := sb.dirEntrySize * 2
    iSectors := Function.update (inodeInit 0).iSectors 0 sb.dataStartLba }

/-- The first block of a new directory: "." and "..". -/
def dotEntries (inodeNo parentInodeNo : Nat) : Mem :=
  let entry (name : List UInt8) (iNo : Nat) : DirEntry :=
    { filename := fun k => name.getD k 0, iNo := iNo, fType := FileType.directory.toWord }
  (Mem.zero.copy 0 (entry dot inodeNo).bytes 0 dirEntryBytes).copy dirEntryBytes
    (entry dotDot parentInodeNo).bytes 0 dirEntryBytes

/-- `partition_format` -/
def partitionFormat (s : FsState) : Outcome FsState := do
  let sb := newSuperBlock s.part.startLba s.part.secCnt
  let s ← ideWrite s (u32 (s.part.startLba + 1)) sb.bytes 0 1
  let (buf, s) := sysMalloc s
  match buf with
  | none => .error .undefined
  | some buf =>
      let s ← ideWrite s sb.blockBitmapLba (newBlockBitmap s.part.secCnt) 0 sb.blockBitmapSects
      let s ← ideWrite s sb.inodeBitmapLba (Mem.zero.store8 0 1) 0 sb.inodeBitmapSects
      let s ← ideWrite s sb.inodeTableLba (Mem.zero.copy 0 (rootDirInode sb).bytes 0 inodeSize) 0
        sb.inodeTableSects
      let s ← ideWrite s sb.dataStartLba (dotEntries 0 0) 0 1
      sysFree s buf
      .ok s

/-! ## Mounting -/

/-- A bitmap loaded from `sects` sectors. -/
def loadBitmap (s : FsState) (lba sects : Nat) : Outcome Bitmap := do
  let bits ← ideRead s lba Mem.zero 0 sects
  .ok ⟨sects * blockSize, bits⟩

/-- `sys_malloc`, where the kernel stops if it gives NULL. -/
def mustMalloc (s : FsState) : Outcome (HeapBlock × FsState) :=
  match sysMalloc s with
  | (none, _) => .error .assertFailed
  | (some block, s) => .ok (block, s)

/-- `mount_partition`, of the partition that is wanted. -/
def mountPartition (s : FsState) : Outcome FsState := do
  let (sbBuf, s) := sysMalloc s
  let (_, s) ← mustMalloc s
  match sbBuf with
  | none => .error .undefined
  | some sbBuf =>
      let buf ← ideRead s (u32 (s.part.startLba + 1)) Mem.zero 0 1
      let sb := SuperBlock.ofBytes buf 0
      let (_, s) ← mustMalloc s
      let blockBitmap ← loadBitmap s sb.blockBitmapLba sb.blockBitmapSects
      let (_, s) ← mustMalloc s
      let inodeBitmap ← loadBitmap s sb.inodeBitmapLba sb.inodeBitmapSects
      sysFree s sbBuf
      .ok (s.setPart
        { s.part with
          sb := sb, blockBitmap := blockBitmap, inodeBitmap := inodeBitmap, openInodes := [] })

/-- The partition is formatted unless a file system is there. -/
def formatIfNeeded (s : FsState) : Outcome FsState := do
  let sbBuf ← ideRead s (u32 (s.part.startLba + 1)) Mem.zero 0 1
  if sbBuf.le32 0 = fsMagic then .ok s else partitionFormat s

/-- `open_root_dir` -/
def openRootDir (s : FsState) : Outcome FsState := do
  let (p, s) ← inodeOpen s s.part.sb.rootInodeNo
  .ok { s with rootInode := p }

/-- `filesys_init`: the file table is cleared but for the flags. -/
def filesysInit (s : FsState) : Outcome FsState := do
  let (sbBuf, s) ← mustMalloc s
  let s ← formatIfNeeded s
  sysFree s sbBuf
  let s ← mountPartition s
  let s ← openRootDir s
  .ok { s with fileTable := fun i => { s.fileTable i with fdPos := 0, fdInode := none } }

end Fs
end JackOS
