/-
  JackOS.Fs.Inode

  fs/inode.c: locating an inode in the inode table, writing it back, opening,
  closing and releasing it.  An inode takes 76 bytes, so some of them straddle
  two sectors.  `inode_locate` sets `multi_sec` exactly when the inode does NOT
  straddle, and `inode_sync` keeps the inode number in a `uint8_t`; both are
  modelled as they stand.
-/

import JackOS.Fs.State

namespace JackOS
namespace Fs

open Base

/-! ## The 76 bytes of an inode -/

/-- The words of an `inode_t` in memory order.  The two words of the list tag
    come last; they are written as NULL. -/
def Inode.word (ino : Inode) (k : Nat) : Nat :=
  if k = 0 then ino.iNo
  else if k = 1 then ino.iSize
  else if k = 2 then ino.iOpenCnt
  else if k = 3 then ino.writeDeny.toNat
  else if k < 17 then ino.iSectors (k - 4)
  else 0

def Inode.bytes (ino : Inode) : Mem := Mem.wordBytes ino.word

/-- The `inode_t` whose bytes start at `m + off`. -/
def Inode.ofBytes (m : Mem) (off : Nat) : Inode where
  iNo := m.le32 off
  iSize := m.le32 (off + 4)
  iOpenCnt := m.le32 (off + 8)
  writeDeny := decide (m.le32 (off + 12) ≠ 0)
  iSectors := fun j => if j < 13 then m.le32 (off + 16 + 4 * j) else 0

/-! ## Locating -/

/-- `inode_position_t` -/
structure InodePosition where
  multiSec : Bool
  secLba : Nat
  offSize : Nat
deriving DecidableEq, Repr

/-- `inode_locate` -/
def inodeLocate (s : FsState) (inodeNo : Nat) : Outcome InodePosition := do
  kassert s (inodeNo < 4096)
  let inodeTableOffset := inodeSize * inodeNo
  let inodeSecOffset := inodeTableOffset / 512
  let offsetInSec := inodeTableOffset % 512
  let leftInSec := 512 - offsetInSec
  .ok
    { multiSec := if leftInSec < inodeSize then false else true
      secLba := s.part.sb.inodeTableLba + inodeSecOffset
      offSize := offsetInSec }

/-- The number of sectors `inode_sync`, `inode_open` and `inode_delete` move. -/
def InodePosition.sectors (pos : InodePosition) : Nat := if pos.multiSec then 2 else 1

/-- `ASSERT(inode_pos.sec_lba <= (partition->start_lba + partition->sec_cnt))` -/
def assertInPartition (s : FsState) (pos : InodePosition) : Outcome Unit :=
  kassert s (pos.secLba ≤ s.part.startLba + s.part.secCnt)

/-! ## Synchronising -/

/-- `inode_sync`, with `ioBuf` the caller's buffer. -/
def inodeSync (s : FsState) (inode : Inode) (ioBuf : Mem) : Outcome FsState := do
  -- uint8_t inode_no = inode->i_no
  let inodeNo := inode.iNo % 256
  let pos ← inodeLocate s inodeNo
  assertInPartition s pos
  let newInode := { inode with iOpenCnt := 0, writeDeny := false }
  let buf ← ideRead s pos.secLba ioBuf 0 pos.sectors
  let buf := buf.copy pos.offSize newInode.bytes 0 inodeSize
  ideWrite s pos.secLba buf 0 pos.sectors

/-! ## Opening and closing -/

/-- The node of an inode that is already open. -/
def findOpen (s : FsState) (inodeNo : Nat) : Option Nat :=
  s.part.openInodes.find? (fun p => (s.inodes p).iNo = inodeNo)

/-- What `inode_open` reads from the disk: `junk` are the bytes that follow its
    sector buffer, whose size is 1024 when `multi_sec` is set and 512 otherwise. -/
def loadInode (s : FsState) (inodeNo : Nat) (junk : Mem) : Outcome Inode := do
  let pos ← inodeLocate s inodeNo
  let buf ← ideRead s pos.secLba
    (fun a => if a < pos.sectors * 512 then 0 else junk (a - pos.sectors * 512)) 0 pos.sectors
  .ok (Inode.ofBytes buf pos.offSize)

/-- `inode_open`: the address of the node. -/
def inodeOpen (s : FsState) (inodeNo : Nat) : Outcome (Nat × FsState) :=
  match findOpen s inodeNo with
  | some p =>
      let ino := s.inodes p
      .ok (p, s.setInode p { ino with iOpenCnt := u32 (ino.iOpenCnt + 1) })
  | none => do
      -- the node comes from the kernel heap, the buffer from the caller's
      let (node, s) := sysMalloc s
      let (inodeBuf, s) := sysMalloc s
      match node, inodeBuf with
      | some _, some inodeBuf =>
          let ino ← loadInode s inodeNo (s.heapJunk inodeBuf.serial)
          sysFree s inodeBuf
          .ok (s.nextNode, (s.newNode { ino with iOpenCnt := 1 }).pushOpen s.nextNode)
      | _, _ => .error .undefined

/-- `inode_close` -/
def inodeClose (s : FsState) (p : Nat) : FsState :=
  let ino := s.inodes p
  let cnt := subU32 ino.iOpenCnt 1
  let s := s.setInode p { ino with iOpenCnt := cnt }
  if cnt = 0 then
    s.setPart { s.part with openInodes := s.part.openInodes.erase p }
  else s

/-! ## Releasing -/

/-- `inode_delete` -/
def inodeDelete (s : FsState) (inodeNo : Nat) (ioBuf : Mem) : Outcome FsState := do
  kassert s (inodeNo < 4096)
  let pos ← inodeLocate s inodeNo
  assertInPartition s pos
  let buf ← ideRead s pos.secLba ioBuf 0 pos.sectors
  ideWrite s pos.secLba (buf.fill pos.offSize 0 inodeSize) 0 pos.sectors

/-- Clears the bit of block `lba` in memory and on disk. -/
def freeBlock (s : FsState) (lba : Nat) : Outcome FsState := do
  let blockBitmapIdx := subU32 lba s.part.sb.dataStartLba
  kassert s (blockBitmapIdx > 0)
  let s ← partBitmapSet s .blockBitmap blockBitmapIdx false
  bitmapSync s blockBitmapIdx .blockBitmap

/-- `if (all_blocks_lba[block_idx] != 0)`: frees the block. -/
def freeEntry (s : FsState) (lba : Nat) : Outcome FsState :=
  if lba ≠ 0 then freeBlock s lba else .ok s

/-- The loop of `inode_release` over `all_blocks_lba`: `left` entries from
    `blockIdx` on. -/
def freeBlocks (all : Nat → Nat) : (left blockIdx : Nat) → FsState → Outcome FsState
  | 0, _, s => .ok s
  | left + 1, blockIdx, s => do
      let s ← freeEntry s (all blockIdx)
      freeBlocks all left (blockIdx + 1) s

/-- The twelve direct entries of `all_blocks_lba`; the rest is 0. -/
def directBlocks (ino : Inode) (k : Nat) : Nat := if k < 12 then ino.iSectors k else 0

/-- The blocks of the inode and how many entries to look at.  The table's own
    block is freed here, before the blocks it lists. -/
def releaseTable (s : FsState) (ino : Inode) : Outcome ((Nat → Nat) × Nat × FsState) :=
  if ino.iSectors 12 ≠ 0 then do
    let all ← ideReadWords s (ino.iSectors 12) (directBlocks ino) 12
    let s ← freeBlock s (ino.iSectors 12)
    .ok (all, 140, s)
  else .ok (directBlocks ino, 12, s)

/-- `inode_release` -/
def inodeRelease (s : FsState) (inodeNo : Nat) : Outcome FsState := do
  let (p, s) ← inodeOpen s inodeNo
  let ino := s.inodes p
  kassert s (ino.iNo = inodeNo)
  let (all, blockCnt, s) ← releaseTable s ino
  let s ← freeBlocks all blockCnt 0 s
  let s ← partBitmapSet s .inodeBitmap inodeNo false
  let s ← bitmapSync s inodeNo .inodeBitmap
  let (ioBuf, s) := sysMalloc s
  match ioBuf with
  | none => .error .undefined
  | some ioBuf =>
      let s ← inodeDelete s inodeNo Mem.zero
      sysFree s ioBuf
      .ok (inodeClose s p)

/-- `inode_init` -/
def inodeInit (inodeNo : Nat) : Inode where
  iNo := inodeNo
  iSize := 0
  iOpenCnt := 0
  writeDeny := false
  iSectors := fun _ => 0

end Fs
end JackOS
