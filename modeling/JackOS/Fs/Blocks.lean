/-
  JackOS.Fs.Blocks

  The block bitmap as a free map.  `Layout` is the geometry partition_format
  gives a partition, `usedBlocks` the blocks whose bit is set.  A block is
  taken with `block_bitmap_alloc` and `bitmap_sync`, which together are
  `putBlockBit`: one bit changes in memory, one sector of the map on disk.
-/

import JackOS.Base.Ledger
import JackOS.Fs.InodeStore
import Mathlib.Data.Finset.Card

namespace JackOS
namespace Fs

open Base

/-! ## Geometry -/

/-- The number of bits of the block bitmap. -/
def blockBits (s : FsState) : Nat := 8 * s.part.blockBitmap.btmpByteLen

/-- The regions of a partition lie one after the other, the bitmaps have the
    size of their regions, and the root directory's block is taken. -/
structure Layout (s : FsState) : Prop where
  table : InodeTableOnDisk s
  bootSector : 0 < s.part.sb.blockBitmapLba
  blockLen : s.part.blockBitmap.btmpByteLen = 512 * s.part.sb.blockBitmapSects
  inodeLen : s.part.inodeBitmap.btmpByteLen = 512
  blockMap_le : s.part.sb.blockBitmapLba + s.part.sb.blockBitmapSects ≤ s.part.sb.inodeBitmapLba
  inodeMap_lt : s.part.sb.inodeBitmapLba < s.part.sb.inodeTableLba
  table_le : s.part.sb.inodeTableLba + 608 ≤ s.part.sb.dataStartLba
  data_le : s.part.sb.dataStartLba ≤ maxLba
  rootBit : bitAt s.part.blockBitmap.bits 0 = true

/-- The blocks marked as used. -/
def usedBlocks (s : FsState) : Set Nat :=
  {lba | ∃ b, b < blockBits s ∧ lba = s.part.sb.dataStartLba + b ∧
    bitAt s.part.blockBitmap.bits b = true}

/-- The free bits of the block bitmap. -/
def freeBits (s : FsState) : Finset Nat :=
  (Finset.range (blockBits s)).filter (fun b => bitAt s.part.blockBitmap.bits b = false)

/-- Address `a` lies in the block bitmap's region of the disk. -/
def inBlockMap (s : FsState) (a : Nat) : Prop :=
  s.part.sb.blockBitmapLba * 512 ≤ a ∧
    a < (s.part.sb.blockBitmapLba + s.part.sb.blockBitmapSects) * 512

theorem mem_usedBlocks {s : FsState} {b : Nat} :
    s.part.sb.dataStartLba + b ∈ usedBlocks s ↔
      b < blockBits s ∧ bitAt s.part.blockBitmap.bits b = true := by
  constructor
  · rintro ⟨b', hb', heq, hset⟩
    have : b = b' := by omega
    subst this
    exact ⟨hb', hset⟩
  · rintro ⟨hb, hset⟩
    exact ⟨b, hb, rfl, hset⟩

theorem dataStart_le_of_mem {s : FsState} {lba : Nat} (h : lba ∈ usedBlocks s) :
    s.part.sb.dataStartLba ≤ lba := by
  obtain ⟨b, -, rfl, -⟩ := h
  omega

theorem Layout.blockBits_eq {s : FsState} (h : Layout s) :
    blockBits s = 4096 * s.part.sb.blockBitmapSects := by
  have := h.blockLen
  unfold blockBits
  omega

/-- Block numbers fit the 32-bit arithmetic of the source. -/
theorem Layout.subU32_lba {s : FsState} (h : Layout s) {b : Nat} (hb : b < blockBits s) :
    subU32 (s.part.sb.dataStartLba + b) s.part.sb.dataStartLba = b := by
  have h₁ := h.blockBits_eq
  have h₂ := h.blockMap_le
  have h₃ := h.inodeMap_lt
  have h₄ := h.table.onDisk
  have h₅ := h.data_le
  rw [subU32_of_le (by omega) (by simp only [maxLba] at *; omega)]
  omega

theorem Layout.lba_lt {s : FsState} (h : Layout s) {lba : Nat} (hl : lba ∈ usedBlocks s) :
    lba < 2 ^ 32 := by
  obtain ⟨b, hb, rfl, -⟩ := hl
  have h₁ := h.blockBits_eq
  have h₂ := h.blockMap_le
  have h₃ := h.inodeMap_lt
  have h₄ := h.table.onDisk
  have h₅ := h.data_le
  simp only [maxLba] at *
  omega

theorem Layout.ne_zero {s : FsState} (h : Layout s) {lba : Nat} (hl : lba ∈ usedBlocks s) :
    lba ≠ 0 := by
  have h₁ := dataStart_le_of_mem hl
  have h₂ := h.table_le
  omega

/-- Address `a` lies in block `lba`. -/
def inBlock (lba a : Nat) : Prop := lba * 512 ≤ a ∧ a < lba * 512 + 512

/-- The data blocks lie behind the block bitmap's region. -/
theorem Layout.not_inBlockMap {s : FsState} (h : Layout s) {lba a : Nat}
    (hl : s.part.sb.dataStartLba ≤ lba) (ha : inBlock lba a) : ¬ inBlockMap s a := by
  have h₁ := h.blockMap_le
  have h₂ := h.inodeMap_lt
  have h₃ := h.table_le
  unfold inBlockMap
  unfold inBlock at ha
  omega

/-! ## Changing the map -/

namespace FsState

/-- The state with the given block bitmap and disk. -/
def setBlocks (s : FsState) (bits d : Mem) : FsState :=
  (s.setPart { s.part with blockBitmap := { s.part.blockBitmap with bits := bits } }).setDisk d

variable (s : FsState) (bits d : Mem)

@[simp] theorem setBlocks_disk : (s.setBlocks bits d).disk = d := rfl
@[simp] theorem setBlocks_sb : (s.setBlocks bits d).part.sb = s.part.sb := rfl
@[simp] theorem setBlocks_bits : (s.setBlocks bits d).part.blockBitmap.bits = bits := rfl
@[simp] theorem setBlocks_byteLen :
    (s.setBlocks bits d).part.blockBitmap.btmpByteLen = s.part.blockBitmap.btmpByteLen := rfl
@[simp] theorem setBlocks_inodeBitmap :
    (s.setBlocks bits d).part.inodeBitmap = s.part.inodeBitmap := rfl
@[simp] theorem setBlocks_openInodes :
    (s.setBlocks bits d).part.openInodes = s.part.openInodes := rfl
@[simp] theorem setBlocks_inodes : (s.setBlocks bits d).inodes = s.inodes := rfl
@[simp] theorem setBlocks_fileTable : (s.setBlocks bits d).fileTable = s.fileTable := rfl
@[simp] theorem setBlocks_ndebug : (s.setBlocks bits d).ndebug = s.ndebug := rfl
@[simp] theorem setBlocks_task : (s.setBlocks bits d).task = s.task := rfl
@[simp] theorem setBlocks_setBlocks (bits' d' : Mem) :
    (s.setBlocks bits d).setBlocks bits' d' = s.setBlocks bits' d' := rfl

end FsState

/-- The map with bit `b` set to `v`, in memory only. -/
def setBlockBit (s : FsState) (b : Nat) (v : Bool) : FsState :=
  s.setBlocks (setBitAt s.part.blockBitmap.bits b v) s.disk

/-- The disk after the sector of the map that holds bit `b` was written. -/
def syncedBlockMap (s : FsState) (b : Nat) : Mem :=
  s.disk.copy ((s.part.sb.blockBitmapLba + b / 4096) * 512) s.part.blockBitmap.bits
    (b / 4096 * 512) 512

/-- The map with bit `b` set to `v`, in memory and in its sector on disk. -/
def putBlockBit (s : FsState) (b : Nat) (v : Bool) : FsState :=
  (setBlockBit s b v).setDisk (syncedBlockMap (setBlockBit s b v) b)

@[simp] theorem blockBits_setBlocks (s : FsState) (bits d : Mem) :
    blockBits (s.setBlocks bits d) = blockBits s := rfl

@[simp] theorem setBlockBit_sb (s : FsState) (b : Nat) (v : Bool) :
    (setBlockBit s b v).part.sb = s.part.sb := rfl

@[simp] theorem setBlockBit_bits (s : FsState) (b : Nat) (v : Bool) :
    (setBlockBit s b v).part.blockBitmap.bits = setBitAt s.part.blockBitmap.bits b v := rfl

@[simp] theorem setBlockBit_disk (s : FsState) (b : Nat) (v : Bool) :
    (setBlockBit s b v).disk = s.disk := rfl

theorem partBitmapSet_block_eq_ok {s t : FsState} {b : Nat} {v : Bool} :
    partBitmapSet s .blockBitmap b v = .ok t ↔ b < blockBits s ∧ t = setBlockBit s b v := by
  unfold partBitmapSet blockBits
  by_cases hb : b < 8 * s.part.blockBitmap.btmpByteLen
  · simp only [hb, if_true, Except.ok.injEq, true_and]
    exact eq_comm
  · simp [hb]

theorem bitmapSync_block_eq_ok {s t : FsState} {b : Nat} :
    bitmapSync s b .blockBitmap = .ok t ↔
      (s.part.sb.blockBitmapLba + b / 4096 ≤ maxLba ∨ s.ndebug = true) ∧
        t = s.setDisk (syncedBlockMap s b) := by
  simp only [bitmapSync, ideWrite, kassert, syncedBlockMap, Outcome.bind_eq_ok, require_eq_ok]
  constructor
  · rintro ⟨_, h, _, -, heq⟩
    cases heq
    exact ⟨h, rfl⟩
  · rintro ⟨h, rfl⟩
    exact ⟨(), h, (), .inl (by omega), rfl⟩

/-- In a well laid out partition the map's sectors are on the disk. -/
theorem Layout.bitmapSync_block {s : FsState} (h : Layout s) {b : Nat} (hb : b < blockBits s) :
    bitmapSync s b .blockBitmap = .ok (s.setDisk (syncedBlockMap s b)) := by
  refine bitmapSync_block_eq_ok.2 ⟨.inl ?_, rfl⟩
  have h₁ := h.blockBits_eq
  have h₂ := h.blockMap_le
  have h₃ := h.inodeMap_lt
  have h₄ := h.table.onDisk
  omega

/-! ## Allocating -/

/-- `block_bitmap_alloc` takes the first free bit. -/
theorem blockBitmapAlloc_some {s t : FsState} {lba : Nat}
    (h : blockBitmapAlloc s = .ok (some lba, t)) :
    ∃ b, FirstClear s.part.blockBitmap b ∧ lba = s.part.sb.dataStartLba + b ∧
      t = setBlockBit s b true := by
  unfold blockBitmapAlloc at h
  obtain ⟨r, hscan, h⟩ := Outcome.bind_eq_ok.1 h
  rcases r with _ | b
  · cases h
  · obtain ⟨u, hset, h⟩ := Outcome.bind_eq_ok.1 h
    obtain ⟨-, rfl⟩ := partBitmapSet_block_eq_ok.1 hset
    cases h
    exact ⟨b, firstClear_of_bitmapScan hscan, rfl, rfl⟩

/-- While some bit is free, `block_bitmap_alloc` succeeds. -/
theorem blockBitmapAlloc_of_free {s : FsState} {b : Nat} (h : b ∈ freeBits s) :
    ∃ b, FirstClear s.part.blockBitmap b ∧
      blockBitmapAlloc s = .ok (some (s.part.sb.dataStartLba + b), setBlockBit s b true) := by
  simp only [freeBits, Finset.mem_filter, Finset.mem_range] at h
  obtain ⟨k, hscan, hk⟩ : ∃ k, bitmapScan s.ndebug s.part.blockBitmap 1 = .ok (some k) ∧
      FirstClear s.part.blockBitmap k := bitmapScan_one h.1 h.2
  refine ⟨k, hk, ?_⟩
  rw [blockBitmapAlloc, hscan]
  simp only [Outcome.ok_bind, partBitmapSet_block_eq_ok.2 ⟨hk.lt, rfl⟩, setBlockBit_sb]

/-! ## What one bit changes -/

section PutBit

variable {s : FsState} {b : Nat} {v : Bool}

/-- `putBlockBit` as a change of the map and the disk. -/
theorem putBlockBit_eq : putBlockBit s b v =
    s.setBlocks (setBitAt s.part.blockBitmap.bits b v) (syncedBlockMap (setBlockBit s b v) b) :=
  rfl

/-- Taking a free bit adds its block to the used ones. -/
theorem mem_usedBlocks_setBlocks (hb : b < blockBits s) (d : Mem) (lba : Nat) :
    lba ∈ usedBlocks (s.setBlocks (setBitAt s.part.blockBitmap.bits b true) d) ↔
      lba ∈ usedBlocks s ∨ lba = s.part.sb.dataStartLba + b := by
  constructor
  · rintro ⟨b', hb', rfl, hset⟩
    simp only [FsState.setBlocks_bits, bitAt_setBitAt] at hset
    by_cases h : b' = b
    · subst h
      exact .inr rfl
    · rw [if_neg h] at hset
      exact .inl ⟨b', hb', rfl, hset⟩
  · rintro (⟨b', hb', rfl, hset⟩ | rfl)
    · refine ⟨b', hb', rfl, ?_⟩
      simp only [FsState.setBlocks_bits, bitAt_setBitAt]
      split <;> simp_all
    · exact ⟨b, hb, rfl, by simp⟩

@[simp] theorem usedBlocks_setInode (s : FsState) (p : Nat) (ino : Inode) :
    usedBlocks (s.setInode p ino) = usedBlocks s := rfl

@[simp] theorem usedBlocks_setFd (s : FsState) (i : Nat) (fd : FileDesc) :
    usedBlocks (s.setFd i fd) = usedBlocks s := rfl

@[simp] theorem usedBlocks_countMalloc (s : FsState) :
    usedBlocks s.countMalloc = usedBlocks s := rfl

@[simp] theorem usedBlocks_setDisk (s : FsState) (d : Mem) :
    usedBlocks (s.setDisk d) = usedBlocks s := rfl

@[simp] theorem freeBits_setInode (s : FsState) (p : Nat) (ino : Inode) :
    freeBits (s.setInode p ino) = freeBits s := rfl

/-- A free bit's block is not among the used ones. -/
theorem not_mem_usedBlocks (h : bitAt s.part.blockBitmap.bits b = false) :
    s.part.sb.dataStartLba + b ∉ usedBlocks s := by
  intro hmem
  rw [(mem_usedBlocks.1 hmem).2] at h
  cases h

/-- Taking a free bit leaves one free bit less. -/
theorem card_freeBits_setBlocks (hb : b < blockBits s)
    (hclear : bitAt s.part.blockBitmap.bits b = false) (d : Mem) :
    (freeBits (s.setBlocks (setBitAt s.part.blockBitmap.bits b true) d)).card + 1
      = (freeBits s).card := by
  have hmem : b ∈ freeBits s := by simp [freeBits, hb, hclear]
  have heq : freeBits (s.setBlocks (setBitAt s.part.blockBitmap.bits b true) d)
      = (freeBits s).erase b := by
    ext c
    simp only [freeBits, blockBits_setBlocks, FsState.setBlocks_bits, Finset.mem_filter,
      Finset.mem_range, Finset.mem_erase, bitAt_setBitAt]
    by_cases h : c = b <;> simp [h]
  rw [heq, Finset.card_erase_add_one hmem]

theorem Layout.setBlocks (h : Layout s) {bits : Mem} (hroot : bitAt bits 0 = true) (d : Mem) :
    Layout (s.setBlocks bits d) where
  table := ⟨h.table.onDisk, h.table.inPartition⟩
  bootSector := h.bootSector
  blockLen := h.blockLen
  inodeLen := h.inodeLen
  blockMap_le := h.blockMap_le
  inodeMap_lt := h.inodeMap_lt
  table_le := h.table_le
  data_le := h.data_le
  rootBit := hroot

/-- The layout is one of the partition. -/
theorem Layout.congr {t : FsState} (h : Layout s) (hp : t.part = s.part) : Layout t :=
  ⟨⟨hp ▸ h.table.onDisk, hp ▸ h.table.inPartition⟩, hp ▸ h.bootSector, hp ▸ h.blockLen,
    hp ▸ h.inodeLen, hp ▸ h.blockMap_le, hp ▸ h.inodeMap_lt, hp ▸ h.table_le, hp ▸ h.data_le,
    hp ▸ h.rootBit⟩

theorem Layout.countMalloc (h : Layout s) : Layout s.countMalloc := h.congr rfl

theorem Layout.setFd (h : Layout s) (i : Nat) (fd : FileDesc) : Layout (s.setFd i fd) :=
  h.congr rfl

theorem Layout.setInode (h : Layout s) (p : Nat) (ino : Inode) : Layout (s.setInode p ino) :=
  h.congr rfl

theorem Layout.setDisk (h : Layout s) (d : Mem) : Layout (s.setDisk d) :=
  h.setBlocks h.rootBit d

theorem Layout.rootBit_setBitAt (h : Layout s) :
    bitAt (setBitAt s.part.blockBitmap.bits b true) 0 = true := by
  rw [bitAt_setBitAt]
  split
  · rfl
  · exact h.rootBit

/-- Taking a block keeps the layout, with the map on disk as it may be. -/
theorem Layout.take (h : Layout s) (b : Nat) (d : Mem) :
    Layout (s.setBlocks (setBitAt s.part.blockBitmap.bits b true) d) :=
  h.setBlocks h.rootBit_setBitAt d

/-- Writing the map's sector of bit `b` stays inside the map's region. -/
theorem Layout.putBlockBit_outside (h : Layout s) (hb : b < blockBits s) (v : Bool) {a : Nat}
    (ha : ¬ inBlockMap s a) : (putBlockBit s b v).disk a = s.disk a := by
  have hbits := h.blockBits_eq
  refine Mem.copy_outside ?_
  unfold inBlockMap at ha
  simp only [setBlockBit_sb]
  omega

end PutBit

/-! ## The map on disk -/

/-- The sectors of the block bitmap in `P` are on disk as they are in memory. -/
def BlockMapSyncedOn (s : FsState) (P : Nat → Prop) : Prop :=
  ∀ a, a < s.part.blockBitmap.btmpByteLen → P (a / 512) →
    s.disk (s.part.sb.blockBitmapLba * 512 + a) = s.part.blockBitmap.bits a

/-- The block bitmap on disk is the one in memory. -/
def BlockMapSynced (s : FsState) : Prop := BlockMapSyncedOn s (fun _ => True)

theorem BlockMapSyncedOn.setInode {s : FsState} {P : Nat → Prop} (h : BlockMapSyncedOn s P)
    (p : Nat) (ino : Inode) : BlockMapSyncedOn (s.setInode p ino) P := h

theorem BlockMapSyncedOn.mono {s : FsState} {P Q : Nat → Prop} (h : BlockMapSyncedOn s P)
    (hPQ : ∀ i, Q i → P i) : BlockMapSyncedOn s Q :=
  fun a ha hq => h a ha (hPQ _ hq)

/-- Writes outside the map's region leave it synced. -/
theorem BlockMapSyncedOn.setDisk {s : FsState} {P : Nat → Prop} (h : BlockMapSyncedOn s P)
    (hs : Layout s) {d : Mem} (hd : ∀ a, inBlockMap s a → d a = s.disk a) :
    BlockMapSyncedOn (s.setDisk d) P := by
  intro a ha hP
  have hlen := hs.blockLen
  simp only [FsState.setDisk_part] at ha ⊢
  rw [FsState.setDisk_disk, hd _ (by unfold inBlockMap; omega)]
  exact h a ha hP

/-- Changing bit `b` in memory spoils at most its own sector. -/
theorem BlockMapSyncedOn.setBlockBit {s : FsState} {P : Nat → Prop} (h : BlockMapSyncedOn s P)
    (b : Nat) (v : Bool) : BlockMapSyncedOn (setBlockBit s b v) (fun i => P i ∧ i ≠ b / 4096) := by
  intro a ha hP
  rw [setBlockBit_sb, setBlockBit_disk, h a ha hP.1, setBlockBit_bits, setBitAt_outside (by omega)]

/-- Changing bit `b` and writing its sector syncs that sector. -/
theorem BlockMapSyncedOn.putBlockBit {s : FsState} {P : Nat → Prop} (h : BlockMapSyncedOn s P)
    (b : Nat) (v : Bool) :
    BlockMapSyncedOn (putBlockBit s b v) (fun i => P i ∨ i = b / 4096) := by
  intro a ha hP
  simp only [Fs.putBlockBit, FsState.setDisk_part, FsState.setDisk_disk, syncedBlockMap,
    setBlockBit_sb, setBlockBit_bits, setBlockBit_disk]
  by_cases hin : a / 512 = b / 4096
  · rw [Mem.copy_inside (by omega) (by omega)]
    exact congrArg _ (by omega)
  · rw [Mem.copy_outside (by omega), h a ha (hP.resolve_right hin), setBitAt_outside (by omega)]

end Fs
end JackOS
