/-
  JackOS.Fs.FormatLayout

  Where `partition_format` puts the areas of a partition, and which bits of the
  block bitmap `mount_partition` then loads.  The bitmap covers one bit for
  each block there is room for and one more, since the loop that clears the
  padding again does not stop before `block_bitmap_last_bit`.  That bit lies
  behind the partition unless rounding left a sector over.

  When the bits end with a sector, the padding starts behind the sectors that
  are written; the bytes of the buffer there do not matter.
-/

import JackOS.Fs.Blocks
import JackOS.Fs.Descriptors

namespace JackOS
namespace Fs

open Base Base.Mem

variable {s s' : FsState} {startLba secCnt : Nat}

/-! ## Sizes -/

/-- The sectors left beside the boot block, the superblock, the inode bitmap and
    the inode table. -/
theorem freeSects_eq (h₁ : 613 ≤ secCnt) (h₂ : secCnt < 2 ^ 32) :
    freeSects secCnt = secCnt - 611 := by
  have htable : 1 + 1 + 1 + inodeTableSectors = 611 := by decide
  rw [freeSects, htable, subU32_of_le (by omega) h₂]

theorem divCeiling_eq {x : Nat} (h : x + 4095 < 2 ^ 32) :
    divCeiling x 4096 = (x + 4095) / 4096 := by
  rw [divCeiling, u32_of_lt (by omega)]
  rfl

/-- In the last 4095 values of `uint32_t` the rounding up wraps around. -/
theorem divCeiling_wraps {x : Nat} (h₁ : 2 ^ 32 ≤ x + 4095) (h₂ : x < 2 ^ 32) :
    divCeiling x 4096 = 0 := by
  rw [divCeiling, u32]
  omega

theorem blockBitmapBitLen_eq (h₁ : 613 ≤ secCnt) (h₂ : secCnt + 3484 < 2 ^ 32) :
    blockBitmapBitLen secCnt = secCnt - 611 - (secCnt - 611 + 4095) / 4096 := by
  rw [blockBitmapBitLen, freeSects_eq h₁ (by omega), divCeiling_eq (by omega),
    subU32_of_le (by omega) (by omega)]

theorem blockBitmapBitLen_wraps (h₁ : 613 ≤ secCnt) (h₂ : secCnt < 2 ^ 32)
    (h₃ : 2 ^ 32 ≤ secCnt + 3484) : blockBitmapBitLen secCnt = secCnt - 611 := by
  rw [blockBitmapBitLen, freeSects_eq h₁ h₂, divCeiling_wraps (by omega) (by omega),
    subU32_of_le (Nat.zero_le _) (by omega), Nat.sub_zero]

/-! ## Padding -/

theorem clearLowBits_full : ∀ lastBit < 8, ∀ j < 8,
    (clearLowBits 0xFF lastBit).toBitVec.getLsbD j = decide (lastBit < j) := by
  decide

/-- The bits of the bitmap as it is written. -/
theorem bitAt_newBlockBitmap (secCnt i : Nat) :
    bitAt (newBlockBitmap secCnt) i
      = if i / 8 = blockBitmapBitLen secCnt / 8 then decide (blockBitmapBitLen secCnt < i)
        else if blockBitmapBitLen secCnt < i ∧ i / 8 / 512 = blockBitmapBitLen secCnt / 8 / 512
        then true
        else decide (i = 0) := by
  generalize hlen : blockBitmapBitLen secCnt = len
  have hi8 : i % 8 < 8 := Nat.mod_lt _ (by omega)
  have hbyte : newBlockBitmap secCnt (i / 8)
      = if i / 8 = len / 8 then clearLowBits 0xFF (len % 8)
        else if len / 8 ≤ i / 8 ∧ i / 8 < len / 8 + (512 - len / 8 % 512) then 0xFF
        else if i / 8 = 0 then 1 else 0 := by
    simp only [newBlockBitmap, hlen, blockSize]
    -- the byte of the last bit is stored last, over the padding and the bit of the root
    by_cases hlast : i / 8 = len / 8
    · rw [if_pos hlast, hlast, store8_self, fill_inside (Nat.le_refl _) (by omega)]
    · rw [if_neg hlast, store8_outside hlast]
      by_cases hpad : len / 8 ≤ i / 8 ∧ i / 8 < len / 8 + (512 - len / 8 % 512)
      · rw [if_pos hpad, fill_inside hpad.1 hpad.2]
      · rw [if_neg hpad, fill_outside (by omega)]
        by_cases hzero : i / 8 = 0
        · rw [if_pos hzero, hzero, store8_self]
        · rw [if_neg hzero, store8_outside hzero, zero_apply]
  rw [bitAt, hbyte]
  by_cases hlast : i / 8 = len / 8
  · rw [if_pos hlast, if_pos hlast, clearLowBits_full _ (Nat.mod_lt _ (by omega)) _ hi8]
    exact decide_eq_decide.2 (by omega)
  · rw [if_neg hlast, if_neg hlast]
    by_cases hpad : len / 8 ≤ i / 8 ∧ i / 8 < len / 8 + (512 - len / 8 % 512)
    · have hbehind : len < i ∧ i / 8 / 512 = len / 8 / 512 := by omega
      rw [if_pos hpad, if_pos hbehind]
      generalize i % 8 = k at hi8
      interval_cases k <;> rfl
    · have hbefore : ¬ (len < i ∧ i / 8 / 512 = len / 8 / 512) := by omega
      rw [if_neg hpad, if_neg hbefore]
      by_cases hzero : i / 8 = 0
      · rw [if_pos hzero]
        have hdec : (decide (i = 0)) = decide (i % 8 = 0) := decide_eq_decide.2 (by omega)
        rw [hdec]
        generalize i % 8 = k at hi8
        interval_cases k <;> rfl
      · rw [if_neg hzero]
        have hne : ¬ i = 0 := by
          rintro rfl
          exact hzero rfl
        simp [hne]

/-! ## What is on the disk -/

/-- `block_bitmap_sects` -/
def blockBitmapSectors (secCnt : Nat) : Nat := divCeiling (blockBitmapBitLen secCnt) 4096

/-- The areas of a formatted partition, one behind the other. -/
structure Areas (sb : SuperBlock) (startLba secCnt : Nat) : Prop where
  blockBitmap : sb.blockBitmapLba = startLba + 2
  inodeBitmap : sb.inodeBitmapLba = sb.blockBitmapLba + sb.blockBitmapSects
  inodeTable : sb.inodeTableLba = sb.inodeBitmapLba + sb.inodeBitmapSects
  data : sb.dataStartLba = sb.inodeTableLba + sb.inodeTableSects
  inside : sb.dataStartLba < startLba + secCnt

theorem blockBitmapSectors_lt (h₁ : 613 ≤ secCnt) (h₂ : secCnt < 2 ^ 32) :
    blockBitmapSectors secCnt + 611 < secCnt := by
  by_cases hwrap : secCnt + 3484 < 2 ^ 32
  · have hlen := blockBitmapBitLen_eq h₁ hwrap
    rw [blockBitmapSectors, divCeiling_eq (by omega), hlen]
    omega
  · rw [blockBitmapSectors, blockBitmapBitLen_wraps h₁ h₂ (by omega),
      divCeiling_wraps (by omega) (by omega)]
    omega

section
variable (startLba secCnt)

theorem newSuperBlock_blockBitmapSects :
    (newSuperBlock startLba secCnt).blockBitmapSects = blockBitmapSectors secCnt := rfl

theorem newSuperBlock_inodeBitmapSects : (newSuperBlock startLba secCnt).inodeBitmapSects = 1 := rfl

theorem newSuperBlock_inodeTableSects : (newSuperBlock startLba secCnt).inodeTableSects = 608 := by
  show inodeTableSectors = 608
  decide

end

/-- No address of the superblock wraps around. -/
theorem newSuperBlock_areas (h₁ : 613 ≤ secCnt) (h₂ : startLba + secCnt < 2 ^ 32) :
    Areas (newSuperBlock startLba secCnt) startLba secCnt := by
  have hlt := blockBitmapSectors_lt h₁ (by omega)
  have htable := newSuperBlock_inodeTableSects startLba secCnt
  have hsects := newSuperBlock_blockBitmapSects startLba secCnt
  generalize hsb : newSuperBlock startLba secCnt = sb at *
  have hbitmap : sb.blockBitmapLba = u32 (startLba + 2) := hsb ▸ rfl
  have hinode : sb.inodeBitmapLba = u32 (sb.blockBitmapLba + sb.blockBitmapSects) := hsb ▸ rfl
  have hinodes : sb.inodeTableLba = u32 (sb.inodeBitmapLba + 1) := hsb ▸ rfl
  have hdata : sb.dataStartLba = u32 (sb.inodeTableLba + sb.inodeTableSects) := hsb ▸ rfl
  have hone : sb.inodeBitmapSects = 1 := hsb ▸ rfl
  -- the sums in the order in which the areas lie
  rw [u32_of_lt (by omega)] at hbitmap
  rw [u32_of_lt (by omega)] at hinode
  rw [u32_of_lt (by omega)] at hinodes
  rw [u32_of_lt (by omega)] at hdata
  exact ⟨hbitmap, hinode, by omega, hdata, by omega⟩

/-- A superblock is read back as it was written. -/
theorem SuperBlock.ofBytes_bytes {sb : SuperBlock} {m : Mem} {off : Nat}
    (hlt : ∀ w ∈ sb.words, w < 2 ^ 32) (h : ∀ a, a < 52 → m (off + a) = sb.bytes a) :
    SuperBlock.ofBytes m off = sb := by
  have hword : ∀ k, k < 13 → m.le32 (off + 4 * k) = sb.words.getD k 0 := by
    intro k hk
    have hlen : k < sb.words.length := hk
    have hread : m.le32 (off + 4 * k) = sb.bytes.le32 (4 * k) := by
      apply le32_congr
      intro i hi
      rw [Nat.add_assoc]
      exact h (4 * k + i) (by omega)
    rw [hread, SuperBlock.bytes, le32_wordBytes, List.getD_eq_getElem?_getD,
      List.getElem?_eq_getElem hlen, Option.getD_some, Nat.mod_eq_of_lt (hlt _ (List.getElem_mem hlen))]
  cases sb
  rw [SuperBlock.ofBytes, SuperBlock.mk.injEq]
  exact ⟨hword 0 (by decide), hword 1 (by decide), hword 2 (by decide), hword 3 (by decide),
    hword 4 (by decide), hword 5 (by decide), hword 6 (by decide), hword 7 (by decide),
    hword 8 (by decide), hword 9 (by decide), hword 10 (by decide), hword 11 (by decide),
    hword 12 (by decide)⟩

theorem newSuperBlock_words_lt (h₁ : 613 ≤ secCnt) (h₂ : startLba + secCnt < 2 ^ 32) :
    ∀ w ∈ (newSuperBlock startLba secCnt).words, w < 2 ^ 32 := by
  have hareas := newSuperBlock_areas h₁ h₂
  have htable := newSuperBlock_inodeTableSects startLba secCnt
  have hone := newSuperBlock_inodeBitmapSects startLba secCnt
  have hrest : (newSuperBlock startLba secCnt).magic < 2 ^ 32
      ∧ (newSuperBlock startLba secCnt).secCnt = secCnt
      ∧ (newSuperBlock startLba secCnt).inodeCnt < 2 ^ 32
      ∧ (newSuperBlock startLba secCnt).partitionLbaBase = startLba
      ∧ (newSuperBlock startLba secCnt).rootInodeNo < 2 ^ 32
      ∧ (newSuperBlock startLba secCnt).dirEntrySize < 2 ^ 32 := by
    refine ⟨?_, rfl, ?_, rfl, ?_, ?_⟩
    · show fsMagic < 2 ^ 32
      decide
    · show 4096 < 2 ^ 32
      decide
    · show 0 < 2 ^ 32
      decide
    · show dirEntryBytes < 2 ^ 32
      decide
  generalize newSuperBlock startLba secCnt = sb at *
  obtain ⟨h3, h4, h5, h6, h7⟩ := hareas
  obtain ⟨h8, h9, h10, h11, h12, h13⟩ := hrest
  intro w hw
  simp only [SuperBlock.words, List.mem_cons, List.not_mem_nil, or_false] at hw
  omega

/-! ## Formatting and mounting -/

theorem ideWrite_eq_ok {lba off cnt : Nat} {buf : Mem} (h : ideWrite s lba buf off cnt = .ok s') :
    s' = s.setDisk (s.disk.copy (lba * 512) buf off (cnt * 512)) := by
  obtain ⟨_, -, h⟩ := Outcome.bind_eq_ok.1 h
  obtain ⟨_, -, h⟩ := Outcome.bind_eq_ok.1 h
  exact (Except.ok.inj h).symm

theorem ideRead_eq_ok {lba off cnt : Nat} {buf buf' : Mem} (h : ideRead s lba buf off cnt = .ok buf') :
    buf' = buf.copy off s.disk (lba * 512) (cnt * 512) := by
  obtain ⟨_, -, h⟩ := Outcome.bind_eq_ok.1 h
  obtain ⟨_, -, h⟩ := Outcome.bind_eq_ok.1 h
  exact (Except.ok.inj h).symm

/-- `partition_format` with any superblock and any contents of the areas. -/
def formatWith (s : FsState) (sb : SuperBlock) (sbLba : Nat) (bitmap : Nat → Mem)
    (inodes table root : Mem) : Outcome FsState := do
  let s ← ideWrite s sbLba sb.bytes 0 1
  let (buf, s) := sysMalloc s
  match buf with
  | none => .error .undefined
  | some buf =>
      let s ← ideWrite s sb.blockBitmapLba (bitmap s.part.secCnt) 0 sb.blockBitmapSects
      let s ← ideWrite s sb.inodeBitmapLba inodes 0 sb.inodeBitmapSects
      let s ← ideWrite s sb.inodeTableLba table 0 sb.inodeTableSects
      let s ← ideWrite s sb.dataStartLba root 0 1
      sysFree s buf
      .ok s

/-- The superblock and the block bitmap are on the disk when the other areas
    lie behind them. -/
theorem formatWith_disk {sb : SuperBlock} {sbLba : Nat} {bitmap : Nat → Mem}
    {inodes table root : Mem} (h : formatWith s sb sbLba bitmap inodes table root = .ok s')
    (h₁ : sbLba + 1 ≤ sb.blockBitmapLba)
    (h₂ : sb.blockBitmapLba + sb.blockBitmapSects ≤ sb.inodeBitmapLba)
    (h₃ : sb.inodeBitmapLba ≤ sb.inodeTableLba) (h₄ : sb.inodeTableLba ≤ sb.dataStartLba) :
    s'.part = s.part
      ∧ (∀ a, a < 512 → s'.disk (sbLba * 512 + a) = sb.bytes a)
      ∧ ∀ a, a < sb.blockBitmapSects * 512 →
        s'.disk (sb.blockBitmapLba * 512 + a) = bitmap s.part.secCnt a := by
  obtain ⟨s₁, hw₁, h⟩ := Outcome.bind_eq_ok.1 h
  cases hmalloc : sysMalloc s₁ with
  | mk buf s₂ =>
  rw [hmalloc] at h
  cases buf with
  | none => cases h
  | some buf =>
      obtain ⟨s₃, hw₃, h⟩ := Outcome.bind_eq_ok.1 h
      obtain ⟨s₄, hw₄, h⟩ := Outcome.bind_eq_ok.1 h
      obtain ⟨s₅, hw₅, h⟩ := Outcome.bind_eq_ok.1 h
      obtain ⟨s₆, hw₆, h⟩ := Outcome.bind_eq_ok.1 h
      obtain ⟨_, -, h⟩ := Outcome.bind_eq_ok.1 h
      cases h
      have hs₂ := sysMalloc_state hmalloc
      have hs₁ := ideWrite_eq_ok hw₁
      have hpart₂ : s₂.part = s.part := by
        rw [hs₂, FsState.countMalloc_part, hs₁, FsState.setDisk_part]
      have hdisk₂ : s₂.disk = s.disk.copy (sbLba * 512) sb.bytes 0 (1 * 512) := by
        rw [hs₂, FsState.countMalloc_disk, hs₁, FsState.setDisk_disk]
      rw [hpart₂] at hw₃
      -- the writes that follow lie behind the sector in question
      refine ⟨?_, fun a ha => ?_, fun a ha => ?_⟩
      · rw [ideWrite_eq_ok hw₆, FsState.setDisk_part, ideWrite_eq_ok hw₅, FsState.setDisk_part,
          ideWrite_eq_ok hw₄, FsState.setDisk_part, ideWrite_eq_ok hw₃, FsState.setDisk_part, hpart₂]
      · rw [ideWrite_eq_ok hw₆, FsState.setDisk_disk, copy_outside (by omega), ideWrite_eq_ok hw₅,
          FsState.setDisk_disk, copy_outside (by omega), ideWrite_eq_ok hw₄, FsState.setDisk_disk,
          copy_outside (by omega), ideWrite_eq_ok hw₃, FsState.setDisk_disk,
          copy_outside (by omega), hdisk₂, copy_inside (by omega) (by omega)]
        exact congrArg _ (by omega)
      · rw [ideWrite_eq_ok hw₆, FsState.setDisk_disk, copy_outside (by omega), ideWrite_eq_ok hw₅,
          FsState.setDisk_disk, copy_outside (by omega), ideWrite_eq_ok hw₄, FsState.setDisk_disk,
          copy_outside (by omega), ideWrite_eq_ok hw₃, FsState.setDisk_disk,
          copy_inside (by omega) (by omega)]
        exact congrArg _ (by omega)

theorem partitionFormat_eq (s : FsState) : ∃ inodes table root,
    partitionFormat s = formatWith s (newSuperBlock s.part.startLba s.part.secCnt)
      (u32 (s.part.startLba + 1)) newBlockBitmap inodes table root :=
  ⟨_, _, _, rfl⟩

theorem loadBitmap_eq_ok {lba sects : Nat} {btmp : Bitmap} (h : loadBitmap s lba sects = .ok btmp) :
    btmp = ⟨sects * 512, zero.copy 0 s.disk (lba * 512) (sects * 512)⟩ := by
  obtain ⟨bits, hread, h⟩ := Outcome.bind_eq_ok.1 h
  cases h
  rw [ideRead_eq_ok hread]

/-- What `mount_partition` takes from the disk. -/
theorem mountPartition_spec (h : mountPartition s = .ok s') : ∃ buf : Mem,
    (∀ a, a < 512 → buf a = s.disk (u32 (s.part.startLba + 1) * 512 + a))
      ∧ s'.part.sb = SuperBlock.ofBytes buf 0
      ∧ s'.part.blockBitmap = ⟨s'.part.sb.blockBitmapSects * 512,
        zero.copy 0 s.disk (s'.part.sb.blockBitmapLba * 512) (s'.part.sb.blockBitmapSects * 512)⟩ := by
  unfold mountPartition at h
  cases hmalloc : sysMalloc s with
  | mk sbBuf s₁ =>
  rw [hmalloc] at h
  obtain ⟨⟨_, s₂⟩, h₂, h⟩ := Outcome.bind_eq_ok.1 h
  cases sbBuf with
  | none => cases h
  | some sbBuf =>
      obtain ⟨buf, hbuf, h⟩ := Outcome.bind_eq_ok.1 h
      obtain ⟨⟨_, s₃⟩, h₃, h⟩ := Outcome.bind_eq_ok.1 h
      obtain ⟨blockBitmap, hbitmap, h⟩ := Outcome.bind_eq_ok.1 h
      obtain ⟨⟨_, s₄⟩, -, h⟩ := Outcome.bind_eq_ok.1 h
      obtain ⟨inodeBitmap, -, h⟩ := Outcome.bind_eq_ok.1 h
      obtain ⟨_, -, h⟩ := Outcome.bind_eq_ok.1 h
      have hs₁ := sysMalloc_state hmalloc
      have hs₂ := mustMalloc_state h₂
      have hs₃ := mustMalloc_state h₃
      have hdisk₂ : s₂.disk = s.disk := by
        rw [hs₂, hs₁, FsState.countMalloc_disk, FsState.countMalloc_disk]
      have hpart₂ : s₂.part = s.part := by
        rw [hs₂, hs₁, FsState.countMalloc_part, FsState.countMalloc_part]
      have hdisk₃ : s₃.disk = s.disk := by rw [hs₃, FsState.countMalloc_disk, hdisk₂]
      have hload := loadBitmap_eq_ok hbitmap
      have hread := ideRead_eq_ok hbuf
      rw [hdisk₂, hpart₂] at hread
      rw [hdisk₃] at hload
      refine ⟨buf, fun a ha => ?_, ?_, ?_⟩
      · rw [hread, copy_inside (Nat.zero_le _) (by omega), Nat.sub_zero]
      · rw [← Except.ok.inj h]
        rfl
      · rw [← Except.ok.inj h]
        exact hload

/-- A formatted partition as it is mounted. -/
structure FormattedAs (s : FsState) (startLba secCnt : Nat) : Prop where
  sb : s.part.sb = newSuperBlock startLba secCnt
  byteLen : s.part.blockBitmap.btmpByteLen = blockBitmapSectors secCnt * 512
  bits : ∀ a, s.part.blockBitmap.bits a
    = if a < blockBitmapSectors secCnt * 512 then newBlockBitmap secCnt a else 0

theorem formattedAs_of_mount {t : FsState} (h₁ : 613 ≤ s.part.secCnt)
    (h₂ : s.part.startLba + s.part.secCnt < 2 ^ 32) (hformat : partitionFormat s = .ok s')
    (hmount : mountPartition s' = .ok t) : FormattedAs t s.part.startLba s.part.secCnt := by
  have hareas := newSuperBlock_areas h₁ h₂
  have hwords := newSuperBlock_words_lt h₁ h₂
  have hsects := newSuperBlock_blockBitmapSects s.part.startLba s.part.secCnt
  obtain ⟨inodes, table, root, heq⟩ := partitionFormat_eq s
  rw [heq, u32_of_lt (by omega)] at hformat
  have hdisk := formatWith_disk hformat (Nat.le_of_eq hareas.blockBitmap.symm)
    (Nat.le_of_eq hareas.inodeBitmap.symm) (by rw [hareas.inodeTable]; exact Nat.le_add_right _ _)
    (by rw [hareas.data]; exact Nat.le_add_right _ _)
  obtain ⟨hpart, hsb, hbitmap⟩ := hdisk
  obtain ⟨buf, hbuf, hmounted, hloaded⟩ := mountPartition_spec hmount
  rw [hpart, u32_of_lt (by omega)] at hbuf
  -- what was written to the sector of the superblock is read back
  have hread : t.part.sb = newSuperBlock s.part.startLba s.part.secCnt := by
    rw [hmounted]
    apply SuperBlock.ofBytes_bytes hwords
    intro a ha
    rw [Nat.zero_add, hbuf a (by omega)]
    exact hsb a (by omega)
  rw [hread, hsects] at hloaded
  rw [hsects] at hbitmap
  refine ⟨hread, by rw [hloaded], fun a => ?_⟩
  rw [hloaded]
  show zero.copy 0 _ _ _ a = _
  by_cases ha : a < blockBitmapSectors s.part.secCnt * 512
  · rw [if_pos ha, copy_inside (Nat.zero_le _) (by omega), Nat.sub_zero]
    exact hbitmap a ha
  · rw [if_neg ha, copy_outside (by omega), zero_apply]

/-! ## What the bitmap lets out -/

theorem FormattedAs.bit (h : FormattedAs s startLba secCnt) {i : Nat}
    (hi : i < 8 * s.part.blockBitmap.btmpByteLen) :
    bitAt s.part.blockBitmap.bits i = bitAt (newBlockBitmap secCnt) i := by
  rw [h.byteLen] at hi
  rw [bitAt, h.bits, if_pos (by omega), ← bitAt]

/-- The formatted partition keeps to its sectors: its areas do, the root
    directory's block is taken, and no block behind the partition is free, nor
    given out when more blocks are taken. -/
structure FormatSafe (s : FsState) (startLba secCnt : Nat) : Prop where
  areas : Areas s.part.sb startLba secCnt
  root : bitAt s.part.blockBitmap.bits 0 = true
  clear : ∀ i, i < 8 * s.part.blockBitmap.btmpByteLen →
    bitAt s.part.blockBitmap.bits i = false → s.part.sb.dataStartLba + i < startLba + secCnt
  alloc : ∀ t lba t', t.part.sb = s.part.sb →
    t.part.blockBitmap.btmpByteLen = s.part.blockBitmap.btmpByteLen →
    (∀ i, bitAt s.part.blockBitmap.bits i = true → bitAt t.part.blockBitmap.bits i = true) →
    blockBitmapAlloc t = .ok (some lba, t') → lba < startLba + secCnt

/-- Of the free sectors the last 4096 or fewer that need a bitmap sector of
    their own are at most as many as the bitmap sectors, so that one bitmap
    sector less is needed in the end. -/
def RoundsOff (secCnt : Nat) : Prop :=
  secCnt + 3484 < 2 ^ 32 ∧ secCnt - 611 + 4096 ≤ 4097 * ((secCnt - 611 + 4095) / 4096)

instance (secCnt : Nat) : Decidable (RoundsOff secCnt) := by
  unfold RoundsOff
  infer_instance

/-- A clear bit is at most the one behind the last block. -/
theorem FormattedAs.le_of_clear (h : FormattedAs s startLba secCnt)
    (hsects : blockBitmapSectors secCnt = (blockBitmapBitLen secCnt + 4095) / 4096) {i : Nat}
    (hi : i < 8 * s.part.blockBitmap.btmpByteLen)
    (hclear : bitAt s.part.blockBitmap.bits i = false) : i ≤ blockBitmapBitLen secCnt := by
  rw [h.bit hi, bitAt_newBlockBitmap] at hclear
  rw [h.byteLen, hsects] at hi
  by_contra hlt
  by_cases hlast : i / 8 = blockBitmapBitLen secCnt / 8
  · rw [if_pos hlast, decide_eq_false_iff_not] at hclear
    omega
  · have hpad : blockBitmapBitLen secCnt < i
        ∧ i / 8 / 512 = blockBitmapBitLen secCnt / 8 / 512 := by omega
    rw [if_neg hlast, if_pos hpad] at hclear
    cases hclear

/-- The bit behind the last block is clear unless it begins a sector. -/
theorem FormattedAs.clear_last (h : FormattedAs s startLba secCnt)
    (hlt : blockBitmapBitLen secCnt < 8 * s.part.blockBitmap.btmpByteLen) :
    bitAt s.part.blockBitmap.bits (blockBitmapBitLen secCnt) = false := by
  rw [h.bit hlt, bitAt_newBlockBitmap, if_pos rfl, decide_eq_false_iff_not]
  exact Nat.lt_irrefl _

theorem FormattedAs.root (h : FormattedAs s startLba secCnt) (h₁ : 8 ≤ blockBitmapBitLen secCnt)
    (h₂ : 0 < s.part.blockBitmap.btmpByteLen) : bitAt s.part.blockBitmap.bits 0 = true := by
  have hlast : ¬ 0 / 8 = blockBitmapBitLen secCnt / 8 := by omega
  have hpad : ¬ (blockBitmapBitLen secCnt < 0 ∧ 0 / 8 / 512 = blockBitmapBitLen secCnt / 8 / 512) := by
    omega
  rw [h.bit (by omega), bitAt_newBlockBitmap, if_neg hlast, if_neg hpad]
  rfl

/-- The partition is safe exactly when rounding leaves a sector over. -/
theorem formatSafe_iff_of_formattedAs (h : FormattedAs s startLba secCnt) (h₁ : 613 ≤ secCnt)
    (h₂ : startLba + secCnt < 2 ^ 32) : FormatSafe s startLba secCnt ↔ RoundsOff secCnt := by
  have hareas := newSuperBlock_areas h₁ h₂
  have htable := newSuperBlock_inodeTableSects startLba secCnt
  have hinode := newSuperBlock_inodeBitmapSects startLba secCnt
  have hbitmap := newSuperBlock_blockBitmapSects startLba secCnt
  rw [← h.sb] at hareas htable hinode hbitmap
  have hbyteLen := h.byteLen
  have hdata : s.part.sb.dataStartLba = startLba + 611 + blockBitmapSectors secCnt := by
    rw [hareas.data, hareas.inodeTable, hareas.inodeBitmap, hareas.blockBitmap, htable, hinode,
      hbitmap]
    omega
  by_cases hwrap : secCnt + 3484 < 2 ^ 32
  · have hlen := blockBitmapBitLen_eq h₁ hwrap
    have hsects : blockBitmapSectors secCnt = (blockBitmapBitLen secCnt + 4095) / 4096 :=
      divCeiling_eq (by omega)
    constructor
    · -- the bit behind the last block would be behind the partition
      intro hsafe
      refine ⟨hwrap, ?_⟩
      by_contra hround
      have hlt : blockBitmapBitLen secCnt < 8 * s.part.blockBitmap.btmpByteLen := by omega
      have hinside := hsafe.clear _ hlt (h.clear_last hlt)
      omega
    · rintro ⟨-, hround⟩
      -- rounding left a sector over, so even the bit too many lies inside
      have hclear : ∀ i, i < 8 * s.part.blockBitmap.btmpByteLen →
          bitAt s.part.blockBitmap.bits i = false →
          s.part.sb.dataStartLba + i < startLba + secCnt := by
        intro i hi hbit
        have hle := h.le_of_clear hsects hi hbit
        omega
      refine ⟨hareas, h.root (by omega) (by omega), hclear, fun t lba t' hsb hbyte hsub halloc => ?_⟩
      obtain ⟨b, hfirst, rfl, -⟩ := blockBitmapAlloc_some halloc
      rw [hsb]
      refine hclear b (hbyte ▸ hfirst.lt) ?_
      by_contra hset
      have htrue := hsub b (by simpa using hset)
      rw [hfirst.clear] at htrue
      cases htrue
  · -- the rounding wraps around and there is no bitmap at all
    have hnone : blockBitmapSectors secCnt = 0 := by
      rw [blockBitmapSectors, blockBitmapBitLen_wraps h₁ (by omega) (by omega),
        divCeiling_wraps (by omega) (by omega)]
    refine iff_of_false (fun hsafe => ?_) fun hround => hwrap hround.1
    have hroot := hsafe.root
    rw [bitAt, h.bits, hnone, if_neg (by omega)] at hroot
    exact absurd hroot (by decide)

/-- `partition_format` and `mount_partition`: for which sizes the partition is
    kept apart from the next one. -/
theorem formatSafe_iff_roundsOff (s s' t : FsState) (h₁ : 613 ≤ s.part.secCnt)
    (h₂ : s.part.startLba + s.part.secCnt < 2 ^ 32) (hformat : partitionFormat s = .ok s')
    (hmount : mountPartition s' = .ok t) :
    FormatSafe t s.part.startLba s.part.secCnt ↔ RoundsOff s.part.secCnt :=
  formatSafe_iff_of_formattedAs (formattedAs_of_mount h₁ h₂ hformat hmount) h₁ h₂

/-- A machine with a partition of this size that is not formatted. -/
def rawFs (secCnt : Nat) : FsState := tinyFs.setPart { tinyFs.part with secCnt := secCnt }

theorem rawFs_formats {n : Nat}
    (h : (partitionFormat (rawFs n) >>= mountPartition).returns (fun _ => true) = true) :
    ∃ s t, partitionFormat (rawFs n) = .ok s ∧ mountPartition s = .ok t := by
  obtain ⟨t, hrun, -⟩ := Outcome.returns_iff.1 h
  obtain ⟨s, hformat, hmount⟩ := Outcome.bind_eq_ok.1 hrun
  exact ⟨s, t, hformat, hmount⟩

/-- With 4097 free sectors the second bitmap sector is not needed in the end. -/
theorem formatSafe_iff_roundsOff_4708 : ∃ t, FormatSafe t 0 4708 := by
  obtain ⟨s, t, hformat, hmount⟩ := rawFs_formats (n := 4708) (by decide +kernel)
  exact ⟨t, (formatSafe_iff_roundsOff (rawFs 4708) s t (by decide) (by decide) hformat hmount).2
    (by decide)⟩

/-- With 700 sectors block 88 is free, which is the first sector behind the
    partition. -/
theorem not_formatSafe_700 : ¬ ∀ s s' t : FsState, 613 ≤ s.part.secCnt →
    s.part.startLba + s.part.secCnt < 2 ^ 32 → partitionFormat s = .ok s' →
    mountPartition s' = .ok t → FormatSafe t s.part.startLba s.part.secCnt := by
  intro hall
  obtain ⟨s, t, hformat, hmount⟩ := rawFs_formats (n := 700) (by decide +kernel)
  have hsafe := hall (rawFs 700) s t (by decide) (by decide) hformat hmount
  have hmounted := formattedAs_of_mount (s := rawFs 700) (by decide) (by decide) hformat hmount
  exact absurd ((formatSafe_iff_of_formattedAs hmounted (by decide) (by decide)).1 hsafe) (by decide)

end Fs
end JackOS
