/-
  JackOS.Fs.FileAppend

  What file_write means for the files of a partition: the written file's
  contents grow by the buffer, its representation stays well formed and no
  other file changes.  `AppendOk` is exactly when: the write must not lose
  direct blocks on its way into the indirect ones, and the record it writes
  back must not be another file's.
-/

import JackOS.Fs.FileWrite
import Mathlib.Order.Interval.Finset.Nat

namespace JackOS
namespace Fs

open Base

/-- Inode `m` is marked as allocated. -/
def allocated (s : FsState) (m : Nat) : Prop := bitAt s.part.inodeBitmap.bits m = true

/-- The blocks of the other files are marked as used and are not those of
    node `p`. -/
def OthersApart (s : FsState) (p : Nat) : Prop :=
  ∀ m, m < 4096 → m ≠ (s.inodes p).iNo → allocated s m →
    ∀ ino, fileRecord s m = some ino → ∀ j, blockRef s.disk ino j ≠ 0 →
      blockRef s.disk ino j ∈ usedBlocks s ∧
        ∀ i, blockRef s.disk (s.inodes p) i ≠ blockRef s.disk ino j

/-- A file that is open in node `p`, in a partition with room for `count` more
    bytes. -/
structure AppendPre (s : FsState) (fdIdx p count : Nat) : Prop where
  layout : Layout s
  heap : HeapServes s
  fd : (s.fileTable fdIdx).fdInode = some p
  inoLt : (s.inodes p).iNo < 4096
  rep : FileRep s (s.inodes p)
  apart : OthersApart s p
  freeOnDisk : FreeOnDisk s
  bound : (s.inodes p).iSize + count < 140 * 512
  room : blocksNeeded (s.inodes p) count ≤ (freeBits s).card

/-- What file_write promises. -/
def AppendsTo (s : FsState) (fdIdx p : Nat) (buf : Mem) (count : Nat) : Prop :=
  ∃ t, fileWrite s fdIdx buf count = .ok (count, t) ∧
    contents t.disk (t.inodes p)
      = contents s.disk (s.inodes p) ++ (List.range count).map buf ∧
    (t.inodes p).iSize = (s.inodes p).iSize + count ∧
    FileRep t (t.inodes p) ∧
    ∀ m, m < 4096 → m ≠ (s.inodes p).iNo → allocated s m → fileContents t m = fileContents s m

/-- A file that is not open, in record `m`. -/
def ClosedFile (s : FsState) (m : Nat) : Prop :=
  allocated s m ∧ findOpen s m = none ∧ (Inode.ofBytes s.disk (slotAddr s m)).iNo = m

/-- When file_write keeps its promise. -/
def AppendOk (s : FsState) (p count : Nat) : Prop :=
  ¬ ((s.inodes p).iSize < 11 * 512 ∧ 12 * 512 ≤ (s.inodes p).iSize + count) ∧
    ((s.inodes p).iNo < 256 ∨ ¬ ClosedFile s ((s.inodes p).iNo % 256))

theorem losesBlocks_iff {ino : Inode} {count : Nat} :
    LosesBlocks ino count ↔ ino.iSize < 11 * 512 ∧ 12 * 512 ≤ ino.iSize + count := by
  unfold LosesBlocks
  omega

section

variable {s t : FsState} {fdIdx p count : Nat} {buf : Mem}

theorem FileRep.writePre (h : FileRep s (s.inodes p)) (hs : Layout s)
    (hsize : (s.inodes p).iSize < 140 * 512) : WritePre s p := by
  refine ⟨hs, h.sound, ?_⟩
  rcases h.blocks with hb | ⟨h0, hb⟩
  · left
    refine ⟨?_, (hb _ (by omega)).2 (Nat.le_refl _), fun j h₁ h₂ => ?_, h.table⟩
    · have := (hb 0 (by omega)).2 (Nat.zero_le _)
      rwa [blockRef_direct (by omega)] at this
    · by_contra hne
      have := (hb j h₂).1 hne
      omega
  · right
    refine ⟨h0, fun j => ?_⟩
    by_cases hj : j < 140
    · exact hb j hj
    · by_cases hj' : j = 140
      · rw [hj', blockRef_table]
        by_contra hne
        have := h.table.1 hne
        omega
      · exact blockRef_past (by omega)

/-- The nodes other than the file's are untouched, and so is the list of nodes. -/
theorem Written.others (h : Written s t fdIdx p buf count) :
    t.part.openInodes = s.part.openInodes ∧ t.part.sb = s.part.sb ∧
      t.part.inodeBitmap = s.part.inodeBitmap ∧ blockBits t = blockBits s ∧
      (∀ q, q ≠ p → t.inodes q = s.inodes q) ∧ (t.inodes p).iNo = (s.inodes p).iNo ∧
      (t.inodes p).iSize = (s.inodes p).iSize + count := by
  obtain ⟨bits, d, sec, pos, ht⟩ := h.state
  refine ⟨by rw [ht]; rfl, by rw [ht]; rfl, by rw [ht]; rfl, by rw [ht]; rfl, fun q hq => ?_, ?_, ?_⟩
  · rw [ht]
    simp [Function.update_of_ne hq]
  · rw [ht]
    simp
  · rw [ht]
    simp

theorem Written.findOpen_eq (h : Written s t fdIdx p buf count) (m : Nat) :
    findOpen t m = findOpen s m := by
  obtain ⟨hopen, -, -, -, hother, hno, -⟩ := h.others
  refine findOpen_congr hopen (fun q => ?_) m
  by_cases hq : q = p
  · rw [hq, hno]
  · rw [hother q hq]

theorem Written.slotAddr_eq (h : Written s t fdIdx p buf count) (m : Nat) :
    slotAddr t m = slotAddr s m := by
  rw [slotAddr, slotAddr, h.others.2.1]

/-- Another file's block, and the boot sector, keep their bytes. -/
theorem Written.sameBlock (h : Written s t fdIdx p buf count) (hs : Layout s) {lba : Nat}
    (hl : lba = 0 ∨ lba ∈ usedBlocks s ∧ ∀ j, blockRef s.disk (s.inodes p) j ≠ lba) :
    SameBlock s.disk t.disk lba := by
  intro i hi
  have hin : inBlock lba (lba * 512 + i) := by unfold inBlock; omega
  have hboot := hs.bootSector
  have hbm := hs.blockMap_le
  have him := hs.inodeMap_lt
  have hle := inodeSpan_le ((s.inodes p).iNo % 256)
  have hblk : ∀ lba', inBlock lba' (lba * 512 + i) → lba' ∈ usedBlocks t →
      lba' ∈ usedBlocks s ∧ ∀ j, blockRef s.disk (s.inodes p) j ≠ lba' := by
    intro lba' hin' hused
    have heq := inBlock_unique hin' hin
    subst heq
    exact hl.resolve_left (h.layout.ne_zero hused)
  rcases hl with rfl | ⟨hmem, -⟩
  · refine h.frame _ ?_ (.inl ?_) hblk
    · unfold inBlockMap
      omega
    · simp only [slotAddr]
      omega
  · -- a block of the data area is neither in the maps nor in the inode table
    have hdata := dataStart_le_of_mem hmem
    refine h.frame _ (hs.not_inBlockMap hdata hin) ?_ hblk
    by_contra hslot
    exact (hs.slot_not_inBlock (n := (s.inodes p).iNo % 256) (by omega) hdata (by omega)
      (by omega)).1 hin

/-- The other records of the inode table keep their bytes. -/
theorem Written.sameSlot (h : Written s t fdIdx p buf count) (hs : Layout s) {m : Nat}
    (hm : m < 4096) (hne : m ≠ (s.inodes p).iNo % 256) :
    Inode.ofBytes t.disk (slotAddr s m) = Inode.ofBytes s.disk (slotAddr s m) := by
  refine Inode.ofBytes_congr fun a ha => ?_
  have hdisj := slotAddr_disjoint (s := s) hne
  have hle := inodeSpan_le ((s.inodes p).iNo % 256)
  obtain ⟨-, hmap⟩ := hs.slot_not_inBlock (a := slotAddr s m + a) hm (Nat.le_refl _)
    (by omega) (by omega)
  refine h.frame _ hmap (by omega) fun lba hin hused => ?_
  have hdata := dataStart_le_of_mem hused
  rw [h.others.2.1] at hdata
  exact absurd hin (hs.slot_not_inBlock hm hdata (by omega) (by omega)).1

/-- The record the inode was written back to carries the inode's number. -/
theorem Written.slot_iNo (h : Written s t fdIdx p buf count) (hlt : (s.inodes p).iNo < 4096) :
    (Inode.ofBytes t.disk (slotAddr s ((s.inodes p).iNo % 256))).iNo = (s.inodes p).iNo := by
  have hfour := four_le_inodeSpan ((s.inodes p).iNo % 256)
  have hword : t.disk.le32 (slotAddr s ((s.inodes p).iNo % 256))
      = (t.inodes p).synced.bytes.le32 (4 * 0) :=
    Mem.le32_congr fun i hi => by
      rw [Nat.mul_zero, Nat.zero_add]
      exact h.slot i (by omega)
  have hbytes := Mem.le32_wordBytes (t.inodes p).synced.word 0
  have hno : (t.inodes p).synced.word 0 = (s.inodes p).iNo := h.others.2.2.2.2.2.1
  rw [hno, Nat.mod_eq_of_lt (by omega)] at hbytes
  exact hword.trans hbytes

/-- A file keeps its contents when its record and its blocks are kept. -/
theorem Written.contents_other (h : Written s t fdIdx p buf count) (hpre : AppendPre s fdIdx p count)
    {m : Nat} (hm : m < 4096) (hne : m ≠ (s.inodes p).iNo) (halloc : allocated s m) {ino : Inode}
    (hrec : fileRecord s m = some ino) : contents t.disk ino = contents s.disk ino := by
  refine contents_frame fun j => h.sameBlock hpre.layout ?_
  by_cases hz : blockRef s.disk ino j = 0
  · exact .inl hz
  · exact .inr (hpre.apart m hm hne halloc ino hrec j hz)

theorem Written.fileContents_other (h : Written s t fdIdx p buf count)
    (hpre : AppendPre s fdIdx p count) (hok : (s.inodes p).iNo < 256 ∨
      ¬ ClosedFile s ((s.inodes p).iNo % 256))
    {m : Nat} (hm : m < 4096) (hne : m ≠ (s.inodes p).iNo) (halloc : allocated s m) :
    fileContents t m = fileContents s m := by
  -- an open file is read from its node, a closed one from its record
  have hrecord : fileRecord t m = fileRecord s m := by
    unfold fileRecord
    rw [h.findOpen_eq m]
    cases hopen : findOpen s m with
    | some q =>
        have hq : q ≠ p := fun hqp => hne (by rw [← (findOpen_some hopen).2, hqp])
        simp only [h.others.2.2.2.2.1 q hq]
    | none =>
        simp only [h.slotAddr_eq]
        by_cases hslot : m = (s.inodes p).iNo % 256
        · -- the record is overwritten: there was no file in it, and there is none now
          have hclosed := hok.resolve_left (by omega)
          have hold : (Inode.ofBytes s.disk (slotAddr s m)).iNo ≠ m := fun heq =>
            hclosed ⟨hslot ▸ halloc, hslot ▸ hopen, hslot ▸ heq⟩
          have hnew : (Inode.ofBytes t.disk (slotAddr s m)).iNo ≠ m := by
            rw [hslot, h.slot_iNo hpre.inoLt, ← hslot]
            exact Ne.symm hne
          rw [if_neg hold, if_neg hnew]
        · rw [h.sameSlot hpre.layout hm hslot]
  unfold fileContents
  rw [hrecord]
  cases hrec : fileRecord s m with
  | none => rfl
  | some ino =>
      rw [Option.map_some, Option.map_some, h.contents_other hpre hm hne halloc hrec]

/-- The file is well formed again. -/
theorem Written.fileRep (h : Written s t fdIdx p buf count) (hrep : FileRep s (s.inodes p))
    (hdisk : FreeOnDisk s) (hlose : ¬ LosesBlocks (s.inodes p) count) : FileRep t (t.inodes p) := by
  obtain ⟨-, hsb, -, hbits, -, -, hsize⟩ := h.others
  have hbound := h.bound
  refine ⟨.inl fun j hj => ⟨fun hne => ?_, fun hle => ?_⟩, h.shape.table,
    hrep.sound.grows h.grows, hdisk.le_of_grows hsb hbits h.grows hrep.onDisk⟩
  · by_contra hgt
    exact hne (h.shape.tail j (by omega) hj)
  · -- blocks from the end of the file on were filled, those below are kept
    by_cases hnew : (s.inodes p).iSize / 512 ≤ j
    · exact h.filled hlose j hnew (hsize ▸ hle)
    · have hold : blockRef s.disk (s.inodes p) j ≠ 0 := by
        rcases hrep.blocks with hb | ⟨h0, -⟩
        · exact (hb j hj).2 (by omega)
        · omega
      rw [h.grows.old j hold]
      exact hold

theorem Written.contents_file (h : Written s t fdIdx p buf count) (hpre : AppendPre s fdIdx p count)
    (hlose : ¬ LosesBlocks (s.inodes p) count) :
    contents t.disk (t.inodes p) = contents s.disk (s.inodes p) ++ (List.range count).map buf := by
  obtain ⟨-, -, -, -, -, -, hsize⟩ := h.others
  have hbound := h.bound
  refine contents_append hsize (fun i hi => h.old i hi ?_) (h.new hlose)
  rcases hpre.rep.blocks with hb | ⟨h0, -⟩
  · exact (hb (i / 512) (by omega)).2 (by omega)
  · omega

end

/-- What a successful call has done, under the hypotheses of an append. -/
theorem AppendPre.written {s : FsState} {fdIdx p count : Nat} (hpre : AppendPre s fdIdx p count)
    (buf : Mem) :
    ∃ t, fileWrite s fdIdx buf count = .ok (count, t) ∧ Written s t fdIdx p buf count := by
  have hbound := hpre.bound
  have hwp := hpre.rep.writePre hpre.layout (by omega)
  obtain ⟨t, ht⟩ := fileWrite_of_free buf hpre.fd hpre.heap hwp hpre.rep.onDisk hpre.freeOnDisk
    hbound hpre.room
  exact ⟨t, ht, (fileWrite_run hpre.fd hpre.heap hwp (by omega) (.inr hbound) ht (by omega)).2⟩

theorem appendOk_of_appendsTo {s : FsState} {fdIdx p count : Nat} {buf : Mem}
    (hpre : AppendPre s fdIdx p count) (h : AppendsTo s fdIdx p buf count) :
    AppendOk s p count := by
  obtain ⟨t, ht, hw⟩ := hpre.written buf
  obtain ⟨t', ht', -, -, hrep, hother⟩ := h
  rw [ht] at ht'
  cases ht'
  have hlt := hpre.inoLt
  refine ⟨fun hlose => ?_, ?_⟩
  · -- block 11 of the file is lost, and its new size needs it
    have hsize := hw.others.2.2.2.2.2.2
    have hlost := hw.lost 11 (by omega) (by omega) ⟨by omega, by omega⟩
    rcases hrep.blocks with hb | ⟨h0, -⟩
    · exact (hb 11 (by omega)).2 (by omega) hlost
    · omega
  · by_contra hbad
    obtain ⟨hge, hclosed⟩ := not_or.1 hbad
    -- the other file's record now carries the number of the written one
    obtain ⟨halloc, hopen, hno⟩ := not_not.1 hclosed
    have hsame := hother ((s.inodes p).iNo % 256) (by omega) (by omega) halloc
    have hold : fileRecord s ((s.inodes p).iNo % 256)
        = some (Inode.ofBytes s.disk (slotAddr s ((s.inodes p).iNo % 256))) := by
      simp [fileRecord, hopen, hno]
    have hnew : fileRecord t ((s.inodes p).iNo % 256) = none := by
      have hne : (s.inodes p).iNo ≠ (s.inodes p).iNo % 256 := by omega
      simp [fileRecord, hw.findOpen_eq, hopen, hw.slotAddr_eq, hw.slot_iNo hlt, hne]
    rw [fileContents, fileContents, hold, hnew] at hsame
    cases hsame

theorem appendsTo_of_appendOk {s : FsState} {fdIdx p count : Nat} (buf : Mem)
    (hpre : AppendPre s fdIdx p count) (h : AppendOk s p count) :
    AppendsTo s fdIdx p buf count := by
  obtain ⟨t, ht, hw⟩ := hpre.written buf
  obtain ⟨hlose, hslot⟩ := h
  rw [← losesBlocks_iff] at hlose
  exact ⟨t, ht, hw.contents_file hpre hlose, hw.others.2.2.2.2.2.2, hw.fileRep hpre.rep hpre.freeOnDisk hlose,
    fun m hm hne halloc => hw.fileContents_other hpre hslot hm hne halloc⟩

/-- A file_write with room for its data appends, and leaves the other files
    alone, exactly when it neither loses direct blocks nor writes its inode
    back onto another file's record. -/
theorem fileWrite_appends_iff (s : FsState) (fdIdx p count : Nat) (buf : Mem)
    (hpre : AppendPre s fdIdx p count) :
    AppendsTo s fdIdx p buf count ↔ AppendOk s p count :=
  ⟨appendOk_of_appendsTo hpre, appendsTo_of_appendOk buf hpre⟩

-- ============================================================================
-- A new file on an empty partition
-- ============================================================================

/-- File 1, just created and open in slot 3, on a partition of 4096 blocks whose
    only other file is the root directory. -/
def newFileFs : FsState :=
  { blankFs with
    part :=
      { startLba := 0
        secCnt := 8192
        sb :=
          { blankFs.part.sb with
            blockBitmapLba := 2, inodeBitmapLba := 3, inodeTableLba := 4, dataStartLba := 612 }
        blockBitmap := ⟨512, setBitAt Mem.zero 0 true⟩
        inodeBitmap := ⟨512, setBitAt (setBitAt Mem.zero 0 true) 1 true⟩
        openInodes := [0] }
    inodes := fun _ => inodeInit 1
    nextNode := 1
    fileTable := fun i => if i = 3 then ⟨0, 2, some 0⟩ else ⟨0, 0, none⟩ }

theorem newFileFs_layout : Layout newFileFs where
  table := ⟨by decide, by decide⟩
  bootSector := by decide
  blockLen := rfl
  inodeLen := rfl
  blockMap_le := by decide
  inodeMap_lt := by decide
  table_le := by decide
  data_le := by decide
  rootBit := by decide

theorem newFileFs_free {b : Nat} (h₁ : 0 < b) (h₂ : b < 4096) : b ∈ freeBits newFileFs := by
  have hclear : bitAt (setBitAt Mem.zero 0 true) b = false := by
    rw [bitAt_setBitAt_ne (by omega)]
    simp [bitAt]
  simp only [freeBits, Finset.mem_filter, Finset.mem_range]
  exact ⟨h₂, hclear⟩

theorem newFileFs_freeOnDisk : FreeOnDisk newFileFs := by
  intro b hb _
  have hb' : b < 4096 := hb
  change 612 + b ≤ maxLba
  simp only [maxLba]
  omega

/-- Neither the new file nor any record of the empty table has a pointer. -/
theorem blockRef_zero_of_noSectors {d : Mem} {ino : Inode}
    (h : ∀ j, j < 13 → ino.iSectors j = 0) (j : Nat) : blockRef d ino j = 0 := by
  have h12 := h 12 (by omega)
  by_cases hj : j < 12
  · rw [blockRef_direct hj, h j (by omega)]
  · exact blockRef_noTable (by omega) h12

theorem newFileFs_appendPre {count : Nat} (h : count < 140 * 512) :
    AppendPre newFileFs 3 0 count := by
  have hino : newFileFs.inodes 0 = inodeInit 1 := rfl
  have hzero : ∀ j, blockRef newFileFs.disk (newFileFs.inodes 0) j = 0 :=
    blockRef_zero_of_noSectors (fun _ _ => rfl)
  refine
    { layout := newFileFs_layout
      heap := fun _ _ => rfl
      fd := rfl
      inoLt := by rw [hino]; decide
      rep := ?_
      apart := ?_
      freeOnDisk := newFileFs_freeOnDisk
      bound := by rw [hino]; simpa [inodeInit] using h
      room := ?_ }
  · refine ⟨.inr ⟨rfl, fun j _ => hzero j⟩, ?_, ⟨fun i _ hi => absurd (hzero i) hi,
      fun i hi => absurd (hzero i) hi⟩, fun j => by rw [hzero j]; omega⟩
    rw [hino]
    simp [inodeInit]
  · intro m _ hm _ ino hrec j hj
    have hm1 : m ≠ 1 := hm
    have hopen : findOpen newFileFs m = none := by
      rw [findOpen_none]
      intro q _
      exact Ne.symm hm1
    unfold fileRecord at hrec
    rw [hopen] at hrec
    simp only at hrec
    split at hrec
    · cases hrec
      refine absurd (blockRef_zero_of_noSectors (fun k hk => ?_) j) hj
      simp only [Inode.ofBytes, if_pos hk]
      exact Mem.le32_zero _
    · cases hrec
  · have hsub : Finset.Icc 1 141 ⊆ freeBits newFileFs := by
      intro b hb
      rw [Finset.mem_Icc] at hb
      exact newFileFs_free (by omega) (by omega)
    have hcard := Finset.card_le_card hsub
    rw [Nat.card_Icc] at hcard
    have hneed : blocksNeeded (newFileFs.inodes 0) count ≤ 141 := by
      rw [hino]
      simp only [blocksNeeded, inodeInit, Nat.zero_add, Nat.zero_div]
      split_ifs <;> omega
    omega

/-- Ten bytes into the new file. -/
theorem fileWrite_appends_iff_newFile :
    AppendPre newFileFs 3 0 10 ∧
      (AppendsTo newFileFs 3 0 Mem.zero 10 ↔ AppendOk newFileFs 0 10) :=
  ⟨newFileFs_appendPre (by omega),
    fileWrite_appends_iff newFileFs 3 0 10 Mem.zero (newFileFs_appendPre (by omega))⟩

/-- 6144 bytes into the new file reach block 12: blocks 1..11 are lost. -/
theorem not_appendsTo_crossing : ¬ ∀ s fdIdx p count buf, AppendPre s fdIdx p count →
    AppendsTo s fdIdx p buf count := by
  intro h
  have hpre : AppendPre newFileFs 3 0 6144 := newFileFs_appendPre (by omega)
  have hok := appendOk_of_appendsTo hpre (h newFileFs 3 0 6144 Mem.zero hpre)
  exact hok.1 ⟨by decide, by decide⟩

end Fs
end JackOS
