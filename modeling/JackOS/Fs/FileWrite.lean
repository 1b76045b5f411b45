/-
  JackOS.Fs.FileWrite

  file_write as an append: the loop that moves the data puts the buffer behind
  the old bytes, through the block map, and together with the map's effect on
  the sector pointers the file's contents grow by the buffer.  They do so
  except in two situations: the write that crosses from a direct block before
  the twelfth into the indirect ones, and the write-back of an inode whose
  number does not fit eight bits onto another file's record.
-/

import JackOS.Fs.FileMap
import JackOS.Fs.Frame

namespace JackOS
namespace Fs

open Base

theorem inBlock_unique {lba lba' a : Nat} (h : inBlock lba a) (h' : inBlock lba' a) :
    lba = lba' := by
  unfold inBlock at h h'
  omega

/-! ## The loop over the blocks -/

/-- The effect of the rounds that write bytes `w..w+l-1` of `src` to the end of
    a file of `n` bytes. -/
structure WriteRun (s t : FsState) (fdIdx p : Nat) (all : Nat → Nat) (src : Mem)
    (w l : Nat) (first : Bool) (n : Nat) : Prop where
  state : ∃ d pos, t = ((s.setDisk d).setInode p ((s.inodes p).withSize (n + l))).setFd fdIdx
    { s.fileTable fdIdx with fdPos := pos }
  new : ∀ i, i < l → t.disk (all ((n + i) / 512) * 512 + (n + i) % 512) = src (w + i)
  frame : ∀ a, (∀ i, i < l → ¬ inBlock (all ((n + i) / 512)) a) → t.disk a = s.disk a
  old : first = true → ∀ o, o < n % 512 →
    t.disk (all (n / 512) * 512 + o) = s.disk (all (n / 512) * 512 + o)

section

variable {s t : FsState} {fdIdx p fuel w l : Nat} {all : Nat → Nat} {src : Mem} {first : Bool}

/-- One round: the rest of the file's last block is filled. -/
theorem writeLoop_round (hl : l ≠ 0)
    (h : writeLoop fdIdx p all src (fuel + 1) w l first s = .ok t) :
    (s.inodes p).iSize / 512 < 140 ∧
    ∃ d, writeLoop fdIdx p all src fuel (w + min l (512 - (s.inodes p).iSize % 512))
        (l - min l (512 - (s.inodes p).iSize % 512)) false
        (((s.setDisk d).setInode p ((s.inodes p).withSize
          (u32 ((s.inodes p).iSize + min l (512 - (s.inodes p).iSize % 512))))).setFd fdIdx
            { s.fileTable fdIdx with
              fdPos := u32 ((s.fileTable fdIdx).fdPos
                + min l (512 - (s.inodes p).iSize % 512)) }) = .ok t ∧
      (∀ i, i < min l (512 - (s.inodes p).iSize % 512) →
        d (all ((s.inodes p).iSize / 512) * 512 + (s.inodes p).iSize % 512 + i) = src (w + i)) ∧
      (∀ a, ¬ inBlock (all ((s.inodes p).iSize / 512)) a → d a = s.disk a) ∧
      (first = true → ∀ o, o < (s.inodes p).iSize % 512 →
        d (all ((s.inodes p).iSize / 512) * 512 + o)
          = s.disk (all ((s.inodes p).iSize / 512) * 512 + o)) := by
  rw [writeLoop, if_neg hl] at h
  simp only [blockSize] at h
  obtain ⟨lba, hlba, h⟩ := Outcome.bind_eq_ok.1 h
  unfold blockEntry at hlba
  split at hlba
  · rename_i h140
    cases hlba
    obtain ⟨ioBuf, hbuf, h⟩ := Outcome.bind_eq_ok.1 h
    obtain ⟨s₁, hwrite, h⟩ := Outcome.bind_eq_ok.1 h
    unfold ideWrite at hwrite
    obtain ⟨_, -, hwrite⟩ := Outcome.bind_eq_ok.1 hwrite
    obtain ⟨_, -, hwrite⟩ := Outcome.bind_eq_ok.1 hwrite
    cases hwrite
    refine ⟨h140, _, h, fun i hi => ?_, fun a ha => ?_, fun hfirst o ho => ?_⟩
    · rw [Mem.copy_inside (by omega) (by omega), Mem.copy_inside (by omega) (by omega)]
      exact congrArg src (by omega)
    · unfold inBlock at ha
      exact Mem.copy_outside (by omega)
    · rw [Mem.copy_inside (by omega) (by omega), Mem.copy_outside (by omega)]
      rw [firstBlockBytes, if_pos hfirst] at hbuf
      unfold ideRead at hbuf
      obtain ⟨_, -, hbuf⟩ := Outcome.bind_eq_ok.1 hbuf
      obtain ⟨_, -, hbuf⟩ := Outcome.bind_eq_ok.1 hbuf
      cases hbuf
      rw [Mem.copy_inside (by omega) (by omega)]
      exact congrArg s.disk (by omega)
  · cases hlba

theorem WriteRun.refl (s : FsState) (fdIdx p : Nat) (all : Nat → Nat) (src : Mem) (w : Nat)
    (first : Bool) : WriteRun s s fdIdx p all src w 0 first (s.inodes p).iSize where
  state := by
    refine ⟨s.disk, (s.fileTable fdIdx).fdPos, ?_⟩
    have hino : (s.inodes p).withSize ((s.inodes p).iSize + 0) = s.inodes p := rfl
    have hdisk : s.setDisk s.disk = s := rfl
    rw [hino, hdisk, s.setInode_self]
    simp [FsState.setFd]
  new i hi := by omega
  frame _ _ := rfl
  old _ _ _ := rfl

/-- The loop appends, when it starts with a block that is read first or at a
    block's beginning, and the blocks it writes are different ones. -/
theorem writeLoop_run (h : writeLoop fdIdx p all src fuel w l first s = .ok t)
    (hstart : first = true ∨ l = 0 ∨ (s.inodes p).iSize % 512 = 0)
    (hsize : (s.inodes p).iSize + l < 2 ^ 32)
    (hinj : ∀ i k, (s.inodes p).iSize / 512 ≤ i → i < k →
      k ≤ ((s.inodes p).iSize + l) / 512 → all i ≠ all k) :
    WriteRun s t fdIdx p all src w l first (s.inodes p).iSize := by
  induction fuel generalizing s w l first with
  | zero =>
      rw [writeLoop] at h
      split at h
      · rename_i hl
        subst hl
        cases h
        exact WriteRun.refl _ _ _ _ _ _ _
      · cases h
  | succ fuel ih =>
      by_cases hl : l = 0
      · rw [writeLoop, if_pos hl] at h
        cases h
        subst hl
        exact WriteRun.refl _ _ _ _ _ _ _
      · obtain ⟨h140, d, hrest, hnew, hout, hold⟩ := writeLoop_round hl h
        generalize hn : (s.inodes p).iSize = n at *
        generalize hc : min l (512 - n % 512) = c at *
        have hu : u32 (n + c) = n + c := u32_of_lt (by omega)
        rw [hu] at hrest
        have hn' : ((((s.setDisk d).setInode p ((s.inodes p).withSize (n + c))).setFd fdIdx
            { s.fileTable fdIdx with fdPos := u32 ((s.fileTable fdIdx).fdPos + c) }).inodes
              p).iSize = n + c := by simp
        have hrun := ih hrest (.inr (by omega)) (by omega)
          (fun i k h₁ h₂ h₃ => hinj i k (by omega) h₂ (by omega))
        rw [hn'] at hrun
        -- the blocks of the later rounds are other blocks than this round's
        have hkeep : ∀ a, inBlock (all (n / 512)) a → t.disk a = d a := by
          intro a ha
          refine (hrun.frame a fun i hi hblk => ?_).trans (by simp)
          exact hinj (n / 512) ((n + c + i) / 512) (Nat.le_refl _) (by omega) (by omega)
            (inBlock_unique ha hblk)
        refine ⟨?_, fun i hi => ?_, fun a ha => ?_, fun hfirst o ho => ?_⟩
        · obtain ⟨d', pos, ht⟩ := hrun.state
          refine ⟨d', pos, ?_⟩
          rw [ht, show n + c + (l - c) = n + l by omega]
          simp [FsState.setInode, FsState.setFd, FsState.setDisk, Function.update_idem]
        · by_cases hi' : i < c
          · have h₁ : (n + i) / 512 = n / 512 := by omega
            have h₂ : (n + i) % 512 = n % 512 + i := by omega
            rw [h₁, h₂, hkeep _ (by unfold inBlock; omega), ← Nat.add_assoc]
            exact hnew i hi'
          · have hrest := hrun.new (i - c) (by omega)
            rw [show n + c + (i - c) = n + i by omega, show w + c + (i - c) = w + i by omega]
              at hrest
            exact hrest
        · have hone : ¬ inBlock (all (n / 512)) a := by simpa using ha 0 (by omega)
          refine (hrun.frame a fun i hi => ?_).trans ?_
          · rw [Nat.add_assoc]
            exact ha (c + i) (by omega)
          · simpa using hout a hone
        · rw [hkeep _ (by unfold inBlock; omega)]
          exact hold hfirst o ho

/-- The array of block addresses bounds how far the loop can go. -/
theorem writeLoop_bound (h : writeLoop fdIdx p all src fuel w l first s = .ok t) (hl : l ≠ 0) :
    (s.inodes p).iSize + l ≤ 140 * 512 := by
  induction fuel generalizing s w l first with
  | zero =>
      rw [writeLoop, if_neg hl] at h
      cases h
  | succ fuel ih =>
      obtain ⟨h140, d, hrest, -⟩ := writeLoop_round hl h
      generalize hn : (s.inodes p).iSize = n at *
      generalize hc : min l (512 - n % 512) = c at *
      by_cases hlast : l - c = 0
      · omega
      · have := ih hrest hlast
        simp only [FsState.setFd_inodes, FsState.setInode_inodes, Function.update_self,
          Inode.withSize_iSize, u32] at this
        omega

/-- Blocks on the disk and enough rounds make the loop succeed. -/
theorem writeLoop_of_onDisk (hfuel : l ≤ fuel) (hsize : (s.inodes p).iSize + l ≤ 140 * 512)
    (hdisk : ∀ k, (s.inodes p).iSize / 512 ≤ k → k < ((s.inodes p).iSize + l + 511) / 512 →
      all k ≤ maxLba) :
    ∃ t, writeLoop fdIdx p all src fuel w l first s = .ok t := by
  induction fuel generalizing s w l first with
  | zero =>
      rw [writeLoop, if_pos (by omega)]
      exact ⟨s, rfl⟩
  | succ fuel ih =>
      by_cases hl : l = 0
      · rw [writeLoop, if_pos hl]
        exact ⟨s, rfl⟩
      · rw [writeLoop, if_neg hl]
        have hlba := hdisk ((s.inodes p).iSize / 512) (Nat.le_refl _) (by omega)
        have hbuf : ∃ b, firstBlockBytes s first (all ((s.inodes p).iSize / 512)) = .ok b := by
          unfold firstBlockBytes
          split
          · rw [ideRead, kassert_pos hlba, kassert_pos (by omega)]
            exact ⟨_, rfl⟩
          · exact ⟨_, rfl⟩
        obtain ⟨ioBuf, hbuf⟩ := hbuf
        simp only [blockSize, blockEntry, if_pos (show (s.inodes p).iSize / 512 < 140 by omega),
          Outcome.ok_bind, hbuf, ideWrite, kassert_pos hlba, kassert_pos (show 1 > 0 by omega)]
        generalize hn : (s.inodes p).iSize = n at *
        generalize hc : min l (512 - n % 512) = c at *
        have hu : u32 (n + c) = n + c := u32_of_lt (by omega)
        refine ih (by omega) ?_ ?_ <;>
          simp only [FsState.setFd_inodes, FsState.setInode_inodes, FsState.setDisk_inodes,
            Function.update_self, Inode.withSize_iSize, hn, hu]
        · omega
        · exact fun k h₁ h₂ => hdisk k (by omega) (by omega)

/-- The loop writes blocks, the size and the position. -/
theorem writeLoop_state (h : writeLoop fdIdx p all src fuel w l first s = .ok t) :
    ∃ d ino fd, t = ((s.setDisk d).setInode p ino).setFd fdIdx fd := by
  have hnone : ∀ s : FsState, ∃ d ino fd, s = ((s.setDisk d).setInode p ino).setFd fdIdx fd := by
    intro s
    refine ⟨s.disk, s.inodes p, s.fileTable fdIdx, ?_⟩
    have hdisk : s.setDisk s.disk = s := rfl
    rw [hdisk, s.setInode_self]
    simp [FsState.setFd]
  induction fuel generalizing s w l first with
  | zero =>
      by_cases hl : l = 0
      · rw [writeLoop, if_pos hl] at h
        cases h
        exact hnone _
      · rw [writeLoop, if_neg hl] at h
        cases h
  | succ fuel ih =>
      by_cases hl : l = 0
      · rw [writeLoop, if_pos hl] at h
        cases h
        exact hnone _
      · obtain ⟨-, d, hrest, -⟩ := writeLoop_round hl h
        obtain ⟨d', ino', fd', rfl⟩ := ih hrest
        refine ⟨d', ino', fd', ?_⟩
        simp [FsState.setFd, FsState.setInode, FsState.setDisk]

end

/-! ## The whole call -/

/-- The write that crosses from a direct block into the indirect ones. -/
def Crossing (ino : Inode) (count : Nat) : Prop :=
  ino.iSize / 512 < 12 ∧ 12 ≤ (ino.iSize + count) / 512

/-- The crossing that allocates direct blocks on its way, which it loses. -/
def LosesBlocks (ino : Inode) (count : Nat) : Prop :=
  ino.iSize / 512 < 11 ∧ 12 ≤ (ino.iSize + count) / 512

/-- The bitmap sector of a new table is written with the block allocated next. -/
def TableSynced (btmp : Bitmap) (ino : Inode) (count : Nat) : Prop :=
  Crossing ino count →
    if ino.iSectors 0 = 0 then ∀ b, FirstClear btmp b → NextInSector (bitmapSet btmp b true)
    else NextInSector btmp

/-- What a completed file_write has done. -/
structure Written (s t : FsState) (fdIdx p : Nat) (buf : Mem) (count : Nat) : Prop where
  bound : (s.inodes p).iSize + count < 140 * 512
  state : ∃ bits d sec pos,
    t = ((s.countMalloc.countMalloc.countMalloc.setBlocks bits d).setInode p
      (((s.inodes p).withSectors sec).withSize ((s.inodes p).iSize + count))).setFd fdIdx
        { s.fileTable fdIdx with fdPos := pos }
  layout : Layout t
  grows : Ledger.Grows (blockRef s.disk (s.inodes p)) (usedBlocks s)
    (blockRef t.disk (t.inodes p)) (usedBlocks t)
  extends_ : ¬ LosesBlocks (s.inodes p) count → Ledger.Extends (blockRef s.disk (s.inodes p))
    (usedBlocks s) (blockRef t.disk (t.inodes p)) (usedBlocks t)
  shape : FileShape t.disk (t.inodes p)
  lost : ∀ j, (s.inodes p).iSize / 512 < j → j < 12 → Crossing (s.inodes p) count →
    blockRef t.disk (t.inodes p) j = 0
  filled : ¬ LosesBlocks (s.inodes p) count → ∀ j, (s.inodes p).iSize / 512 ≤ j →
    j ≤ ((s.inodes p).iSize + count) / 512 → blockRef t.disk (t.inodes p) j ≠ 0
  old : ∀ i, i < (s.inodes p).iSize → blockRef s.disk (s.inodes p) (i / 512) ≠ 0 →
    fileByte t.disk (t.inodes p) i = fileByte s.disk (s.inodes p) i
  new : ¬ LosesBlocks (s.inodes p) count → ∀ i, i < count →
    fileByte t.disk (t.inodes p) ((s.inodes p).iSize + i) = buf i
  -- an address is written only in the file's own and in new blocks, in the
  -- block bitmap and in the record the inode is written back to
  frame : ∀ a, ¬ inBlockMap s a →
    (a < slotAddr s ((s.inodes p).iNo % 256) ∨
      slotAddr s ((s.inodes p).iNo % 256) + inodeSpan ((s.inodes p).iNo % 256) ≤ a) →
    (∀ lba, inBlock lba a → lba ∈ usedBlocks t →
      lba ∈ usedBlocks s ∧ ∀ j, blockRef s.disk (s.inodes p) j ≠ lba) →
    t.disk a = s.disk a
  slot : ∀ i, i < inodeSpan ((s.inodes p).iNo % 256) →
    t.disk (slotAddr s ((s.inodes p).iNo % 256) + i) = (t.inodes p).synced.bytes i
  synced : BlockMapSynced s → TableSynced s.part.blockBitmap (s.inodes p) count →
    BlockMapSynced t

/-- The inode table lies between the bitmaps and the data blocks. -/
theorem Layout.slot_not_inBlock {s : FsState} (h : Layout s) {lba n a : Nat} (hn : n < 4096)
    (hl : s.part.sb.dataStartLba ≤ lba) (h₁ : slotAddr s n ≤ a) (h₂ : a < slotAddr s n + inodeSize) :
    ¬ inBlock lba a ∧ ¬ inBlockMap s a := by
  have hb := h.blockMap_le
  have hi := h.inodeMap_lt
  have ht := h.table_le
  simp only [slotAddr, inodeSize] at h₁ h₂
  unfold inBlock inBlockMap
  omega

theorem syncFileInode_eq {s : FsState} {p : Nat} (hs : Layout s) (hheap : HeapServes s) :
    syncFileInode s p = .ok (s.countMalloc.setDisk
      (s.disk.copy (slotAddr s ((s.inodes p).iNo % 256)) (s.inodes p).synced.bytes 0
        (inodeSpan ((s.inodes p).iNo % 256)))) := by
  unfold syncFileInode
  rw [hheap.sysMalloc]
  simp only [inodeSync_eq hs.countMalloc.table, Outcome.ok_bind]
  rw [sysFree_own rfl]
  rfl

/-- The runs a completed file_write is made of. -/
theorem fileWrite_split {s t : FsState} {fdIdx p count : Nat} {buf : Mem} {r : Int}
    (hfd : (s.fileTable fdIdx).fdInode = some p) (hheap : HeapServes s)
    (h : fileWrite s fdIdx buf count = .ok (r, t)) (hr : r ≠ -1) :
    r = count ∧ ∃ s₁ s₂ s₃ all, firstBlock p s.countMalloc.countMalloc = .ok (true, s₁) ∧
      (u32 ((s₁.inodes p).iSize + count) / 512 + 1 ≤ 140 ∨ s₁.ndebug = true) ∧
      mapBlocks p ((s₁.inodes p).iSize / 512 + 1) (u32 ((s₁.inodes p).iSize + count) / 512 + 1) s₁
        = .ok (some all, s₂) ∧
      writeLoop fdIdx p all buf count 0 count true (s₂.setFd fdIdx
        { s₂.fileTable fdIdx with fdPos := subU32 (s₂.inodes p).iSize 1 }) = .ok s₃ ∧
      syncFileInode s₃ p = .ok t := by
  unfold fileWrite at h
  rw [hfd] at h
  simp only [hheap.sysMalloc, hheap.countMalloc.sysMalloc] at h
  split at h
  · cases h
    exact absurd rfl hr
  obtain ⟨⟨ok, s₁⟩, hfirst, h⟩ := Outcome.bind_eq_ok.1 h
  cases ok
  · cases h
    exact absurd rfl hr
  obtain ⟨_, hassert, h⟩ := Outcome.bind_eq_ok.1 h
  obtain ⟨⟨all, s₂⟩, hmap, h⟩ := Outcome.bind_eq_ok.1 h
  rcases all with _ | all
  · cases h
    exact absurd rfl hr
  obtain ⟨s₃, hloop, h⟩ := Outcome.bind_eq_ok.1 h
  obtain ⟨s₄, hsync, h⟩ := Outcome.bind_eq_ok.1 h
  obtain ⟨_, -, h⟩ := Outcome.bind_eq_ok.1 h
  obtain ⟨_, -, h⟩ := Outcome.bind_eq_ok.1 h
  cases h
  exact ⟨rfl, s₁, s₂, s₃, all, hfirst, kassert_eq_ok.1 hassert, hmap, hloop, hsync⟩

/-- The three runs of a file_write that appends `count` bytes, and the
    write-back of the inode. -/
structure WriteParts (s s₁ s₂ s₃ t : FsState) (fdIdx p : Nat) (buf : Mem) (count : Nat)
    (all : Nat → Nat) : Prop where
  bound : (s.inodes p).iSize + count < 140 * 512
  size₁ : (s₁.inodes p).iSize = (s.inodes p).iSize
  size₂ : (s₂.inodes p).iSize = (s.inodes p).iSize
  first : FirstRun s.countMalloc.countMalloc s₁ p
  sound₁ : Ledger.Sound (blockRef s₁.disk (s₁.inodes p)) (usedBlocks s₁)
  map : MapRun s₁ s₂ p ((s.inodes p).iSize / 512 + 1) (((s.inodes p).iSize + count) / 512 + 1) all
  sound₂ : Ledger.Sound (blockRef s₂.disk (s₂.inodes p)) (usedBlocks s₂)
  data : ∃ pos, WriteRun (s₂.setFd fdIdx { s₂.fileTable fdIdx with fdPos := pos }) s₃ fdIdx p all
    buf 0 count true (s.inodes p).iSize
  sync : t = s₃.countMalloc.setDisk (s₃.disk.copy (slotAddr s₃ ((s₃.inodes p).iNo % 256))
    (s₃.inodes p).synced.bytes 0 (inodeSpan ((s₃.inodes p).iNo % 256)))

theorem fileWrite_parts {s t : FsState} {fdIdx p count : Nat} {buf : Mem} {r : Int}
    (hfd : (s.fileTable fdIdx).fdInode = some p) (hheap : HeapServes s) (hpre : WritePre s p)
    (hsize : (s.inodes p).iSize < 140 * 512)
    (hbound : s.ndebug = false ∨ (s.inodes p).iSize + count < 140 * 512)
    (h : fileWrite s fdIdx buf count = .ok (r, t)) (hr : r ≠ -1) :
    r = count ∧ ∃ s₁ s₂ s₃ all, WriteParts s s₁ s₂ s₃ t fdIdx p buf count all := by
  obtain ⟨hret, s₁, s₂, s₃, all, hfirst, hassert, hmap, hloop, hsync⟩ :=
    fileWrite_split hfd hheap h hr
  refine ⟨hret, s₁, s₂, s₃, all, ?_⟩
  have hone := firstBlock_run (s := s.countMalloc.countMalloc)
    ⟨hpre.layout.countMalloc.countMalloc, hpre.sound, hpre.shape⟩ hfirst
  obtain ⟨bits₁, d₁, sec₁, hs₁⟩ := hone.state
  have hsize₁ : (s₁.inodes p).iSize = (s.inodes p).iSize := by
    rw [hs₁]
    simp
  have hsize₂ : (s₂.inodes p).iSize = (s.inodes p).iSize := ((mapBlocks_allots hmap).iSize p).trans hsize₁
  rw [hsize₁] at hassert hmap
  -- the loop cannot leave the array of block addresses
  have hle : (s.inodes p).iSize + count ≤ 140 * 512 := by
    by_cases hc : count = 0
    · omega
    · have := writeLoop_bound hloop hc
      simp only [FsState.setFd_inodes, hsize₂] at this
      exact this
  have hu : u32 ((s.inodes p).iSize + count) = (s.inodes p).iSize + count := u32_of_lt (by omega)
  rw [hu] at hassert hmap
  have hlt : (s.inodes p).iSize + count < 140 * 512 := by
    rcases hbound with hnd | hlt
    · have hnd₁ : s₁.ndebug = s.ndebug := by rw [hs₁]; rfl
      rcases hassert with hwill | hbad
      · omega
      · rw [hnd₁, hnd] at hbad
        cases hbad
    · exact hlt
  have hsound₁ : Ledger.Sound (blockRef s₁.disk (s₁.inodes p)) (usedBlocks s₁) :=
    hpre.sound.grows (show Ledger.Grows (blockRef s.disk (s.inodes p)) (usedBlocks s) _ _ from
      hone.extends_.toGrows)
  have hrun := mapBlocks_run ⟨hone.layout, hsound₁, hone.shape, by rw [hsize₁], by omega,
    by omega⟩ hmap
  have hdata := writeLoop_run hloop (.inl rfl)
    (by simp only [FsState.setFd_inodes, hsize₂]; omega)
    (fun i k h₁ h₂ h₃ => by
      simp only [FsState.setFd_inodes, hsize₂] at h₁ h₃
      exact hrun.inj i k (by omega) h₂ (by omega))
  simp only [FsState.setFd_inodes, hsize₂] at hdata
  obtain ⟨d₃, pos, hs₃⟩ := hdata.state
  obtain ⟨bits₂, d₂, sec₂, hs₂⟩ := hrun.state
  have hl₃ : Layout s₃ := hs₃ ▸ (((hrun.layout.setFd _ _).setDisk _).setInode _ _).setFd _ _
  have hheap₃ : HeapServes s₃ := by
    rw [hs₃, hs₂, hs₁]
    exact hheap.countMalloc.countMalloc
  rw [syncFileInode_eq hl₃ hheap₃] at hsync
  cases hsync
  exact ⟨hlt, hsize₁, hsize₂, hone, hsound₁, hrun, hsound₁.grows hrun.grows, ⟨_, hdata⟩, rfl⟩

namespace WriteParts

variable {s s₁ s₂ s₃ t : FsState} {fdIdx p count : Nat} {buf : Mem} {all : Nat → Nat}

theorem state_eq (h : WriteParts s s₁ s₂ s₃ t fdIdx p buf count all) :
    ∃ bits d sec pos,
      t = ((s.countMalloc.countMalloc.countMalloc.setBlocks bits d).setInode p
        (((s.inodes p).withSectors sec).withSize ((s.inodes p).iSize + count))).setFd fdIdx
          { s.fileTable fdIdx with fdPos := pos } := by
  obtain ⟨bits₁, d₁, sec₁, hs₁⟩ := h.first.state
  obtain ⟨bits₂, d₂, sec₂, hs₂⟩ := h.map.state
  obtain ⟨pos₀, hdata⟩ := h.data
  obtain ⟨d₃, pos, hs₃⟩ := hdata.state
  refine ⟨bits₂, t.disk, sec₂, pos, ?_⟩
  rw [h.sync, hs₃, hs₂, hs₁]
  simp [FsState.setInode, FsState.setFd, FsState.setDisk, FsState.setBlocks, FsState.setPart,
    FsState.countMalloc, Function.update_idem, Inode.withSize, Inode.withSectors]

theorem inode_eq (h : WriteParts s s₁ s₂ s₃ t fdIdx p buf count all) :
    t.inodes p = s₃.inodes p ∧
      s₃.inodes p = (s₂.inodes p).withSize ((s.inodes p).iSize + count) := by
  obtain ⟨pos₀, hdata⟩ := h.data
  obtain ⟨d₃, pos, hs₃⟩ := hdata.state
  exact ⟨by rw [h.sync]; rfl, by rw [hs₃]; simp⟩

theorem part_eq (h : WriteParts s s₁ s₂ s₃ t fdIdx p buf count all) :
    t.part = s₂.part ∧ s₃.part = s₂.part ∧ s₂.part.sb = s.part.sb := by
  obtain ⟨bits₁, d₁, sec₁, hs₁⟩ := h.first.state
  obtain ⟨bits₂, d₂, sec₂, hs₂⟩ := h.map.state
  obtain ⟨pos₀, hdata⟩ := h.data
  obtain ⟨d₃, pos, hs₃⟩ := hdata.state
  have h₃ : s₃.part = s₂.part := by rw [hs₃]; rfl
  exact ⟨by rw [h.sync, ← h₃]; rfl, h₃, by rw [hs₂, hs₁]; rfl⟩

theorem iNo_eq (h : WriteParts s s₁ s₂ s₃ t fdIdx p buf count all) :
    (s₃.inodes p).iNo = (s.inodes p).iNo := by
  obtain ⟨bits₁, d₁, sec₁, hs₁⟩ := h.first.state
  obtain ⟨bits₂, d₂, sec₂, hs₂⟩ := h.map.state
  rw [h.inode_eq.2, hs₂, hs₁]
  simp

theorem used_eq (h : WriteParts s s₁ s₂ s₃ t fdIdx p buf count all) :
    usedBlocks t = usedBlocks s₂ := by
  unfold usedBlocks blockBits
  rw [h.part_eq.1]

/-- The write-back stays in the inode's record. -/
theorem disk_eq (h : WriteParts s s₁ s₂ s₃ t fdIdx p buf count all) :
    t.disk = s₃.disk.copy (slotAddr s ((s.inodes p).iNo % 256)) (t.inodes p).synced.bytes 0
      (inodeSpan ((s.inodes p).iNo % 256)) := by
  have hslot : ∀ n, slotAddr s₃ n = slotAddr s n := by
    intro n
    rw [slotAddr, slotAddr, h.part_eq.2.1, h.part_eq.2.2]
  rw [h.sync, FsState.setDisk_disk, h.iNo_eq, hslot]
  rfl

theorem disk_slot (h : WriteParts s s₁ s₂ s₃ t fdIdx p buf count all) {a : Nat}
    (ha : a < slotAddr s ((s.inodes p).iNo % 256) ∨
      slotAddr s ((s.inodes p).iNo % 256) + inodeSpan ((s.inodes p).iNo % 256) ≤ a) :
    t.disk a = s₃.disk a := by
  rw [h.disk_eq]
  exact Mem.copy_outside ha

theorem disk_data (h : WriteParts s s₁ s₂ s₃ t fdIdx p buf count all) (hs : Layout s)
    {lba a : Nat} (hl : s.part.sb.dataStartLba ≤ lba) (ha : inBlock lba a) :
    t.disk a = s₃.disk a := by
  refine h.disk_slot ?_
  by_contra hin
  have hle := inodeSpan_le ((s.inodes p).iNo % 256)
  exact (hs.slot_not_inBlock (n := (s.inodes p).iNo % 256) (by omega) hl (by omega)
    (by omega)).1 ha

/-- The blocks of the map are used afterwards. -/
theorem map_at (h : WriteParts s s₁ s₂ s₃ t fdIdx p buf count all) {i : Nat} (hi : i < count) :
    all (((s.inodes p).iSize + i) / 512) ∈ usedBlocks s₂ ∧
      (all (((s.inodes p).iSize + i) / 512)
          = blockRef s₂.disk (s₂.inodes p) (((s.inodes p).iSize + i) / 512) ∨
        LosesBlocks (s.inodes p) count ∧
          all (((s.inodes p).iSize + i) / 512) ∉ usedBlocks s₁ ∧
          ∀ j, blockRef s₂.disk (s₂.inodes p) j ≠ all (((s.inodes p).iSize + i) / 512)) := by
  obtain ⟨hmem, hcase⟩ := h.map.map (((s.inodes p).iSize + i) / 512) (by omega) (by omega)
  refine ⟨hmem, hcase.imp_right ?_⟩
  rintro ⟨h₁, h₂, h₃, hfresh, hne⟩
  exact ⟨⟨by omega, by omega⟩, hfresh, hne⟩

/-- A block of the file that the loop does not write, and a table, keep their
    bytes through the loop. -/
theorem keep (h : WriteParts s s₁ s₂ s₃ t fdIdx p buf count all) (hs : Layout s) {j a : Nat}
    (hj : ∀ i, i < count → j ≠ ((s.inodes p).iSize + i) / 512)
    (hne : blockRef s₂.disk (s₂.inodes p) j ≠ 0)
    (ha : inBlock (blockRef s₂.disk (s₂.inodes p) j) a) : t.disk a = s₂.disk a := by
  have hmem := h.sound₂.mem j hne
  have hdata := dataStart_le_of_mem hmem
  rw [h.part_eq.2.2] at hdata
  rw [h.disk_data hs hdata ha]
  obtain ⟨pos, hrun⟩ := h.data
  refine (hrun.frame a fun i hi hblk => ?_).trans rfl
  have heq := inBlock_unique ha hblk
  rcases (h.map_at hi).2 with hall | ⟨-, -, hother⟩
  · exact hj i hi (h.sound₂.inj j _ hne (heq.trans hall))
  · exact hother j heq

/-- The pointers are those the map left. -/
theorem refs_eq (h : WriteParts s s₁ s₂ s₃ t fdIdx p buf count all) (hs : Layout s) :
    blockRef t.disk (t.inodes p) = blockRef s₂.disk (s₂.inodes p) := by
  have hsec : (t.inodes p).iSectors = (s₂.inodes p).iSectors := by
    rw [h.inode_eq.1, h.inode_eq.2]
    rfl
  have hbound := h.bound
  funext j
  refine blockRef_congr (fun k _ => by rw [hsec]) (fun htab i hi => ?_) j
  rw [← blockRef_table s₂.disk (s₂.inodes p)] at htab ⊢
  exact h.keep hs (fun i hi => by omega) htab (by unfold inBlock; omega)

theorem grows (h : WriteParts s s₁ s₂ s₃ t fdIdx p buf count all) :
    Ledger.Grows (blockRef s.disk (s.inodes p)) (usedBlocks s)
      (blockRef s₂.disk (s₂.inodes p)) (usedBlocks s₂) :=
  h.first.extends_.toGrows.trans h.map.grows

/-- What the calls before the loop leave of a sector. -/
theorem disk_before (h : WriteParts s s₁ s₂ s₃ t fdIdx p buf count all) {a : Nat}
    (ha : ¬ inBlockMap s a)
    (htab : (s₂.inodes p).iSectors 12 ≠ 0 → ¬ inBlock ((s₂.inodes p).iSectors 12) a) :
    s₂.disk a = s.disk a := by
  have hsb : s₁.part.sb = s.part.sb := by
    obtain ⟨bits₁, d₁, sec₁, hs₁⟩ := h.first.state
    rw [hs₁]
    rfl
  rw [h.map.disk_out a (by rwa [inBlockMap, hsb]) (fun hw => htab (h.map.table.2 hw)),
    h.first.disk_out a ha]
  rfl

theorem shape_after (h : WriteParts s s₁ s₂ s₃ t fdIdx p buf count all) (hs : Layout s) :
    FileShape t.disk (t.inodes p) := by
  have hbound := h.bound
  have hsize : (t.inodes p).iSize = (s.inodes p).iSize + count := by
    rw [h.inode_eq.1, h.inode_eq.2, Inode.withSize_iSize]
  have hsec : (t.inodes p).iSectors = (s₂.inodes p).iSectors := by
    rw [h.inode_eq.1, h.inode_eq.2]
    rfl
  have hrefs := h.refs_eq hs
  refine ⟨?_, ?_, fun j h₁ h₂ => ?_, ?_⟩
  · have h0 := h.first.shape.first
    rw [← blockRef_direct (d := s₁.disk) (by omega)] at h0
    rw [hsec, ← blockRef_direct (d := s₂.disk) (by omega), h.map.grows.old 0 h0]
    exact h0
  · rw [hrefs, hsize]
    obtain ⟨hmem, hcase⟩ := h.map.map (((s.inodes p).iSize + count) / 512) (by omega) (by omega)
    rcases hcase with hall | ⟨h₁, h₂, h₃, -⟩
    · exact hall ▸ h.map.layout.ne_zero hmem
    · omega
  · rw [hrefs]
    exact h.map.tail j (by omega) h₂
  · rw [hsec, h.map.table, hsize]
    omega

/-- The old bytes are where they were. -/
theorem old_bytes (h : WriteParts s s₁ s₂ s₃ t fdIdx p buf count all) (hs : Layout s)
    {i : Nat} (hi : i < (s.inodes p).iSize)
    (hne : blockRef s.disk (s.inodes p) (i / 512) ≠ 0) :
    fileByte t.disk (t.inodes p) i = fileByte s.disk (s.inodes p) i := by
  have hbound := h.bound
  have hold := h.grows.old (i / 512) hne
  have hmem := h.sound₂.mem (i / 512) (hold ▸ hne)
  have hdata := dataStart_le_of_mem hmem
  rw [h.part_eq.2.2] at hdata
  rw [fileByte, fileByte, h.refs_eq hs]
  -- the byte on the disk before the loop
  have hbefore : s₂.disk (blockRef s₂.disk (s₂.inodes p) (i / 512) * 512 + i % 512)
      = s.disk (blockRef s.disk (s.inodes p) (i / 512) * 512 + i % 512) := by
    rw [← hold]
    refine h.disk_before (hs.not_inBlockMap hdata (by unfold inBlock; omega)) fun htab hblk => ?_
    have heq : (s₂.inodes p).iSectors 12 = blockRef s₂.disk (s₂.inodes p) (i / 512) :=
      inBlock_unique hblk (by unfold inBlock; omega)
    rw [← blockRef_table s₂.disk (s₂.inodes p)] at htab heq
    have := h.sound₂.inj 140 (i / 512) htab heq
    omega
  rw [← hbefore]
  by_cases hlast : i / 512 = (s.inodes p).iSize / 512
  · -- the block the loop begins with
    obtain ⟨pos, hrun⟩ := h.data
    rw [h.disk_data hs hdata (by unfold inBlock; omega)]
    have hall : all ((s.inodes p).iSize / 512) = blockRef s₂.disk (s₂.inodes p) (i / 512) := by
      obtain ⟨-, hcase⟩ := h.map.map ((s.inodes p).iSize / 512) (by omega) (by omega)
      rw [hlast]
      exact hcase.resolve_right (fun hlost => by omega)
    have := hrun.old rfl (i % 512) (by omega)
    rw [hall] at this
    exact this
  · exact h.keep hs (fun k _ => by omega) (hold ▸ hne) (by unfold inBlock; omega)

/-- The new bytes are the buffer's, when no block was lost. -/
theorem new_bytes (h : WriteParts s s₁ s₂ s₃ t fdIdx p buf count all) (hs : Layout s)
    (hlose : ¬ LosesBlocks (s.inodes p) count) {i : Nat} (hi : i < count) :
    fileByte t.disk (t.inodes p) ((s.inodes p).iSize + i) = buf i := by
  obtain ⟨pos, hrun⟩ := h.data
  obtain ⟨hmem, hcase⟩ := h.map_at hi
  have hall := hcase.resolve_right (fun hl => hlose hl.1)
  have hdata := dataStart_le_of_mem hmem
  rw [h.part_eq.2.2] at hdata
  have hnew := hrun.new i hi
  rw [Nat.zero_add] at hnew
  rw [fileByte, h.refs_eq hs, ← hall, h.disk_data hs hdata (by unfold inBlock; omega), hnew]

theorem frame (h : WriteParts s s₁ s₂ s₃ t fdIdx p buf count all) {a : Nat}
    (hmap : ¬ inBlockMap s a)
    (hslot : a < slotAddr s ((s.inodes p).iNo % 256) ∨
      slotAddr s ((s.inodes p).iNo % 256) + inodeSpan ((s.inodes p).iNo % 256) ≤ a)
    (hblk : ∀ lba, inBlock lba a → lba ∈ usedBlocks t →
      lba ∈ usedBlocks s ∧ ∀ j, blockRef s.disk (s.inodes p) j ≠ lba) :
    t.disk a = s.disk a := by
  rw [h.used_eq] at hblk
  -- a block of the file afterwards that was used before was the file's
  have hown : ∀ j, blockRef s₂.disk (s₂.inodes p) j ≠ 0 →
      ¬ inBlock (blockRef s₂.disk (s₂.inodes p) j) a := by
    intro j hj ha
    obtain ⟨hused, hother⟩ := hblk _ ha (h.sound₂.mem j hj)
    exact h.grows.ne_of_mem hused hother hj rfl
  obtain ⟨pos, hrun⟩ := h.data
  rw [h.disk_slot hslot]
  refine (hrun.frame a fun i hi ha => ?_).trans (h.disk_before hmap fun htab => ?_)
  · obtain ⟨hmem, hcase⟩ := h.map_at hi
    rcases hcase with hall | ⟨-, hfresh, -⟩
    · rw [hall] at ha hmem
      exact hown _ (h.map.layout.ne_zero hmem) ha
    · exact hfresh (h.first.extends_.mono (hblk _ ha hmem).1)
  · rw [← blockRef_table s₂.disk (s₂.inodes p)] at htab ⊢
    exact hown 140 htab

theorem synced (h : WriteParts s s₁ s₂ s₃ t fdIdx p buf count all) (hs : Layout s)
    (hsync : BlockMapSynced s) (htab : TableSynced s.part.blockBitmap (s.inodes p) count) :
    BlockMapSynced t := by
  have h₂ : BlockMapSynced s₂ := by
    refine h.map.synced (h.first.synced hsync) fun hused hwill => ?_
    have hcross := htab ⟨by omega, by omega⟩
    have hbm := h.first.bitmap
    by_cases h0 : (s.inodes p).iSectors 0 = 0
    · rw [if_pos h0] at hcross
      rw [if_pos (show (s.countMalloc.countMalloc.inodes p).iSectors 0 = 0 from h0)] at hbm
      obtain ⟨b, hb, hbm⟩ := hbm
      rw [hbm]
      exact hcross b hb
    · rw [if_neg h0] at hcross
      rw [if_neg (show ¬ (s.countMalloc.countMalloc.inodes p).iSectors 0 = 0 from h0)] at hbm
      rw [hbm]
      exact hcross
  have ht : BlockMapSyncedOn (s₂.setDisk t.disk) (fun _ => True) := by
    refine h₂.setDisk h.map.layout fun a ha => ?_
    have hsb := h.part_eq.2.2
    have hmap : inBlockMap s a := by rwa [inBlockMap, hsb] at ha
    have hle := inodeSpan_le ((s.inodes p).iNo % 256)
    rw [h.disk_slot (by
      by_contra hin
      exact (hs.slot_not_inBlock (n := (s.inodes p).iNo % 256) (by omega) (Nat.le_refl _)
        (by omega) (by omega)).2 hmap)]
    obtain ⟨pos, hrun⟩ := h.data
    refine hrun.frame a fun i hi hblk => ?_
    exact h.map.layout.not_inBlockMap (dataStart_le_of_mem (h.map_at hi).1) hblk ha
  intro a ha hP
  rw [h.part_eq.1] at ha ⊢
  exact ht a ha hP

end WriteParts

/-- The free blocks a write of `count` bytes needs. -/
def blocksNeeded (ino : Inode) (count : Nat) : Nat :=
  (if ino.iSectors 0 = 0 then 1 else 0) + ((ino.iSize + count) / 512 - ino.iSize / 512) +
    (if ino.iSize / 512 < 12 ∧ 12 ≤ (ino.iSize + count) / 512 then 1 else 0)

/-- A file open in slot `fdIdx`, with its pointers on the disk and its table
    among the data blocks. -/
structure FileOnDisk (s : FsState) (fdIdx p : Nat) : Prop where
  layout : Layout s
  freeOnDisk : FreeOnDisk s
  fd : (s.fileTable fdIdx).fdInode = some p
  pointers : ∀ j, blockRef s.disk (s.inodes p) j ≤ maxLba
  table : (s.inodes p).iSectors 12 ≠ 0 → s.part.sb.dataStartLba ≤ (s.inodes p).iSectors 12

/-- The blocks file_write counts for `size` bytes. -/
abbrev blocksUsed (size : Nat) : Nat := size / 512 + 1

/-- The first block of the file is there. -/
theorem FileOnDisk.firstBlock {s : FsState} {fdIdx p count : Nat} (h : FileOnDisk s fdIdx p)
    (hcard : blocksNeeded (s.inodes p) count ≤ (freeBits s).card) :
    ∃ t, firstBlock p s.countMalloc.countMalloc = .ok (true, t) ∧
      FirstOk s.countMalloc.countMalloc t p := by
  refine firstBlock_of_ready h.layout.countMalloc.countMalloc h.freeOnDisk h.pointers h.table
    fun h0 => ?_
  unfold blocksNeeded at hcard
  rw [if_pos (show (s.inodes p).iSectors 0 = 0 from h0)] at hcard
  change 0 < (freeBits s).card
  omega

theorem FirstOk.iSize_eq {s t : FsState} {p : Nat} (h : FirstOk s t p) :
    (t.inodes p).iSize = (s.inodes p).iSize := by
  obtain ⟨bits, d, sec, rfl⟩ := h.state
  simp

/-- The blocks the map needs after the first one. -/
theorem FirstOk.room {s t : FsState} {p count : Nat} (h : FirstOk s.countMalloc.countMalloc t p)
    (hcard : blocksNeeded (s.inodes p) count ≤ (freeBits s).card) :
    blocksUsed ((s.inodes p).iSize + count) - blocksUsed (s.inodes p).iSize +
      (if blocksUsed (s.inodes p).iSize ≤ 12 ∧ 12 < blocksUsed ((s.inodes p).iSize + count)
        then 1 else 0) ≤ (freeBits t).card := by
  have hleft := h.card
  change (freeBits s).card ≤ _ + (if (s.inodes p).iSectors 0 = 0 then 1 else 0) at hleft
  unfold blocksNeeded at hcard
  unfold blocksUsed
  split_ifs at hleft hcard ⊢ <;> omega

/-- The pointers asserted do not include the first block's. -/
theorem FirstOk.fits {s t : FsState} {p used will : Nat} (h : FirstOk s t p)
    (hused : 0 < used) : SectorsFit (t.inodes p) used will ↔ SectorsFit (s.inodes p) used will := by
  have h12 := h.rest 12 (by omega)
  constructor
  · rintro ⟨htable, hnone, hlast, htail⟩
    refine ⟨h12 ▸ htable, h12 ▸ hnone, fun h₁ h₂ h₃ => ?_, fun h₁ j h₂ h₃ => ?_⟩
    · rw [← h.rest (used - 1) (by omega)]
      exact hlast h₁ h₂ h₃
    · rw [← h.rest j (by omega)]
      exact htail h₁ j h₂ h₃
  · rintro ⟨htable, hnone, hlast, htail⟩
    refine ⟨h12 ▸ htable, h12 ▸ hnone, fun h₁ h₂ h₃ => ?_, fun h₁ j h₂ h₃ => ?_⟩
    · rw [h.rest (used - 1) (by omega)]
      exact hlast h₁ h₂ h₃
    · rw [h.rest j (by omega)]
      exact htail h₁ j h₂ h₃

/-- With enough free blocks and the ASSERTs met file_write succeeds. -/
theorem fileWrite_of_fit {s : FsState} {fdIdx p count : Nat} (buf : Mem)
    (hon : FileOnDisk s fdIdx p) (hheap : HeapServes s)
    (hbound : (s.inodes p).iSize + count < 140 * 512)
    (hfit : SectorsFit (s.inodes p) (blocksUsed (s.inodes p).iSize)
      (blocksUsed ((s.inodes p).iSize + count)))
    (hcard : blocksNeeded (s.inodes p) count ≤ (freeBits s).card) :
    ∃ t, fileWrite s fdIdx buf count = .ok (count, t) := by
  have hu : u32 ((s.inodes p).iSize + count) = (s.inodes p).iSize + count := u32_of_lt (by omega)
  obtain ⟨s₁, hfirst, hone⟩ := hon.firstBlock hcard
  have hsize₁ : (s₁.inodes p).iSize = (s.inodes p).iSize := hone.iSize_eq
  have hready : MapReady s₁ p (blocksUsed (s.inodes p).iSize)
      (blocksUsed ((s.inodes p).iSize + count)) :=
    { layout := hone.layout
      freeOnDisk := hone.freeOnDisk
      pointers := hone.pointers
      first := hone.first
      fits := (hone.fits (Nat.succ_pos _)).2 hfit
      used_pos := Nat.succ_pos _
      used_le := by unfold blocksUsed; omega
      will_le := by unfold blocksUsed; omega
      room := hone.room hcard }
  obtain ⟨all, s₂, hmap, hok⟩ := mapBlocks_of_ready hready
  obtain ⟨bits₁, d₁, sec₁, hs₁⟩ := hone.state
  obtain ⟨bits₂, d₂, sec₂, hs₂⟩ := hok.state
  have hsize₂ : (s₂.inodes p).iSize = (s.inodes p).iSize := ((mapBlocks_allots hmap).iSize p).trans hsize₁
  obtain ⟨s₃, hloop⟩ : ∃ s₃, writeLoop fdIdx p all buf count 0 count true (s₂.setFd fdIdx
      { s₂.fileTable fdIdx with fdPos := subU32 (s₂.inodes p).iSize 1 }) = .ok s₃ := by
    apply writeLoop_of_onDisk (Nat.le_refl _) <;> simp only [FsState.setFd_inodes, hsize₂]
    · omega
    · intro k h₁ h₂
      exact hok.onDisk k (by unfold blocksUsed; omega) (by unfold blocksUsed; omega)
  obtain ⟨d₃, ino₃, fd₃, hs₃⟩ := writeLoop_state hloop
  have hl₃ : Layout s₃ := hs₃ ▸ (((hok.layout.setFd _ _).setDisk _).setInode _ _).setFd _ _
  have hheap₃ : HeapServes s₃ := by
    rw [hs₃, hs₂, hs₁]
    exact hheap.countMalloc.countMalloc
  have htask₃ : s₃.task = s.task := by
    rw [hs₃, hs₂, hs₁]
    rfl
  refine ⟨s₃.countMalloc.setDisk (s₃.disk.copy (slotAddr s₃ ((s₃.inodes p).iNo % 256))
    (s₃.inodes p).synced.bytes 0 (inodeSpan ((s₃.inodes p).iNo % 256))), ?_⟩
  unfold fileWrite
  rw [hon.fd]
  simp only [hheap.sysMalloc, hheap.countMalloc.sysMalloc, hu]
  rw [if_neg (by simp only [maxFileBytes, blockSize]; omega), hfirst]
  simp only [Outcome.ok_bind, hsize₁, hu, kassert_pos (s := s₁)
    (show ((s.inodes p).iSize + count) / 512 + 1 ≤ 140 by omega), hmap, hloop,
    syncFileInode_eq hl₃ hheap₃]
  rw [if_neg (by simp), sysFree_own (by simp [htask₃]), sysFree_own (by simp [htask₃])]
  rfl

/-- The ASSERTs hold for a file whose blocks are those its size says. -/
theorem WritePre.sectorsFit {s : FsState} {p count : Nat} (h : WritePre s p)
    (hbound : (s.inodes p).iSize + count < 140 * 512) :
    SectorsFit (s.inodes p) (blocksUsed (s.inodes p).iSize)
      (blocksUsed ((s.inodes p).iSize + count)) := by
  unfold blocksUsed
  rcases h.shape with hshape | ⟨hzero, hnone⟩
  · refine ⟨fun h₁ => hshape.table.2 (by omega), fun h₁ h₂ => ?_, fun h₁ h₂ _ => ?_,
      fun h₁ j h₂ h₃ => ?_⟩
    · by_contra hne
      have := hshape.table.1 hne
      omega
    · rw [Nat.add_sub_cancel, ← blockRef_direct (d := s.disk) (by omega)]
      exact hshape.last
    · rw [← blockRef_direct (d := s.disk) (by omega)]
      exact hshape.tail j (by omega) (by omega)
  · have hsec := iSectors_of_unwritten hnone
    refine ⟨fun h₁ => by omega, fun _ _ => hsec 12 (by omega), fun h₁ h₂ h₃ => ?_,
      fun h₁ j h₂ h₃ => hsec j (by omega)⟩
    rw [hzero] at h₃
    exact absurd rfl h₃

theorem WritePre.fileOnDisk {s : FsState} {fdIdx p : Nat} (h : WritePre s p)
    (hfd : (s.fileTable fdIdx).fdInode = some p)
    (hdisk : ∀ j, blockRef s.disk (s.inodes p) j ≤ maxLba) (hfree : FreeOnDisk s) :
    FileOnDisk s fdIdx p := by
  refine ⟨h.layout, hfree, hfd, hdisk, fun hne => ?_⟩
  rw [← blockRef_table s.disk] at hne ⊢
  exact dataStart_le_of_mem (h.sound.mem 140 hne)

/-- With enough free blocks file_write succeeds. -/
theorem fileWrite_of_free {s : FsState} {fdIdx p count : Nat} (buf : Mem)
    (hfd : (s.fileTable fdIdx).fdInode = some p) (hheap : HeapServes s) (hpre : WritePre s p)
    (hdisk : ∀ j, blockRef s.disk (s.inodes p) j ≤ maxLba) (hfree : FreeOnDisk s)
    (hbound : (s.inodes p).iSize + count < 140 * 512)
    (hcard : blocksNeeded (s.inodes p) count ≤ (freeBits s).card) :
    ∃ t, fileWrite s fdIdx buf count = .ok (count, t) :=
  fileWrite_of_fit buf (hpre.fileOnDisk hfd hdisk hfree) hheap hbound (hpre.sectorsFit hbound) hcard

/-- A file_write that does not fail appends. -/
theorem fileWrite_run {s t : FsState} {fdIdx p count : Nat} {buf : Mem} {r : Int}
    (hfd : (s.fileTable fdIdx).fdInode = some p) (hheap : HeapServes s) (hpre : WritePre s p)
    (hsize : (s.inodes p).iSize < 140 * 512)
    (hbound : s.ndebug = false ∨ (s.inodes p).iSize + count < 140 * 512)
    (h : fileWrite s fdIdx buf count = .ok (r, t)) (hr : r ≠ -1) :
    r = count ∧ Written s t fdIdx p buf count := by
  obtain ⟨hret, s₁, s₂, s₃, all, hw⟩ := fileWrite_parts hfd hheap hpre hsize hbound h hr
  have hrefs := hw.refs_eq hpre.layout
  have hb := hw.bound
  refine ⟨hret, hb, hw.state_eq, ?_, ?_, ?_, hw.shape_after hpre.layout, ?_, ?_,
    fun i hi hne => hw.old_bytes hpre.layout hi hne,
    fun hl i hi => hw.new_bytes hpre.layout hl hi, fun a h₁ h₂ h₃ => hw.frame h₁ h₂ h₃, ?_,
    hw.synced hpre.layout⟩
  · exact hw.map.layout.congr hw.part_eq.1
  · rw [hrefs, hw.used_eq]
    exact hw.grows
  · intro hl
    rw [hrefs, hw.used_eq]
    refine hw.first.extends_.trans (hw.map.extends_ fun hwill => ?_)
    unfold LosesBlocks at hl
    omega
  · rintro j h₁ h₂ ⟨h₃, h₄⟩
    rw [hrefs]
    exact hw.map.lost j (by omega) h₂ (by omega)
  · intro hl j h₁ h₂
    rw [hrefs]
    obtain ⟨hmem, hcase⟩ := hw.map.map j (by omega) (by omega)
    rcases hcase with hall | ⟨h₃, h₄, h₅, -⟩
    · exact hall ▸ hw.map.layout.ne_zero hmem
    · exact absurd ⟨by omega, by omega⟩ hl
  · intro i hi
    rw [hw.disk_eq, Mem.copy_inside (by omega) (by omega)]
    exact congrArg _ (by omega)

end Fs
end JackOS
