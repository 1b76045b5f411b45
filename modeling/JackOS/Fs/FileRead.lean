/-
  JackOS.Fs.FileRead

  file_read against the contents of the file.  The loop that moves the data is
  right for any block map; what decides is the map.  `ReadOk` says for which
  sizes, positions and counts the case split of file_read builds the map of
  the file: it misses reads that start and end in different indirect blocks,
  takes the table for block 12 when the read ends inside it, and refuses the
  last block.
-/

import JackOS.Fs.Contents
import JackOS.Fs.File

namespace JackOS
namespace Fs

open Base

/-! ## The loop over the blocks -/

/-- The byte of the disk that a block map puts at position `i` of a file. -/
def mappedByte (s : FsState) (all : Nat → Nat) (i : Nat) : UInt8 :=
  s.disk (all (i / 512) * 512 + i % 512)

/-- The loop copies the mapped bytes from `fdPos` on behind the first
    `bytesRead` bytes of the buffer, and nothing else. -/
theorem readLoop_spec {s : FsState} {all : Nat → Nat} {fuel r l pos : Nat} {d : Mem}
    (hfuel : l ≤ fuel) (hend : pos + l ≤ 140 * 512)
    (hdisk : ∀ k, pos / 512 ≤ k → k < (pos + l + 511) / 512 → all k ≤ maxLba) :
    ∃ dst', readLoop s all fuel r l pos d = .ok (dst', pos + l) ∧
      (∀ i, i < l → dst' (r + i) = mappedByte s all (pos + i)) ∧
      ∀ i, i < r ∨ r + l ≤ i → dst' i = d i := by
  induction fuel generalizing r l pos d with
  | zero =>
      have hl : l = 0 := by omega
      subst hl
      exact ⟨d, by rw [readLoop, if_pos rfl]; rfl, fun i hi => by omega, fun i _ => rfl⟩
  | succ fuel ih =>
      by_cases hl : l = 0
      · subst hl
        exact ⟨d, by rw [readLoop, if_pos rfl]; rfl, fun i hi => by omega, fun i _ => rfl⟩
      · have hlba : all (pos / 512) ≤ maxLba := hdisk _ (Nat.le_refl _) (by omega)
        have h140 : pos / 512 < 140 := by omega
        rw [readLoop, if_neg hl]
        simp only [blockSize, blockEntry, if_pos h140, Outcome.ok_bind, ideRead,
          kassert_pos hlba, kassert_pos (show 1 > 0 by omega)]
        generalize hc : min l (512 - pos % 512) = c
        rw [u32_of_lt (show pos + c < 2 ^ 32 by omega)]
        -- the rounds after this one
        obtain ⟨dst', hrun, hin, hout⟩ := ih (l := l - c) (r := r + c)
          (d := d.copy r (Mem.zero.copy 0 s.disk (all (pos / 512) * 512) (1 * 512)) (pos % 512) c)
          (by omega) (show pos + c + (l - c) ≤ 140 * 512 by omega)
          (fun k h₁ h₂ => hdisk k (by omega) (by omega))
        refine ⟨dst', ?_, fun i hi => ?_, fun i hi => ?_⟩
        · rw [hrun]
          congr 2
          omega
        · by_cases hic : i < c
          · -- this round's bytes are not touched again
            rw [hout (r + i) (by omega), Mem.copy_inside (by omega) (by omega),
              Mem.copy_inside (by omega) (by omega)]
            show s.disk _ = s.disk _
            have h₁ : (pos + i) / 512 = pos / 512 := by omega
            have h₂ : (pos + i) % 512 = pos % 512 + i := by omega
            rw [h₁, h₂]
            exact congrArg s.disk (by omega)
          · have hrest := hin (i - c) (by omega)
            rw [show r + c + (i - c) = r + i by omega,
              show pos + c + (i - c) = pos + i by omega] at hrest
            exact hrest
        · rw [hout i (by omega), Mem.copy_outside (by omega)]

/-! ## What a read should do -/

/-- The number of bytes from `pos` on that a file of `size` bytes can give. -/
def readable (size pos count : Nat) : Nat := min count (size - pos)

/-- file_read in terms of the file's contents: the bytes from the position on
    arrive in the buffer, the position moves on, and neither the disk nor any
    inode changes; at the end of the file it returns -1. -/
def ReadsBack (s : FsState) (fdIdx p : Nat) (buf : Mem) (count : Nat) : Prop :=
  let pos := (s.fileTable fdIdx).fdPos
  let k := readable (s.inodes p).iSize pos count
  if pos < (s.inodes p).iSize then
    ∃ dst t, fileRead s fdIdx buf count = .ok (k, dst, t) ∧
      (∀ i, i < k → dst i = fileByte s.disk (s.inodes p) (pos + i)) ∧
      (∀ i, k ≤ i → dst i = buf i) ∧
      (t.fileTable fdIdx).fdPos = pos + k ∧ t.disk = s.disk ∧ t.inodes = s.inodes
  else
    fileRead s fdIdx buf count = .ok (-1, buf, s)

/-- A descriptor of a well-formed file of `size` bytes, at position `pos`. -/
structure ReadPre (s : FsState) (fdIdx p size pos count : Nat) : Prop where
  heap : HeapServes s
  fd : (s.fileTable fdIdx).fdInode = some p
  rep : FileRep s (s.inodes p)
  size_eq : (s.inodes p).iSize = size
  pos_eq : (s.fileTable fdIdx).fdPos = pos
  size_le : size ≤ 140 * 512
  pos_le : pos ≤ size
  count_pos : 1 ≤ count
  noWrap : pos + count < 2 ^ 32

/-- file_read does so for every well-formed file of that size. -/
def ReadsAt (size pos count : Nat) : Prop :=
  ∀ (s : FsState) (fdIdx p : Nat) (buf : Mem), ReadPre s fdIdx p size pos count →
    ReadsBack s fdIdx p buf count

/-- The sizes, positions and counts file_read handles: with `b` the block of the
    position and `e` the block of the position reached, `e` is not the last
    block, and `b = e`, or all blocks are direct, or the read ends at block 12's
    first byte, or it begins in a direct block and ends behind block 12. -/
def ReadOk (size pos count : Nat) : Prop :=
  pos < size →
    let b := pos / 512
    let e := (pos + readable size pos count) / 512
    e < 139 ∧
      (b = e ∨ e < 12 ∨ e = 12 ∧ (pos + readable size pos count) % 512 = 0 ∨ b < 12 ∧ 12 < e)

instance (size pos count : Nat) : Decidable (ReadOk size pos count) := by
  unfold ReadOk
  infer_instance

section

variable {s : FsState} {fdIdx p size pos count : Nat}

theorem readSize_eq (hpos : pos ≤ size) (hsize : size ≤ 140 * 512) (hwrap : pos + count < 2 ^ 32) :
    readSize pos size count = readable size pos count := by
  unfold readSize readable
  rw [u32_of_lt hwrap]
  split
  · rw [subU32_of_le hpos (by omega)]
    omega
  · omega

/-- Up to its map a read is the loop; this is what file_read does with a map. -/
theorem fileRead_of_map (h : ReadPre s fdIdx p size pos count) (hlt : pos < size) (buf : Mem)
    {all : Nat → Nat}
    (hblocks : (pos + readable size pos count) / 512 < 139)
    (hmap : mapForRead s.countMalloc.countMalloc (s.inodes p) (pos / 512)
      ((pos + readable size pos count) / 512) = .ok all)
    (hdisk : ∀ k, pos / 512 ≤ k → k < (pos + readable size pos count + 511) / 512 →
      all k ≤ maxLba) :
    ∃ dst t, fileRead s fdIdx buf count = .ok (readable size pos count, dst, t) ∧
      (∀ i, i < readable size pos count → dst i = mappedByte s all (pos + i)) ∧
      (∀ i, readable size pos count ≤ i → dst i = buf i) ∧
      (t.fileTable fdIdx).fdPos = pos + readable size pos count ∧ t.disk = s.disk ∧
      t.inodes = s.inodes := by
  have hcount := h.count_pos
  have hwrap := h.noWrap
  have hle := h.size_le
  have hk : readSize pos size count = readable size pos count := readSize_eq h.pos_le hle hwrap
  have hkpos : readable size pos count ≠ 0 := by
    unfold readable
    omega
  have hkend : pos + readable size pos count ≤ size := by
    unfold readable
    omega
  obtain ⟨dst, hloop, hin, hout⟩ : ∃ dst, readLoop s.countMalloc.countMalloc all
      (readable size pos count) 0 (readable size pos count) pos buf
        = .ok (dst, pos + readable size pos count) ∧
      (∀ i, i < readable size pos count →
        dst (0 + i) = mappedByte s.countMalloc.countMalloc all (pos + i)) ∧
      ∀ i, i < 0 ∨ 0 + readable size pos count ≤ i → dst i = buf i :=
    readLoop_spec (Nat.le_refl _) (by omega) hdisk
  refine ⟨dst, s.countMalloc.countMalloc.setFd fdIdx { s.fileTable fdIdx with
    fdPos := pos + readable size pos count }, ?_, fun i hi => ?_,
    fun i hi => hout i (.inr (by omega)), by simp, rfl, rfl⟩
  · rw [fileRead, h.fd]
    simp only [h.size_eq, h.pos_eq, hk]
    rw [if_neg (fun hc => hkpos hc.2)]
    simp only [h.heap.sysMalloc, h.heap.countMalloc.sysMalloc]
    rw [u32_of_lt (show pos + readable size pos count < 2 ^ 32 by omega),
      kassert_pos (show pos / 512 < 139 ∧ _ < 139 from ⟨by omega, hblocks⟩)]
    simp only [Outcome.ok_bind, hmap, hloop]
    rw [sysFree_own rfl, sysFree_own rfl]
    rfl
  · have hbyte := hin i hi
    rw [Nat.zero_add] at hbyte
    exact hbyte

/-! ## The map of a read -/

/-- Where the case split covers the read, the map is the file's on every block
    the loop visits. -/
theorem mapForRead_eq {t : FsState} (hrep : FileRep s (s.inodes p)) (hdisk : t.disk = s.disk)
    (hle : (s.inodes p).iSize ≤ 140 * 512) {b e last : Nat} (hb : b ≤ e) (he : e < 139)
    (hsize : e * 512 ≤ (s.inodes p).iSize) (hlast : last ≤ e)
    (hok : b = e ∨ e < 12 ∨ e = 12 ∧ last < 12 ∨ b < 12 ∧ 12 < e) :
    ∃ all, mapForRead t (s.inodes p) b e = .ok all ∧
      ∀ k, b ≤ k → k ≤ last → all k = blockRef s.disk (s.inodes p) k := by
  have htable : 12 ≤ e → (s.inodes p).iSectors 12 ≠ 0 := fun h => hrep.table.2 (by omega)
  have hlba : (s.inodes p).iSectors 12 ≤ maxLba := by
    have := hrep.onDisk 140
    rwa [blockRef_table] at this
  -- reading the table gives the indirect blocks
  have hread : ∀ (arr : Nat → Nat) (k : Nat), 12 ≤ k → k < 140 → 12 ≤ e →
      (if 12 ≤ k ∧ k < 12 + 128 then t.disk.le32 ((s.inodes p).iSectors 12 * 512 + 4 * (k - 12))
        else arr k) = blockRef s.disk (s.inodes p) k := by
    intro arr k h₁ h₂ h₃
    rw [if_pos (by omega), blockRef_indirect h₁ h₂ (htable h₃), hdisk]
  rw [mapForRead]
  by_cases hbe : e = b
  · rw [if_pos hbe]
    by_cases h12 : e < 12
    · rw [if_pos h12]
      refine ⟨_, rfl, fun k h₁ h₂ => ?_⟩
      rw [copyDirect, if_pos (by omega), blockRef_direct (by omega)]
    · rw [if_neg h12, ideReadWords, kassert_pos hlba]
      refine ⟨_, rfl, fun k h₁ h₂ => ?_⟩
      exact hread (fun _ => 0) k (by omega) (by omega) (by omega)
  rw [if_neg hbe]
  by_cases h12 : e ≤ 12
  · rw [if_pos h12]
    refine ⟨_, rfl, fun k h₁ h₂ => ?_⟩
    rw [copyDirect, if_pos (by omega), blockRef_direct (by omega)]
  rw [if_neg h12, if_pos (show b < 12 by omega), kassert_pos (htable (by omega)), Outcome.ok_bind,
    ideReadWords, kassert_pos hlba]
  refine ⟨_, rfl, fun k h₁ h₂ => ?_⟩
  by_cases hk : k < 12
  · show (if 12 ≤ k ∧ _ then _ else _) = _
    rw [if_neg (by omega), copyDirect, if_pos (by omega), blockRef_direct hk]
  · exact hread (copyDirect (s.inodes p) b 12 fun _ => 0) k (by omega) (by omega) (by omega)

theorem readsAt_of_readOk (hok : ReadOk size pos count) : ReadsAt size pos count := by
  intro s fdIdx p buf h
  have hle := h.size_le
  have hcount := h.count_pos
  have hwrap := h.noWrap
  have hpos := h.pos_le
  simp only [ReadsBack, h.pos_eq, h.size_eq]
  by_cases hlt : pos < size
  · rw [if_pos hlt]
    obtain ⟨he, hcase⟩ := hok hlt
    have hkend : pos + readable size pos count ≤ size := by
      unfold readable
      omega
    have hkpos : 0 < readable size pos count := by
      unfold readable
      omega
    obtain ⟨all, hmap, hall⟩ : ∃ all, mapForRead s.countMalloc.countMalloc (s.inodes p) (pos / 512)
        ((pos + readable size pos count) / 512) = .ok all ∧
        ∀ k, pos / 512 ≤ k → k ≤ (pos + readable size pos count - 1) / 512 →
          all k = blockRef s.disk (s.inodes p) k := by
      apply mapForRead_eq h.rep rfl
      · rw [h.size_eq]
        exact hle
      · omega
      · exact he
      · rw [h.size_eq]
        omega
      · omega
      · omega
    obtain ⟨dst, t, hrun, hin, hout⟩ := fileRead_of_map h hlt buf he hmap (fun k h₁ h₂ => by
      rw [hall k h₁ (by omega)]
      exact h.rep.onDisk k)
    refine ⟨dst, t, hrun, fun i hi => ?_, hout⟩
    rw [hin i hi, mappedByte, hall _ (by omega) (by omega), fileByte]
  · -- at the end of the file nothing is left to read
    have heq : pos = size := by omega
    rw [if_neg hlt, fileRead, h.fd]
    simp only [h.size_eq, h.pos_eq, readSize]
    rw [u32_of_lt hwrap, if_pos (show pos + count > size by omega), subU32_of_le hpos (by omega)]
    rw [if_pos ⟨by omega, by omega⟩]

end

-- ============================================================================
-- A file for every size
-- ============================================================================

/-- The sector pointers of a file of `size` bytes in sectors 613.., with its
    table in sector 753. -/
def probeSectors (size j : Nat) : Nat :=
  if j < 12 then if j ≤ size / 512 then 613 + j else 0
  else if j = 12 ∧ 12 ≤ size / 512 then 753 else 0

/-- The entries of its table. -/
def probeTable (size k : Nat) : Nat := if 12 + k ≤ size / 512 then 625 + k else 0

/-- A full partition with a file of `size` zero bytes, open at position `pos` in
    slot 3.  The boot sector holds ones. -/
def readProbeFs (size pos : Nat) : FsState :=
  { blankFs with
    disk := fun a =>
      if a < 512 then 1
      else if 753 * 512 ≤ a ∧ a < 754 * 512 then
        Mem.wordBytes (probeTable size) (a - 753 * 512)
      else 0
    part :=
      { blankFs.part with
        sb := { blankFs.part.sb with dataStartLba := 612 }
        blockBitmap := ⟨512, fun _ => 0xFF⟩ }
    inodes := fun _ => { inodeInit 1 with iSize := size, iSectors := probeSectors size }
    fileTable := fun _ => ⟨pos, 0, some 0⟩ }

theorem bitAt_full (i : Nat) : bitAt (fun _ => 0xFF) i = true := by
  have h : i % 8 < 8 := Nat.mod_lt _ (by omega)
  rw [bitAt]
  generalize i % 8 = k at h
  interval_cases k <;> rfl

section

variable {size pos count : Nat}

theorem readProbeFs_boot {a : Nat} (h : a < 512) : (readProbeFs size pos).disk a = 1 :=
  if_pos h

theorem readProbeFs_tableByte {i : Nat} (h : i < 512) :
    (readProbeFs size pos).disk (753 * 512 + i) = Mem.wordBytes (probeTable size) i := by
  have hin : 753 * 512 ≤ 753 * 512 + i ∧ 753 * 512 + i < 754 * 512 := by omega
  have hsub : 753 * 512 + i - 753 * 512 = i := by omega
  rw [readProbeFs]
  simp only
  rw [if_neg (by omega), if_pos hin, hsub]

theorem readProbeFs_data {a : Nat} (h₁ : 512 ≤ a) (h₂ : ¬ inBlock 753 a) :
    (readProbeFs size pos).disk a = 0 := by
  rw [inBlock] at h₂
  rw [readProbeFs]
  simp only
  rw [if_neg (by omega), if_neg (by omega)]

theorem readProbeFs_table {k : Nat} (hk : k < 128) :
    (readProbeFs size pos).disk.le32 (753 * 512 + 4 * k) = probeTable size k := by
  have hlt : probeTable size k < 2 ^ 32 := by
    unfold probeTable
    split <;> omega
  rw [← Nat.mod_eq_of_lt hlt, ← Mem.le32_wordBytes]
  refine Mem.le32_congr fun i hi => ?_
  rw [Nat.add_assoc]
  exact readProbeFs_tableByte (by omega)

/-- Block `j` of the probe is sector `613 + j`. -/
theorem readProbeFs_ref {j : Nat} (hj : j < 140) :
    blockRef (readProbeFs size pos).disk ((readProbeFs size pos).inodes 0) j
      = if j ≤ size / 512 then 613 + j else 0 := by
  by_cases h12 : j < 12
  · rw [blockRef_direct h12]
    exact if_pos h12
  · by_cases ht : 12 ≤ size / 512
    · have htab : ((readProbeFs size pos).inodes 0).iSectors 12 = 753 := by
        show probeSectors size 12 = 753
        rw [probeSectors, if_neg (by omega), if_pos ⟨rfl, ht⟩]
      rw [blockRef_indirect (by omega) hj (by rw [htab]; omega), htab,
        readProbeFs_table (by omega), probeTable]
      split_ifs <;> omega
    · have htab : ((readProbeFs size pos).inodes 0).iSectors 12 = 0 := by
        show probeSectors size 12 = 0
        rw [probeSectors, if_neg (by omega), if_neg (by omega)]
      rw [blockRef_noTable (by omega) htab, if_neg (by omega)]

theorem readProbeFs_refTable :
    blockRef (readProbeFs size pos).disk ((readProbeFs size pos).inodes 0) 140
      = if 12 ≤ size / 512 then 753 else 0 := by
  rw [blockRef_table]
  show probeSectors size 12 = _
  rw [probeSectors, if_neg (by omega)]
  split_ifs <;> first | rfl | omega

theorem readProbeFs_rep : FileRep (readProbeFs size pos) ((readProbeFs size pos).inodes 0) := by
  -- every pointer is null, block `613 + j` or the table
  have hcase : ∀ j, blockRef (readProbeFs size pos).disk ((readProbeFs size pos).inodes 0) j = 0 ∨
      j ≤ 140 ∧
        blockRef (readProbeFs size pos).disk ((readProbeFs size pos).inodes 0) j = 613 + j := by
    intro j
    by_cases hj : j < 140
    · rw [readProbeFs_ref hj]
      split_ifs
      · exact .inr ⟨by omega, rfl⟩
      · exact .inl rfl
    · by_cases hj' : j = 140
      · subst hj'
        rw [readProbeFs_refTable]
        split_ifs
        · exact .inr ⟨by omega, rfl⟩
        · exact .inl rfl
      · exact .inl (blockRef_past (by omega))
  refine ⟨.inl fun j hj => ?_, ?_, ⟨fun i j hi heq => ?_, fun j hj => ?_⟩, fun j => ?_⟩
  · rw [readProbeFs_ref hj]
    show _ ↔ j ≤ size / 512
    split_ifs with h <;> simp [h]
  · rw [← blockRef_table (readProbeFs size pos).disk, readProbeFs_refTable]
    show _ ↔ 12 ≤ size / 512
    split_ifs with h <;> simp [h]
  · have hi' := (hcase i).resolve_left hi
    have hj' := (hcase j).resolve_left (heq ▸ hi)
    omega
  · obtain ⟨h140, href⟩ := (hcase j).resolve_left hj
    rw [href]
    exact ⟨j + 1, show j + 1 < 4096 by omega, show 613 + j = 612 + (j + 1) by omega,
      bitAt_full _⟩
  · rcases hcase j with h | ⟨h₁, h₂⟩
    · omega
    · simp only [maxLba]
      omega

theorem readProbeFs_pre (hsize : size ≤ 140 * 512) (hpos : pos ≤ size) (hcount : 1 ≤ count)
    (hwrap : pos + count < 2 ^ 32) : ReadPre (readProbeFs size pos) 3 0 size pos count :=
  ⟨fun _ _ => rfl, rfl, readProbeFs_rep, rfl, rfl, hsize, hpos, hcount, hwrap⟩

/-- The bytes of the probe are zeros. -/
theorem readProbeFs_byte {i : Nat} (hi : i < size) (h140 : i / 512 < 140) :
    fileByte (readProbeFs size pos).disk ((readProbeFs size pos).inodes 0) i = 0 := by
  rw [fileByte, readProbeFs_ref h140, if_pos (by omega)]
  apply readProbeFs_data
  · omega
  · rw [inBlock]
    omega

theorem readOk_of_readsAt (hsize : size ≤ 140 * 512) (hpos : pos ≤ size) (hcount : 1 ≤ count)
    (hwrap : pos + count < 2 ^ 32) (h : ReadsAt size pos count) : ReadOk size pos count := by
  intro hlt
  have hpre := readProbeFs_pre hsize hpos hcount hwrap
  have hread := h _ _ _ Mem.zero hpre
  simp only [ReadsBack, hpre.pos_eq, hpre.size_eq] at hread
  rw [if_pos hlt] at hread
  obtain ⟨dst, t, hrun, hbytes, -⟩ := hread
  have hkend : pos + readable size pos count ≤ size := by
    unfold readable
    omega
  have hkpos : 0 < readable size pos count := by
    unfold readable
    omega
  -- a run that returns has passed the ASSERT on the block indices
  have he : (pos + readable size pos count) / 512 < 139 := by
    by_contra hge
    rw [fileRead, hpre.fd] at hrun
    simp only [hpre.size_eq, hpre.pos_eq, readSize_eq hpos hsize hwrap] at hrun
    rw [if_neg (by omega)] at hrun
    simp only [hpre.heap.sysMalloc, hpre.heap.countMalloc.sysMalloc] at hrun
    rw [u32_of_lt (show pos + readable size pos count < 2 ^ 32 by omega)] at hrun
    obtain ⟨_, hassert, -⟩ := Outcome.bind_eq_ok.1 hrun
    rcases kassert_eq_ok.1 hassert with hlast | hnd
    · exact hge hlast.2
    · cases hnd
  refine ⟨he, ?_⟩
  by_contra hbad
  -- whatever map is built, the bytes it gives are those of the file
  have hmapped : ∀ all, mapForRead (readProbeFs size pos).countMalloc.countMalloc
      ((readProbeFs size pos).inodes 0) (pos / 512) ((pos + readable size pos count) / 512)
        = .ok all →
      (∀ k, pos / 512 ≤ k → k < (pos + readable size pos count + 511) / 512 → all k ≤ maxLba) →
      ∀ i, i < readable size pos count →
        mappedByte (readProbeFs size pos) all (pos + i) = 0 := by
    intro all hmap hdisk i hi
    obtain ⟨dst', t', hrun', hin, -⟩ := fileRead_of_map hpre hlt Mem.zero he hmap hdisk
    rw [hrun] at hrun'
    cases hrun'
    rw [← hin i hi, hbytes i hi, readProbeFs_byte (by omega) (by omega)]
  by_cases h12 : (pos + readable size pos count) / 512 = 12
  · -- the table stands in for block 12, and its first entry is sector 625
    have hmap : mapForRead (readProbeFs size pos).countMalloc.countMalloc
        ((readProbeFs size pos).inodes 0) (pos / 512) ((pos + readable size pos count) / 512)
          = .ok (copyDirect ((readProbeFs size pos).inodes 0) (pos / 512) 13 fun _ => 0) := by
      rw [mapForRead, if_neg (by omega), if_pos (by omega), h12]
    have hbyte := hmapped _ hmap (fun k h₁ h₂ => by
      rw [copyDirect, if_pos (by omega)]
      show probeSectors size k ≤ maxLba
      simp only [probeSectors, maxLba]
      split_ifs <;> omega) (12 * 512 - pos) (by omega)
    rw [show pos + (12 * 512 - pos) = 12 * 512 by omega] at hbyte
    have htab : probeSectors size 12 = 753 := by
      rw [probeSectors, if_neg (by omega), if_pos (by omega)]
    have hcopy : copyDirect ((readProbeFs size pos).inodes 0) (pos / 512) 13 (fun _ => 0) 12
        = 753 := by
      rw [copyDirect, if_pos (by omega)]
      exact htab
    rw [mappedByte, show 12 * 512 / 512 = 12 by omega, hcopy] at hbyte
    have hentry : probeTable size 0 = 625 := by
      rw [probeTable, if_pos (by omega)]
    have hraw : (readProbeFs size pos).disk (753 * 512 + 12 * 512 % 512)
        = Mem.wordBytes (probeTable size) (4 * 0 + 0) := readProbeFs_tableByte (by omega)
    have hword := Mem.wordBytes_apply (probeTable size) 0 0 (by omega)
    rw [← hraw, hbyte, hentry] at hword
    exact absurd hword (by decide)
  · -- no branch fills the map: sector 0 is read
    have hmap : mapForRead (readProbeFs size pos).countMalloc.countMalloc
        ((readProbeFs size pos).inodes 0) (pos / 512) ((pos + readable size pos count) / 512)
          = .ok (fun _ => 0) := by
      rw [mapForRead, if_neg (by omega), if_neg (by omega), if_neg (by omega)]
    have hbyte := hmapped _ hmap (fun _ _ _ => by simp) 0 hkpos
    have hlow : 0 * 512 + (pos + 0) % 512 < 512 := by
      rw [Nat.zero_mul, Nat.zero_add]
      exact Nat.mod_lt _ (by decide)
    rw [mappedByte, readProbeFs_boot hlow] at hbyte
    exact absurd hbyte (by decide)

end

/-- file_read gives back the contents of every well-formed file of `size` bytes
    exactly when its case split covers the read. -/
theorem readsAt_iff_readOk (size pos count : Nat) (hsize : size ≤ 140 * 512) (hpos : pos ≤ size)
    (hcount : 1 ≤ count) (hwrap : pos + count < 2 ^ 32) :
    ReadsAt size pos count ↔ ReadOk size pos count :=
  ⟨readOk_of_readsAt hsize hpos hcount hwrap, readsAt_of_readOk⟩

theorem readsAt_iff_readOk_ten : ReadsAt 10 0 4 ↔ ReadOk 10 0 4 :=
  readsAt_iff_readOk 10 0 4 (by decide) (by decide) (by decide) (by decide)

/-- Reading the first 6145 bytes of a file ends one byte inside block 12, whose
    place the table takes. -/
theorem not_readsAt_block12 : ¬ ∀ size pos count, size ≤ 140 * 512 → pos ≤ size → 1 ≤ count →
    pos + count < 2 ^ 32 → ReadsAt size pos count := by
  intro h
  have hat : ReadsAt 6145 0 6145 := h 6145 0 6145 (by decide) (by decide) (by decide) (by decide)
  exact absurd (readOk_of_readsAt (by decide) (by decide) (by decide) (by decide) hat) (by decide)

end Fs
end JackOS
