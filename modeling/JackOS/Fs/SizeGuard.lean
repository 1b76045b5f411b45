/-
  JackOS.Fs.SizeGuard

  The size checks of `file_write` and `file_read`, made in `uint32_t`
  arithmetic, against the numbers they are about.  `file_write` compares
  `i_size + count` with the largest file and later asserts its block count,
  which is one more than there are blocks when the file would be filled up;
  `file_read` cuts its count to what is left behind `fd_pos`.
-/

import JackOS.Fs.FileAppend

namespace JackOS
namespace Fs

open Base

variable {s t : FsState} {fdIdx p count : Nat} {buf : Mem}

/-! ## Sums of 32-bit numbers -/

/-- A sum that wraps around wraps once. -/
theorem u32_add_of_wraps {a b : Nat} (ha : a < 2 ^ 32) (hb : b < 2 ^ 32) (hwrap : 2 ^ 32 ≤ a + b) :
    u32 (a + b) + 2 ^ 32 = a + b := by
  unfold u32
  omega

/-- The guard of `file_write` says what it is meant to unless the sum wraps. -/
theorem writeGuard_iff {size : Nat} (hsize : size ≤ maxFileBytes) (hcount : count < 2 ^ 32) :
    (maxFileBytes < u32 (size + count) ↔ maxFileBytes < size + count) ↔ size + count < 2 ^ 32 := by
  have hmax : maxFileBytes = 71680 := rfl
  by_cases hwrap : size + count < 2 ^ 32
  · rw [u32_of_lt hwrap]
    exact ⟨fun _ => hwrap, fun _ => .rfl⟩
  · have hsum := u32_add_of_wraps (show size < 2 ^ 32 by omega) hcount (by omega)
    constructor
    · intro h
      have hgt := h.2 (by omega)
      omega
    · intro h
      exact absurd h hwrap

theorem readSize_iff {fdPos size : Nat} (hpos : fdPos ≤ size) (hsize : size ≤ maxFileBytes)
    (hcount : count < 2 ^ 32) :
    readSize fdPos size count = min count (size - fdPos) ↔ fdPos + count < 2 ^ 32 := by
  have hmax : maxFileBytes = 71680 := rfl
  have hleft : subU32 size fdPos = size - fdPos := subU32_of_le hpos (by omega)
  unfold readSize
  by_cases hwrap : fdPos + count < 2 ^ 32
  · rw [u32_of_lt hwrap, hleft]
    split <;> omega
  · -- the wrapped sum passes the guard, so all of `count` would be read
    have hsum := u32_add_of_wraps (show fdPos < 2 ^ 32 by omega) hcount (by omega)
    rw [if_neg (by omega)]
    omega

/-! ## A refused write -/

theorem mallocCnt_ne {n : Nat} (h : t.mallocCnt = s.mallocCnt + n) (hn : 0 < n) : t ≠ s := by
  rintro rfl
  omega

/-- `file_write` returns -1 and changes nothing exactly when the guard says so:
    every other -1 comes after a request to the heap. -/
theorem fileWrite_refused (hp : (s.fileTable fdIdx).fdInode = some p) :
    fileWrite s fdIdx buf count = .ok (-1, s) ↔
      maxFileBytes < u32 ((s.inodes p).iSize + count) := by
  constructor
  · intro h
    apply Classical.byContradiction
    intro hguard
    unfold fileWrite at h
    rw [hp] at h
    dsimp only at h
    rw [if_neg hguard] at h
    cases h₁ : sysMalloc s with
    | mk ioBuf s₁ =>
    have hcnt₁ : s₁.mallocCnt = s.mallocCnt + 1 := by
      rw [sysMalloc_state h₁]
      rfl
    rw [h₁] at h
    cases ioBuf with
    | none =>
        have hs : s₁ = s := (Prod.mk.inj (Except.ok.inj h)).2
        exact mallocCnt_ne hcnt₁ (by omega) hs
    | some ioBuf =>
      dsimp only at h
      cases h₂ : sysMalloc s₁ with
      | mk allBlocksLba s₂ =>
      have hcnt₂ : s₂.mallocCnt = s.mallocCnt + 2 := by
        rw [sysMalloc_state h₂, FsState.countMalloc_mallocCnt, hcnt₁]
      rw [h₂] at h
      cases allBlocksLba with
      | none =>
          have hs : s₂ = s := (Prod.mk.inj (Except.ok.inj h)).2
          exact mallocCnt_ne hcnt₂ (by omega) hs
      | some allBlocksLba =>
        obtain ⟨⟨ok, s₃⟩, hfirst, h⟩ := Outcome.bind_eq_ok.1 h
        have hcnt₃ : s₃.mallocCnt = s.mallocCnt + 2 := by
          rw [(firstBlock_allots hfirst).mallocCnt, hcnt₂]
        dsimp only at h
        split at h
        · have hs : s₃ = s := (Prod.mk.inj (Except.ok.inj h)).2
          exact mallocCnt_ne hcnt₃ (by omega) hs
        · obtain ⟨_, -, h⟩ := Outcome.bind_eq_ok.1 h
          obtain ⟨⟨all, s₄⟩, hmap, h⟩ := Outcome.bind_eq_ok.1 h
          have hcnt₄ : s₄.mallocCnt = s.mallocCnt + 2 := by
            rw [(mapBlocks_allots hmap).mallocCnt, hcnt₃]
          cases all with
          | none =>
              have hs : s₄ = s := (Prod.mk.inj (Except.ok.inj h)).2
              exact mallocCnt_ne hcnt₄ (by omega) hs
          | some all =>
              obtain ⟨s₅, -, h⟩ := Outcome.bind_eq_ok.1 h
              obtain ⟨s₆, -, h⟩ := Outcome.bind_eq_ok.1 h
              obtain ⟨_, -, h⟩ := Outcome.bind_eq_ok.1 h
              obtain ⟨_, -, h⟩ := Outcome.bind_eq_ok.1 h
              have hret := (Prod.mk.inj (Except.ok.inj h)).1
              omega
  · intro hguard
    unfold fileWrite
    rw [hp]
    dsimp only
    rw [if_pos hguard]

/-! ## Failing ASSERTs -/

/-- A round that is to record its block in a sector pointer that is set. -/
theorem allocBlock_assert {all : Nat → Nat} {blockIdx b : Nat} (hdebug : s.ndebug = false)
    (hfree : b ∈ freeBits s) (hset : (s.inodes p).iSectors blockIdx ≠ 0) :
    allocBlock (fun _ => true) p blockIdx all s = .error .assertFailed := by
  obtain ⟨k, hk, halloc⟩ := blockBitmapAlloc_of_free hfree
  have hassert : kassert (setBlockBit s k true)
      (((setBlockBit s k true).inodes p).iSectors blockIdx = 0) = .error .assertFailed :=
    kassert_neg hset hdebug
  unfold allocBlock
  rw [halloc, Outcome.ok_bind]
  dsimp only
  rw [recordBlock, if_pos rfl, hassert]
  rfl

/-- One pointer that is set stops the loop that records its blocks. -/
theorem allocBlocks_assert {all : Nat → Nat} {left idx k : Nat} (hs : Layout s)
    (hdebug : s.ndebug = false) (hfree : left ≤ (freeBits s).card) (h13 : idx + left ≤ 13)
    (h₁ : idx ≤ k) (h₂ : k < idx + left) (hset : (s.inodes p).iSectors k ≠ 0) :
    allocBlocks (fun _ => true) p left idx all s = .error .assertFailed := by
  induction left generalizing idx all s with
  | zero => omega
  | succ left ih =>
      obtain ⟨b₀, hb₀⟩ := Finset.card_pos.1 (show 0 < (freeBits s).card by omega)
      rw [allocBlocks]
      by_cases hidx : (s.inodes p).iSectors idx = 0
      · have hne : k ≠ idx := by
          rintro rfl
          exact hset hidx
        obtain ⟨all₁, s₁, hone⟩ : ∃ all₁ s₁,
            allocBlock (fun _ => true) p idx all s = .ok (some all₁, s₁) :=
          allocBlock_of_free hs hb₀ fun _ _ _ => ⟨by omega, hidx⟩
        obtain ⟨b, hb, -, hs₁⟩ := allocBlock_some hs hone
        have hcard := card_freeBits_setBlocks hb.lt hb.clear (syncedBlockMap (setBlockBit s b true) b)
        rw [hone, Outcome.ok_bind]
        apply ih
        · rw [hs₁]
          exact (hs.take b _).setInode p _
        · rw [hs₁]
          exact hdebug
        · rw [hs₁, freeBits_setInode, putBlockBit_eq]
          omega
        · omega
        · omega
        · omega
        · rw [hs₁]
          simp only [FsState.setInode_inodes, Function.update_self, Inode.recorded, if_true,
            Inode.withSectors_iSectors]
          rw [Function.update_of_ne hne]
          exact hset
      · rw [allocBlock_assert hdebug hb₀ hidx]
        rfl

/-- Sector pointers that do not fit the block counts stop the call. -/
theorem mapBlocks_assert {used will : Nat} (hs : Layout s) (hdebug : s.ndebug = false)
    (hle : used ≤ will) (hfit : ¬ SectorsFit (s.inodes p) used will)
    (hroom : will - used + (if used ≤ 12 ∧ 12 < will then 1 else 0) ≤ (freeBits s).card) :
    mapBlocks p used will s = .error .assertFailed := by
  unfold mapBlocks
  by_cases h12 : 12 < used
  · -- the table is missing
    have htab : ¬ (s.inodes p).iSectors 12 ≠ 0 := fun hne =>
      hfit ⟨fun _ => hne, fun _ _ => by omega, fun _ _ => by omega, fun _ => by omega⟩
    by_cases heq : will = used
    · rw [if_pos heq]
      unfold mapSameBlock
      dsimp only
      rw [if_neg (by omega), kassert_neg htab hdebug]
      rfl
    · rw [if_neg heq, if_neg (by omega), if_neg (by omega)]
      unfold mapIndirect
      dsimp only
      rw [kassert_neg htab hdebug]
      rfl
  by_cases heq : will = used
  · exact absurd ⟨fun _ => by omega, fun _ _ => by omega, fun _ => by omega,
      fun _ _ _ _ => by omega⟩ hfit
  rw [if_neg heq]
  by_cases hdirect : will ≤ 12
  · rw [if_pos hdirect]
    unfold mapDirect
    dsimp only
    by_cases hlast : (s.inodes p).iSectors (used - 1) ≠ 0
    · rw [kassert_pos hlast, Outcome.ok_bind]
      -- some pointer behind the last block is set
      obtain ⟨j, h₁, h₂, hset⟩ : ∃ j, used ≤ j ∧ j < will ∧ (s.inodes p).iSectors j ≠ 0 := by
        apply Classical.byContradiction
        intro hnone
        apply hfit
        refine ⟨fun _ => by omega, fun _ _ => by omega, fun _ _ _ => hlast, fun _ j h₁ h₂ => ?_⟩
        apply Classical.byContradiction
        intro hset
        exact hnone ⟨j, h₁, h₂, hset⟩
      exact allocBlocks_assert hs hdebug (by omega) (by omega) h₁ (by omega) hset
    · rw [kassert_neg hlast hdebug]
      rfl
  · rw [if_neg hdirect, if_pos (by omega)]
    have htab : ¬ (s.inodes p).iSectors 12 = 0 := fun hzero =>
      hfit ⟨fun _ => by omega, fun _ _ => hzero, fun _ _ => by omega, fun _ => by omega⟩
    rw [if_pos ⟨by omega, by omega⟩] at hroom
    obtain ⟨b₀, hb₀⟩ := Finset.card_pos.1 (show 0 < (freeBits s).card by omega)
    obtain ⟨b, hb, halloc⟩ := blockBitmapAlloc_of_free hb₀
    have hassert : kassert (setBlockBit s b true)
        (((setBlockBit s b true).inodes p).iSectors 12 = 0) = .error .assertFailed :=
      kassert_neg htab hdebug
    unfold mapCrossing
    dsimp only
    rw [halloc, Outcome.ok_bind]
    dsimp only
    rw [hassert]
    rfl

/-! ## The whole call -/

/-- A kernel with ASSERT compiled in whose heap and partition have what a write
    of `count` bytes asks for, so that no ASSERT of a function it calls fails. -/
structure Served (s : FsState) (p count : Nat) : Prop where
  debug : s.ndebug = false
  heap : HeapServes s
  blocks : blocksNeeded (s.inodes p) count ≤ (freeBits s).card

section

variable (hon : FileOnDisk s fdIdx p) (hserved : Served s p count)
include hon hserved

/-- A write that would fill the file up needs, by its own count, one block more
    than a file has. -/
theorem fileWrite_assert_full (hsum : (s.inodes p).iSize + count = maxFileBytes) :
    fileWrite s fdIdx buf count = .error .assertFailed := by
  have hmax : maxFileBytes = 71680 := rfl
  obtain ⟨s₁, hfirst, hone⟩ := hon.firstBlock hserved.blocks
  have hsize₁ : (s₁.inodes p).iSize = (s.inodes p).iSize := hone.iSize_eq
  have hdebug₁ : s₁.ndebug = false := by
    obtain ⟨bits, d, sec, hs₁⟩ := hone.state
    rw [hs₁]
    exact hserved.debug
  have hu : u32 ((s.inodes p).iSize + count) = (s.inodes p).iSize + count := u32_of_lt (by omega)
  have hassert : kassert s₁ (((s.inodes p).iSize + count) / 512 + 1 ≤ 140)
      = .error .assertFailed := kassert_neg (by omega) hdebug₁
  unfold fileWrite
  rw [hon.fd]
  simp only [hserved.heap.sysMalloc, hserved.heap.countMalloc.sysMalloc, hu]
  rw [if_neg (by omega), hfirst]
  simp only [Outcome.ok_bind, hsize₁, hu, hassert]
  rw [if_neg (by simp)]
  rfl

/-- Below that the sector pointers decide. -/
theorem fileWrite_assert_sectors (hsum : (s.inodes p).iSize + count < maxFileBytes)
    (hfit : ¬ SectorsFit (s.inodes p) (blocksUsed (s.inodes p).iSize)
      (blocksUsed ((s.inodes p).iSize + count))) :
    fileWrite s fdIdx buf count = .error .assertFailed := by
  have hmax : maxFileBytes = 71680 := rfl
  obtain ⟨s₁, hfirst, hone⟩ := hon.firstBlock hserved.blocks
  have hsize₁ : (s₁.inodes p).iSize = (s.inodes p).iSize := hone.iSize_eq
  have hdebug₁ : s₁.ndebug = false := by
    obtain ⟨bits, d, sec, hs₁⟩ := hone.state
    rw [hs₁]
    exact hserved.debug
  have hu : u32 ((s.inodes p).iSize + count) = (s.inodes p).iSize + count := u32_of_lt (by omega)
  have hassert : kassert s₁ (((s.inodes p).iSize + count) / 512 + 1 ≤ 140) = .ok () :=
    kassert_pos (by omega)
  have hfit₁ : ¬ SectorsFit (s₁.inodes p) (blocksUsed (s.inodes p).iSize)
      (blocksUsed ((s.inodes p).iSize + count)) :=
    fun h => hfit ((hone.fits (Nat.succ_pos _)).1 h)
  have hle : blocksUsed (s.inodes p).iSize ≤ blocksUsed ((s.inodes p).iSize + count) := by
    unfold blocksUsed
    omega
  have hmap := mapBlocks_assert hone.layout hdebug₁ hle hfit₁ (hone.room hserved.blocks)
  unfold fileWrite
  rw [hon.fd]
  simp only [hserved.heap.sysMalloc, hserved.heap.countMalloc.sysMalloc, hu]
  rw [if_neg (by omega), hfirst]
  simp only [Outcome.ok_bind, hsize₁, hu, hassert]
  rw [if_neg (by simp), hmap]
  rfl

/-- No ASSERT fails exactly when the file is not filled up and its pointers fit. -/
theorem fileWrite_noAssert_iff (hsum : (s.inodes p).iSize + count ≤ maxFileBytes) :
    fileWrite s fdIdx buf count ≠ .error .assertFailed ↔
      (s.inodes p).iSize + count ≠ maxFileBytes ∧
        SectorsFit (s.inodes p) (blocksUsed (s.inodes p).iSize)
          (blocksUsed ((s.inodes p).iSize + count)) := by
  constructor
  · intro h
    have hne : (s.inodes p).iSize + count ≠ maxFileBytes :=
      fun heq => h (fileWrite_assert_full hon hserved heq)
    refine ⟨hne, ?_⟩
    apply Classical.byContradiction
    intro hfit
    exact h (fileWrite_assert_sectors hon hserved (by omega) hfit)
  · rintro ⟨hne, hfit⟩ hassert
    have hmax : maxFileBytes = 71680 := rfl
    obtain ⟨t, ht⟩ := fileWrite_of_fit buf hon hserved.heap (by omega) hfit hserved.blocks
    rw [ht] at hassert
    cases hassert

end

/-- The size checks on the file in node `p`, open in slot `fdIdx`, with `count`
    bytes to write or to read from anywhere in it. -/
structure GuardsExact (s : FsState) (fdIdx p : Nat) (buf : Mem) (count : Nat) : Prop where
  refuses : fileWrite s fdIdx buf count = .ok (-1, s) ↔
    maxFileBytes < (s.inodes p).iSize + count
  asserts : (s.inodes p).iSize + count ≤ maxFileBytes → Served s p count →
    fileWrite s fdIdx buf count ≠ .error .assertFailed
  reads : ∀ fdPos, fdPos ≤ (s.inodes p).iSize →
    readSize fdPos (s.inodes p).iSize count = min count ((s.inodes p).iSize - fdPos)

/-- When they are exact: the sum does not wrap around, and a write the guard is
    right to let through does not fill the file up and finds the sector pointers
    that the blocks it counts make it expect. -/
structure SizesFit (s : FsState) (p count : Nat) : Prop where
  noWrap : (s.inodes p).iSize + count < 2 ^ 32
  fits : (s.inodes p).iSize + count ≤ maxFileBytes → Served s p count →
    (s.inodes p).iSize + count ≠ maxFileBytes ∧
      SectorsFit (s.inodes p) (blocksUsed (s.inodes p).iSize)
        (blocksUsed ((s.inodes p).iSize + count))

/-- The size checks agree with the numbers they are about exactly when the sizes
    and the sector pointers fit. -/
theorem guardsExact_iff (s : FsState) (fdIdx p count : Nat) (buf : Mem)
    (hon : FileOnDisk s fdIdx p) (hsize : (s.inodes p).iSize ≤ maxFileBytes)
    (hcount : count < 2 ^ 32) :
    GuardsExact s fdIdx p buf count ↔ SizesFit s p count := by
  constructor
  · rintro ⟨hrefuses, hasserts, -⟩
    refine ⟨?_, fun hsum hserved => ?_⟩
    · rw [fileWrite_refused hon.fd] at hrefuses
      exact (writeGuard_iff hsize hcount).1 hrefuses
    · exact (fileWrite_noAssert_iff hon hserved hsum).1 (hasserts hsum hserved)
  · rintro ⟨hwrap, hfits⟩
    refine ⟨?_, fun hsum hserved => ?_, fun fdPos hpos => ?_⟩
    · rw [fileWrite_refused hon.fd]
      exact (writeGuard_iff hsize hcount).2 hwrap
    · exact (fileWrite_noAssert_iff hon hserved hsum).2 (hfits hsum hserved)
    · exact (readSize_iff hpos hsize hcount).2 (by omega)

/-- For a file whose blocks are those its size says, the sizes alone decide. -/
theorem FileRep.sizesFit (hrep : FileRep s (s.inodes p)) (hs : Layout s)
    (hwrap : (s.inodes p).iSize + count < 2 ^ 32)
    (hfull : (s.inodes p).iSize + count ≠ maxFileBytes) : SizesFit s p count := by
  have hmax : maxFileBytes = 71680 := rfl
  refine ⟨hwrap, fun hsum _ => ⟨hfull, ?_⟩⟩
  have hpre := hrep.writePre hs (by omega)
  exact hpre.sectorsFit (by omega)

/-! ## On an empty partition -/

theorem newFileFs_onDisk : FileOnDisk newFileFs 3 0 := by
  have hpre := newFileFs_appendPre (show 0 < 140 * 512 by omega)
  exact (hpre.rep.writePre hpre.layout (by decide)).fileOnDisk hpre.fd hpre.rep.onDisk
    hpre.freeOnDisk

theorem newFileFs_served {count : Nat} (h : count ≤ maxFileBytes) : Served newFileFs 0 count := by
  refine ⟨rfl, fun _ _ => rfl, ?_⟩
  have hsub : Finset.Icc 1 142 ⊆ freeBits newFileFs := by
    intro b hb
    rw [Finset.mem_Icc] at hb
    exact newFileFs_free (by omega) (by omega)
  have hcard := Finset.card_le_card hsub
  rw [Nat.card_Icc] at hcard
  have hmax : maxFileBytes = 71680 := rfl
  have hneed : blocksNeeded (newFileFs.inodes 0) count ≤ 142 := by
    have hino : newFileFs.inodes 0 = inodeInit 1 := rfl
    rw [hino]
    simp only [blocksNeeded, inodeInit, Nat.zero_add, Nat.zero_div]
    split_ifs <;> omega
  omega

theorem guardsExact_iff_newFile :
    FileOnDisk newFileFs 3 0 ∧ (newFileFs.inodes 0).iSize ≤ maxFileBytes ∧ 10 < 2 ^ 32 ∧
      (GuardsExact newFileFs 3 0 Mem.zero 10 ↔ SizesFit newFileFs 0 10) :=
  ⟨newFileFs_onDisk, by decide, by decide,
    guardsExact_iff newFileFs 3 0 10 Mem.zero newFileFs_onDisk (by decide) (by decide)⟩

/-- 71680 bytes into a new file, the most a file can hold, do not get past the
    ASSERT. -/
theorem not_guardsExact_full : ¬ GuardsExact newFileFs 3 0 Mem.zero 71680 := by
  intro h
  have hserved : Served newFileFs 0 71680 := newFileFs_served (by decide)
  exact h.asserts (by decide) hserved (fileWrite_assert_full newFileFs_onDisk hserved (by decide))

end Fs
end JackOS
