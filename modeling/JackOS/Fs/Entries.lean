/-
  JackOS.Fs.Entries

  A directory as the list of its live entries: block by block through
  `i_sectors` and the indirect table, slot by slot within a block.  `DirRep` is
  the representation condition.  The first lemmas say what the buffer of a
  block shows of it, the others how a change to one slot or one block changes
  the list.
-/

import JackOS.Base.Pointwise
import JackOS.Fs.FileAppend
import JackOS.Fs.Dir
import Mathlib.Algebra.Order.BigOperators.Group.List

namespace JackOS
namespace Fs

open Base

/-! ## Entries -/

/-- What a directory entry says; the name is the 16-byte array. -/
structure Entry where
  filename : List UInt8
  iNo : Nat
  fType : Nat
deriving DecidableEq, Repr

def DirEntry.entry (de : DirEntry) : Entry :=
  { filename := (List.range maxFileNameLen).map de.filename, iNo := de.iNo, fType := de.fType }

/-- The name as a string. -/
def Entry.name (e : Entry) : List UInt8 := e.filename.takeWhile fun c => c ≠ 0

/-- `SECTOR_SIZE / sizeof(dir_entry_t)` -/
abbrev slotsPerBlock : Nat := 21

/-- Slot `i` of the block at `lba`. -/
def slotAt (d : Mem) (lba i : Nat) : Entry :=
  (DirEntry.ofBytes d (lba * 512 + dirEntryBytes * i)).entry

/-- The slot, if it is live. -/
def slotEntry (d : Mem) (lba i : Nat) : Option Entry :=
  if (slotAt d lba i).fType = FileType.unknow.toWord then none else some (slotAt d lba i)

/-- The live entries of the block at `lba`; 0 is no block. -/
def blockEntries (d : Mem) (lba : Nat) : List Entry :=
  if lba = 0 then [] else (List.range slotsPerBlock).filterMap (slotEntry d lba)

/-- The live entries found through the inode's blocks. -/
def dirEntries (d : Mem) (ino : Inode) : List Entry :=
  (List.range 140).flatMap fun k => blockEntries d (blockRef d ino k)

/-- The representation condition of a directory: its blocks are distinct and
    marked as used, `i_size` counts its live entries, and a deleted slot is all
    zero. -/
structure DirRep (s : FsState) (ino : Inode) : Prop where
  entrySize : s.part.sb.dirEntrySize = dirEntryBytes
  sound : Ledger.Sound (blockRef s.disk ino) (usedBlocks s)
  onDisk : ∀ j, blockRef s.disk ino j ≤ maxLba
  size : ino.iSize = dirEntryBytes * (dirEntries s.disk ino).length
  clear : ∀ k, blockRef s.disk ino k ≠ 0 → k < 140 → ∀ i, i < slotsPerBlock →
    slotEntry s.disk (blockRef s.disk ino k) i = none →
      ∀ a, a < dirEntryBytes → s.disk (blockRef s.disk ino k * 512 + dirEntryBytes * i + a) = 0

variable {s : FsState} {d d' : Mem} {ino ino' : Inode} {lba : Nat}

theorem DirRep.perSec (h : DirRep s ino) : s.dirEntryPerSec = slotsPerBlock := by
  rw [FsState.dirEntryPerSec, h.entrySize]
  rfl

/-- 140 blocks of 21 slots. -/
theorem dirEntries_length_le (d : Mem) (ino : Inode) :
    (dirEntries d ino).length ≤ 140 * slotsPerBlock := by
  have hblock : ∀ k, (blockEntries d (blockRef d ino k)).length ≤ slotsPerBlock := by
    intro k
    unfold blockEntries
    split
    · exact Nat.zero_le _
    · exact (List.length_filterMap_le ..).trans (by rw [List.length_range])
  rw [dirEntries, List.length_flatMap]
  refine (List.sum_le_card_nsmul _ slotsPerBlock fun n hn => ?_).trans ?_
  · obtain ⟨k, -, rfl⟩ := List.mem_map.1 hn
    exact hblock k
  · rw [List.length_map, List.length_range]
    exact Nat.le_refl _

/-- A directory holds fewer bytes than a `uint32_t` counts. -/
theorem DirRep.iSize_lt (h : DirRep s ino) : ino.iSize < 2 ^ 32 := by
  have hall := dirEntries_length_le s.disk ino
  rw [h.size]
  simp only [dirEntryBytes, slotsPerBlock] at *
  omega

/-- What `all_blocks_lba` holds of a directory. -/
theorem allBlocks_eq (h : ∀ j, blockRef s.disk ino j ≤ maxLba) : ∃ all, allBlocks s ino = .ok all
    ∧ (∀ k, k < 140 → all k = blockRef s.disk ino k) ∧ ∀ k, all k ≤ maxLba := by
  have hbound : ∀ all : Nat → Nat, (∀ k, k < 140 → all k = blockRef s.disk ino k) →
      (∀ k, ¬ k < 140 → all k = 0) → ∀ k, all k ≤ maxLba := by
    intro all href hzero k
    by_cases hk : k < 140
    · rw [href k hk]
      exact h k
    · rw [hzero k hk]
      exact Nat.zero_le _
  by_cases ht : ino.iSectors 12 = 0
  · have href : ∀ k, k < 140 → directBlocks ino k = blockRef s.disk ino k := by
      intro k hk
      by_cases hk12 : k < 12
      · rw [directBlocks, if_pos hk12, blockRef_direct hk12]
      · rw [directBlocks, if_neg hk12, blockRef_noTable (by omega) ht]
    refine ⟨directBlocks ino, by rw [allBlocks, if_neg (not_not.2 ht)], href,
      hbound _ href fun k hk => ?_⟩
    rw [directBlocks, if_neg (by omega)]
  · have htable : ino.iSectors 12 ≤ maxLba := by
      have := h 140
      rwa [blockRef_table] at this
    let all : Nat → Nat := fun k =>
      if 12 ≤ k ∧ k < 12 + 128 then s.disk.le32 (ino.iSectors 12 * 512 + 4 * (k - 12))
      else directBlocks ino k
    have href : ∀ k, k < 140 → all k = blockRef s.disk ino k := by
      intro k hk
      simp only [all]
      by_cases hk12 : k < 12
      · rw [if_neg (by omega), directBlocks, if_pos hk12, blockRef_direct hk12]
      · rw [if_pos ⟨by omega, by omega⟩, blockRef_indirect (by omega) hk ht]
    refine ⟨all, by rw [allBlocks, if_pos ht, ideReadWords, kassert_pos htable, Outcome.ok_bind],
      href, hbound _ href fun k hk => ?_⟩
    simp only [all]
    rw [if_neg (by omega), directBlocks, if_neg (by omega)]

/-! ## Names -/

/-- Comparing with a string is comparing the name, up to its NUL. -/
theorem strEq_iff_takeWhile {m : Mem} {str : List UInt8} {off n : Nat} (hzero : 0 ∉ str)
    (hlen : str.length < n) : strEq m off str = true
      ↔ ((List.range n).map fun k => m (off + k)).takeWhile (fun c => c ≠ 0) = str := by
  induction str generalizing off n with
  | nil =>
      obtain ⟨n, rfl⟩ := Nat.exists_eq_succ_of_ne_zero (Nat.ne_of_gt hlen)
      rw [strEq, List.range_succ_eq_map, List.map_cons, List.takeWhile_cons, Nat.add_zero]
      by_cases h : m off = 0 <;> simp [h]
  | cons c str ih =>
      have hn : n ≠ 0 := by
        rintro rfl
        exact absurd hlen (Nat.not_lt_zero _)
      obtain ⟨n, rfl⟩ := Nat.exists_eq_succ_of_ne_zero hn
      have hc : c ≠ 0 := fun h => hzero (h ▸ List.mem_cons_self)
      have htail : strEq m (off + 1) str = true
          ↔ ((List.range n).map fun k => m (off + 1 + k)).takeWhile (fun c => c ≠ 0) = str :=
        ih (fun h => hzero (List.mem_cons_of_mem _ h)) (Nat.lt_of_succ_lt_succ hlen)
      have hshift : ((fun k => m (off + k)) ∘ Nat.succ) = fun k => m (off + 1 + k) := by
        funext k
        exact congrArg m (by simp only [Nat.succ_eq_add_one]; omega)
      rw [strEq, List.range_succ_eq_map, List.map_cons, List.map_map, List.takeWhile_cons,
        Nat.add_zero, hshift, Bool.and_eq_true, htail, beq_iff_eq]
      by_cases hm : m off = 0
      · simp [hm, hc.symm]
      · simp [hm]

/-! ## Buffers -/

/-- The buffer holds the block at `lba`. -/
def HoldsBlock (buf d : Mem) (lba : Nat) : Prop := ∀ a, a < 512 → buf a = d (lba * 512 + a)

theorem ideRead_block (h : lba ≤ maxLba) :
    ∃ buf, ideRead s lba Mem.zero 0 1 = .ok buf ∧ HoldsBlock buf s.disk lba := by
  refine ⟨Mem.zero.copy 0 s.disk (lba * 512) (1 * 512), ?_, fun a ha => ?_⟩
  · rw [ideRead, kassert_pos h, Outcome.ok_bind]
    rfl
  · rw [Mem.copy_inside (Nat.zero_le _) (by omega)]
    rfl

/-- What the buffer shows of a slot. -/
theorem HoldsBlock.entry {buf : Mem} (h : HoldsBlock buf d lba) {i : Nat} (hi : i < slotsPerBlock) :
    (DirEntry.ofBytes buf (dirEntryBytes * i)).entry = slotAt d lba i := by
  simp only [dirEntryBytes, slotsPerBlock] at *
  have hword : ∀ w, w + 4 ≤ 24 →
      buf.le32 (24 * i + w) = d.le32 (lba * 512 + 24 * i + w) := by
    intro w hw
    refine Mem.le32_congr fun b hb => ?_
    rw [Nat.add_assoc, h _ (by omega)]
    exact congrArg d (by omega)
  have hname : (List.range maxFileNameLen).map (fun k => buf (24 * i + k))
      = (List.range maxFileNameLen).map fun k => d (lba * 512 + 24 * i + k) := by
    refine List.map_congr_left fun k hk => ?_
    have hk := List.mem_range.1 hk
    simp only [maxFileNameLen] at hk
    rw [h _ (by omega)]
    exact congrArg d (by omega)
  simp only [DirEntry.ofBytes, DirEntry.entry, slotAt, dirEntryBytes]
  rw [hword 16 (by omega), hword 20 (by omega), hname]

theorem HoldsBlock.fType {buf : Mem} (h : HoldsBlock buf d lba) {i : Nat} (hi : i < slotsPerBlock) :
    (DirEntry.ofBytes buf (dirEntryBytes * i)).fType = (slotAt d lba i).fType := by
  rw [← h.entry hi]
  rfl

theorem HoldsBlock.iNo {buf : Mem} (h : HoldsBlock buf d lba) {i : Nat} (hi : i < slotsPerBlock) :
    (DirEntry.ofBytes buf (dirEntryBytes * i)).iNo = (slotAt d lba i).iNo := by
  rw [← h.entry hi]
  rfl

theorem HoldsBlock.strEq_iff {buf : Mem} (h : HoldsBlock buf d lba) {i : Nat}
    (hi : i < slotsPerBlock) {str : List UInt8} (hzero : 0 ∉ str) (hlen : str.length < 16) :
    strEq buf (dirEntryBytes * i) str = true ↔ (slotAt d lba i).name = str := by
  rw [strEq_iff_takeWhile hzero hlen, ← h.entry hi]
  rfl

/-! ## Blocks that stay -/

theorem SameBlock.slotAt_eq (h : SameBlock d d' lba) {i : Nat} (hi : i < slotsPerBlock) :
    slotAt d' lba i = slotAt d lba i := by
  have hself : HoldsBlock (fun a => d (lba * 512 + a)) d lba := fun a _ => rfl
  have hother : HoldsBlock (fun a => d (lba * 512 + a)) d' lba := fun a ha => (h a ha).symm
  rw [← hself.entry hi, ← hother.entry hi]

theorem SameBlock.blockEntries_eq (h : lba ≠ 0 → SameBlock d d' lba) :
    blockEntries d' lba = blockEntries d lba := by
  unfold blockEntries
  by_cases hz : lba = 0
  · rw [if_pos hz, if_pos hz]
  · rw [if_neg hz, if_neg hz]
    refine List.filterMap_congr fun i hi => ?_
    rw [slotEntry, slotEntry, (h hz).slotAt_eq (List.mem_range.1 hi)]

/-- The blocks of a directory are the same, and so are their bytes. -/
theorem dirEntries_congr (href : ∀ k, k < 140 → blockRef d' ino' k = blockRef d ino k)
    (hsame : ∀ k, k < 140 → blockRef d ino k ≠ 0 → SameBlock d d' (blockRef d ino k)) :
    dirEntries d' ino' = dirEntries d ino := by
  refine List.flatMap_congr fun k hk => ?_
  have hk := List.mem_range.1 hk
  rw [href k hk]
  exact SameBlock.blockEntries_eq (hsame k hk)

/-! ## One block or one slot changes -/

/-- Block `k` set apart: the live entries before and after a change to it. -/
theorem dirEntries_perm_block {k : Nat} (hk : k < 140)
    (hother : ∀ j, j < 140 → j ≠ k →
      blockEntries d' (blockRef d' ino' j) = blockEntries d (blockRef d ino j)) :
    ∃ rest, (dirEntries d ino).Perm (blockEntries d (blockRef d ino k) ++ rest)
      ∧ (dirEntries d' ino').Perm (blockEntries d' (blockRef d' ino' k) ++ rest) := by
  have hmem : k ∈ List.range 140 := List.mem_range.2 hk
  refine ⟨((List.range 140).erase k).flatMap fun j => blockEntries d (blockRef d ino j),
    flatMap_perm_erase _ hmem, ?_⟩
  refine (flatMap_perm_erase _ hmem).trans (List.Perm.append_left _ (List.Perm.of_eq ?_))
  refine List.flatMap_congr fun j hj => ?_
  have hj := List.nodup_range.mem_erase_iff.1 hj
  exact hother j (List.mem_range.1 hj.2) hj.1

/-- Slot `i` set apart. -/
theorem blockEntries_perm_slot {i : Nat} (hi : i < slotsPerBlock) (hlba : lba ≠ 0)
    (hother : ∀ j, j < slotsPerBlock → j ≠ i → slotEntry d' lba j = slotEntry d lba j) :
    ∃ rest, (blockEntries d lba).Perm ((slotEntry d lba i).toList ++ rest)
      ∧ (blockEntries d' lba).Perm ((slotEntry d' lba i).toList ++ rest) := by
  have hmem : i ∈ List.range slotsPerBlock := List.mem_range.2 hi
  unfold blockEntries
  rw [if_neg hlba, if_neg hlba]
  refine ⟨((List.range slotsPerBlock).erase i).filterMap (slotEntry d lba),
    filterMap_perm_erase _ hmem, ?_⟩
  refine (filterMap_perm_erase _ hmem).trans (List.Perm.append_left _ (List.Perm.of_eq ?_))
  refine List.filterMap_congr fun j hj => ?_
  have hj := List.nodup_range.mem_erase_iff.1 hj
  exact hother j (List.mem_range.1 hj.2) hj.1

/-! ## Writing one slot -/

/-- The fields of an entry are 32-bit words. -/
structure DirEntry.InRange (de : DirEntry) : Prop where
  iNo : de.iNo < 2 ^ 32
  fType : de.fType < 2 ^ 32

/-- The disk with entry `de` in slot `i` of the block at `lba`. -/
def putSlot (d : Mem) (lba i : Nat) (de : DirEntry) : Mem :=
  d.copy (lba * 512 + dirEntryBytes * i) de.bytes 0 dirEntryBytes

/-- The slot reads as it was written. -/
theorem slotAt_putSlot_self {de : DirEntry} (hde : de.InRange) (i : Nat) :
    slotAt (putSlot d lba i de) lba i = de.entry := by
  have hbyte : ∀ a, a < 24 →
      putSlot d lba i de (lba * 512 + dirEntryBytes * i + a) = de.bytes a := by
    intro a ha
    rw [putSlot, Mem.copy_inside (by omega) (by simp only [dirEntryBytes]; omega)]
    exact congrArg de.bytes (by omega)
  have hword : ∀ k, 4 ≤ k → k < 6 →
      (putSlot d lba i de).le32 (lba * 512 + dirEntryBytes * i + 4 * k) = de.word k % 2 ^ 32 := by
    intro k hk hk'
    rw [← Mem.le32_wordBytes]
    refine Mem.le32_congr fun b hb => ?_
    rw [Nat.add_assoc _ (4 * k), hbyte _ (by omega), DirEntry.bytes, if_neg (by omega)]
  have hiNo := hword 4 (by omega) (by omega)
  have hfType := hword 5 (by omega) (by omega)
  have hname : (List.range maxFileNameLen).map
        (fun k => putSlot d lba i de (lba * 512 + dirEntryBytes * i + k))
      = (List.range maxFileNameLen).map de.filename := by
    refine List.map_congr_left fun k hk => ?_
    have hk := List.mem_range.1 hk
    simp only [maxFileNameLen] at hk
    rw [hbyte k (by omega), DirEntry.bytes, if_pos hk]
  simp only [slotAt, DirEntry.ofBytes, DirEntry.entry]
  rw [hname, hiNo, hfType]
  simp only [DirEntry.word, if_true]
  rw [if_neg (by omega), Nat.mod_eq_of_lt hde.iNo, Nat.mod_eq_of_lt hde.fType]

/-- A slot is read from its own 24 bytes. -/
theorem slotAt_congr {i : Nat} (h : ∀ a, a < dirEntryBytes →
    d' (lba * 512 + dirEntryBytes * i + a) = d (lba * 512 + dirEntryBytes * i + a)) :
    slotAt d' lba i = slotAt d lba i := by
  simp only [dirEntryBytes] at h
  have hword : ∀ w, w + 4 ≤ 24 → d'.le32 (lba * 512 + 24 * i + w) = d.le32 (lba * 512 + 24 * i + w) := by
    intro w hw
    refine Mem.le32_congr fun b hb => ?_
    rw [Nat.add_assoc, h _ (by omega)]
  have hname : (List.range maxFileNameLen).map (fun k => d' (lba * 512 + 24 * i + k))
      = (List.range maxFileNameLen).map fun k => d (lba * 512 + 24 * i + k) := by
    refine List.map_congr_left fun k hk => ?_
    have hk := List.mem_range.1 hk
    simp only [maxFileNameLen] at hk
    exact h k (by omega)
  simp only [DirEntry.ofBytes, DirEntry.entry, slotAt, dirEntryBytes]
  rw [hword 16 (by omega), hword 20 (by omega), hname]

theorem slotEntry_congr {i : Nat} (h : ∀ a, a < dirEntryBytes →
    d' (lba * 512 + dirEntryBytes * i + a) = d (lba * 512 + dirEntryBytes * i + a)) :
    slotEntry d' lba i = slotEntry d lba i := by
  rw [slotEntry, slotEntry, slotAt_congr h]

/-- A write outside the blocks keeps the pointers and the entries. -/
theorem dirEntries_of_outside {start : Nat} (hd : ∀ a, start * 512 ≤ a → d' a = d a)
    (harea : ∀ j, blockRef d ino j ≠ 0 → start ≤ blockRef d ino j)
    (hsec : ∀ j, j < 13 → ino'.iSectors j = ino.iSectors j) :
    (∀ j, blockRef d' ino' j = blockRef d ino j) ∧ dirEntries d' ino' = dirEntries d ino := by
  have hsame : ∀ j, blockRef d ino j ≠ 0 → SameBlock d d' (blockRef d ino j) := by
    intro j hj i _
    have := harea j hj
    exact hd _ (by omega)
  have href : ∀ j, blockRef d' ino' j = blockRef d ino j := by
    refine blockRef_congr hsec fun htab => ?_
    have := hsame 140
    rw [blockRef_table] at this
    exact this htab
  exact ⟨href, dirEntries_congr (fun k _ => href k) fun k _ => hsame k⟩

/-- A write to slot `i` of block `k` keeps the pointers and all other slots. -/
theorem dirEntries_perm_slot {k i : Nat}
    (hinj : ∀ j j', blockRef d ino j ≠ 0 → blockRef d ino j = blockRef d ino j' → j = j')
    (hk : k < 140) (hthere : blockRef d ino k ≠ 0) (hi : i < slotsPerBlock)
    (hd : ∀ a, a < blockRef d ino k * 512 + dirEntryBytes * i
      ∨ blockRef d ino k * 512 + dirEntryBytes * i + dirEntryBytes ≤ a → d' a = d a)
    (hsec : ∀ j, j < 13 → ino'.iSectors j = ino.iSectors j) :
    (∀ j, blockRef d' ino' j = blockRef d ino j)
      ∧ ∃ rest, (dirEntries d ino).Perm ((slotEntry d (blockRef d ino k) i).toList ++ rest)
        ∧ (dirEntries d' ino').Perm ((slotEntry d' (blockRef d ino k) i).toList ++ rest) := by
  simp only [dirEntryBytes, slotsPerBlock] at *
  -- the other blocks do not overlap block `k`
  have hsame : ∀ j, j ≠ k → blockRef d ino j ≠ 0 → SameBlock d d' (blockRef d ino j) := by
    intro j hjk hj a ha
    have hne : blockRef d ino j ≠ blockRef d ino k := fun heq => hjk (hinj j k hj heq)
    exact hd _ (by omega)
  have href : ∀ j, blockRef d' ino' j = blockRef d ino j := by
    refine blockRef_congr hsec fun htab => ?_
    have := hsame 140 (by omega)
    rw [blockRef_table] at this
    exact this htab
  refine ⟨href, ?_⟩
  have hblocks : ∀ j, j < 140 → j ≠ k →
      blockEntries d' (blockRef d' ino' j) = blockEntries d (blockRef d ino j) := by
    intro j _ hjk
    rw [href j]
    exact SameBlock.blockEntries_eq (hsame j hjk)
  have hslots : ∀ j, j < slotsPerBlock → j ≠ i →
      slotEntry d' (blockRef d ino k) j = slotEntry d (blockRef d ino k) j := by
    intro j _ hji
    refine slotEntry_congr fun a ha => hd _ ?_
    simp only [dirEntryBytes] at *
    omega
  obtain ⟨others, hold, hnew⟩ := dirEntries_perm_block hk hblocks
  obtain ⟨rest, hold', hnew'⟩ := blockEntries_perm_slot hi hthere hslots
  rw [href k] at hnew
  refine ⟨rest ++ others, ?_, ?_⟩
  · rw [← List.append_assoc]
    exact hold.trans (hold'.append_right others)
  · rw [← List.append_assoc]
    exact hnew.trans (hnew'.append_right others)

/-! ## A small directory -/

/-- An entry with a name of one or two characters. -/
def shortEntry (filename : List UInt8) (iNo fType : Nat) : DirEntry :=
  { filename := fun k => filename.getD k 0, iNo := iNo, fType := fType }

/-- A directory with "." and ".." in its first block and two files in its
    second. -/
def smallDirDisk : Mem :=
  putSlot (putSlot (putSlot (putSlot Mem.zero 613 0 (shortEntry dot 1 2))
    613 1 (shortEntry dotDot 0 2)) 614 0 (shortEntry [97] 2 1)) 614 1 (shortEntry [98] 3 1)

def smallDirInode : Inode :=
  { iNo := 1, iSize := 96, iOpenCnt := 1, writeDeny := false
    iSectors := fun j => if j = 0 then 613 else if j = 1 then 614 else 0 }

/-- The directory is open in node 0. -/
def smallDirFs : FsState :=
  { newFileFs with
    disk := smallDirDisk
    part := { newFileFs.part with
      blockBitmap := ⟨512, setBitAt (setBitAt (setBitAt Mem.zero 0 true) 1 true) 2 true⟩ }
    inodes := fun _ => smallDirInode }

theorem smallDirFs_layout : Layout smallDirFs :=
  ⟨⟨by decide, by decide⟩, newFileFs_layout.bootSector, newFileFs_layout.blockLen,
    newFileFs_layout.inodeLen, newFileFs_layout.blockMap_le, newFileFs_layout.inodeMap_lt,
    newFileFs_layout.table_le, newFileFs_layout.data_le, by decide⟩

/-- 4096 blocks from 612 on. -/
theorem lba_le_maxLba {b : Nat} (hb : b < 4096) : 612 + b ≤ maxLba := by
  simp only [maxLba]
  omega

theorem smallDirFs_freeOnDisk : FreeOnDisk smallDirFs := fun _ hb _ => lba_le_maxLba hb

theorem smallDirFs_ref (d : Mem) (j : Nat) :
    blockRef d smallDirInode j = if j = 0 then 613 else if j = 1 then 614 else 0 := by
  by_cases hj : j < 12
  · rw [blockRef_direct hj]
    rfl
  · rw [blockRef_noTable (by omega) rfl, if_neg (by omega), if_neg (by omega)]

/-- Its slots are the four entries and zeros. -/
theorem smallDirDisk_clear {k i a : Nat} (hk : k = 613 ∨ k = 614) (hi : 2 ≤ i) (hi' : i < 21)
    (ha : a < dirEntryBytes) : smallDirDisk (k * 512 + dirEntryBytes * i + a) = 0 := by
  simp only [dirEntryBytes] at *
  simp only [smallDirDisk, putSlot, dirEntryBytes]
  rw [Mem.copy_outside (by omega), Mem.copy_outside (by omega), Mem.copy_outside (by omega),
    Mem.copy_outside (by omega)]
  rfl

theorem smallDirFs_entries : dirEntries smallDirDisk smallDirInode
    = [(shortEntry dot 1 2).entry, (shortEntry dotDot 0 2).entry, (shortEntry [97] 2 1).entry,
      (shortEntry [98] 3 1).entry] := by
  decide +kernel

theorem smallDirFs_dirRep : DirRep smallDirFs smallDirInode where
  entrySize := rfl
  sound := by
    refine ⟨fun i j hi heq => ?_, fun i hi => ?_⟩
    · rw [smallDirFs_ref] at hi
      rw [smallDirFs_ref, smallDirFs_ref] at heq
      split_ifs at hi heq <;> omega
    · rw [smallDirFs_ref] at hi ⊢
      split_ifs at hi ⊢
      · exact ⟨1, by decide, rfl, by decide⟩
      · exact ⟨2, by decide, rfl, by decide⟩
      · exact absurd rfl hi
  onDisk j := by
    rw [smallDirFs_ref]
    split_ifs <;> decide
  size := by
    show smallDirInode.iSize = dirEntryBytes * (dirEntries smallDirDisk smallDirInode).length
    rw [smallDirFs_entries]
    rfl
  clear k hk _ i hi hdead a ha := by
    rw [smallDirFs_ref] at hk hdead ⊢
    have hlive : ∀ b ∈ [613, 614], ∀ j, j < 2 → slotEntry smallDirDisk b j ≠ none := by
      decide +kernel
    have hwhich : (if k = 0 then 613 else if k = 1 then 614 else 0) = 613
        ∨ (if k = 0 then 613 else if k = 1 then 614 else 0) = 614 := by
      split_ifs at hk ⊢
      · exact .inl rfl
      · exact .inr rfl
      · exact absurd rfl hk
    have hi2 : 2 ≤ i := by
      by_contra hlt
      exact hlive _ (by simpa using hwhich) i (by omega) hdead
    exact smallDirDisk_clear hwhich hi2 hi ha

end Fs
end JackOS
