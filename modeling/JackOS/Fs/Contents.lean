/-
  JackOS.Fs.Contents

  What a regular file is: the first `i_size` bytes found by following
  `i_sectors[0..11]` and the indirect table in sector `i_sectors[12]`.
  `blockRef` numbers all sector pointers of an inode, 0..139 for the data
  blocks and 140 for the table, `FileRep` is the representation condition,
  and the congruence lemmas say which part of the disk each of them reads.
-/

import JackOS.Fs.Blocks

namespace JackOS
namespace Fs

open Base

/-- Sector pointer `j` of an inode, 0 when there is none: the data blocks
    0..139, then the indirect table. -/
def blockRef (d : Mem) (ino : Inode) (j : Nat) : Nat :=
  if j < 12 then ino.iSectors j
  else if j < 140 then
    if ino.iSectors 12 = 0 then 0 else d.le32 (ino.iSectors 12 * 512 + 4 * (j - 12))
  else if j = 140 then ino.iSectors 12
  else 0

/-- Byte `i` of a file. -/
def fileByte (d : Mem) (ino : Inode) (i : Nat) : UInt8 :=
  d (blockRef d ino (i / 512) * 512 + i % 512)

/-- The contents of a file. -/
def contents (d : Mem) (ino : Inode) : List UInt8 := (List.range ino.iSize).map (fileByte d ino)

/-- What the pointers of a file that has been written look like: its first and
    its last block are there, none after it, and the table when it is needed. -/
structure FileShape (d : Mem) (ino : Inode) : Prop where
  first : ino.iSectors 0 ≠ 0
  last : blockRef d ino (ino.iSize / 512) ≠ 0
  tail : ∀ j, ino.iSize / 512 < j → j < 140 → blockRef d ino j = 0
  table : ino.iSectors 12 ≠ 0 ↔ 12 ≤ ino.iSize / 512

/-- The representation condition of a regular file: its data blocks are exactly
    blocks 0..i_size/512, or none if it was never written; the table exists
    when a block needs it; pointers are distinct, to blocks marked as used. -/
structure FileRep (s : FsState) (ino : Inode) : Prop where
  blocks : (∀ j, j < 140 → (blockRef s.disk ino j ≠ 0 ↔ j ≤ ino.iSize / 512)) ∨
    ino.iSize = 0 ∧ ∀ j, j < 140 → blockRef s.disk ino j = 0
  table : ino.iSectors 12 ≠ 0 ↔ 12 ≤ ino.iSize / 512
  sound : Ledger.Sound (blockRef s.disk ino) (usedBlocks s)
  onDisk : ∀ j, blockRef s.disk ino j ≤ maxLba

-- ============================================================================
-- Reading pointers
-- ============================================================================

theorem blockRef_direct {d : Mem} {ino : Inode} {j : Nat} (h : j < 12) :
    blockRef d ino j = ino.iSectors j := by
  rw [blockRef, if_pos h]

theorem blockRef_indirect {d : Mem} {ino : Inode} {j : Nat} (h₁ : 12 ≤ j) (h₂ : j < 140)
    (ht : ino.iSectors 12 ≠ 0) :
    blockRef d ino j = d.le32 (ino.iSectors 12 * 512 + 4 * (j - 12)) := by
  rw [blockRef, if_neg (by omega), if_pos h₂, if_neg ht]

theorem blockRef_noTable {d : Mem} {ino : Inode} {j : Nat} (h : 12 ≤ j)
    (ht : ino.iSectors 12 = 0) : blockRef d ino j = 0 := by
  rw [blockRef, if_neg (by omega)]
  split_ifs <;> simp [ht]

@[simp] theorem blockRef_table (d : Mem) (ino : Inode) : blockRef d ino 140 = ino.iSectors 12 := by
  simp [blockRef]

theorem blockRef_past {d : Mem} {ino : Inode} {j : Nat} (h : 140 < j) : blockRef d ino j = 0 := by
  rw [blockRef, if_neg (by omega), if_neg (by omega), if_neg (by omega)]

/-- Setting a direct pointer. -/
theorem blockRef_setDirect (d : Mem) (ino : Inode) {k lba : Nat} (hk : k < 12) (j : Nat) :
    blockRef d (ino.withSectors (Function.update ino.iSectors k lba)) j
      = if j = k then lba else blockRef d ino j := by
  have h12 : (ino.withSectors (Function.update ino.iSectors k lba)).iSectors 12 = ino.iSectors 12 :=
    Function.update_of_ne (by omega) _ _
  by_cases hjk : j = k
  · rw [if_pos hjk, hjk, blockRef_direct hk]
    exact Function.update_self ..
  · rw [if_neg hjk]
    by_cases hj : j < 12
    · rw [blockRef_direct hj, blockRef_direct hj]
      exact Function.update_of_ne hjk _ _
    · simp only [blockRef, h12, if_neg hj]

/-- Block `j` depends on its own sector pointer and on the table. -/
theorem blockRef_congr_entry {d d' : Mem} {ino ino' : Inode} {j : Nat}
    (hsec : j < 12 → ino'.iSectors j = ino.iSectors j)
    (h12 : ino'.iSectors 12 = ino.iSectors 12)
    (htab : ino.iSectors 12 ≠ 0 → ∀ i, i < 512 →
      d' (ino.iSectors 12 * 512 + i) = d (ino.iSectors 12 * 512 + i)) :
    blockRef d' ino' j = blockRef d ino j := by
  by_cases h : j < 12
  · rw [blockRef_direct h, blockRef_direct h, hsec h]
  · by_cases ht : ino.iSectors 12 = 0
    · rw [blockRef_noTable (by omega) ht, blockRef_noTable (by omega) (h12.trans ht)]
    · by_cases hj : j < 140
      · rw [blockRef_indirect (by omega) hj ht, blockRef_indirect (by omega) hj (h12 ▸ ht), h12]
        refine Mem.le32_congr fun i hi => ?_
        have := htab ht (4 * (j - 12) + i) (by omega)
        simpa [Nat.add_assoc] using this
      · simp only [blockRef, h12, if_neg h, if_neg hj]

/-- Pointers depend on the inode's sectors and on the table's sector. -/
theorem blockRef_congr {d d' : Mem} {ino ino' : Inode}
    (hsec : ∀ j, j < 13 → ino'.iSectors j = ino.iSectors j)
    (htab : ino.iSectors 12 ≠ 0 → ∀ i, i < 512 →
      d' (ino.iSectors 12 * 512 + i) = d (ino.iSectors 12 * 512 + i)) (j : Nat) :
    blockRef d' ino' j = blockRef d ino j :=
  blockRef_congr_entry (fun hj => hsec j (by omega)) (hsec 12 (by omega)) htab

/-- A record read from the disk has the pointers of the inode written there. -/
theorem SameRecord.blockRef_eq {a b : Inode} (h : SameRecord a b) (d : Mem) (j : Nat) :
    blockRef d a j = blockRef d b j :=
  blockRef_congr h.iSectors (fun _ _ _ => rfl) j

/-! ## Contents -/

@[simp] theorem length_contents (d : Mem) (ino : Inode) : (contents d ino).length = ino.iSize := by
  simp [contents]

/-- Two files with the same size and the same bytes have the same contents. -/
theorem contents_congr {d d' : Mem} {ino ino' : Inode} (hsize : ino'.iSize = ino.iSize)
    (h : ∀ i, i < ino.iSize → fileByte d' ino' i = fileByte d ino i) :
    contents d' ino' = contents d ino := by
  rw [contents, contents, hsize]
  exact List.map_congr_left fun i hi => h i (List.mem_range.1 hi)

/-- Appending: the old bytes, then those of a buffer. -/
theorem contents_append {d d' : Mem} {ino ino' : Inode} {buf : Mem} {count : Nat}
    (hsize : ino'.iSize = ino.iSize + count)
    (hold : ∀ i, i < ino.iSize → fileByte d' ino' i = fileByte d ino i)
    (hnew : ∀ i, i < count → fileByte d' ino' (ino.iSize + i) = buf i) :
    contents d' ino' = contents d ino ++ (List.range count).map buf := by
  rw [contents, contents, hsize, List.range_add, List.map_append, List.map_map]
  congr 1
  · exact List.map_congr_left fun i hi => hold i (List.mem_range.1 hi)
  · exact List.map_congr_left fun i hi => hnew i (List.mem_range.1 hi)

/-- The block at `lba` is the same on both disks. -/
def SameBlock (d d' : Mem) (lba : Nat) : Prop := ∀ i, i < 512 → d' (lba * 512 + i) = d (lba * 512 + i)

/-- A file none of whose sectors changed keeps its contents. -/
theorem contents_frame {d d' : Mem} {ino : Inode} (h : ∀ j, SameBlock d d' (blockRef d ino j)) :
    contents d' ino = contents d ino := by
  have htab : SameBlock d d' (ino.iSectors 12) := blockRef_table d ino ▸ h 140
  have href : ∀ j, blockRef d' ino j = blockRef d ino j :=
    blockRef_congr (fun _ _ => rfl) (fun _ => htab)
  refine contents_congr rfl fun i _ => ?_
  rw [fileByte, fileByte, href]
  exact h (i / 512) _ (Nat.mod_lt _ (by omega))

/-! ## The files of a partition -/

/-- The inode a file number stands for: the node if it is open, else the
    record on the disk, which carries its own number. -/
def fileRecord (s : FsState) (m : Nat) : Option Inode :=
  match findOpen s m with
  | some q => some (s.inodes q)
  | none =>
      let ino := Inode.ofBytes s.disk (slotAddr s m)
      if ino.iNo = m then some ino else none

/-- The contents of file `m`, if there is one. -/
def fileContents (s : FsState) (m : Nat) : Option (List UInt8) :=
  (fileRecord s m).map (contents s.disk)

theorem findOpen_some {s : FsState} {m q : Nat} (h : findOpen s m = some q) :
    q ∈ s.part.openInodes ∧ (s.inodes q).iNo = m :=
  ⟨List.mem_of_find?_eq_some h, by simpa using List.find?_some h⟩

theorem findOpen_none {s : FsState} {m : Nat} :
    findOpen s m = none ↔ ∀ q, q ∈ s.part.openInodes → (s.inodes q).iNo ≠ m := by
  simp [findOpen]

/-- Opening looks at the list of nodes and at their numbers only. -/
theorem findOpen_congr {s t : FsState} (hopen : t.part.openInodes = s.part.openInodes)
    (hno : ∀ q, (t.inodes q).iNo = (s.inodes q).iNo) (m : Nat) : findOpen t m = findOpen s m := by
  simp only [findOpen, hopen, hno]

end Fs
end JackOS
