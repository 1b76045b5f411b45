/-
  JackOS.Fs.Removal

  Removing an entry: `delete_dir_entry` in the directory, then `inode_release`
  of what the entry led to.  Where the entry's block stays, the disk changes in
  its slot, in the directory's record and in the record that is given up
  (`Removes`), and the bits of the blocks given up become free.
-/

import JackOS.Fs.DirDelete
import JackOS.Fs.Tree

namespace JackOS
namespace Fs

open Base

variable {s s' t t' : FsState} {d d' : Mem} {ino old gone : Inode} {p n m k i lba : Nat}

/-! ## Deleting the entry -/

/-- Address `a` lies outside slot `i` of the block at `lba`. -/
def OutsideSlot (lba i a : Nat) : Prop :=
  a < lba * 512 + dirEntryBytes * i ∨ lba * 512 + dirEntryBytes * i + dirEntryBytes ≤ a

/-- Address `a` lies outside the part of record `m` that is read and written. -/
def OutsideRecord (s : FsState) (m a : Nat) : Prop :=
  a < slotAddr s m ∨ slotAddr s m + inodeSpan m ≤ a

/-- The inode of a directory with one entry less. -/
def Inode.shrunk (ino : Inode) : Inode := ino.withSize (ino.iSize - dirEntryBytes)

@[simp] theorem Inode.shrunk_iNo (ino : Inode) : ino.shrunk.iNo = ino.iNo := by
  rw [shrunk, withSize_iNo]

@[simp] theorem Inode.shrunk_iSectors (ino : Inode) : ino.shrunk.iSectors = ino.iSectors := by
  rw [shrunk, withSize_iSectors]

@[simp] theorem Inode.shrunk_iSize (ino : Inode) :
    ino.shrunk.iSize = ino.iSize - dirEntryBytes := by
  rw [shrunk, withSize_iSize]

theorem Inode.InRange.shrunk (h : ino.InRange) : ino.shrunk.InRange where
  iNo := by
    rw [Inode.shrunk_iNo]
    exact h.iNo
  iSize := by
    rw [Inode.shrunk_iSize]
    exact Nat.lt_of_le_of_lt (Nat.sub_le _ _) h.iSize
  iSectors := by
    rw [Inode.shrunk_iSectors]
    exact h.iSectors

/-- From disk `d` to `d'` a slot was filled with zeros. -/
structure ClearsSlot (d d' : Mem) (lba i : Nat) : Prop where
  outside : ∀ a, OutsideSlot lba i a → d' a = d a
  inside : ∀ a, a < dirEntryBytes → d' (lba * 512 + dirEntryBytes * i + a) = 0

/-- A slot of zeros has no entry. -/
theorem slotEntry_zero (h : ∀ a, a < dirEntryBytes → d (lba * 512 + dirEntryBytes * i + a) = 0) :
    slotEntry d lba i = none := by
  refine if_pos ?_
  change d.le32 (lba * 512 + dirEntryBytes * i + 20) = 0
  have h0 := h 20 (by decide)
  have h1 := h 21 (by decide)
  have h2 := h 22 (by decide)
  have h3 := h 23 (by decide)
  simp only [Mem.le32, Nat.add_assoc] at *
  rw [h0, h1, h2, h3]
  rfl

/-- What is written to a block that stays. -/
theorem clearsSlot_block {buf : Mem} (hbuf : HoldsBlock buf d lba) (hi : i < slotsPerBlock) :
    ClearsSlot d (d.copy (lba * 512) (buf.fill (dirEntryBytes * i) 0 dirEntryBytes) 0 512)
      lba i := by
  refine ⟨(clearSlot_disk hbuf hi rfl).1, fun a ha => ?_⟩
  simp only [dirEntryBytes, slotsPerBlock] at *
  rw [Nat.add_assoc, Mem.copy_inside (Nat.le_add_right _ _) (by omega), Nat.add_sub_cancel_left,
    Mem.fill_inside (by omega) (by omega)]

/-- `delete_dir_entry` of an entry whose block stays. -/
theorem deleteDirEntry_kept (hs : Layout s) (hrep : DirRep s (s.inodes p))
    (hat : FirstCarrier s.disk (s.inodes p) n k i)
    (hkept : Kept s.disk (blockRef s.disk (s.inodes p) k) i) :
    ∃ d₁, deleteDirEntry s p n = .ok (true, finishRemove (s.setDisk d₁) p)
      ∧ ClearsSlot s.disk d₁ (blockRef s.disk (s.inodes p) k) i := by
  obtain ⟨all, buf, cnt, first, heq, href, hbuf, hcnt, hiff⟩ := deleteDirEntry_at hrep hat
  have hclear : clearEntry p all k cnt first buf i s = .ok (s.setDisk _) :=
    clearEntry_kept hrep (href k hat.block) fun h => (hiff.1 h) hkept
  have hsize : s.part.sb.dirEntrySize ≤ (s.inodes p).iSize := by
    rw [hrep.entrySize, hrep.size]
    exact Nat.le_mul_of_pos_right _ hat.entry_mem_dir
  refine ⟨_, ?_, clearsSlot_block hbuf hat.slot⟩
  rw [heq, removeEntry_eq hcnt hclear rfl (hs.table.setDisk _) hsize, Outcome.ok_bind]

/-- The data area lies behind the records. -/
theorem Layout.record_le (hs : Layout s) (hm : m < 4096) :
    slotAddr s m + inodeSize ≤ s.part.sb.dataStartLba * 512 := by
  have hrecord : inodeSize * m + inodeSize ≤ 608 * 512 := by
    simp only [inodeSize]
    omega
  calc slotAddr s m + inodeSize
      = s.part.sb.inodeTableLba * 512 + (inodeSize * m + inodeSize) := Nat.add_assoc _ _ _
    _ ≤ s.part.sb.inodeTableLba * 512 + 608 * 512 := Nat.add_le_add_left hrecord _
    _ = (s.part.sb.inodeTableLba + 608) * 512 := (Nat.add_mul _ _ _).symm
    _ ≤ s.part.sb.dataStartLba * 512 := Nat.mul_le_mul_right _ hs.table_le

theorem OutsideRecord.of_data {a : Nat} (hs : Layout s) (hm : m < 4096)
    (ha : s.part.sb.dataStartLba * 512 ≤ a) : OutsideRecord s m a :=
  .inr ((Nat.add_le_add_left (inodeSpan_le m) _).trans ((hs.record_le hm).trans ha))

theorem OutsideRecord.of_other {a : Nat} (hne : m ≠ n) (ha : slotAddr s m ≤ a)
    (hlt : a < slotAddr s m + inodeSize) : OutsideRecord s n a := by
  have hspan := inodeSpan_le n
  rcases slotAddr_disjoint (s := s) hne with h | h
  · exact .inl (by omega)
  · exact .inr (by omega)

theorem slotAddr_congr (h : s'.part.sb = s.part.sb) (m : Nat) : slotAddr s' m = slotAddr s m := by
  rw [slotAddr, h]
  rfl

theorem OutsideRecord.congr {a : Nat} (h : s'.part.sb = s.part.sb) :
    OutsideRecord s' m a ↔ OutsideRecord s m a := by
  unfold OutsideRecord
  rw [slotAddr_congr h]

section Finish

variable (hsize : s.part.sb.dirEntrySize = dirEntryBytes) (hlt : (s.inodes p).iSize < 2 ^ 32)
  (hle : dirEntryBytes ≤ (s.inodes p).iSize)

include hsize hlt hle

/-- The directory's node has one entry less. -/
theorem finishRemove_shrunk : (finishRemove s p).inodes p = (s.inodes p).shrunk := by
  rw [finishRemove_node, hsize, subU32_of_le hle hlt]
  rfl

/-- `inode_sync` writes the record of the directory. -/
theorem finishRemove_record : (finishRemove s p).disk
    = s.disk.copy (slotAddr s ((s.inodes p).iNo % 256)) (s.inodes p).shrunk.synced.bytes 0
        (inodeSpan ((s.inodes p).iNo % 256)) := by
  have hnode := finishRemove_shrunk hsize hlt hle
  simp only [finishRemove, FsState.setDisk_inodes, FsState.setInode_inodes,
    Function.update_self] at hnode
  simp only [finishRemove, FsState.setDisk_disk, FsState.setInode_inodes, Function.update_self,
    FsState.setInode_disk, hnode, Inode.shrunk_iNo]
  rfl

end Finish

/-! ## Giving the inode up -/

theorem inodeOpen_returns (hs : Layout s) (hn : n < 4096) (hheap : HeapServes s) :
    ∃ p t, inodeOpen s n = .ok (p, t) ∧ HeapServes t := by
  cases hfind : findOpen s n with
  | some q =>
      refine ⟨q, s.setInode q { s.inodes q with iOpenCnt := u32 ((s.inodes q).iOpenCnt + 1) },
        ?_, hheap⟩
      rw [inodeOpen, hfind]
  | none => exact ⟨_, _, inodeOpen_miss hs.table hn hfind hheap, hheap.countMalloc.countMalloc⟩

/-- `inode_release`, which returns if the heap serves its requests. -/
theorem inodeRelease_meets (hs : Layout s) (hn : n < 4096) (hno : gone.iNo = n)
    (harea : ∀ j, blockRef s.disk gone j ≠ 0 → InDataArea s (blockRef s.disk gone j))
    (hnodes : ∀ q ∈ s.part.openInodes, q < s.nextNode)
    (htrue : ∀ p t, inodeOpen s n = .ok (p, t) → SameRecord (t.inodes p) gone) :
    Outcome.Meets (HeapServes s) (inodeRelease s n)
      fun s' => Forgets s s' n ∧ (BlockMapSynced s → Released s s' gone) := by
  constructor
  · intro s' hcall
    obtain ⟨⟨p, s₁⟩, hopen, -⟩ := Outcome.bind_eq_ok.1 hcall
    obtain ⟨s₂, heq, hforgets, hrel⟩ :=
      inodeRelease_run hs hn harea hnodes hno hopen (htrue p s₁ hopen)
    rw [heq] at hcall
    split at hcall
    · cases hcall
      exact ⟨hforgets, hrel⟩
    · cases hcall
  · intro hheap
    obtain ⟨p, s₁, hopen, hheap₁⟩ := inodeOpen_returns hs hn hheap
    obtain ⟨s₂, heq, -⟩ := inodeRelease_run hs hn harea hnodes hno hopen (htrue p s₁ hopen)
    exact ⟨s₂, by rw [heq, if_pos (hheap₁ _ (Nat.le_refl _))]⟩

/-- An inode that is opened is the one in its node, or else the one on disk. -/
theorem inodeOpen_record (hcall : inodeOpen s n = .ok (p, t))
    (hnode : ∀ q ∈ s.part.openInodes, (s.inodes q).iNo = n → SameRecord (s.inodes q) ino)
    (hload : findOpen s n = none → LoadsAs s n ino) : SameRecord (t.inodes p) ino := by
  unfold inodeOpen at hcall
  cases hfind : findOpen s n with
  | some q =>
      rw [hfind] at hcall
      cases hcall
      obtain ⟨hq, hno⟩ := findOpen_some hfind
      exact (sameRecord_setOpenCnt s p _ p).trans (hnode p hq hno)
  | none =>
      rw [hfind] at hcall
      dsimp only at hcall
      cases hblock : sysMalloc s with
      | mk node s₁ =>
      cases hbuf : sysMalloc s₁ with
      | mk inodeBuf s₂ =>
      rw [hblock] at hcall
      simp only [hbuf] at hcall
      have hs₂ : s₂ = s.countMalloc.countMalloc := by
        rw [sysMalloc_state hbuf, sysMalloc_state hblock]
      subst hs₂
      cases node with
      | none => cases hcall
      | some node =>
        cases inodeBuf with
        | none => cases hcall
        | some inodeBuf =>
          obtain ⟨ino', hrun, hcall⟩ := Outcome.bind_eq_ok.1 hcall
          obtain ⟨_, -, hcall⟩ := Outcome.bind_eq_ok.1 hcall
          cases hcall
          have hrec := hload hfind _ ino' hrun
          change SameRecord (Function.update s.inodes s.nextNode { ino' with iOpenCnt := 1 }
            s.nextNode) ino
          rw [Function.update_self]
          exact ⟨hrec.iNo, hrec.iSize, hrec.iSectors⟩

/-! ## The disk afterwards -/

/-- From `s` to `s'` slot `i` of the block at `lba` was cleared, the directory
    `old` lost an entry and `gone` was given up. -/
structure Removes (s s' : FsState) (old gone : Inode) (lba i : Nat) : Prop where
  sb : s'.part.sb = s.part.sb
  layout : Layout s'
  heapJunk : s'.heapJunk = s.heapJunk
  blockLen : s'.part.blockBitmap.btmpByteLen = s.part.blockBitmap.btmpByteLen
  bits : ∀ b, bitAt s'.part.blockBitmap.bits b = true
    ↔ bitAt s.part.blockBitmap.bits b = true ∧ ¬ ownsBit s gone b
  inodeBits : ∀ m, bitAt s'.part.inodeBitmap.bits m = true
    ↔ bitAt s.part.inodeBitmap.bits m = true ∧ m ≠ gone.iNo
  blockMap : BlockMapSynced s'
  same : ∀ a, s.part.sb.inodeTableLba * 512 ≤ a → OutsideRecord s gone.iNo a →
    OutsideRecord s old.iNo a → OutsideSlot lba i a → s'.disk a = s.disk a
  slot : ∀ a, a < dirEntryBytes → s'.disk (lba * 512 + dirEntryBytes * i + a) = 0
  record : ∀ a, a < inodeSpan old.iNo →
    s'.disk (slotAddr s old.iNo + a) = old.shrunk.synced.bytes a

theorem Looks.inodeBitmap (h : Looks s s') : s'.part.inodeBitmap = s.part.inodeBitmap := by
  rw [h.same]

theorem Removes.looks (h : Removes s t old gone lba i) (hlook : Looks t s') :
    Removes s s' old gone lba i := by
  refine ⟨hlook.sb.trans h.sb, h.layout.looks hlook, ?_, ?_, fun b => ?_, fun m => ?_, ?_, ?_, ?_,
    ?_⟩
  · rw [hlook.same]
    exact h.heapJunk
  · rw [hlook.blockBitmap, h.blockLen]
  · rw [hlook.blockBitmap, h.bits]
  · rw [hlook.inodeBitmap, h.inodeBits]
  · rw [hlook.same]
    exact h.blockMap
  · rw [hlook.disk]
    exact h.same
  · rw [hlook.disk]
    exact h.slot
  · rw [hlook.disk]
    exact h.record

end Fs
end JackOS
