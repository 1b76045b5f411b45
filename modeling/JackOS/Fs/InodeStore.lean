/-
  JackOS.Fs.InodeStore

  The inode table as a store of 76-byte records.  `inode_sync` moves the
  part of a record that lies in the sector the record starts in
  (`inodeSpan`), and so does `inode_open`; the rest of a straddling record
  comes from whatever follows the sector buffer in the heap.  Since
  `inode_sync` also cuts the inode number to eight bits, the table is a
  faithful store for `inodeStored` numbers only.
-/

import JackOS.Fs.Inode

namespace JackOS
namespace Fs

open Base

/-- The inode table fits on the disk and into the partition. -/
structure InodeTableOnDisk (s : FsState) : Prop where
  onDisk : s.part.sb.inodeTableLba + 607 ≤ maxLba
  inPartition : s.part.sb.inodeTableLba + 607 ≤ s.part.startLba + s.part.secCnt

theorem InodeTableOnDisk.setDisk {s : FsState} (h : InodeTableOnDisk s) (d : Mem) :
    InodeTableOnDisk (s.setDisk d) :=
  ⟨h.onDisk, h.inPartition⟩

/-- The disk address of record `n`. -/
def slotAddr (s : FsState) (n : Nat) : Nat := s.part.sb.inodeTableLba * 512 + inodeSize * n

/-- How many bytes of record `n` lie in the sector the record starts in. -/
def inodeSpan (n : Nat) : Nat := min inodeSize (512 - inodeSize * n % 512)

/-- The record's sectors all reach the disk and come back: the number fits the
    `uint8_t` of `inode_sync` and the 68 bytes up to `i_sectors[12]` lie in one
    sector. -/
def inodeStored (n : Nat) : Prop := n < 256 ∧ inodeSize * n % 512 ≤ 444

instance (n : Nat) : Decidable (inodeStored n) := by unfold inodeStored; infer_instance

theorem inodeSpan_le (n : Nat) : inodeSpan n ≤ inodeSize := Nat.min_le_left _ _

/-- At least the first word of a record is moved. -/
theorem four_le_inodeSpan (n : Nat) : 4 ≤ inodeSpan n := by
  simp only [inodeSpan, inodeSize]
  omega

/-- Two records do not overlap. -/
theorem slotAddr_disjoint {s : FsState} {m n : Nat} (h : m ≠ n) :
    slotAddr s m + inodeSize ≤ slotAddr s n ∨ slotAddr s n + inodeSize ≤ slotAddr s m := by
  simp only [slotAddr, inodeSize]
  omega

/-! ## The three accesses -/

theorem InodePosition.sectors_pos (pos : InodePosition) : 0 < pos.sectors := by
  unfold InodePosition.sectors
  split <;> omega

/-- Where `inode_locate` puts record `n`, and how much of it is moved. -/
theorem inodeLocate_eq {s : FsState} {n : Nat} (hn : n < 4096) :
    ∃ pos, inodeLocate s n = .ok pos ∧ pos.secLba * 512 + pos.offSize = slotAddr s n ∧
      pos.secLba ≤ s.part.sb.inodeTableLba + 607 ∧ 0 < pos.sectors ∧ pos.offSize < 512 ∧
      inodeSpan n = min inodeSize (pos.sectors * 512 - pos.offSize) := by
  refine ⟨_, by rw [inodeLocate, kassert_pos hn]; rfl, ?_, ?_, ?_, ?_, ?_⟩
  · simp only [slotAddr, inodeSize]
    omega
  · simp only [inodeSize]
    omega
  · exact InodePosition.sectors_pos _
  · simp only [inodeSize]
    omega
  · simp only [InodePosition.sectors, inodeSpan, inodeSize]
    by_cases h : 512 - 76 * n % 512 < 76
    · simp [h]
    · simp only [h, if_false, if_true]
      omega

/-- The record `inode_sync` writes. -/
def Inode.synced (ino : Inode) : Inode := { ino with iOpenCnt := 0, writeDeny := false }

/-- `inode_sync` writes the first `inodeSpan` bytes of the record and nothing else. -/
theorem inodeSync_eq {s : FsState} (h : InodeTableOnDisk s) (ino : Inode) (ioBuf : Mem) :
    inodeSync s ino ioBuf = .ok (s.setDisk
      (s.disk.copy (slotAddr s (ino.iNo % 256)) ino.synced.bytes 0 (inodeSpan (ino.iNo % 256)))) := by
  obtain ⟨pos, hpos, haddr, hlba, hsec, hoff, hspan⟩ :=
    inodeLocate_eq (s := s) (n := ino.iNo % 256) (by omega)
  have h₁ : pos.secLba ≤ s.part.startLba + s.part.secCnt := hlba.trans h.inPartition
  have h₂ : pos.secLba ≤ maxLba := hlba.trans h.onDisk
  simp only [inodeSync, hpos, assertInPartition, kassert_pos h₁, ideRead, ideWrite,
    kassert_pos h₂, kassert_pos hsec, Outcome.ok_bind, Mem.copy_readModifyWrite]
  rw [haddr, ← hspan]
  rfl

/-- What `inode_open` sees of record `n`: the disk as far as the first sector
    goes, then the bytes after its buffer. -/
def slotView (s : FsState) (n : Nat) (junk : Mem) : Mem :=
  fun a => if a < inodeSpan n then s.disk (slotAddr s n + a) else junk (a - inodeSpan n)

theorem Inode.ofBytes_congr {m m' : Mem} {off off' : Nat}
    (h : ∀ a, a < inodeSize → m (off + a) = m' (off' + a)) :
    Inode.ofBytes m off = Inode.ofBytes m' off' := by
  have hword : ∀ k, k < 17 → m.le32 (off + 4 * k) = m'.le32 (off' + 4 * k) := by
    intro k hk
    refine Mem.le32_congr fun i hi => ?_
    have := h (4 * k + i) (by simp only [inodeSize]; omega)
    simpa [Nat.add_assoc] using this
  have h0 := hword 0 (by omega)
  have h1 := hword 1 (by omega)
  have h2 := hword 2 (by omega)
  have h3 := hword 3 (by omega)
  simp only [Inode.ofBytes]
  simp only [Nat.mul_zero, Nat.add_zero, Nat.mul_one] at h0 h1 h2 h3
  rw [h0, h1, h2, h3]
  congr 1
  funext j
  split
  · have := hword (j + 4) (by omega)
    simpa [Nat.mul_add, Nat.add_assoc, Nat.add_comm, Nat.add_left_comm] using this
  · rfl

/-- `inode_open` reads the record through `slotView`. -/
theorem loadInode_eq {s : FsState} (h : InodeTableOnDisk s) {n : Nat} (hn : n < 4096)
    (junk : Mem) : loadInode s n junk = .ok (Inode.ofBytes (slotView s n junk) 0) := by
  obtain ⟨pos, hpos, haddr, hlba, hsec, hoff, hspan⟩ := inodeLocate_eq (s := s) hn
  have hle := inodeSpan_le n
  simp only [loadInode, hpos, ideRead, kassert_pos (hlba.trans h.onDisk), kassert_pos hsec,
    Outcome.ok_bind]
  refine congrArg _ (Inode.ofBytes_congr fun a ha => ?_)
  simp only [slotView, Nat.zero_add]
  by_cases hin : a < inodeSpan n
  · rw [Mem.copy_inside (by omega) (by omega), if_pos hin]
    exact congrArg s.disk (by omega)
  · rw [Mem.copy_outside (by omega), if_neg hin, if_neg (by omega)]
    exact congrArg junk (by omega)

/-- A record is read from its own bytes: disks that agree on them load alike. -/
theorem slotView_congr {s s' : FsState} (hsb : s'.part.sb = s.part.sb) {n : Nat}
    (h : ∀ a, slotAddr s n ≤ a → a < slotAddr s n + inodeSize → s'.disk a = s.disk a)
    (junk : Mem) : slotView s' n junk = slotView s n junk := by
  funext a
  simp only [slotView, slotAddr, hsb]
  split
  · have := inodeSpan_le n
    exact h _ (by unfold slotAddr; omega) (by unfold slotAddr; omega)
  · rfl

/-! ## Reading a record back -/

/-- The fields of an inode are 32-bit words. -/
structure Inode.InRange (ino : Inode) : Prop where
  iNo : ino.iNo < 2 ^ 32
  iSize : ino.iSize < 2 ^ 32
  iSectors : ∀ j, j < 13 → ino.iSectors j < 2 ^ 32

/-- The persistent part of two inodes is the same. -/
structure SameRecord (a b : Inode) : Prop where
  iNo : a.iNo = b.iNo
  iSize : a.iSize = b.iSize
  iSectors : ∀ j, j < 13 → a.iSectors j = b.iSectors j

/-- Reading the bytes of an inode gives its persistent part back. -/
theorem Inode.ofBytes_bytes {ino : Inode} (h : ino.InRange) :
    SameRecord (Inode.ofBytes ino.bytes 0) ino := by
  have hword : ∀ k, ino.bytes.le32 (4 * k) = ino.word k % 2 ^ 32 :=
    fun k => Mem.le32_wordBytes ino.word k
  refine ⟨?_, ?_, fun j hj => ?_⟩
  · have := hword 0
    rwa [Inode.word, if_pos rfl, Nat.mod_eq_of_lt h.iNo] at this
  · have := hword 1
    rwa [Inode.word, if_neg (by omega), if_pos rfl, Nat.mod_eq_of_lt h.iSize] at this
  · have h4 := hword (j + 4)
    have hk : (0 : Nat) + 16 + 4 * j = 4 * (j + 4) := by omega
    have hw : ino.word (j + 4) = ino.iSectors j := by
      simp only [Inode.word]
      rw [if_neg (by omega), if_neg (by omega), if_neg (by omega), if_neg (by omega),
        if_pos (by omega), Nat.add_sub_cancel]
    simp only [Inode.ofBytes, if_pos hj]
    rw [hk, h4, hw, Nat.mod_eq_of_lt (h.iSectors j hj)]

/-- The words of a record that lie in its first sector are those on the disk. -/
theorem SameRecord.ofBytes_of_prefix {m m' : Mem} {off off' : Nat}
    (h : ∀ a, a < 68 → m (off + a) = m' (off' + a)) :
    SameRecord (Inode.ofBytes m off) (Inode.ofBytes m' off') := by
  have hword : ∀ k, k < 17 → m.le32 (off + 4 * k) = m'.le32 (off' + 4 * k) := by
    intro k hk
    refine Mem.le32_congr fun i hi => ?_
    have := h (4 * k + i) (by omega)
    simpa [Nat.add_assoc] using this
  refine ⟨by simpa [Inode.ofBytes] using hword 0 (by omega),
    by simpa [Inode.ofBytes] using hword 1 (by omega), fun j hj => ?_⟩
  simp only [Inode.ofBytes, if_pos hj]
  have := hword (j + 4) (by omega)
  simpa [Nat.mul_add, Nat.add_assoc, Nat.add_comm, Nat.add_left_comm] using this

theorem SameRecord.trans {a b c : Inode} (h₁ : SameRecord a b) (h₂ : SameRecord b c) :
    SameRecord a c :=
  ⟨h₁.iNo.trans h₂.iNo, h₁.iSize.trans h₂.iSize,
    fun j hj => (h₁.iSectors j hj).trans (h₂.iSectors j hj)⟩

theorem Inode.synced_inRange {ino : Inode} (h : ino.InRange) : ino.synced.InRange :=
  ⟨h.iNo, h.iSize, h.iSectors⟩

/-! ## Opening a record -/

/-- The state after `inode_open` has put `ino` into a new node. -/
def withFreshNode (s : FsState) (ino : Inode) : FsState :=
  (s.countMalloc.countMalloc.newNode { ino with iOpenCnt := 1 }).pushOpen s.nextNode

/-- Opening an inode that is not open loads its record into a new node. -/
theorem inodeOpen_miss {s : FsState} (h : InodeTableOnDisk s) {n : Nat} (hn : n < 4096)
    (hmiss : findOpen s n = none) (hheap : HeapServes s) :
    inodeOpen s n = .ok (s.nextNode, withFreshNode s
      (Inode.ofBytes (slotView s n (s.heapJunk (s.mallocCnt + 1))) 0)) := by
  have hload := loadInode_eq (s := s.countMalloc.countMalloc) ⟨h.onDisk, h.inPartition⟩ hn
    (s.heapJunk (s.mallocCnt + 1))
  simp only [inodeOpen, hmiss, hheap.sysMalloc, hheap.countMalloc.sysMalloc,
    FsState.countMalloc_heapJunk, FsState.countMalloc_mallocCnt, FsState.countMalloc_task,
    FsState.countMalloc_nextNode, hload, Outcome.ok_bind]
  rw [sysFree_own rfl]
  rfl

/-! ## The table as a store -/

/-- Record `n` survives being written back and reopened, and writing it back
    leaves every other record as it was. -/
def StoresRecord (n : Nat) : Prop :=
  ∀ (s : FsState) (ino : Inode) (ioBuf : Mem),
    InodeTableOnDisk s → ino.InRange → ino.iNo = n →
    ∃ s', inodeSync s ino ioBuf = .ok s' ∧
      (∀ t : FsState, t.disk = s'.disk → t.part.sb = s'.part.sb → InodeTableOnDisk t →
        findOpen t n = none → HeapServes t →
        ∃ p t', inodeOpen t n = .ok (p, t') ∧ SameRecord (t'.inodes p) ino) ∧
      ∀ m, m < 4096 → m ≠ n → ∀ junk, loadInode s' m junk = loadInode s m junk

/-- Writing record `n` back keeps the bytes of the other records. -/
theorem syncedDisk_other {s : FsState} {m n : Nat} (h : m ≠ n) (rec : Mem) {a : Nat}
    (h₁ : slotAddr s m ≤ a) (h₂ : a < slotAddr s m + inodeSize) :
    s.disk.copy (slotAddr s n) rec 0 (inodeSpan n) a = s.disk a := by
  have hd := slotAddr_disjoint (s := s) h
  have hle := inodeSpan_le n
  exact Mem.copy_outside (by omega)

theorem storesRecord_of_inodeStored {n : Nat} (h : inodeStored n) : StoresRecord n := by
  intro s ino ioBuf hs hino hno
  obtain ⟨hlt, hoff⟩ := h
  have hn : ino.iNo % 256 = n := by omega
  have hspan : 68 ≤ inodeSpan n := by
    simp only [inodeSpan, inodeSize] at hoff ⊢
    omega
  refine ⟨_, inodeSync_eq hs ino ioBuf, ?_, ?_⟩
  · intro t hdisk hsb ht hmiss hheap
    have hslot : slotAddr t n = slotAddr s n := by
      rw [slotAddr, hsb]
      rfl
    refine ⟨_, _, inodeOpen_miss ht (by omega) hmiss hheap, ?_⟩
    have hpre : ∀ a, a < 68 →
        slotView t n (t.heapJunk (t.mallocCnt + 1)) (0 + a) = ino.synced.bytes (0 + a) := by
      intro a ha
      simp only [slotView, Nat.zero_add]
      rw [if_pos (by omega), hdisk, hslot, hn]
      simp only [FsState.setDisk]
      rw [Mem.copy_inside (by omega) (by omega)]
      exact congrArg ino.synced.bytes (by omega)
    have hrec := (SameRecord.ofBytes_of_prefix hpre).trans
      (Inode.ofBytes_bytes (Inode.synced_inRange hino))
    simp only [withFreshNode, FsState.pushOpen, FsState.setPart_inodes, FsState.newNode_inodes,
      FsState.countMalloc_nextNode, Function.update_self]
    exact ⟨hrec.iNo, hrec.iSize, hrec.iSectors⟩
  · intro m hm hne junk
    rw [loadInode_eq hs hm, loadInode_eq (hs.setDisk _) hm]
    have hview : slotView (s.setDisk (s.disk.copy (slotAddr s n) ino.synced.bytes 0
        (inodeSpan n))) m junk = slotView s m junk := by
      apply slotView_congr
      · rfl
      · intro a h₁ h₂
        exact syncedDisk_other hne ino.synced.bytes h₁ h₂
    rw [hn, hview]

/-- A machine with an empty disk, whose inode table starts at sector 0. -/
def blankFs : FsState where
  ndebug := false
  disk := Mem.zero
  part :=
    { startLba := 0
      secCnt := 4096
      sb :=
        { magic := 0, secCnt := 4096, inodeCnt := 4096, partitionLbaBase := 0
          blockBitmapLba := 0, blockBitmapSects := 1, inodeBitmapLba := 0
          inodeBitmapSects := 1, inodeTableLba := 0, inodeTableSects := 608
          dataStartLba := 608, rootInodeNo := 0, dirEntrySize := 24 }
      blockBitmap := ⟨512, Mem.zero⟩
      inodeBitmap := ⟨512, Mem.zero⟩
      openInodes := [] }
  inodes := fun _ => ⟨0, 0, 0, false, fun _ => 0⟩
  nextNode := 0
  fileTable := fun _ => ⟨0, 0, none⟩
  rootInode := 0
  procs := fun _ => ⟨fun _ => -1, none, 0⟩
  cur := 0
  mallocOk := fun _ => true
  mallocCnt := 0
  heapJunk := fun _ => Mem.zero

theorem blankFs_tableOnDisk : InodeTableOnDisk blankFs :=
  ⟨by decide, by decide⟩

/-- The inode `n` whose only block is its indirect table, sector 1. -/
def probeInode (n : Nat) : Inode where
  iNo := n
  iSize := 0
  iOpenCnt := 0
  writeDeny := false
  iSectors := fun j => if j = 12 then 1 else 0

/-- The empty disk after the probe was written back to slot `n % 256`. -/
def probedFs (n : Nat) : FsState :=
  blankFs.setDisk (blankFs.disk.copy (slotAddr blankFs (n % 256)) (probeInode n).synced.bytes 0
    (inodeSpan (n % 256)))

/-- Where the probe's bytes did not get to the disk, record `n` reads as zero. -/
theorem slotView_probedFs {n a : Nat} (hcase : n ≠ n % 256 ∨ inodeSpan n ≤ a)
    (_ : a < inodeSize) : slotView (probedFs n) n Mem.zero a = 0 := by
  simp only [slotView]
  split
  · rename_i hlt
    rcases hcase with hne | hge
    · have hle := inodeSpan_le n
      have hslot : slotAddr (probedFs n) n = slotAddr blankFs n := by
        simp only [slotAddr, probedFs, FsState.setDisk_part]
      have hsame := syncedDisk_other (s := blankFs) hne (probeInode n).synced.bytes
        (a := slotAddr blankFs n + a) (by omega) (by omega)
      rw [hslot, probedFs, FsState.setDisk_disk, hsame]
      rfl
    · omega
  · rfl

theorem inodeStored_of_storesRecord {n : Nat} (hn : n < 4096) (h : StoresRecord n) :
    inodeStored n := by
  have hrange : (probeInode n).InRange := by
    refine ⟨by simp only [probeInode]; omega, by simp [probeInode], fun j _ => ?_⟩
    simp only [probeInode]
    split <;> omega
  obtain ⟨s', hsync, hopen, -⟩ := h blankFs (probeInode n) Mem.zero blankFs_tableOnDisk hrange rfl
  have hs' : s' = probedFs n := by
    rw [inodeSync_eq blankFs_tableOnDisk] at hsync
    cases hsync
    rfl
  subst hs'
  have htable : InodeTableOnDisk (probedFs n) := blankFs_tableOnDisk.setDisk _
  obtain ⟨p, t', hop, hrec⟩ := hopen _ rfl rfl htable rfl (fun _ _ => rfl)
  rw [inodeOpen_miss htable hn rfl (fun _ _ => rfl)] at hop
  cases hop
  simp only [withFreshNode, FsState.pushOpen, FsState.setPart_inodes, FsState.newNode_inodes,
    FsState.countMalloc_nextNode, Function.update_self] at hrec
  by_contra hbad
  have hcase : n ≠ n % 256 ∨ inodeSpan n ≤ 64 := by
    unfold inodeStored at hbad
    simp only [inodeSpan, inodeSize] at hbad ⊢
    omega
  have hread : (slotView (probedFs n) n Mem.zero).le32 64 = Mem.zero.le32 0 :=
    Mem.le32_congr fun i hi => slotView_probedFs (by omega) (by simp only [inodeSize]; omega)
  have hone : (probeInode n).iSectors 12 = 1 := rfl
  have hword : (slotView (probedFs n) n Mem.zero).le32 64 = (probeInode n).iSectors 12 :=
    hrec.iSectors 12 (by omega)
  rw [Mem.le32_zero] at hread
  omega

/-- The inode table stores record `n` faithfully exactly when its number fits
    the `uint8_t` of `inode_sync` and its sector pointers lie in one sector. -/
theorem storesRecord_iff (n : Nat) (hn : n < 4096) : StoresRecord n ↔ inodeStored n :=
  ⟨inodeStored_of_storesRecord hn, storesRecord_of_inodeStored⟩

theorem storesRecord_iff_one : StoresRecord 1 ↔ inodeStored 1 :=
  storesRecord_iff 1 (by decide)

/-- Record 6 starts 456 bytes into its sector: `i_sectors[10..12]` never reach
    the disk. -/
theorem not_storesRecord_six : ¬ ∀ n, n < 4096 → StoresRecord n :=
  fun h => absurd (inodeStored_of_storesRecord (by decide) (h 6 (by decide))) (by decide)

end Fs
end JackOS
