/-
  JackOS.Fs.InodeRelease

  What `inode_release` gives back.  Freeing a block clears one bit in memory
  and writes its sector (`Frees`); the loop over the pointers and the table's
  own block add up to the blocks of the inode, in whatever pattern they are
  there (`releaseBlocks_frees`).
-/

import JackOS.Base.Pointwise
import JackOS.Fs.FileAppend
import JackOS.Fs.RefCount

namespace JackOS
namespace Fs

open Base

variable {s s' : FsState}

/-- `i_open_cnt` of inode `m`, 0 if it is not in `open_inodes`. -/
def openCnt (s : FsState) (m : Nat) : Nat :=
  match findOpen s m with
  | some q => (s.inodes q).iOpenCnt
  | none => 0

/-- Block `lba` lies in the data area, behind the root directory's block. -/
structure InDataArea (s : FsState) (lba : Nat) : Prop where
  behindRoot : s.part.sb.dataStartLba < lba
  inMap : lba < s.part.sb.dataStartLba + blockBits s
  onDisk : lba ≤ maxLba

/-- The sector of the inode bitmap is on disk as it is in memory. -/
def InodeMapSynced (s : FsState) : Prop :=
  ∀ a, a < 512 → s.disk (s.part.sb.inodeBitmapLba * 512 + a) = s.part.inodeBitmap.bits a

/-! ## Freeing blocks -/

/-- From `s` to `s'` the bits in `gone` were cleared, and their sectors
    written. -/
structure Frees (s s' : FsState) (gone : Nat → Prop) : Prop where
  same : ∃ bits d, s' = s.setBlocks bits d
  bits : ∀ b, bitAt s'.part.blockBitmap.bits b = true
    ↔ bitAt s.part.blockBitmap.bits b = true ∧ ¬ gone b
  outside : ∀ a, ¬ inBlockMap s a → s'.disk a = s.disk a
  synced : BlockMapSynced s → BlockMapSynced s'

theorem Frees.refl (s : FsState) : Frees s s fun _ => False :=
  ⟨⟨_, _, rfl⟩, fun _ => by simp, fun _ _ => rfl, id⟩

theorem Frees.trans {s'' : FsState} {gone gone' : Nat → Prop} (h : Frees s s' gone)
    (h' : Frees s' s'' gone') : Frees s s'' fun b => gone b ∨ gone' b := by
  obtain ⟨bits, d, hs'⟩ := h.same
  obtain ⟨bits', d', hs''⟩ := h'.same
  refine ⟨⟨bits', d', ?_⟩, fun b => ?_, fun a ha => ?_, fun hsync => h'.synced (h.synced hsync)⟩
  · rw [hs'', hs', FsState.setBlocks_setBlocks]
  · rw [h'.bits, h.bits, not_or, and_assoc]
  · rw [h'.outside a (by rw [hs']; exact ha), h.outside a ha]

theorem Frees.mono {gone gone' : Nat → Prop} (h : Frees s s' gone)
    (hiff : ∀ b, gone' b ↔ gone b) : Frees s s' gone' :=
  ⟨h.same, fun b => by rw [h.bits, hiff], h.outside, h.synced⟩

/-- The root directory's block stays taken. -/
theorem Frees.layout {gone : Nat → Prop} (h : Frees s s' gone) (hs : Layout s)
    (hroot : ¬ gone 0) : Layout s' := by
  have hbit := (h.bits 0).2 ⟨hs.rootBit, hroot⟩
  obtain ⟨bits, d, rfl⟩ := h.same
  exact hs.setBlocks hbit d

theorem putBlockBit_frees (hs : Layout s) {b : Nat} (hb : b < blockBits s) :
    Frees s (putBlockBit s b false) fun c => c = b := by
  refine ⟨⟨_, _, putBlockBit_eq⟩, fun c => ?_, fun a ha => hs.putBlockBit_outside hb false ha,
    fun hsync => ?_⟩
  · rw [putBlockBit_eq, FsState.setBlocks_bits, bitAt_setBitAt]
    by_cases hcb : c = b <;> simp [hcb]
  · exact (BlockMapSyncedOn.putBlockBit hsync b false).mono fun _ _ => .inl trivial

theorem freeBlock_eq (hs : Layout s) {lba : Nat} (hl : InDataArea s lba) :
    freeBlock s lba = .ok (putBlockBit s (lba - s.part.sb.dataStartLba) false) := by
  have h₁ := hl.behindRoot
  have h₂ := hl.inMap
  have hb : lba - s.part.sb.dataStartLba < blockBits s := by omega
  have hsub : subU32 lba s.part.sb.dataStartLba = lba - s.part.sb.dataStartLba := by
    have := hs.subU32_lba hb
    rwa [Nat.add_sub_cancel' (Nat.le_of_lt h₁)] at this
  have hpos : lba - s.part.sb.dataStartLba > 0 := by omega
  have hlay : Layout (setBlockBit s (lba - s.part.sb.dataStartLba) false) := by
    refine hs.setBlocks ?_ _
    rw [bitAt_setBitAt, if_neg (by omega)]
    exact hs.rootBit
  rw [freeBlock, hsub, kassert_pos hpos, Outcome.ok_bind,
    partBitmapSet_block_eq_ok.2 ⟨hb, rfl⟩, Outcome.ok_bind, hlay.bitmapSync_block hb]
  rfl

/-- The blocks of the pointers `all k`, .., as bits of the map. -/
def blockBitsOf (s : FsState) (all : Nat → Nat) (k left b : Nat) : Prop :=
  ∃ j, k ≤ j ∧ j < k + left ∧ all j = s.part.sb.dataStartLba + b

theorem not_blockBitsOf_root {all : Nat → Nat} {k left : Nat} (hs : Layout s)
    (hall : ∀ j, k ≤ j → j < k + left → all j ≠ 0 → InDataArea s (all j)) :
    ¬ blockBitsOf s all k left 0 := by
  rintro ⟨j, hkj, hj, heq⟩
  have htable := hs.table_le
  have := (hall j hkj hj (by omega)).behindRoot
  omega

theorem InDataArea.congr {lba : Nat} (h : InDataArea s lba) (hsb : s'.part.sb = s.part.sb)
    (hlen : s'.part.blockBitmap.btmpByteLen = s.part.blockBitmap.btmpByteLen) :
    InDataArea s' lba := by
  refine ⟨?_, ?_, h.onDisk⟩
  · rw [hsb]
    exact h.behindRoot
  · rw [blockBits, hsb, hlen]
    exact h.inMap

/-- The loop over the pointers frees the blocks they name. -/
theorem freeBlocks_frees {all : Nat → Nat} {left k : Nat} (hs : Layout s)
    (hall : ∀ j, k ≤ j → j < k + left → all j ≠ 0 → InDataArea s (all j)) :
    ∃ s', freeBlocks all left k s = .ok s' ∧ Frees s s' (blockBitsOf s all k left) := by
  induction left generalizing k s with
  | zero =>
      refine ⟨s, rfl, (Frees.refl s).mono fun b => ⟨?_, False.elim⟩⟩
      rintro ⟨j, hkj, hj, -⟩
      omega
  | succ left ih =>
      -- the first pointer, then the others
      have hentry : ∃ s₁, freeEntry s (all k) = .ok s₁ ∧ Frees s s₁ (blockBitsOf s all k 1) := by
        by_cases hzero : all k = 0
        · refine ⟨s, if_neg (not_not.2 hzero), (Frees.refl s).mono fun b => ⟨?_, False.elim⟩⟩
          rintro ⟨j, hkj, hj, heq⟩
          have htable := hs.table_le
          have hjk : j = k := by omega
          rw [hjk, hzero] at heq
          omega
        · have hin := hall k (Nat.le_refl _) (by omega) hzero
          have h₁ := hin.behindRoot
          have h₂ := hin.inMap
          refine ⟨_, by rw [freeEntry, if_pos hzero, freeBlock_eq hs hin],
            (putBlockBit_frees hs (by omega)).mono fun b => ⟨?_, ?_⟩⟩
          · rintro ⟨j, hkj, hj, heq⟩
            have hjk : j = k := by omega
            rw [hjk] at heq
            omega
          · rintro rfl
            exact ⟨k, Nat.le_refl _, by omega, by omega⟩
      obtain ⟨s₁, hfree, hfrees⟩ := hentry
      have hlay := hfrees.layout hs (not_blockBitsOf_root hs fun j hkj hj =>
        hall j hkj (by omega))
      obtain ⟨bits, d, hs₁⟩ := hfrees.same
      have hall₁ : ∀ j, k + 1 ≤ j → j < k + 1 + left → all j ≠ 0 → InDataArea s₁ (all j) := by
        intro j hkj hj hne
        rw [hs₁]
        exact (hall j (by omega) (by omega) hne).congr rfl rfl
      obtain ⟨s', hrest, hrests⟩ := ih hlay hall₁
      refine ⟨s', by rw [freeBlocks, hfree, Outcome.ok_bind, hrest],
        (hfrees.trans hrests).mono fun b => ⟨?_, ?_⟩⟩
      · rintro ⟨j, hkj, hj, heq⟩
        by_cases hjk : j = k
        · exact .inl ⟨j, hkj, by omega, heq⟩
        · refine .inr ⟨j, by omega, by omega, ?_⟩
          rw [hs₁]
          exact heq
      · rintro (⟨j, hkj, hj, heq⟩ | ⟨j, hkj, hj, heq⟩)
        · exact ⟨j, hkj, by omega, heq⟩
        · rw [hs₁] at heq
          exact ⟨j, by omega, by omega, heq⟩

/-- The blocks of an inode, as bits of the map. -/
def ownsBit (s : FsState) (ino : Inode) (b : Nat) : Prop :=
  ∃ j, blockRef s.disk ino j = s.part.sb.dataStartLba + b

/-- The table's own block and the loop: what `inode_release` frees are the
    blocks of the inode. -/
theorem releaseBlocks_frees {ino : Inode} (hs : Layout s)
    (hin : ∀ j, blockRef s.disk ino j ≠ 0 → InDataArea s (blockRef s.disk ino j)) :
    ∃ all blockCnt s₁ s', releaseTable s ino = .ok (all, blockCnt, s₁)
      ∧ freeBlocks all blockCnt 0 s₁ = .ok s' ∧ Frees s s' (ownsBit s ino) := by
  have htable := hs.table_le
  have hpast : ∀ j b, blockRef s.disk ino j = s.part.sb.dataStartLba + b → j < 141 := by
    intro j b heq
    by_contra hj
    rw [blockRef_past (by omega)] at heq
    omega
  by_cases ht : ino.iSectors 12 = 0
  · -- direct blocks only
    have hall : ∀ j, 0 ≤ j → j < 0 + 12 → directBlocks ino j ≠ 0 →
        InDataArea s (directBlocks ino j) := by
      intro j _ hj hne
      rw [directBlocks, if_pos (by omega), ← blockRef_direct (d := s.disk) (by omega)] at hne ⊢
      exact hin j hne
    obtain ⟨s', hfree, hfrees⟩ := freeBlocks_frees hs hall
    refine ⟨_, _, _, s', by rw [releaseTable, if_neg (not_not.2 ht)], hfree,
      hfrees.mono fun b => ⟨?_, ?_⟩⟩
    · rintro ⟨j, heq⟩
      have hj : j < 12 := by
        by_contra hge
        rw [blockRef_noTable (by omega) ht] at heq
        omega
      refine ⟨j, Nat.zero_le _, by omega, ?_⟩
      rw [directBlocks, if_pos hj, ← blockRef_direct (d := s.disk) hj, heq]
    · rintro ⟨j, -, hj, heq⟩
      rw [directBlocks, if_pos (by omega)] at heq
      exact ⟨j, by rw [blockRef_direct (by omega), heq]⟩
  · -- the table is read, then its block is freed
    have hin12 : InDataArea s (ino.iSectors 12) := by
      have := hin 140 (by rwa [blockRef_table])
      rwa [blockRef_table] at this
    let all : Nat → Nat := fun k =>
      if 12 ≤ k ∧ k < 12 + 128 then s.disk.le32 (ino.iSectors 12 * 512 + 4 * (k - 12))
      else directBlocks ino k
    have hread : ideReadWords s (ino.iSectors 12) (directBlocks ino) 12 = .ok all := by
      rw [ideReadWords, kassert_pos hin12.onDisk, Outcome.ok_bind]
    have href : ∀ j, j < 140 → all j = blockRef s.disk ino j := by
      intro j hj
      by_cases hj12 : j < 12
      · simp only [all, directBlocks]
        rw [if_neg (by omega), if_pos hj12, blockRef_direct hj12]
      · simp only [all]
        rw [if_pos ⟨by omega, by omega⟩, blockRef_indirect (by omega) hj ht]
    have hb₁ := hin12.behindRoot
    have hb₂ := hin12.inMap
    have hfirst := putBlockBit_frees hs
      (b := ino.iSectors 12 - s.part.sb.dataStartLba) (by omega)
    have hlay := hfirst.layout hs (by omega)
    have hall : ∀ j, 0 ≤ j → j < 0 + 140 → all j ≠ 0 →
        InDataArea (putBlockBit s (ino.iSectors 12 - s.part.sb.dataStartLba) false) (all j) := by
      intro j _ hj hne
      rw [href j (by omega)] at hne ⊢
      exact (hin j hne).congr rfl rfl
    obtain ⟨s', hfree, hfrees⟩ := freeBlocks_frees hlay hall
    refine ⟨all, 140, _, s', ?_, hfree, (hfirst.trans hfrees).mono fun b => ⟨?_, ?_⟩⟩
    · rw [releaseTable, if_pos ht, hread, Outcome.ok_bind, freeBlock_eq hs hin12]
      rfl
    · rintro ⟨j, heq⟩
      have hj := hpast j b heq
      by_cases h140 : j = 140
      · rw [h140, blockRef_table] at heq
        exact .inl (by omega)
      · refine .inr ⟨j, Nat.zero_le _, by omega, ?_⟩
        rw [href j (by omega), heq]
        rfl
    · rintro (rfl | ⟨j, -, hj, heq⟩)
      · exact ⟨140, by rw [blockRef_table]; omega⟩
      · rw [href j (by omega)] at heq
        exact ⟨j, heq⟩

/-! ## The inode's own bit and record -/

/-- The state with another inode bitmap and disk. -/
def FsState.setInodeMap (s : FsState) (bits d : Mem) : FsState :=
  (s.setPart { s.part with inodeBitmap := { s.part.inodeBitmap with bits := bits } }).setDisk d

/-- `bitmap_sync` of the inode bitmap. -/
theorem bitmapSync_inode {n : Nat} (h : s.part.sb.inodeBitmapLba + n / 4096 ≤ maxLba) :
    bitmapSync s n .inodeBitmap = .ok (s.setDisk
      (s.disk.copy ((s.part.sb.inodeBitmapLba + n / 4096) * 512) s.part.inodeBitmap.bits
        (n / 4096 * blockSize) (1 * 512))) := by
  rw [bitmapSync]
  simp only [ideWrite, kassert_pos h, Outcome.ok_bind]
  rfl

/-- The inode's bit is cleared in memory, and its sector written. -/
theorem clearInodeBit (hs : Layout s) {n : Nat} (hn : n < 4096) :
    ∃ d s₁, partBitmapSet s .inodeBitmap n false = .ok s₁ ∧
      bitmapSync s₁ n .inodeBitmap
        = .ok (s.setInodeMap (setBitAt s.part.inodeBitmap.bits n false) d) ∧
      InodeMapSynced (s.setInodeMap (setBitAt s.part.inodeBitmap.bits n false) d) ∧
      ∀ a, (∀ i, i < 512 → a ≠ s.part.sb.inodeBitmapLba * 512 + i) → d a = s.disk a := by
  have hlen := hs.inodeLen
  have htable := hs.table.onDisk
  have hlt := hs.inodeMap_lt
  have hlba : s.part.sb.inodeBitmapLba + n / 4096 ≤ maxLba := by omega
  have hzero : n / 4096 = 0 := by omega
  refine ⟨s.disk.copy ((s.part.sb.inodeBitmapLba + n / 4096) * 512)
    (setBitAt s.part.inodeBitmap.bits n false) (n / 4096 * blockSize) (1 * 512),
    _, ?_, bitmapSync_inode hlba, ?_, ?_⟩
  · rw [partBitmapSet, if_pos (by omega)]
    rfl
  · intro a ha
    show Mem.copy _ _ _ _ _ (s.part.sb.inodeBitmapLba * 512 + a) = setBitAt _ n false a
    rw [Mem.copy_inside (by omega) (by omega), hzero]
    exact congrArg _ (by omega)
  · intro a ha
    refine Mem.copy_outside ?_
    by_contra hin
    exact ha (a - s.part.sb.inodeBitmapLba * 512) (by omega) (by omega)

/-- `inode_delete` clears the part of the record that lies in the sector the
    record starts in, and writes nothing else. -/
theorem inodeDelete_eq (hs : InodeTableOnDisk s) {n : Nat} (hn : n < 4096) (ioBuf : Mem) :
    ∃ d, inodeDelete s n ioBuf = .ok (s.setDisk d) ∧
      ∀ a, (a < slotAddr s n ∨ slotAddr s n + inodeSpan n ≤ a) → d a = s.disk a := by
  obtain ⟨pos, hpos, haddr, hlba, hsec, hoff, hspan⟩ := inodeLocate_eq (s := s) hn
  have h₁ : pos.secLba ≤ s.part.startLba + s.part.secCnt := hlba.trans hs.inPartition
  have h₂ : pos.secLba ≤ maxLba := hlba.trans hs.onDisk
  refine ⟨_, by
    rw [inodeDelete, kassert_pos hn, Outcome.ok_bind, hpos, Outcome.ok_bind, assertInPartition,
      kassert_pos h₁, Outcome.ok_bind, ideRead, kassert_pos h₂, kassert_pos hsec]
    simp only [Outcome.ok_bind]
    rw [ideWrite, kassert_pos h₂, kassert_pos hsec]
    rfl, fun a ha => ?_⟩
  by_cases hin : pos.secLba * 512 ≤ a ∧ a < pos.secLba * 512 + pos.sectors * 512
  · -- the rest of the sectors is written back as it was read
    have hkeep : a - pos.secLba * 512 < pos.offSize
        ∨ pos.offSize + inodeSize ≤ a - pos.secLba * 512 := by
      simp only [inodeSize] at *
      omega
    rw [Mem.copy_inside hin.1 hin.2, Nat.zero_add, Mem.fill_outside hkeep,
      Mem.copy_inside (Nat.zero_le _) (by omega)]
    exact congrArg s.disk (by omega)
  · exact Mem.copy_outside (by omega)

/-! ## Opening and closing around it -/

/-- Looking for `m` finds the same node, with the same count. -/
theorem openCnt_of_find {m : Nat} (hfind : findOpen s' m = findOpen s m)
    (hnode : ∀ q, findOpen s m = some q → (s'.inodes q).iOpenCnt = (s.inodes q).iOpenCnt) :
    openCnt s' m = openCnt s m := by
  unfold openCnt
  rw [hfind]
  cases hq : findOpen s m with
  | none => rfl
  | some q => exact hnode q hq

/-- Calls that touch neither the list nor a node keep the counts. -/
theorem openCnt_congr (hopen : s'.part.openInodes = s.part.openInodes)
    (hnode : s'.inodes = s.inodes) (m : Nat) : openCnt s' m = openCnt s m :=
  openCnt_of_find (findOpen_congr hopen (fun q => by rw [hnode]) m) fun q _ => by rw [hnode]

theorem openCnt_setOpenCnt {m p cnt : Nat} (hne : (s.inodes p).iNo ≠ m) :
    openCnt (s.setInode p { s.inodes p with iOpenCnt := cnt }) m = openCnt s m := by
  have hfind := findOpen_congr (s := s) (t := s.setInode p { s.inodes p with iOpenCnt := cnt }) rfl
    (fun q => setInode_field Inode.iNo (by rfl) q) m
  refine openCnt_of_find hfind fun q hq => ?_
  have hqp : q ≠ p := by
    rintro rfl
    exact hne (findOpen_some hq).2
  rw [FsState.setInode_inodes, Function.update_of_ne hqp]

/-- Closing a node keeps the counts of all other inodes. -/
theorem openCnt_inodeClose {m p : Nat} (hne : (s.inodes p).iNo ≠ m) :
    openCnt (inodeClose s p) m = openCnt s m := by
  unfold inodeClose
  simp only
  split
  · rw [← openCnt_setOpenCnt hne]
    refine openCnt_of_find (find?_erase_of_not ?_) fun _ _ => rfl
    rw [FsState.setPart_inodes, FsState.setInode_inodes, Function.update_self]
    exact decide_eq_false hne
  · exact openCnt_setOpenCnt hne

/-- Opening an inode keeps the counts of all other inodes. -/
theorem openCnt_inodeOpen {n p m : Nat} (h : inodeOpen s n = .ok (p, s'))
    (hlt : ∀ q ∈ s.part.openInodes, q < s.nextNode) (hno : (s'.inodes p).iNo = n)
    (hne : m ≠ n) : openCnt s' m = openCnt s m := by
  unfold inodeOpen at h
  cases hfind : findOpen s n with
  | some q =>
      rw [hfind] at h
      cases h
      rw [FsState.setInode_inodes, Function.update_self] at hno
      exact openCnt_setOpenCnt (by rw [hno]; exact hne.symm)
  | none =>
      rw [hfind] at h
      simp only at h
      cases hnode : sysMalloc s with
      | mk node s₁ =>
      cases hbuf : sysMalloc s₁ with
      | mk inodeBuf s₂ =>
      rw [hnode] at h
      simp only [hbuf] at h
      have hs₂ : s₂ = s.countMalloc.countMalloc := by
        rw [sysMalloc_state hbuf, sysMalloc_state hnode]
      cases node with
      | none => cases h
      | some node =>
        cases inodeBuf with
        | none => cases h
        | some inodeBuf =>
          obtain ⟨ino, -, h⟩ := Outcome.bind_eq_ok.1 h
          obtain ⟨_, -, h⟩ := Outcome.bind_eq_ok.1 h
          cases h
          subst hs₂
          -- the new node is at the head of the list, and of another number
          rw [FsState.pushOpen, FsState.setPart_inodes, FsState.newNode_inodes,
            Function.update_self] at hno
          have hother : ∀ q ∈ s.part.openInodes,
              Function.update s.inodes s.nextNode { ino with iOpenCnt := 1 } q = s.inodes q :=
            fun q hq => Function.update_of_ne (Nat.ne_of_lt (hlt q hq)) _ _
          refine openCnt_of_find ?_ fun q hq => ?_
          · show (s.nextNode :: s.part.openInodes).find? (fun q =>
              decide ((Function.update s.inodes s.nextNode { ino with iOpenCnt := 1 } q).iNo = m)) = _
            rw [List.find?_cons_of_neg (by
              rw [Function.update_self, decide_eq_true_eq]
              exact fun heq => hne (heq.symm.trans hno))]
            refine find?_eq_of_mem fun q hq => ?_
            rw [hother q hq]
          · show (Function.update s.inodes s.nextNode _ q).iOpenCnt = _
            rw [hother q (findOpen_some hq).1]

/-! ## Releasing an inode -/

/-- What `inode_release` did with inode `ino`: in memory and on disk exactly the
    bits of its blocks and its own are clear, and every other inode is open as
    often as before. -/
structure Released (s s' : FsState) (ino : Inode) : Prop where
  sb : s'.part.sb = s.part.sb
  blockLen : s'.part.blockBitmap.btmpByteLen = s.part.blockBitmap.btmpByteLen
  inodeLen : s'.part.inodeBitmap.btmpByteLen = s.part.inodeBitmap.btmpByteLen
  blocks : ∀ b, bitAt s'.part.blockBitmap.bits b = true
    ↔ bitAt s.part.blockBitmap.bits b = true ∧ ¬ ownsBit s ino b
  inode : ∀ m, bitAt s'.part.inodeBitmap.bits m = true
    ↔ bitAt s.part.inodeBitmap.bits m = true ∧ m ≠ ino.iNo
  blockMap : BlockMapSynced s'
  inodeMap : InodeMapSynced s'
  opens : ∀ m, m ≠ ino.iNo → openCnt s' m = openCnt s m

/-- What `inode_release` needs: the maps on disk are those in memory, the blocks
    of the inode lie in the data area, and the list of open inodes is sound. -/
structure Releasable (s : FsState) (ino : Inode) : Prop where
  layout : Layout s
  iNo_lt : ino.iNo < 4096
  area : ∀ j, blockRef s.disk ino j ≠ 0 → InDataArea s (blockRef s.disk ino j)
  blockMap : BlockMapSynced s
  inodeMap : InodeMapSynced s
  nodes : ∀ q ∈ s.part.openInodes, q < s.nextNode

theorem Layout.looks (hs : Layout s) (h : Looks s s') : Layout s' := by
  rw [h.same]
  exact ⟨⟨hs.table.onDisk, hs.table.inPartition⟩, hs.bootSector, hs.blockLen, hs.inodeLen,
    hs.blockMap_le, hs.inodeMap_lt, hs.table_le, hs.data_le, hs.rootBit⟩

/-- Writes outside the map's sector leave it synced. -/
theorem InodeMapSynced.congr (h : InodeMapSynced s)
    (hlba : s'.part.sb = s.part.sb) (hbits : s'.part.inodeBitmap = s.part.inodeBitmap)
    (hdisk : ∀ a, a < 512 → s'.disk (s.part.sb.inodeBitmapLba * 512 + a)
      = s.disk (s.part.sb.inodeBitmapLba * 512 + a)) : InodeMapSynced s' := by
  intro a ha
  rw [hlba, hbits, hdisk a ha]
  exact h a ha

/-- From `s` to `s'` only the maps were written. -/
structure WritesMaps (s s' : FsState) : Prop where
  same : ∃ d part, s' = { s with disk := d, part := part }
  openInodes : s'.part.openInodes = s.part.openInodes
  sb : s'.part.sb = s.part.sb
  behind : ∀ a, s.part.sb.inodeTableLba * 512 ≤ a → s'.disk a = s.disk a

/-- The state before `inode_delete`: the bits are clear, in memory and, where the
    map was written back before, on disk. -/
theorem releaseBits {ino : Inode} (hs : Layout s) (hno : ino.iNo < 4096)
    (harea : ∀ j, blockRef s.disk ino j ≠ 0 → InDataArea s (blockRef s.disk ino j)) :
    ∃ all blockCnt s₁ s₂ s₃ s₄, releaseTable s ino = .ok (all, blockCnt, s₁)
      ∧ freeBlocks all blockCnt 0 s₁ = .ok s₂
      ∧ partBitmapSet s₂ .inodeBitmap ino.iNo false = .ok s₃
      ∧ bitmapSync s₃ ino.iNo .inodeBitmap = .ok s₄
      ∧ (BlockMapSynced s → Released s s₄ ino) ∧ Layout s₄ ∧ WritesMaps s s₄ := by
  obtain ⟨all, blockCnt, s₁, s₂, htable, hloop, hfrees⟩ := releaseBlocks_frees hs harea
  have hroot : ¬ ownsBit s ino 0 := by
    rintro ⟨j, hj⟩
    have htab := hs.table_le
    have := (harea j (by omega)).behindRoot
    omega
  have hlay₂ := hfrees.layout hs hroot
  have hbits := hfrees.bits
  have hsync := hfrees.synced
  have hout := hfrees.outside
  have hle := hs.blockMap_le
  have hlt := hs.inodeMap_lt
  obtain ⟨bits, d, rfl⟩ := hfrees.same
  obtain ⟨d', s₃, hset, hput, hsynced, hd'⟩ := clearInodeBit hlay₂ hno
  refine ⟨all, blockCnt, s₁, _, s₃, _, htable, hloop, hset, hput, fun hmap =>
    ⟨rfl, rfl, rfl, hbits, fun m => ?_, ?_, hsynced, fun m _ => openCnt_congr rfl rfl m⟩, ?_,
    ⟨⟨_, _, rfl⟩, rfl, rfl, fun a ha => ?_⟩⟩
  · show bitAt (setBitAt s.part.inodeBitmap.bits ino.iNo false) m = true ↔ _
    rw [bitAt_setBitAt]
    by_cases hm : m = ino.iNo <;> simp [hm]
  · intro a ha hP
    show d' (s.part.sb.blockBitmapLba * 512 + a) = bits a
    have hlen := hs.blockLen
    have ha : a < s.part.blockBitmap.btmpByteLen := ha
    rw [hd' _ fun i hi => ?_]
    · exact hsync hmap a ha hP
    · show s.part.sb.blockBitmapLba * 512 + a ≠ s.part.sb.inodeBitmapLba * 512 + i
      omega
  · exact ⟨⟨hlay₂.table.onDisk, hlay₂.table.inPartition⟩, hlay₂.bootSector, hlay₂.blockLen,
      hlay₂.inodeLen, hlay₂.blockMap_le, hlay₂.inodeMap_lt, hlay₂.table_le, hlay₂.data_le,
      hlay₂.rootBit⟩
  · -- both maps lie before the inode table
    show d' a = s.disk a
    have hbefore : ∀ i, i < 512 → a ≠ s.part.sb.inodeBitmapLba * 512 + i := fun i hi => by omega
    rw [hd' a hbefore]
    refine hout a ?_
    unfold inBlockMap
    omega

/-- Writing to the inode table and giving the node back change none of it. -/
theorem Released.finish {t : FsState} {ino : Inode} {d : Mem} {p : Nat} (hs : Layout s)
    (h : Released s t ino) (hd : ∀ a, a < t.part.sb.inodeTableLba * 512 → d a = t.disk a)
    (hp : (t.inodes p).iNo = ino.iNo) :
    Released s (inodeClose (t.countMalloc.setDisk d) p) ino := by
  have hlook := looks_inodeClose (t.countMalloc.setDisk d) p
  have hle := hs.blockMap_le
  have hlt := hs.inodeMap_lt
  have hlen := hs.blockLen
  have hopens : ∀ m, m ≠ ino.iNo →
      openCnt (inodeClose (t.countMalloc.setDisk d) p) m = openCnt s m := by
    intro m hm
    have hne : ((t.countMalloc.setDisk d).inodes p).iNo ≠ m := by
      show (t.inodes p).iNo ≠ m
      rw [hp]
      exact hm.symm
    rw [openCnt_inodeClose hne, ← h.opens m hm]
    exact openCnt_congr rfl rfl m
  have hsb : (inodeClose (t.countMalloc.setDisk d) p).part.sb = t.part.sb := hlook.sb
  have hblock : (inodeClose (t.countMalloc.setDisk d) p).part.blockBitmap = t.part.blockBitmap :=
    hlook.blockBitmap
  have hinode : (inodeClose (t.countMalloc.setDisk d) p).part.inodeBitmap = t.part.inodeBitmap :=
    hlook.keepsFds.inodeBitmap
  have hdisk : (inodeClose (t.countMalloc.setDisk d) p).disk = d := hlook.disk
  refine ⟨hsb.trans h.sb, by rw [hblock, h.blockLen], by rw [hinode, h.inodeLen],
    fun b => by rw [hblock, h.blocks b], fun m => by rw [hinode, h.inode m], fun a ha hP => ?_,
    h.inodeMap.congr hsb hinode fun a ha => ?_, hopens⟩
  · rw [hblock] at ha
    rw [hsb, hdisk, hblock, hd _ ?_, h.blockMap a ha hP]
    rw [h.blockLen] at ha
    rw [h.sb]
    omega
  · rw [hdisk, hd _ ?_]
    rw [h.sb]
    omega

/-- From `s` to `s'` behind the maps only record `n` was written, and no node has
    another record. -/
structure Forgets (s s' : FsState) (n : Nat) : Prop where
  sb : s'.part.sb = s.part.sb
  layout : Layout s'
  disk : ∀ a, s.part.sb.inodeTableLba * 512 ≤ a →
    (a < slotAddr s n ∨ slotAddr s n + inodeSpan n ≤ a) → s'.disk a = s.disk a
  node : ∀ q, q < s.nextNode → SameRecord (s'.inodes q) (s.inodes q)
  nextNode : s.nextNode ≤ s'.nextNode
  heap : s'.heapJunk = s.heapJunk ∧ s'.mallocOk = s.mallocOk
  process : s'.rootInode = s.rootInode ∧ s'.task = s.task

theorem Looks.sameRecord (h : Looks s s') {q : Nat} (hq : q < s.nextNode) :
    SameRecord (s'.inodes q) (s.inodes q) := by
  rw [h.node q hq]
  exact ⟨rfl, rfl, fun _ _ => rfl⟩

/-- `inode_release` once the inode is open, up to its last heap request. -/
theorem inodeRelease_run {s₁ : FsState} {n p : Nat} {ino : Inode} (hs : Layout s) (hlt : n < 4096)
    (harea : ∀ j, blockRef s.disk ino j ≠ 0 → InDataArea s (blockRef s.disk ino j))
    (hnodes : ∀ q ∈ s.part.openInodes, q < s.nextNode) (hno : ino.iNo = n)
    (hopen : inodeOpen s n = .ok (p, s₁)) (hrec : SameRecord (s₁.inodes p) ino) :
    ∃ s₂, inodeRelease s n = (if s₁.mallocOk s₁.mallocCnt then .ok s₂ else .error .undefined)
      ∧ Forgets s s₂ n ∧ (BlockMapSynced s → Released s s₂ ino) := by
  obtain ⟨hlook, -, -⟩ := inodeOpen_spec hopen
  have hnode := hrec.iNo
  have hsame := hlook.same
  -- the node holds the record whose blocks are meant
  have href : ∀ j, blockRef s₁.disk (s₁.inodes p) j = blockRef s.disk ino j := by
    intro j
    rw [hlook.disk]
    exact hrec.blockRef_eq s.disk j
  have hown : ∀ b, ownsBit s₁ (s₁.inodes p) b ↔ ownsBit s ino b := by
    intro b
    unfold ownsBit
    rw [hsame] at href ⊢
    simp only [href]
  have hopens : ∀ m, m ≠ n → openCnt s₁ m = openCnt s m :=
    fun m hm => openCnt_inodeOpen hopen hnodes (hnode.trans hno) hm
  have hno₁ : (s₁.inodes p).iNo = n := hnode.trans hno
  have harea₁ : ∀ j, blockRef s₁.disk (s₁.inodes p) j ≠ 0 →
      InDataArea s₁ (blockRef s₁.disk (s₁.inodes p) j) := by
    intro j hj
    rw [href j] at hj ⊢
    rw [hsame]
    exact (harea j hj).congr rfl rfl
  have hlay₁ := hs.looks hlook
  obtain ⟨all, blockCnt, u₁, u₂, u₃, u₄, htable, hloop, hset, hput, hrel, hlay, hmaps⟩ :=
    releaseBits hlay₁ (hno₁ ▸ hlt) harea₁
  obtain ⟨d, part, hu₄⟩ := hmaps.same
  have hmalloc : u₄.mallocOk u₄.mallocCnt = s₁.mallocOk s₁.mallocCnt := by rw [hu₄]
  have hnodes₄ : u₄.inodes = s₁.inodes := by rw [hu₄]
  have htab : InodeTableOnDisk u₄.countMalloc := ⟨hlay.table.onDisk, hlay.table.inPartition⟩
  obtain ⟨d', hdel, hd'⟩ := inodeDelete_eq htab hlt Mem.zero
  have hlook' := looks_inodeClose (u₄.countMalloc.setDisk d') p
  have hsb₄ : u₄.part.sb = s.part.sb := hmaps.sb.trans hlook.sb
  have hslot : slotAddr u₄.countMalloc n = slotAddr s n := by
    show u₄.part.sb.inodeTableLba * 512 + _ = _
    rw [hsb₄]
    rfl
  rw [hslot] at hd'
  refine ⟨inodeClose (u₄.countMalloc.setDisk d') p, ?_,
    ⟨hlook'.sb.trans hsb₄, ?_, ?_, ?_, ?_, ?_, ?_⟩, ?_⟩
  · rw [inodeRelease, hopen, Outcome.ok_bind]
    simp only
    rw [kassert_pos hno₁, Outcome.ok_bind, htable, Outcome.ok_bind]
    simp only
    rw [hloop, Outcome.ok_bind, ← hno₁, hset, Outcome.ok_bind, hput, Outcome.ok_bind, sysMalloc,
      hmalloc]
    by_cases hok : s₁.mallocOk s₁.mallocCnt = true
    · rw [if_pos hok, if_pos hok]
      simp only
      rw [hno₁, hdel, Outcome.ok_bind, sysFree_own rfl]
      rfl
    · rw [if_neg hok, if_neg hok]
  · exact ((hlay.countMalloc).setDisk d').looks hlook'
  · intro a ha hout
    have hdisk : (inodeClose (u₄.countMalloc.setDisk d') p).disk = d' := hlook'.disk
    rw [hdisk, hd' a hout]
    show u₄.disk a = s.disk a
    rw [hmaps.behind a (by rw [hlook.sb]; exact ha), hlook.disk]
  · intro q hq
    have hq₁ : q < s₁.nextNode := Nat.lt_of_lt_of_le hq hlook.nextNode
    have hq₄ : q < (u₄.countMalloc.setDisk d').nextNode := by
      show q < u₄.nextNode
      rw [hu₄]
      exact hq₁
    have hrec₄ := hlook'.sameRecord hq₄
    rw [FsState.setDisk_inodes, FsState.countMalloc_inodes, hnodes₄] at hrec₄
    exact hrec₄.trans (hlook.sameRecord hq)
  · have hnext : (u₄.countMalloc.setDisk d').nextNode = s₁.nextNode := by
      show u₄.nextNode = s₁.nextNode
      rw [hu₄]
    have hclose := hlook'.nextNode
    rw [hnext] at hclose
    exact hlook.nextNode.trans hclose
  · rw [hlook'.same]
    show u₄.heapJunk = s.heapJunk ∧ u₄.mallocOk = s.mallocOk
    rw [hu₄, hsame]
    exact ⟨rfl, rfl⟩
  · rw [hlook'.same]
    show u₄.rootInode = s.rootInode ∧ u₄.task = s.task
    rw [hu₄, hsame]
    exact ⟨rfl, rfl⟩
  · intro hmap
    have hmap₁ : BlockMapSynced s₁ := by
      rw [hsame]
      exact hmap
    have hbefore : ∀ a, a < u₄.part.sb.inodeTableLba * 512 → d' a = u₄.disk a := by
      intro a ha
      rw [hsb₄] at ha
      exact hd' a (.inl (Nat.lt_of_lt_of_le ha (Nat.le_add_right _ _)))
    have hfinish := (hrel hmap₁).finish hlay₁ (p := p) hbefore (by rw [hnodes₄])
    refine ⟨hfinish.sb.trans (by rw [hsame]), hfinish.blockLen.trans (by rw [hsame]),
      hfinish.inodeLen.trans (by rw [hsame]), fun b => ?_, fun m => ?_, hfinish.blockMap,
      hfinish.inodeMap, fun m hm => ?_⟩
    · rw [hfinish.blocks b, hown b, hsame]
    · rw [hfinish.inode m, hnode, hsame]
    · rw [hfinish.opens m (by rwa [hnode]), hopens m (hno ▸ hm)]

theorem inodeRelease_eq {s₁ : FsState} {n p : Nat} {ino : Inode} (hs : Releasable s ino)
    (hno : ino.iNo = n) (hopen : inodeOpen s n = .ok (p, s₁))
    (hrec : SameRecord (s₁.inodes p) ino) :
    ∃ s₂, Released s s₂ ino ∧ inodeRelease s n
      = if s₁.mallocOk s₁.mallocCnt then .ok s₂ else .error .undefined := by
  obtain ⟨s₂, heq, -, hrel⟩ :=
    inodeRelease_run hs.layout (hno ▸ hs.iNo_lt) hs.area hs.nodes hno hopen hrec
  exact ⟨s₂, hrel hs.blockMap, heq⟩

/-- For every inode whose blocks lie in the data area, `inode_release` clears
    exactly the bits of its blocks and its own bit, in memory and on disk, and
    returns if the heap serves its requests. -/
theorem inodeRelease_frees {n : Nat} {ino : Inode} (hs : Releasable s ino) (hno : ino.iNo = n)
    (htrue : ∀ p t, inodeOpen s n = .ok (p, t) → SameRecord (t.inodes p) ino) :
    (∀ s', inodeRelease s n = .ok s' → Released s s' ino)
      ∧ (HeapServes s → ∃ s', inodeRelease s n = .ok s') := by
  constructor
  · intro s' hcall
    obtain ⟨⟨p, s₁⟩, hopen, -⟩ := Outcome.bind_eq_ok.1 hcall
    obtain ⟨s₂, hrel, heq⟩ := inodeRelease_eq hs hno hopen (htrue p s₁ hopen)
    rw [heq] at hcall
    split at hcall
    · cases hcall
      exact hrel
    · cases hcall
  · intro hheap
    have hopens : ∃ p s₁, inodeOpen s n = .ok (p, s₁) ∧ HeapServes s₁ := by
      cases hfind : findOpen s n with
      | some q =>
          refine ⟨q, s.setInode q { s.inodes q with iOpenCnt := u32 ((s.inodes q).iOpenCnt + 1) },
            ?_, hheap⟩
          rw [inodeOpen, hfind]
      | none =>
          exact ⟨_, _, inodeOpen_miss hs.layout.table (hno ▸ hs.iNo_lt) hfind hheap,
            hheap.countMalloc.countMalloc⟩
    obtain ⟨p, s₁, hopen, hheap₁⟩ := hopens
    obtain ⟨s₂, -, heq⟩ := inodeRelease_eq hs hno hopen (htrue p s₁ hopen)
    exact ⟨s₂, by rw [heq, if_pos (hheap₁ _ (Nat.le_refl _))]⟩

/-- File 1 with one block, on a partition whose maps are on disk. -/
def oneBlockFs : FsState :=
  { newFileFs with
    disk := (Mem.zero.copy (2 * 512) newFileFs.part.blockBitmap.bits 0 512).copy (3 * 512)
      newFileFs.part.inodeBitmap.bits 0 512
    inodes := fun _ => (inodeInit 1).withSectors fun j => if j = 0 then 613 else 0 }

theorem oneBlockFs_disk : oneBlockFs.disk
    = (Mem.zero.copy (2 * 512) newFileFs.part.blockBitmap.bits 0 512).copy (3 * 512)
      newFileFs.part.inodeBitmap.bits 0 512 := rfl

theorem oneBlockFs_releasable : Releasable oneBlockFs (oneBlockFs.inodes 0) where
  layout := newFileFs_layout.congr rfl
  iNo_lt := by decide
  area j hj := by
    have href : blockRef oneBlockFs.disk (oneBlockFs.inodes 0) j = if j = 0 then 613 else 0 := by
      by_cases hj12 : j < 12
      · rw [blockRef_direct hj12]
        rfl
      · rw [blockRef_noTable (by omega) rfl, if_neg (by omega)]
    rw [href] at hj ⊢
    split at hj
    · rw [if_pos ‹_›]
      exact ⟨by decide, by decide, by decide⟩
    · exact absurd rfl hj
  blockMap a ha _ := by
    have ha : a < 512 := ha
    have hlba : oneBlockFs.part.sb.blockBitmapLba = 2 := rfl
    rw [hlba, oneBlockFs_disk, Mem.copy_outside (by omega), Mem.copy_inside (by omega) (by omega)]
    exact congrArg newFileFs.part.blockBitmap.bits (by omega)
  inodeMap a ha := by
    have hlba : oneBlockFs.part.sb.inodeBitmapLba = 3 := rfl
    rw [hlba, oneBlockFs_disk, Mem.copy_inside (by omega) (by omega)]
    exact congrArg newFileFs.part.inodeBitmap.bits (by omega)
  nodes q hq := by
    rw [List.mem_singleton.1 hq]
    decide

theorem inodeRelease_frees_oneBlock :
    (∀ s', inodeRelease oneBlockFs 1 = .ok s' → Released oneBlockFs s' (oneBlockFs.inodes 0))
      ∧ (HeapServes oneBlockFs → ∃ s', inodeRelease oneBlockFs 1 = .ok s') := by
  refine inodeRelease_frees oneBlockFs_releasable rfl fun p t hopen => ?_
  have hfind : findOpen oneBlockFs 1 = some 0 := rfl
  rw [inodeOpen, hfind] at hopen
  cases hopen
  rw [FsState.setInode_inodes, Function.update_self]
  exact ⟨rfl, rfl, fun _ _ => rfl⟩

end Fs
end JackOS
