/-
  JackOS.Fs.DirGrow

  `sync_dir_entry` where a direct block takes the entry, with all that stays: the
  directory can be read as before, its blocks are those of before and at most one
  that was free, and in front of the data area only the block bitmap was written
  (`syncDirEntry_adds`).
-/

import JackOS.Fs.DirAdd

namespace JackOS
namespace Fs

open Base

variable {s s' t : FsState} {ino ino' : Inode} {lba p k b i : Nat} {de : DirEntry}

/-- From `s` to `s'` the directory in node `p` got the entry `de`, and at most
    one free block for it. -/
structure AddsEntry (s s' : FsState) (p : Nat) (de : DirEntry) : Prop extends
    Added s s' p de where
  state : ∃ bits d ino, s' = (s.setBlocks bits d).setInode p ino
  iNo : (s'.inodes p).iNo = (s.inodes p).iNo
  layout : Layout s'
  rep : DirRep s' (s'.inodes p)
  used : usedBlocks s ⊆ usedBlocks s'
  fresh : ∀ j, blockRef s'.disk (s'.inodes p) j ≠ 0 →
    blockRef s'.disk (s'.inodes p) j = blockRef s.disk (s.inodes p) j
      ∨ blockRef s'.disk (s'.inodes p) j ∉ usedBlocks s
  front : ∀ a, a < s.part.sb.dataStartLba * 512 → ¬ inBlockMap s a → s'.disk a = s.disk a
  blockMap : BlockMapSynced s → BlockMapSynced s'

/-- The size counts one entry more. -/
theorem Added.size_eq (h : Added s s' p de) (hrep : DirRep s (s.inodes p)) :
    (s'.inodes p).iSize = dirEntryBytes * (dirEntries s'.disk (s'.inodes p)).length := by
  rw [h.size, hrep.size, h.entries.length_eq, List.length_cons, Nat.mul_succ]

/-- A directory whose pointers and blocks stayed, apart from one slot that is
    live now. -/
theorem slotState_rep (hrep : DirRep s (s.inodes p)) (hde : de.Live) (hk : k < 140)
    (hthere : blockRef s.disk (s.inodes p) k ≠ 0) (hi : i < slotsPerBlock)
    (hadded : Added s (slotState s p k i de) p de) :
    (∀ j, blockRef (slotState s p k i de).disk ((slotState s p k i de).inodes p) j
        = blockRef s.disk (s.inodes p) j)
      ∧ DirRep (slotState s p k i de) ((slotState s p k i de).inodes p) := by
  have hdisk : (slotState s p k i de).disk
      = putSlot s.disk (blockRef s.disk (s.inodes p) k) i de := by simp [slotState]
  have hsec : ∀ j, j < 13 → ((slotState s p k i de).inodes p).iSectors j
      = (s.inodes p).iSectors j := by
    intro j _
    simp [slotState]
  have hout : ∀ a, a < blockRef s.disk (s.inodes p) k * 512 + dirEntryBytes * i
      ∨ blockRef s.disk (s.inodes p) k * 512 + dirEntryBytes * i + dirEntryBytes ≤ a →
      (slotState s p k i de).disk a = s.disk a := by
    intro a ha
    rw [hdisk]
    exact Mem.copy_outside ha
  have href := (dirEntries_perm_slot hrep.sound.inj hk hthere hi hout hsec).1
  have hsize := hadded.size_eq hrep
  refine ⟨href, hrep.entrySize, ⟨fun j j' => ?_, fun j hj => ?_⟩, fun j => ?_, hsize,
    fun j hj hj140 i' hi' hdead a ha => ?_⟩
  · rw [href, href]
    exact hrep.sound.inj j j'
  · rw [href] at hj ⊢
    exact hrep.sound.mem j hj
  · rw [href]
    exact hrep.onDisk j
  · rw [href] at hj hdead ⊢
    by_cases hslot : j = k ∧ i' = i
    · -- the slot that was filled
      rw [hslot.1, hslot.2, hdisk, hde.slotEntry_eq] at hdead
      cases hdead
    · have hblock : blockRef s.disk (s.inodes p) j = blockRef s.disk (s.inodes p) k → j = k :=
        hrep.sound.inj j k hj
      have hbyte : ∀ c, c < dirEntryBytes → (slotState s p k i de).disk
            (blockRef s.disk (s.inodes p) j * 512 + dirEntryBytes * i' + c)
          = s.disk (blockRef s.disk (s.inodes p) j * 512 + dirEntryBytes * i' + c) := by
        intro c hc
        refine hout _ ?_
        simp only [dirEntryBytes, slotsPerBlock] at *
        by_cases heq : blockRef s.disk (s.inodes p) j = blockRef s.disk (s.inodes p) k
        · have hne : i' ≠ i := fun hii => hslot ⟨hblock heq, hii⟩
          omega
        · omega
      rw [slotEntry_congr hbyte] at hdead
      rw [hbyte a ha]
      exact hrep.clear j hj hj140 i' hi' hdead a ha

/-- An entry in a slot that was free. -/
theorem slotState_adds (hs : Layout s) (hrep : DirRep s (s.inodes p)) (hde : de.Live)
    (hk : k < 140) (hthere : blockRef s.disk (s.inodes p) k ≠ 0) (hi : i < slotsPerBlock)
    (hadded : Added s (slotState s p k i de) p de) : AddsEntry s (slotState s p k i de) p de := by
  obtain ⟨href, hrep'⟩ := slotState_rep hrep hde hk hthere hi hadded
  have harea := dataStart_le_of_mem (hrep.sound.mem k hthere)
  have hfront : ∀ a, a < s.part.sb.dataStartLba * 512 →
      (slotState s p k i de).disk a = s.disk a := by
    intro a ha
    have hlt := Nat.lt_of_lt_of_le ha (Nat.mul_le_mul_right 512 harea)
    exact Mem.copy_outside (.inl (Nat.lt_of_lt_of_le hlt (Nat.le_add_right _ _)))
  refine ⟨hadded, ⟨s.part.blockBitmap.bits, _, _, rfl⟩, ?_, hs.congr rfl, hrep', fun _ h => h,
    fun j _ => .inl (href j), fun a ha _ => hfront a ha, fun hmap => ?_⟩
  · simp [slotState]
  · apply (hmap.setDisk hs ?_).setInode
    intro a ha
    refine hfront a ?_
    have hle := hs.blockMap_le
    have hlt := hs.inodeMap_lt
    have htable := hs.table_le
    unfold inBlockMap at ha
    omega

/-! ## A new block -/

/-- The state where block `k` of the directory is the free block of bit `b`. -/
def freshState (s : FsState) (p k b : Nat) : FsState :=
  (putBlockBit s b true).setInode p
    ((s.inodes p).withSectors
      (Function.update (s.inodes p).iSectors k (s.part.sb.dataStartLba + b)))

theorem freshState_node : (freshState s p k b).inodes p = (s.inodes p).withSectors
    (Function.update (s.inodes p).iSectors k (s.part.sb.dataStartLba + b)) :=
  Function.update_self ..

section Fresh

variable (hs : Layout s) (hrep : DirRep s (s.inodes p)) (hb : FirstClear s.part.blockBitmap b)
  (hk : k < 12)

include hs hrep hb hk

/-- The pointers once the new block is filled. -/
theorem blockState_freshState_ref (j : Nat) :
    blockRef (blockState (freshState s p k b) p (s.part.sb.dataStartLba + b) de).disk
        ((blockState (freshState s p k b) p (s.part.sb.dataStartLba + b) de).inodes p) j
      = if j = k then s.part.sb.dataStartLba + b else blockRef s.disk (s.inodes p) j := by
  have hfree := not_mem_usedBlocks hb.clear
  have h12 : ((freshState s p k b).inodes p).iSectors 12 = (s.inodes p).iSectors 12 := by
    rw [freshState_node]
    exact Function.update_of_ne (by omega) _ _
  have htable : ((freshState s p k b).inodes p).iSectors 12 ≠ s.part.sb.dataStartLba + b := by
    rw [h12]
    intro heq
    have hmem := hrep.sound.mem 140
    rw [blockRef_table, heq] at hmem
    refine hfree (hmem ?_)
    have := hs.table_le
    omega
  have hold : ∀ j, blockRef (freshState s p k b).disk (s.inodes p) j
      = blockRef s.disk (s.inodes p) j :=
    blockRef_congr (fun _ _ => rfl) fun htab => by
      have hmem := hrep.sound.mem 140
      rw [blockRef_table] at hmem
      exact hs.putBlockBit_same hb.lt true (dataStart_le_of_mem (hmem htab))
  rw [blockState_ref de htable, freshState_node, blockRef_setDirect _ _ hk, hold]

end Fresh

/-- Block `k`, which was free, holds the entry and zeros, and all else stayed. -/
theorem dirRep_freshBlock (hrep : DirRep s (s.inodes p)) (hde : de.Live)
    (hsize : s'.part.sb.dirEntrySize = s.part.sb.dirEntrySize) (hlba : lba ≤ maxLba)
    (hfree : lba ∉ usedBlocks s)
    (hmono : ∀ l, l ∈ usedBlocks s' ↔ l ∈ usedBlocks s ∨ l = lba)
    (href : ∀ j, blockRef s'.disk (s'.inodes p) j
      = if j = k then lba else blockRef s.disk (s.inodes p) j)
    (hsame : ∀ l ∈ usedBlocks s, SameBlock s.disk s'.disk l)
    (hblock : ∀ a, a < 512 → s'.disk (lba * 512 + a) = if a < dirEntryBytes then de.bytes a else 0)
    (hadded : Added s s' p de) : DirRep s' (s'.inodes p) := by
  refine ⟨hsize.trans hrep.entrySize, ⟨fun j j' hj heq => ?_, fun j hj => ?_⟩, fun j => ?_,
    hadded.size_eq hrep, fun j hj hj140 i hi hdead a ha => ?_⟩
  · rw [href] at hj
    rw [href, href] at heq
    split_ifs at hj heq with h₁ h₂ h₂
    · rw [h₁, h₂]
    · exact absurd (hrep.sound.mem j' (heq ▸ hj)) (heq ▸ hfree)
    · exact absurd (hrep.sound.mem j hj) (heq ▸ hfree)
    · exact hrep.sound.inj j j' hj heq
  · rw [href] at hj ⊢
    rw [hmono]
    split_ifs at hj ⊢ with h₁
    · exact .inr rfl
    · exact .inl (hrep.sound.mem j hj)
  · rw [href]
    split_ifs
    · exact hlba
    · exact hrep.onDisk j
  · rw [href] at hj hdead ⊢
    simp only [dirEntryBytes, slotsPerBlock] at hi ha hblock hdead ⊢
    split_ifs at hj hdead ⊢ with h₁
    · by_cases hi0 : i = 0
      · -- the slot with the entry is live
        subst hi0
        have hbyte : ∀ c, c < 24 → s'.disk (lba * 512 + 24 * 0 + c)
            = putSlot s'.disk lba 0 de (lba * 512 + 24 * 0 + c) := by
          intro c hc
          rw [Nat.mul_zero, Nat.add_zero, hblock c (by omega), if_pos hc, putSlot]
          simp only [dirEntryBytes]
          rw [Mem.copy_inside (by omega) (by omega)]
          exact congrArg de.bytes (by omega)
        rw [slotEntry_congr hbyte, hde.slotEntry_eq] at hdead
        cases hdead
      · rw [Nat.add_assoc, hblock _ (by omega), if_neg (by omega)]
    · have hused := hrep.sound.mem j hj
      have hbyte : ∀ c, c < 24 → s'.disk (blockRef s.disk (s.inodes p) j * 512 + 24 * i + c)
          = s.disk (blockRef s.disk (s.inodes p) j * 512 + 24 * i + c) := by
        intro c hc
        rw [Nat.add_assoc]
        exact hsame _ hused _ (by omega)
      rw [slotEntry_congr hbyte] at hdead
      rw [hbyte a ha]
      exact hrep.clear j hj hj140 i hi hdead a ha

theorem usedBlocks_of_part (h : s'.part = s.part) : usedBlocks s' = usedBlocks s := by
  simp only [usedBlocks, blockBits, h]

/-- An entry in a new block. -/
theorem blockState_adds (hs : Layout s) (hrep : DirRep s (s.inodes p))
    (hb : FirstClear s.part.blockBitmap b) (hk : k < 12) (hdisk : FreeOnDisk s) (hde : de.Live)
    (hadded : Added s (blockState (freshState s p k b) p (s.part.sb.dataStartLba + b) de) p de) :
    AddsEntry s (blockState (freshState s p k b) p (s.part.sb.dataStartLba + b) de) p de := by
  have hfree : s.part.sb.dataStartLba + b ∉ usedBlocks s := not_mem_usedBlocks hb.clear
  have href := @blockState_freshState_ref s p k b de hs hrep hb hk
  have hfront : ∀ a, ¬ inBlock (s.part.sb.dataStartLba + b) a → ¬ inBlockMap s a →
      putBlock (putBlockBit s b true).disk (s.part.sb.dataStartLba + b) de a = s.disk a := by
    intro a hblock hmap
    rw [putBlock_outside hblock]
    exact hs.putBlockBit_outside hb.lt true hmap
  have hsame : ∀ l ∈ usedBlocks s, SameBlock s.disk
      (putBlock (putBlockBit s b true).disk (s.part.sb.dataStartLba + b) de) l := by
    intro l hl a ha
    have hne : l ≠ s.part.sb.dataStartLba + b := fun heq => hfree (heq ▸ hl)
    have hin : inBlock l (l * 512 + a) := by
      unfold inBlock
      omega
    refine hfront _ ?_ (hs.not_inBlockMap (dataStart_le_of_mem hl) hin)
    unfold inBlock
    omega
  have hdata : ∀ a, a < s.part.sb.dataStartLba * 512 →
      ¬ inBlock (s.part.sb.dataStartLba + b) a := by
    intro a ha
    unfold inBlock
    omega
  have hlayout : Layout (blockState (freshState s p k b) p (s.part.sb.dataStartLba + b) de) :=
    (hs.take b s.disk).congr rfl
  have hused : ∀ l,
      l ∈ usedBlocks (blockState (freshState s p k b) p (s.part.sb.dataStartLba + b) de)
        ↔ l ∈ usedBlocks s ∨ l = s.part.sb.dataStartLba + b := by
    have hpart : usedBlocks (blockState (freshState s p k b) p (s.part.sb.dataStartLba + b) de)
        = usedBlocks (s.setBlocks (setBitAt s.part.blockBitmap.bits b true) s.disk) :=
      usedBlocks_of_part rfl
    rw [hpart]
    exact mem_usedBlocks_setBlocks hb.lt s.disk
  have hstate : ∃ bits d ino, blockState (freshState s p k b) p (s.part.sb.dataStartLba + b) de
      = (s.setBlocks bits d).setInode p ino :=
    ⟨_, _, _, FsState.setInode_setInode (s.setBlocks
      (setBitAt s.part.blockBitmap.bits b true) _) p _ _⟩
  refine ⟨hadded, hstate, ?_, hlayout, ?_, fun l hl => (hused l).2 (.inl hl),
    fun j hj => ?_, fun a ha hmap => hfront a (hdata a ha) hmap, fun hmap => ?_⟩
  · rw [blockState_node, Inode.withSize_iNo, freshState_node, Inode.withSectors_iNo]
  · refine dirRep_freshBlock hrep hde rfl (hdisk b hb.lt hb.clear) hfree hused href hsame
      (fun a ha => ?_) hadded
    rw [blockState_disk, putBlock, Mem.copy_inside (Nat.le_add_right _ _) (by omega),
      Nat.add_sub_cancel_left, Nat.zero_add]
    simp only [dirEntryBytes]
    split_ifs with hlt
    · rw [Mem.copy_inside (Nat.zero_le _) (by omega)]
      exact congrArg de.bytes (by omega)
    · rw [Mem.copy_outside (by omega)]
      rfl
  · rw [href] at hj ⊢
    split_ifs at hj ⊢
    · exact .inr hfree
    · exact .inl rfl
  · have hput : BlockMapSynced (putBlockBit s b true) :=
      (BlockMapSyncedOn.putBlockBit hmap b true).mono fun _ _ => .inl trivial
    have hput' : BlockMapSynced ((putBlockBit s b true).setDisk
        (putBlock (putBlockBit s b true).disk (s.part.sb.dataStartLba + b) de)) := by
      apply hput.setDisk (hs.take b _)
      intro a ha
      refine putBlock_outside fun hin => hs.not_inBlockMap (Nat.le_add_right _ b) hin ?_
      exact ha
    exact fun a ha hP => hput' a ha hP

/-- A direct block takes the entry. -/
theorem syncDirEntry_adds (hs : Layout s) (hrep : DirRep s (s.inodes p)) (hde : de.Live)
    (hdisk : FreeOnDisk s) (hfree : 0 < (freeBits s).card)
    (hfit : ∃ k, k < 12 ∧ ¬ Filled s (s.inodes p) k) :
    ∃ s', syncDirEntry s p de = .ok (true, s') ∧ AddsEntry s s' p de := by
  classical
  -- the first direct block that is not filled
  obtain ⟨k, ⟨hk, hfit'⟩, hmin⟩ : ∃ k, (k < 12 ∧ ¬ Filled s (s.inodes p) k)
      ∧ ∀ j, j < k → ¬ (j < 12 ∧ ¬ Filled s (s.inodes p) j) :=
    ⟨Nat.find hfit, Nat.find_spec hfit, fun _ => Nat.find_min hfit⟩
  have hfull : ∀ j, j < k → Filled s (s.inodes p) j := by
    intro j hj
    by_contra hno
    exact hmin j hj ⟨by omega, hno⟩
  obtain ⟨s', hsync, hadded⟩ := syncDirEntry_direct hs hrep hde hdisk hfree hk hfull hfit'
  refine ⟨s', hsync, ?_⟩
  have hdirect : directBlocks (s.inodes p) k = (s.inodes p).iSectors k := if_pos hk
  have href : blockRef s.disk (s.inodes p) k = (s.inodes p).iSectors k := blockRef_direct hk
  rw [syncDirEntry_skip hrep (by omega) hfull, syncBlocks, hdirect] at hsync
  by_cases hzero : (s.inodes p).iSectors k = 0
  · obtain ⟨b, hb, halloc, hsub, hne, hput⟩ := takeBlock hs hfree
    have hnew : syncNewBlock p de k (directBlocks (s.inodes p)) s
        = writeFirstEntry p de (s.part.sb.dataStartLba + b) (freshState s p k b) := by
      rw [syncNewBlock, halloc, Outcome.ok_bind]
      simp only [setBlockBit_sb, hsub]
      rw [kassert_pos hne, Outcome.ok_bind, hput, Outcome.ok_bind, if_pos hk, setSector,
        if_pos (by omega), Outcome.ok_bind]
      rfl
    rw [if_pos hzero, hnew, writeFirstEntry_eq (s := freshState s p k b) (hdisk b hb.lt hb.clear)
      hrep.entrySize] at hsync
    cases hsync
    exact blockState_adds hs hrep hb hk hdisk hde hadded
  · have hlba : (s.inodes p).iSectors k ≤ maxLba := href ▸ hrep.onDisk k
    obtain ⟨buf, hread, hbuf⟩ := ideRead_block (s := s) hlba
    obtain ⟨i, hfind, hi, -⟩ :=
      findFree_some hbuf hrep.perSec fun hblock => hfit' ⟨hzero, hblock⟩
    have hstate : s' = slotState s p k i de := by
      rw [if_neg hzero, hread, Outcome.ok_bind, hfind] at hsync
      simp only at hsync
      rw [ideWrite, kassert_pos hlba, Outcome.ok_bind, kassert_pos (by omega), Outcome.ok_bind,
        hrep.entrySize, copy_block_putSlot de hbuf hi] at hsync
      rw [slotState, href, hrep.entrySize]
      cases hsync
      rfl
    subst hstate
    exact slotState_adds hs hrep hde (by omega) (by rwa [href]) hi hadded

end Fs
end JackOS
