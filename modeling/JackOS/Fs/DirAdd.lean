/-
  JackOS.Fs.DirAdd

  `sync_dir_entry`.  Its search sees the 12 direct blocks only: the new entry
  goes into the first free slot there or into a new direct block, and when all
  12 are full, into the first block of a new indirect table.  A table the
  directory already has is lost then.
-/

import JackOS.Fs.Entries
import JackOS.Fs.FileMap

namespace JackOS
namespace Fs

open Base

variable {s s' : FsState} {d d' : Mem} {ino : Inode} {lba p k i : Nat} {de : DirEntry}

/-! ## The first free slot -/

/-- What `sync_dir_entry` looks for in a sector. -/
theorem findFree_eq {buf : Mem} (hbuf : HoldsBlock buf d lba)
    (hper : s.dirEntryPerSec = slotsPerBlock) :
    findFree s buf = (List.range slotsPerBlock).find? fun i => slotEntry d lba i = none := by
  rw [findFree, hper]
  apply find?_eq_of_mem
  intro i hi
  rw [hbuf.fType (List.mem_range.1 hi), decide_eq_decide, slotEntry]
  constructor
  · exact fun h => if_pos h
  · intro h
    by_contra hlive
    rw [if_neg hlive] at h
    cases h

/-- All slots of the block are live. -/
def FullBlock (d : Mem) (lba : Nat) : Prop := ∀ i, i < slotsPerBlock → slotEntry d lba i ≠ none

theorem findFree_none {buf : Mem} (hbuf : HoldsBlock buf d lba)
    (hper : s.dirEntryPerSec = slotsPerBlock) (hfull : FullBlock d lba) : findFree s buf = none := by
  rw [findFree_eq hbuf hper, List.find?_eq_none]
  intro i hi hnone
  exact hfull i (List.mem_range.1 hi) (of_decide_eq_true hnone)

theorem findFree_some {buf : Mem} (hbuf : HoldsBlock buf d lba)
    (hper : s.dirEntryPerSec = slotsPerBlock) (hfree : ¬ FullBlock d lba) :
    ∃ i, findFree s buf = some i ∧ i < slotsPerBlock ∧ slotEntry d lba i = none := by
  rw [findFree_eq hbuf hper]
  cases hfind : (List.range slotsPerBlock).find? fun i => slotEntry d lba i = none with
  | none =>
      refine absurd (fun i hi hnone => ?_) hfree
      exact List.find?_eq_none.1 hfind i (List.mem_range.2 hi) (decide_eq_true hnone)
  | some i =>
      have hmem := List.mem_of_find?_eq_some hfind
      exact ⟨i, rfl, List.mem_range.1 hmem, by simpa using List.find?_some hfind⟩

/-- The search passes over the blocks that are there and full. -/
theorem syncBlocks_skip {all : Nat → Nat} {left k₀ : Nat} (hper : s.dirEntryPerSec = slotsPerBlock)
    (hdisk : ∀ j, all j ≤ maxLba) (m : Nat)
    (hfull : ∀ j, k₀ ≤ j → j < k₀ + m → all j ≠ 0 ∧ FullBlock s.disk (all j)) :
    syncBlocks p de all (m + left) k₀ s = syncBlocks p de all left (k₀ + m) s := by
  induction m generalizing k₀ with
  | zero => rw [Nat.zero_add, Nat.add_zero]
  | succ m ih =>
      obtain ⟨hne, hblock⟩ := hfull k₀ (Nat.le_refl _) (by omega)
      obtain ⟨buf, hread, hbuf⟩ := ideRead_block (s := s) (hdisk k₀)
      have hrest := @ih (k₀ + 1) fun j hj hj' => hfull j (by omega) (by omega)
      have hleft : m + 1 + left = m + left + 1 := by omega
      rw [hleft, syncBlocks, if_neg hne, hread, Outcome.ok_bind]
      simp only [findFree_none hbuf hper hblock]
      rw [hrest]
      exact congrArg (fun j => syncBlocks p de all left j s) (by omega)

/-! ## Writing an entry -/

/-- An entry that is live where it stands. -/
structure DirEntry.Live (de : DirEntry) : Prop extends de.InRange where
  live : de.fType ≠ FileType.unknow.toWord

theorem DirEntry.Live.slotEntry_eq (hde : de.Live) (i : Nat) :
    slotEntry (putSlot d lba i de) lba i = some de.entry := by
  rw [slotEntry, slotAt_putSlot_self hde.toInRange]
  exact if_neg hde.live

variable (de) in
/-- Writing back a buffer with one slot changed. -/
theorem copy_block_putSlot {buf : Mem} (hbuf : HoldsBlock buf d lba) (hi : i < slotsPerBlock) :
    d.copy (lba * 512) (buf.copy (dirEntryBytes * i) de.bytes 0 dirEntryBytes) 0 (1 * 512)
      = putSlot d lba i de := by
  simp only [putSlot, dirEntryBytes, slotsPerBlock] at *
  funext a
  by_cases hin : lba * 512 ≤ a ∧ a < lba * 512 + 512
  · obtain ⟨c, rfl⟩ := Nat.exists_eq_add_of_le hin.1
    have hc : c < 512 := by omega
    rw [Mem.copy_inside (Nat.le_add_right _ _) (by omega), Nat.add_sub_cancel_left, Nat.zero_add]
    by_cases hslot : 24 * i ≤ c ∧ c < 24 * i + 24
    · rw [Mem.copy_inside hslot.1 hslot.2, Mem.copy_inside (by omega) (by omega)]
      exact congrArg de.bytes (by omega)
    · rw [Mem.copy_outside (by omega), Mem.copy_outside (by omega), hbuf c hc]
  · rw [Mem.copy_outside (by omega), Mem.copy_outside (by omega)]

/-- The disk with entry `de` alone in the block at `lba`. -/
def putBlock (d : Mem) (lba : Nat) (de : DirEntry) : Mem :=
  d.copy (lba * 512) (Mem.zero.copy 0 de.bytes 0 dirEntryBytes) 0 (1 * 512)

theorem putBlock_outside {a : Nat} (ha : ¬ inBlock lba a) : putBlock d lba de a = d a := by
  refine Mem.copy_outside ?_
  unfold inBlock at ha
  omega

theorem blockEntries_putBlock (hde : de.Live) (hlba : lba ≠ 0) :
    blockEntries (putBlock d lba de) lba = [de.entry] := by
  let d₀ := d.copy (lba * 512) Mem.zero 0 512
  have hzero : HoldsBlock Mem.zero d₀ lba := by
    intro a ha
    show _ = d.copy (lba * 512) Mem.zero 0 512 (lba * 512 + a)
    rw [Mem.copy_inside (Nat.le_add_right _ _) (by omega)]
    rfl
  have hput : putBlock d lba de = putSlot d₀ lba 0 de := by
    rw [← copy_block_putSlot de hzero (by decide)]
    funext a
    by_cases hin : lba * 512 ≤ a ∧ a < lba * 512 + 1 * 512
    · rw [putBlock, Mem.copy_inside hin.1 hin.2, Mem.copy_inside hin.1 hin.2]
      rfl
    · rw [putBlock, Mem.copy_outside (by omega), Mem.copy_outside (by omega)]
      exact (Mem.copy_outside (by omega)).symm
  -- before the entry is put there, the block is all zero
  have hempty : ∀ i, i < slotsPerBlock → slotEntry d₀ lba i = none := by
    intro i hi
    refine if_pos ?_
    rw [← hzero.fType hi]
    rfl
  have hother : ∀ j, j < slotsPerBlock → j ≠ 0 →
      slotEntry (putSlot d₀ lba 0 de) lba j = slotEntry d₀ lba j := by
    intro j hj hne
    refine slotEntry_congr fun a ha => Mem.copy_outside ?_
    simp only [dirEntryBytes] at *
    omega
  obtain ⟨rest, hold, hnew⟩ := blockEntries_perm_slot (by decide) hlba hother
  have hnil : blockEntries d₀ lba = [] := by
    rw [blockEntries, if_neg hlba, List.filterMap_eq_nil_iff]
    exact fun j hj => hempty j (List.mem_range.1 hj)
  rw [hnil, hempty 0 (by decide)] at hold
  obtain rfl : rest = [] := hold.symm.eq_nil
  rw [hde.slotEntry_eq] at hnew
  rw [hput]
  exact List.perm_singleton.1 hnew

/-! ## What adding does -/

/-- The new entry is there, and nothing else changed. -/
structure Added (s s' : FsState) (p : Nat) (de : DirEntry) : Prop where
  entries : (dirEntries s'.disk (s'.inodes p)).Perm (de.entry :: dirEntries s.disk (s.inodes p))
  size : (s'.inodes p).iSize = (s.inodes p).iSize + dirEntryBytes
  blocks : ∀ j, blockRef s.disk (s.inodes p) j ≠ 0 →
    ∃ j', blockRef s'.disk (s'.inodes p) j' = blockRef s.disk (s.inodes p) j
  others : ∀ l ∈ usedBlocks s, (∀ j, blockRef s.disk (s.inodes p) j ≠ l) →
    SameBlock s.disk s'.disk l

/-- The size after an entry was added. -/
theorem DirRep.size_add (h : DirRep s ino) :
    u32 (ino.iSize + s.part.sb.dirEntrySize) = ino.iSize + dirEntryBytes := by
  have hlen := dirEntries_length_le s.disk ino
  rw [h.entrySize, h.size]
  refine Nat.mod_eq_of_lt ?_
  simp only [dirEntryBytes, slotsPerBlock] at *
  omega

/-- The state with the entry in slot `i` of block `k`. -/
def slotState (s : FsState) (p k i : Nat) (de : DirEntry) : FsState :=
  (s.setDisk (putSlot s.disk (blockRef s.disk (s.inodes p) k) i de)).setInode p
    ((s.inodes p).withSize (u32 ((s.inodes p).iSize + s.part.sb.dirEntrySize)))

theorem slotState_added (hrep : DirRep s (s.inodes p)) (hde : de.Live) (hk : k < 140)
    (hthere : blockRef s.disk (s.inodes p) k ≠ 0) (hi : i < slotsPerBlock)
    (hdead : slotEntry s.disk (blockRef s.disk (s.inodes p) k) i = none) :
    Added s (slotState s p k i de) p de := by
  have hnode : (slotState s p k i de).inodes p
      = (s.inodes p).withSize (u32 ((s.inodes p).iSize + s.part.sb.dirEntrySize)) := by
    simp [slotState]
  have hdisk : (slotState s p k i de).disk
      = putSlot s.disk (blockRef s.disk (s.inodes p) k) i de := by simp [slotState]
  have hsec : ∀ j, j < 13 → ((slotState s p k i de).inodes p).iSectors j
      = (s.inodes p).iSectors j := by
    intro j _
    rw [hnode, Inode.withSize_iSectors]
  have hout : ∀ a, a < blockRef s.disk (s.inodes p) k * 512 + dirEntryBytes * i
      ∨ blockRef s.disk (s.inodes p) k * 512 + dirEntryBytes * i + dirEntryBytes ≤ a →
      (slotState s p k i de).disk a = s.disk a := by
    intro a ha
    rw [hdisk]
    exact Mem.copy_outside ha
  obtain ⟨href, rest, hold, hnew⟩ := dirEntries_perm_slot hrep.sound.inj hk hthere hi hout hsec
  rw [hdead] at hold
  rw [hdisk, hde.slotEntry_eq, ← hdisk] at hnew
  refine ⟨hnew.trans (hold.symm.cons _), ?_, fun j _ => ⟨j, href j⟩, fun l _ hl a ha => ?_⟩
  · rw [hnode, Inode.withSize_iSize, hrep.size_add]
  · have hne := hl k
    refine hout _ ?_
    simp only [dirEntryBytes, slotsPerBlock] at *
    omega

/-! ## A new block -/

/-- Block `lba` was free in `s`, and is block `k` of the directory in `t`. -/
structure FreshBlock (s t : FsState) (p k lba : Nat) : Prop where
  free : lba ∉ usedBlocks s
  pos : lba ≠ 0
  onDisk : lba ≤ maxLba
  ref : blockRef t.disk (t.inodes p) k = lba
  table : (t.inodes p).iSectors 12 ≠ lba
  same : ∀ l ∈ usedBlocks s, SameBlock s.disk t.disk l
  size : (t.inodes p).iSize = (s.inodes p).iSize
  entrySize : t.part.sb.dirEntrySize = s.part.sb.dirEntrySize

/-- The state with the entry in the new block `lba`. -/
def blockState (s : FsState) (p lba : Nat) (de : DirEntry) : FsState :=
  (s.setDisk (putBlock s.disk lba de)).setInode p
    ((s.inodes p).withSize (u32 ((s.inodes p).iSize + s.part.sb.dirEntrySize)))

@[simp] theorem blockState_node : (blockState s p lba de).inodes p
    = (s.inodes p).withSize (u32 ((s.inodes p).iSize + s.part.sb.dirEntrySize)) := by
  simp [blockState]

@[simp] theorem blockState_disk : (blockState s p lba de).disk = putBlock s.disk lba de := by
  simp [blockState]

theorem writeFirstEntry_eq (hlba : lba ≤ maxLba) (hentry : s.part.sb.dirEntrySize = dirEntryBytes) :
    writeFirstEntry p de lba s = .ok (true, blockState s p lba de) := by
  simp only [writeFirstEntry, ideWrite, hentry]
  rw [kassert_pos hlba, Outcome.ok_bind, kassert_pos (by omega), blockState, hentry]
  rfl

variable (de) in
/-- Filling the new block changes no pointer. -/
theorem blockState_ref (htable : (s.inodes p).iSectors 12 ≠ lba) (j : Nat) :
    blockRef (blockState s p lba de).disk ((blockState s p lba de).inodes p) j
      = blockRef s.disk (s.inodes p) j := by
  refine blockRef_congr (fun j _ => ?_) (fun _ a ha => ?_) j
  · rw [blockState_node, Inode.withSize_iSectors]
  · rw [blockState_disk]
    apply putBlock_outside
    unfold inBlock
    omega

theorem blockState_added {t : FsState} (hrep : DirRep s (s.inodes p)) (hde : de.Live)
    (hk : k < 140) (hnone : blockRef s.disk (s.inodes p) k = 0) (h : FreshBlock s t p k lba)
    (hother : ∀ j, j < 140 → j ≠ k → blockRef t.disk (t.inodes p) j = blockRef s.disk (s.inodes p) j)
    (htable : (s.inodes p).iSectors 12 ≠ 0 →
      (t.inodes p).iSectors 12 = (s.inodes p).iSectors 12) :
    Added s (blockState t p lba de) p de := by
  have href := blockState_ref de h.table
  have hsame : ∀ l ∈ usedBlocks s, SameBlock s.disk (blockState t p lba de).disk l := by
    intro l hl a ha
    have hne : l ≠ lba := fun heq => h.free (heq ▸ hl)
    rw [blockState_disk, putBlock_outside (by unfold inBlock; omega)]
    exact h.same l hl a ha
  have hblocks : ∀ j, j < 140 → j ≠ k →
      blockEntries (blockState t p lba de).disk
          (blockRef (blockState t p lba de).disk ((blockState t p lba de).inodes p) j)
        = blockEntries s.disk (blockRef s.disk (s.inodes p) j) := by
    intro j hj hjk
    rw [href j, hother j hj hjk]
    exact SameBlock.blockEntries_eq fun hne => hsame _ (hrep.sound.mem j hne)
  obtain ⟨rest, hold, hnew⟩ := dirEntries_perm_block hk hblocks
  rw [hnone, blockEntries, if_pos rfl, List.nil_append] at hold
  rw [href k, h.ref, blockState_disk, blockEntries_putBlock hde h.pos, ← blockState_disk] at hnew
  refine ⟨hnew.trans (hold.symm.cons _), ?_, fun j hj => ?_, fun l hl _ => hsame l hl⟩
  · rw [blockState_node, Inode.withSize_iSize, h.size, h.entrySize, hrep.size_add]
  · refine ⟨j, ?_⟩
    rw [href j]
    by_cases hj140 : j < 140
    · exact hother j hj140 fun heq => hj (heq ▸ hnone)
    · have hj : j = 140 := by
        by_contra hne
        exact hj (blockRef_past (by omega))
      subst hj
      rw [blockRef_table] at hj ⊢
      rw [blockRef_table]
      exact htable hj

/-- Taking the first free block, in memory and on disk. -/
theorem takeBlock (hs : Layout s) (hfree : 0 < (freeBits s).card) :
    ∃ b, FirstClear s.part.blockBitmap b
      ∧ blockBitmapAlloc s = .ok (some (s.part.sb.dataStartLba + b), setBlockBit s b true)
      ∧ subU32 (s.part.sb.dataStartLba + b) s.part.sb.dataStartLba = b ∧ b ≠ 2 ^ 32 - 1
      ∧ bitmapSync (setBlockBit s b true) b .blockBitmap = .ok (putBlockBit s b true) := by
  obtain ⟨b₀, hb₀⟩ := Finset.card_pos.1 hfree
  obtain ⟨b, hb, halloc⟩ := blockBitmapAlloc_of_free hb₀
  have hused : s.part.sb.dataStartLba + b ∈ usedBlocks (setBlockBit s b true) :=
    (mem_usedBlocks_setBlocks hb.lt _ _).2 (.inr rfl)
  have hlt : s.part.sb.dataStartLba + b < 2 ^ 32 := (hs.take b s.disk).lba_lt hused
  have htable := hs.table_le
  exact ⟨b, hb, halloc, hs.subU32_lba hb.lt, by omega, (hs.take b s.disk).bitmapSync_block hb.lt⟩

/-- The map's sectors are no blocks of the data area. -/
theorem Layout.putBlockBit_same {b : Nat} (hs : Layout s) (hb : b < blockBits s) (v : Bool)
    (hlba : s.part.sb.dataStartLba ≤ lba) : SameBlock s.disk (putBlockBit s b v).disk lba := by
  intro a ha
  refine hs.putBlockBit_outside hb v (hs.not_inBlockMap hlba ?_)
  unfold inBlock
  omega

theorem FreeOnDisk.take {b : Nat} (h : FreeOnDisk s) : FreeOnDisk (putBlockBit s b true) := by
  intro c hc hclear
  refine h c hc ?_
  have hclear : bitAt (setBitAt s.part.blockBitmap.bits b true) c = false := hclear
  rw [bitAt_setBitAt] at hclear
  split at hclear
  · cases hclear
  · exact hclear

variable (de) in
/-- A missing direct block. -/
theorem syncNewBlock_direct (all : Nat → Nat) (hs : Layout s) (hrep : DirRep s (s.inodes p))
    (hdisk : FreeOnDisk s) (hfree : 0 < (freeBits s).card) (hk : k < 12) :
    ∃ lba t, syncNewBlock p de k all s = writeFirstEntry p de lba t ∧ FreshBlock s t p k lba
      ∧ (∀ j, j ≠ k → blockRef t.disk (t.inodes p) j = blockRef s.disk (s.inodes p) j) := by
  obtain ⟨b, hb, halloc, hsub, hne, hsync⟩ := takeBlock hs hfree
  let lba := s.part.sb.dataStartLba + b
  let ino := (s.inodes p).withSectors (Function.update (s.inodes p).iSectors k lba)
  let t := (putBlockBit s b true).setInode p ino
  have hnode : t.inodes p = ino := Function.update_self ..
  have hfreeb : lba ∉ usedBlocks s := not_mem_usedBlocks hb.clear
  have hpos : lba ≠ 0 := by
    have := hs.table_le
    omega
  have hsame : ∀ l ∈ usedBlocks s, SameBlock s.disk t.disk l :=
    fun l hl => hs.putBlockBit_same hb.lt true (dataStart_le_of_mem hl)
  have h12 : ino.iSectors 12 = (s.inodes p).iSectors 12 := Function.update_of_ne (by omega) _ _
  -- the old pointers read the same from the new disk
  have hold : ∀ j, blockRef t.disk (s.inodes p) j = blockRef s.disk (s.inodes p) j :=
    blockRef_congr (fun _ _ => rfl) fun htab => by
      have hmem := hrep.sound.mem 140
      rw [blockRef_table] at hmem
      exact hsame _ (hmem htab)
  have href : ∀ j, blockRef t.disk (t.inodes p) j
      = if j = k then lba else blockRef s.disk (s.inodes p) j := by
    intro j
    rw [hnode, blockRef_setDirect _ _ hk, hold]
  refine ⟨lba, t, ?_, ⟨hfreeb, hpos, hdisk b hb.lt hb.clear, ?_, ?_, hsame, ?_, rfl⟩,
    fun j hj => by rw [href, if_neg hj]⟩
  · rw [syncNewBlock, halloc, Outcome.ok_bind]
    simp only [setBlockBit_sb, hsub]
    rw [kassert_pos hne, Outcome.ok_bind, hsync, Outcome.ok_bind, if_pos hk, setSector,
      if_pos (by omega), Outcome.ok_bind]
    rfl
  · rw [href, if_pos rfl]
  · rw [hnode, h12]
    intro heq
    have hmem := hrep.sound.mem 140
    rw [blockRef_table, heq] at hmem
    exact hfreeb (hmem hpos)
  · rw [hnode]
    rfl

variable (de) in
/-- All direct blocks are there: a new table with a new first block. -/
theorem syncNewBlock_table (hs : Layout s) (hdisk : FreeOnDisk s)
    (hfree : 1 < (freeBits s).card) :
    ∃ lba t, syncNewBlock p de 12 (directBlocks (s.inodes p)) s = writeFirstEntry p de lba t
      ∧ FreshBlock s t p 12 lba
      ∧ (∀ j, j < 12 → blockRef t.disk (t.inodes p) j = blockRef s.disk (s.inodes p) j)
      ∧ (∀ j, 12 < j → j < 140 → blockRef t.disk (t.inodes p) j = 0)
      ∧ (t.inodes p).iSectors 12 ∉ usedBlocks s := by
  obtain ⟨b, hb, halloc, hsub, hne, hsync⟩ := takeBlock hs (by omega)
  let table := s.part.sb.dataStartLba + b
  let ino := (s.inodes p).withSectors (Function.update (s.inodes p).iSectors 12 table)
  let s₁ := (putBlockBit s b true).setInode p ino
  have hs₁ : Layout s₁ := (hs.take b (putBlockBit s b true).disk).setInode p ino
  have hcard := card_freeBits_setBlocks hb.lt hb.clear (putBlockBit s b true).disk
  have hfree₁ : 0 < (freeBits s₁).card := by
    have : (freeBits s₁).card + 1 = (freeBits s).card := hcard
    omega
  obtain ⟨c, hc, halloc₁, hsub₁, hne₁, hsync₁⟩ := takeBlock hs₁ hfree₁
  let lba := s.part.sb.dataStartLba + c
  let s₂ := putBlockBit s₁ c true
  let all := Function.update (directBlocks (s.inodes p)) 12 lba
  let t := s₂.setDisk (writtenTable s₂.disk table all)
  have hnode : t.inodes p = ino := Function.update_self ..
  have h12 : ino.iSectors 12 = table := by
    rw [Inode.withSectors_iSectors, Function.update_self]
  have hstart := hs.table_le
  have hmono : ∀ l, l ∈ usedBlocks s₁ ↔ l ∈ usedBlocks s ∨ l = table :=
    mem_usedBlocks_setBlocks hb.lt (putBlockBit s b true).disk
  have hfreet : table ∉ usedBlocks s := not_mem_usedBlocks hb.clear
  have hfreel : lba ∉ usedBlocks s₁ := not_mem_usedBlocks hc.clear
  have hne_table : table ≠ lba := fun heq => hfreel ((hmono lba).2 (.inr heq.symm))
  have htable : table ≤ maxLba := hdisk b hb.lt hb.clear
  have hlba : lba ≤ maxLba := hdisk.take c hc.lt hc.clear
  -- the table is new, so writing it changes no block in use
  have hsame : ∀ l ∈ usedBlocks s, SameBlock s.disk t.disk l := by
    intro l hl a ha
    have hlt : l ≠ table := fun heq => hfreet (heq ▸ hl)
    have hge := dataStart_le_of_mem hl
    have hout : t.disk (l * 512 + a) = s₂.disk (l * 512 + a) :=
      writtenTable_outside (by unfold inBlock; omega)
    have hstep : s₂.disk (l * 512 + a) = s₁.disk (l * 512 + a) :=
      hs₁.putBlockBit_same hc.lt true hge a ha
    rw [hout, hstep]
    exact hs.putBlockBit_same hb.lt true hge a ha
  have hlt : ∀ j, 12 ≤ j → all j < 2 ^ 32 := by
    intro j hj
    by_cases h : j = 12
    · rw [h]
      show Function.update (directBlocks (s.inodes p)) 12 lba 12 < _
      rw [Function.update_self]
      simp only [maxLba] at hlba
      omega
    · show Function.update (directBlocks (s.inodes p)) 12 lba j < _
      rw [Function.update_of_ne h, directBlocks, if_neg (by omega)]
      decide
  have hindirect : ∀ j, 12 ≤ j → j < 140 → blockRef t.disk (t.inodes p) j = all j := by
    intro j hj hj'
    rw [hnode]
    have htable : ino.iSectors 12 ≠ 0 := by
      rw [h12]
      omega
    have hwritten := blockRef_writtenTable (d := s₂.disk) htable hj hj' (hlt j hj)
    rw [h12] at hwritten
    exact hwritten
  refine ⟨lba, t, ?_, ⟨fun h => hfreel ((hmono lba).2 (.inl h)), by omega, hlba, ?_, ?_, hsame, ?_,
    rfl⟩, fun j hj => ?_, fun j hj hj' => ?_, ?_⟩
  · have hput : ideWriteWords s₂ table all 12 = .ok t := by
      rw [ideWriteWords, ideWrite, kassert_pos htable, Outcome.ok_bind, kassert_pos (by omega)]
      rfl
    have hset : setSector (putBlockBit s b true) p 12 table = .ok s₁ := if_pos (by omega)
    have htab₂ : (s₂.inodes p).iSectors 12 = table := by
      rw [← h12]
      exact congrArg (fun n : Inode => n.iSectors 12) (Function.update_self ..)
    rw [syncNewBlock, halloc, Outcome.ok_bind]
    simp only [setBlockBit_sb, hsub]
    rw [kassert_pos hne, Outcome.ok_bind, hsync, Outcome.ok_bind, if_neg (by omega), if_pos trivial,
      syncFirstIndirect, hset, Outcome.ok_bind, halloc₁, Outcome.ok_bind]
    simp only [setBlockBit_sb, hsub₁]
    rw [kassert_pos hne₁, Outcome.ok_bind, hsync₁, Outcome.ok_bind, htab₂]
    exact congrArg (· >>= _) hput
  · rw [hindirect 12 (by omega) (by omega)]
    exact Function.update_self ..
  · rw [hnode, h12]
    exact hne_table
  · rw [hnode]
    rfl
  · rw [hnode, blockRef_direct hj, blockRef_direct hj]
    exact Function.update_of_ne (by omega) _ _
  · rw [hindirect j (by omega) hj']
    show Function.update (directBlocks (s.inodes p)) 12 lba j = 0
    rw [Function.update_of_ne (by omega), directBlocks, if_neg (by omega)]
  · rw [hnode, h12]
    exact hfreet

/-! ## Adding an entry -/

/-- Block `k` is there, and full. -/
def Filled (s : FsState) (ino : Inode) (k : Nat) : Prop :=
  ino.iSectors k ≠ 0 ∧ FullBlock s.disk (ino.iSectors k)

/-- When adding keeps everything else: the directory has no indirect table yet,
    or one of the 12 direct blocks is missing or has a free slot. -/
def AddOk (s : FsState) (ino : Inode) : Prop :=
  ino.iSectors 12 = 0 ∨ ∃ k, k < 12 ∧ ¬ Filled s ino k

/-- The search gets to the first direct block that is not filled, or behind
    them all. -/
theorem syncDirEntry_skip (hrep : DirRep s (s.inodes p)) (hk : k ≤ 12)
    (hfull : ∀ j, j < k → Filled s (s.inodes p) j) : syncDirEntry s p de
      = syncBlocks p de (directBlocks (s.inodes p)) (139 - k + 1) k s := by
  have hsize : (s.inodes p).iSize % s.part.sb.dirEntrySize = 0 := by
    rw [hrep.entrySize, hrep.size, Nat.mul_mod_right]
  have hdisk : ∀ j, directBlocks (s.inodes p) j ≤ maxLba := by
    intro j
    by_cases hj : j < 12
    · have := hrep.onDisk j
      rwa [blockRef_direct hj, ← show directBlocks (s.inodes p) j = _ from if_pos hj] at this
    · rw [directBlocks, if_neg hj]
      exact Nat.zero_le _
  have hskip : syncBlocks p de (directBlocks (s.inodes p)) (k + (139 - k + 1)) 0 s
      = syncBlocks p de (directBlocks (s.inodes p)) (139 - k + 1) (0 + k) s := by
    apply syncBlocks_skip hrep.perSec hdisk
    intro j _ hj
    rw [directBlocks, if_pos (by omega)]
    exact hfull j (by omega)
  rw [syncDirEntry, kassert_pos hsize, Outcome.ok_bind]
  rw [Nat.zero_add, show k + (139 - k + 1) = 140 by omega] at hskip
  exact hskip

/-- A direct block takes the entry. -/
theorem syncDirEntry_direct (hs : Layout s) (hrep : DirRep s (s.inodes p)) (hde : de.Live)
    (hdisk : FreeOnDisk s) (hfree : 0 < (freeBits s).card) (hk : k < 12)
    (hfull : ∀ j, j < k → Filled s (s.inodes p) j) (hfit : ¬ Filled s (s.inodes p) k) :
    ∃ s', syncDirEntry s p de = .ok (true, s') ∧ Added s s' p de := by
  have hdirect : directBlocks (s.inodes p) k = (s.inodes p).iSectors k := if_pos hk
  have href : blockRef s.disk (s.inodes p) k = (s.inodes p).iSectors k := blockRef_direct hk
  rw [syncDirEntry_skip hrep (by omega) hfull, syncBlocks, hdirect]
  by_cases hzero : (s.inodes p).iSectors k = 0
  · -- the block is missing
    obtain ⟨lba, t, hsync, hfresh, hother⟩ :=
      syncNewBlock_direct de (directBlocks (s.inodes p)) hs hrep hdisk hfree hk
    have hadded : Added s (blockState t p lba de) p de := by
      apply blockState_added hrep hde (by omega) (href.trans hzero) hfresh
      · exact fun j _ hj => hother j hj
      · intro _
        have := hother 140 (by omega)
        rwa [blockRef_table, blockRef_table] at this
    refine ⟨_, ?_, hadded⟩
    rw [if_pos hzero, hsync,
      writeFirstEntry_eq hfresh.onDisk (hfresh.entrySize.trans hrep.entrySize)]
  · -- the block has a free slot
    have hlba : (s.inodes p).iSectors k ≤ maxLba := href ▸ hrep.onDisk k
    obtain ⟨buf, hread, hbuf⟩ := ideRead_block (s := s) hlba
    obtain ⟨i, hfind, hi, hdead⟩ :=
      findFree_some hbuf hrep.perSec fun hblock => hfit ⟨hzero, hblock⟩
    have hput := copy_block_putSlot de hbuf hi
    refine ⟨slotState s p k i de, ?_, slotState_added hrep hde (by omega) (by rwa [href]) hi
      (by rwa [href])⟩
    rw [if_neg hzero, hread, Outcome.ok_bind, hfind]
    simp only
    rw [ideWrite, kassert_pos hlba, Outcome.ok_bind, kassert_pos (by omega), Outcome.ok_bind,
      hrep.entrySize, hput, slotState, href, hrep.entrySize]
    rfl

/-- All direct blocks are full: the entry goes into a new table, and the old
    one, if there is any, no longer belongs to the directory. -/
theorem syncDirEntry_full (hs : Layout s) (hrep : DirRep s (s.inodes p)) (hde : de.Live)
    (hdisk : FreeOnDisk s) (hfree : 1 < (freeBits s).card)
    (hfull : ∀ j, j < 12 → Filled s (s.inodes p) j) :
    ∃ s', syncDirEntry s p de = .ok (true, s')
      ∧ (Added s s' p de ↔ (s.inodes p).iSectors 12 = 0) := by
  obtain ⟨lba, t, hsync, hfresh, hdirect, hrest, htable⟩ :=
    syncNewBlock_table de hs hdisk hfree
  refine ⟨blockState t p lba de, ?_, ?_, fun hnone => ?_⟩
  · have hzero : directBlocks (s.inodes p) 12 = 0 := if_neg (by omega)
    rw [syncDirEntry_skip hrep (Nat.le_refl _) hfull, syncBlocks, if_pos hzero, hsync,
      writeFirstEntry_eq hfresh.onDisk (hfresh.entrySize.trans hrep.entrySize)]
  · -- no pointer leads to the old table
    intro hadded
    by_contra hold
    have hmem : (s.inodes p).iSectors 12 ∈ usedBlocks s := by
      have := hrep.sound.mem 140
      rw [blockRef_table] at this
      exact this hold
    obtain ⟨j, hj⟩ := hadded.blocks 140 (by rwa [blockRef_table])
    rw [blockState_ref de hfresh.table, blockRef_table] at hj
    rcases Nat.lt_trichotomy j 12 with hlt | rfl | hgt
    · -- a direct block is another one
      rw [hdirect j hlt] at hj
      have hne : blockRef s.disk (s.inodes p) j ≠ 0 := hj ▸ hold
      have := hrep.sound.inj j 140 hne (by rw [hj, blockRef_table])
      omega
    · rw [hfresh.ref] at hj
      exact hfresh.free (hj ▸ hmem)
    · by_cases hj140 : j < 140
      · rw [hrest j hgt hj140] at hj
        exact hold hj.symm
      · by_cases h : j = 140
        · rw [h, blockRef_table] at hj
          exact htable (hj ▸ hmem)
        · rw [blockRef_past (by omega)] at hj
          exact hold hj.symm
  · refine blockState_added hrep hde (by omega) (blockRef_noTable (Nat.le_refl _) hnone) hfresh
      (fun j hj hne => ?_) fun h => absurd hnone h
    by_cases hlt : j < 12
    · exact hdirect j hlt
    · rw [hrest j (by omega) hj, blockRef_noTable (by omega) hnone]

/-- For every directory, every new entry and enough free blocks:
    `sync_dir_entry` returns true, and it keeps everything else if and only if
    the directory has no table or the entry fits into a direct block. -/
theorem added_iff_addOk (s : FsState) (p : Nat) (de : DirEntry) (hs : Layout s)
    (hrep : DirRep s (s.inodes p)) (hde : de.Live) (hdisk : FreeOnDisk s)
    (hfree : 2 ≤ (freeBits s).card) :
    ∃ s', syncDirEntry s p de = .ok (true, s')
      ∧ (Added s s' p de ↔ AddOk s (s.inodes p)) := by
  classical
  by_cases hfit : ∃ k, k < 12 ∧ ¬ Filled s (s.inodes p) k
  · have hfirst := Nat.find_spec hfit
    have hfull : ∀ j, j < Nat.find hfit → Filled s (s.inodes p) j := by
      intro j hj
      by_contra hno
      have hlt := hfirst.1
      exact Nat.find_min hfit hj ⟨by omega, hno⟩
    obtain ⟨s', hsync, hadded⟩ :=
      syncDirEntry_direct hs hrep hde hdisk (by omega) hfirst.1 hfull hfirst.2
    exact ⟨s', hsync, fun _ => .inr hfit, fun _ => hadded⟩
  · have hfull : ∀ j, j < 12 → Filled s (s.inodes p) j := by
      intro j hj
      by_contra hno
      exact hfit ⟨j, hj, hno⟩
    obtain ⟨s', hsync, hiff⟩ := syncDirEntry_full hs hrep hde hdisk (by omega) hfull
    refine ⟨s', hsync, hiff.trans ⟨.inl, ?_⟩⟩
    exact fun hok => hok.resolve_right hfit

theorem shortEntry_live {name : List UInt8} {n : Nat} (hn : n < 2 ^ 32) :
    (shortEntry name n 1).Live where
  iNo := hn
  fType := by
    show 1 < 2 ^ 32
    omega
  live := by
    show (1 : Nat) ≠ 0
    omega

/-- A third file in the small directory. -/
theorem added_iff_addOk_smallDir : ∃ s', syncDirEntry smallDirFs 0 (shortEntry [99] 4 1)
      = .ok (true, s') ∧ (Added smallDirFs s' 0 (shortEntry [99] 4 1)
        ↔ AddOk smallDirFs (smallDirFs.inodes 0)) := by
  have hfree : ∀ b, b < 4096 → bitAt smallDirFs.part.blockBitmap.bits b = false →
      b ∈ freeBits smallDirFs := fun b hb hclear =>
    Finset.mem_filter.2 ⟨Finset.mem_range.2 hb, hclear⟩
  have hcard : 2 ≤ (freeBits smallDirFs).card :=
    Finset.one_lt_card.2 ⟨3, hfree 3 (by decide) (by decide), 4, hfree 4 (by decide) (by decide),
      by decide⟩
  exact added_iff_addOk smallDirFs 0 (shortEntry [99] 4 1) smallDirFs_layout smallDirFs_dirRep
    (shortEntry_live (by decide)) smallDirFs_freeOnDisk hcard

/-! ## A directory with a table -/

/-- Entry `n` of a big directory: ".", ".." and files with names of their own. -/
def numberedEntry (n : Nat) : DirEntry :=
  if n = 0 then shortEntry dot 1 2
  else if n = 1 then shortEntry dotDot 0 2
  else shortEntry [UInt8.ofNat (65 + n / 21), UInt8.ofNat (65 + n % 21)] n 1

/-- Its blocks 613..624 are full, 625 is its table and 626 the only block of the
    table, with one entry. -/
def fullDirDisk : Mem := fun a =>
  let off := a - 613 * 512
  if a < 613 * 512 then 0
  else if a < 625 * 512 then
    if off % 512 < 504 then (numberedEntry (off / 512 * 21 + off % 512 / 24)).bytes (off % 512 % 24)
    else 0
  else if a < 626 * 512 then Mem.wordBytes (fun k => if k = 0 then 626 else 0) (a - 625 * 512)
  else if a < 626 * 512 + 24 then (numberedEntry 252).bytes (a - 626 * 512)
  else 0

def fullDirFs : FsState :=
  { smallDirFs with
    disk := fullDirDisk
    part := { smallDirFs.part with
      blockBitmap := ⟨512, fun a => if a = 0 then 0xFF else if a = 1 then 0x7F else 0⟩ }
    inodes := fun _ => { smallDirInode with
      iSize := 24 * 253
      iSectors := fun j => if j < 12 then 613 + j else if j = 12 then 625 else 0 } }

theorem fullDirFs_layout : Layout fullDirFs :=
  ⟨⟨by decide, by decide⟩, smallDirFs_layout.bootSector, smallDirFs_layout.blockLen,
    smallDirFs_layout.inodeLen, smallDirFs_layout.blockMap_le, smallDirFs_layout.inodeMap_lt,
    smallDirFs_layout.table_le, smallDirFs_layout.data_le, by decide⟩

theorem fullDirFs_ref (j : Nat) : blockRef fullDirFs.disk (fullDirFs.inodes 0) j
    = if j < 12 then 613 + j else if j = 12 then 626 else if j = 140 then 625 else 0 := by
  have hall : ∀ j, j < 141 → blockRef fullDirFs.disk (fullDirFs.inodes 0) j
      = if j < 12 then 613 + j else if j = 12 then 626 else if j = 140 then 625 else 0 := by
    decide +kernel
  by_cases hj : j < 141
  · exact hall j hj
  · rw [blockRef_past (by omega), if_neg (by omega), if_neg (by omega), if_neg (by omega)]

theorem fullDirFs_full : ∀ k, k < 12 → FullBlock fullDirDisk (613 + k) := by
  have hall : ∀ k, k < 12 → ∀ i, i < slotsPerBlock → slotEntry fullDirDisk (613 + k) i ≠ none := by
    decide +kernel
  exact hall

theorem fullDirFs_used {b : Nat} (h₁ : 1 ≤ b) (h₂ : b < 15) : 612 + b ∈ usedBlocks fullDirFs := by
  have hset : ∀ b, b < 15 → bitAt fullDirFs.part.blockBitmap.bits b = true := by decide
  have hb : b < 4096 := by omega
  exact ⟨b, hb, rfl, hset b h₂⟩

theorem fullDirFs_dirRep : DirRep fullDirFs (fullDirFs.inodes 0) where
  entrySize := rfl
  sound := by
    refine ⟨fun i j hi heq => ?_, fun i hi => ?_⟩
    · rw [fullDirFs_ref] at hi
      rw [fullDirFs_ref, fullDirFs_ref] at heq
      split_ifs at hi heq <;> omega
    · rw [fullDirFs_ref] at hi ⊢
      split_ifs at hi ⊢
      · have hused := fullDirFs_used (b := 1 + i) (by omega) (by omega)
        rwa [← Nat.add_assoc] at hused
      · exact fullDirFs_used (b := 14) (by omega) (by omega)
      · exact fullDirFs_used (b := 13) (by omega) (by omega)
      · exact absurd rfl hi
  onDisk j := by
    rw [fullDirFs_ref]
    simp only [maxLba]
    split_ifs <;> omega
  size := by decide +kernel
  clear k hk hk140 i hi hdead a ha := by
    have hdead : slotEntry fullDirDisk (blockRef fullDirFs.disk (fullDirFs.inodes 0) k) i = none :=
      hdead
    have hfirst : slotEntry fullDirDisk 626 0 ≠ none := by decide +kernel
    show fullDirDisk _ = 0
    rw [fullDirFs_ref] at hk hdead ⊢
    split_ifs at hk hdead ⊢ with h12 h12' h140
    · exact absurd hdead (fullDirFs_full k h12 i hi)
    · -- behind the one entry of the block
      have hpos : i ≠ 0 := fun hzero => hfirst (hzero ▸ hdead)
      simp only [dirEntryBytes, slotsPerBlock] at *
      simp only [fullDirDisk]
      rw [if_neg (by omega), if_neg (by omega), if_neg (by omega), if_neg (by omega)]
    · omega
    · exact absurd rfl hk

/-- Adding a 254th entry to it loses the one in the old table. -/
theorem not_added_fullDir : ¬ ∀ s p de s', Layout s → DirRep s (s.inodes p) → de.Live →
    FreeOnDisk s → 2 ≤ (freeBits s).card →
    (dirEntries s.disk (s.inodes p)).length < 140 * slotsPerBlock →
    syncDirEntry s p de = .ok (true, s') → Added s s' p de := by
  intro h
  have hdisk : FreeOnDisk fullDirFs := fun _ hb _ => lba_le_maxLba hb
  have hfree : ∀ b, b < 4096 → bitAt fullDirFs.part.blockBitmap.bits b = false →
      b ∈ freeBits fullDirFs := fun b hb hclear =>
    Finset.mem_filter.2 ⟨Finset.mem_range.2 hb, hclear⟩
  have hcard : 2 ≤ (freeBits fullDirFs).card :=
    Finset.one_lt_card.2 ⟨15, hfree 15 (by decide) (by decide), 16,
      hfree 16 (by decide) (by decide), by decide⟩
  have hlive : (shortEntry [122] 253 1).Live := shortEntry_live (by decide)
  have hfull : ∀ j, j < 12 → Filled fullDirFs (fullDirFs.inodes 0) j := by
    intro j hj
    have hsec : (fullDirFs.inodes 0).iSectors j = 613 + j := if_pos hj
    rw [Filled, hsec]
    exact ⟨by omega, fullDirFs_full j hj⟩
  obtain ⟨s', hsync, hiff⟩ :=
    syncDirEntry_full fullDirFs_layout fullDirFs_dirRep hlive hdisk hcard hfull
  have hlen : (dirEntries fullDirFs.disk (fullDirFs.inodes 0)).length < 140 * slotsPerBlock := by
    decide +kernel
  have hadded := h fullDirFs 0 _ s' fullDirFs_layout fullDirFs_dirRep hlive hdisk hcard hlen hsync
  have hzero : (625 : Nat) = 0 := hiff.1 hadded
  omega

end Fs
end JackOS
