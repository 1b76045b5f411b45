/-
  JackOS.Fs.DirMake

  The middle of `sys_mkdir`, on a partition (`Volume`).  An inode number and a
  block are taken and the block gets the entries "." and ".." (`StartsDir`), the
  directory above gets its entry (`AddsEntry`), and both records are written
  (`WritesRecords`).  Together that makes the directory (`Inside.makes`).
-/

import JackOS.Fs.Making
import JackOS.Fs.RemoveCalls

namespace JackOS
namespace Fs

open Base

variable {s s' t u v w : FsState} {dirs files : Nat → Option Inode} {parent refs held : Nat → Nat}
  {ino old a₁ a₂ : Inode} {de : DirEntry} {d : Mem} {m n p q b lba : Nat}

/-! ## The entries "." and ".." -/

/-- Slot 0 and slot 1 of the first block of a new directory. -/
def dotEntry (name : List UInt8) (iNo : Nat) : DirEntry :=
  shortEntry name iNo FileType.directory.toWord

theorem dotEntry_live {name : List UInt8} (hn : n < 2 ^ 32) : (dotEntry name n).Live where
  iNo := hn
  fType := by
    show (2 : Nat) < 2 ^ 32
    omega
  live := by
    show (2 : Nat) ≠ 0
    omega

/-- The block at `lba` is the first one of directory `n` in `p`. -/
def HoldsDots (d : Mem) (lba n p : Nat) : Prop :=
  ∀ a, a < 512 → d (lba * 512 + a) = dotEntries n p a

theorem HoldsDots.slotEntry (h : HoldsDots d lba n p) (hn : n < 2 ^ 32) (hp : p < 2 ^ 32) :
    ∀ i, i < slotsPerBlock → slotEntry d lba i = if i = 0 then some (dotEntry dot n).entry
      else if i = 1 then some (dotEntry dotDot p).entry else none := by
  intro i hi
  simp only [slotsPerBlock] at hi
  split_ifs with h0 h1
  · subst h0
    have hslot : Fs.slotEntry (putSlot d lba 0 (dotEntry dot n)) lba 0
        = some (dotEntry dot n).entry := (dotEntry_live hn).slotEntry_eq 0
    rw [← hslot]
    refine slotEntry_congr fun a ha => ?_
    simp only [dirEntryBytes] at *
    rw [Nat.mul_zero, Nat.add_zero, h a (by omega), putSlot, dotEntries]
    simp only [dirEntryBytes]
    rw [Mem.copy_outside (by omega), Mem.copy_inside (by omega) (by omega),
      Mem.copy_inside (by omega) (by omega)]
    exact congrArg (dotEntry dot n).bytes (by omega)
  · subst h1
    have hslot : Fs.slotEntry (putSlot d lba 1 (dotEntry dotDot p)) lba 1
        = some (dotEntry dotDot p).entry := (dotEntry_live hp).slotEntry_eq 1
    rw [← hslot]
    refine slotEntry_congr fun a ha => ?_
    simp only [dirEntryBytes] at *
    rw [Nat.add_assoc, h _ (by omega), putSlot, dotEntries]
    simp only [dirEntryBytes]
    rw [Mem.copy_inside (by omega) (by omega), Mem.copy_inside (by omega) (by omega)]
    exact congrArg (dotEntry dotDot p).bytes (by omega)
  · refine slotEntry_zero fun a ha => ?_
    simp only [dirEntryBytes] at *
    rw [Nat.add_assoc, h _ (by omega), dotEntries]
    simp only [dirEntryBytes]
    rw [Mem.copy_outside (by omega), Mem.copy_outside (by omega)]
    rfl

/-- Behind the two entries the block is zero. -/
theorem HoldsDots.clear (h : HoldsDots d lba n p) {i a : Nat} (hi : i < slotsPerBlock)
    (h0 : i ≠ 0) (h1 : i ≠ 1) (ha : a < dirEntryBytes) :
    d (lba * 512 + dirEntryBytes * i + a) = 0 := by
  simp only [dirEntryBytes, slotsPerBlock] at *
  rw [Nat.add_assoc, h _ (by omega), dotEntries]
  simp only [dirEntryBytes]
  rw [Mem.copy_outside (by omega), Mem.copy_outside (by omega)]
  rfl

theorem HoldsDots.blockEntries (h : HoldsDots d lba n p) (hn : n < 2 ^ 32) (hp : p < 2 ^ 32)
    (hlba : lba ≠ 0) :
    blockEntries d lba = [(dotEntry dot n).entry, (dotEntry dotDot p).entry] := by
  rw [Fs.blockEntries, if_neg hlba, List.filterMap_congr fun i hi =>
    h.slotEntry hn hp i (List.mem_range.1 hi)]
  rfl

/-! ## The inode of a new directory -/

/-- `new_dir_inode` -/
def newDirInode (n lba : Nat) : Inode :=
  { inodeInit n with
    iSize := 2 * dirEntryBytes
    iSectors := Function.update (inodeInit n).iSectors 0 lba }

theorem newDirInode_iSectors (n lba j : Nat) :
    (newDirInode n lba).iSectors j = if j = 0 then lba else 0 := by
  change Function.update (fun _ => 0) 0 lba j = _
  rw [Function.update_apply]

theorem blockRef_newDirInode (d : Mem) (n lba j : Nat) :
    blockRef d (newDirInode n lba) j = if j = 0 then lba else 0 := by
  by_cases hj : j < 12
  · rw [blockRef_direct hj, newDirInode_iSectors]
  · rw [blockRef_noTable (by omega) (by rw [newDirInode_iSectors, if_neg (by decide)]),
      if_neg (by omega)]

theorem newDirInode_inRange (hn : n < 4096) (hlba : lba ≤ maxLba) :
    (newDirInode n lba).InRange where
  iNo := Nat.lt_trans hn (by decide)
  iSize := by
    show 2 * dirEntryBytes < 2 ^ 32
    decide
  iSectors := by
    intro j _
    rw [newDirInode_iSectors]
    split_ifs
    · exact Nat.lt_of_le_of_lt hlba (by decide)
    · decide

/-- A new directory has the two entries. -/
theorem dirEntries_newDirInode (h : HoldsDots d lba n p) (hn : n < 2 ^ 32) (hp : p < 2 ^ 32)
    (hlba : lba ≠ 0) : dirEntries d (newDirInode n lba)
      = [(dotEntry dot n).entry, (dotEntry dotDot p).entry] := by
  have hrest : ((List.range 139).map Nat.succ).flatMap
      (fun k => blockEntries d (blockRef d (newDirInode n lba) k)) = [] := by
    rw [List.flatMap_eq_nil_iff]
    intro k hk
    obtain ⟨j, -, rfl⟩ := List.mem_map.1 hk
    rw [blockRef_newDirInode, if_neg (Nat.succ_ne_zero j), Fs.blockEntries, if_pos rfl]
  rw [dirEntries, List.range_succ_eq_map, List.flatMap_cons, hrest, List.append_nil,
    blockRef_newDirInode, if_pos rfl, h.blockEntries hn hp hlba]

theorem dotsOnly_newDirInode (h : HoldsDots d lba n p) (hn : n < 2 ^ 32) (hp : p < 2 ^ 32)
    (hlba : lba ≠ 0) : DotsOnly (dirEntries d (newDirInode n lba)) n p :=
  ⟨(dotEntry dot n).entry, (dotEntry dotDot p).entry, dirEntries_newDirInode h hn hp hlba,
    ⟨rfl, rfl⟩, ⟨rfl, rfl⟩, rfl, rfl⟩

theorem dirRep_newDirInode (h : HoldsDots s.disk lba n p) (hn : n < 2 ^ 32) (hp : p < 2 ^ 32)
    (hsize : s.part.sb.dirEntrySize = dirEntryBytes) (hs : Layout s) (hused : lba ∈ usedBlocks s)
    (hlba : lba ≤ maxLba) : DirRep s (newDirInode n lba) := by
  refine dirRep_oneBlock (fun j _ => newDirInode_iSectors n lba j) hsize hused hlba ?_ ?_
  · rw [dirEntries_newDirInode h hn hp (hs.ne_zero hused)]
    rfl
  · intro i hi hdead a ha
    rw [h.slotEntry hn hp i hi] at hdead
    split_ifs at hdead with h0 h1
    exact h.clear hi h0 h1 ha

/-! ## Taking a number and a block -/

/-- The state with inode number `n` taken. -/
def takeInodeNo (s : FsState) (n : Nat) : FsState :=
  s.setPart { s.part with inodeBitmap := bitmapSet s.part.inodeBitmap n true }

/-- The state with block `b` taken too, which holds "." and "..". -/
def dotsState (s : FsState) (n b p : Nat) : FsState :=
  (putBlockBit (takeInodeNo s n) b true).setDisk
    ((putBlockBit (takeInodeNo s n) b true).disk.copy ((s.part.sb.dataStartLba + b) * 512)
      (dotEntries n p) 0 (1 * 512))

/-- From `s` to `s'` inode number `n` and the free block `lba` were taken, and
    the block got the entries of a new directory in `p`. -/
structure StartsDir (s s' : FsState) (n lba p : Nat) : Prop where
  same : s' = { s with
    disk := s'.disk
    part := { s.part with
      blockBitmap := s'.part.blockBitmap
      inodeBitmap := s'.part.inodeBitmap } }
  blockLen : s'.part.blockBitmap.btmpByteLen = s.part.blockBitmap.btmpByteLen
  layout : Layout s'
  inodeBits : ∀ m, bitAt s.part.inodeBitmap.bits m = true ∨ m = n →
    bitAt s'.part.inodeBitmap.bits m = true
  used : ∀ l, l ∈ usedBlocks s' ↔ l ∈ usedBlocks s ∨ l = lba
  fresh : lba ∉ usedBlocks s
  onDisk : lba ≤ maxLba
  free : FreeOnDisk s'
  card : (freeBits s').card + 1 = (freeBits s).card
  blockMap : BlockMapSynced s → BlockMapSynced s'
  outside : ∀ a, ¬ inBlock lba a → ¬ inBlockMap s a → s'.disk a = s.disk a
  dots : HoldsDots s'.disk lba n p

theorem Layout.takeInodeNo (hs : Layout s) (n : Nat) : Layout (takeInodeNo s n) :=
  ⟨⟨hs.table.onDisk, hs.table.inPartition⟩, hs.bootSector, hs.blockLen, hs.inodeLen,
    hs.blockMap_le, hs.inodeMap_lt, hs.table_le, hs.data_le, hs.rootBit⟩

theorem dotsState_starts (hs : Layout s) (hb : FirstClear s.part.blockBitmap b)
    (hfree : FreeOnDisk s) (n p : Nat) :
    StartsDir s (dotsState s n b p) n (s.part.sb.dataStartLba + b) p := by
  have hlayout := hs.takeInodeNo n
  have hlt : b < blockBits (takeInodeNo s n) := hb.lt
  have hfreeNo : FreeOnDisk (takeInodeNo s n) := hfree
  have hblock : ∀ a, inBlock (s.part.sb.dataStartLba + b) a → ¬ inBlockMap s a :=
    fun a ha => hs.not_inBlockMap (Nat.le_add_right _ _) ha
  refine ⟨rfl, rfl, (hlayout.take b s.disk).congr rfl, fun m hm => ?_, fun l => ?_,
    not_mem_usedBlocks hb.clear, hfree b hb.lt hb.clear, ?_, ?_, fun hmap => ?_,
    fun a hout hmap => ?_, fun a ha => ?_⟩
  · change bitAt (bitmapSet s.part.inodeBitmap n true).bits m = true
    rw [bitmapSet_bits, bitAt_setBitAt]
    split_ifs with hmn
    · rfl
    · exact hm.resolve_right hmn
  · have hpart : usedBlocks (dotsState s n b p)
        = usedBlocks (s.setBlocks (setBitAt s.part.blockBitmap.bits b true) s.disk) := rfl
    rw [hpart]
    exact mem_usedBlocks_setBlocks hb.lt s.disk l
  · have htaken : FreeOnDisk (putBlockBit (takeInodeNo s n) b true) := hfreeNo.take
    have hpart : (dotsState s n b p).part = (putBlockBit (takeInodeNo s n) b true).part := rfl
    unfold FreeOnDisk blockBits at htaken ⊢
    rw [hpart]
    exact htaken
  · exact card_freeBits_setBlocks hb.lt hb.clear s.disk
  · have hput : BlockMapSynced (putBlockBit (takeInodeNo s n) b true) :=
      (BlockMapSyncedOn.putBlockBit (show BlockMapSynced (takeInodeNo s n) from hmap) b true).mono
        fun _ _ => .inl trivial
    have hwrites : BlockMapSynced (dotsState s n b p) := by
      apply hput.setDisk ((hlayout.take b s.disk).congr rfl)
      intro a ha
      refine Mem.copy_outside ?_
      have hno : ¬ inBlock (s.part.sb.dataStartLba + b) a := fun hin => hblock a hin ha
      unfold inBlock at hno
      omega
    exact hwrites
  · have hcopy : (dotsState s n b p).disk a = (putBlockBit (takeInodeNo s n) b true).disk a := by
      refine Mem.copy_outside ?_
      unfold inBlock at hout
      omega
    rw [hcopy]
    exact hlayout.putBlockBit_outside hlt true hmap
  · change Mem.copy _ _ _ _ _ _ = _
    rw [Mem.copy_inside (Nat.le_add_right _ _) (by omega)]
    exact congrArg (dotEntries n p) (by omega)

theorem StartsDir.sameBlock (h : StartsDir s s' n lba p) (hs : Layout s) {l : Nat}
    (hl : l ∈ usedBlocks s) : SameBlock s.disk s'.disk l := by
  intro a ha
  have hne : l ≠ lba := fun heq => h.fresh (heq ▸ hl)
  have hin : inBlock l (l * 512 + a) := by
    unfold inBlock
    omega
  refine h.outside _ ?_ (hs.not_inBlockMap (dataStart_le_of_mem hl) hin)
  unfold inBlock
  omega

/-! ## Writing the records -/

/-- From `s` to `s'` the records of the two inodes were written. -/
structure WritesRecords (s s' : FsState) (a₁ a₂ : Inode) : Prop where
  same : s' = s.setDisk s'.disk
  outside : ∀ x, OutsideRecord s a₁.iNo x → OutsideRecord s a₂.iNo x → s'.disk x = s.disk x
  first : ∀ x, x < inodeSpan a₁.iNo → s'.disk (slotAddr s a₁.iNo + x) = a₁.synced.bytes x
  second : ∀ x, x < inodeSpan a₂.iNo → s'.disk (slotAddr s a₂.iNo + x) = a₂.synced.bytes x

theorem slotAddr_setDisk (s : FsState) (d : Mem) (m : Nat) :
    slotAddr (s.setDisk d) m = slotAddr s m := rfl

/-- Two calls of `inode_sync`. -/
theorem inodeSync_two (hs : InodeTableOnDisk s) (h₁ : a₁.iNo < 256) (h₂ : a₂.iNo < 256)
    (hne : a₁.iNo ≠ a₂.iNo) (buf : Mem) :
    ∃ t s', inodeSync s a₁ buf = .ok t ∧ inodeSync t a₂ buf = .ok s'
      ∧ WritesRecords s s' a₁ a₂ := by
  refine ⟨_, _, inodeSync_eq hs a₁ buf, inodeSync_eq (hs.setDisk _) a₂ buf, rfl,
    fun x hout₁ hout₂ => ?_, fun x hx => ?_, fun x hx => ?_⟩
  all_goals
    simp only [FsState.setDisk_disk, slotAddr_setDisk, Nat.mod_eq_of_lt h₁, Nat.mod_eq_of_lt h₂]
  · rw [Mem.copy_outside hout₂, Mem.copy_outside hout₁]
  · have hspan := inodeSpan_le a₁.iNo
    have hout : OutsideRecord s a₂.iNo (slotAddr s a₁.iNo + x) :=
      .of_other hne (Nat.le_add_right _ _) (by omega)
    rw [Mem.copy_outside hout, Mem.copy_inside (Nat.le_add_right _ _) (by omega)]
    exact congrArg a₁.synced.bytes (by omega)
  · rw [Mem.copy_inside (Nat.le_add_right _ _) (by omega)]
    exact congrArg a₂.synced.bytes (by omega)

theorem WritesRecords.data (h : WritesRecords s s' a₁ a₂) (hs : Layout s) (h₁ : a₁.iNo < 4096)
    (h₂ : a₂.iNo < 4096) {x : Nat} (hx : s.part.sb.dataStartLba * 512 ≤ x) :
    s'.disk x = s.disk x :=
  h.outside x (.of_data hs h₁ hx) (.of_data hs h₂ hx)

theorem WritesRecords.sameBlock (h : WritesRecords s s' a₁ a₂) (hs : Layout s)
    (h₁ : a₁.iNo < 4096) (h₂ : a₂.iNo < 4096) {l : Nat} (hl : s.part.sb.dataStartLba ≤ l) :
    SameBlock s.disk s'.disk l := fun _ _ =>
  h.data hs h₁ h₂ ((Nat.mul_le_mul_right 512 hl).trans (Nat.le_add_right _ _))

/-! ## All together -/

/-- Writing the records keeps the partition and its nodes. -/
theorem WritesRecords.part (h : WritesRecords s s' a₁ a₂) : s'.part = s.part := by
  rw [h.same]
  rfl

theorem WritesRecords.sb (h : WritesRecords s s' a₁ a₂) : s'.part.sb = s.part.sb := by
  rw [h.part]

/-- The block bitmap lies in front of the records. -/
theorem Layout.inBlockMap_lt (hs : Layout s) {a : Nat} (ha : inBlockMap s a) :
    a < s.part.sb.inodeTableLba * 512 := by
  have hle := hs.blockMap_le
  have hlt := hs.inodeMap_lt
  unfold inBlockMap at ha
  omega

section Makes

variable (hv : Volume s dirs files parent refs) (hat : MakeAt s dirs files p n old de)
  (h : Inside s t dirs files held q p) (hstart : StartsDir t u n lba p)

include hv hat h hstart

/-- The node of the directory reads the same with the new block taken. -/
theorem StartsDir.dir : DirRep u (u.inodes q)
    ∧ (∀ j, blockRef u.disk (u.inodes q) j = blockRef s.disk old j)
    ∧ dirEntries u.disk (u.inodes q) = dirEntries s.disk old := by
  have hlook := h.sees.looks
  have hrec := h.node hat.dir
  have hdir := (hv.tree.rep p old hat.dir).looks hlook hrec
  have hnode : u.inodes q = t.inodes q := by rw [hstart.same]
  have hsb : u.part.sb = t.part.sb := by rw [hstart.same]
  obtain ⟨hrep, href, hentries⟩ := hdir.same hsb (fun l hl => (hstart.used l).2 (.inl hl))
    fun j hj => hstart.sameBlock (hv.tree.layout.looks hlook) (hdir.sound.mem j hj)
  rw [hnode]
  refine ⟨hrep, fun j => ?_, ?_⟩
  · rw [href, hlook.disk, hrec.blockRef_eq]
  · rw [hentries, hlook.disk, hrec.dirEntries_eq]

/-- The new block is none of the directory's. -/
theorem StartsDir.apart (hadd : AddsEntry u v q de) (j : Nat) :
    blockRef v.disk (v.inodes q) j ≠ lba := by
  obtain ⟨hrep, href, -⟩ := hstart.dir hv hat h
  have hused : lba ∈ usedBlocks u := (hstart.used lba).2 (.inr rfl)
  have hlba := hstart.layout.ne_zero hused
  intro heq
  rcases hadd.fresh j (heq ▸ hlba) with hold | hnew
  · rw [heq, href] at hold
    have hmem := hv.used p old (objects_dir hat.dir) j (hold ▸ hlba)
    rw [← hold] at hmem
    refine hstart.fresh ?_
    have hlook := h.sees.looks
    simpa only [usedBlocks, blockBits, hlook.sb, hlook.blockBitmap] using hmem
  · exact hnew (heq ▸ hused)

/-- The steps of `sys_mkdir` together. -/
theorem Inside.makes (hadd : AddsEntry u v q de)
    (hwrites : WritesRecords v w (v.inodes q) (newDirInode n lba)) (hp : inodeStored p)
    (hn : inodeStored n) :
    Makes s w old (v.inodes q) (newDirInode n lba) de := by
  have hs := hv.tree.layout
  have hlook := h.sees.looks
  have ht := hs.looks hlook
  obtain ⟨hrep, href, hentries⟩ := hstart.dir hv hat h
  have hobject : objects dirs files p = some old := objects_dir hat.dir
  obtain ⟨hno, hplt⟩ := hv.tree.iNo p old hat.dir
  -- what the four states have in common
  have husb : u.part.sb = s.part.sb := by rw [hstart.same, ← hlook.sb]
  obtain ⟨bits, d, ino, hstate⟩ := hadd.state
  have hvsb : v.part.sb = s.part.sb := by
    rw [← husb, hstate]
    rfl
  have hwsb : w.part.sb = s.part.sb := by rw [hwrites.part, hvsb]
  have hused_t : usedBlocks t = usedBlocks s := by
    simp only [usedBlocks, blockBits, hlook.sb, hlook.blockBitmap]
  have hused_w : usedBlocks w = usedBlocks v := usedBlocks_of_part hwrites.part
  have hused : usedBlocks s ⊆ usedBlocks v := fun l hl =>
    hadd.used ((hstart.used l).2 (.inl (hused_t ▸ hl)))
  have hlba : lba ∈ usedBlocks u := (hstart.used lba).2 (.inr rfl)
  have hlba0 := hstart.layout.ne_zero hlba
  have hfresh : lba ∉ usedBlocks s := hused_t ▸ hstart.fresh
  have hlayout : Layout w := hadd.layout.congr hwrites.part
  have hvno : (v.inodes q).iNo = p := by
    rw [hadd.iNo, hstart.same]
    exact h.iNo
  have hvlt : (v.inodes q).iNo < 4096 := hvno ▸ hplt
  have hnlt : (newDirInode n lba).iNo < 4096 := hat.lt
  have hrecords : ∀ l, s.part.sb.dataStartLba ≤ l → SameBlock v.disk w.disk l := fun l hl =>
    hwrites.sameBlock hadd.layout hvlt hnlt (hvsb ▸ hl)
  have hmem : ∀ j, blockRef v.disk (v.inodes q) j ≠ 0 →
      SameBlock v.disk w.disk (blockRef v.disk (v.inodes q) j) := fun j hj =>
    hrecords _ (hvsb ▸ dataStart_le_of_mem (hadd.rep.sound.mem j hj))
  obtain ⟨hwrep, hwref, hwentries⟩ :=
    hadd.rep.same (hwsb.trans hvsb.symm) (hused_w ▸ fun _ => id) hmem
  have hdots : HoldsDots w.disk lba n p := by
    intro a ha
    rw [hrecords lba (husb ▸ dataStart_le_of_mem hlba) a ha,
      hadd.others lba hlba (fun j => ?_) a ha, hstart.dots a ha]
    rw [href]
    exact fun heq => hfresh (heq ▸ hv.used p old hobject j (heq ▸ hlba0))
  have hlba_w : lba ∈ usedBlocks w := hused_w ▸ hadd.used hlba
  have hn32 : n < 2 ^ 32 := Nat.lt_trans hat.lt (by decide)
  have hp32 : p < 2 ^ 32 := Nat.lt_trans hplt (by decide)
  have hnew := blockRef_newDirInode w.disk n lba
  constructor
  case sb => exact hwsb
  case layout => exact hlayout
  case heapJunk =>
    rw [hwrites.same, hstate, hstart.same, hlook.same]
    rfl
  case blockLen =>
    rw [hwrites.part, hstate]
    exact hstart.blockLen.trans (by rw [hlook.blockBitmap])
  case used => exact hused_w ▸ hused
  case blockMap =>
    -- the maps lie in front of the records
    have hmap : BlockMapSynced t := by
      rw [BlockMapSynced, BlockMapSyncedOn, hlook.disk, hlook.sb, hlook.blockBitmap]
      exact hv.blockMap
    have hput := hadd.blockMap (hstart.blockMap hmap)
    rw [hwrites.same]
    refine hput.setDisk hadd.layout fun a ha => hwrites.outside a ?_ ?_ <;>
      exact .inl (Nat.lt_of_lt_of_le (hadd.layout.inBlockMap_lt ha) (Nat.le_add_right _ _))
  case inodeBits =>
    intro m hm
    rw [hwrites.part, hstate]
    refine hstart.inodeBits m ?_
    rw [hlook.inodeBitmap]
    exact hm
  case same =>
    intro l hl hnot a ha
    have hl' : l ∈ usedBlocks u := (hstart.used l).2 (.inl (hused_t ▸ hl))
    -- back through the records, the entry and the start of the new directory
    rw [hrecords l (dataStart_le_of_mem hl) a ha, hadd.others l hl' (fun j => ?_) a ha,
      hstart.sameBlock ht (hused_t ▸ hl) a ha, hlook.disk]
    rw [href]
    exact hnot j
  case records =>
    intro m hm hmp hmn a ha hlt
    have hend := hs.record_le hm
    have hfront : a < s.part.sb.dataStartLba * 512 := Nat.lt_of_lt_of_le hlt hend
    have hmap : ∀ r : FsState, r.part.sb = s.part.sb → ¬ inBlockMap r a := fun r hr hin => by
      rw [inBlockMap, hr] at hin
      have hbehind := hs.inBlockMap_lt hin
      rw [slotAddr] at ha
      omega
    rw [hwrites.outside a (hvno ▸ ?_) ?_, hadd.front a (husb ▸ hfront) (hmap u husb),
      hstart.outside a ?_ (hmap t hlook.sb), hlook.disk]
    · have hstart' := dataStart_le_of_mem hlba
      rw [husb] at hstart'
      unfold inBlock
      omega
    · exact (OutsideRecord.congr hvsb).2 (.of_other (hno ▸ hmp) ha hlt)
    · exact (OutsideRecord.congr hvsb).2 (.of_other hmn ha hlt)
  case iNo => exact hvno.trans hno.symm
  case rep => exact hwrep
  case entries =>
    rw [hwentries]
    exact hadd.entries.trans (by rw [hentries])
  case fresh =>
    intro j hj
    rw [hwref] at hj ⊢
    rcases hadd.fresh j hj with hold | hfree
    · exact .inl (hold.trans (href j))
    · exact .inr fun hl => hfree ((hstart.used _).2 (.inl (hused_t ▸ hl)))
  case stored =>
    rw [hno]
    refine stored_of_bytes hp.2 (hadd.rep.inRange hvlt) fun a ha => ?_
    have hrecord := hwrites.first a (hvno.symm ▸ ha)
    rwa [hvno, ← slotAddr_congr hwrites.sb] at hrecord
  case newNo => exact hat.iNo.symm
  case newFresh =>
    intro j hj
    rw [hnew] at hj ⊢
    split_ifs at hj ⊢
    · refine ⟨hfresh, hlba_w, hstart.onDisk, fun j' => ?_⟩
      rw [hwref]
      exact hstart.apart hv hat h hadd j'
    · exact absurd rfl hj
  case newDir =>
    refine fun _ => ⟨?_, ?_⟩
    · exact dirRep_newDirInode hdots hn32 hp32 (hwrep.entrySize) hlayout hlba_w hstart.onDisk
    · rw [hat.iNo, hno]
      exact dotsOnly_newDirInode hdots hn32 hp32 hlba0
  case newStored =>
    refine stored_of_bytes hn.2 (newDirInode_inRange hat.lt hstart.onDisk) fun a ha => ?_
    have hrecord := hwrites.second a ha
    rwa [← slotAddr_congr hwrites.sb] at hrecord

end Makes

end Fs
end JackOS
