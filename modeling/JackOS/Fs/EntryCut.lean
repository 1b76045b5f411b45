/-
  JackOS.Fs.EntryCut

  What `delete_dir_entry` and then `inode_release` leave of an entry, wherever
  the record of the directory is kept (`Cuts`).  The entry's slot is cleared, or
  the pointer to its block is, or nothing is deleted; an entry for the released
  inode is left in the last case, and in the second if the record on disk keeps
  the pointer (`Cuts.dangles_iff`).
-/

import JackOS.Fs.RemoveCalls

namespace JackOS
namespace Fs

open Base

variable {s s' t t' u : FsState} {dirs files : Nat → Option Inode} {parent refs held : Nat → Nat}
  {d : Mem} {ino ino' old gone cut : Inode} {m n p q k i j x lba : Nat} {e : Entry}

/-! ## What is left -/

/-- A record that directory `m` is read through: that of its node, or else one
    that `inode_open` loads. -/
def RecordOf (s : FsState) (m : Nat) (ino : Inode) : Prop :=
  (∃ q, NodeOf s q m ∧ s.inodes q = ino)
    ∨ findOpen s m = none ∧ ∃ j, loadInode s m (s.heapJunk j) = .ok ino

/-- A live entry of one of the directories `dirs`, `n` itself apart, carries the
    inode number `n`. -/
def Dangles (s : FsState) (dirs : Nat → Option Inode) (n : Nat) : Prop :=
  ∃ m ino e, dirs m ≠ none ∧ m ≠ n ∧ RecordOf s m ino ∧ e ∈ dirEntries s.disk ino ∧ e.iNo = n

/-- From `s` to `s'` no entry of a directory and no bit changed. -/
structure Unchanged (s s' : FsState) (dirs : Nat → Option Inode) : Prop where
  entries : ∀ m ino, dirs m ≠ none → RecordOf s' m ino →
    dirEntries s'.disk ino = treeEntries s.disk dirs m
  disk : s'.disk = s.disk
  inodeBitmap : s'.part.inodeBitmap = s.part.inodeBitmap
  blockBitmap : s'.part.blockBitmap = s.part.blockBitmap

/-- The record of a directory of the tree. -/
theorem DirTree.record (h : DirTree s dirs refs) (hm : dirs m = some ino)
    (hrec : RecordOf s m ino') : SameRecord ino' ino := by
  rcases hrec with ⟨q, hq, rfl⟩ | ⟨hnone, j, hload⟩
  · exact h.node m ino hm q hq.opened hq.iNo
  · exact h.loadsAs m ino hm hnone j ino' hload

/-- Each directory has a record. -/
theorem exists_recordOf (htable : InodeTableOnDisk s) (hm : m < 4096) :
    ∃ ino, RecordOf s m ino := by
  cases hfind : findOpen s m with
  | some q =>
      obtain ⟨hq, hno⟩ := findOpen_some hfind
      exact ⟨_, .inl ⟨q, ⟨hq, hno⟩, rfl⟩⟩
  | none => exact ⟨_, .inr ⟨hfind, 0, loadInode_eq htable hm _⟩⟩

/-- A call that gives everything back leaves all as it was. -/
theorem Volume.unchanged (hv : Volume s dirs files parent refs) (hsees : Sees s t dirs)
    (hcounts : RefCounts t refs) : Unchanged s t dirs := by
  have hlook := hsees.looks
  have htree : DirTree t dirs refs := (hv.looks hsees hcounts).tree
  refine ⟨fun m ino hm hrec => ?_, hlook.disk, hlook.inodeBitmap, hlook.blockBitmap⟩
  obtain ⟨ino', hm⟩ := dirs_some hm
  rw [(htree.record hm hrec).dirEntries_eq, treeEntries_some hm, hlook.disk]

/-! ## The block goes -/

/-- `delete_dir_entry` takes an entry away with its block: the pointer goes, and
    bits of the block bitmap. -/
theorem deleteDirEntry_dropped {r : Bool} (hs : Layout s) (hrep : DirRep s (s.inodes p))
    (hat : FirstCarrier s.disk (s.inodes p) n k i)
    (hnot : ¬ Kept s.disk (blockRef s.disk (s.inodes p) k) i)
    (htable : s.ndebug = true → (s.inodes p).iSectors 12 ≠ s.part.sb.dataStartLba)
    (hcall : deleteDirEntry s p n = .ok (r, s')) :
    ∃ bits d, Layout (s.setBlocks bits d)
      ∧ (∀ a, s.part.sb.inodeTableLba * 512 ≤ a → d a = s.disk a)
      ∧ s' = finishRemove ((s.setBlocks bits d).setInode p
        ((s.inodes p).withSectors (Function.update (s.inodes p).iSectors (min k 12) 0))) p := by
  obtain ⟨all, buf, cnt, first, heq, href, -, hcnt, hiff⟩ := deleteDirEntry_at hrep hat
  have hdrop := hiff.2 hnot
  have hk := href k hat.block
  have hl := hrep.sound.mem k hat.there
  have hsize : s.part.sb.dirEntrySize ≤ (s.inodes p).iSize := by
    rw [hrep.entrySize, hrep.size]
    exact Nat.le_mul_of_pos_right _ hat.entry_mem_dir
  obtain ⟨s₁, hremove, hs₁⟩ := Outcome.bind_eq_ok.1 (heq.symm.trans hcall)
  cases hs₁
  -- the bit lies in the map, or the call would have failed
  have hin : droppedBit s (blockRef s.disk (s.inodes p) k) < blockBits s := by
    by_contra hout
    obtain ⟨err, herr⟩ : ∃ e, removeEntry p all k cnt first buf i s = .error e :=
      removeEntry_badBit hk hcnt hdrop hout
    rw [herr] at hremove
    cases hremove
  obtain ⟨-, -, hlay⟩ := dropBit_eq hs hl hin
  by_cases hk12 : k < 12
  · -- a direct pointer goes with its block
    have hclear : clearEntry p all k cnt first buf i s = .ok _ :=
      clearEntry_direct hs hl hk12 hk hdrop hin
    rw [removeEntry_eq hcnt hclear rfl ⟨hs.table.onDisk, hs.table.inPartition⟩ ?_] at hremove
    · cases hremove
      rw [Nat.min_eq_left (Nat.le_of_lt hk12)]
      exact ⟨_, _, hlay, fun a ha => hs.putBlockBit_behind hin false ha, rfl⟩
    · rw [FsState.setInode_inodes, Function.update_self]
      exact hsize
  · have hk12 : 12 ≤ k := Nat.le_of_not_lt hk12
    by_cases hfull : s.ndebug = true ∧ ∀ j, 12 ≤ j → j < 140 → all j ≠ 0
    · -- without ASSERT a block of a full table takes the table with it
      obtain ⟨t, b, rfl, hlay, hb, hlba, hclear⟩ := clearEntry_table buf i hs hrep hk12 hat.there hk
        hdrop hin hfull.1 hfull.2
      rw [removeEntry_eq hcnt hclear rfl ⟨hs.table.onDisk, hs.table.inPartition⟩ ?_] at hremove
      · cases hremove
        rw [Nat.min_eq_right hk12]
        refine ⟨_, _, hlay.setBlocks ?_ _, fun a ha => ?_, rfl⟩
        · -- the bit of the table is not that of the root
          have hb0 : 0 ≠ b := by
            rintro rfl
            exact htable hfull.1 hlba
          rw [bitAt_setBitAt, if_neg hb0]
          exact hlay.rootBit
        · exact (hlay.putBlockBit_behind hb false ha).trans (hs.putBlockBit_behind hin false ha)
      · rw [FsState.setInode_inodes, Function.update_self]
        exact hsize
    · -- the count stops at an empty entry for good, or ends with a failing ASSERT
      obtain ⟨err, herr⟩ : ∃ e, removeEntry p all k cnt first buf i s = .error e :=
        removeEntry_stuck hs hrep hk12 hat.there hk hcnt hdrop hfull
      rw [herr] at hremove
      cases hremove

/-! ## The record is written back -/

/-- What became of the entry: its slot was filled with zeros, the pointer to its
    block was cleared, or neither. -/
inductive Fate where
  | cleared
  | dropped
  | missed
deriving DecidableEq

/-- From `s` to `s'` the entry in slot `i` of block `k` of directory `p` fared as
    `fate` says.  The directory has the record `cut` now, which was written to
    record `x`; but for these and record `n` nothing changed. -/
structure Cuts (s s' : FsState) (fate : Fate) (p n x k i : Nat) (old cut : Inode) : Prop where
  sb : s'.part.sb = s.part.sb
  layout : Layout s'
  heapJunk : s'.heapJunk = s.heapJunk
  iNo : cut.iNo = p
  inRange : cut.InRange
  pointers : ∀ j, j < 13 →
    cut.iSectors j = if fate = .dropped ∧ j = min k 12 then 0 else old.iSectors j
  node : ∀ r ∈ s.part.openInodes,
    SameRecord (s'.inodes r) (if (s.inodes r).iNo = p then cut else s.inodes r)
  same : ∀ a, s.part.sb.inodeTableLba * 512 ≤ a → OutsideRecord s n a → OutsideRecord s x a →
    OutsideSlot (blockRef s.disk old k) i a → s'.disk a = s.disk a
  record : x ≠ n → ∀ a, a < inodeSpan x → s'.disk (slotAddr s x + a) = cut.synced.bytes a
  slot : ∀ a, a < dirEntryBytes →
    s'.disk (blockRef s.disk old k * 512 + dirEntryBytes * i + a)
      = if fate = .cleared then 0 else s.disk (blockRef s.disk old k * 512 + dirEntryBytes * i + a)

/-- The end of `delete_dir_entry`, whatever became of the entry. -/
theorem Inside.finishes {fate : Fate} {bits d : Mem} (h : Inside s t dirs files held q p)
    (hrep : DirRep t (t.inodes q)) (hpos : dirEntryBytes ≤ (t.inodes q).iSize)
    (hlay : Layout (t.setBlocks bits d))
    (harea : t.part.sb.dataStartLba ≤ blockRef t.disk old k)
    (hno : ino.iNo = p) (hsize : ino.iSize = (t.inodes q).iSize) (hrange : ino.InRange)
    (hpointers : ∀ j, j < 13 →
      ino.iSectors j = if fate = .dropped ∧ j = min k 12 then 0 else old.iSectors j)
    (hsame : ∀ a, t.part.sb.inodeTableLba * 512 ≤ a → OutsideSlot (blockRef t.disk old k) i a →
      d a = t.disk a)
    (hslot : ∀ a, a < dirEntryBytes → d (blockRef t.disk old k * 512 + dirEntryBytes * i + a)
      = if fate = .cleared then 0
        else t.disk (blockRef t.disk old k * 512 + dirEntryBytes * i + a)) :
    Cuts t (finishRemove ((t.setBlocks bits d).setInode q ino) q) fate p n (p % 256) k i old
      ino.shrunk := by
  have hnode : ((t.setBlocks bits d).setInode q ino).inodes q = ino := Function.update_self ..
  have hentry : ((t.setBlocks bits d).setInode q ino).part.sb.dirEntrySize = dirEntryBytes :=
    hrep.entrySize
  have hlt : (((t.setBlocks bits d).setInode q ino).inodes q).iSize < 2 ^ 32 := by
    rw [hnode]
    exact hrange.iSize
  have hle : dirEntryBytes ≤ (((t.setBlocks bits d).setInode q ino).inodes q).iSize := by
    rw [hnode, hsize]
    exact hpos
  have hshrunk := finishRemove_shrunk hentry hlt hle
  have hdisk := finishRemove_record hentry hlt hle
  rw [hnode] at hshrunk hdisk
  rw [hno] at hdisk
  have haddr : slotAddr ((t.setBlocks bits d).setInode q ino) (p % 256) = slotAddr t (p % 256) := rfl
  rw [haddr] at hdisk
  have hdata : ∀ a, t.part.sb.dataStartLba * 512 ≤ a → OutsideRecord t (p % 256) a := fun a ha =>
    OutsideRecord.of_data (s := t.setBlocks bits d) hlay (by omega) ha
  refine ⟨rfl, hlay.congr rfl, rfl, by rw [Inode.shrunk_iNo, hno], hrange.shrunk, fun j hj => ?_,
    fun r hr => ?_, fun a ha _ hout hslot' => ?_, fun _ a ha => ?_, fun a ha => ?_⟩
  · rw [Inode.shrunk_iSectors]
    exact hpointers j hj
  · -- the node of the directory takes the new record, the others keep theirs
    by_cases hrp : (t.inodes r).iNo = p
    · obtain rfl := h.sees.distinct r hr q h.opened (hrp.trans h.iNo.symm)
      rw [if_pos hrp, hshrunk]
      exact .refl _
    · have hrq : r ≠ q := by
        rintro rfl
        exact hrp h.iNo
      rw [if_neg hrp]
      have hother : (finishRemove ((t.setBlocks bits d).setInode q ino) q).inodes r
          = t.inodes r := by
        simp only [finishRemove, FsState.setDisk_inodes, FsState.setInode_inodes]
        rw [Function.update_of_ne hrq, Function.update_of_ne hrq]
        rfl
      rw [hother]
      exact .refl _
  · rw [hdisk, Mem.copy_outside hout]
    exact hsame a ha hslot'
  · rw [hdisk, Mem.copy_inside (Nat.le_add_right _ _) (by omega), Nat.zero_add,
      Nat.add_sub_cancel_left]
  · have hstart : t.part.sb.dataStartLba * 512
        ≤ blockRef t.disk old k * 512 + dirEntryBytes * i + a := by
      rw [Nat.add_assoc]
      exact (Nat.mul_le_mul_right 512 harea).trans (Nat.le_add_right _ _)
    rw [hdisk, Mem.copy_outside (hdata _ hstart)]
    exact hslot a ha

/-- A disk alone is written. -/
theorem FsState.setBlocks_same_node (s : FsState) (p : Nat) (d : Mem) :
    (s.setBlocks s.part.blockBitmap.bits d).setInode p (s.inodes p) = s.setDisk d := by
  change { s.setDisk d with inodes := Function.update s.inodes p (s.inodes p) } = s.setDisk d
  rw [Function.update_eq_self]
  rfl

/-- What `delete_dir_entry` did in a directory other than `n`. -/
theorem Inside.cuts {r : Bool} (hv : Volume s dirs files parent refs)
    (hat : EntryAt s dirs files p n k i old gone) (h : Inside s t dirs files held q p)
    (htable : s.ndebug = true → old.iSectors 12 ≠ s.part.sb.dataStartLba)
    (hcall : deleteDirEntry t q n = .ok (r, u)) :
    ∃ fate cut, Cuts t u fate p n (p % 256) k i old cut
      ∧ (fate = .cleared ∧ Kept s.disk (blockRef s.disk old k) i
        ∨ fate = .dropped ∧ ¬ Kept s.disk (blockRef s.disk old k) i) := by
  have hlook := h.sees.looks
  have hdisk : t.disk = s.disk := hlook.disk
  have hrec := h.node hat.dir
  obtain ⟨hrep, href, hcarrier⟩ := h.carrier hv hat
  have hlay := hv.tree.layout.looks hlook
  obtain ⟨-, hlt⟩ := hv.tree.iNo p old hat.dir
  have hrange : (t.inodes q).InRange := hrep.inRange (by rw [h.iNo]; exact hlt)
  have hpos : dirEntryBytes ≤ (t.inodes q).iSize := by
    rw [hrep.size]
    exact Nat.le_mul_of_pos_right _ hcarrier.entry_mem_dir
  have harea : t.part.sb.dataStartLba ≤ blockRef t.disk old k := by
    have := hrep.area k hcarrier.there
    rwa [href, ← hdisk] at this
  have hblock : blockRef t.disk (t.inodes q) k = blockRef t.disk old k := by rw [href, hdisk]
  -- another entry in front of this one keeps the block
  by_cases hkept : Kept s.disk (blockRef s.disk old k) i
  · obtain ⟨d₁, hkeeps, hclears⟩ := deleteDirEntry_kept hlay hrep hcarrier
      (by rw [href, hdisk]; exact hkept)
    obtain ⟨-, rfl⟩ := Prod.mk.inj (Except.ok.inj (hkeeps.symm.trans hcall))
    rw [hblock] at hclears
    refine ⟨.cleared, (t.inodes q).shrunk, ?_, .inl ⟨rfl, hkept⟩⟩
    rw [← FsState.setBlocks_same_node t q]
    refine h.finishes hrep hpos (hlay.setBlocks hlay.rootBit d₁) harea h.iNo rfl hrange
      (fun j hj => ?_) (fun a _ hslot => hclears.outside a hslot) fun a ha => ?_
    · rw [if_neg fun h => nomatch h.1]
      exact hrec.iSectors j hj
    · rw [if_pos rfl]
      exact hclears.inside a ha
  · obtain ⟨bits, d, hlay', hsame, rfl⟩ := deleteDirEntry_dropped hlay hrep hcarrier
      (by rw [href, hdisk]; exact hkept)
      (by rw [hrec.iSectors 12 (by decide), hlook.same]; exact htable) hcall
    refine ⟨.dropped, _, h.finishes hrep hpos hlay' harea ?_ ?_ ⟨?_, ?_, ?_⟩ ?_
      (fun a ha _ => hsame a ha) ?_, .inr ⟨rfl, hkept⟩⟩
    · exact h.iNo
    · rfl
    · exact hrange.iNo
    · exact hrange.iSize
    · intro j hj
      rw [Inode.withSectors_iSectors]
      by_cases hjk : j = min k 12
      · rw [hjk, Function.update_self]
        decide
      · rw [Function.update_of_ne hjk]
        exact hrange.iSectors j hj
    · intro j hj
      rw [Inode.withSectors_iSectors]
      by_cases hjk : j = min k 12
      · rw [hjk, Function.update_self, if_pos ⟨rfl, rfl⟩]
      · rw [Function.update_of_ne hjk, if_neg fun h => hjk h.2]
        exact hrec.iSectors j hj
    · intro a ha
      have hstart : t.part.sb.dataStartLba * 512
          ≤ blockRef t.disk old k * 512 + dirEntryBytes * i + a := by
        rw [Nat.add_assoc]
        exact (Nat.mul_le_mul_right 512 harea).trans (Nat.le_add_right _ _)
      rw [if_neg (by decide)]
      exact hsame _ (hlay.dataStart_behind hstart)

/-- `delete_dir_entry` found no entry. -/
theorem Inside.misses (hv : Volume s dirs files parent refs)
    (hat : EntryAt s dirs files p n k i old gone) (h : Inside s t dirs files held q m) :
    Cuts t t .missed p n n k i old old := by
  have hno := hv.tree.iNo p old hat.dir
  refine ⟨rfl, hv.tree.layout.looks h.sees.looks, rfl, hno.1,
    (hv.tree.rep p old hat.dir).inRange (hno.1 ▸ hno.2), fun j _ => ?_, fun r hr => ?_,
    fun _ _ _ _ _ => rfl, fun hne => absurd rfl hne, fun a _ => ?_⟩
  · rw [if_neg fun h => nomatch h.1]
  · by_cases hp : (t.inodes r).iNo = p
    · rw [if_pos hp]
      exact h.sees.node p old (objects_dir hat.dir) r hr hp
    · rw [if_neg hp]
      exact .refl _
  · rw [if_neg (by decide)]

/-! ## The inode is released -/

section Cuts

variable {fate : Fate}

/-- Only directories were opened before. -/
theorem Cuts.of_looks (hlook : Looks s t) (hlt : ∀ r ∈ s.part.openInodes, r < s.nextNode)
    (hopen : ∀ r ∈ s.part.openInodes, r ∈ t.part.openInodes)
    (h : Cuts t u fate p n x k i old cut) : Cuts s u fate p n x k i old cut := by
  have hdisk := hlook.disk
  have hsb := hlook.sb
  have haddr := slotAddr_congr (s := s) hsb
  refine ⟨h.sb.trans hsb, h.layout, ?_, h.iNo, h.inRange, h.pointers, fun r hr => ?_,
    fun a ha hn hx hslot => ?_, fun hne a ha => ?_, fun a ha => ?_⟩
  · rw [h.heapJunk, hlook.same]
  · have hrec := hlook.sameRecord (hlt r hr)
    have hnode := h.node r (hopen r hr)
    rw [hrec.iNo] at hnode
    refine hnode.trans ?_
    split
    · exact .refl _
    · exact hrec
  · rw [h.same a (by rwa [hsb]) ((OutsideRecord.congr hsb).2 hn) ((OutsideRecord.congr hsb).2 hx)
      (by rwa [hdisk]), hdisk]
  · rw [← haddr]
    exact h.record hne a ha
  · have hbyte := h.slot a ha
    rwa [hdisk] at hbyte

/-- Afterwards directories were closed. -/
theorem Cuts.looks (hlook : Looks u s') (hlt : ∀ r ∈ s.part.openInodes, r < u.nextNode)
    (h : Cuts s u fate p n x k i old cut) : Cuts s s' fate p n x k i old cut := by
  refine ⟨hlook.sb.trans h.sb, h.layout.looks hlook, ?_, h.iNo, h.inRange, h.pointers,
    fun r hr => (hlook.sameRecord (hlt r hr)).trans (h.node r hr), ?_, ?_, ?_⟩
  · rw [hlook.same]
    exact h.heapJunk
  · rw [hlook.disk]
    exact h.same
  · rw [hlook.disk]
    exact h.record
  · rw [hlook.disk]
    exact h.slot

variable (hv : Volume s dirs files parent refs) (hat : EntryAt s dirs files p n k i old gone)

include hv hat

/-- `inode_release` writes record `n` and the maps. -/
theorem Cuts.forgets (hforgets : Forgets u s' n)
    (hlt : ∀ r ∈ s.part.openInodes, r < u.nextNode) (h : Cuts s u fate p n x k i old cut) :
    Cuts s s' fate p n x k i old cut := by
  obtain ⟨-, hn⟩ := hv.object hat.object
  have haddr := slotAddr_congr (s := s) h.sb
  have hdisk : ∀ a, s.part.sb.inodeTableLba * 512 ≤ a → OutsideRecord s n a →
      s'.disk a = u.disk a := fun a ha hout =>
    hforgets.disk a (by rw [h.sb]; exact ha) ((OutsideRecord.congr h.sb).2 hout)
  refine ⟨hforgets.sb.trans h.sb, hforgets.layout, hforgets.heap.1.trans h.heapJunk, h.iNo,
    h.inRange, h.pointers, fun r hr => (hforgets.node r (hlt r hr)).trans (h.node r hr),
    fun a ha hn hx hslot => ?_, fun hne a ha => ?_, fun a ha => ?_⟩
  · rw [hdisk a ha hn, h.same a ha hn hx hslot]
  · -- record `x` is not the one that `inode_release` clears
    have hspan := inodeSpan_le x
    have htable : s.part.sb.inodeTableLba * 512 ≤ slotAddr s x + a := by
      rw [slotAddr, Nat.add_assoc]
      exact Nat.le_add_right _ _
    rw [hdisk _ htable (.of_other hne (Nat.le_add_right _ _) (by omega)), h.record hne a ha]
  · have hs := hv.tree.layout
    have harea := (hv.tree.rep p old hat.dir).area k hat.carrier.there
    have hstart : s.part.sb.dataStartLba * 512
        ≤ blockRef s.disk old k * 512 + dirEntryBytes * i + a := by
      rw [Nat.add_assoc]
      exact (Nat.mul_le_mul_right 512 harea).trans (Nat.le_add_right _ _)
    rw [hdisk _ (hs.dataStart_behind hstart) (.of_data hs hn hstart), h.slot a ha]

theorem Cuts.keepsData (hx : x < 4096) (h : Cuts s s' fate p n x k i old cut) :
    KeepsData s s' (blockRef s.disk old k) i := fun a ha hslot =>
  have hs := hv.tree.layout
  h.same a (hs.dataStart_behind ha) (.of_data hs (hv.object hat.object).2 ha)
    (.of_data hs hx ha) hslot

/-- What `inode_release` meets after `delete_dir_entry`, where inode `n` is
    held. -/
theorem Cuts.releases {r : Nat} (hx : x < 4096) (hsees : Sees s t (objects dirs files))
    (hcounts : RefCounts t held) (hle : ∀ j, refs j ≤ held j) (hr : NodeOf t r n)
    (hwrites : Writes t u) (h : Cuts t u fate p n x k i old cut) :
    Outcome.Meets (HeapServes s) (inodeRelease u n) fun s' => Forgets u s' n := by
  have hlook := hsees.looks
  obtain ⟨hno, hlt⟩ := hv.object hat.object
  have hopen : ∀ r ∈ s.part.openInodes, r ∈ t.part.openInodes := fun r hr =>
    (hcounts.held r).2 (Nat.lt_of_lt_of_le ((hv.tree.counts.held r).1 hr) (hle r))
  -- seen from before the call, so that the invariant of the volume speaks of it
  have hs := h.of_looks hlook hv.tree.counts.lt hopen
  have hdata := hs.keepsData hv hat hx
  have hopened : u.part.openInodes = t.part.openInodes := by rw [hwrites.same]
  have hnext : u.nextNode = t.nextNode := by rw [hwrites.same]
  have hheap : HeapServes s → HeapServes u := by
    intro hheap
    have := hsees.heapServes hheap
    rw [hwrites.same]
    exact this
  have hlen : u.part.blockBitmap.btmpByteLen = s.part.blockBitmap.btmpByteLen := by
    rw [h.layout.blockLen, hv.tree.layout.blockLen, hs.sb]
  refine Outcome.Meets.weaken (Outcome.Meets.mono (inodeRelease_meets h.layout hlt hno
    (fun j hj => ?_) (fun r' hr' => ?_) fun r' v hcall => ?_) fun s' h => h.1) hheap
  · rw [hdata.blockRef_same hv hat hat.object] at hj ⊢
    exact (hv.area n gone hat.object (hat.ne_root hv) j hj).congr hs.sb hlen
  · rw [hopened] at hr'
    rw [hnext]
    exact hcounts.lt r' hr'
  · -- its node is not that of the directory
    refine inodeOpen_record hcall (fun r' hr' hno' => ?_) fun hnone => ?_
    · rw [hopened] at hr'
      have hnode := h.node r' hr'
      have hiNo : (t.inodes r').iNo = n := (hwrites.iNo r').symm.trans hno'
      rw [if_neg (by rw [hiNo]; exact hat.ne.symm)] at hnode
      exact hnode.trans (hsees.node n gone hat.object r' hr' hiNo)
    · have hiNo : (u.inodes r).iNo = n := (hwrites.iNo r).trans hr.iNo
      exact absurd hiNo (findOpen_none.1 hnone r (by rw [hopened]; exact hr.opened))

/-- The two calls, by what the first did. -/
theorem takesOut_of_cuts {served : Prop} {after : FsState → Prop} (ok : Fate → Prop) (hx : x < 4096)
    (hdelete : ∀ t q held, Inside s t dirs files held q m →
      Outcome.Meets served (deleteDirEntry t q n) fun d =>
        ∃ fate cut, Cuts t d.2 fate p n x k i old cut ∧ ok fate)
    (hafter : ∀ s' fate cut, RefCounts s' refs → Cuts s s' fate p n x k i old cut → ok fate →
      after s') : TakesOut s dirs files refs m n (HeapServes s ∧ served) after := by
  intro t q r held hle hroom h hr
  apply ((hdelete t q held h).with_eq.weaken And.right).bind
  rintro ⟨b, u⟩ ⟨hcall, fate, cut, hcut, hok⟩
  have hwrites := deleteDirEntry_writes hcall
  have hu : RefCounts u held := h.counts.writes hwrites
  apply ((hcut.releases hv hat hx h.sees h.counts hle hr hwrites).with_eq.weaken And.left).mono
  -- the directories that are closed next change neither records nor blocks
  rintro t' ⟨hrelease, hforgets⟩
  refine ⟨(hu.within.inodeRelease hroom hrelease).counts, ?_, fun s' hlook hcounts => ?_⟩
  · rw [hforgets.process.2, hwrites.same]
    rfl
  · have hopen : ∀ r ∈ s.part.openInodes, r ∈ t.part.openInodes := fun r hr =>
      (h.counts.held r).2 (Nat.lt_of_lt_of_le ((hv.tree.counts.held r).1 hr) (hle r))
    have hnext : u.nextNode = t.nextNode := by rw [hwrites.same]
    have hlt : ∀ r ∈ s.part.openInodes, r < u.nextNode := fun r hr => by
      rw [hnext]
      exact h.counts.lt r (hopen r hr)
    refine hafter s' fate cut hcounts ?_ hok
    exact (((hcut.of_looks h.sees.looks hv.tree.counts.lt hopen).forgets hv hat hforgets hlt).looks
      hlook fun r hr => Nat.lt_of_lt_of_le (hlt r hr) hforgets.nextNode)

end Cuts

/-! ## Records afterwards -/

/-- A pointer is read from its four bytes. -/
theorem Inode.ofBytes_iSectors_congr {d d' : Mem} (hj : j < 13)
    (h : ∀ a, a < 4 → d (16 + 4 * j + a) = d' (16 + 4 * j + a)) :
    (Inode.ofBytes d 0).iSectors j = (Inode.ofBytes d' 0).iSectors j := by
  simp only [Inode.ofBytes, if_pos hj, Nat.zero_add]
  exact Mem.le32_congr h

/-- A pointer lies in the first sector of its record, or behind it. -/
theorem inodeSpan_le_of_lt (h : inodeSpan m < 20 + 4 * j) : inodeSpan m ≤ 16 + 4 * j := by
  simp only [inodeSpan, inodeSize] at *
  omega

/-- Block `k` is reached through the pointer at `min k 12`. -/
theorem blockRef_congr_pointer {a b : Inode}
    (h : a.iSectors (min k 12) = b.iSectors (min k 12)) : blockRef d a k = blockRef d b k := by
  by_cases hk12 : k < 12
  · rw [Nat.min_eq_left (Nat.le_of_lt hk12)] at h
    rw [blockRef_direct hk12, blockRef_direct hk12, h]
  · have hk12 : 12 ≤ k := Nat.le_of_not_lt hk12
    rw [Nat.min_eq_right hk12] at h
    exact blockRef_congr_entry (fun hlt => absurd hlt (by omega)) h fun _ _ _ => rfl

theorem blockRef_zero_pointer (h : ino.iSectors (min k 12) = 0) : blockRef d ino k = 0 := by
  by_cases hk12 : k < 12
  · rw [Nat.min_eq_left (Nat.le_of_lt hk12)] at h
    rw [blockRef_direct hk12, h]
  · have hk12 : 12 ≤ k := Nat.le_of_not_lt hk12
    rw [Nat.min_eq_right hk12] at h
    exact blockRef_noTable hk12 h

section Cuts

variable {fate : Fate} (hv : Volume s dirs files parent refs)
  (hat : EntryAt s dirs files p n k i old gone) (h : Cuts s s' fate p n x k i old cut)

include hv hat h

/-- The other records are those of before. -/
theorem Cuts.slotView_eq (hm : m < 4096) (hmn : m ≠ n) (hmx : m ≠ x) (junk : Mem) :
    slotView s' m junk = slotView s m junk := by
  refine slotView_congr h.sb (fun a ha hlt => ?_) junk
  have hend := hv.tree.layout.record_le hm
  have harea := (hv.tree.rep p old hat.dir).area k hat.carrier.there
  have hdata := Nat.mul_le_mul_right 512 harea
  refine h.same a ((Nat.le_add_right _ _).trans ha) (.of_other hmn ha hlt) (.of_other hmx ha hlt)
    (.inl ?_)
  exact Nat.lt_of_lt_of_le (Nat.lt_of_lt_of_le hlt hend) (hdata.trans (Nat.le_add_right _ _))

/-- What `inode_open` loads for a directory that is closed: its pointers of
    before, but in record `x` those of `cut` as far as the first sector goes. -/
theorem Cuts.loads (hm : dirs m = some ino) (hmn : m ≠ n) (hclosed : findOpen s m = none)
    {c : Nat} (hload : loadInode s' m (s'.heapJunk c) = .ok ino') (hj : j < 13) :
    m = x ∧ 20 + 4 * j ≤ inodeSpan x ∧ ino'.iSectors j = cut.iSectors j
      ∨ (m = x → inodeSpan x < 20 + 4 * j) ∧ ino'.iSectors j = ino.iSectors j := by
  obtain ⟨-, hlt⟩ := hv.tree.iNo m ino hm
  have hbefore := hv.tree.loadsAs m ino hm hclosed c _
    (loadInode_eq hv.tree.layout.table hlt (s.heapJunk c))
  rw [h.heapJunk, loadInode_eq h.layout.table hlt] at hload
  obtain rfl := Except.ok.inj hload
  -- record `x` holds `cut` as far as the first sector goes, the rest is of before
  by_cases hmx : m = x
  · subst hmx
    by_cases hspan : 20 + 4 * j ≤ inodeSpan m
    · refine .inl ⟨rfl, hspan, ?_⟩
      have hcut := (Inode.ofBytes_bytes (Inode.synced_inRange h.inRange)).iSectors j hj
      refine (Inode.ofBytes_iSectors_congr hj fun a ha => ?_).trans hcut
      rw [slotView, if_pos (by omega), slotAddr_congr h.sb]
      exact h.record hmn _ (by omega)
    · have hspan : inodeSpan m < 20 + 4 * j := Nat.lt_of_not_le hspan
      have hbehind := inodeSpan_le_of_lt hspan
      refine .inr ⟨fun _ => hspan, (Inode.ofBytes_iSectors_congr hj fun a ha => ?_).trans
        (hbefore.iSectors j hj)⟩
      rw [slotView, slotView, if_neg (by omega), if_neg (by omega)]
  · refine .inr ⟨fun heq => absurd heq hmx, ?_⟩
    rw [h.slotView_eq hv hat hlt hmn hmx]
    exact hbefore.iSectors j hj

/-- Through which pointers a directory is read. -/
theorem Cuts.pointer (hcounts : RefCounts s' refs) (hm : dirs m = some ino) (hmn : m ≠ n)
    (hrec : RecordOf s' m ino') (hj : j < 13) :
    ino'.iSectors j = cut.iSectors j
      ∨ (m = p → findOpen s p = none ∧ (p = x → inodeSpan x < 20 + 4 * j))
        ∧ ino'.iSectors j = ino.iSectors j := by
  have hnodes : RenewsNode s s' p cut := ⟨hv.tree.counts.open_iff hcounts, h.node, h.iNo⟩
  rcases hrec with ⟨q, hq, rfl⟩ | ⟨hnone, c, hload⟩
  · have hopen := (hnodes.openInodes q).1 hq.opened
    have hno : (s.inodes q).iNo = m := by rw [← hnodes.iNo hopen, hq.iNo]
    by_cases hmp : m = p
    · exact .inl ((hnodes.self hopen (hno.trans hmp)).iSectors j hj)
    · refine .inr ⟨fun heq => absurd heq hmp, ?_⟩
      rw [(hnodes.other hopen (hno ▸ hmp)).iSectors j hj]
      exact (hv.tree.node m ino hm q hopen hno).iSectors j hj
  · have hclosed := hnodes.closed hnone
    rcases h.loads hv hat hm hmn hclosed hload hj with ⟨-, -, heq⟩ | ⟨hx, heq⟩
    · exact .inl heq
    · refine .inr ⟨?_, heq⟩
      rintro rfl
      exact ⟨hclosed, hx⟩

/-! ## Entries afterwards -/

/-- An entry for `n` in the block of a directory other than `n` is the one that
    was looked for. -/
theorem Cuts.carrier (hx : x < 4096) (hm : dirs m = some ino) (hmn : m ≠ n) {k' i' : Nat}
    (hk : k' < 140) (hthere : blockRef s.disk ino k' ≠ 0) (hi : i' < slotsPerBlock)
    (hslot : slotEntry s'.disk (blockRef s.disk ino k') i' = some e) (hno : e.iNo = n) :
    m = p ∧ k' = k ∧ fate ≠ .cleared := by
  have hrep := hv.tree.rep p old hat.dir
  have hcarrier := hat.carrier
  -- the slot itself, or one whose bytes were not written
  by_cases hself : m = p ∧ k' = k ∧ i' = i
  · obtain ⟨rfl, rfl, rfl⟩ := hself
    obtain rfl := Option.some.inj (hm.symm.trans hat.dir)
    refine ⟨rfl, rfl, ?_⟩
    rintro rfl
    have hzero : slotEntry s'.disk (blockRef s.disk ino k') i' = none :=
      slotEntry_zero fun a ha => by rw [h.slot a ha, if_pos rfl]
    rw [hzero] at hslot
    cases hslot
  · exfalso
    have hsame : slotEntry s'.disk (blockRef s.disk ino k') i'
        = slotEntry s.disk (blockRef s.disk ino k') i' := by
      refine slotEntry_congr fun a ha => h.keepsData hv hat hx _ ?_ ?_
      · have harea := hv.block_area (objects_dir hm) hthere
        rw [Nat.add_assoc]
        exact (Nat.mul_le_mul_right 512 harea).trans (Nat.le_add_right _ _)
      · -- another slot of the block, or another block
        have hblock : blockRef s.disk ino k' = blockRef s.disk old k → i' ≠ i := by
          rintro heq rfl
          obtain rfl := hv.apart m p ino old (objects_dir hm) (objects_dir hat.dir) k' k hthere heq
          obtain rfl := Option.some.inj (hm.symm.trans hat.dir)
          exact hself ⟨rfl, hrep.sound.inj k' k hthere heq, rfl⟩
        have hi₀ := hcarrier.slot
        simp only [OutsideSlot, dirEntryBytes, slotsPerBlock] at *
        by_cases heq : blockRef s.disk ino k' = blockRef s.disk old k
        · have hne := hblock heq
          omega
        · omega
    rw [hsame] at hslot
    have hmem : e ∈ treeEntries s.disk dirs m := by
      rw [treeEntries_some hm]
      exact mem_of_slot hk hthere hi hslot
    -- a directory without entries of its own is named by its parent only
    obtain ⟨e₀, he₀, hplain₀, hno₀⟩ := hat.mem
    obtain ⟨hparent, hplain⟩ := (hv.names.leads hat.empty hmem hno).resolve_left hmn
    have hp : parent n = p := hno₀ ▸ hv.names.home p e₀ he₀ hplain₀
    rw [hp] at hparent
    subst hparent
    obtain rfl := Option.some.inj (hm.symm.trans hat.dir)
    exact hself ⟨rfl, hcarrier.only k' i' hk hthere hi ⟨e, hslot, hplain, hno⟩⟩

/-- The entry is left where a record of the directory still points to its
    block. -/
theorem Cuts.dangles (hx : x < 4096) (hne : fate ≠ .cleared) (hrec : RecordOf s' p ino')
    (hpointer : ino'.iSectors (min k 12) = old.iSectors (min k 12)) : Dangles s' dirs n := by
  have hcarrier := hat.carrier
  obtain ⟨e, hslot, -, hno⟩ := hcarrier.here
  have href : blockRef s'.disk ino' k = blockRef s.disk old k :=
    (blockRef_congr_pointer hpointer).trans
      ((h.keepsData hv hat hx).blockRef_same hv hat (objects_dir hat.dir) k)
  have hslot' : slotEntry s'.disk (blockRef s'.disk ino' k) i = some e := by
    rw [href, ← hslot]
    exact slotEntry_congr fun a ha => by rw [h.slot a ha, if_neg hne]
  refine ⟨p, ino', e, ?_, hat.ne, hrec, ?_, hno⟩
  · rw [hat.dir]
    exact Option.some_ne_none _
  · exact mem_of_slot hcarrier.block (by rw [href]; exact hcarrier.there) hcarrier.slot hslot'

/-- An entry for `n` is left if and only if none was deleted, or if its block was
    dropped, the directory is closed and the pointer to the block was not written
    where `inode_open` reads it. -/
theorem Cuts.dangles_iff (hx : x < 4096) (hcounts : RefCounts s' refs) : Dangles s' dirs n ↔
    fate = .missed ∨ fate = .dropped ∧ findOpen s p = none
      ∧ (p = x → inodeSpan x < 20 + 4 * min k 12) := by
  have hdata := h.keepsData hv hat hx
  have hmin : ∀ c, min c 12 < 13 := fun c => Nat.lt_succ_of_le (Nat.min_le_right c 12)
  obtain ⟨-, hlt⟩ := hv.tree.iNo p old hat.dir
  constructor
  · rintro ⟨m, ino', e, hm, hmn, hrec, he, hno⟩
    obtain ⟨ino, hm⟩ := dirs_some hm
    obtain ⟨k', i', hk, hthere, hi, hslot⟩ := slot_of_mem he
    rcases h.pointer hv hat hcounts hm hmn hrec (hmin k') with heq | ⟨hp, heq⟩
    · -- the block is one of those `cut` has
      rw [h.pointers _ (hmin k')] at heq
      by_cases hdrop : fate = .dropped ∧ min k' 12 = min k 12
      · rw [if_pos hdrop] at heq
        rw [blockRef_zero_pointer heq] at hthere
        exact absurd rfl hthere
      · rw [if_neg hdrop] at heq
        have href : blockRef s'.disk ino' k' = blockRef s.disk old k' :=
          (blockRef_congr_pointer heq).trans
            (hdata.blockRef_same hv hat (objects_dir hat.dir) k')
        rw [href] at hthere hslot
        obtain ⟨-, rfl, hne⟩ := h.carrier hv hat hx hat.dir hat.ne hk hthere hi hslot hno
        cases fate with
        | cleared => exact absurd rfl hne
        | dropped => exact absurd ⟨rfl, rfl⟩ hdrop
        | missed => exact .inl rfl
    · -- the block is one of before
      have href : blockRef s'.disk ino' k' = blockRef s.disk ino k' :=
        (blockRef_congr_pointer heq).trans (hdata.blockRef_same hv hat (objects_dir hm) k')
      rw [href] at hthere hslot
      obtain ⟨rfl, rfl, hne⟩ := h.carrier hv hat hx hm hmn hk hthere hi hslot hno
      cases fate with
      | cleared => exact absurd rfl hne
      | dropped => exact .inr ⟨rfl, hp rfl⟩
      | missed => exact .inl rfl
  · rintro (rfl | ⟨rfl, hclosed, hspan⟩)
    · -- nothing was deleted: any record of the directory still leads to the entry
      obtain ⟨ino', hrec⟩ := exists_recordOf h.layout.table hlt
      refine h.dangles hv hat hx (by decide) hrec ?_
      rcases h.pointer hv hat hcounts hat.dir hat.ne hrec (hmin k) with heq | ⟨-, heq⟩
      · rw [heq, h.pointers _ (hmin k), if_neg fun h => nomatch h.1]
      · exact heq
    · -- the record on disk keeps the pointer, and the directory is read from there
      have hnodes : RenewsNode s s' p cut :=
        ⟨hv.tree.counts.open_iff hcounts, h.node, h.iNo⟩
      have hclosed' : findOpen s' p = none := by
        rw [findOpen_none] at hclosed ⊢
        intro q hq
        have hq := (hnodes.openInodes q).1 hq
        rw [hnodes.iNo hq]
        exact hclosed q hq
      have hload := loadInode_eq h.layout.table hlt (s'.heapJunk 0)
      refine h.dangles hv hat hx (by decide) (.inr ⟨hclosed', 0, hload⟩) ?_
      rcases h.loads hv hat hat.dir hat.ne hclosed hload (hmin k) with ⟨heq, hle, -⟩ | ⟨-, heq⟩
      · have := hspan heq
        omega
      · exact heq

end Cuts

end Fs
end JackOS
