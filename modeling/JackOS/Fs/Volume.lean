/-
  JackOS.Fs.Volume

  A whole partition: the tree of directories with the files in it, where no
  block belongs to two of them (`Volume`).  Removing a file or an empty
  directory keeps it, as far as the block with the entry stays and the record of
  the directory can be read back (`Volume.removes`).
-/

import JackOS.Fs.NameTree
import JackOS.Fs.Removal

namespace JackOS
namespace Fs

open Base

/-! ## Partitions -/

/-- The inode of file or directory `m`. -/
def objects (dirs files : Nat → Option Inode) (m : Nat) : Option Inode := (dirs m).or (files m)

/-- The tree `dirs` and its `files`, where `parent` is the directory that an
    entry stands in. -/
structure Volume (s : FsState) (dirs files : Nat → Option Inode) (parent refs : Nat → Nat) :
    Prop where
  tree : DirTree s dirs refs
  names : NameTree (treeEntries s.disk dirs) (fun m => dirs m ≠ none) parent
  -- the files
  file : ∀ m, ∀ e ∈ treeEntries s.disk dirs m, dirs e.iNo = none → files e.iNo ≠ none
  fileNo : ∀ m ino, files m = some ino → ino.iNo = m ∧ m < 4096 ∧ dirs m = none
  fileNode : ∀ m ino, files m = some ino → ∀ q ∈ s.part.openInodes, (s.inodes q).iNo = m →
    SameRecord (s.inodes q) ino
  fileLoads : ∀ m ino, files m = some ino → findOpen s m = none → LoadsAs s m ino
  -- the blocks
  area : ∀ m ino, objects dirs files m = some ino → m ≠ 0 → ∀ j, blockRef s.disk ino j ≠ 0 →
    InDataArea s (blockRef s.disk ino j)
  apart : ∀ m m' ino ino', objects dirs files m = some ino → objects dirs files m' = some ino' →
    ∀ j j', blockRef s.disk ino j ≠ 0 → blockRef s.disk ino j = blockRef s.disk ino' j' → m = m'
  blockMap : BlockMapSynced s
  -- what is taken
  inodeBit : ∀ m, objects dirs files m ≠ none → bitAt s.part.inodeBitmap.bits m = true
  used : ∀ m ino, objects dirs files m = some ino → ∀ j, blockRef s.disk ino j ≠ 0 →
    blockRef s.disk ino j ∈ usedBlocks s
  free : FreeOnDisk s

variable {s s' t : FsState} {dirs files : Nat → Option Inode} {parent refs held : Nat → Nat}
  {d : Mem} {ino old gone : Inode} {e : Entry} {m n p k i : Nat}

theorem objects_dir (h : dirs m = some ino) : objects dirs files m = some ino := by
  rw [objects, h]
  rfl

theorem objects_file (hnone : dirs m = none) (h : files m = some ino) :
    objects dirs files m = some ino := by
  rw [objects, hnone, h]
  rfl

theorem objects_cases (h : objects dirs files m = some ino) :
    dirs m = some ino ∨ dirs m = none ∧ files m = some ino := by
  cases hm : dirs m with
  | none =>
      rw [objects, hm] at h
      exact .inr ⟨rfl, h⟩
  | some ino' =>
      rw [objects_dir hm] at h
      exact .inl h

/-- No number is a file's and a directory's. -/
theorem Volume.dirs_none (h : Volume s dirs files parent refs) (hm : files m ≠ none) :
    dirs m = none := by
  obtain ⟨ino, hino⟩ := Option.ne_none_iff_exists'.1 hm
  exact (h.fileNo m ino hino).2.2

/-- The open nodes are those of before, but that of directory `p` has the record
    `ino`. -/
structure RenewsNode (s s' : FsState) (p : Nat) (ino : Inode) : Prop where
  openInodes : ∀ q, q ∈ s'.part.openInodes ↔ q ∈ s.part.openInodes
  node : ∀ q ∈ s.part.openInodes,
    SameRecord (s'.inodes q) (if (s.inodes q).iNo = p then ino else s.inodes q)
  no : ino.iNo = p

/-- Nodes have the numbers they had. -/
theorem RenewsNode.iNo (h : RenewsNode s s' p ino) {q : Nat} (hq : q ∈ s.part.openInodes) :
    (s'.inodes q).iNo = (s.inodes q).iNo := by
  rw [(h.node q hq).iNo]
  split
  · rw [h.no]
    exact Eq.symm ‹_›
  · rfl

theorem RenewsNode.self (h : RenewsNode s s' p ino) {q : Nat} (hq : q ∈ s.part.openInodes)
    (hno : (s.inodes q).iNo = p) : SameRecord (s'.inodes q) ino := by
  have hnode := h.node q hq
  rwa [if_pos hno] at hnode

theorem RenewsNode.other (h : RenewsNode s s' p ino) {q : Nat} (hq : q ∈ s.part.openInodes)
    (hno : (s.inodes q).iNo ≠ p) : SameRecord (s'.inodes q) (s.inodes q) := by
  have hnode := h.node q hq
  rwa [if_neg hno] at hnode

/-- What no node is open for had none before. -/
theorem RenewsNode.closed (h : RenewsNode s s' p ino) (hm : findOpen s' m = none) :
    findOpen s m = none := by
  rw [findOpen_none] at hm ⊢
  intro q hq
  rw [← h.iNo hq]
  exact hm q ((h.openInodes q).2 hq)

/-- No number has two nodes. -/
theorem RenewsNode.distinct (h : RenewsNode s s' p ino) (htree : DirTree s dirs refs) {q r : Nat}
    (hq : q ∈ s'.part.openInodes) (hr : r ∈ s'.part.openInodes)
    (heq : (s'.inodes q).iNo = (s'.inodes r).iNo) : q = r := by
  rw [h.openInodes] at hq hr
  rw [h.iNo hq, h.iNo hr] at heq
  exact htree.distinct q hq r hr heq

/-- The record of a file stays in its node. -/
theorem RenewsNode.file (h : RenewsNode s s' p ino) (hv : Volume s dirs files parent refs)
    (hdir : dirs p ≠ none) {file : Inode} (hm : files m = some file) {q : Nat}
    (hq : q ∈ s.part.openInodes) (hno : (s.inodes q).iNo = m) :
    SameRecord (s'.inodes q) file := by
  refine (h.other hq fun hp => ?_).trans (hv.fileNode m file hm q hq hno)
  exact hdir (by rw [← hp, hno]; exact (hv.fileNo m file hm).2.2)

theorem mem_treeEntries (h : e ∈ treeEntries d dirs m) :
    ∃ ino, dirs m = some ino ∧ e ∈ dirEntries d ino := by
  cases hm : dirs m with
  | none =>
      rw [treeEntries, hm] at h
      cases h
  | some ino =>
      rw [treeEntries_some hm] at h
      exact ⟨ino, rfl, h⟩

theorem treeEntries_none (h : dirs m = none) : treeEntries d dirs m = [] := by
  rw [treeEntries, h]
  rfl

theorem Volume.object (h : Volume s dirs files parent refs)
    (hm : objects dirs files m = some ino) : ino.iNo = m ∧ m < 4096 := by
  rcases objects_cases hm with hdir | ⟨-, hfile⟩
  · exact h.tree.iNo m ino hdir
  · exact ⟨(h.fileNo m ino hfile).1, (h.fileNo m ino hfile).2.1⟩

theorem Volume.entry_object (h : Volume s dirs files parent refs)
    (he : e ∈ treeEntries s.disk dirs m) : objects dirs files e.iNo ≠ none := by
  cases hdir : dirs e.iNo with
  | some ino =>
      rw [objects_dir hdir]
      exact Option.some_ne_none _
  | none =>
      obtain ⟨ino, hino⟩ := dirs_some (h.file m e he hdir)
      rw [objects_file hdir hino]
      exact Option.some_ne_none _

/-! ## Opening and closing -/

/-- Nodes that were opened on the way are of directories. -/
theorem Volume.sees (h : Volume s dirs files parent refs) (hsees : Sees s t dirs)
    (hopen : ∀ q ∈ t.part.openInodes, q ∈ s.part.openInodes ∨ dirs (t.inodes q).iNo ≠ none) :
    Sees s t (objects dirs files) := by
  refine ⟨hsees.looks, hsees.mallocCnt, hsees.distinct, fun m ino hm q hq hno => ?_⟩
  rcases objects_cases hm with hdir | ⟨hnone, hfile⟩
  · exact hsees.node m ino hdir q hq hno
  · rcases hopen q hq with hq' | hdir
    · have hlt := h.tree.counts.lt q hq'
      have hrec := hsees.looks.sameRecord hlt
      rw [hrec.iNo] at hno
      exact hrec.trans (h.fileNode m ino hfile q hq' hno)
    · rw [hno] at hdir
      exact absurd hnone hdir

theorem Sees.of_objects (h : Sees s t (objects dirs files)) : Sees s t dirs :=
  ⟨h.looks, h.mallocCnt, h.distinct, fun m ino hm => h.node m ino (objects_dir hm)⟩

/-- The same nodes are open. -/
theorem RefCounts.open_iff (h : RefCounts s refs) (h' : RefCounts t refs) (q : Nat) :
    q ∈ t.part.openInodes ↔ q ∈ s.part.openInodes := by
  rw [h'.held, h.held]

/-- A call that gives everything back leaves the partition as it was. -/
theorem Volume.looks (h : Volume s dirs files parent refs) (hsees : Sees s t dirs)
    (hcounts : RefCounts t refs) : Volume t dirs files parent refs := by
  have hlook := hsees.looks
  have hopen := h.tree.counts.open_iff hcounts
  have hobjects := (h.sees hsees fun q hq => .inl ((hopen q).1 hq)).node
  have hclosed : ∀ m, findOpen t m = none → findOpen s m = none := fun m hm =>
    hsees.closed h.tree hcounts (fun _ => Nat.le_refl _) hm
  have hloads : ∀ m ino, LoadsAs s m ino → LoadsAs t m ino := by
    intro m ino hload k ino' hrun
    rw [hlook.same] at hrun
    exact hload k ino' hrun
  have hused : usedBlocks t = usedBlocks s := by
    simp only [usedBlocks, blockBits, hlook.sb, hlook.blockBitmap]
  have hroot : t.rootInode = s.rootInode := by rw [hlook.same]
  constructor
  case tree =>
    constructor
    case layout => exact h.tree.layout.looks hlook
    case root => exact h.tree.root
    case rep => exact fun m ino hm => (h.tree.rep m ino hm).looks hlook (.refl ino)
    case iNo => exact h.tree.iNo
    case entry =>
      rw [hlook.disk]
      exact h.tree.entry
    case rootDots =>
      rw [hlook.disk]
      exact h.tree.rootDots
    case counts => exact hcounts
    case room => exact h.tree.room
    case distinct => exact hsees.distinct
    case node => exact hsees.node
    case rootNode =>
      rw [hroot, hopen]
      refine ⟨h.tree.rootNode.1, ?_⟩
      rw [(hlook.sameRecord (h.tree.counts.lt _ h.tree.rootNode.1)).iNo]
      exact h.tree.rootNode.2
    case loadsAs =>
      exact fun m ino hm hnone => hloads m ino (h.tree.loadsAs m ino hm (hclosed m hnone))
  case names =>
    rw [hlook.disk]
    exact h.names
  case file =>
    rw [hlook.disk]
    exact h.file
  case fileNo => exact h.fileNo
  case fileNode => exact fun m ino hm => hobjects m ino (objects_file (h.fileNo m ino hm).2.2 hm)
  case fileLoads =>
    exact fun m ino hm hnone => hloads m ino (h.fileLoads m ino hm (hclosed m hnone))
  case area =>
    rw [hlook.disk]
    exact fun m ino hm hm0 j hj => (h.area m ino hm hm0 j hj).congr hlook.sb
      (by rw [hlook.blockBitmap])
  case apart =>
    rw [hlook.disk]
    exact h.apart
  case blockMap =>
    rw [hlook.same]
    exact h.blockMap
  case inodeBit =>
    rw [hlook.inodeBitmap]
    exact h.inodeBit
  case used =>
    rw [hlook.disk, hused]
    exact h.used
  case free =>
    rw [hlook.same]
    exact h.free

/-! ## The blocks afterwards -/

/-- The directories once `p` has one entry less and `n` is gone. -/
def dirsWithout (dirs : Nat → Option Inode) (p n : Nat) (old : Inode) : Nat → Option Inode :=
  Function.update (Function.update dirs p (some old.shrunk)) n none

theorem dirsWithout_some (hpn : p ≠ n) (h : dirsWithout dirs p n old m = some ino) :
    m = p ∧ ino = old.shrunk ∨ m ≠ p ∧ m ≠ n ∧ dirs m = some ino := by
  unfold dirsWithout at h
  have hmn : m ≠ n := by
    rintro rfl
    rw [Function.update_self] at h
    cases h
  rw [Function.update_of_ne hmn] at h
  by_cases hmp : m = p
  · subst hmp
    rw [Function.update_self] at h
    exact .inl ⟨rfl, (Option.some.inj h).symm⟩
  · rw [Function.update_of_ne hmp] at h
    exact .inr ⟨hmp, hmn, h⟩

theorem dirsWithout_ne_none (hp : dirs p ≠ none) (m : Nat) :
    dirsWithout dirs p n old m ≠ none ↔ dirs m ≠ none ∧ m ≠ n := by
  unfold dirsWithout
  by_cases hmn : m = n
  · rw [hmn, Function.update_self]
    exact iff_of_false (fun h => h rfl) fun h => h.2 rfl
  · rw [Function.update_of_ne hmn]
    by_cases hmp : m = p
    · rw [hmp, Function.update_self]
      exact iff_of_true (Option.some_ne_none _) ⟨hp, hmp ▸ hmn⟩
    · rw [Function.update_of_ne hmp]
      exact (and_iff_left hmn).symm

theorem filesWithout_some (h : Function.update files n none m = some ino) :
    m ≠ n ∧ files m = some ino := by
  have hmn : m ≠ n := by
    rintro rfl
    rw [Function.update_self] at h
    cases h
  rw [Function.update_of_ne hmn] at h
  exact ⟨hmn, h⟩

/-- Entry `i` of block `k` of directory `p` is the one for `n`, which has no
    entries of its own. -/
structure EntryAt (s : FsState) (dirs files : Nat → Option Inode) (p n k i : Nat)
    (old gone : Inode) : Prop where
  dir : dirs p = some old
  object : objects dirs files n = some gone
  empty : EmptyDir (treeEntries s.disk dirs) n
  carrier : OnlyCarrier s.disk old n k i

/-- Entries in two slots are two entries. -/
theorem eq_slot_of_nodup (hnodup : (dirEntries d ino).Nodup) {j j' i i' : Nat} (hj : j < 140)
    (hj' : j' < 140) (hi : i < slotsPerBlock) (hi' : i' < slotsPerBlock)
    (hthere : blockRef d ino j ≠ 0) (hthere' : blockRef d ino j' ≠ 0)
    (he : slotEntry d (blockRef d ino j) i = some e)
    (he' : slotEntry d (blockRef d ino j') i' = some e) : j = j' ∧ i = i' := by
  have hmem : ∀ {j i}, i < slotsPerBlock → blockRef d ino j ≠ 0 →
      slotEntry d (blockRef d ino j) i = some e → e ∈ blockEntries d (blockRef d ino j) := by
    intro j i hi hthere he
    rw [blockEntries, if_neg hthere]
    exact List.mem_filterMap.2 ⟨i, List.mem_range.2 hi, he⟩
  obtain ⟨hblocks, hpairs⟩ := List.nodup_flatMap.1 hnodup
  have hjj : j = j' := by
    by_contra hne
    have hdisjoint := (List.pairwise_iff_getElem.1 hpairs)
    rcases Nat.lt_or_gt_of_ne hne with hlt | hlt
    · have := hdisjoint j j' (by simpa using hj) (by simpa using hj') hlt
      simp only [List.getElem_range] at this
      exact this (hmem hi hthere he) (hmem hi' hthere' he')
    · have := hdisjoint j' j (by simpa using hj') (by simpa using hj) hlt
      simp only [List.getElem_range] at this
      exact this (hmem hi' hthere' he') (hmem hi hthere he)
  subst hjj
  refine ⟨rfl, ?_⟩
  have hblock := hblocks j (List.mem_range.2 hj)
  rw [blockEntries, if_neg hthere, List.Nodup, List.pairwise_filterMap] at hblock
  have hdistinct := List.pairwise_iff_getElem.1 hblock
  by_contra hne
  rcases Nat.lt_or_gt_of_ne hne with hlt | hlt
  · have := hdistinct i i' (by simpa using hi) (by simpa using hi') hlt
    simp only [List.getElem_range] at this
    exact this e he e he' rfl
  · have := hdistinct i' i (by simpa using hi') (by simpa using hi) hlt
    simp only [List.getElem_range] at this
    exact this e he' e he rfl

/-- The live slot of an entry. -/
theorem slot_of_mem (h : e ∈ dirEntries d ino) : ∃ k i, k < 140 ∧ blockRef d ino k ≠ 0
    ∧ i < slotsPerBlock ∧ slotEntry d (blockRef d ino k) i = some e := by
  obtain ⟨k, i, hk, hthere, hi, rfl, hlive⟩ := mem_dirEntries.1 h
  exact ⟨k, i, hk, hthere, hi, if_neg hlive⟩

theorem mem_of_slot {j : Nat} (hj : j < 140) (hthere : blockRef d ino j ≠ 0)
    (hi : i < slotsPerBlock) (he : slotEntry d (blockRef d ino j) i = some e) :
    e ∈ dirEntries d ino := by
  obtain ⟨rfl, hlive⟩ := slotEntry_some he
  exact mem_dirEntries.2 ⟨j, i, hj, hthere, hi, rfl, hlive⟩

/-- A plain entry has its place. -/
theorem Volume.entryAt (h : Volume s dirs files parent refs)
    (he : e ∈ treeEntries s.disk dirs p) (hplain : e.Plain)
    (hempty : EmptyDir (treeEntries s.disk dirs) e.iNo) :
    ∃ k i old gone, EntryAt s dirs files p e.iNo k i old gone := by
  obtain ⟨old, hp, hmem⟩ := mem_treeEntries he
  obtain ⟨gone, hgone⟩ := Option.ne_none_iff_exists'.1 (h.entry_object he)
  obtain ⟨k, i, hk, hthere, hi, hslot⟩ := slot_of_mem hmem
  refine ⟨k, i, old, gone, hp, hgone, hempty, hk, hthere, hi, ⟨e, hslot, hplain, rfl⟩,
    fun j i' hj hthere' hi' hc => ?_⟩
  obtain ⟨e', hslot', hplain', hno⟩ := hc
  have hmem' := mem_of_slot hj hthere' hi' hslot'
  have hone := h.names.shape.oneName p
  have hnodup := h.names.nodup p
  rw [treeEntries_some hp] at hone hnodup
  obtain rfl := hone e hmem e' hmem' hplain.1 hplain.2 hplain'.1 hplain'.2 hno.symm
  obtain ⟨rfl, rfl⟩ := eq_slot_of_nodup hnodup hj hk hi' hi hthere' hthere hslot' hslot
  exact ⟨rfl, rfl⟩

theorem EntryAt.mem (h : EntryAt s dirs files p n k i old gone) :
    ∃ e ∈ treeEntries s.disk dirs p, e.Plain ∧ e.iNo = n := by
  obtain ⟨e, hplain, hno, hmem⟩ := h.carrier.firstCarrier.entry_mem
  refine ⟨e, ?_, hplain, hno⟩
  rw [treeEntries_some h.dir]
  exact List.mem_flatMap.2 ⟨k, List.mem_range.2 h.carrier.block, hmem⟩

theorem EntryAt.ne (h : EntryAt s dirs files p n k i old gone) : p ≠ n := by
  rintro rfl
  obtain ⟨e, he, hplain, -⟩ := h.mem
  exact h.empty e he hplain

theorem EntryAt.ne_root (h : EntryAt s dirs files p n k i old gone)
    (hv : Volume s dirs files parent refs) : n ≠ 0 := by
  obtain ⟨e, he, hplain, hno⟩ := h.mem
  exact hno ▸ hv.names.plain_ne_root he hplain

theorem Volume.block_area (h : Volume s dirs files parent refs)
    (hm : objects dirs files m = some ino) {j : Nat} (hj : blockRef s.disk ino j ≠ 0) :
    s.part.sb.dataStartLba ≤ blockRef s.disk ino j := by
  rcases objects_cases hm with hdir | ⟨hnone, -⟩
  · exact (h.tree.rep m ino hdir).area j hj
  · refine Nat.le_of_lt (h.area m ino hm ?_ j hj).behindRoot
    rintro rfl
    exact h.tree.root hnone

/-- In the data area nothing was written but slot `i` of the block at `lba`. -/
def KeepsData (s s' : FsState) (lba i : Nat) : Prop :=
  ∀ a, s.part.sb.dataStartLba * 512 ≤ a → OutsideSlot lba i a → s'.disk a = s.disk a

section Data

variable (hv : Volume s dirs files parent refs) (hat : EntryAt s dirs files p n k i old gone)
  (h : KeepsData s s' (blockRef s.disk old k) i)

include hat h

theorem KeepsData.sameBlock {lba : Nat} (hlba : s.part.sb.dataStartLba ≤ lba)
    (hne : lba ≠ blockRef s.disk old k) : SameBlock s.disk s'.disk lba := by
  intro a ha
  refine h _ ((Nat.mul_le_mul_right 512 hlba).trans (Nat.le_add_right _ _)) ?_
  have hi := hat.carrier.slot
  simp only [OutsideSlot, dirEntryBytes, slotsPerBlock] at *
  omega

include hv

/-- The pointers of every object stay. -/
theorem KeepsData.blockRef_same (hm : objects dirs files m = some ino) (j : Nat) :
    blockRef s'.disk ino j = blockRef s.disk ino j := by
  refine blockRef_congr (fun _ _ => rfl) (fun htab => ?_) j
  have hthere : blockRef s.disk ino 140 ≠ 0 := by rwa [blockRef_table]
  have harea := hv.block_area hm hthere
  have hne : blockRef s.disk ino 140 ≠ blockRef s.disk old k := by
    intro heq
    have hmp := hv.apart m p ino old hm (objects_dir hat.dir) 140 k hthere heq
    rw [hmp, objects_dir hat.dir] at hm
    obtain rfl := Option.some.inj hm
    have hinj := (hv.tree.rep p old hat.dir).sound.inj 140 k hthere heq
    have hlt := hat.carrier.block
    omega
  rw [blockRef_table] at harea hne
  exact h.sameBlock hat harea hne

/-- So do the blocks of all objects but the directory. -/
theorem KeepsData.object_same (hm : objects dirs files m = some ino) (hmp : m ≠ p) {j : Nat}
    (hj : blockRef s.disk ino j ≠ 0) : SameBlock s.disk s'.disk (blockRef s.disk ino j) := by
  refine h.sameBlock hat (hv.block_area hm hj) fun heq => ?_
  exact hmp (hv.apart m p ino old hm (objects_dir hat.dir) j k hj heq)

end Data

section Removes

variable (hv : Volume s dirs files parent refs) (hat : EntryAt s dirs files p n k i old gone)
  (h : Removes s s' old gone (blockRef s.disk old k) i)

include hv hat h

theorem Removes.keepsData : KeepsData s s' (blockRef s.disk old k) i := by
  intro a ha hslot
  have hs := hv.tree.layout
  obtain ⟨hno, hlt⟩ := hv.tree.iNo p old hat.dir
  obtain ⟨hno', hlt'⟩ := hv.object hat.object
  exact h.same a (hs.dataStart_behind ha) (.of_data hs (hno' ▸ hlt') ha)
    (.of_data hs (hno ▸ hlt) ha) hslot

/-- The blocks of the others stay taken. -/
theorem Removes.used (hm : objects dirs files m = some ino) (hmn : m ≠ n) {j : Nat}
    (hj : blockRef s.disk ino j ≠ 0) (hused : blockRef s.disk ino j ∈ usedBlocks s) :
    blockRef s.disk ino j ∈ usedBlocks s' := by
  obtain ⟨b, hb, heq, hbit⟩ := hused
  refine ⟨b, ?_, ?_, (h.bits b).2 ⟨hbit, ?_⟩⟩
  · rw [blockBits, h.blockLen]
    exact hb
  · rw [h.sb]
    exact heq
  · rintro ⟨j', hj'⟩
    exact hmn (hv.apart m n ino gone hm hat.object j j' hj (heq.trans hj'.symm))

/-- The blocks that become free are those of `gone`. -/
theorem Removes.free : FreeOnDisk s' := by
  intro b hb hclear
  rw [blockBits, h.blockLen] at hb
  rw [h.sb]
  by_cases hbit : bitAt s.part.blockBitmap.bits b = true
  · have hown : ownsBit s gone b := by
      by_contra hno
      rw [(h.bits b).2 ⟨hbit, hno⟩] at hclear
      cases hclear
    obtain ⟨j, hj⟩ := hown
    have hstart := hv.tree.layout.table_le
    rw [← hj]
    exact (hv.area n gone hat.object (hat.ne_root hv) j (by omega)).onDisk
  · exact hv.free b hb (Bool.eq_false_iff.2 hbit)

/-- Another directory reads as before. -/
theorem Removes.dirRep_other (hm : dirs m = some ino) (hmp : m ≠ p) (hmn : m ≠ n) :
    DirRep s' ino ∧ dirEntries s'.disk ino = dirEntries s.disk ino := by
  have hrep := hv.tree.rep m ino hm
  have href := (h.keepsData hv hat).blockRef_same hv hat (objects_dir hm)
  have hsame := fun j (hj : blockRef s.disk ino j ≠ 0) =>
    (h.keepsData hv hat).object_same hv hat (objects_dir hm) hmp hj
  have hentries := dirEntries_congr (fun j _ => href j) fun j _ hj => hsame j hj
  refine ⟨⟨by rw [h.sb, hrep.entrySize], ⟨fun j j' => ?_, fun j hj => ?_⟩, fun j => ?_, ?_,
    fun j hj hj140 i' hi' hdead a ha => ?_⟩, hentries⟩
  · rw [href, href]
    exact hrep.sound.inj j j'
  · rw [href] at hj ⊢
    exact h.used hv hat (objects_dir hm) hmn hj (hrep.sound.mem j hj)
  · rw [href]
    exact hrep.onDisk j
  · rw [hentries]
    exact hrep.size
  · rw [href] at hj hdead ⊢
    have hbyte : ∀ b, b < dirEntryBytes →
        s'.disk (blockRef s.disk ino j * 512 + dirEntryBytes * i' + b)
          = s.disk (blockRef s.disk ino j * 512 + dirEntryBytes * i' + b) := by
      intro b hb
      rw [Nat.add_assoc]
      refine hsame j hj _ ?_
      simp only [dirEntryBytes, slotsPerBlock] at *
      omega
    rw [slotEntry_congr hbyte] at hdead
    rw [hbyte a ha]
    exact hrep.clear j hj hj140 i' hi' hdead a ha

/-- The disk whose data area is that of `s'` and whose other sectors are those of
    `s`. -/
def mixedDisk (s s' : FsState) : Mem := fun a =>
  if a < s.part.sb.dataStartLba * 512 then s.disk a else s'.disk a

omit hv hat h in
theorem mixedDisk_data {a : Nat} (ha : s.part.sb.dataStartLba * 512 ≤ a) :
    mixedDisk s s' a = s'.disk a := if_neg (by omega)

/-- The directory has lost the entry. -/
theorem Removes.entries : ∃ e : Entry, e.Plain ∧ e.iNo = n
    ∧ (dirEntries s.disk old).Perm (e :: dirEntries s'.disk old) := by
  have hrep := hv.tree.rep p old hat.dir
  have hcarrier := hat.carrier
  have harea := hrep.area k hcarrier.there
  obtain ⟨e, hslot, hplain, hno⟩ := hcarrier.here
  have hmixed : ∀ a, a < blockRef s.disk old k * 512 + dirEntryBytes * i
      ∨ blockRef s.disk old k * 512 + dirEntryBytes * i + dirEntryBytes ≤ a →
      mixedDisk s s' a = s.disk a := by
    intro a ha
    unfold mixedDisk
    split
    · rfl
    · exact h.keepsData hv hat a (by omega) ha
  have hsec : ∀ j, j < 13 → old.iSectors j = old.iSectors j := fun _ _ => rfl
  obtain ⟨href, rest, hold, hnew⟩ := dirEntries_perm_slot hrep.sound.inj hcarrier.block
    hcarrier.there hcarrier.slot hmixed hsec
  -- in the data area the two disks are the same
  have hentries : dirEntries s'.disk old = dirEntries (mixedDisk s s') old := by
    have hdata : ∀ a, s.part.sb.dataStartLba * 512 ≤ a → s'.disk a = mixedDisk s s' a :=
      fun a ha => (mixedDisk_data ha).symm
    refine (dirEntries_of_outside hdata (fun j hj => ?_) hsec).2
    rw [href] at hj ⊢
    exact hrep.area j hj
  have hnone : slotEntry (mixedDisk s s') (blockRef s.disk old k) i = none := by
    refine slotEntry_zero fun a ha => ?_
    rw [mixedDisk_data ?_, h.slot a ha]
    rw [Nat.add_assoc]
    exact (Nat.mul_le_mul_right 512 harea).trans (Nat.le_add_right _ _)
  rw [hslot] at hold
  rw [hnone] at hnew
  refine ⟨e, hplain, hno, ?_⟩
  rw [hentries]
  exact hold.trans (hnew.symm.cons e)

/-- The directory, of which one entry less is counted. -/
theorem Removes.dirRep_dir : DirRep s' old.shrunk := by
  have hrep := hv.tree.rep p old hat.dir
  have hcarrier := hat.carrier
  have href : ∀ j, blockRef s'.disk old.shrunk j = blockRef s.disk old j := fun j =>
    (blockRef_congr (fun _ _ => by rw [Inode.shrunk_iSectors]) (fun _ _ _ => rfl) j).trans
      ((h.keepsData hv hat).blockRef_same hv hat (objects_dir hat.dir) j)
  have hentries : dirEntries s'.disk old.shrunk = dirEntries s'.disk old :=
    dirEntries_congr (fun j _ => (href j).trans
      ((h.keepsData hv hat).blockRef_same hv hat (objects_dir hat.dir) j).symm) fun _ _ _ _ _ => rfl
  obtain ⟨e, -, -, hperm⟩ := h.entries hv hat
  refine ⟨by rw [h.sb, hrep.entrySize], ⟨fun j j' => ?_, fun j hj => ?_⟩, fun j => ?_, ?_,
    fun j hj hj140 i' hi' hdead a ha => ?_⟩
  · rw [href, href]
    exact hrep.sound.inj j j'
  · rw [href] at hj ⊢
    exact h.used hv hat (objects_dir hat.dir) hat.ne hj (hrep.sound.mem j hj)
  · rw [href]
    exact hrep.onDisk j
  · rw [Inode.shrunk_iSize, hrep.size, hperm.length_eq, hentries, List.length_cons, Nat.mul_succ,
      Nat.add_sub_cancel]
  · rw [href] at hj hdead ⊢
    by_cases hslot : j = k ∧ i' = i
    · rw [hslot.1, hslot.2]
      exact h.slot a ha
    · -- another slot, whose bytes are those of before
      have harea := hrep.area j hj
      have hbyte : ∀ b, b < dirEntryBytes →
          s'.disk (blockRef s.disk old j * 512 + dirEntryBytes * i' + b)
            = s.disk (blockRef s.disk old j * 512 + dirEntryBytes * i' + b) := by
        intro b hb
        refine h.keepsData hv hat _ ?_ ?_
        · rw [Nat.add_assoc]
          exact (Nat.mul_le_mul_right 512 harea).trans (Nat.le_add_right _ _)
        · have hblock : blockRef s.disk old j = blockRef s.disk old k → j = k :=
            hrep.sound.inj j k hj
          have hi := hcarrier.slot
          clear harea
          simp only [OutsideSlot, dirEntryBytes, slotsPerBlock] at *
          by_cases heq : blockRef s.disk old j = blockRef s.disk old k
          · have hne : i' ≠ i := fun hii => hslot ⟨hblock heq, hii⟩
            omega
          · omega
      rw [slotEntry_congr hbyte] at hdead
      rw [hbyte a ha]
      exact hrep.clear j hj hj140 i' hi' hdead a ha

/-- Another record is read back as before. -/
theorem Removes.loadsAs (hm : m < 4096) (hmp : m ≠ p) (hmn : m ≠ n) (hload : LoadsAs s m ino) :
    LoadsAs s' m ino := by
  have hs := hv.tree.layout
  obtain ⟨hno, -⟩ := hv.tree.iNo p old hat.dir
  obtain ⟨hno', -⟩ := hv.object hat.object
  intro junk ino' hrun
  refine hload junk ino' ?_
  rw [h.heapJunk, loadInode_eq h.layout.table hm, slotView_congr h.sb ?_] at hrun
  · rw [loadInode_eq hs.table hm]
    exact hrun
  · intro a ha hlt
    have hend := hs.record_le hm
    have harea := (hv.tree.rep p old hat.dir).area k hat.carrier.there
    have hbefore : a < s.part.sb.dataStartLba * 512 := Nat.lt_of_lt_of_le hlt hend
    have hdata := Nat.mul_le_mul_right 512 harea
    refine h.same a ((Nat.le_add_right _ _).trans ha) ?_ ?_ (.inl ?_)
    · exact hno' ▸ .of_other hmn ha hlt
    · exact hno ▸ .of_other hmp ha hlt
    · exact Nat.lt_of_lt_of_le hbefore (hdata.trans (Nat.le_add_right _ _))

/-- The record of the directory, if it lies in the sector it starts in. -/
theorem Removes.stored (hsector : inodeSize * p % 512 ≤ 444) : Stored s' p old.shrunk := by
  have hrep := hv.tree.rep p old hat.dir
  obtain ⟨hno, hlt⟩ := hv.tree.iNo p old hat.dir
  have hrange := hrep.inRange (hno ▸ hlt)
  refine stored_of_bytes hsector hrange.shrunk fun a ha => ?_
  rw [slotAddr_congr h.sb, ← hno]
  exact h.record a (by rwa [hno])

/-- The entries of all directories afterwards. -/
theorem Removes.loses : Loses (treeEntries s.disk dirs)
    (treeEntries s'.disk (dirsWithout dirs p n old)) p n := by
  have hpn := hat.ne
  have hself : dirsWithout dirs p n old n = none := Function.update_self ..
  refine ⟨?_, treeEntries_none hself, fun m hmp hmn => ?_⟩
  · obtain ⟨e, hplain, hno, hperm⟩ := h.entries hv hat
    refine ⟨e, hplain, hno, ?_⟩
    have hdir : dirsWithout dirs p n old p = some old.shrunk := by
      rw [dirsWithout, Function.update_of_ne hpn, Function.update_self]
    have hshrunk : dirEntries s'.disk old.shrunk = dirEntries s'.disk old :=
      dirEntries_congr (fun j _ => blockRef_congr (fun _ _ => by rw [Inode.shrunk_iSectors])
        (fun _ _ _ => rfl) j) fun _ _ _ _ _ => rfl
    rw [treeEntries_some hat.dir, treeEntries_some hdir, hshrunk]
    exact hperm
  · have hother : dirsWithout dirs p n old m = dirs m := by
      rw [dirsWithout, Function.update_of_ne hmn, Function.update_of_ne hmp]
    cases hm : dirs m with
    | none => rw [treeEntries_none hm, treeEntries_none (hother.trans hm)]
    | some ino =>
        rw [treeEntries_some hm, treeEntries_some (hother.trans hm)]
        exact (h.dirRep_other hv hat hm hmp hmn).2

end Removes

/-! ## The partition afterwards -/

/-- The objects that are left are those of before, and have the same pointers. -/
theorem objectsWithout_some (hat : EntryAt s dirs files p n k i old gone)
    (hfiles : ∀ m, files m ≠ none → dirs m = none)
    (h : objects (dirsWithout dirs p n old) (Function.update files n none) m = some ino) :
    m ≠ n ∧ ∃ ino', objects dirs files m = some ino' ∧ ino.iSectors = ino'.iSectors := by
  rcases objects_cases h with hdir | ⟨-, hfile⟩
  · rcases dirsWithout_some hat.ne hdir with ⟨rfl, rfl⟩ | ⟨-, hmn, hm⟩
    · exact ⟨hat.ne, old, objects_dir hat.dir, Inode.shrunk_iSectors old⟩
    · exact ⟨hmn, ino, objects_dir hm, rfl⟩
  · obtain ⟨hmn, hm⟩ := filesWithout_some hfile
    refine ⟨hmn, ino, objects_file (hfiles m ?_) hm, rfl⟩
    rw [hm]
    exact Option.some_ne_none _

/-- Removing a file or an empty directory. -/
theorem Volume.removes (hv : Volume s dirs files parent refs)
    (hat : EntryAt s dirs files p n k i old gone)
    (h : Removes s s' old gone (blockRef s.disk old k) i) (hstored : inodeStored p)
    (hcounts : RefCounts s' refs) (hroot : s'.rootInode = s.rootInode)
    (hnode : ∀ q ∈ s.part.openInodes,
      SameRecord (s'.inodes q) (if (s.inodes q).iNo = p then old.shrunk else s.inodes q)) :
    Volume s' (dirsWithout dirs p n old) (Function.update files n none) parent refs := by
  have hloses := h.loses hv hat
  have hdir : dirs p ≠ none := by
    rw [hat.dir]
    exact Option.some_ne_none _
  have hisDir : (fun m => dirsWithout dirs p n old m ≠ none) = fun m => dirs m ≠ none ∧ m ≠ n :=
    funext fun m => propext (dirsWithout_ne_none hdir m)
  have hnames : NameTree (treeEntries s'.disk (dirsWithout dirs p n old))
      (fun m => dirsWithout dirs p n old m ≠ none) parent := by
    rw [hisDir]
    exact hv.names.loses hat.empty hloses
  have hfiles : ∀ m, files m ≠ none → dirs m = none := fun _ hm => hv.dirs_none hm
  have hnodes : RenewsNode s s' p old.shrunk := by
    refine ⟨hv.tree.counts.open_iff hcounts, hnode, ?_⟩
    rw [Inode.shrunk_iNo, (hv.tree.iNo p old hat.dir).1]
  have hsub : ∀ m e, e ∈ treeEntries s'.disk (dirsWithout dirs p n old) m →
      e ∈ treeEntries s.disk dirs m ∧ e.iNo ≠ n := fun m e he =>
    ⟨(hloses.of_mem he).1, hloses.iNo_ne hv.names hat.empty he⟩
  have href : ∀ {m ino ino'}, objects dirs files m = some ino' → ino.iSectors = ino'.iSectors →
      ∀ j, blockRef s'.disk ino j = blockRef s.disk ino' j := fun hm hsec j =>
    (blockRef_congr (fun _ _ => by rw [hsec]) (fun _ _ _ => rfl) j).trans
      ((h.keepsData hv hat).blockRef_same hv hat hm j)
  constructor
  case tree =>
    constructor
    case layout => exact h.layout
    case root => exact hnames.root
    case rep =>
      intro m ino hm
      rcases dirsWithout_some hat.ne hm with ⟨rfl, rfl⟩ | ⟨hmp, hmn, hm⟩
      · exact h.dirRep_dir hv hat
      · exact (h.dirRep_other hv hat hm hmp hmn).1
    case iNo =>
      intro m ino hm
      rcases dirsWithout_some hat.ne hm with ⟨rfl, rfl⟩ | ⟨-, -, hm⟩
      · rw [Inode.shrunk_iNo]
        exact hv.tree.iNo m old hat.dir
      · exact hv.tree.iNo m ino hm
    case entry =>
      intro m ino e hm he
      rw [← treeEntries_some hm] at he
      obtain ⟨he, hne⟩ := hsub m e he
      obtain ⟨ino', hm', hmem⟩ := mem_treeEntries he
      rcases hv.tree.entry m ino' e hm' hmem with ⟨htype, hdir⟩ | ⟨htype, hlt, hnone⟩
      · exact .inl ⟨htype, (dirsWithout_ne_none (by rwa [hat.dir] at *) _).2 ⟨hdir, hne⟩⟩
      · refine .inr ⟨htype, hlt, ?_⟩
        by_contra hsome
        exact ((dirsWithout_ne_none (by rwa [hat.dir] at *) _).1 hsome).1 hnone
    case rootDots => exact fun name hname => hnames.rootDots hname
    case counts => exact hcounts
    case room => exact hv.tree.room
    case distinct => exact fun q hq r hr heq => hnodes.distinct hv.tree hq hr heq
    case node =>
      intro m ino hm q hq hno
      rw [hnodes.openInodes] at hq
      rw [hnodes.iNo hq] at hno
      rcases dirsWithout_some hat.ne hm with ⟨rfl, rfl⟩ | ⟨hmp, -, hm⟩
      · exact hnodes.self hq hno
      · exact (hnodes.other hq (hno ▸ hmp)).trans (hv.tree.node m ino hm q hq hno)
    case rootNode =>
      rw [hroot, hnodes.openInodes, hnodes.iNo hv.tree.rootNode.1]
      exact hv.tree.rootNode
    case loadsAs =>
      intro m ino hm hnone
      rcases dirsWithout_some hat.ne hm with ⟨rfl, rfl⟩ | ⟨hmp, hmn, hm⟩
      · exact (h.stored hv hat hstored.2).loadsAs h.layout.table (hv.tree.iNo m old hat.dir).2
      · exact h.loadsAs hv hat (hv.tree.iNo m ino hm).2 hmp hmn
          (hv.tree.loadsAs m ino hm (hnodes.closed hnone))
  case names => exact hnames
  case file =>
    intro m e he hnone
    obtain ⟨he, hne⟩ := hsub m e he
    rw [Function.update_of_ne hne]
    refine hv.file m e he ?_
    by_contra hsome
    exact (dirsWithout_ne_none hdir e.iNo).2 ⟨hsome, hne⟩ hnone
  case fileNo =>
    intro m ino hm
    obtain ⟨-, hm⟩ := filesWithout_some hm
    obtain ⟨hno, hlt, hnone⟩ := hv.fileNo m ino hm
    refine ⟨hno, hlt, ?_⟩
    by_contra hsome
    exact ((dirsWithout_ne_none hdir m).1 hsome).1 hnone
  case fileNode =>
    intro m ino hm q hq hno
    obtain ⟨-, hm⟩ := filesWithout_some hm
    rw [hnodes.openInodes] at hq
    rw [hnodes.iNo hq] at hno
    exact hnodes.file hv hdir hm hq hno
  case fileLoads =>
    intro m ino hm hnone
    obtain ⟨hmn, hm⟩ := filesWithout_some hm
    obtain ⟨-, hlt, hfile⟩ := hv.fileNo m ino hm
    refine h.loadsAs hv hat hlt ?_ hmn (hv.fileLoads m ino hm (hnodes.closed hnone))
    rintro rfl
    exact hdir hfile
  case area =>
    intro m ino hm hm0 j hj
    obtain ⟨-, ino', hm', hsec⟩ := objectsWithout_some hat hfiles hm
    rw [href hm' hsec] at hj ⊢
    exact (hv.area m ino' hm' hm0 j hj).congr h.sb h.blockLen
  case apart =>
    intro m m' ino₁ ino₂ hm hm' j j' hj heq
    obtain ⟨-, ino₁', hm, hsec⟩ := objectsWithout_some hat hfiles hm
    obtain ⟨-, ino₂', hm', hsec'⟩ := objectsWithout_some hat hfiles hm'
    rw [href hm hsec] at hj heq
    rw [href hm' hsec'] at heq
    exact hv.apart m m' ino₁' ino₂' hm hm' j j' hj heq
  case blockMap => exact h.blockMap
  case inodeBit =>
    intro m hm
    obtain ⟨ino, hino⟩ := Option.ne_none_iff_exists'.1 hm
    obtain ⟨hmn, ino', hm', -⟩ := objectsWithout_some hat hfiles hino
    refine (h.inodeBits m).2 ⟨hv.inodeBit m (by rw [hm']; exact Option.some_ne_none _), ?_⟩
    rwa [(hv.object hat.object).1]
  case used =>
    intro m ino hm j hj
    obtain ⟨hmn, ino', hm', hsec⟩ := objectsWithout_some hat hfiles hm
    rw [href hm' hsec] at hj ⊢
    exact h.used hv hat hm' hmn hj (hv.used m ino' hm' j hj)
  case free => exact h.free hv hat

/-! ## A small partition -/

/-- The root has the file "a" and the directory "d", which is empty. -/
def smallVolumeDisk : Mem :=
  let map := Mem.zero.copy (2 * 512) smallTreeFs.part.blockBitmap.bits 0 512
  let records := (map.copy 2124 (oneBlockInode 1 0 0 0).bytes 0 76).copy 2200
    (oneBlockInode 2 48 613 0).bytes 0 76
  let root := putSlot (putSlot (putSlot (putSlot records 612 0 (shortEntry dot 0 2))
    612 1 (shortEntry dotDot 0 2)) 612 2 (shortEntry [97] 1 1)) 612 3 (shortEntry [100] 2 2)
  putSlot (putSlot root 613 0 (shortEntry dot 2 2)) 613 1 (shortEntry dotDot 0 2)

/-- Only the root is open. -/
def smallVolumeFs : FsState :=
  { smallTreeFs with
    disk := smallVolumeDisk
    part := { smallTreeFs.part with inodeBitmap := ⟨512, fun a => if a = 0 then 7 else 0⟩ } }

def smallVolumeDirs (m : Nat) : Option Inode :=
  if m = 0 then some (oneBlockInode 0 96 612 1)
  else if m = 2 then some (oneBlockInode 2 48 613 0)
  else none

def smallVolumeFiles (m : Nat) : Option Inode :=
  if m = 1 then some (oneBlockInode 1 0 0 0) else none

theorem smallVolumeDirs_some {m : Nat} {ino : Inode} (h : smallVolumeDirs m = some ino) :
    m = 0 ∧ ino = oneBlockInode 0 96 612 1 ∨ m = 2 ∧ ino = oneBlockInode 2 48 613 0 := by
  unfold smallVolumeDirs at h
  split_ifs at h with h0 h2
  · exact .inl ⟨h0, (Option.some.inj h).symm⟩
  · exact .inr ⟨h2, (Option.some.inj h).symm⟩

theorem smallVolumeFiles_some {m : Nat} {ino : Inode} (h : smallVolumeFiles m = some ino) :
    m = 1 ∧ ino = oneBlockInode 1 0 0 0 := by
  unfold smallVolumeFiles at h
  split_ifs at h with hm
  exact ⟨hm, (Option.some.inj h).symm⟩

theorem smallVolumeFs_layout : Layout smallVolumeFs :=
  ⟨⟨by decide, by decide⟩, smallTreeFs_layout.bootSector, smallTreeFs_layout.blockLen, rfl,
    smallTreeFs_layout.blockMap_le, smallTreeFs_layout.inodeMap_lt, smallTreeFs_layout.table_le,
    smallTreeFs_layout.data_le, by decide⟩

theorem smallVolume_root : dirEntries smallVolumeDisk (oneBlockInode 0 96 612 1)
    = [(shortEntry dot 0 2).entry, (shortEntry dotDot 0 2).entry, (shortEntry [97] 1 1).entry,
      (shortEntry [100] 2 2).entry] := by
  decide +kernel

theorem smallVolume_dir : dirEntries smallVolumeDisk (oneBlockInode 2 48 613 0)
    = [(shortEntry dot 2 2).entry, (shortEntry dotDot 0 2).entry] := by
  decide +kernel

theorem smallVolume_forall {P : Nat → List Entry → Prop}
    (root : P 0 [(shortEntry dot 0 2).entry, (shortEntry dotDot 0 2).entry,
      (shortEntry [97] 1 1).entry, (shortEntry [100] 2 2).entry])
    (dir : P 2 [(shortEntry dot 2 2).entry, (shortEntry dotDot 0 2).entry])
    (nil : ∀ m, P m []) (m : Nat) : P m (treeEntries smallVolumeFs.disk smallVolumeDirs m) := by
  cases hm : smallVolumeDirs m with
  | none =>
      rw [treeEntries_none hm]
      exact nil m
  | some ino =>
      rw [treeEntries_some hm]
      rcases smallVolumeDirs_some hm with ⟨rfl, rfl⟩ | ⟨rfl, rfl⟩
      · exact smallVolume_root.symm ▸ root
      · exact smallVolume_dir.symm ▸ dir

theorem smallVolume_dirRep {m : Nat} {ino : Inode} (h : smallVolumeDirs m = some ino) :
    DirRep smallVolumeFs ino := by
  rcases smallVolumeDirs_some h with ⟨-, rfl⟩ | ⟨-, rfl⟩
  · refine dirRep_oneBlock (fun j _ => rfl) rfl ⟨0, by decide, rfl, by decide⟩ (by decide) ?_ ?_
    · change 96 = dirEntryBytes * (dirEntries smallVolumeDisk _).length
      rw [smallVolume_root]
      rfl
    · decide +kernel
  · refine dirRep_oneBlock (fun j _ => rfl) rfl ⟨1, by decide, rfl, by decide⟩ (by decide) ?_ ?_
    · change 48 = dirEntryBytes * (dirEntries smallVolumeDisk _).length
      rw [smallVolume_dir]
      rfl
    · decide +kernel

theorem smallVolume_names : NameTree (treeEntries smallVolumeFs.disk smallVolumeDirs)
    (fun m => smallVolumeDirs m ≠ none) fun _ => 0 := by
  have hnil : ∀ {Q : Entry → Prop}, ∀ e ∈ ([] : List Entry), Q e :=
    fun _ he => absurd he List.not_mem_nil
  constructor
  case shape =>
    refine ⟨?_, ?_, ?_, ?_, rfl, ?_, ?_⟩
    · exact smallVolume_forall (P := fun _ l => ∀ e ∈ l, IsName e.name ∧ slash ∉ e.name)
        (by decide) (by decide) fun _ => hnil
    · exact smallVolume_forall (P := fun _ l => ∀ e ∈ l, ∀ e' ∈ l, e.name = e'.name → e = e')
        (by decide) (by decide) fun _ => hnil
    · exact smallVolume_forall (P := fun m l => ∀ e ∈ l, e.name = dot → e.iNo = m)
        (by decide) (by decide) fun _ => hnil
    · exact smallVolume_forall (P := fun _ l => ∀ e ∈ l, e.name = dotDot → e.iNo = 0)
        (by decide) (by decide) fun _ => hnil
    · exact smallVolume_forall (P := fun m l => ∀ e ∈ l, e.fType = FileType.directory.toWord →
          e.name ≠ dot → e.name ≠ dotDot → e.iNo ≠ 0 ∧ 0 = m)
        (by decide) (by decide) fun _ => hnil
    · exact smallVolume_forall (P := fun _ l => ∀ e ∈ l, ∀ e' ∈ l, e.name ≠ dot →
          e.name ≠ dotDot → e'.name ≠ dot → e'.name ≠ dotDot → e.iNo = e'.iNo → e = e')
        (by decide) (by decide) fun _ => hnil
  case root => decide
  case nodup => exact smallVolume_forall (by decide) (by decide) fun _ => List.nodup_nil
  case only => exact fun m hm => treeEntries_none (not_not.1 hm)
  case directory =>
    exact smallVolume_forall (P := fun _ l => ∀ e ∈ l,
      (e.fType = FileType.directory.toWord ↔ smallVolumeDirs e.iNo ≠ none))
      (by decide) (by decide) fun _ => hnil
  case dots =>
    have hentry : ∀ m ∈ [0, 2], ∀ name ∈ [dot, dotDot],
        ∃ e ∈ treeEntries smallVolumeFs.disk smallVolumeDirs m, e.name = name := by
      decide +kernel
    intro m hm name hname
    obtain ⟨ino, hino⟩ := dirs_some hm
    refine hentry m ?_ name (by simpa using hname)
    rcases smallVolumeDirs_some hino with ⟨rfl, -⟩ | ⟨rfl, -⟩ <;> decide
  case linked =>
    intro m hm0 hm
    obtain ⟨ino, hino⟩ := dirs_some hm
    obtain rfl : m = 2 := by
      rcases smallVolumeDirs_some hino with ⟨rfl, -⟩ | ⟨rfl, -⟩
      · exact absurd rfl hm0
      · rfl
    decide +kernel
  case home =>
    exact smallVolume_forall (P := fun m l => ∀ e ∈ l, e.Plain → 0 = m)
      (by decide) (by decide) fun _ => hnil

theorem smallVolume_tree : DirTree smallVolumeFs smallVolumeDirs smallTreeRefs where
  layout := smallVolumeFs_layout
  root := by decide
  rep _ _ h := smallVolume_dirRep h
  iNo m ino h := by
    rcases smallVolumeDirs_some h with ⟨rfl, rfl⟩ | ⟨rfl, rfl⟩ <;> decide
  entry m ino e h he := by
    have hentry := smallVolume_forall (P := fun _ l => ∀ e ∈ l,
      e.fType = FileType.directory.toWord ∧ smallVolumeDirs e.iNo ≠ none
        ∨ e.fType = FileType.regular.toWord ∧ e.iNo < 4096 ∧ smallVolumeDirs e.iNo = none)
      (by decide) (by decide) (fun _ e he => absurd he List.not_mem_nil) m
    rw [treeEntries_some h] at hentry
    exact hentry e he
  rootDots _ hname := smallVolume_names.rootDots hname
  counts := smallTree_tree.counts.congr rfl (Nat.le_refl _) fun _ _ => rfl
  room := smallTree_tree.room
  distinct := smallTree_tree.distinct
  node m ino h q hq hno := by
    have hm : m = 0 := hno.symm
    rcases smallVolumeDirs_some h with ⟨-, rfl⟩ | ⟨h2, -⟩
    · exact .refl _
    · omega
  rootNode := smallTree_tree.rootNode
  loadsAs m ino h hclosed := by
    rcases smallVolumeDirs_some h with ⟨rfl, -⟩ | ⟨rfl, rfl⟩
    · cases hclosed
    · have hstored : Stored smallVolumeFs 2 (oneBlockInode 2 48 613 0) :=
        ⟨by decide, by decide +kernel, by decide +kernel, by decide +kernel⟩
      exact hstored.loadsAs smallVolumeFs_layout.table (by decide)

theorem blockRef_oneBlock (d : Mem) (iNo iSize lba cnt j : Nat) :
    blockRef d (oneBlockInode iNo iSize lba cnt) j = if j = 0 then lba else 0 := by
  by_cases hj : j < 12
  · rw [blockRef_direct hj]
    rfl
  · rw [blockRef_noTable (by omega) rfl, if_neg (by omega)]

/-- Only the two directories have a block. -/
theorem smallVolume_block {m j : Nat} {ino : Inode}
    (h : objects smallVolumeDirs smallVolumeFiles m = some ino)
    (hj : blockRef smallVolumeFs.disk ino j ≠ 0) :
    (m = 0 ∧ blockRef smallVolumeFs.disk ino j = 612)
      ∨ m = 2 ∧ blockRef smallVolumeFs.disk ino j = 613 := by
  rcases objects_cases h with hdir | ⟨-, hfile⟩
  · rcases smallVolumeDirs_some hdir with ⟨rfl, rfl⟩ | ⟨rfl, rfl⟩
    · rw [blockRef_oneBlock] at hj ⊢
      split_ifs at hj ⊢
      · exact .inl ⟨rfl, rfl⟩
      · exact absurd rfl hj
    · rw [blockRef_oneBlock] at hj ⊢
      split_ifs at hj ⊢
      · exact .inr ⟨rfl, rfl⟩
      · exact absurd rfl hj
  · obtain ⟨-, rfl⟩ := smallVolumeFiles_some hfile
    rw [blockRef_oneBlock] at hj
    split_ifs at hj <;> exact absurd rfl hj

theorem smallVolume : Volume smallVolumeFs smallVolumeDirs smallVolumeFiles (fun _ => 0)
    smallTreeRefs where
  tree := smallVolume_tree
  names := smallVolume_names
  file := smallVolume_forall (P := fun _ l => ∀ e ∈ l, smallVolumeDirs e.iNo = none →
    smallVolumeFiles e.iNo ≠ none) (by decide) (by decide) fun _ e he =>
    absurd he List.not_mem_nil
  fileNo m ino h := by
    obtain ⟨rfl, rfl⟩ := smallVolumeFiles_some h
    decide
  fileNode m ino h q hq hno := by
    obtain ⟨rfl, -⟩ := smallVolumeFiles_some h
    cases hno
  fileLoads m ino h _ := by
    obtain ⟨rfl, rfl⟩ := smallVolumeFiles_some h
    have hstored : Stored smallVolumeFs 1 (oneBlockInode 1 0 0 0) :=
      ⟨by decide, by decide +kernel, by decide +kernel, by decide +kernel⟩
    exact hstored.loadsAs smallVolumeFs_layout.table (by decide)
  area m ino h hm0 j hj := by
    rcases smallVolume_block h hj with ⟨hm, -⟩ | ⟨-, hlba⟩
    · exact absurd hm hm0
    · rw [hlba]
      exact ⟨by decide, by decide, by decide⟩
  apart m m' ino ino' h h' j j' hj heq := by
    have hj' : blockRef smallVolumeFs.disk ino' j' ≠ 0 := heq ▸ hj
    rcases smallVolume_block h hj with ⟨rfl, hlba⟩ | ⟨rfl, hlba⟩ <;>
      rcases smallVolume_block h' hj' with ⟨rfl, hlba'⟩ | ⟨rfl, hlba'⟩ <;> omega
  blockMap a ha _ := by
    have ha : a < 512 := ha
    have hlba : smallVolumeFs.part.sb.blockBitmapLba = 2 := rfl
    rw [hlba]
    change smallVolumeDisk _ = _
    simp only [smallVolumeDisk, putSlot, dirEntryBytes]
    rw [Mem.copy_outside (by omega), Mem.copy_outside (by omega), Mem.copy_outside (by omega),
      Mem.copy_outside (by omega), Mem.copy_outside (by omega), Mem.copy_outside (by omega),
      Mem.copy_outside (by omega), Mem.copy_outside (by omega),
      Mem.copy_inside (Nat.le_add_right _ _) (by omega), Nat.zero_add, Nat.add_sub_cancel_left]
    rfl
  inodeBit m hm := by
    obtain ⟨ino, hino⟩ := Option.ne_none_iff_exists'.1 hm
    rcases objects_cases hino with hdir | ⟨-, hfile⟩
    · rcases smallVolumeDirs_some hdir with ⟨rfl, -⟩ | ⟨rfl, -⟩ <;> decide
    · obtain ⟨rfl, -⟩ := smallVolumeFiles_some hfile
      decide
  used m ino h j hj := by
    rcases smallVolume_block h hj with ⟨-, hlba⟩ | ⟨-, hlba⟩
    · exact ⟨0, by decide, hlba, by decide⟩
    · exact ⟨1, by decide, hlba, by decide⟩
  free _ hb _ := lba_le_maxLba hb

end Fs
end JackOS
