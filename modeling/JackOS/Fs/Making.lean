/-
  JackOS.Fs.Making

  Putting a new file or directory into a partition.  From `s` to `s'` one
  directory got an entry, and what the entry is for has a record and blocks that
  were free (`Makes`).  The partition stays whole, with one object more
  (`Volume.makes`), and the tree of names gained just that entry.
-/

import JackOS.Fs.DirGrow
import JackOS.Fs.Volume

namespace JackOS
namespace Fs

open Base

variable {s s' t : FsState} {dirs files : Nat → Option Inode} {parent refs : Nat → Nat}
  {ino old grown new : Inode} {e : Entry} {de : DirEntry} {m n p : Nat}

/-! ## What is made -/

/-- Inode number `n` is free, and directory `p` has no entry of the name yet. -/
structure MakeAt (s : FsState) (dirs files : Nat → Option Inode) (p n : Nat) (old : Inode)
    (de : DirEntry) : Prop where
  dir : dirs p = some old
  free : objects dirs files n = none
  closed : findOpen s n = none
  lt : n < 4096
  iNo : de.iNo = n
  isName : IsName de.entry.name ∧ slash ∉ de.entry.name
  newName : ∀ e ∈ treeEntries s.disk dirs p, e.name ≠ de.entry.name
  fType : de.fType = FileType.directory.toWord ∨ de.fType = FileType.regular.toWord

/-- From `s` to `s'` directory `old` became `grown`, with the entry `de` for
    `new`. -/
structure Makes (s s' : FsState) (old grown new : Inode) (de : DirEntry) : Prop where
  sb : s'.part.sb = s.part.sb
  layout : Layout s'
  heapJunk : s'.heapJunk = s.heapJunk
  blockLen : s'.part.blockBitmap.btmpByteLen = s.part.blockBitmap.btmpByteLen
  used : usedBlocks s ⊆ usedBlocks s'
  blockMap : BlockMapSynced s'
  inodeBits : ∀ m, bitAt s.part.inodeBitmap.bits m = true ∨ m = new.iNo →
    bitAt s'.part.inodeBitmap.bits m = true
  -- what stays
  same : ∀ l ∈ usedBlocks s, (∀ j, blockRef s.disk old j ≠ l) → SameBlock s.disk s'.disk l
  records : ∀ m, m < 4096 → m ≠ old.iNo → m ≠ new.iNo →
    ∀ a, slotAddr s m ≤ a → a < slotAddr s m + inodeSize → s'.disk a = s.disk a
  -- the directory
  iNo : grown.iNo = old.iNo
  rep : DirRep s' grown
  entries : (dirEntries s'.disk grown).Perm (de.entry :: dirEntries s.disk old)
  fresh : ∀ j, blockRef s'.disk grown j ≠ 0 →
    blockRef s'.disk grown j = blockRef s.disk old j ∨ blockRef s'.disk grown j ∉ usedBlocks s
  stored : Stored s' old.iNo grown
  -- the new object
  newNo : new.iNo = de.iNo
  newFresh : ∀ j, blockRef s'.disk new j ≠ 0 → blockRef s'.disk new j ∉ usedBlocks s
    ∧ blockRef s'.disk new j ∈ usedBlocks s' ∧ blockRef s'.disk new j ≤ maxLba
    ∧ ∀ j', blockRef s'.disk grown j' ≠ blockRef s'.disk new j
  newDir : de.fType = FileType.directory.toWord →
    DirRep s' new ∧ DotsOnly (dirEntries s'.disk new) de.iNo old.iNo
  newStored : Stored s' new.iNo new

/-- The directories afterwards. -/
def dirsMade (dirs : Nat → Option Inode) (p n : Nat) (grown new : Inode) (de : DirEntry) :
    Nat → Option Inode :=
  Function.update (Function.update dirs p (some grown)) n
    (if de.fType = FileType.directory.toWord then some new else none)

/-- The files afterwards. -/
def filesMade (files : Nat → Option Inode) (n : Nat) (new : Inode) (de : DirEntry) :
    Nat → Option Inode :=
  Function.update files n (if de.fType = FileType.directory.toWord then none else some new)

theorem dirsMade_new : dirsMade dirs p n grown new de n
    = if de.fType = FileType.directory.toWord then some new else none := Function.update_self ..

theorem dirsMade_dir (hpn : p ≠ n) : dirsMade dirs p n grown new de p = some grown := by
  rw [dirsMade, Function.update_of_ne hpn, Function.update_self]

theorem dirsMade_other (hmp : m ≠ p) (hmn : m ≠ n) :
    dirsMade dirs p n grown new de m = dirs m := by
  rw [dirsMade, Function.update_of_ne hmn, Function.update_of_ne hmp]

theorem filesMade_other (hmn : m ≠ n) : filesMade files n new de m = files m :=
  Function.update_of_ne hmn _ _

section At

variable (hv : Volume s dirs files parent refs) (hat : MakeAt s dirs files p n old de)

include hat

theorem MakeAt.entryNo : de.entry.iNo = n := hat.iNo

theorem MakeAt.dirs_none : dirs n = none := by
  by_contra hsome
  obtain ⟨ino, hino⟩ := dirs_some hsome
  have hfree := hat.free
  rw [objects_dir hino] at hfree
  cases hfree

theorem MakeAt.ne : p ≠ n := by
  rintro rfl
  have hnone := hat.dirs_none
  rw [hat.dir] at hnone
  cases hnone

theorem dirsMade_some (h : dirsMade dirs p n grown new de m = some ino) :
    m = n ∧ ino = new ∧ de.fType = FileType.directory.toWord ∨ m = p ∧ ino = grown
      ∨ m ≠ p ∧ m ≠ n ∧ dirs m = some ino := by
  by_cases hmn : m = n
  · subst hmn
    rw [dirsMade_new] at h
    split at h
    · exact .inl ⟨rfl, (Option.some.inj h).symm, ‹_›⟩
    · cases h
  · by_cases hmp : m = p
    · subst hmp
      rw [dirsMade_dir hat.ne] at h
      exact .inr (.inl ⟨rfl, (Option.some.inj h).symm⟩)
    · rw [dirsMade_other hmp hmn] at h
      exact .inr (.inr ⟨hmp, hmn, h⟩)

omit hat in
theorem filesMade_some (h : filesMade files n new de m = some ino) :
    m = n ∧ ino = new ∧ de.fType ≠ FileType.directory.toWord ∨ m ≠ n ∧ files m = some ino := by
  by_cases hmn : m = n
  · subst hmn
    rw [filesMade, Function.update_self] at h
    split at h
    · cases h
    · exact .inl ⟨rfl, (Option.some.inj h).symm, ‹_›⟩
  · rw [filesMade_other hmn] at h
    exact .inr ⟨hmn, h⟩

/-- The directories are those of before and, if it is one, the new object. -/
theorem dirsMade_ne_none (m : Nat) : dirsMade dirs p n grown new de m ≠ none
    ↔ dirsWith (fun m => dirs m ≠ none) de.entry m := by
  unfold dirsWith
  rw [hat.entryNo]
  by_cases hmn : m = n
  · subst hmn
    have hnone := hat.dirs_none
    rw [dirsMade_new]
    split_ifs with hdir
    · exact iff_of_true (Option.some_ne_none _) (.inr ⟨rfl, hdir⟩)
    · refine iff_of_false (fun h => h rfl) ?_
      rintro (h | ⟨-, h⟩)
      · exact h hnone
      · exact hdir h
  · have hor : (dirs m ≠ none ∨ m = n ∧ de.entry.fType = FileType.directory.toWord)
        ↔ dirs m ≠ none := or_iff_left fun h => hmn h.1
    rw [hor]
    by_cases hmp : m = p
    · subst hmp
      rw [dirsMade_dir hat.ne, hat.dir]
      exact iff_of_true (Option.some_ne_none _) (Option.some_ne_none _)
    · rw [dirsMade_other hmp hmn]

include hv

/-- An object is the new one, the directory, or one of before. -/
theorem objectsMade_some
    (h : objects (dirsMade dirs p n grown new de) (filesMade files n new de) m = some ino) :
    m = n ∧ ino = new ∨ m = p ∧ ino = grown
      ∨ m ≠ p ∧ m ≠ n ∧ objects dirs files m = some ino := by
  rcases objects_cases h with hdir | ⟨-, hfile⟩
  · rcases dirsMade_some hat hdir with ⟨hm, hino, -⟩ | h | ⟨hmp, hmn, hm⟩
    · exact .inl ⟨hm, hino⟩
    · exact .inr (.inl h)
    · exact .inr (.inr ⟨hmp, hmn, objects_dir hm⟩)
  · rcases filesMade_some hfile with ⟨hm, hino, -⟩ | ⟨hmn, hm⟩
    · exact .inl ⟨hm, hino⟩
    · have hnone := (hv.fileNo m ino hm).2.2
      refine .inr (.inr ⟨?_, hmn, objects_file hnone hm⟩)
      rintro rfl
      rw [hat.dir] at hnone
      cases hnone

theorem MakeAt.newEntry :
    NewEntry (treeEntries s.disk dirs) (fun m => dirs m ≠ none) p de.entry where
  inDir := by
    rw [hat.dir]
    exact Option.some_ne_none _
  isName := hat.isName
  newName := hat.newName
  newNo m e he hno := by
    have hobject := hv.entry_object he
    rw [hno, hat.entryNo] at hobject
    exact hobject hat.free
  notDir hsome := by
    rw [hat.entryNo] at hsome
    exact hsome hat.dirs_none

theorem MakeAt.old_iNo : old.iNo = p := (hv.tree.iNo p old hat.dir).1

end At

/-! ## What stays -/

section Makes

variable (hv : Volume s dirs files parent refs) (hat : MakeAt s dirs files p n old de)
  (h : Makes s s' old grown new de)

include hv hat h

omit hv in
theorem Makes.new_iNo : new.iNo = n := h.newNo.trans hat.iNo

/-- The blocks of the other objects are written nowhere. -/
theorem Makes.object_same (hm : objects dirs files m = some ino) (hmp : m ≠ p) {j : Nat}
    (hj : blockRef s.disk ino j ≠ 0) : SameBlock s.disk s'.disk (blockRef s.disk ino j) := by
  refine h.same _ (hv.used m ino hm j hj) fun j' heq => ?_
  exact hmp (hv.apart m p ino old hm (objects_dir hat.dir) j j' hj heq.symm)

/-- So their pointers stay. -/
theorem Makes.blockRef_same (hm : objects dirs files m = some ino) (hmp : m ≠ p) (j : Nat) :
    blockRef s'.disk ino j = blockRef s.disk ino j := by
  refine blockRef_congr (fun _ _ => rfl) (fun htab => ?_) j
  have hthere : blockRef s.disk ino 140 ≠ 0 := by rwa [blockRef_table]
  have hsame := h.object_same hv hat hm hmp hthere
  rwa [blockRef_table] at hsame

/-- Another directory reads as before. -/
theorem Makes.dirRep_other (hm : dirs m = some ino) (hmp : m ≠ p) :
    DirRep s' ino ∧ dirEntries s'.disk ino = dirEntries s.disk ino := by
  obtain ⟨hrep, -, hentries⟩ := (hv.tree.rep m ino hm).same h.sb h.used fun j hj =>
    h.object_same hv hat (objects_dir hm) hmp hj
  exact ⟨hrep, hentries⟩

/-- Another record is read back as before. -/
theorem Makes.loadsAs (hm : m < 4096) (hmp : m ≠ p) (hmn : m ≠ n) (hload : LoadsAs s m ino) :
    LoadsAs s' m ino := by
  intro junk ino' hrun
  refine hload junk ino' ?_
  rw [h.heapJunk, loadInode_eq h.layout.table hm, slotView_congr h.sb ?_] at hrun
  · rw [loadInode_eq hv.tree.layout.table hm]
    exact hrun
  · apply h.records m hm
    · rwa [hat.old_iNo hv]
    · rwa [h.new_iNo hat]

/-- The entries of all directories afterwards. -/
theorem Makes.gains : Gains (treeEntries s.disk dirs)
    (treeEntries s'.disk (dirsMade dirs p n grown new de)) p de.entry := by
  have hne := hat.ne
  refine ⟨?_, fun hdir => ?_, fun hfile => ?_, fun m hmp hmn => ?_⟩
  · rw [treeEntries_some hat.dir, treeEntries_some (dirsMade_dir hne)]
    exact h.entries
  · have hself : dirsMade dirs p n grown new de n = some new :=
      dirsMade_new.trans (if_pos hdir)
    rw [hat.entryNo, treeEntries_some hself, ← hat.iNo, ← hat.old_iNo hv]
    exact (h.newDir hdir).2
  · have hself : dirsMade dirs p n grown new de n = none := dirsMade_new.trans (if_neg hfile)
    rw [hat.entryNo, treeEntries_none hself]
  · rw [hat.entryNo] at hmn
    have hother : dirsMade dirs p n grown new de m = dirs m := dirsMade_other hmp hmn
    cases hm : dirs m with
    | none => rw [treeEntries_none hm, treeEntries_none (hother.trans hm)]
    | some ino =>
        rw [treeEntries_some hm, treeEntries_some (hother.trans hm)]
        exact (h.dirRep_other hv hat hm hmp).2

/-- A block of the directory belongs to no object of before. -/
theorem Makes.grown_apart (hm : objects dirs files m = some ino) (hmp : m ≠ p) {j j' : Nat}
    (hj : blockRef s'.disk grown j ≠ 0) : blockRef s'.disk grown j ≠ blockRef s'.disk ino j' := by
  intro heq
  rw [h.blockRef_same hv hat hm hmp] at heq
  -- it had the block before, or the block was free
  rcases h.fresh j hj with hold | hfresh
  · rw [hold] at hj heq
    exact hmp (hv.apart p m old ino (objects_dir hat.dir) hm j j' hj heq).symm
  · rw [heq] at hj hfresh
    exact hfresh (hv.used m ino hm j' hj)

/-- A block of the new object belongs to no other one. -/
theorem Makes.new_apart (hm : objects (dirsMade dirs p n grown new de) (filesMade files n new de) m
      = some ino) {j j' : Nat} (hj : blockRef s'.disk new j ≠ 0)
    (heq : blockRef s'.disk new j = blockRef s'.disk ino j') : m = n := by
  obtain ⟨hfree, -, -, hgrown⟩ := h.newFresh j hj
  rcases objectsMade_some hv hat hm with ⟨hmn, -⟩ | ⟨-, rfl⟩ | ⟨hmp, -, hm⟩
  · exact hmn
  · exact absurd heq.symm (hgrown j')
  · rw [h.blockRef_same hv hat hm hmp] at heq
    rw [heq] at hj hfree
    exact absurd (hv.used m ino hm j' hj) hfree

/-- No block belongs to two objects. -/
theorem Makes.apart {m' : Nat} {ino' : Inode} (hm : objects (dirsMade dirs p n grown new de)
      (filesMade files n new de) m = some ino)
    (hm' : objects (dirsMade dirs p n grown new de) (filesMade files n new de) m' = some ino')
    {j j' : Nat} (hj : blockRef s'.disk ino j ≠ 0)
    (heq : blockRef s'.disk ino j = blockRef s'.disk ino' j') : m = m' := by
  rcases objectsMade_some hv hat hm with ⟨rfl, rfl⟩ | ⟨rfl, rfl⟩ | ⟨hmp, -, hold⟩
  · exact (h.new_apart hv hat hm' hj heq).symm
  · rcases objectsMade_some hv hat hm' with ⟨rfl, rfl⟩ | ⟨rfl, -⟩ | ⟨hmp', -, hold'⟩
    · exact h.new_apart hv hat hm (heq ▸ hj) heq.symm
    · rfl
    · exact absurd heq (h.grown_apart hv hat hold' hmp' hj)
  · rcases objectsMade_some hv hat hm' with ⟨rfl, rfl⟩ | ⟨rfl, rfl⟩ | ⟨hmp', -, hold'⟩
    · exact h.new_apart hv hat hm (heq ▸ hj) heq.symm
    · exact absurd heq.symm (h.grown_apart hv hat hold hmp (heq ▸ hj))
    · rw [h.blockRef_same hv hat hold hmp] at hj heq
      rw [h.blockRef_same hv hat hold' hmp'] at heq
      exact hv.apart m m' ino ino' hold hold' j j' hj heq

/-- The names are those of a tree. -/
theorem Makes.names : NameTree (treeEntries s'.disk (dirsMade dirs p n grown new de))
    (fun m => dirsMade dirs p n grown new de m ≠ none) (Function.update parent n p) := by
  have hisDir : (fun m => dirsMade dirs p n grown new de m ≠ none)
      = dirsWith (fun m => dirs m ≠ none) de.entry :=
    funext fun m => propext (dirsMade_ne_none hat m)
  have hwhole := hv.names.gains (hat.newEntry hv) (h.gains hv hat)
  rw [hat.entryNo] at hwhole
  rw [hisDir]
  exact hwhole

/-- An entry is for a directory or for a file. -/
theorem Makes.entry (he : e ∈ treeEntries s'.disk (dirsMade dirs p n grown new de) m) :
    e.fType = FileType.directory.toWord ∧ dirsMade dirs p n grown new de e.iNo ≠ none
      ∨ e.fType = FileType.regular.toWord ∧ e.iNo < 4096
        ∧ dirsMade dirs p n grown new de e.iNo = none := by
  have hkind := (h.names hv hat).directory m e he
  have hfile : e.fType = FileType.regular.toWord →
      dirsMade dirs p n grown new de e.iNo = none := by
    intro htype
    by_contra hsome
    rw [htype] at hkind
    exact absurd (hkind.2 hsome) (by decide)
  -- an entry of before, the new one, or a dot entry of the new directory
  rcases (h.gains hv hat).mem_cases (hat.newEntry hv).ne he with
    ⟨he, -⟩ | ⟨-, rfl⟩ | ⟨-, -, htype, -⟩
  · obtain ⟨ino, hm, hmem⟩ := mem_treeEntries he
    rcases hv.tree.entry m ino e hm hmem with ⟨htype, -⟩ | ⟨htype, hlt, -⟩
    · exact .inl ⟨htype, hkind.1 htype⟩
    · exact .inr ⟨htype, hlt, hfile htype⟩
  · rcases hat.fType with htype | htype
    · exact .inl ⟨htype, hkind.1 htype⟩
    · exact .inr ⟨htype, by rw [hat.entryNo]; exact hat.lt, hfile htype⟩
  · exact .inl ⟨htype, hkind.1 htype⟩

/-- An entry that is not for a directory is for a file that is there. -/
theorem Makes.file (he : e ∈ treeEntries s'.disk (dirsMade dirs p n grown new de) m)
    (hnone : dirsMade dirs p n grown new de e.iNo = none) :
    filesMade files n new de e.iNo ≠ none := by
  have hentry := hat.newEntry hv
  rcases (h.gains hv hat).mem_cases hentry.ne he with ⟨hold, -⟩ | ⟨-, rfl⟩ | ⟨-, -, htype, -⟩
  · have hno : e.iNo ≠ n := by
      rw [← hat.entryNo]
      exact hentry.newNo m e hold
    rw [filesMade_other hno]
    refine hv.file m e hold ?_
    by_contra hsome
    exact (dirsMade_ne_none hat e.iNo).2 (.inl hsome) hnone
  · rw [hat.entryNo] at hnone ⊢
    rw [filesMade, Function.update_self]
    rw [dirsMade_new] at hnone
    split at hnone
    · cases hnone
    · rw [if_neg ‹_›]
      exact Option.some_ne_none _
  · exact absurd hnone (((h.names hv hat).directory m e he).1 htype)

omit hat in
/-- A block that was free is not the boot block of the area. -/
theorem Makes.inDataArea {l : Nat} (hfree : l ∉ usedBlocks s) (hused : l ∈ usedBlocks s')
    (hdisk : l ≤ maxLba) : InDataArea s' l := by
  obtain ⟨b, hb, rfl, -⟩ := hused
  refine ⟨?_, ?_, hdisk⟩
  · -- the block of the root is taken
    rcases Nat.eq_zero_or_pos b with rfl | hpos
    · rw [blockBits, h.blockLen] at hb
      rw [h.sb] at hfree
      exact absurd (mem_usedBlocks.2 ⟨hb, hv.tree.layout.rootBit⟩) hfree
    · omega
  · omega

/-- The blocks of all objects but the root are in the data area. -/
theorem Makes.area (hm : objects (dirsMade dirs p n grown new de) (filesMade files n new de) m
      = some ino) (hm0 : m ≠ 0) {j : Nat} (hj : blockRef s'.disk ino j ≠ 0) :
    InDataArea s' (blockRef s'.disk ino j) := by
  rcases objectsMade_some hv hat hm with ⟨-, rfl⟩ | ⟨rfl, rfl⟩ | ⟨hmp, -, hm⟩
  · obtain ⟨hfree, hused, hdisk, -⟩ := h.newFresh j hj
    exact h.inDataArea hv hfree hused hdisk
  · rcases h.fresh j hj with heq | hfree
    · rw [heq] at hj ⊢
      exact (hv.area m old (objects_dir hat.dir) hm0 j hj).congr h.sb h.blockLen
    · exact h.inDataArea hv hfree (h.rep.sound.mem j hj) (h.rep.onDisk j)
  · rw [h.blockRef_same hv hat hm hmp] at hj ⊢
    exact (hv.area m ino hm hm0 j hj).congr h.sb h.blockLen

/-- The directories, in the kernel too. -/
theorem Makes.tree (hnodes : RenewsNode s s' p grown) (hcounts : RefCounts s' refs)
    (hroot : s'.rootInode = s.rootInode) :
    DirTree s' (dirsMade dirs p n grown new de) refs := by
  have hnames := h.names hv hat
  constructor
  case layout => exact h.layout
  case root => exact hnames.root
  case rep =>
    intro m ino hm
    rcases dirsMade_some hat hm with ⟨-, rfl, hdir⟩ | ⟨-, rfl⟩ | ⟨hmp, -, hm⟩
    · exact (h.newDir hdir).1
    · exact h.rep
    · exact (h.dirRep_other hv hat hm hmp).1
  case iNo =>
    intro m ino hm
    rcases dirsMade_some hat hm with ⟨rfl, rfl, -⟩ | ⟨rfl, rfl⟩ | ⟨-, -, hm⟩
    · exact ⟨h.new_iNo hat, hat.lt⟩
    · rw [h.iNo]
      exact hv.tree.iNo m old hat.dir
    · exact hv.tree.iNo m ino hm
  case entry =>
    intro m ino e hm he
    rw [← treeEntries_some hm] at he
    exact h.entry hv hat he
  case rootDots => exact fun name hname => hnames.rootDots hname
  case counts => exact hcounts
  case room => exact hv.tree.room
  case distinct => exact fun q hq r hr heq => hnodes.distinct hv.tree hq hr heq
  case node =>
    intro m ino hm q hq hno
    rw [hnodes.openInodes] at hq
    rw [hnodes.iNo hq] at hno
    rcases dirsMade_some hat hm with ⟨rfl, -⟩ | ⟨rfl, rfl⟩ | ⟨hmp, -, hm⟩
    · exact absurd hno (findOpen_none.1 hat.closed q hq)
    · exact hnodes.self hq hno
    · exact (hnodes.other hq (hno ▸ hmp)).trans (hv.tree.node m ino hm q hq hno)
  case rootNode =>
    rw [hroot, hnodes.openInodes, hnodes.iNo hv.tree.rootNode.1]
    exact hv.tree.rootNode
  case loadsAs =>
    intro m ino hm hnone
    rcases dirsMade_some hat hm with ⟨rfl, rfl, -⟩ | ⟨rfl, rfl⟩ | ⟨hmp, hmn, hm⟩
    · have hstored := h.newStored
      rw [h.new_iNo hat] at hstored
      exact hstored.loadsAs h.layout.table hat.lt
    · have hstored := h.stored
      rw [hat.old_iNo hv] at hstored
      exact hstored.loadsAs h.layout.table (hv.tree.iNo m old hat.dir).2
    · exact h.loadsAs hv hat (hv.tree.iNo m ino hm).2 hmp hmn
        (hv.tree.loadsAs m ino hm (hnodes.closed hnone))

end Makes

/-! ## The partition afterwards -/

/-- Making a file or a directory. -/
theorem Volume.makes (hv : Volume s dirs files parent refs) (hat : MakeAt s dirs files p n old de)
    (h : Makes s s' old grown new de) (hcounts : RefCounts s' refs)
    (hroot : s'.rootInode = s.rootInode)
    (hnode : ∀ q ∈ s.part.openInodes,
      SameRecord (s'.inodes q) (if (s.inodes q).iNo = p then grown else s.inodes q)) :
    Volume s' (dirsMade dirs p n grown new de) (filesMade files n new de)
      (Function.update parent n p) refs := by
  have hdir : dirs p ≠ none := by
    rw [hat.dir]
    exact Option.some_ne_none _
  have hnodes : RenewsNode s s' p grown :=
    ⟨hv.tree.counts.open_iff hcounts, hnode, h.iNo.trans (hat.old_iNo hv)⟩
  constructor
  case tree => exact h.tree hv hat hnodes hcounts hroot
  case names => exact h.names hv hat
  case file => exact fun m e he hnone => h.file hv hat he hnone
  case fileNo =>
    intro m ino hm
    rcases filesMade_some hm with ⟨rfl, rfl, hfile⟩ | ⟨hmn, hm⟩
    · exact ⟨h.new_iNo hat, hat.lt, dirsMade_new.trans (if_neg hfile)⟩
    · obtain ⟨hno, hlt, hnone⟩ := hv.fileNo m ino hm
      refine ⟨hno, hlt, ?_⟩
      rw [dirsMade_other ?_ hmn]
      · exact hnone
      · rintro rfl
        exact hdir hnone
  case fileNode =>
    intro m ino hm q hq hno
    rw [hnodes.openInodes] at hq
    rw [hnodes.iNo hq] at hno
    rcases filesMade_some hm with ⟨rfl, -⟩ | ⟨-, hm⟩
    · -- no node is open for the new file
      exact absurd hno (findOpen_none.1 hat.closed q hq)
    · exact hnodes.file hv hdir hm hq hno
  case fileLoads =>
    intro m ino hm hnone
    rcases filesMade_some hm with ⟨rfl, rfl, -⟩ | ⟨hmn, hm⟩
    · have hstored := h.newStored
      rw [h.new_iNo hat] at hstored
      exact hstored.loadsAs h.layout.table hat.lt
    · obtain ⟨-, hlt, hfile⟩ := hv.fileNo m ino hm
      refine h.loadsAs hv hat hlt ?_ hmn (hv.fileLoads m ino hm (hnodes.closed hnone))
      rintro rfl
      exact hdir hfile
  case area => exact fun m ino hm hm0 j hj => h.area hv hat hm hm0 hj
  case apart => exact fun m m' ino ino' hm hm' j j' hj heq => h.apart hv hat hm hm' hj heq
  case blockMap => exact h.blockMap
  case inodeBit =>
    intro m hm
    obtain ⟨ino, hino⟩ := Option.ne_none_iff_exists'.1 hm
    apply h.inodeBits
    rcases objectsMade_some hv hat hino with ⟨rfl, -⟩ | ⟨rfl, -⟩ | ⟨-, -, hm⟩
    · exact .inr (h.new_iNo hat).symm
    · exact .inl (hv.inodeBit m (by rw [objects_dir hat.dir]; exact Option.some_ne_none _))
    · exact .inl (hv.inodeBit m (by rw [hm]; exact Option.some_ne_none _))
  case used =>
    intro m ino hm j hj
    rcases objectsMade_some hv hat hm with ⟨-, rfl⟩ | ⟨-, rfl⟩ | ⟨hmp, -, hm⟩
    · exact (h.newFresh j hj).2.1
    · exact h.rep.sound.mem j hj
    · rw [h.blockRef_same hv hat hm hmp] at hj ⊢
      exact h.used (hv.used m ino hm j hj)
  case free =>
    exact hv.free.mono h.sb (by rw [blockBits, h.blockLen]; rfl) h.used

end Fs
end JackOS
