/-
  JackOS.Fs.Tree

  The directories of a partition as a tree.  `DirTree` is the condition on them:
  each can be read, through its node if it is open and from the disk otherwise,
  and an entry of type directory leads to another.  Opening and closing
  directories of the tree keeps it (`Sees`).
-/

import JackOS.Fs.DirRead
import JackOS.Fs.InodeRelease

namespace JackOS
namespace Fs

open Base

/-! ## Trees -/

/-- The entries of the directories, by inode number; `dirs` gives their
    inodes. -/
def treeEntries (d : Mem) (dirs : Nat → Option Inode) (m : Nat) : List Entry :=
  ((dirs m).map (dirEntries d)).getD []

/-- The first entry with the name. -/
def lookup (entries : List Entry) (name : List UInt8) : Option Entry :=
  entries.find? fun e => e.name = name

/-- The record of inode `m` can be read from the disk: its pointers lie in the
    sector it starts in, and they are those of `ino`. -/
structure Stored (s : FsState) (m : Nat) (ino : Inode) : Prop where
  inSector : inodeSize * m % 512 ≤ 444
  record : SameRecord (Inode.ofBytes s.disk (slotAddr s m)) ino

/-- `inode_open` reads inode `m` back as `ino`. -/
def LoadsAs (s : FsState) (m : Nat) (ino : Inode) : Prop :=
  ∀ k ino', loadInode s m (s.heapJunk k) = .ok ino' → SameRecord ino' ino

/-- The directories `dirs` and what their entries lead to.  `refs` says how
    often each node is held. -/
structure DirTree (s : FsState) (dirs : Nat → Option Inode) (refs : Nat → Nat) : Prop where
  layout : Layout s
  -- the directories
  root : dirs 0 ≠ none
  rep : ∀ m ino, dirs m = some ino → DirRep s ino
  iNo : ∀ m ino, dirs m = some ino → ino.iNo = m ∧ m < 4096
  entry : ∀ m ino e, dirs m = some ino → e ∈ dirEntries s.disk ino →
    e.fType = FileType.directory.toWord ∧ dirs e.iNo ≠ none
      ∨ e.fType = FileType.regular.toWord ∧ e.iNo < 4096 ∧ dirs e.iNo = none
  rootDots : ∀ name, name = dot ∨ name = dotDot →
    ∃ e, lookup (treeEntries s.disk dirs 0) name = some e ∧ e.iNo = 0
  -- their nodes
  counts : RefCounts s refs
  room : Room refs 4
  distinct : ∀ p ∈ s.part.openInodes, ∀ q ∈ s.part.openInodes,
    (s.inodes p).iNo = (s.inodes q).iNo → p = q
  node : ∀ m ino, dirs m = some ino → ∀ q ∈ s.part.openInodes, (s.inodes q).iNo = m →
    SameRecord (s.inodes q) ino
  rootNode : s.rootInode ∈ s.part.openInodes ∧ (s.inodes s.rootInode).iNo = 0
  loadsAs : ∀ m ino, dirs m = some ino → findOpen s m = none → LoadsAs s m ino

variable {s t t' : FsState} {dirs : Nat → Option Inode} {refs held : Nat → Nat} {m p : Nat}
  {ino ino' : Inode} {dir : Dir}

theorem treeEntries_some {d : Mem} (h : dirs m = some ino) :
    treeEntries d dirs m = dirEntries d ino := by
  rw [treeEntries, h]
  rfl

theorem dirs_some (h : dirs m ≠ none) : ∃ ino, dirs m = some ino :=
  Option.ne_none_iff_exists'.1 h

/-! ## Records -/

theorem SameRecord.refl (ino : Inode) : SameRecord ino ino := ⟨rfl, rfl, fun _ _ => rfl⟩

/-- The entries are those of the record. -/
theorem SameRecord.dirEntries_eq (h : SameRecord ino' ino) (d : Mem) :
    dirEntries d ino' = dirEntries d ino := by
  simp only [dirEntries, h.blockRef_eq d]

/-- A directory is read from the same sectors, whatever nodes are open. -/
theorem DirRep.looks (h : DirRep s ino) (hlook : Looks s t) (hrec : SameRecord ino' ino) :
    DirRep t ino' := by
  have href : blockRef t.disk ino' = blockRef s.disk ino := by
    funext j
    rw [hlook.disk, hrec.blockRef_eq]
  have hused : usedBlocks t = usedBlocks s := by
    simp only [usedBlocks, blockBits, hlook.sb, hlook.blockBitmap]
  refine ⟨by rw [hlook.sb, h.entrySize], ?_, fun j => ?_, ?_, ?_⟩
  · rw [href, hused]
    exact h.sound
  · rw [href]
    exact h.onDisk j
  · rw [hrec.iSize, h.size, hrec.dirEntries_eq, hlook.disk]
  · rw [href, hlook.disk]
    exact h.clear

/-- A directory whose blocks stay reads as before. -/
theorem DirRep.same (h : DirRep s ino) (hsb : t.part.sb = s.part.sb)
    (hused : usedBlocks s ⊆ usedBlocks t)
    (hsame : ∀ j, blockRef s.disk ino j ≠ 0 → SameBlock s.disk t.disk (blockRef s.disk ino j)) :
    DirRep t ino ∧ (∀ j, blockRef t.disk ino j = blockRef s.disk ino j)
      ∧ dirEntries t.disk ino = dirEntries s.disk ino := by
  have href : ∀ j, blockRef t.disk ino j = blockRef s.disk ino j := by
    refine fun j => blockRef_congr (fun _ _ => rfl) (fun htab => ?_) j
    have hthere : blockRef s.disk ino 140 ≠ 0 := by rwa [blockRef_table]
    have htable := hsame 140 hthere
    rwa [blockRef_table] at htable
  have hentries := dirEntries_congr (fun j _ => href j) fun j _ hj => hsame j hj
  refine ⟨⟨by rw [hsb, h.entrySize], ⟨fun j j' => ?_, fun j hj => ?_⟩, fun j => ?_, ?_,
    fun j hj hj140 i hi hdead a ha => ?_⟩, href, hentries⟩
  · rw [href, href]
    exact h.sound.inj j j'
  · rw [href] at hj ⊢
    exact hused (h.sound.mem j hj)
  · rw [href]
    exact h.onDisk j
  · rw [hentries]
    exact h.size
  · rw [href] at hj hdead ⊢
    have hbyte : ∀ c, c < dirEntryBytes →
        t.disk (blockRef s.disk ino j * 512 + dirEntryBytes * i + c)
          = s.disk (blockRef s.disk ino j * 512 + dirEntryBytes * i + c) := by
      intro c hc
      rw [Nat.add_assoc]
      refine hsame j hj _ ?_
      simp only [dirEntryBytes, slotsPerBlock] at *
      omega
    rw [slotEntry_congr hbyte] at hdead
    rw [hbyte a ha]
    exact h.clear j hj hj140 i hi hdead a ha

/-- The fields of a directory's inode are 32-bit words. -/
theorem DirRep.inRange (h : DirRep s ino) (hno : ino.iNo < 4096) : ino.InRange where
  iNo := Nat.lt_trans hno (by decide)
  iSize := h.iSize_lt
  iSectors := by
    intro j hj
    have hle : ino.iSectors j ≤ maxLba := by
      by_cases hj12 : j < 12
      · rw [← blockRef_direct (d := s.disk) hj12]
        exact h.onDisk j
      · obtain rfl : j = 12 := by omega
        rw [← blockRef_table (d := s.disk)]
        exact h.onDisk 140
    exact Nat.lt_of_le_of_lt hle (by decide)

/-! ## Nodes of the tree -/

/-- From `s` the state `t` was reached by opening and closing directories of the
    tree; every node on the list holds the directory that it is of. -/
structure Sees (s t : FsState) (dirs : Nat → Option Inode) : Prop where
  looks : Looks s t
  mallocCnt : s.mallocCnt ≤ t.mallocCnt
  distinct : ∀ p ∈ t.part.openInodes, ∀ q ∈ t.part.openInodes,
    (t.inodes p).iNo = (t.inodes q).iNo → p = q
  node : ∀ m ino, dirs m = some ino → ∀ q ∈ t.part.openInodes, (t.inodes q).iNo = m →
    SameRecord (t.inodes q) ino

/-- A node of inode `m`, on the list of open inodes. -/
structure NodeOf (t : FsState) (p m : Nat) : Prop where
  opened : p ∈ t.part.openInodes
  iNo : (t.inodes p).iNo = m

theorem DirTree.sees (h : DirTree s dirs refs) : Sees s s dirs :=
  ⟨.refl s, Nat.le_refl _, h.distinct, h.node⟩

theorem Sees.heapServes (h : Sees s t dirs) (hheap : HeapServes s) : HeapServes t := by
  intro k hk
  rw [h.looks.same]
  exact hheap k (Nat.le_trans h.mallocCnt hk)

theorem Sees.countMalloc (h : Sees s t dirs) : Sees s t.countMalloc dirs :=
  ⟨h.looks.trans (looks_countMalloc t), Nat.le_succ_of_le h.mallocCnt, h.distinct, h.node⟩

theorem Sees.table (h : Sees s t dirs) (htree : DirTree s dirs refs) : InodeTableOnDisk t :=
  (htree.layout.looks h.looks).table

/-- A node of a directory reads as the directory. -/
theorem Sees.dirRep (h : Sees s t dirs) (htree : DirTree s dirs refs) (hp : NodeOf t p m)
    (hm : dirs m = some ino) :
    DirRep t (t.inodes p) ∧ dirEntries t.disk (t.inodes p) = dirEntries s.disk ino := by
  have hrec := h.node m ino hm p hp.opened hp.iNo
  refine ⟨(htree.rep m ino hm).looks h.looks hrec, ?_⟩
  rw [hrec.dirEntries_eq, h.looks.disk]

/-- Only the counts of nodes differ, and no node is new. -/
theorem Sees.mono (h : Sees s t dirs) (hlook : Looks t t') (hcnt : t.mallocCnt ≤ t'.mallocCnt)
    (hopen : ∀ p ∈ t'.part.openInodes, p ∈ t.part.openInodes)
    (hsame : ∀ p ∈ t.part.openInodes, SameRecord (t'.inodes p) (t.inodes p)) : Sees s t' dirs := by
  refine ⟨h.looks.trans hlook, Nat.le_trans h.mallocCnt hcnt, fun p hp q hq heq => ?_,
    fun m ino hm q hq hno => ?_⟩
  · rw [(hsame p (hopen p hp)).iNo, (hsame q (hopen q hq)).iNo] at heq
    exact h.distinct p (hopen p hp) q (hopen q hq) heq
  · have hq' := hopen q hq
    rw [(hsame q hq').iNo] at hno
    exact (hsame q hq').trans (h.node m ino hm q hq' hno)

theorem sameRecord_setOpenCnt (t : FsState) (p cnt q : Nat) :
    SameRecord ((t.setInode p { t.inodes p with iOpenCnt := cnt }).inodes q) (t.inodes q) := by
  rw [FsState.setInode_inodes]
  by_cases hq : q = p
  · rw [hq, Function.update_self]
    exact ⟨rfl, rfl, fun _ _ => rfl⟩
  · rw [Function.update_of_ne hq]
    exact ⟨rfl, rfl, fun _ _ => rfl⟩

/-- `inode_close` sets a count, and a node whose count is 0 leaves the list. -/
theorem inodeClose_eq (t : FsState) (p : Nat) : ∃ cnt,
    inodeClose t p =
      if cnt = 0 then
        (t.setInode p { t.inodes p with iOpenCnt := cnt }).setPart
          { t.part with openInodes := t.part.openInodes.erase p }
      else t.setInode p { t.inodes p with iOpenCnt := cnt } := by
  refine ⟨subU32 (t.inodes p).iOpenCnt 1, ?_⟩
  rw [inodeClose]
  simp only [FsState.setInode]

theorem Sees.inodeClose (h : Sees s t dirs) (p : Nat) : Sees s (Fs.inodeClose t p) dirs := by
  have hlook := looks_inodeClose t p
  obtain ⟨cnt, hclose⟩ := inodeClose_eq t p
  rw [hclose] at hlook ⊢
  split at hlook
  · rw [if_pos ‹_›]
    exact h.mono hlook (Nat.le_refl _) (fun _ hq => List.mem_of_mem_erase hq)
      fun q _ => sameRecord_setOpenCnt t p cnt q
  · rw [if_neg ‹_›]
    exact h.mono hlook (Nat.le_refl _) (fun _ hq => hq)
      fun q _ => sameRecord_setOpenCnt t p cnt q

/-- Directories that were open when the call began still are: their holders have
    not given them back. -/
theorem Sees.closed (htree : DirTree s dirs refs) (h : Sees s t dirs)
    (hcounts : RefCounts t held) (hle : ∀ p, refs p ≤ held p) (hnone : Fs.findOpen t m = none) :
    Fs.findOpen s m = none := by
  rw [findOpen_none] at hnone ⊢
  intro q hq hno
  refine hnone q ?_ ?_
  · have hpos := (htree.counts.held q).1 hq
    exact (hcounts.held q).2 (Nat.lt_of_lt_of_le hpos (hle q))
  · rw [h.looks.node q (htree.counts.lt q hq)]
    exact hno

/-- A record that lies in one sector is read back. -/
theorem Stored.loadsAs (hs : InodeTableOnDisk t) (h : Stored t m ino) (hlt : m < 4096) :
    LoadsAs t m ino := by
  intro k ino' hload
  rw [loadInode_eq hs hlt] at hload
  cases hload
  refine SameRecord.trans ?_ h.record
  apply SameRecord.ofBytes_of_prefix
  intro a ha
  have hspan : a < inodeSpan m := by
    have hsector := h.inSector
    simp only [inodeSpan, inodeSize] at hsector ⊢
    omega
  rw [Nat.zero_add, slotView, if_pos hspan]

/-- A record that lies in one sector is there once its bytes are. -/
theorem stored_of_bytes (hsector : inodeSize * m % 512 ≤ 444) (hrange : ino.InRange)
    (h : ∀ a, a < inodeSpan m → s.disk (slotAddr s m + a) = ino.synced.bytes a) :
    Stored s m ino := by
  refine ⟨hsector, ?_⟩
  have hpre : SameRecord (Inode.ofBytes s.disk (slotAddr s m))
      (Inode.ofBytes ino.synced.bytes 0) := by
    refine SameRecord.ofBytes_of_prefix fun a ha => ?_
    rw [Nat.zero_add]
    apply h
    simp only [inodeSpan, inodeSize] at *
    omega
  have hbytes := Inode.ofBytes_bytes (Inode.synced_inRange hrange)
  exact (hpre.trans hbytes).trans ⟨rfl, rfl, fun _ _ => rfl⟩

/-- Opening an inode whose record carries its number. -/
theorem Sees.inodeOpen_of_load (h : Sees s t dirs) (hcounts : RefCounts t held)
    (hload : Fs.findOpen t m = none → ∀ k ino', loadInode t m (t.heapJunk k) = .ok ino' →
      ino'.iNo = m ∧ ∀ ino, dirs m = some ino → SameRecord ino' ino)
    (hcall : Fs.inodeOpen t m = .ok (p, t')) : Sees s t' dirs ∧ NodeOf t' p m := by
  obtain ⟨hlook, hmem, -⟩ := inodeOpen_spec hcall
  unfold Fs.inodeOpen at hcall
  cases hfind : Fs.findOpen t m with
  | some q =>
      rw [hfind] at hcall
      cases hcall
      obtain ⟨hq, hno⟩ := findOpen_some hfind
      refine ⟨h.mono hlook (Nat.le_refl _) (fun _ hp => hp) fun q _ =>
        sameRecord_setOpenCnt t p _ q, hmem, ?_⟩
      rw [(sameRecord_setOpenCnt t p _ p).iNo]
      exact hno
  | none =>
      rw [hfind] at hcall
      dsimp only at hcall
      cases hnode : Fs.sysMalloc t with
      | mk node t₁ =>
      cases hbuf : Fs.sysMalloc t₁ with
      | mk inodeBuf t₂ =>
      rw [hnode] at hcall
      simp only [hbuf] at hcall
      have ht₂ : t₂ = t.countMalloc.countMalloc := by
        rw [sysMalloc_state hbuf, sysMalloc_state hnode]
      subst ht₂
      cases node with
      | none => cases hcall
      | some node =>
        cases inodeBuf with
        | none => cases hcall
        | some inodeBuf =>
          obtain ⟨ino', hrun, hcall⟩ := Outcome.bind_eq_ok.1 hcall
          obtain ⟨_, -, hcall⟩ := Outcome.bind_eq_ok.1 hcall
          cases hcall
          obtain ⟨hno, hrec⟩ := hload hfind _ ino' hrun
          -- the other nodes stay, and the new one is of a number that none of them has
          have hother : ∀ q ∈ t.part.openInodes,
              Function.update t.inodes t.nextNode { ino' with iOpenCnt := 1 } q = t.inodes q :=
            fun q hq => Function.update_of_ne (Nat.ne_of_lt (hcounts.lt q hq)) _ _
          have hself : Function.update t.inodes t.nextNode { ino' with iOpenCnt := 1 } t.nextNode
              = { ino' with iOpenCnt := 1 } := Function.update_self ..
          have hnew : ∀ q ∈ t.part.openInodes, (t.inodes q).iNo ≠ ino'.iNo := fun q hq heq =>
            findOpen_none.1 hfind q hq (heq.trans hno)
          refine ⟨⟨h.looks.trans hlook, Nat.le_trans h.mallocCnt (Nat.le_add_right _ 2), ?_, ?_⟩,
            hmem, ?_⟩
          · intro p hp q hq heq
            change (Function.update t.inodes t.nextNode { ino' with iOpenCnt := 1 } p).iNo
              = (Function.update t.inodes t.nextNode { ino' with iOpenCnt := 1 } q).iNo at heq
            rcases List.mem_cons.1 hp with rfl | hp <;> rcases List.mem_cons.1 hq with rfl | hq
            · rfl
            · rw [hother q hq] at heq
              erw [hself] at heq
              exact absurd heq.symm (hnew q hq)
            · rw [hother p hp] at heq
              erw [hself] at heq
              exact absurd heq (hnew p hp)
            · rw [hother p hp, hother q hq] at heq
              exact h.distinct p hp q hq heq
          · intro m' ino₁ hm' q hq hno'
            change (Function.update t.inodes t.nextNode { ino' with iOpenCnt := 1 } q).iNo = m'
              at hno'
            change SameRecord (Function.update t.inodes t.nextNode { ino' with iOpenCnt := 1 } q)
              ino₁
            rcases List.mem_cons.1 hq with rfl | hq
            · erw [hself] at hno' ⊢
              obtain rfl : m = m' := hno.symm.trans hno'
              have hrec := hrec ino₁ hm'
              exact ⟨hrec.iNo, hrec.iSize, hrec.iSectors⟩
            · rw [hother q hq] at hno' ⊢
              exact h.node m' ino₁ hm' q hq hno'
          · change (Function.update t.inodes t.nextNode { ino' with iOpenCnt := 1 } t.nextNode).iNo
              = m
            rw [hself]
            exact hno

/-- Opening a directory of the tree. -/
theorem Sees.inodeOpen (htree : DirTree s dirs refs) (h : Sees s t dirs)
    (hcounts : RefCounts t held) (hle : ∀ p, refs p ≤ held p) (hm : dirs m = some ino)
    (hcall : Fs.inodeOpen t m = .ok (p, t')) : Sees s t' dirs ∧ NodeOf t' p m := by
  refine h.inodeOpen_of_load hcounts (fun hfind k ino' hload => ?_) hcall
  have hiNo := (htree.iNo m ino hm).1
  have hread := htree.loadsAs m ino hm (h.closed htree hcounts hle hfind)
  rw [h.looks.same] at hload
  have hrec := hread k ino' hload
  refine ⟨hrec.iNo.trans hiNo, fun ino₁ hino₁ => ?_⟩
  rw [hm] at hino₁
  cases hino₁
  exact hrec

/-! ## Standing in a directory -/

/-- A search that began in `s` stands in directory `m`, which `dir` is open
    for. -/
structure Stands (s t : FsState) (dirs : Nat → Option Inode) (refs : Nat → Nat) (dir : Dir)
    (m : Nat) : Prop extends NodeOf t dir.inode m where
  sees : Sees s t dirs
  counts : RefCounts t (dirHeld refs dir)
  own : ∀ block, dir.block = some block → block.kernel = s.task.pgdir.isNone

/-- `root_dir` is always open. -/
theorem DirTree.stands (h : DirTree s dirs refs) : Stands s s dirs refs s.rootDir 0 :=
  ⟨⟨h.rootNode.1, h.rootNode.2⟩, h.sees, h.counts,
    fun _ hblock => absurd hblock (Option.some_ne_none _).symm⟩

theorem dirClose_meets (hown : ∀ block, dir.block = some block →
      block.kernel = t.task.pgdir.isNone) {served : Prop} :
    Outcome.Meets served (dirClose t dir) fun t' => dirClose t dir = .ok t' := by
  refine ⟨fun _ h => h, fun _ => ?_⟩
  unfold dirClose
  cases hblock : dir.block with
  | none => exact ⟨t, rfl⟩
  | some block =>
      have htask : block.kernel = (inodeClose t dir.inode).task.pgdir.isNone := by
        rw [(looks_inodeClose t dir.inode).task]
        exact hown block hblock
      refine ⟨inodeClose t dir.inode, ?_⟩
      dsimp only
      rw [sysFree_own htask]
      rfl

theorem Sees.dirClose (h : Sees s t dirs) (hcall : Fs.dirClose t dir = .ok t') :
    Sees s t' dirs := by
  unfold Fs.dirClose at hcall
  split at hcall
  · cases hcall
    exact h
  · obtain ⟨_, -, hcall⟩ := Outcome.bind_eq_ok.1 hcall
    rw [← Except.ok.inj hcall]
    exact h.inodeClose _

/-- Closing the directory gives everything back. -/
theorem Stands.dirClose (h : Stands s t dirs refs dir m) :
    Outcome.Meets (HeapServes s) (Fs.dirClose t dir) fun t' =>
      Sees s t' dirs ∧ RefCounts t' refs := by
  apply (dirClose_meets ?_).mono
  · intro t' hcall
    exact ⟨h.sees.dirClose hcall, h.counts.dirClose hcall⟩
  · rw [h.sees.looks.task]
    exact h.own

theorem inodeOpen_meets (htree : DirTree s dirs refs) (h : Sees s t dirs) (hm : m < 4096) :
    Outcome.Meets (HeapServes s) (inodeOpen t m) fun r => inodeOpen t m = .ok r := by
  refine ⟨fun _ h => h, fun hheap => ?_⟩
  cases hfind : findOpen t m with
  | some q =>
      unfold inodeOpen
      rw [hfind]
      exact ⟨_, rfl⟩
  | none => exact ⟨_, inodeOpen_miss (h.table htree) hm hfind (h.heapServes hheap)⟩

theorem sysMalloc_own {block : HeapBlock} (h : sysMalloc t = (some block, t')) :
    block.kernel = t.task.pgdir.isNone := by
  unfold sysMalloc at h
  split at h
  · cases h
    rfl
  · cases h

theorem dirOpen_eq {served : Prop} (hblock : served → HeapServes t)
    (hopen : Outcome.Meets served (inodeOpen t.countMalloc m) fun r =>
      inodeOpen t.countMalloc m = .ok r) :
    Outcome.Meets served (dirOpen t m) fun r => inodeOpen t.countMalloc m = .ok (r.1.inode, r.2)
      ∧ ∃ block, r.1.block = some block ∧ block.kernel = t.task.pgdir.isNone := by
  constructor
  · rintro ⟨dir, t'⟩ hcall
    unfold dirOpen at hcall
    cases hmalloc : sysMalloc t with
    | mk block t₁ =>
    rw [hmalloc] at hcall
    obtain rfl := sysMalloc_state hmalloc
    cases block with
    | none => cases hcall
    | some block =>
      obtain ⟨⟨p, t₂⟩, hrun, hcall⟩ := Outcome.bind_eq_ok.1 hcall
      cases hcall
      exact ⟨hrun, block, rfl, sysMalloc_own hmalloc⟩
  · intro hserved
    obtain ⟨⟨p, t₁⟩, hrun⟩ := hopen.returns hserved
    refine ⟨({ inode := p, dirPos := 0, block := some ⟨t.task.pgdir.isNone, t.mallocCnt⟩ }, t₁), ?_⟩
    rw [dirOpen, (hblock hserved).sysMalloc]
    dsimp only
    rw [hrun]
    rfl

/-- Opening a directory of the tree. -/
theorem Sees.dirOpen (htree : DirTree s dirs refs) (h : Sees s t dirs)
    (hcounts : RefCounts t held) (hle : ∀ p, refs p ≤ held p) (hroom : Room held 1)
    (hm : dirs m ≠ none) :
    Outcome.Meets (HeapServes s) (Fs.dirOpen t m) fun r => Stands s r.2 dirs held r.1 m := by
  obtain ⟨ino, hino⟩ := dirs_some hm
  apply (dirOpen_eq h.heapServes
    (inodeOpen_meets htree h.countMalloc (htree.iNo m ino hino).2)).mono
  rintro ⟨dir, t'⟩ ⟨hopen, block, hblock, hown⟩
  obtain ⟨hsees, hnode⟩ := h.countMalloc.inodeOpen htree hcounts.countMalloc hle hino hopen
  refine ⟨hnode, hsees, ?_, fun block' hblock' => ?_⟩
  · rw [dirHeld]
    dsimp only at hblock
    rw [hblock]
    exact hcounts.countMalloc.inodeOpen hroom hopen
  · dsimp only at hblock hblock'
    rw [hblock] at hblock'
    cases hblock'
    rw [hown, h.looks.task]

theorem searchDirEntry_state {name : List UInt8} {r : Option DirEntry}
    (h : searchDirEntry t p name = .ok (r, t')) : t' = t.countMalloc.countMalloc := by
  unfold searchDirEntry at h
  cases hall : sysMalloc t with
  | mk allBlocksLba t₁ =>
  rw [hall] at h
  cases allBlocksLba with
  | none => cases h
  | some allBlocksLba =>
    obtain ⟨all, -, h⟩ := Outcome.bind_eq_ok.1 h
    cases hbuf : sysMalloc t₁ with
    | mk buf t₂ =>
    rw [hbuf] at h
    cases buf with
    | none => cases h
    | some buf =>
      obtain ⟨dirE, -, h⟩ := Outcome.bind_eq_ok.1 h
      obtain ⟨_, -, h⟩ := Outcome.bind_eq_ok.1 h
      obtain ⟨_, -, h⟩ := Outcome.bind_eq_ok.1 h
      cases h
      rw [sysMalloc_state hbuf, sysMalloc_state hall]

/-- Looking up a name in the directory. -/
theorem Stands.searchDirEntry (htree : DirTree s dirs refs) (h : Stands s t dirs refs dir m)
    (hm : dirs m ≠ none) {name : List UInt8} (hname : IsName name) :
    Outcome.Meets (HeapServes s) (Fs.searchDirEntry t dir.inode name) fun r =>
      Stands s r.2 dirs refs dir m
        ∧ r.1.map DirEntry.entry
          = lookup (treeEntries s.disk dirs m) name := by
  obtain ⟨ino, hino⟩ := dirs_some hm
  obtain ⟨hrep, hentries⟩ := h.sees.dirRep htree h.toNodeOf hino
  obtain ⟨hfinds, hreturns⟩ := searchDirEntry_spec hrep hname
  constructor
  · rintro ⟨r, t'⟩ hcall
    have hfind := hfinds r t' hcall
    obtain rfl := searchDirEntry_state hcall
    refine ⟨⟨⟨h.opened, h.iNo⟩, h.sees.countMalloc.countMalloc, h.counts.countMalloc.countMalloc,
      h.own⟩, ?_⟩
    rw [hfind, hentries, treeEntries_some hino]
    rfl
  · intro hheap
    obtain ⟨r, t', hcall⟩ := hreturns (h.sees.heapServes hheap)
    exact ⟨(r, t'), hcall⟩

/-! ## A small tree -/

/-- A directory with a single block. -/
theorem dirRep_oneBlock {b : Nat} (hsec : ∀ j, j < 13 → ino.iSectors j = if j = 0 then b else 0)
    (hsize : s.part.sb.dirEntrySize = dirEntryBytes) (hused : b ∈ usedBlocks s)
    (hle : b ≤ maxLba) (hentries : ino.iSize = dirEntryBytes * (dirEntries s.disk ino).length)
    (hclear : ∀ i, i < slotsPerBlock → slotEntry s.disk b i = none →
      ∀ a, a < dirEntryBytes → s.disk (b * 512 + dirEntryBytes * i + a) = 0) : DirRep s ino := by
  have href : ∀ j, blockRef s.disk ino j = if j = 0 then b else 0 := by
    intro j
    by_cases hj : j < 12
    · rw [blockRef_direct hj, hsec j (by omega)]
    · rw [blockRef_noTable (by omega) (hsec 12 (by decide)), if_neg (by omega)]
  refine ⟨hsize, ⟨fun i j hi heq => ?_, fun i hi => ?_⟩, fun j => ?_, hentries, fun k hk _ => ?_⟩
  · rw [href] at hi
    rw [href, href] at heq
    split_ifs at hi heq
    · omega
    · exact absurd heq hi
    · exact absurd rfl hi
    · exact absurd rfl hi
  · rw [href] at hi ⊢
    split_ifs at hi ⊢
    · exact hused
    · exact absurd rfl hi
  · rw [href]
    split_ifs
    · exact hle
    · exact Nat.zero_le _
  · rw [href] at hk ⊢
    split_ifs at hk ⊢
    · exact hclear
    · exact absurd rfl hk

/-- An inode with at most one block. -/
def oneBlockInode (iNo iSize lba iOpenCnt : Nat) : Inode :=
  { iNo := iNo, iSize := iSize, iOpenCnt := iOpenCnt, writeDeny := false
    iSectors := fun j => if j = 0 then lba else 0 }

/-- The root has the file "a" and the directory "d", which has the file "f". -/
def smallTreeDisk : Mem :=
  let records := ((Mem.zero.copy 2124 (oneBlockInode 1 0 0 0).bytes 0 76).copy 2200
    (oneBlockInode 2 72 613 0).bytes 0 76).copy 2276 (oneBlockInode 3 0 0 0).bytes 0 76
  let root := putSlot (putSlot (putSlot (putSlot records 612 0 (shortEntry dot 0 2))
    612 1 (shortEntry dotDot 0 2)) 612 2 (shortEntry [97] 1 1)) 612 3 (shortEntry [100] 2 2)
  putSlot (putSlot (putSlot root 613 0 (shortEntry dot 2 2)) 613 1 (shortEntry dotDot 0 2))
    613 2 (shortEntry [102] 3 1)

/-- Only the root is open. -/
def smallTreeFs : FsState :=
  { newFileFs with
    disk := smallTreeDisk
    part := { newFileFs.part with
      blockBitmap := ⟨512, setBitAt (setBitAt Mem.zero 0 true) 1 true⟩ }
    inodes := fun _ => oneBlockInode 0 96 612 1
    fileTable := fun _ => ⟨0, 0, none⟩ }

def smallTreeDirs (m : Nat) : Option Inode :=
  if m = 0 then some (oneBlockInode 0 96 612 1)
  else if m = 2 then some (oneBlockInode 2 72 613 0)
  else none

def smallTreeRefs (p : Nat) : Nat := if p = 0 then 1 else 0

theorem smallTreeDirs_some (h : smallTreeDirs m = some ino) :
    m = 0 ∧ ino = oneBlockInode 0 96 612 1 ∨ m = 2 ∧ ino = oneBlockInode 2 72 613 0 := by
  unfold smallTreeDirs at h
  split_ifs at h with h0 h2
  · exact .inl ⟨h0, (Option.some.inj h).symm⟩
  · exact .inr ⟨h2, (Option.some.inj h).symm⟩

theorem smallTreeFs_layout : Layout smallTreeFs :=
  ⟨⟨by decide, by decide⟩, newFileFs_layout.bootSector, newFileFs_layout.blockLen,
    newFileFs_layout.inodeLen, newFileFs_layout.blockMap_le, newFileFs_layout.inodeMap_lt,
    newFileFs_layout.table_le, newFileFs_layout.data_le, by decide⟩

theorem smallTree_root : dirEntries smallTreeDisk (oneBlockInode 0 96 612 1)
    = [(shortEntry dot 0 2).entry, (shortEntry dotDot 0 2).entry, (shortEntry [97] 1 1).entry,
      (shortEntry [100] 2 2).entry] := by
  decide +kernel

theorem smallTree_dir : dirEntries smallTreeDisk (oneBlockInode 2 72 613 0)
    = [(shortEntry dot 2 2).entry, (shortEntry dotDot 0 2).entry,
      (shortEntry [102] 3 1).entry] := by
  decide +kernel

theorem smallTree_dirRep (h : smallTreeDirs m = some ino) : DirRep smallTreeFs ino := by
  rcases smallTreeDirs_some h with ⟨-, rfl⟩ | ⟨-, rfl⟩
  · refine dirRep_oneBlock (fun j _ => rfl) rfl ⟨0, by decide, rfl, by decide⟩ (by decide) ?_ ?_
    · change 96 = dirEntryBytes * (dirEntries smallTreeDisk _).length
      rw [smallTree_root]
      rfl
    · decide +kernel
  · refine dirRep_oneBlock (fun j _ => rfl) rfl ⟨1, by decide, rfl, by decide⟩ (by decide) ?_ ?_
    · change 72 = dirEntryBytes * (dirEntries smallTreeDisk _).length
      rw [smallTree_dir]
      rfl
    · decide +kernel

theorem smallTree_tree : DirTree smallTreeFs smallTreeDirs smallTreeRefs where
  layout := smallTreeFs_layout
  root := by decide
  rep _ _ h := smallTree_dirRep h
  iNo m ino h := by
    rcases smallTreeDirs_some h with ⟨rfl, rfl⟩ | ⟨rfl, rfl⟩ <;> decide
  entry m ino e h he := by
    rcases smallTreeDirs_some h with ⟨-, rfl⟩ | ⟨-, rfl⟩
    · change e ∈ dirEntries smallTreeDisk _ at he
      rw [smallTree_root] at he
      simp only [List.mem_cons, List.not_mem_nil, or_false] at he
      rcases he with rfl | rfl | rfl | rfl <;> decide
    · change e ∈ dirEntries smallTreeDisk _ at he
      rw [smallTree_dir] at he
      simp only [List.mem_cons, List.not_mem_nil, or_false] at he
      rcases he with rfl | rfl | rfl <;> decide
  rootDots name hname := by
    have hentries : treeEntries smallTreeFs.disk smallTreeDirs 0
        = dirEntries smallTreeDisk (oneBlockInode 0 96 612 1) := rfl
    rw [hentries, smallTree_root]
    rcases hname with rfl | rfl
    · exact ⟨(shortEntry dot 0 2).entry, by decide, rfl⟩
    · exact ⟨(shortEntry dotDot 0 2).entry, by decide, rfl⟩
  counts := by
    refine ⟨by decide, by decide, by decide, fun p => ?_, fun p => ?_⟩
    · change p ∈ [0] ↔ 0 < smallTreeRefs p
      rw [List.mem_singleton, smallTreeRefs]
      split_ifs <;> omega
    · rw [smallTreeRefs]
      split_ifs <;> norm_num
  room p := by
    rw [smallTreeRefs]
    split_ifs <;> norm_num
  distinct p hp q hq _ := by
    rw [List.mem_singleton.1 hp, List.mem_singleton.1 hq]
  node m ino h q hq hno := by
    have hm : m = 0 := hno.symm
    rcases smallTreeDirs_some h with ⟨-, rfl⟩ | ⟨h2, -⟩
    · exact .refl _
    · omega
  rootNode := ⟨List.mem_singleton.2 rfl, rfl⟩
  loadsAs m ino h hclosed := by
    rcases smallTreeDirs_some h with ⟨rfl, -⟩ | ⟨rfl, rfl⟩
    · cases hclosed
    · have hstored : Stored smallTreeFs 2 (oneBlockInode 2 72 613 0) :=
        ⟨by decide, by decide +kernel, by decide +kernel, by decide +kernel⟩
      exact hstored.loadsAs smallTreeFs_layout.table (by decide)

end Fs
end JackOS
