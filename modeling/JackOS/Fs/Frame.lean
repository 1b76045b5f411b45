/-
  JackOS.Fs.Frame

  What the calls below `sys_open` leave alone.  Looking something up opens and
  closes directories and changes nothing else (`Looks`); adding an entry writes
  blocks and sizes and nothing else (`Writes`); neither touches a descriptor or
  a lock (`KeepsFds`).
-/

import JackOS.Fs.InodeStore
import JackOS.Fs.Syscall

namespace JackOS
namespace Fs

open Base

/-- From `s` to `s'` inode nodes were opened and closed, and nothing else
    happened. -/
structure Looks (s s' : FsState) : Prop where
  same : s' = { s with
    part := { s.part with openInodes := s'.part.openInodes }
    inodes := s'.inodes
    nextNode := s'.nextNode
    mallocCnt := s'.mallocCnt }
  nextNode : s.nextNode ≤ s'.nextNode
  node : ∀ p, p < s.nextNode →
    s'.inodes p = { s.inodes p with iOpenCnt := (s'.inodes p).iOpenCnt }
  opened : ∀ p ∈ s'.part.openInodes, p ∈ s.part.openInodes ∨ s.nextNode ≤ p ∧ p < s'.nextNode

/-- From `s` to `s'` blocks were taken and written, and sizes and sectors of
    inodes changed. -/
structure Writes (s s' : FsState) : Prop where
  same : s' = { s with
    disk := s'.disk
    part := { s.part with blockBitmap := s'.part.blockBitmap }
    inodes := s'.inodes }
  iNo : ∀ p, (s'.inodes p).iNo = (s.inodes p).iNo
  iOpenCnt : ∀ p, (s'.inodes p).iOpenCnt = (s.inodes p).iOpenCnt
  writeDeny : ∀ p, (s'.inodes p).writeDeny = (s.inodes p).writeDeny

/-- From `s` to `s'` no descriptor, no lock and no inode number changed. -/
structure KeepsFds (s s' : FsState) : Prop where
  same : s' = { s with
    disk := s'.disk
    part := { s.part with
      openInodes := s'.part.openInodes
      blockBitmap := s'.part.blockBitmap }
    inodes := s'.inodes
    nextNode := s'.nextNode
    mallocCnt := s'.mallocCnt }
  nextNode : s.nextNode ≤ s'.nextNode
  iNo : ∀ p, p < s.nextNode → (s'.inodes p).iNo = (s.inodes p).iNo
  writeDeny : ∀ p, p < s.nextNode → (s'.inodes p).writeDeny = (s.inodes p).writeDeny
  opened : ∀ p ∈ s'.part.openInodes, p ∈ s.part.openInodes ∨ s.nextNode ≤ p ∧ p < s'.nextNode

variable {s s' s'' : FsState}

theorem Looks.refl (s : FsState) : Looks s s :=
  ⟨rfl, Nat.le_refl _, fun _ _ => rfl, fun _ h => .inl h⟩

theorem Looks.trans (h : Looks s s') (h' : Looks s' s'') : Looks s s'' := by
  refine ⟨h'.same.trans ?_, Nat.le_trans h.nextNode h'.nextNode, fun p hp => ?_, fun p hp => ?_⟩
  · rw [h.same]
  · rw [h'.node p (Nat.lt_of_lt_of_le hp h.nextNode), h.node p hp]
  · have hle := h.nextNode
    have hle' := h'.nextNode
    rcases h'.opened p hp with hp | hp
    · rcases h.opened p hp with hp | hp
      · exact .inl hp
      · exact .inr ⟨hp.1, by omega⟩
    · exact .inr ⟨by omega, hp.2⟩

theorem Writes.refl (s : FsState) : Writes s s :=
  ⟨rfl, fun _ => rfl, fun _ => rfl, fun _ => rfl⟩

theorem Writes.trans (h : Writes s s') (h' : Writes s' s'') : Writes s s'' := by
  refine ⟨h'.same.trans ?_, fun p => (h'.iNo p).trans (h.iNo p),
    fun p => (h'.iOpenCnt p).trans (h.iOpenCnt p), fun p => (h'.writeDeny p).trans (h.writeDeny p)⟩
  rw [h.same]

theorem Looks.keepsFds (h : Looks s s') : KeepsFds s s' := by
  refine ⟨h.same.trans ?_, h.nextNode, fun p hp => ?_, fun p hp => ?_, h.opened⟩
  · rw [h.same]
  · rw [h.node p hp]
  · rw [h.node p hp]

theorem Writes.keepsFds (h : Writes s s') : KeepsFds s s' := by
  refine ⟨h.same.trans ?_, ?_, fun p _ => h.iNo p, fun p _ => h.writeDeny p, fun p hp => .inl ?_⟩
  · rw [h.same]
  · rw [h.same]
  · rw [h.same] at hp
    exact hp

theorem Looks.fileTable (h : Looks s s') : s'.fileTable = s.fileTable := by rw [h.same]

theorem Looks.disk (h : Looks s s') : s'.disk = s.disk := by rw [h.same]

theorem Looks.sb (h : Looks s s') : s'.part.sb = s.part.sb := by rw [h.same]

theorem Looks.blockBitmap (h : Looks s s') : s'.part.blockBitmap = s.part.blockBitmap := by
  rw [h.same]

theorem Looks.task (h : Looks s s') : s'.task = s.task := by rw [h.same]; rfl

theorem KeepsFds.fileTable (h : KeepsFds s s') : s'.fileTable = s.fileTable := by rw [h.same]

theorem KeepsFds.procs (h : KeepsFds s s') : s'.procs = s.procs := by rw [h.same]

theorem KeepsFds.cur (h : KeepsFds s s') : s'.cur = s.cur := by rw [h.same]

theorem KeepsFds.inodeBitmap (h : KeepsFds s s') :
    s'.part.inodeBitmap = s.part.inodeBitmap := by rw [h.same]

/-! ## Nodes -/

theorem looks_countMalloc (s : FsState) : Looks s s.countMalloc :=
  ⟨rfl, Nat.le_refl _, fun _ _ => rfl, fun _ h => .inl h⟩

theorem sysMalloc_state {r : Option HeapBlock} (h : sysMalloc s = (r, s')) :
    s' = s.countMalloc := by
  unfold sysMalloc at h
  split at h <;> exact (congrArg Prod.snd h).symm

theorem looks_sysMalloc {r : Option HeapBlock} (h : sysMalloc s = (r, s')) : Looks s s' := by
  rw [sysMalloc_state h]
  exact looks_countMalloc s

/-- Another open count. -/
theorem looks_setOpenCnt (s : FsState) (p cnt : Nat) :
    Looks s (s.setInode p { s.inodes p with iOpenCnt := cnt }) := by
  refine ⟨rfl, Nat.le_refl _, fun q _ => ?_, fun _ h => .inl h⟩
  rw [FsState.setInode_inodes]
  by_cases hqp : q = p
  · rw [hqp, Function.update_self]
  · rw [Function.update_of_ne hqp]

theorem looks_newNode (s : FsState) (ino : Inode) : Looks s (s.newNode ino) := by
  refine ⟨rfl, Nat.le_succ _, fun p hp => ?_, fun _ h => .inl h⟩
  rw [FsState.newNode_inodes, Function.update_of_ne (Nat.ne_of_lt hp)]

theorem looks_newOpenNode (s : FsState) (ino : Inode) :
    Looks s ((s.newNode ino).pushOpen s.nextNode) := by
  refine ⟨rfl, Nat.le_succ _, (looks_newNode s ino).node, fun p hp => ?_⟩
  rcases List.mem_cons.1 hp with rfl | hp
  · exact .inr ⟨Nat.le_refl _, Nat.lt_succ_self _⟩
  · exact .inl hp

theorem looks_inodeClose (s : FsState) (p : Nat) : Looks s (inodeClose s p) := by
  unfold inodeClose
  simp only
  split
  · refine (looks_setOpenCnt s p _).trans ⟨rfl, Nat.le_refl _, fun _ _ => rfl, fun q hq => ?_⟩
    exact .inl (List.mem_of_mem_erase hq)
  · exact looks_setOpenCnt s p _

/-- The inode number in the node that `inode_open` gives for `inodeNo`. -/
def openedNo (s : FsState) (inodeNo : Nat) : Nat :=
  match findOpen s inodeNo with
  | some _ => inodeNo
  | none => s.disk.le32 (s.part.sb.inodeTableLba * 512 + inodeSize * inodeNo)

/-- An inode's number is read from the sector it starts in. -/
theorem loadInode_iNo {inodeNo : Nat} {junk : Mem} {ino : Inode}
    (h : loadInode s inodeNo junk = .ok ino) :
    ino.iNo = s.disk.le32 (s.part.sb.inodeTableLba * 512 + inodeSize * inodeNo) := by
  obtain ⟨pos, hpos, h⟩ := Outcome.bind_eq_ok.1 h
  obtain ⟨_, -, hpos⟩ := Outcome.bind_eq_ok.1 hpos
  obtain ⟨buf, hbuf, h⟩ := Outcome.bind_eq_ok.1 h
  obtain ⟨_, -, hbuf⟩ := Outcome.bind_eq_ok.1 hbuf
  obtain ⟨_, hsec, hbuf⟩ := Outcome.bind_eq_ok.1 hbuf
  cases h
  cases hbuf
  cases hpos
  refine Mem.le32_congr fun i hi => ?_
  have hoff : inodeSize * inodeNo % 512 ≤ 508 := by
    unfold inodeSize
    omega
  have hsectors := InodePosition.sectors_pos
    { multiSec := if 512 - inodeSize * inodeNo % 512 < inodeSize then false else true
      secLba := s.part.sb.inodeTableLba + inodeSize * inodeNo / 512
      offSize := inodeSize * inodeNo % 512 }
  rw [Mem.copy_inside (Nat.zero_le _) (by simp only; omega)]
  exact congrArg s.disk (by simp only; omega)

/-- `inode_open`: the node is on the list of open inodes afterwards. -/
theorem inodeOpen_spec {inodeNo p : Nat} (h : inodeOpen s inodeNo = .ok (p, s')) :
    Looks s s' ∧ p ∈ s'.part.openInodes ∧ (s'.inodes p).iNo = openedNo s inodeNo := by
  unfold inodeOpen at h
  unfold openedNo
  cases hfind : findOpen s inodeNo with
  | some q =>
      rw [hfind] at h
      cases h
      have hno : (s.inodes p).iNo = inodeNo := by
        have := List.find?_some (show s.part.openInodes.find? _ = some p from hfind)
        exact of_decide_eq_true this
      refine ⟨looks_setOpenCnt s p _, List.mem_of_find?_eq_some hfind, ?_⟩
      rw [FsState.setInode_inodes, Function.update_self]
      exact hno
  | none =>
      rw [hfind] at h
      simp only at h
      cases hnode : sysMalloc s with
      | mk node s₁ =>
      cases hbuf : sysMalloc s₁ with
      | mk inodeBuf s₂ =>
      rw [hnode] at h
      simp only [hbuf] at h
      have hlook : Looks s s₂ := (looks_sysMalloc hnode).trans (looks_sysMalloc hbuf)
      cases node with
      | none => cases h
      | some node =>
        cases inodeBuf with
        | none => cases h
        | some inodeBuf =>
          obtain ⟨ino, hload, h⟩ := Outcome.bind_eq_ok.1 h
          obtain ⟨_, -, h⟩ := Outcome.bind_eq_ok.1 h
          cases h
          refine ⟨hlook.trans (looks_newOpenNode s₂ _), List.mem_cons_self, ?_⟩
          rw [FsState.pushOpen, FsState.setPart_inodes, FsState.newNode_inodes,
            Function.update_self]
          rw [loadInode_iNo hload, hlook.disk, hlook.same]

/-! ## Looking up -/

theorem dirOpen_spec {inodeNo : Nat} {dir : Dir} (h : dirOpen s inodeNo = .ok (dir, s')) :
    Looks s s' ∧ dir.inode ∈ s'.part.openInodes
      ∧ (s'.inodes dir.inode).iNo = openedNo s inodeNo := by
  unfold dirOpen at h
  cases hblock : sysMalloc s with
  | mk block s₁ =>
  rw [hblock] at h
  have hlook := looks_sysMalloc hblock
  cases block with
  | none => cases h
  | some block =>
    obtain ⟨⟨p, s₂⟩, hopen, h⟩ := Outcome.bind_eq_ok.1 h
    cases h
    obtain ⟨hlook', hmem, hno⟩ := inodeOpen_spec hopen
    refine ⟨hlook.trans hlook', hmem, hno.trans ?_⟩
    rw [sysMalloc_state hblock]
    rfl

theorem dirClose_looks {dir : Dir} (h : dirClose s dir = .ok s') : Looks s s' := by
  unfold dirClose at h
  split at h
  · cases h
    exact .refl s
  · obtain ⟨_, -, h⟩ := Outcome.bind_eq_ok.1 h
    rw [← Except.ok.inj h]
    exact looks_inodeClose s dir.inode

theorem searchDirEntry_looks {p : Nat} {name : List UInt8} {r : Option DirEntry}
    (h : searchDirEntry s p name = .ok (r, s')) : Looks s s' := by
  unfold searchDirEntry at h
  cases hall : sysMalloc s with
  | mk allBlocksLba s₁ =>
  rw [hall] at h
  cases allBlocksLba with
  | none => cases h
  | some allBlocksLba =>
    obtain ⟨all, -, h⟩ := Outcome.bind_eq_ok.1 h
    cases hbuf : sysMalloc s₁ with
    | mk buf s₂ =>
    rw [hbuf] at h
    cases buf with
    | none => cases h
    | some buf =>
      obtain ⟨dirE, -, h⟩ := Outcome.bind_eq_ok.1 h
      obtain ⟨_, -, h⟩ := Outcome.bind_eq_ok.1 h
      obtain ⟨_, -, h⟩ := Outcome.bind_eq_ok.1 h
      cases h
      exact (looks_sysMalloc hall).trans (looks_sysMalloc hbuf)

theorem searchEnd_looks {parentDir : Dir} {parentInodeNo : Nat} {dirE : Option DirEntry}
    {searchedPath : List UInt8} {r : Option Nat} {record : PathSearchRecord}
    (h : searchEnd parentDir parentInodeNo dirE searchedPath s = .ok (r, record, s')) :
    Looks s s' := by
  obtain ⟨s₁, hclose, h⟩ := Outcome.bind_eq_ok.1 h
  obtain ⟨⟨dir, s₂⟩, hopen, h⟩ := Outcome.bind_eq_ok.1 h
  cases dirE with
  | none => cases h
  | some dirE =>
    cases h
    exact (dirClose_looks hclose).trans (dirOpen_spec hopen).1

theorem searchLoop_looks {fuel : Nat} {name : List UInt8} {subPath : Option (List UInt8)}
    {parentDir : Dir} {parentInodeNo : Nat} {dirE : Option DirEntry} {searchedPath : List UInt8}
    {r : Option Nat} {record : PathSearchRecord}
    (h : searchLoop fuel name subPath parentDir parentInodeNo dirE searchedPath s
      = .ok (r, record, s')) : Looks s s' := by
  induction fuel generalizing name subPath parentDir parentInodeNo dirE searchedPath s with
  | zero =>
      unfold searchLoop at h
      split at h
      · exact searchEnd_looks h
      · cases h
  | succ fuel ih =>
      unfold searchLoop at h
      split at h
      · exact searchEnd_looks h
      · obtain ⟨_, -, h⟩ := Outcome.bind_eq_ok.1 h
        obtain ⟨searchedPath', -, h⟩ := Outcome.bind_eq_ok.1 h
        obtain ⟨⟨found, s₁⟩, hsearch, h⟩ := Outcome.bind_eq_ok.1 h
        have hlook := searchDirEntry_looks hsearch
        cases found with
        | none =>
            cases h
            exact hlook
        | some de =>
            obtain ⟨⟨name', subPath'⟩, -, h⟩ := Outcome.bind_eq_ok.1 h
            simp only at h
            split at h
            · obtain ⟨s₂, hclose, h⟩ := Outcome.bind_eq_ok.1 h
              obtain ⟨⟨dir, s₃⟩, hopen, h⟩ := Outcome.bind_eq_ok.1 h
              exact hlook.trans ((dirClose_looks hclose).trans
                ((dirOpen_spec hopen).1.trans (ih h)))
            · split at h
              · cases h
                exact hlook
              · exact hlook.trans (ih h)

/-- `search_file` opens and closes directories. -/
theorem searchFile_looks {pathname : List UInt8} {r : Option Nat} {record : PathSearchRecord}
    (h : searchFile s pathname = .ok (r, record, s')) : Looks s s' := by
  unfold searchFile at h
  split at h
  · cases h
    exact .refl s
  · obtain ⟨_, -, h⟩ := Outcome.bind_eq_ok.1 h
    obtain ⟨⟨name, subPath⟩, -, h⟩ := Outcome.bind_eq_ok.1 h
    exact searchLoop_looks h

/-! ## Writing entries -/

theorem writes_setDisk (s : FsState) (d : Mem) : Writes s (s.setDisk d) :=
  ⟨rfl, fun _ => rfl, fun _ => rfl, fun _ => rfl⟩

/-- A field of all nodes that one node keeps. -/
theorem setInode_field {α : Type} {p : Nat} {ino : Inode} (f : Inode → α)
    (hf : f ino = f (s.inodes p)) (q : Nat) : f ((s.setInode p ino).inodes q) = f (s.inodes q) := by
  rw [FsState.setInode_inodes]
  by_cases hqp : q = p
  · rw [hqp, Function.update_self, hf]
  · rw [Function.update_of_ne hqp]

/-- A node with another size and other sectors. -/
theorem writes_setInode {p : Nat} {ino : Inode} (hno : ino.iNo = (s.inodes p).iNo)
    (hcnt : ino.iOpenCnt = (s.inodes p).iOpenCnt)
    (hdeny : ino.writeDeny = (s.inodes p).writeDeny) : Writes s (s.setInode p ino) :=
  ⟨rfl, setInode_field Inode.iNo hno, setInode_field Inode.iOpenCnt hcnt,
    setInode_field Inode.writeDeny hdeny⟩

theorem writes_setSize (s : FsState) (p n : Nat) :
    Writes s (s.setInode p ((s.inodes p).withSize n)) :=
  writes_setInode rfl rfl rfl

theorem ideWrite_writes {lba off cnt : Nat} {buf : Mem} (h : ideWrite s lba buf off cnt = .ok s') :
    Writes s s' := by
  obtain ⟨_, -, h⟩ := Outcome.bind_eq_ok.1 h
  obtain ⟨_, -, h⟩ := Outcome.bind_eq_ok.1 h
  cases h
  exact writes_setDisk s _

theorem bitmapSync_writes {bitIdx : Nat} {btmp : BitmapType}
    (h : bitmapSync s bitIdx btmp = .ok s') : Writes s s' := by
  cases btmp <;> exact ideWrite_writes h

theorem setBlockBit_writes {bitIdx : Nat} {value : Bool}
    (h : partBitmapSet s .blockBitmap bitIdx value = .ok s') : Writes s s' := by
  simp only [partBitmapSet] at h
  split at h
  · cases h
    exact ⟨rfl, fun _ => rfl, fun _ => rfl, fun _ => rfl⟩
  · cases h

theorem blockBitmapAlloc_writes {r : Option Nat} (h : blockBitmapAlloc s = .ok (r, s')) :
    Writes s s' := by
  obtain ⟨bitIdx, -, h⟩ := Outcome.bind_eq_ok.1 h
  cases bitIdx with
  | none =>
      cases h
      exact .refl s
  | some bitIdx =>
      obtain ⟨s₁, hset, h⟩ := Outcome.bind_eq_ok.1 h
      cases h
      exact setBlockBit_writes hset

theorem setSector_writes {p j lba : Nat} (h : setSector s p j lba = .ok s') : Writes s s' := by
  unfold setSector at h
  split at h
  · cases h
    exact writes_setInode rfl rfl rfl
  · cases h

/-! ## Taking blocks -/

/-- Writes that change no size. -/
structure Allots (s s' : FsState) : Prop extends Writes s s' where
  iSize : ∀ p, (s'.inodes p).iSize = (s.inodes p).iSize

theorem Allots.refl (s : FsState) : Allots s s := ⟨.refl s, fun _ => rfl⟩

theorem Allots.trans (h : Allots s s') (h' : Allots s' s'') : Allots s s'' :=
  ⟨h.toWrites.trans h'.toWrites, fun p => (h'.iSize p).trans (h.iSize p)⟩

theorem Writes.mallocCnt (h : Writes s s') : s'.mallocCnt = s.mallocCnt := by rw [h.same]

theorem ideWrite_allots {lba off cnt : Nat} {buf : Mem} (h : ideWrite s lba buf off cnt = .ok s') :
    Allots s s' := by
  refine ⟨ideWrite_writes h, fun p => ?_⟩
  obtain ⟨_, -, h⟩ := Outcome.bind_eq_ok.1 h
  obtain ⟨_, -, h⟩ := Outcome.bind_eq_ok.1 h
  cases h
  rfl

theorem bitmapSync_allots {bitIdx : Nat} {btmp : BitmapType}
    (h : bitmapSync s bitIdx btmp = .ok s') : Allots s s' := by
  cases btmp <;> exact ideWrite_allots h

theorem setBlockBit_allots {bitIdx : Nat} {value : Bool}
    (h : partBitmapSet s .blockBitmap bitIdx value = .ok s') : Allots s s' := by
  refine ⟨setBlockBit_writes h, fun p => ?_⟩
  simp only [partBitmapSet] at h
  split at h
  · cases h
    rfl
  · cases h

theorem blockBitmapAlloc_allots {r : Option Nat} (h : blockBitmapAlloc s = .ok (r, s')) :
    Allots s s' := by
  obtain ⟨bitIdx, -, h⟩ := Outcome.bind_eq_ok.1 h
  cases bitIdx with
  | none =>
      cases h
      exact .refl _
  | some bitIdx =>
      obtain ⟨s₁, hset, h⟩ := Outcome.bind_eq_ok.1 h
      cases h
      exact setBlockBit_allots hset

theorem setSector_allots {p j lba : Nat} (h : setSector s p j lba = .ok s') : Allots s s' := by
  refine ⟨setSector_writes h, fun q => ?_⟩
  unfold setSector at h
  split at h
  · cases h
    exact setInode_field Inode.iSize (Inode.withSectors_iSize ..) q
  · cases h

theorem recordBlock_allots {record : Bool} {p blockIdx lba : Nat}
    (h : recordBlock record p blockIdx lba s = .ok s') : Allots s s' := by
  unfold recordBlock at h
  split at h
  · obtain ⟨_, -, h⟩ := Outcome.bind_eq_ok.1 h
    exact setSector_allots h
  · cases h
    exact .refl _

theorem allocBlock_allots {record : Nat → Bool} {p blockIdx : Nat} {all : Nat → Nat}
    {r : Option (Nat → Nat)} (h : allocBlock record p blockIdx all s = .ok (r, s')) :
    Allots s s' := by
  obtain ⟨⟨lba, s₁⟩, halloc, h⟩ := Outcome.bind_eq_ok.1 h
  have hkeep := blockBitmapAlloc_allots halloc
  cases lba with
  | none =>
      cases h
      exact hkeep
  | some lba =>
      obtain ⟨s₂, hrecord, h⟩ := Outcome.bind_eq_ok.1 h
      obtain ⟨s₃, hsync, h⟩ := Outcome.bind_eq_ok.1 h
      cases h
      exact hkeep.trans ((recordBlock_allots hrecord).trans (bitmapSync_allots hsync))

theorem allocBlocks_allots {record : Nat → Bool} {p left blockIdx : Nat} {all : Nat → Nat}
    {r : Option (Nat → Nat)} (h : allocBlocks record p left blockIdx all s = .ok (r, s')) :
    Allots s s' := by
  induction left generalizing blockIdx all s with
  | zero =>
      cases h
      exact .refl _
  | succ left ih =>
      obtain ⟨⟨all₁, s₁⟩, hblock, h⟩ := Outcome.bind_eq_ok.1 h
      have hkeep := allocBlock_allots hblock
      cases all₁ with
      | none =>
          cases h
          exact hkeep
      | some all₁ => exact hkeep.trans (ih h)

theorem firstBlock_allots {p : Nat} {ok : Bool} (h : firstBlock p s = .ok (ok, s')) :
    Allots s s' := by
  unfold firstBlock at h
  split at h
  · obtain ⟨⟨lba, s₁⟩, halloc, h⟩ := Outcome.bind_eq_ok.1 h
    have hkeep := blockBitmapAlloc_allots halloc
    cases lba with
    | none =>
        cases h
        exact hkeep
    | some lba =>
        obtain ⟨s₂, hset, h⟩ := Outcome.bind_eq_ok.1 h
        obtain ⟨_, -, h⟩ := Outcome.bind_eq_ok.1 h
        obtain ⟨s₃, hsync, h⟩ := Outcome.bind_eq_ok.1 h
        cases h
        exact hkeep.trans ((setSector_allots hset).trans (bitmapSync_allots hsync))
  · cases h
    exact .refl _

/-- `all_blocks_lba` is built without changing a size. -/
theorem mapBlocks_allots {p used will : Nat} {r : Option (Nat → Nat)}
    (h : mapBlocks p used will s = .ok (r, s')) : Allots s s' := by
  unfold mapBlocks at h
  split at h
  · obtain ⟨all, -, h⟩ := Outcome.bind_eq_ok.1 h
    cases h
    exact .refl _
  · split at h
    · obtain ⟨_, -, h⟩ := Outcome.bind_eq_ok.1 h
      exact allocBlocks_allots h
    · split at h
      · obtain ⟨⟨table, s₁⟩, halloc, h⟩ := Outcome.bind_eq_ok.1 h
        have hkeep := blockBitmapAlloc_allots halloc
        cases table with
        | none =>
            cases h
            exact hkeep
        | some table =>
            obtain ⟨_, -, h⟩ := Outcome.bind_eq_ok.1 h
            obtain ⟨s₂, hset, h⟩ := Outcome.bind_eq_ok.1 h
            obtain ⟨⟨all, s₃⟩, hblocks, h⟩ := Outcome.bind_eq_ok.1 h
            have hkeep' := hkeep.trans ((setSector_allots hset).trans (allocBlocks_allots hblocks))
            cases all with
            | none =>
                cases h
                exact hkeep'
            | some all =>
                obtain ⟨s₄, hwrite, h⟩ := Outcome.bind_eq_ok.1 h
                cases h
                exact hkeep'.trans (ideWrite_allots hwrite)
      · obtain ⟨_, -, h⟩ := Outcome.bind_eq_ok.1 h
        obtain ⟨all, -, h⟩ := Outcome.bind_eq_ok.1 h
        obtain ⟨⟨all, s₃⟩, hblocks, h⟩ := Outcome.bind_eq_ok.1 h
        have hkeep := allocBlocks_allots hblocks
        cases all with
        | none =>
            cases h
            exact hkeep
        | some all =>
            obtain ⟨s₄, hwrite, h⟩ := Outcome.bind_eq_ok.1 h
            cases h
            exact hkeep.trans (ideWrite_allots hwrite)

/-! ## Adding an entry -/

theorem inodeSync_writes {inode : Inode} {ioBuf : Mem} (h : inodeSync s inode ioBuf = .ok s') :
    Writes s s' := by
  obtain ⟨pos, -, h⟩ := Outcome.bind_eq_ok.1 h
  obtain ⟨_, -, h⟩ := Outcome.bind_eq_ok.1 h
  obtain ⟨buf, -, h⟩ := Outcome.bind_eq_ok.1 h
  exact ideWrite_writes h

theorem writeFirstEntry_writes {p lba : Nat} {de : DirEntry} {ok : Bool}
    (h : writeFirstEntry p de lba s = .ok (ok, s')) : Writes s s' := by
  obtain ⟨s₁, hwrite, h⟩ := Outcome.bind_eq_ok.1 h
  cases h
  exact (ideWrite_writes hwrite).trans (writes_setSize ..)

theorem syncFirstIndirect_writes {p lba : Nat} {de : DirEntry} {all : Nat → Nat} {ok : Bool}
    (h : syncFirstIndirect p de lba all s = .ok (ok, s')) : Writes s s' := by
  obtain ⟨s₁, hset, h⟩ := Outcome.bind_eq_ok.1 h
  obtain ⟨⟨data, s₂⟩, halloc, h⟩ := Outcome.bind_eq_ok.1 h
  have hkeep := (setSector_writes hset).trans (blockBitmapAlloc_writes halloc)
  cases data with
  | none =>
      obtain ⟨s₃, hclear, h⟩ := Outcome.bind_eq_ok.1 h
      obtain ⟨s₄, hset', h⟩ := Outcome.bind_eq_ok.1 h
      cases h
      exact hkeep.trans ((setBlockBit_writes hclear).trans (setSector_writes hset'))
  | some data =>
      obtain ⟨_, -, h⟩ := Outcome.bind_eq_ok.1 h
      obtain ⟨s₃, hsync, h⟩ := Outcome.bind_eq_ok.1 h
      obtain ⟨s₄, hwrite, h⟩ := Outcome.bind_eq_ok.1 h
      exact hkeep.trans ((bitmapSync_writes hsync).trans
        ((ideWrite_writes hwrite).trans (writeFirstEntry_writes h)))

theorem syncNewBlock_writes {p blockIdx : Nat} {de : DirEntry} {all : Nat → Nat} {ok : Bool}
    (h : syncNewBlock p de blockIdx all s = .ok (ok, s')) : Writes s s' := by
  obtain ⟨⟨lba, s₁⟩, halloc, h⟩ := Outcome.bind_eq_ok.1 h
  have hkeep := blockBitmapAlloc_writes halloc
  cases lba with
  | none =>
      cases h
      exact hkeep
  | some lba =>
      obtain ⟨_, -, h⟩ := Outcome.bind_eq_ok.1 h
      obtain ⟨s₂, hsync, h⟩ := Outcome.bind_eq_ok.1 h
      have hkeep' := hkeep.trans (bitmapSync_writes hsync)
      split at h
      · obtain ⟨s₃, hset, h⟩ := Outcome.bind_eq_ok.1 h
        exact hkeep'.trans ((setSector_writes hset).trans (writeFirstEntry_writes h))
      · split at h
        · exact hkeep'.trans (syncFirstIndirect_writes h)
        · obtain ⟨s₃, hwrite, h⟩ := Outcome.bind_eq_ok.1 h
          exact hkeep'.trans ((ideWrite_writes hwrite).trans (writeFirstEntry_writes h))

theorem syncBlocks_writes {p left blockIdx : Nat} {de : DirEntry} {all : Nat → Nat} {ok : Bool}
    (h : syncBlocks p de all left blockIdx s = .ok (ok, s')) : Writes s s' := by
  induction left generalizing blockIdx with
  | zero =>
      cases h
      exact .refl s
  | succ left ih =>
      unfold syncBlocks at h
      split at h
      · exact syncNewBlock_writes h
      · obtain ⟨buf, -, h⟩ := Outcome.bind_eq_ok.1 h
        split at h
        · obtain ⟨s₁, hwrite, h⟩ := Outcome.bind_eq_ok.1 h
          cases h
          exact (ideWrite_writes hwrite).trans (writes_setSize ..)
        · exact ih h

/-- `sync_dir_entry` writes blocks, the parent's sectors and its size. -/
theorem syncDirEntry_writes {p : Nat} {de : DirEntry} {ok : Bool}
    (h : syncDirEntry s p de = .ok (ok, s')) : Writes s s' := by
  obtain ⟨_, -, h⟩ := Outcome.bind_eq_ok.1 h
  exact syncBlocks_writes h

/-! ## Deleting an entry -/

theorem dropIndirect_writes {p : Nat} {all : Nat → Nat} (h : dropIndirect p all s = .ok s') :
    Writes s s' := by
  unfold dropIndirect at h
  split at h
  · cases h
  · obtain ⟨_, -, h⟩ := Outcome.bind_eq_ok.1 h
    obtain ⟨s₁, hclear, h⟩ := Outcome.bind_eq_ok.1 h
    obtain ⟨s₂, hsync, h⟩ := Outcome.bind_eq_ok.1 h
    exact (setBlockBit_writes hclear).trans ((bitmapSync_writes hsync).trans (setSector_writes h))

theorem dropBlock_writes {p blockIdx : Nat} {all : Nat → Nat}
    (h : dropBlock p all blockIdx s = .ok s') : Writes s s' := by
  obtain ⟨s₁, hclear, h⟩ := Outcome.bind_eq_ok.1 h
  obtain ⟨s₂, hsync, h⟩ := Outcome.bind_eq_ok.1 h
  have hkeep := (setBlockBit_writes hclear).trans (bitmapSync_writes hsync)
  split at h
  · exact hkeep.trans (setSector_writes h)
  · exact hkeep.trans (dropIndirect_writes h)

theorem clearEntry_writes {p blockIdx cnt i : Nat} {all : Nat → Nat} {first : Bool} {buf : Mem}
    (h : clearEntry p all blockIdx cnt first buf i s = .ok s') : Writes s s' := by
  unfold clearEntry at h
  split at h
  · exact dropBlock_writes h
  · exact ideWrite_writes h

theorem removeEntry_writes {p blockIdx cnt i : Nat} {all : Nat → Nat} {first : Bool} {buf : Mem}
    (h : removeEntry p all blockIdx cnt first buf i s = .ok s') : Writes s s' := by
  obtain ⟨_, -, h⟩ := Outcome.bind_eq_ok.1 h
  obtain ⟨s₁, hclear, h⟩ := Outcome.bind_eq_ok.1 h
  obtain ⟨_, -, h⟩ := Outcome.bind_eq_ok.1 h
  exact (clearEntry_writes hclear).trans ((writes_setSize ..).trans (inodeSync_writes h))

theorem deleteBlocks_writes {p inodeNo left blockIdx : Nat} {all : Nat → Nat} {ok : Bool}
    (h : deleteBlocks p inodeNo all left blockIdx s = .ok (ok, s')) : Writes s s' := by
  induction left generalizing blockIdx with
  | zero =>
      cases h
      exact .refl s
  | succ left ih =>
      unfold deleteBlocks at h
      split at h
      · exact ih h
      · obtain ⟨buf, -, h⟩ := Outcome.bind_eq_ok.1 h
        split at h
        · obtain ⟨s₁, hremove, h⟩ := Outcome.bind_eq_ok.1 h
          cases h
          exact removeEntry_writes hremove
        · exact ih h

/-- `delete_dir_entry` writes blocks, the directory's sectors and its size. -/
theorem deleteDirEntry_writes {p inodeNo : Nat} {ok : Bool}
    (h : deleteDirEntry s p inodeNo = .ok (ok, s')) : Writes s s' := by
  obtain ⟨all, -, h⟩ := Outcome.bind_eq_ok.1 h
  exact deleteBlocks_writes h

/-! ## Releasing blocks -/

theorem freeBlock_writes {lba : Nat} (h : freeBlock s lba = .ok s') : Writes s s' := by
  obtain ⟨_, -, h⟩ := Outcome.bind_eq_ok.1 h
  obtain ⟨s₁, hclear, h⟩ := Outcome.bind_eq_ok.1 h
  exact (setBlockBit_writes hclear).trans (bitmapSync_writes h)

theorem freeBlocks_writes {all : Nat → Nat} {left blockIdx : Nat}
    (h : freeBlocks all left blockIdx s = .ok s') : Writes s s' := by
  induction left generalizing blockIdx s with
  | zero =>
      cases h
      exact .refl _
  | succ left ih =>
      obtain ⟨s₁, hentry, h⟩ := Outcome.bind_eq_ok.1 h
      refine Writes.trans ?_ (ih h)
      unfold freeEntry at hentry
      split at hentry
      · exact freeBlock_writes hentry
      · cases hentry
        exact .refl s

theorem releaseTable_writes {ino : Inode} {all : Nat → Nat} {blockCnt : Nat}
    (h : releaseTable s ino = .ok (all, blockCnt, s')) : Writes s s' := by
  unfold releaseTable at h
  split at h
  · obtain ⟨_, -, h⟩ := Outcome.bind_eq_ok.1 h
    obtain ⟨s₁, hfree, h⟩ := Outcome.bind_eq_ok.1 h
    cases h
    exact freeBlock_writes hfree
  · cases h
    exact .refl s

theorem inodeDelete_writes {inodeNo : Nat} {ioBuf : Mem} (h : inodeDelete s inodeNo ioBuf = .ok s') :
    Writes s s' := by
  obtain ⟨_, -, h⟩ := Outcome.bind_eq_ok.1 h
  obtain ⟨pos, -, h⟩ := Outcome.bind_eq_ok.1 h
  obtain ⟨_, -, h⟩ := Outcome.bind_eq_ok.1 h
  obtain ⟨buf, -, h⟩ := Outcome.bind_eq_ok.1 h
  exact ideWrite_writes h

end Fs
end JackOS
