/-
  JackOS.Fs.Install

  `write_user_prog` of kernel/main.c, which copies sectors of the system disk
  into a new file, one `sys_write` for each.  A write of one sector at a sector
  boundary never crosses from the direct blocks into the table and back, so the
  file grows as it should; `Copied` is the invariant of the loop.
-/

import JackOS.Fs.Descriptors
import JackOS.Fs.Entries

namespace JackOS
namespace Fs

open Base

/-! ## The program -/

/-- `io_buf` with sector `lba` of the source disk. -/
def sectorBuf (src : Mem) (lba : Nat) : Mem := (Mem.zero.fill 0 255 512).copy 0 src (lba * 512) 512

/-- The copy loop of `write_user_prog`, with `left` sectors to go: whether all
    were written. -/
def copyLoop (out : FsState → Int → Mem → Nat → Outcome (Int × FsState)) (src : Mem) (fd : Int) :
    (left lbaToRead : Nat) → FsState → Outcome (Bool × FsState)
  | 0, _, s => .ok (true, s)
  | left + 1, lbaToRead, s => do
      kassert s (lbaToRead ≤ maxLba)
      let (n, s) ← sysWrite out s fd (sectorBuf src lbaToRead) 512
      if n = -1 then .ok (false, s) else copyLoop out src fd left (u32 (lbaToRead + 1)) s

/-- `DIV_CEILING(file_size, buf_size)` -/
def readTimes (fileSize : Nat) : Nat := u32 (fileSize + 511) / 512

/-- `O_CREAT | O_RDWD` -/
abbrev createFlags : Nat := 6

/-- `write_user_prog`.  The -1 it returns when the file cannot be opened is
    true. -/
def writeUserProg (out : FsState → Int → Mem → Nat → Outcome (Int × FsState)) (src : Mem)
    (s : FsState) (fileSize startLba : Nat) (pathname : List UInt8) : Outcome (Bool × FsState) :=
  let (ioBuf, s) := sysMalloc s
  match ioBuf with
  | none => .ok (false, s)
  | some ioBuf => do
      let (fd, s) ← sysOpen s pathname createFlags
      if fd = -1 then .ok (true, s)
      else
        let _ ← fdLocal2Global s fd
        let (copied, s) ← copyLoop out src fd (readTimes fileSize) startLba s
        if copied = false then .ok (false, s)
        else
          let (_, s) ← sysClose s fd
          sysFree s ioBuf
          .ok (true, s)

variable {s s' : FsState}

/-! ## Creating the file -/

/-- From `s` to `s'` blocks may have been taken and buffers requested; the
    partition is laid out as it was. -/
structure KeepsPart (s s' : FsState) : Prop where
  layout : Layout s → Layout s'
  freeOnDisk : FreeOnDisk s → FreeOnDisk s'
  mallocOk : s'.mallocOk = s.mallocOk

theorem KeepsPart.trans {s'' : FsState} (h : KeepsPart s s') (h' : KeepsPart s' s'') :
    KeepsPart s s'' :=
  ⟨h'.layout ∘ h.layout, h'.freeOnDisk ∘ h.freeOnDisk, h'.mallocOk.trans h.mallocOk⟩

/-- The layout is one of the superblock, the block bitmap and the size of the
    inode bitmap. -/
theorem keepsPart_setPart {part : Partition} (hstart : part.startLba = s.part.startLba)
    (hsec : part.secCnt = s.part.secCnt) (hsb : part.sb = s.part.sb)
    (hblock : part.blockBitmap = s.part.blockBitmap)
    (hinode : part.inodeBitmap.btmpByteLen = s.part.inodeBitmap.btmpByteLen) :
    KeepsPart s (s.setPart part) := by
  refine ⟨fun h => ?_, fun h b hb hclear => ?_, rfl⟩
  · have htable : InodeTableOnDisk (s.setPart part) := by
      refine ⟨?_, ?_⟩
      · rw [FsState.setPart_part, hsb]
        exact h.table.onDisk
      · rw [FsState.setPart_part, hsb, hstart, hsec]
        exact h.table.inPartition
    refine ⟨htable, ?_, ?_, ?_, ?_, ?_, ?_, ?_, ?_⟩
    all_goals rw [FsState.setPart_part]
    · rw [hsb]
      exact h.bootSector
    · rw [hsb, hblock]
      exact h.blockLen
    · rw [hinode]
      exact h.inodeLen
    · rw [hsb]
      exact h.blockMap_le
    · rw [hsb]
      exact h.inodeMap_lt
    · rw [hsb]
      exact h.table_le
    · rw [hsb]
      exact h.data_le
    · rw [hblock]
      exact h.rootBit
  · rw [FsState.setPart_part, hblock] at hclear
    have hbits : b < blockBits s := by
      rw [blockBits, FsState.setPart_part, hblock] at hb
      exact hb
    rw [FsState.setPart_part, hsb]
    exact h b hbits hclear

theorem Looks.keepsPart (h : Looks s s') : KeepsPart s s' := by
  have hpart : KeepsPart s (s.setPart { s.part with openInodes := s'.part.openInodes }) :=
    keepsPart_setPart rfl rfl rfl rfl rfl
  rw [h.same]
  exact ⟨fun hs => (hpart.layout hs).congr rfl, hpart.freeOnDisk, rfl⟩

theorem keepsPart_setDisk (s : FsState) (d : Mem) : KeepsPart s (s.setDisk d) :=
  ⟨fun h => h.setDisk d, id, rfl⟩

theorem keepsPart_setInode (s : FsState) (p : Nat) (ino : Inode) : KeepsPart s (s.setInode p ino) :=
  ⟨fun h => h.setInode p ino, id, rfl⟩

theorem keepsPart_take (s : FsState) (b : Nat) : KeepsPart s (setBlockBit s b true) := by
  refine ⟨fun h => h.take b s.disk, fun h c hc hclear => h c hc ?_, rfl⟩
  rw [setBlockBit_bits, bitAt_setBitAt] at hclear
  split at hclear
  · cases hclear
  · exact hclear

/-- From `s` to `s'` blocks may have been taken and written; no node changed but
    node `p`. -/
structure GrowsDir (s s' : FsState) (p : Nat) : Prop extends KeepsPart s s' where
  inodes : ∀ q, q ≠ p → s'.inodes q = s.inodes q

variable {p : Nat}

theorem GrowsDir.trans {s'' : FsState} (h : GrowsDir s s' p) (h' : GrowsDir s' s'' p) :
    GrowsDir s s'' p :=
  ⟨h.toKeepsPart.trans h'.toKeepsPart, fun q hq => (h'.inodes q hq).trans (h.inodes q hq)⟩

theorem growsDir_setInode (s : FsState) (p : Nat) (ino : Inode) : GrowsDir s (s.setInode p ino) p :=
  ⟨keepsPart_setInode s p ino, fun _ hq => Function.update_of_ne hq _ _⟩

theorem ideWrite_growsDir {lba off cnt : Nat} {buf : Mem} (h : ideWrite s lba buf off cnt = .ok s') :
    GrowsDir s s' p := by
  obtain ⟨_, -, h⟩ := Outcome.bind_eq_ok.1 h
  obtain ⟨_, -, h⟩ := Outcome.bind_eq_ok.1 h
  cases h
  exact ⟨keepsPart_setDisk s _, fun _ _ => rfl⟩

theorem bitmapSync_growsDir {bitIdx : Nat} {btmp : BitmapType}
    (h : bitmapSync s bitIdx btmp = .ok s') : GrowsDir s s' p := by
  cases btmp <;> exact ideWrite_growsDir h

theorem blockBitmapAlloc_growsDir {lba : Nat} (h : blockBitmapAlloc s = .ok (some lba, s')) :
    GrowsDir s s' p := by
  obtain ⟨b, -, -, rfl⟩ := blockBitmapAlloc_some h
  exact ⟨keepsPart_take s b, fun _ _ => rfl⟩

theorem setSector_growsDir {j lba : Nat} (h : setSector s p j lba = .ok s') : GrowsDir s s' p := by
  obtain ⟨-, rfl⟩ := setSector_eq_ok.1 h
  exact growsDir_setInode s p _

theorem inodeSync_growsDir {inode : Inode} {ioBuf : Mem} (h : inodeSync s inode ioBuf = .ok s') :
    GrowsDir s s' p := by
  obtain ⟨pos, -, h⟩ := Outcome.bind_eq_ok.1 h
  obtain ⟨_, -, h⟩ := Outcome.bind_eq_ok.1 h
  obtain ⟨buf, -, h⟩ := Outcome.bind_eq_ok.1 h
  exact ideWrite_growsDir h

theorem writeFirstEntry_growsDir {de : DirEntry} {lba : Nat} {ok : Bool}
    (h : writeFirstEntry p de lba s = .ok (ok, s')) : GrowsDir s s' p := by
  obtain ⟨s₁, hwrite, h⟩ := Outcome.bind_eq_ok.1 h
  cases h
  exact (ideWrite_growsDir hwrite).trans (growsDir_setInode s₁ p _)

/-- Where it returns false, a bit of the map is given back. -/
theorem syncFirstIndirect_growsDir {de : DirEntry} {lba : Nat} {all : Nat → Nat}
    (h : syncFirstIndirect p de lba all s = .ok (true, s')) : GrowsDir s s' p := by
  obtain ⟨s₁, hset, h⟩ := Outcome.bind_eq_ok.1 h
  obtain ⟨⟨data, s₂⟩, halloc, h⟩ := Outcome.bind_eq_ok.1 h
  cases data with
  | none =>
      obtain ⟨s₃, -, h⟩ := Outcome.bind_eq_ok.1 h
      obtain ⟨s₄, -, h⟩ := Outcome.bind_eq_ok.1 h
      cases h
  | some data =>
      obtain ⟨_, -, h⟩ := Outcome.bind_eq_ok.1 h
      obtain ⟨s₃, hsync, h⟩ := Outcome.bind_eq_ok.1 h
      obtain ⟨s₄, hwrite, h⟩ := Outcome.bind_eq_ok.1 h
      have h₂ := (setSector_growsDir hset).trans (blockBitmapAlloc_growsDir halloc)
      have h₄ : GrowsDir s₂ s₄ p := (bitmapSync_growsDir hsync).trans (ideWrite_growsDir hwrite)
      exact h₂.trans (h₄.trans (writeFirstEntry_growsDir h))

theorem syncNewBlock_growsDir {de : DirEntry} {blockIdx : Nat} {all : Nat → Nat}
    (h : syncNewBlock p de blockIdx all s = .ok (true, s')) : GrowsDir s s' p := by
  obtain ⟨⟨lba, s₁⟩, halloc, h⟩ := Outcome.bind_eq_ok.1 h
  cases lba with
  | none => cases h
  | some lba =>
      obtain ⟨_, -, h⟩ := Outcome.bind_eq_ok.1 h
      obtain ⟨s₂, hsync, h⟩ := Outcome.bind_eq_ok.1 h
      have h₂ : GrowsDir s s₂ p :=
        (blockBitmapAlloc_growsDir halloc).trans (bitmapSync_growsDir hsync)
      refine h₂.trans ?_
      split at h
      · obtain ⟨s₃, hset, h⟩ := Outcome.bind_eq_ok.1 h
        exact (setSector_growsDir hset).trans (writeFirstEntry_growsDir h)
      · split at h
        · exact syncFirstIndirect_growsDir h
        · obtain ⟨s₃, hwrite, h⟩ := Outcome.bind_eq_ok.1 h
          exact (ideWrite_growsDir hwrite).trans (writeFirstEntry_growsDir h)

theorem syncBlocks_growsDir {de : DirEntry} {left blockIdx : Nat} {all : Nat → Nat}
    (h : syncBlocks p de all left blockIdx s = .ok (true, s')) : GrowsDir s s' p := by
  induction left generalizing blockIdx with
  | zero => cases h
  | succ left ih =>
      unfold syncBlocks at h
      split at h
      · exact syncNewBlock_growsDir h
      · obtain ⟨buf, -, h⟩ := Outcome.bind_eq_ok.1 h
        split at h
        · obtain ⟨s₁, hwrite, h⟩ := Outcome.bind_eq_ok.1 h
          cases h
          exact (ideWrite_growsDir hwrite).trans (growsDir_setInode s₁ p _)
        · exact ih h

/-- A `sync_dir_entry` that returns true changes no node but the directory's,
    and gives no block back. -/
theorem syncDirEntry_growsDir {de : DirEntry} (h : syncDirEntry s p de = .ok (true, s')) :
    GrowsDir s s' p := by
  obtain ⟨_, -, h⟩ := Outcome.bind_eq_ok.1 h
  exact syncBlocks_growsDir h

/-- Node `p` holds an empty file. -/
structure EmptyNode (s : FsState) (p : Nat) : Prop where
  size : (s.inodes p).iSize = 0
  sectors : ∀ j, (s.inodes p).iSectors j = 0

/-- A change of the open count or of the lock. -/
theorem EmptyNode.congr (h : EmptyNode s p) (hsize : (s'.inodes p).iSize = (s.inodes p).iSize)
    (hsec : (s'.inodes p).iSectors = (s.inodes p).iSectors) : EmptyNode s' p :=
  ⟨hsize.trans h.size, fun j => by rw [hsec, h.sectors]⟩

theorem GrowsDir.emptyNode {dir : Nat} (h : GrowsDir s s' dir) (hne : p ≠ dir)
    (hempty : EmptyNode s p) : EmptyNode s' p := by
  apply hempty.congr
  · rw [h.inodes p hne]
  · rw [h.inodes p hne]

theorem Looks.emptyNode (h : Looks s s') (hp : p < s.nextNode) (hempty : EmptyNode s p) :
    EmptyNode s' p := by
  apply hempty.congr
  · rw [h.node p hp]
  · rw [h.node p hp]

/-- The end of a successful `file_create`: the directory has its new entry, and
    the new node is as empty as before. -/
theorem createInDir_empty {parentDir : Dir} {filename : List UInt8} {inodeNo fdIdx : Nat}
    {node ioBuf : HeapBlock} {fd : Int}
    (h : createInDir parentDir filename inodeNo fdIdx p node ioBuf s = .ok (fd, s')) (hfd : fd ≠ -1)
    (hne : p ≠ parentDir.inode) (hempty : EmptyNode s p) :
    KeepsPart s s' ∧ EmptyNode s' p ∧ s'.fileTable = s.fileTable := by
  obtain ⟨de, -, h⟩ := Outcome.bind_eq_ok.1 h
  obtain ⟨⟨synced, s₁⟩, hsync, h⟩ := Outcome.bind_eq_ok.1 h
  cases synced with
  | false => exact absurd (rollbackNode_refuses h).1 hfd
  | true =>
      obtain ⟨s₂, hparent, h⟩ := Outcome.bind_eq_ok.1 h
      obtain ⟨s₃, hnew, h⟩ := Outcome.bind_eq_ok.1 h
      obtain ⟨s₄, hbit, h⟩ := Outcome.bind_eq_ok.1 h
      obtain ⟨_, -, h⟩ := Outcome.bind_eq_ok.1 h
      have hwrites := (syncDirEntry_writes hsync).trans ((inodeSync_writes hparent).trans
        ((inodeSync_writes hnew).trans (bitmapSync_writes hbit)))
      have hgrows : GrowsDir s s₄ parentDir.inode := (syncDirEntry_growsDir hsync).trans
        ((inodeSync_growsDir hparent).trans
          ((inodeSync_growsDir hnew).trans (bitmapSync_growsDir hbit)))
      obtain ⟨task, htask⟩ := pcbFdInstall_state
        ((s₄.pushOpen p).setInode p { (s₄.pushOpen p).inodes p with iOpenCnt := 1 }) fdIdx
      have hfin : s' = ((s₄.pushOpen p).setInode p
          { (s₄.pushOpen p).inodes p with iOpenCnt := 1 }).setTask task :=
        (congrArg Prod.snd (Except.ok.inj h)).symm.trans htask
      have hnode : s'.inodes p = { s₄.inodes p with iOpenCnt := 1 } := by
        rw [hfin]
        exact Function.update_self ..
      have hpush : KeepsPart s₄ (s₄.pushOpen p) := keepsPart_setPart rfl rfl rfl rfl rfl
      have hkeep : KeepsPart s₄ s' := by
        rw [hfin]
        exact ⟨fun hs => (hpush.layout hs).congr rfl, hpush.freeOnDisk, rfl⟩
      refine ⟨hgrows.toKeepsPart.trans hkeep, ?_, ?_⟩
      · apply (hgrows.emptyNode hne hempty).congr
        · rw [hnode]
        · rw [hnode]
      · rw [hfin]
        exact hwrites.keepsFds.fileTable

/-- A successful `file_create` from the new inode number on. -/
theorem createNode_empty {parentDir : Dir} {filename : List UInt8} {flag inodeNo : Nat}
    {ioBuf : HeapBlock} {fd : Int}
    (h : createNode parentDir filename flag inodeNo ioBuf s = .ok (fd, s')) (hfd : fd ≠ -1)
    (hparent : parentDir.inode < s.nextNode) :
    KeepsPart s s' ∧ EmptyNode s' s.nextNode ∧ ∃ slot, getFreeSlotInGlobal s = some slot
      ∧ (s'.fileTable slot).fdInode = some s.nextNode := by
  unfold createNode at h
  simp only at h
  cases hnode : sysMalloc (s.setPgdir none) with
  | mk node s₁ =>
  rw [hnode] at h
  have hs₁ := sysMalloc_state hnode
  cases node with
  | none => exact absurd (rollbackInodeNo_refuses h).1 hfd
  | some node =>
      let s₂ := (s₁.newNode (inodeInit inodeNo)).setPgdir s.task.pgdir
      have hnext : s₁.nextNode = s.nextNode := by rw [hs₁]; rfl
      have hslot₂ : getFreeSlotInGlobal s₂ = getFreeSlotInGlobal s := by
        have htable : s₂.fileTable = s.fileTable := by
          show s₁.fileTable = s.fileTable
          rw [hs₁]
          rfl
        rw [getFreeSlotInGlobal, getFreeSlotInGlobal, htable]
      have hkeep₂ : KeepsPart s s₂ := by
        have hpart : s₂.part = s.part := by
          show s₁.part = s.part
          rw [hs₁]
          rfl
        refine ⟨fun hs => hs.congr hpart, fun hdisk b hb hclear => ?_, ?_⟩
        · rw [hpart] at hclear ⊢
          rw [blockBits, hpart] at hb
          exact hdisk b hb hclear
        · show s₁.mallocOk = s.mallocOk
          rw [hs₁]
          rfl
      simp only at h
      cases hslot : getFreeSlotInGlobal s₂ with
      | none =>
          rw [hslot] at h
          exact absurd (rollbackNode_refuses h).1 hfd
      | some slot =>
          rw [hslot] at h
          let s₃ := (s₂.setFd slot ⟨0, flag, some s₁.nextNode⟩).setInode s₁.nextNode
              { s₂.inodes s₁.nextNode with writeDeny := false }
          have h : createInDir parentDir filename inodeNo slot s₁.nextNode node ioBuf s₃
              = .ok (fd, s') := h
          have hnew : s₃.inodes s₁.nextNode = { inodeInit inodeNo with writeDeny := false } := by
            have hinit : s₂.inodes s₁.nextNode = inodeInit inodeNo := Function.update_self ..
            show Function.update s₂.inodes s₁.nextNode
              { s₂.inodes s₁.nextNode with writeDeny := false } s₁.nextNode = _
            rw [Function.update_self, hinit]
          have hempty : EmptyNode s₃ s₁.nextNode :=
            ⟨by rw [hnew]; rfl, fun j => by rw [hnew]; rfl⟩
          have hne : s₁.nextNode ≠ parentDir.inode := by omega
          have hkeep₃ : KeepsPart s₂ s₃ := ⟨fun hs => hs.congr rfl, id, rfl⟩
          obtain ⟨hkeep, hempty', htable⟩ := createInDir_empty h hfd hne hempty
          rw [← hnext]
          refine ⟨hkeep₂.trans (hkeep₃.trans hkeep), hempty', slot, hslot₂ ▸ hslot, ?_⟩
          rw [htable]
          show ((Function.update s₂.fileTable slot _) slot).fdInode = _
          rw [Function.update_self]

/-- A successful `file_create`: a free descriptor leads to the new node. -/
theorem fileCreate_empty {parentDir : Dir} {filename : List UInt8} {flag : Nat} {fd : Int}
    (h : fileCreate s parentDir filename flag = .ok (fd, s')) (hfd : fd ≠ -1)
    (hparent : parentDir.inode < s.nextNode) :
    ∃ slot q, KeepsPart s s' ∧ EmptyNode s' q ∧ Enters s s' fd slot q flag := by
  have hcall := h
  unfold fileCreate at h
  cases hbuf : sysMalloc s with
  | mk ioBuf s₁ =>
  rw [hbuf] at h
  have hs₁ := sysMalloc_state hbuf
  cases ioBuf with
  | none =>
      cases h
      exact absurd rfl hfd
  | some ioBuf =>
      obtain ⟨⟨inodeNo, s₂⟩, halloc, h⟩ := Outcome.bind_eq_ok.1 h
      cases inodeNo with
      | none =>
          cases h
          exact absurd rfl hfd
      | some inodeNo =>
          have hs₂ := setInodeBit_eq (inodeBitmapAlloc_some halloc).2
          have hnext : s₂.nextNode = s.nextNode := by
            rw [hs₂, hs₁]
            rfl
          have hslot₂ : getFreeSlotInGlobal s₂ = getFreeSlotInGlobal s := by
            rw [hs₂, hs₁]
            rfl
          have hkeep₂ : KeepsPart s s₂ := by
            have hcount : KeepsPart s s₁ := by
              rw [hs₁]
              exact ⟨fun hs => hs.countMalloc, id, rfl⟩
            have hbit : KeepsPart s₁ s₂ := by
              rw [hs₂]
              exact keepsPart_setPart rfl rfl rfl rfl rfl
            exact hcount.trans hbit
          obtain ⟨hkeep, hempty, slot, hslot, hentry⟩ := createNode_empty h hfd (hnext ▸ hparent)
          obtain ⟨_, slot', q, -, henter, -⟩ := (fileCreate_cases hcall).resolve_left
            fun href => hfd href.1
          -- both speak of the slot that was free
          have heq : slot' = slot := by
            have hfree := henter.free
            rw [← hslot₂, hslot] at hfree
            exact (Option.some.inj hfree).symm
          have hq : q = s₂.nextNode := by
            rw [← heq, henter.fileTable, Function.update_self] at hentry
            exact Option.some.inj hentry
          exact ⟨slot', q, hkeep₂.trans hkeep, hq ▸ hempty, henter⟩

/-- The descriptor `fd` of the running process leads to node `p`. -/
structure Leads (s : FsState) (fd : Int) (slot p : Nat) : Prop where
  fd : 3 ≤ fd ∧ fd < maxFileOpenPerProc ∧ s.task.fdTable fd.toNat = slot
  slotLt : slot < maxFileOpen
  entry : (s.fileTable slot).fdFlag = createFlags ∧ (s.fileTable slot).fdInode = some p

/-- The node of the directory that a search hands over has been allocated. -/
theorem searchLoop_parent_lt {fuel : Nat} {name : List UInt8} {subPath : Option (List UInt8)}
    {parentDir : Dir} {parentInodeNo : Nat} {dirE : Option DirEntry} {searchedPath : List UInt8}
    {r : Option Nat} {record : PathSearchRecord} (hs : ∀ q ∈ s.part.openInodes, q < s.nextNode)
    (hparent : parentDir.inode < s.nextNode)
    (h : searchLoop fuel name subPath parentDir parentInodeNo dirE searchedPath s
      = .ok (r, record, s')) : record.parentDir.inode < s'.nextNode := by
  have hopened : ∀ {t t' : FsState} {n : Nat} {dir : Dir},
      (∀ q ∈ t.part.openInodes, q < t.nextNode) → dirOpen t n = .ok (dir, t') →
      dir.inode < t'.nextNode := by
    intro t t' n dir ht hopen
    obtain ⟨hlook, hmem, -⟩ := dirOpen_spec hopen
    exact hlook.nodes.opened_lt ht _ hmem
  have hend : ∀ {s₁ : FsState} {dir : Dir} {no : Nat} {e : Option DirEntry} {path : List UInt8},
      (∀ q ∈ s₁.part.openInodes, q < s₁.nextNode) →
      searchEnd dir no e path s₁ = .ok (r, record, s') →
      record.parentDir.inode < s'.nextNode := by
    intro s₁ dir no e path hs₁ h
    obtain ⟨s₂, hclose, h⟩ := Outcome.bind_eq_ok.1 h
    obtain ⟨⟨dir', s₃⟩, hopen, h⟩ := Outcome.bind_eq_ok.1 h
    cases e with
    | none => cases h
    | some e =>
        cases h
        exact hopened ((dirClose_looks hclose).nodes.opened_lt hs₁) hopen
  induction fuel generalizing name subPath parentDir parentInodeNo dirE searchedPath s with
  | zero =>
      unfold searchLoop at h
      split at h
      · exact hend hs h
      · cases h
  | succ fuel ih =>
      unfold searchLoop at h
      split at h
      · exact hend hs h
      · obtain ⟨_, -, h⟩ := Outcome.bind_eq_ok.1 h
        obtain ⟨searchedPath', -, h⟩ := Outcome.bind_eq_ok.1 h
        obtain ⟨⟨found, s₁⟩, hsearch, h⟩ := Outcome.bind_eq_ok.1 h
        have hlook := searchDirEntry_looks hsearch
        have hs₁ := hlook.nodes.opened_lt hs
        have hparent₁ := Nat.lt_of_lt_of_le hparent hlook.nextNode
        cases found with
        | none =>
            cases h
            exact hparent₁
        | some de =>
            obtain ⟨⟨name', subPath'⟩, -, h⟩ := Outcome.bind_eq_ok.1 h
            simp only at h
            split at h
            · obtain ⟨s₂, hclose, h⟩ := Outcome.bind_eq_ok.1 h
              obtain ⟨⟨dir, s₃⟩, hopen, h⟩ := Outcome.bind_eq_ok.1 h
              have hs₂ := (dirClose_looks hclose).nodes.opened_lt hs₁
              exact ih ((dirOpen_spec hopen).1.nodes.opened_lt hs₂) (hopened hs₂ hopen) h
            · split at h
              · cases h
                exact hparent₁
              · exact ih hs₁ hparent₁ h

theorem searchFile_parent_lt {pathname : List UInt8} {r : Option Nat} {record : PathSearchRecord}
    (hs : ∀ q ∈ s.part.openInodes, q < s.nextNode) (hroot : s.rootInode < s.nextNode)
    (h : searchFile s pathname = .ok (r, record, s')) : record.parentDir.inode < s'.nextNode := by
  unfold searchFile at h
  split at h
  · cases h
    exact hroot
  · obtain ⟨_, -, h⟩ := Outcome.bind_eq_ok.1 h
    obtain ⟨⟨name, subPath⟩, -, h⟩ := Outcome.bind_eq_ok.1 h
    exact searchLoop_parent_lt hs hroot h

/-- A descriptor that was installed and is not -1. -/
theorem Installs.leads {fd : Int} {slot : Nat} (h : Installs s s' fd slot) (hfd : fd ≠ -1) :
    3 ≤ fd ∧ fd < maxFileOpenPerProc ∧ s'.task.fdTable fd.toNat = slot := by
  obtain ⟨i, hfree, rfl, htable⟩ := h.fdTable.resolve_left fun hnone => hfd hnone.1
  have hmem := List.mem_range'_1.1 (List.mem_of_find?_eq_some hfree)
  refine ⟨by omega, by omega, ?_⟩
  rw [FsState.task, htable, if_pos h.cur, Int.toNat_natCast, Function.update_self]

/-- What a successful `sys_open(pathname, O_CREAT | O_RDWD)` gives: a descriptor
    of a new, empty file. -/
theorem sysOpen_creates {pathname : List UInt8} {fd : Int} (hs : NodesOk s)
    (hroot : s.rootInode < s.nextNode) (h : sysOpen s pathname createFlags = .ok (fd, s'))
    (hfd : fd ≠ -1) : ∃ slot p, KeepsPart s s' ∧ EmptyNode s' p ∧ Leads s' fd slot p := by
  rcases sysOpen_cases h with ⟨hfail, -⟩ | ⟨_, _, _, -, hcreat, -⟩
    | ⟨record, filename, s₁, s₂, hres, -, -, hcreate, hclose⟩
  · exact absurd hfail hfd
  · exact absurd hcreat (by decide)
  · have hlook := searchFile_looks hres.search
    have hlook' := dirClose_looks hclose
    have hparent := searchFile_parent_lt hs.opened hroot hres.search
    obtain ⟨slot, p, hkeep, hempty, henter⟩ := fileCreate_empty hcreate hfd hparent
    have hinstalls := henter.installs.sameFds hlook'.keepsFds.sameFds
    refine ⟨slot, p, hlook.keepsPart.trans (hkeep.trans hlook'.keepsPart),
      hlook'.emptyNode henter.lt hempty, hinstalls.leads hfd,
      (getFreeSlotInGlobal_some henter.free).2.1, ?_⟩
    rw [hlook'.fileTable, henter.fileTable, Function.update_self]
    exact ⟨rfl, rfl⟩

/-! ## One sector more -/

/-- The blocks of a file of `i` sectors that was written sector by sector: the
    next block is always there already. -/
def blocksFor (i : Nat) : Nat := if i = 0 then 0 else i + 1 + (if 12 ≤ i then 1 else 0)

/-- `i` of `n` sectors are copied: the invariant of the loop. -/
structure Copied (src : Mem) (lba n : Nat) (fd : Int) (slot p i : Nat) (s : FsState) : Prop where
  leads : Leads s fd slot p
  layout : Layout s
  freeOnDisk : FreeOnDisk s
  heap : ∀ k, s.mallocOk k = true
  rep : FileRep s (s.inodes p)
  size : (s.inodes p).iSize = 512 * i
  data : ∀ k, k < i → ∀ a, a < 512 →
    s.disk (blockRef s.disk (s.inodes p) k * 512 + a) = src ((lba + k) * 512 + a)
  room : blocksFor n ≤ (freeBits s).card + blocksFor i

variable {src : Mem} {lba n i slot : Nat} {fd : Int}

/-- A new file, before the loop. -/
theorem EmptyNode.copied (h : EmptyNode s p) (hleads : Leads s fd slot p) (hs : Layout s)
    (hdisk : FreeOnDisk s) (hheap : ∀ k, s.mallocOk k = true)
    (hroom : blocksFor n ≤ (freeBits s).card) : Copied src lba n fd slot p 0 s := by
  have hzero : ∀ j, blockRef s.disk (s.inodes p) j = 0 :=
    blockRef_zero_of_noSectors fun j _ => h.sectors j
  refine ⟨hleads, hs, hdisk, hheap, ⟨.inr ⟨h.size, fun j _ => hzero j⟩, ?_, ⟨?_, ?_⟩, ?_⟩, h.size,
    fun k hk => absurd hk (Nat.not_lt_zero k), hroom⟩
  · rw [h.sectors, h.size]
    simp
  · exact fun j _ hj => absurd (hzero j) hj
  · exact fun j hj => absurd (hzero j) hj
  · intro j
    rw [hzero j]
    exact Nat.zero_le _

/-- Free blocks that are gone are blocks the file got. -/
theorem card_freeBits_le {t : FsState} {ref ref' : Nat → Nat} {new : Finset Nat}
    (hsb : t.part.sb = s.part.sb) (hbits : blockBits t = blockBits s)
    (hext : Ledger.Extends ref (usedBlocks s) ref' (usedBlocks t))
    (hnew : ∀ j, ref j = 0 → ref' j ≠ 0 → j ∈ new) :
    (freeBits s).card ≤ (freeBits t).card + new.card := by
  have hsub : freeBits s ⊆ freeBits t ∪ new.image fun j => ref' j - s.part.sb.dataStartLba := by
    intro b hb
    obtain ⟨hlt, hclear⟩ := Finset.mem_filter.1 hb
    have hlt := Finset.mem_range.1 hlt
    by_cases hset : bitAt t.part.blockBitmap.bits b = true
    · have hused : s.part.sb.dataStartLba + b ∈ usedBlocks t :=
        ⟨b, hbits ▸ hlt, by rw [hsb], hset⟩
      obtain ⟨j, h₀, h₁, hj⟩ := (hext.exact _ hused).resolve_left (not_mem_usedBlocks hclear)
      refine Finset.mem_union_right _ (Finset.mem_image.2 ⟨j, hnew j h₀ h₁, ?_⟩)
      rw [hj, Nat.add_sub_cancel_left]
    · refine Finset.mem_union_left _ (Finset.mem_filter.2 ⟨?_, by simpa using hset⟩)
      exact Finset.mem_range.2 (hbits ▸ hlt)
  calc (freeBits s).card
      ≤ (freeBits t ∪ new.image fun j => ref' j - s.part.sb.dataStartLba).card :=
        Finset.card_le_card hsub
    _ ≤ (freeBits t).card + (new.image fun j => ref' j - s.part.sb.dataStartLba).card :=
        Finset.card_union_le ..
    _ ≤ (freeBits t).card + new.card := Nat.add_le_add_left Finset.card_image_le _

theorem blocksFor_succ (i : Nat) :
    blocksFor (i + 1) = i + 2 + (if 12 ≤ i + 1 then 1 else 0) := by
  rw [blocksFor, if_neg (Nat.succ_ne_zero i)]

theorem blocksFor_le {j : Nat} (h : i ≤ j) : blocksFor i ≤ blocksFor j := by
  unfold blocksFor
  split_ifs <;> omega

/-- A file of at least one sector has its first block. -/
theorem Copied.first (h : Copied src lba n fd slot p i s) (hi : i ≠ 0) :
    (s.inodes p).iSectors 0 ≠ 0 := by
  have hsize := h.size
  rcases h.rep.blocks with hblocks | ⟨hzero, -⟩
  · have := (hblocks 0 (by omega)).2 (Nat.zero_le _)
    rwa [blockRef_direct (by omega)] at this
  · omega

/-- The next write takes the blocks it is allowed. -/
theorem Copied.needed (h : Copied src lba n fd slot p i s) :
    blocksNeeded (s.inodes p) 512 + blocksFor i ≤ blocksFor (i + 1) := by
  have hfirst := h.first
  have hused : (s.inodes p).iSize / 512 = i := by rw [h.size]; omega
  have hwill : ((s.inodes p).iSize + 512) / 512 = i + 1 := by rw [h.size]; omega
  rw [blocksFor_succ, blocksFor, blocksNeeded, hused, hwill]
  by_cases hi : i = 0
  · subst hi
    split_ifs <;> omega
  · rw [if_neg (hfirst hi), if_neg hi]
    split_ifs <;> omega

/-- The pointers that a write of sector `i` fills. -/
def newRefs (i : Nat) : Finset Nat :=
  if i = 0 then {0, 1} else if i = 11 then {12, 140} else {i + 1}

theorem card_newRefs (i : Nat) : (newRefs i).card + blocksFor i = blocksFor (i + 1) := by
  rw [blocksFor_succ, blocksFor, newRefs]
  by_cases h0 : i = 0
  · subst h0
    decide
  · by_cases h11 : i = 11
    · subst h11
      decide
    · rw [if_neg h0, if_neg h11, if_neg h0, Finset.card_singleton]
      split_ifs <;> omega

variable {out : FsState → Int → Mem → Nat → Outcome (Int × FsState)}

theorem Leads.fdLocal2Global (h : Leads s fd slot p) : Fs.fdLocal2Global s fd = .ok slot := by
  obtain ⟨h3, hlt, htable⟩ := h.fd
  have hslot := h.slotLt
  have hassert : (0 : Int) ≤ s.task.fdTable fd.toNat ∧ s.task.fdTable fd.toNat < maxFileOpen := by
    rw [htable]
    exact ⟨Int.natCast_nonneg _, by exact_mod_cast hslot⟩
  rw [Fs.fdLocal2Global, if_pos ⟨by omega, hlt⟩]
  simp only
  rw [kassert_pos hassert, Outcome.ok_bind, if_pos hassert, htable, Int.toNat_natCast]

/-- `sys_write` on the new file is `file_write`. -/
theorem Leads.sysWrite (h : Leads s fd slot p) (buf : Mem) (count : Nat) :
    Fs.sysWrite out s fd buf count = fileWrite s slot buf count := by
  obtain ⟨h3, -, -⟩ := h.fd
  have hpipe : isPipe s slot = false := by
    rw [isPipe, h.entry.1]
    decide
  have hor : ¬ (fd = 1 ∨ isPipe s slot = true) := by
    rw [hpipe]
    rintro (hone | hf)
    · omega
    · cases hf
  rw [Fs.sysWrite, if_neg (by omega), h.fdLocal2Global, Outcome.ok_bind, if_neg hor, h.entry.1,
    if_pos (by decide)]

variable (out) in
/-- One round of the loop: the write returns 512 and the invariant holds again. -/
theorem Copied.write (h : Copied src lba n fd slot p i s) (hi : i < n) (hn : n ≤ 139) :
    ∃ t, sysWrite out s fd (sectorBuf src (lba + i)) 512 = .ok (512, t)
      ∧ Copied src lba n fd slot p (i + 1) t := by
  have hsize := h.size
  have hheap : HeapServes s := fun k _ => h.heap k
  have hwp := h.rep.writePre h.layout (by omega)
  have hbound : (s.inodes p).iSize + 512 < 140 * 512 := by omega
  have hcard : blocksNeeded (s.inodes p) 512 ≤ (freeBits s).card := by
    have hneed := h.needed
    have hle := blocksFor_le (show i + 1 ≤ n by omega)
    have hroom := h.room
    omega
  obtain ⟨t, ht⟩ := fileWrite_of_free (sectorBuf src (lba + i)) h.leads.entry.2 hheap hwp
    h.rep.onDisk h.freeOnDisk hbound hcard
  have hw := (fileWrite_run h.leads.entry.2 hheap hwp (by omega) (.inr hbound) ht (by omega)).2
  have hlose : ¬ LosesBlocks (s.inodes p) 512 := by
    unfold LosesBlocks
    omega
  have hrep := hw.fileRep h.rep h.freeOnDisk hlose
  obtain ⟨-, hsb, -, hbits, -, -, hsize'⟩ := hw.others
  obtain ⟨bits, d, sec, pos, hstate⟩ := hw.state
  have hsize'' : (t.inodes p).iSize = 512 * (i + 1) := by omega
  refine ⟨t, by rw [h.leads.sysWrite, ht]; rfl,
    ⟨?_, h.leads.slotLt, ?_⟩, hw.layout, ?_, ?_, hrep, hsize'', ?_, ?_⟩
  · rw [hstate]
    exact h.leads.fd
  · rw [hstate, FsState.setFd_fileTable, Function.update_self]
    exact h.leads.entry
  · -- a block that is free now was free before
    intro b hb hclear
    rw [hsb]
    refine h.freeOnDisk b (hbits ▸ hb) ?_
    by_contra hset
    have hused : s.part.sb.dataStartLba + b ∈ usedBlocks s :=
      ⟨b, hbits ▸ hb, rfl, by simpa using hset⟩
    have hused' := hw.grows.mono hused
    rw [← hsb] at hused'
    exact not_mem_usedBlocks hclear hused'
  · rw [hstate]
    exact h.heap
  · intro k hk a ha
    have hdiv : (512 * k + a) / 512 = k := by omega
    have hmod : (512 * k + a) % 512 = a := by omega
    have hbyte : t.disk (blockRef t.disk (t.inodes p) k * 512 + a)
        = fileByte t.disk (t.inodes p) (512 * k + a) := by
      rw [fileByte, hdiv, hmod]
    rw [hbyte]
    by_cases hki : k = i
    · subst hki
      have hnew := hw.new hlose a ha
      rw [hsize] at hnew
      rw [hnew, sectorBuf, Mem.copy_inside (Nat.zero_le _) (by omega), Nat.sub_zero]
    · have hthere : blockRef s.disk (s.inodes p) ((512 * k + a) / 512) ≠ 0 := by
        rw [hdiv]
        rcases h.rep.blocks with hblocks | ⟨hzero, -⟩
        · exact (hblocks k (by omega)).2 (by omega)
        · omega
      rw [hw.old _ (by omega) hthere, fileByte, hdiv, hmod]
      exact h.data k (by omega) a ha
  · have hnew : ∀ j, blockRef s.disk (s.inodes p) j = 0 → blockRef t.disk (t.inodes p) j ≠ 0 →
        j ∈ newRefs i := by
      intro j hzero hne
      have hle : j < 140 ∧ j ≤ i + 1 ∨ j = 140 ∧ 12 ≤ i + 1 := by
        by_cases hj : j < 140
        · rcases hrep.blocks with hblocks | ⟨hzero', -⟩
          · have := (hblocks j hj).1 hne
            exact .inl ⟨hj, by omega⟩
          · omega
        · by_cases hj140 : j = 140
          · rw [hj140, blockRef_table] at hne
            have := hrep.table.1 hne
            exact .inr ⟨hj140, by omega⟩
          · exact absurd (blockRef_past (by omega)) hne
      have hold : i = 0 ∨ (j < 140 → i < j) ∧ (j = 140 → ¬ 12 ≤ i) := by
        by_cases h0 : i = 0
        · exact .inl h0
        · refine .inr ⟨fun hj => ?_, fun hj h12 => ?_⟩
          · rcases h.rep.blocks with hblocks | ⟨hzero', -⟩
            · by_contra hge
              exact (hblocks j hj).2 (by omega) hzero
            · omega
          · rw [hj, blockRef_table] at hzero
            exact h.rep.table.2 (by omega) hzero
      unfold newRefs
      split_ifs with h0 h11
      · have : j = 0 ∨ j = 1 := by omega
        simpa using this
      · have : j = 12 ∨ j = 140 := by omega
        simpa using this
      · have : j = i + 1 := by omega
        simpa using this
    have hfree := card_freeBits_le hsb hbits (hw.extends_ hlose) hnew
    have hcount := card_newRefs i
    have hroom := h.room
    omega

/-! ## The whole loop -/

variable (out) in
/-- From the state with `i` sectors copied, `m` rounds copy `m` more. -/
theorem copyLoop_run {m : Nat} (h : Copied src lba n fd slot p i s) (hm : i + m ≤ n) (hn : n ≤ 139)
    (hlba : lba + n ≤ maxLba + 1) : ∃ t, copyLoop out src fd m (lba + i) s = .ok (true, t)
      ∧ Copied src lba n fd slot p (i + m) t := by
  induction m generalizing i s with
  | zero => exact ⟨s, rfl, h⟩
  | succ m ih =>
      obtain ⟨t, hwrite, ht⟩ := h.write out (by omega) hn
      obtain ⟨t', hrest, ht'⟩ := ih ht (by omega)
      have hnext : u32 (lba + i + 1) = lba + (i + 1) := by
        simp only [maxLba] at hlba
        rw [u32_of_lt (by omega), Nat.add_assoc]
      refine ⟨t', ?_, by rwa [Nat.add_right_comm, Nat.add_assoc] at ht'⟩
      rw [copyLoop, kassert_pos (by omega), Outcome.ok_bind, hwrite, Outcome.ok_bind]
      simp only
      rw [if_neg (by decide), hnext]
      exact hrest

/-- The file in node `p` holds the `n` sectors from `lba` on, in blocks of its
    own. -/
structure Installed (src : Mem) (lba n : Nat) (s : FsState) (p : Nat) : Prop where
  size : (s.inodes p).iSize = 512 * n
  there : ∀ k, k < n → blockRef s.disk (s.inodes p) k ≠ 0
  data : ∀ k, k < n → ∀ a, a < 512 →
    s.disk (blockRef s.disk (s.inodes p) k * 512 + a) = src ((lba + k) * 512 + a)
  distinct : ∀ j k, blockRef s.disk (s.inodes p) j ≠ 0 →
    blockRef s.disk (s.inodes p) j = blockRef s.disk (s.inodes p) k → j = k

/-- In each of the `n` rounds from `s` on, `sys_write` returns 512. -/
def WritesAll (out : FsState → Int → Mem → Nat → Outcome (Int × FsState)) (src : Mem) (fd : Int)
    (n lba : Nat) (s : FsState) : Prop :=
  ∀ i, i < n → ∃ sᵢ t, copyLoop out src fd i lba s = .ok (true, sᵢ)
    ∧ sysWrite out sᵢ fd (sectorBuf src (lba + i)) 512 = .ok (512, t)

/-- `write_user_prog` copies faithfully, from `s` where its file `fd` has been
    opened: the loop ends, and only `sys_close` and `sys_free` are left. -/
def CopiesAll (out : FsState → Int → Mem → Nat → Outcome (Int × FsState)) (src : Mem)
    (s s₁ : FsState) (fileSize startLba : Nat) (pathname : List UInt8) (fd : Int) : Prop :=
  ∃ t slot p ioBuf, copyLoop out src fd (readTimes fileSize) startLba s₁ = .ok (true, t)
    ∧ Leads t fd slot p
    ∧ Installed src startLba ((fileSize + 511) / 512) t p
    ∧ WritesAll out src fd ((fileSize + 511) / 512) startLba s₁
    ∧ writeUserProg out src s fileSize startLba pathname
      = (sysClose t fd >>= fun r => sysFree r.2 ioBuf >>= fun _ => .ok (true, r.2))

theorem Copied.installed (h : Copied src lba n fd slot p n s) (hn : n ≤ 139) :
    Installed src lba n s p := by
  refine ⟨h.size, fun k hk => ?_, h.data, h.rep.sound.inj⟩
  have hsize := h.size
  rcases h.rep.blocks with hblocks | ⟨hzero, -⟩
  · exact (hblocks k (by omega)).2 (by omega)
  · omega

/-- For every size of at most 139 sectors, every source and every path for which
    the file can be created, with enough free blocks for it: as long as the
    sectors to read are on the disk, all of them are copied. -/
theorem writeUserProg_copiesAll (out : FsState → Int → Mem → Nat → Outcome (Int × FsState))
    (src : Mem) (s s₁ : FsState) (fileSize startLba : Nat) (pathname : List UInt8) (fd : Int)
    (hs : Layout s) (hdisk : FreeOnDisk s) (hnodes : NodesOk s) (hroot : s.rootInode < s.nextNode)
    (hheap : ∀ k, s.mallocOk k = true)
    (hopen : sysOpen s.countMalloc pathname createFlags = .ok (fd, s₁)) (hfd : fd ≠ -1)
    (hsize : fileSize ≤ 139 * 512)
    (hroom : blocksFor ((fileSize + 511) / 512) ≤ (freeBits s₁).card)
    (hlba : startLba + (fileSize + 511) / 512 ≤ maxLba + 1) :
    CopiesAll out src s s₁ fileSize startLba pathname fd := by
  have hnodes' : NodesOk s.countMalloc := ⟨hnodes.opened, hnodes.table⟩
  have hn : (fileSize + 511) / 512 ≤ 139 := by omega
  obtain ⟨slot, p, hkeep, hempty, hleads⟩ := sysOpen_creates hnodes' hroot hopen hfd
  have hstart : Copied src startLba ((fileSize + 511) / 512) fd slot p 0 s₁ :=
    hempty.copied hleads (hkeep.layout hs.countMalloc) (hkeep.freeOnDisk hdisk)
      (fun k => by rw [hkeep.mallocOk]; exact hheap k) hroom
  have htimes : readTimes fileSize = (fileSize + 511) / 512 := by
    rw [readTimes, u32_of_lt (by omega)]
  obtain ⟨t, hloop, hend⟩ := copyLoop_run out hstart (Nat.le_of_eq (Nat.zero_add _)) hn hlba
  rw [Nat.zero_add] at hend
  rw [Nat.add_zero startLba] at hloop
  refine ⟨t, slot, p, ⟨s.task.pgdir.isNone, s.mallocCnt⟩, htimes ▸ hloop, hend.leads,
    hend.installed hn, fun i hi => ?_, ?_⟩
  · obtain ⟨sᵢ, hrun, hsᵢ⟩ := copyLoop_run (m := i) out hstart (by omega) hn hlba
    rw [Nat.zero_add] at hsᵢ
    obtain ⟨t', hwrite, -⟩ := hsᵢ.write out hi hn
    exact ⟨sᵢ, t', hrun, hwrite⟩
  · have hmalloc : HeapServes s := fun k _ => hheap k
    rw [writeUserProg, hmalloc.sysMalloc]
    simp only
    rw [hopen, Outcome.ok_bind]
    simp only
    rw [if_neg hfd, hleads.fdLocal2Global, Outcome.ok_bind, htimes, hloop, Outcome.ok_bind]
    rfl

/-- The small directory as root directory, with no file open. -/
def installFs : FsState :=
  { smallDirFs with
    inodes := fun _ => { smallDirInode with iNo := 0 }
    fileTable := fun _ => ⟨0, 0, none⟩ }

theorem installFs_nodesOk : NodesOk installFs := by
  refine ⟨fun q hq => ?_, fun i q hq => ?_⟩
  · have hq : q = 0 := List.mem_singleton.1 hq
    rw [hq]
    exact Nat.one_pos
  · cases hq

/-- A file "/c" can be created in it, and two blocks are free then. -/
theorem installFs_opens : ∃ s₁, sysOpen installFs.countMalloc [slash, 99] createFlags = .ok (3, s₁)
    ∧ s₁.ndebug = false ∧ 2 ≤ (freeBits s₁).card := by
  have hrun : (sysOpen installFs.countMalloc [slash, 99] createFlags).returns (fun r =>
      r.1 == 3 && !r.2.ndebug && !bitAt r.2.part.blockBitmap.bits 100
        && !bitAt r.2.part.blockBitmap.bits 101 && r.2.part.blockBitmap.btmpByteLen == 512)
      = true := by
    decide +kernel
  obtain ⟨⟨fd, s₁⟩, hopen, htest⟩ := Outcome.returns_iff.1 hrun
  simp only [Bool.and_eq_true, beq_iff_eq, Bool.not_eq_true'] at htest
  obtain ⟨⟨⟨⟨hfd, hdebug⟩, h100⟩, h101⟩, hlen⟩ := htest
  have hfree : ∀ b, b < 4096 → bitAt s₁.part.blockBitmap.bits b = false → b ∈ freeBits s₁ := by
    intro b hb hclear
    refine Finset.mem_filter.2 ⟨Finset.mem_range.2 ?_, hclear⟩
    rw [blockBits, hlen]
    exact hb
  refine ⟨s₁, by rw [hopen, hfd], hdebug, ?_⟩
  exact Finset.one_lt_card.2 ⟨100, hfree 100 (by omega) h100, 101, hfree 101 (by omega) h101,
    by omega⟩

theorem installFs_freeOnDisk : FreeOnDisk installFs := fun _ hb _ => lba_le_maxLba hb

/-- One sector, from sector 300 on. -/
theorem writeUserProg_copiesAll_one :
    ∃ s₁, CopiesAll (fun s _ _ _ => .ok (0, s)) Mem.zero installFs s₁ 512 300 [slash, 99] 3 := by
  obtain ⟨s₁, hopen, -, hfree⟩ := installFs_opens
  exact ⟨s₁, writeUserProg_copiesAll _ Mem.zero installFs s₁ 512 300 [slash, 99] 3
    (smallDirFs_layout.congr rfl) installFs_freeOnDisk installFs_nodesOk Nat.one_pos (fun _ => rfl)
    hopen (by decide) (by decide) hfree (by decide)⟩

/-- A sector behind the end of the disk cannot be read. -/
theorem not_copiesAll_pastEnd : ¬ ∀ out src s s₁ fileSize startLba pathname fd, Layout s →
    FreeOnDisk s → NodesOk s → s.rootInode < s.nextNode → (∀ k, s.mallocOk k = true) →
    sysOpen s.countMalloc pathname createFlags = .ok (fd, s₁) → fd ≠ -1 →
    fileSize ≤ 139 * 512 → blocksFor ((fileSize + 511) / 512) ≤ (freeBits s₁).card →
    CopiesAll out src s s₁ fileSize startLba pathname fd := by
  intro h
  obtain ⟨s₁, hopen, hdebug, hfree⟩ := installFs_opens
  obtain ⟨t, -, -, -, hloop, -⟩ := h (fun s _ _ _ => .ok (0, s)) Mem.zero installFs s₁ 512
    (maxLba + 1) [slash, 99] 3 (smallDirFs_layout.congr rfl) installFs_freeOnDisk installFs_nodesOk
    Nat.one_pos (fun _ => rfl) hopen (by decide) (by decide) hfree
  have htimes : readTimes 512 = 1 := by decide
  rw [htimes, copyLoop] at hloop
  obtain ⟨_, hassert, -⟩ := Outcome.bind_eq_ok.1 hloop
  rcases kassert_eq_ok.1 hassert with hle | hnd
  · exact absurd hle (by omega)
  · rw [hdebug] at hnd
    cases hnd

end Fs
end JackOS
