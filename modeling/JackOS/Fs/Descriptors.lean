/-
  JackOS.Fs.Descriptors

  What `sys_open` and `sys_close` do to the two descriptor tables.  A call of
  `sys_open` is refused, or opens the file the path resolves to, or creates
  one; each case has its lemma, and the calls below are not unfolded again.
-/

import JackOS.Fs.Frame

namespace JackOS
namespace Fs

open Base

variable {s s' s'' : FsState}

/-! ## Nodes -/

/-- From `s` to `s'` nodes were added and no node got another number. -/
structure KeepsNodes (s s' : FsState) : Prop where
  nextNode : s.nextNode ≤ s'.nextNode
  iNo : ∀ p, p < s.nextNode → (s'.inodes p).iNo = (s.inodes p).iNo
  opened : ∀ p ∈ s'.part.openInodes, p ∈ s.part.openInodes ∨ s.nextNode ≤ p ∧ p < s'.nextNode

theorem KeepsNodes.refl (s : FsState) : KeepsNodes s s :=
  ⟨Nat.le_refl _, fun _ _ => rfl, fun _ h => .inl h⟩

theorem KeepsNodes.trans (h : KeepsNodes s s') (h' : KeepsNodes s' s'') : KeepsNodes s s'' := by
  refine ⟨Nat.le_trans h.nextNode h'.nextNode, fun p hp => ?_, fun p hp => ?_⟩
  · rw [h'.iNo p (Nat.lt_of_lt_of_le hp h.nextNode), h.iNo p hp]
  · have hle := h.nextNode
    have hle' := h'.nextNode
    rcases h'.opened p hp with hp | hp
    · rcases h.opened p hp with hp | hp
      · exact .inl hp
      · exact .inr ⟨hp.1, by omega⟩
    · exact .inr ⟨by omega, hp.2⟩

theorem KeepsNodes.setFd (h : KeepsNodes s s') (i : Nat) (fd : FileDesc) :
    KeepsNodes s (s'.setFd i fd) :=
  ⟨h.nextNode, h.iNo, h.opened⟩

theorem KeepsNodes.setTask (h : KeepsNodes s s') (task : Task) : KeepsNodes s (s'.setTask task) :=
  ⟨h.nextNode, h.iNo, h.opened⟩

theorem KeepsFds.nodes (h : KeepsFds s s') : KeepsNodes s s' := ⟨h.nextNode, h.iNo, h.opened⟩

theorem Looks.nodes (h : Looks s s') : KeepsNodes s s' := h.keepsFds.nodes

/-- A node whose write lock is taken or given back. -/
theorem keepsNodes_setDeny (s : FsState) (p : Nat) (deny : Bool) :
    KeepsNodes s (s.setInode p { s.inodes p with writeDeny := deny }) := by
  refine ⟨Nat.le_refl _, fun q _ => ?_, fun _ hq => .inl hq⟩
  rw [FsState.setInode_inodes]
  by_cases hqp : q = p
  · rw [hqp, Function.update_self]
  · rw [Function.update_of_ne hqp]

/-- The nodes that are open or in the file table have been allocated. -/
structure NodesOk (s : FsState) : Prop where
  opened : ∀ p ∈ s.part.openInodes, p < s.nextNode
  table : ∀ i p, (s.fileTable i).fdInode = some p → p < s.nextNode

theorem KeepsNodes.opened_lt (h : KeepsNodes s s') (hs : ∀ p ∈ s.part.openInodes, p < s.nextNode) :
    ∀ p ∈ s'.part.openInodes, p < s'.nextNode := by
  intro p hp
  rcases h.opened p hp with hp | hp
  · exact Nat.lt_of_lt_of_le (hs p hp) h.nextNode
  · exact hp.2

theorem mountPartition_openInodes (h : mountPartition s = .ok s') :
    s'.part.openInodes = [] := by
  unfold mountPartition at h
  cases hbuf : sysMalloc s with
  | mk sbBuf s₁ =>
  rw [hbuf] at h
  obtain ⟨⟨_, s₂⟩, -, h⟩ := Outcome.bind_eq_ok.1 h
  cases sbBuf with
  | none => cases h
  | some sbBuf =>
      obtain ⟨buf, -, h⟩ := Outcome.bind_eq_ok.1 h
      obtain ⟨⟨_, s₃⟩, -, h⟩ := Outcome.bind_eq_ok.1 h
      obtain ⟨blockBitmap, -, h⟩ := Outcome.bind_eq_ok.1 h
      obtain ⟨⟨_, s₄⟩, -, h⟩ := Outcome.bind_eq_ok.1 h
      obtain ⟨inodeBitmap, -, h⟩ := Outcome.bind_eq_ok.1 h
      obtain ⟨_, -, h⟩ := Outcome.bind_eq_ok.1 h
      rw [← Except.ok.inj h]
      rfl

/-- After `filesys_init` the root directory is open and no descriptor is. -/
theorem filesysInit_spec (h : filesysInit s = .ok s') :
    NodesOk s' ∧ ∀ i, (s'.fileTable i).fdInode = none := by
  obtain ⟨⟨sbBuf, s₁⟩, -, h⟩ := Outcome.bind_eq_ok.1 h
  obtain ⟨s₂, -, h⟩ := Outcome.bind_eq_ok.1 h
  obtain ⟨_, -, h⟩ := Outcome.bind_eq_ok.1 h
  obtain ⟨s₃, hmount, h⟩ := Outcome.bind_eq_ok.1 h
  obtain ⟨s₄, hroot, h⟩ := Outcome.bind_eq_ok.1 h
  obtain ⟨⟨p, s₅⟩, hopen, hroot⟩ := Outcome.bind_eq_ok.1 hroot
  cases hroot
  cases h
  obtain ⟨hlook, -, -⟩ := inodeOpen_spec hopen
  refine ⟨⟨hlook.nodes.opened_lt ?_, fun i p hp => ?_⟩, fun i => rfl⟩
  · rw [mountPartition_openInodes hmount]
    exact fun p hp => absurd hp (List.not_mem_nil)
  · cases hp

theorem mustMalloc_state {block : HeapBlock} (h : mustMalloc s = .ok (block, s')) :
    s' = s.countMalloc := by
  unfold mustMalloc at h
  cases hcall : sysMalloc s with
  | mk r s₁ =>
  rw [hcall] at h
  cases r with
  | none => cases h
  | some r =>
      cases h
      exact sysMalloc_state hcall

theorem mountPartition_procs (h : mountPartition s = .ok s') : s'.procs = s.procs := by
  unfold mountPartition at h
  cases hbuf : sysMalloc s with
  | mk sbBuf s₁ =>
  rw [hbuf] at h
  obtain ⟨⟨_, s₂⟩, h₂, h⟩ := Outcome.bind_eq_ok.1 h
  cases sbBuf with
  | none => cases h
  | some sbBuf =>
      obtain ⟨buf, -, h⟩ := Outcome.bind_eq_ok.1 h
      obtain ⟨⟨_, s₃⟩, h₃, h⟩ := Outcome.bind_eq_ok.1 h
      obtain ⟨blockBitmap, -, h⟩ := Outcome.bind_eq_ok.1 h
      obtain ⟨⟨_, s₄⟩, h₄, h⟩ := Outcome.bind_eq_ok.1 h
      obtain ⟨inodeBitmap, -, h⟩ := Outcome.bind_eq_ok.1 h
      obtain ⟨_, -, h⟩ := Outcome.bind_eq_ok.1 h
      rw [← Except.ok.inj h]
      show s₄.procs = s.procs
      rw [mustMalloc_state h₄, mustMalloc_state h₃, mustMalloc_state h₂, sysMalloc_state hbuf]
      rfl

theorem partitionFormat_procs (h : partitionFormat s = .ok s') : s'.procs = s.procs := by
  obtain ⟨s₁, h₁, h⟩ := Outcome.bind_eq_ok.1 h
  cases hbuf : sysMalloc s₁ with
  | mk buf s₂ =>
  rw [hbuf] at h
  cases buf with
  | none => cases h
  | some buf =>
      obtain ⟨s₃, h₃, h⟩ := Outcome.bind_eq_ok.1 h
      obtain ⟨s₄, h₄, h⟩ := Outcome.bind_eq_ok.1 h
      obtain ⟨s₅, h₅, h⟩ := Outcome.bind_eq_ok.1 h
      obtain ⟨s₆, h₆, h⟩ := Outcome.bind_eq_ok.1 h
      obtain ⟨_, -, h⟩ := Outcome.bind_eq_ok.1 h
      cases h
      rw [(ideWrite_writes h₆).keepsFds.procs, (ideWrite_writes h₅).keepsFds.procs, (ideWrite_writes h₄).keepsFds.procs,
        (ideWrite_writes h₃).keepsFds.procs, sysMalloc_state hbuf]
      exact (ideWrite_writes h₁).keepsFds.procs

/-- `filesys_init` runs before there are processes. -/
theorem filesysInit_procs (h : filesysInit s = .ok s') : s'.procs = s.procs := by
  obtain ⟨⟨sbBuf, s₁⟩, h₁, h⟩ := Outcome.bind_eq_ok.1 h
  obtain ⟨s₂, h₂, h⟩ := Outcome.bind_eq_ok.1 h
  obtain ⟨_, -, h⟩ := Outcome.bind_eq_ok.1 h
  obtain ⟨s₃, hmount, h⟩ := Outcome.bind_eq_ok.1 h
  obtain ⟨s₄, hroot, h⟩ := Outcome.bind_eq_ok.1 h
  obtain ⟨⟨p, s₅⟩, hopen, hroot⟩ := Outcome.bind_eq_ok.1 hroot
  cases hroot
  cases h
  have hformat : s₂.procs = s₁.procs := by
    obtain ⟨buf, -, h₂⟩ := Outcome.bind_eq_ok.1 h₂
    split at h₂
    · cases h₂
      rfl
    · exact partitionFormat_procs h₂
  show s₅.procs = s.procs
  rw [(inodeOpen_spec hopen).1.keepsFds.procs, mountPartition_procs hmount, hformat,
    mustMalloc_state h₁]
  rfl

/-- `fd_table` of a new process. -/
def newFdTable (i : Nat) : Int := if i < 3 then i else -1

/-- The machine after `filesys_init`, with new processes only. -/
def Booted (s : FsState) : Prop :=
  (∃ s₀, filesysInit s₀ = .ok s) ∧ ∀ t i, (s.procs t).fdTable i = newFdTable i

/-- A machine before `filesys_init`, whose partition has 700 sectors and no file
    system. -/
def tinyFs : FsState where
  ndebug := false
  disk := Mem.zero
  part :=
    { startLba := 0
      secCnt := 700
      sb := newSuperBlock 0 700
      blockBitmap := ⟨0, Mem.zero⟩
      inodeBitmap := ⟨0, Mem.zero⟩
      openInodes := [] }
  inodes := fun _ => ⟨0, 0, 0, false, fun _ => 0⟩
  nextNode := 0
  fileTable := fun _ => ⟨0, 0, none⟩
  rootInode := 0
  procs := fun _ => ⟨newFdTable, none, 0⟩
  cur := 0
  mallocOk := fun _ => true
  mallocCnt := 0
  heapJunk := fun _ => Mem.zero

theorem tinyFs_boots : ∃ s, filesysInit tinyFs = .ok s := by
  have hend : (filesysInit tinyFs).returns (fun _ => true) = true := by decide +kernel
  obtain ⟨s, hinit, -⟩ := Outcome.returns_iff.1 hend
  exact ⟨s, hinit⟩

theorem booted_tinyFs (h : filesysInit tinyFs = .ok s) : Booted s := by
  refine ⟨⟨tinyFs, h⟩, fun t i => ?_⟩
  rw [filesysInit_procs h]
  rfl

/-! ## Installing and closing a descriptor -/

theorem fdLocal2Global_ok {fd : Int} {g : Nat} (h : fdLocal2Global s fd = .ok g) :
    0 ≤ fd ∧ fd < maxFileOpenPerProc ∧ s.task.fdTable fd.toNat = g ∧ g < maxFileOpen := by
  unfold fdLocal2Global at h
  by_cases hfd : 0 ≤ fd ∧ fd < maxFileOpenPerProc
  · rw [if_pos hfd] at h
    obtain ⟨_, -, h⟩ := Outcome.bind_eq_ok.1 h
    by_cases hglobal : 0 ≤ s.task.fdTable fd.toNat ∧ s.task.fdTable fd.toNat < maxFileOpen
    · rw [if_pos hglobal] at h
      have hg := Except.ok.inj h
      refine ⟨hfd.1, hfd.2, ?_, ?_⟩
      · rw [← hg, Int.toNat_of_nonneg hglobal.1]
      · omega
    · rw [if_neg hglobal] at h
      cases h
  · rw [if_neg hfd] at h
    cases h

/-- From `s` to `s'` no process got another `fd_table`. -/
structure SameFds (s s' : FsState) : Prop where
  cur : s'.cur = s.cur
  fdTable : ∀ t, (s'.procs t).fdTable = (s.procs t).fdTable

theorem SameFds.refl (s : FsState) : SameFds s s := ⟨rfl, fun _ => rfl⟩

theorem SameFds.trans (h : SameFds s s') (h' : SameFds s' s'') : SameFds s s'' :=
  ⟨h'.cur.trans h.cur, fun t => (h'.fdTable t).trans (h.fdTable t)⟩

theorem SameFds.congr (h : SameFds s s') (hcur : s''.cur = s'.cur)
    (hprocs : s''.procs = s'.procs) : SameFds s s'' :=
  ⟨hcur.trans h.cur, fun t => by rw [hprocs, h.fdTable]⟩

theorem KeepsFds.sameFds (h : KeepsFds s s') : SameFds s s' := (SameFds.refl s).congr h.cur h.procs

theorem SameFds.task (h : SameFds s s') : s'.task.fdTable = s.task.fdTable := by
  rw [FsState.task, FsState.task, h.cur, h.fdTable]

theorem sameFds_setPgdir (s : FsState) (pgdir : Option Nat) : SameFds s (s.setPgdir pgdir) := by
  refine ⟨rfl, fun t => ?_⟩
  show (Function.update s.procs s.cur { s.task with pgdir := pgdir } t).fdTable = _
  by_cases ht : t = s.cur
  · rw [ht, Function.update_self]
    rfl
  · rw [Function.update_of_ne ht]

/-- From `s` to `s'` the running process got entry `slot` as its descriptor
    `fd`, the first one that was free; or none was, and `fd` is -1. -/
structure Installs (s s' : FsState) (fd : Int) (slot : Nat) : Prop where
  cur : s'.cur = s.cur
  fdTable : (fd = -1 ∧ ∀ t, (s'.procs t).fdTable = (s.procs t).fdTable)
    ∨ ∃ i, freeLocalFd s.task = some i ∧ fd = i ∧ ∀ t, (s'.procs t).fdTable
      = if t = s.cur then Function.update s.task.fdTable i slot else (s.procs t).fdTable

theorem SameFds.installs {fd : Int} {slot : Nat} (h : SameFds s s') (h' : Installs s' s'' fd slot) :
    Installs s s'' fd slot := by
  refine ⟨h'.cur.trans h.cur, ?_⟩
  rcases h'.fdTable with ⟨hfd, htable⟩ | ⟨i, hfree, hfd, htable⟩
  · exact .inl ⟨hfd, fun t => (htable t).trans (h.fdTable t)⟩
  · refine .inr ⟨i, ?_, hfd, fun t => ?_⟩
    · rw [freeLocalFd, h.task] at hfree
      exact hfree
    · rw [htable, h.cur, h.task, h.fdTable]

theorem Installs.sameFds {fd : Int} {slot : Nat} (h : Installs s s' fd slot)
    (h' : SameFds s' s'') : Installs s s'' fd slot := by
  refine ⟨h'.cur.trans h.cur, ?_⟩
  rcases h.fdTable with ⟨hfd, htable⟩ | ⟨i, hfree, hfd, htable⟩
  · exact .inl ⟨hfd, fun t => (h'.fdTable t).trans (htable t)⟩
  · exact .inr ⟨i, hfree, hfd, fun t => (h'.fdTable t).trans (htable t)⟩

theorem pcbFdInstall_installs (s : FsState) (slot : Nat) :
    Installs s (pcbFdInstall s slot).2 (pcbFdInstall s slot).1 slot := by
  unfold pcbFdInstall
  cases hfree : freeLocalFd s.task with
  | none => exact ⟨rfl, .inl ⟨rfl, fun _ => rfl⟩⟩
  | some i =>
      refine ⟨rfl, .inr ⟨i, hfree, rfl, fun t => ?_⟩⟩
      show (Function.update s.procs s.cur _ t).fdTable = _
      by_cases ht : t = s.cur
      · rw [ht, Function.update_self, if_pos rfl]
      · rw [Function.update_of_ne ht, if_neg ht]

theorem getFreeSlotInGlobal_some {slot : Nat} (h : getFreeSlotInGlobal s = some slot) :
    3 ≤ slot ∧ slot < maxFileOpen ∧ (s.fileTable slot).fdInode = none := by
  have hmem := List.mem_of_find?_eq_some h
  have hnone := List.find?_some (show (List.range' 3 (maxFileOpen - 3)).find? _ = some slot from h)
  rw [List.mem_range'_1] at hmem
  exact ⟨hmem.1, hmem.2, by simpa using hnone⟩

/-- `pcb_fd_install` changes the table of the running process only. -/
theorem pcbFdInstall_state (s : FsState) (globalFd : Int) :
    ∃ task, (pcbFdInstall s globalFd).2 = s.setTask task := by
  unfold pcbFdInstall
  split
  · refine ⟨s.task, ?_⟩
    show s = { s with procs := Function.update s.procs s.cur (s.procs s.cur) }
    rw [Function.update_eq_self]
  · exact ⟨_, rfl⟩

/-! ## Opening -/

/-- The path leads to its last name: `r` says whether a file of that name is
    there. -/
structure Resolves (s : FsState) (pathname : List UInt8) (r : Option Nat)
    (record : PathSearchRecord) (s' : FsState) : Prop where
  noSlash : pathname.getLast? ≠ some slash
  search : searchFile s pathname = .ok (r, record, s')
  noDir : record.fileType ≠ .directory
  depth : pathDepthCnt pathname = pathDepthCnt record.searchedPath

/-- From `s` to `s'` the path was searched at most, and the parent directory
    closed again. -/
def Sought (s : FsState) (pathname : List UInt8) (s' : FsState) : Prop :=
  s' = s ∨ ∃ r record s₁, searchFile s pathname = .ok (r, record, s₁)
    ∧ dirClose s₁ record.parentDir = .ok s'

theorem Sought.looks {pathname : List UInt8} (h : Sought s pathname s') : Looks s s' := by
  rcases h with rfl | ⟨r, record, s₁, hsearch, hclose⟩
  · exact .refl _
  · exact (searchFile_looks hsearch).trans (dirClose_looks hclose)

/-- The three ways through `sys_open`. -/
theorem sysOpen_cases {pathname : List UInt8} {flags : Nat} {fd : Int}
    (h : sysOpen s pathname flags = .ok (fd, s')) :
    (fd = -1 ∧ Sought s pathname s')
      ∨ (∃ inodeNo record s₁, Resolves s pathname (some inodeNo) record s₁
        ∧ flags.testBit 2 = false ∧ fileOpen s₁ inodeNo flags = .ok (fd, s'))
      ∨ ∃ record filename s₁ s₂, Resolves s pathname none record s₁
        ∧ flags.testBit 2 = true ∧ baseName pathname = some filename
        ∧ fileCreate s₁ record.parentDir filename flags = .ok (fd, s₂)
        ∧ dirClose s₂ record.parentDir = .ok s' := by
  unfold sysOpen at h
  cases hlast : pathname.getLast? with
  | none =>
      rw [hlast] at h
      cases h
  | some c =>
    rw [hlast] at h
    simp only at h
    by_cases hc : c = slash
    · rw [if_pos hc] at h
      obtain ⟨_, -, h⟩ := Outcome.bind_eq_ok.1 h
      cases h
      exact .inl ⟨rfl, .inl rfl⟩
    rw [if_neg hc] at h
    obtain ⟨_, -, h⟩ := Outcome.bind_eq_ok.1 h
    obtain ⟨depth, hdepth, h⟩ := Outcome.bind_eq_ok.1 h
    obtain ⟨⟨r, record, s₁⟩, hsearch, h⟩ := Outcome.bind_eq_ok.1 h
    have hrefuse : refuse s₁ record = .ok (fd, s') → fd = -1 ∧ Sought s pathname s' := by
      intro h
      obtain ⟨s₂, hclose, h⟩ := Outcome.bind_eq_ok.1 h
      cases h
      exact ⟨rfl, .inr ⟨r, record, s₁, hsearch, hclose⟩⟩
    simp only at h
    by_cases hdir : record.fileType = .directory
    · rw [if_pos hdir] at h
      exact .inl (hrefuse h)
    rw [if_neg hdir] at h
    obtain ⟨depth', hdepth', h⟩ := Outcome.bind_eq_ok.1 h
    by_cases hd : depth = depth'
    · rw [if_neg (not_not.2 hd)] at h
      have hres : Resolves s pathname r record s₁ :=
        ⟨by rw [hlast, ne_eq, Option.some_inj]; exact hc, hsearch, hdir,
          by rw [hdepth, hdepth', hd]⟩
      unfold openSearched at h
      cases r with
      | none =>
          simp only at h
          by_cases hcreat : flags.testBit 2 = false
          · rw [if_pos hcreat] at h
            exact .inl (hrefuse h)
          rw [if_neg hcreat] at h
          cases hname : baseName pathname with
          | none =>
              rw [hname] at h
              cases h
          | some filename =>
              rw [hname] at h
              obtain ⟨⟨fd', s₂⟩, hcreate, h⟩ := Outcome.bind_eq_ok.1 h
              obtain ⟨s₃, hclose, h⟩ := Outcome.bind_eq_ok.1 h
              cases h
              exact .inr (.inr ⟨record, filename, s₁, s₂, hres, by simpa using hcreat, rfl,
                hcreate, hclose⟩)
      | some inodeNo =>
          simp only at h
          cases hcreat : flags.testBit 2 with
          | true =>
              rw [hcreat, if_pos rfl] at h
              exact .inl (hrefuse h)
          | false =>
              rw [hcreat, if_neg (by simp)] at h
              exact .inr (.inl ⟨inodeNo, record, s₁, hres, rfl, h⟩)
    · rw [if_pos hd] at h
      obtain ⟨_, -, h⟩ := Outcome.bind_eq_ok.1 h
      exact .inl (hrefuse h)

/-- From `s` to `s'` the free slot `slot` was filled for the inode of node
    `p`, and the running process got it as descriptor `fd`. -/
structure Enters (s s' : FsState) (fd : Int) (slot p flag : Nat) : Prop
    extends KeepsNodes s s' where
  free : getFreeSlotInGlobal s = some slot
  fileTable : s'.fileTable = Function.update s.fileTable slot ⟨0, flag, some p⟩
  lt : p < s'.nextNode
  installs : Installs s s' fd slot

/-- `file_open` fills a slot whenever one is free, whether it succeeds or not. -/
theorem fileOpen_enters {inodeNo flag slot : Nat} {fd : Int}
    (hs : ∀ p ∈ s.part.openInodes, p < s.nextNode) (hslot : getFreeSlotInGlobal s = some slot)
    (h : fileOpen s inodeNo flag = .ok (fd, s')) :
    ∃ p, Enters s s' fd slot p flag ∧ (s'.inodes p).iNo = openedNo s inodeNo := by
  unfold fileOpen at h
  rw [hslot] at h
  obtain ⟨⟨p, s₁⟩, hopen, h⟩ := Outcome.bind_eq_ok.1 h
  obtain ⟨hlook, hmem, hno⟩ := inodeOpen_spec hopen
  have hlt := hlook.nodes.opened_lt hs p hmem
  let s₂ := s₁.setFd slot { fdPos := 0, fdFlag := flag, fdInode := some p }
  have hsame : SameFds s s₂ := hlook.keepsFds.sameFds.congr rfl rfl
  have hfill : ∀ {t : FsState} {fd' : Int}, KeepsNodes s₂ t → t.fileTable = s₂.fileTable →
      Installs s₂ t fd' slot →
      Enters s t fd' slot p flag ∧ (t.inodes p).iNo = openedNo s inodeNo := by
    intro t fd' hkeep htable hinstalls
    have hkeep₂ : KeepsNodes s s₂ := hlook.nodes.setFd _ _
    refine ⟨⟨hkeep₂.trans hkeep, hslot, ?_, Nat.lt_of_lt_of_le hlt hkeep.nextNode,
      hsame.installs hinstalls⟩, (hkeep.iNo p hlt).trans hno⟩
    rw [htable, FsState.setFd_fileTable, hlook.fileTable]
  have hinstall : ∀ {t : FsState} {r : Int × FsState}, KeepsNodes s₂ t →
      t.fileTable = s₂.fileTable → SameFds s₂ t → pcbFdInstall t slot = r →
      Enters s r.2 r.1 slot p flag ∧ (r.2.inodes p).iNo = openedNo s inodeNo := by
    intro t r hkeep htable hfds hr
    obtain ⟨task, htask⟩ := pcbFdInstall_state t slot
    have hinstalls := pcbFdInstall_installs t slot
    rw [hr] at htask hinstalls
    refine hfill ?_ ?_ (hfds.installs hinstalls)
    · rw [htask]
      exact hkeep.setTask task
    · rw [htask]
      exact htable
  refine ⟨p, ?_⟩
  simp only at h
  by_cases hwrite : wantsWrite flag = true
  · rw [if_pos hwrite] at h
    by_cases hdeny : (s₂.inodes p).writeDeny = true
    · rw [if_pos hdeny] at h
      cases h
      exact hfill (.refl _) rfl ⟨rfl, .inl ⟨rfl, fun _ => rfl⟩⟩
    · rw [if_neg hdeny] at h
      exact hinstall (keepsNodes_setDeny s₂ p true) rfl ⟨rfl, fun _ => rfl⟩ (Except.ok.inj h)
  · rw [if_neg hwrite] at h
    exact hinstall (.refl _) rfl (.refl _) (Except.ok.inj h)

theorem fileOpen_noSlot {inodeNo flag : Nat} {fd : Int} (hslot : getFreeSlotInGlobal s = none)
    (h : fileOpen s inodeNo flag = .ok (fd, s')) : fd = -1 ∧ s' = s := by
  unfold fileOpen at h
  rw [hslot] at h
  cases h
  exact ⟨rfl, rfl⟩

/-! ## Creating -/

theorem inodeBitmapAlloc_some {inodeNo : Nat} (h : inodeBitmapAlloc s = .ok (some inodeNo, s')) :
    FirstClear s.part.inodeBitmap inodeNo
      ∧ partBitmapSet s .inodeBitmap inodeNo true = .ok s' := by
  obtain ⟨bitIdx, hscan, h⟩ := Outcome.bind_eq_ok.1 h
  cases bitIdx with
  | none => cases h
  | some bitIdx =>
      obtain ⟨s₁, hset, h⟩ := Outcome.bind_eq_ok.1 h
      cases h
      exact ⟨firstClear_of_bitmapScan hscan, hset⟩

theorem inodeBitmapAlloc_none (h : inodeBitmapAlloc s = .ok (none, s')) : s' = s := by
  obtain ⟨bitIdx, -, h⟩ := Outcome.bind_eq_ok.1 h
  cases bitIdx with
  | none =>
      cases h
      rfl
  | some bitIdx =>
      obtain ⟨s₁, -, h⟩ := Outcome.bind_eq_ok.1 h
      cases h

theorem setInodeBit_eq {bitIdx : Nat} {value : Bool}
    (h : partBitmapSet s .inodeBitmap bitIdx value = .ok s') :
    s' = s.setPart { s.part with inodeBitmap := bitmapSet s.part.inodeBitmap bitIdx value } := by
  simp only [partBitmapSet] at h
  split at h
  · cases h
    rfl
  · cases h

/-- From `s` to `s'` no descriptor was opened or closed. -/
structure Refuses (s s' : FsState) : Prop extends KeepsNodes s s' where
  table : ∀ i, s'.fileTable i = s.fileTable i
    ∨ (s.fileTable i).fdInode = none ∧ (s'.fileTable i).fdInode = none
  fds : SameFds s s'

theorem KeepsFds.refuses (h : KeepsFds s s') : Refuses s s' :=
  ⟨h.nodes, fun i => .inl (by rw [h.fileTable]), h.sameFds⟩

theorem Refuses.trans (h : Refuses s s') (h' : Refuses s' s'') : Refuses s s'' := by
  refine ⟨h.toKeepsNodes.trans h'.toKeepsNodes, fun i => ?_, h.fds.trans h'.fds⟩
  rcases h.table i with hi | ⟨hi, hi'⟩
  · rcases h'.table i with hj | ⟨hj, hj'⟩
    · exact .inl (hj.trans hi)
    · exact .inr ⟨hi ▸ hj, hj'⟩
  · rcases h'.table i with hj | ⟨-, hj'⟩
    · exact .inr ⟨hi, by rw [hj, hi']⟩
    · exact .inr ⟨hi, hj'⟩

/-- States with the same nodes and tables. -/
theorem Refuses.of_eq (hnodes : s'.inodes = s.inodes) (hnext : s'.nextNode = s.nextNode)
    (hopen : s'.part.openInodes = s.part.openInodes) (htable : s'.fileTable = s.fileTable)
    (hfds : SameFds s s') : Refuses s s' := by
  refine ⟨⟨Nat.le_of_eq hnext.symm, fun p _ => by rw [hnodes], fun p hp => .inl ?_⟩,
    fun i => .inl (by rw [htable]), hfds⟩
  rw [← hopen]
  exact hp

theorem rollbackInodeNo_refuses {inodeNo : Nat} {ioBuf : HeapBlock} {fd : Int}
    (h : rollbackInodeNo inodeNo ioBuf s = .ok (fd, s')) : fd = -1 ∧ Refuses s s' := by
  obtain ⟨s₁, hset, h⟩ := Outcome.bind_eq_ok.1 h
  obtain ⟨_, -, h⟩ := Outcome.bind_eq_ok.1 h
  cases h
  rw [setInodeBit_eq hset]
  exact ⟨rfl, .of_eq rfl rfl rfl rfl ⟨rfl, fun _ => rfl⟩⟩

theorem rollbackNode_refuses {inodeNo : Nat} {node ioBuf : HeapBlock} {fd : Int}
    (h : rollbackNode inodeNo node ioBuf s = .ok (fd, s')) : fd = -1 ∧ Refuses s s' := by
  obtain ⟨_, -, h⟩ := Outcome.bind_eq_ok.1 h
  exact rollbackInodeNo_refuses h

/-- `file_create` from the filled descriptor on: it takes the descriptor back,
    or leaves it and puts the node on the list. -/
theorem createInDir_cases {parentDir : Dir} {filename : List UInt8} {inodeNo fdIdx p : Nat}
    {node ioBuf : HeapBlock} {fd : Int}
    (h : createInDir parentDir filename inodeNo fdIdx p node ioBuf s = .ok (fd, s')) :
    (fd = -1 ∧ ∃ s₁, Writes s s₁
        ∧ rollbackNode inodeNo node ioBuf (s₁.setFd fdIdx ⟨0, 0, none⟩) = .ok (fd, s'))
      ∨ ∃ s₁, Writes s s₁ ∧ pcbFdInstall
        ((s₁.pushOpen p).setInode p { s₁.inodes p with iOpenCnt := 1 }) fdIdx = (fd, s') := by
  obtain ⟨de, -, h⟩ := Outcome.bind_eq_ok.1 h
  obtain ⟨⟨synced, s₁⟩, hsync, h⟩ := Outcome.bind_eq_ok.1 h
  have hwrites := syncDirEntry_writes hsync
  cases synced with
  | false =>
      have h : rollbackNode inodeNo node ioBuf (s₁.setFd fdIdx ⟨0, 0, none⟩) = .ok (fd, s') := h
      exact .inl ⟨(rollbackNode_refuses h).1, s₁, hwrites, h⟩
  | true =>
      obtain ⟨s₂, hparent, h⟩ := Outcome.bind_eq_ok.1 h
      obtain ⟨s₃, hnew, h⟩ := Outcome.bind_eq_ok.1 h
      obtain ⟨s₄, hbit, h⟩ := Outcome.bind_eq_ok.1 h
      obtain ⟨_, -, h⟩ := Outcome.bind_eq_ok.1 h
      exact .inr ⟨s₄, hwrites.trans ((inodeSync_writes hparent).trans
        ((inodeSync_writes hnew).trans (bitmapSync_writes hbit))), Except.ok.inj h⟩

/-- `file_create` from the new inode number on: it is refused, or fills a slot
    for the new inode. -/
theorem createNode_cases {parentDir : Dir} {filename : List UInt8} {flag inodeNo : Nat}
    {ioBuf : HeapBlock} {fd : Int}
    (h : createNode parentDir filename flag inodeNo ioBuf s = .ok (fd, s')) :
    (fd = -1 ∧ Refuses s s')
      ∨ ∃ slot p, Enters s s' fd slot p flag ∧ (s'.inodes p).iNo = inodeNo := by
  unfold createNode at h
  simp only at h
  cases hnode : sysMalloc (s.setPgdir none) with
  | mk node s₁ =>
  rw [hnode] at h
  have hs₁ := sysMalloc_state hnode
  cases node with
  | none =>
      obtain ⟨hfd, href⟩ := rollbackInodeNo_refuses h
      refine .inl ⟨hfd, Refuses.trans ?_ href⟩
      rw [hs₁]
      exact .of_eq rfl rfl rfl rfl ((sameFds_setPgdir s none).congr rfl rfl)
  | some node =>
      let s₂ := (s₁.newNode (inodeInit inodeNo)).setPgdir s.task.pgdir
      have hnext : s₁.nextNode = s.nextNode := by rw [hs₁]; rfl
      have hinodes : s₁.inodes = s.inodes := by rw [hs₁]; rfl
      have hkeep₂ : KeepsNodes s s₂ := by
        refine ⟨?_, fun q hq => ?_, fun q hq => .inl ?_⟩
        · show s.nextNode ≤ s₁.nextNode + 1
          rw [hnext]
          exact Nat.le_succ _
        · show (Function.update s₁.inodes s₁.nextNode (inodeInit inodeNo) q).iNo = _
          rw [hnext, hinodes, Function.update_of_ne (Nat.ne_of_lt hq)]
        · have hq' : q ∈ s₁.part.openInodes := hq
          rw [hs₁] at hq'
          exact hq'
      have htable₂ : s₂.fileTable = s.fileTable := by
        show s₁.fileTable = s.fileTable
        rw [hs₁]
        rfl
      have hfds₁ : SameFds s s₁ := by
        rw [hs₁]
        exact (sameFds_setPgdir s none).congr rfl rfl
      have hnew : SameFds s (s₁.newNode (inodeInit inodeNo)) := hfds₁.congr rfl rfl
      have hfds₂ : SameFds s s₂ := hnew.trans (sameFds_setPgdir _ s.task.pgdir)
      have hslot₂ : getFreeSlotInGlobal s₂ = getFreeSlotInGlobal s := by
        rw [getFreeSlotInGlobal, getFreeSlotInGlobal, htable₂]
      simp only at h
      cases hslot : getFreeSlotInGlobal s₂ with
      | none =>
          rw [hslot] at h
          obtain ⟨hfd, href⟩ := rollbackNode_refuses h
          exact .inl ⟨hfd, Refuses.trans ⟨hkeep₂, fun i => .inl (by rw [htable₂]), hfds₂⟩ href⟩
      | some fdIdx =>
          rw [hslot] at h
          let s₃ := (s₂.setFd fdIdx ⟨0, flag, some s₁.nextNode⟩).setInode s₁.nextNode
              { s₂.inodes s₁.nextNode with writeDeny := false }
          have h : createInDir parentDir filename inodeNo fdIdx s₁.nextNode node ioBuf s₃
              = .ok (fd, s') := h
          have hkeep₃ : KeepsNodes s s₃ := by
            refine ⟨hkeep₂.nextNode, fun q hq => ?_, hkeep₂.opened⟩
            show (Function.update s₂.inodes s₁.nextNode _ q).iNo = _
            rw [hnext, Function.update_of_ne (Nat.ne_of_lt hq)]
            exact hkeep₂.iNo q hq
          have hno₃ : (s₃.inodes s₁.nextNode).iNo = inodeNo := by
            show (Function.update s₂.inodes s₁.nextNode
              { s₂.inodes s₁.nextNode with writeDeny := false } s₁.nextNode).iNo = _
            rw [Function.update_self]
            show (Function.update s₁.inodes s₁.nextNode (inodeInit inodeNo) s₁.nextNode).iNo = _
            rw [Function.update_self]
            rfl
          have htable₃ : s₃.fileTable
              = Function.update s.fileTable fdIdx ⟨0, flag, some s₁.nextNode⟩ := by
            rw [← htable₂]
            rfl
          have hlt₃ : s₁.nextNode < s₃.nextNode := Nat.lt_succ_self _
          rcases createInDir_cases h with ⟨hfd, s₄, hwrites, hroll⟩ | ⟨s₄, hwrites, hinstall⟩
          · have hkeep := hwrites.keepsFds
            have hfds₄ : SameFds s (s₄.setFd fdIdx ⟨0, 0, none⟩) :=
              hfds₂.congr hkeep.cur hkeep.procs
            refine .inl ⟨hfd, Refuses.trans ⟨hkeep₃.trans ?_, fun i => ?_, hfds₄⟩
              (rollbackNode_refuses hroll).2⟩
            · exact ⟨hkeep.nodes.nextNode, hkeep.nodes.iNo, hkeep.nodes.opened⟩
            · rw [FsState.setFd_fileTable, hkeep.fileTable, htable₃, Function.update_idem]
              by_cases hi : i = fdIdx
              · rw [hi, Function.update_self]
                exact .inr ⟨(getFreeSlotInGlobal_some (hslot₂ ▸ hslot)).2.2, rfl⟩
              · rw [Function.update_of_ne hi]
                exact .inl rfl
          · have hkeep := hwrites.keepsFds
            obtain ⟨task, htask⟩ := pcbFdInstall_state ((s₄.pushOpen s₁.nextNode).setInode
              s₁.nextNode { s₄.inodes s₁.nextNode with iOpenCnt := 1 }) fdIdx
            have hinstalls := pcbFdInstall_installs ((s₄.pushOpen s₁.nextNode).setInode
              s₁.nextNode { s₄.inodes s₁.nextNode with iOpenCnt := 1 }) fdIdx
            have hfds₄ : SameFds s ((s₄.pushOpen s₁.nextNode).setInode
                s₁.nextNode { s₄.inodes s₁.nextNode with iOpenCnt := 1 }) :=
              hfds₂.congr hkeep.cur hkeep.procs
            rw [hinstall] at htask hinstalls
            simp only at htask hinstalls
            rw [htask] at hinstalls ⊢
            refine .inr ⟨fdIdx, s₁.nextNode, ⟨⟨?_, fun q hq => ?_, fun q hq => ?_⟩,
              hslot₂ ▸ hslot, ?_, ?_, hfds₄.installs hinstalls⟩, ?_⟩
            · exact Nat.le_trans hkeep₃.nextNode hkeep.nextNode
            · show (Function.update s₄.inodes s₁.nextNode _ q).iNo = _
              rw [hnext, Function.update_of_ne (Nat.ne_of_lt hq)]
              exact (hkeep₃.trans hkeep.nodes).iNo q hq
            · rcases List.mem_cons.1 hq with rfl | hq
              · exact .inr ⟨Nat.le_of_eq hnext.symm, Nat.lt_of_lt_of_le hlt₃ hkeep.nextNode⟩
              · exact (hkeep₃.trans hkeep.nodes).opened q hq
            · show s₄.fileTable = _
              rw [hkeep.fileTable, htable₃]
            · exact Nat.lt_of_lt_of_le hlt₃ hkeep.nextNode
            · show (Function.update s₄.inodes s₁.nextNode
                { s₄.inodes s₁.nextNode with iOpenCnt := 1 } s₁.nextNode).iNo = _
              rw [Function.update_self]
              exact (hkeep.iNo _ hlt₃).trans hno₃

theorem fileCreate_cases {parentDir : Dir} {filename : List UInt8} {flag : Nat} {fd : Int}
    (h : fileCreate s parentDir filename flag = .ok (fd, s')) :
    (fd = -1 ∧ Refuses s s')
      ∨ ∃ inodeNo slot p, FirstClear s.part.inodeBitmap inodeNo ∧ Enters s s' fd slot p flag
        ∧ (s'.inodes p).iNo = inodeNo := by
  unfold fileCreate at h
  cases hbuf : sysMalloc s with
  | mk ioBuf s₁ =>
  rw [hbuf] at h
  have hs₁ := sysMalloc_state hbuf
  have href₁ : Refuses s s₁ := by
    rw [hs₁]
    exact .of_eq rfl rfl rfl rfl ⟨rfl, fun _ => rfl⟩
  cases ioBuf with
  | none =>
      cases h
      exact .inl ⟨rfl, href₁⟩
  | some ioBuf =>
      obtain ⟨⟨inodeNo, s₂⟩, halloc, h⟩ := Outcome.bind_eq_ok.1 h
      cases inodeNo with
      | none =>
          cases h
          rw [inodeBitmapAlloc_none halloc]
          exact .inl ⟨rfl, href₁⟩
      | some inodeNo =>
          obtain ⟨hfirst, hset⟩ := inodeBitmapAlloc_some halloc
          have hs₂ := setInodeBit_eq hset
          have href₂ : Refuses s s₂ := by
            rw [hs₂, hs₁]
            exact .of_eq rfl rfl rfl rfl ⟨rfl, fun _ => rfl⟩
          have hslot : getFreeSlotInGlobal s₂ = getFreeSlotInGlobal s := by
            rw [hs₂, hs₁]
            rfl
          have htable : s₂.fileTable = s.fileTable := by
            rw [hs₂, hs₁]
            rfl
          rcases createNode_cases h with ⟨hfd, href⟩ | ⟨slot, p, henter, hno⟩
          · exact .inl ⟨hfd, href₂.trans href⟩
          · refine .inr ⟨inodeNo, slot, p, ?_, ⟨href₂.toKeepsNodes.trans henter.toKeepsNodes, ?_,
              ?_, henter.lt, href₂.fds.installs henter.installs⟩, hno⟩
            · rw [hs₁] at hfirst
              exact hfirst
            · rw [← hslot]
              exact henter.free
            · rw [henter.fileTable, htable]

/-! ## sys_open and sys_close -/

/-- Where the path leads to a file, `sys_open` without O_CREAT opens it. -/
theorem Resolves.sysOpen {pathname : List UInt8} {flags inodeNo : Nat} {record : PathSearchRecord}
    {r : Int × FsState} (hres : Resolves s pathname (some inodeNo) record s')
    (hcreat : flags.testBit 2 = false) (h : Fs.sysOpen s pathname flags = .ok r) :
    fileOpen s' inodeNo flags = .ok r := by
  unfold Fs.sysOpen at h
  cases hlast : pathname.getLast? with
  | none =>
      rw [hlast] at h
      cases h
  | some c =>
    have hc : c ≠ slash := fun hc => hres.noSlash (hc ▸ hlast)
    rw [hlast] at h
    simp only at h
    rw [if_neg hc] at h
    obtain ⟨_, -, h⟩ := Outcome.bind_eq_ok.1 h
    obtain ⟨depth, hdepth, h⟩ := Outcome.bind_eq_ok.1 h
    rw [hres.search, Outcome.ok_bind] at h
    simp only at h
    rw [if_neg hres.noDir, ← hres.depth, hdepth, Outcome.ok_bind, if_neg (not_not.2 rfl)] at h
    simp only [openSearched, hcreat, if_neg Bool.false_ne_true] at h
    exact h

/-- The inode number that `sys_open` puts into the file table, if it gets that
    far. -/
def EntersNo (s : FsState) (pathname : List UInt8) (flags n : Nat) : Prop :=
  (∃ inodeNo record s₁, Resolves s pathname (some inodeNo) record s₁
      ∧ flags.testBit 2 = false ∧ openedNo s₁ inodeNo = n)
    ∨ (∃ record s₁, Resolves s pathname none record s₁) ∧ flags.testBit 2 = true
      ∧ FirstClear s.part.inodeBitmap n

theorem Enters.of_looks {fd : Int} {slot p flag : Nat} (h : Looks s s')
    (he : Enters s' s'' fd slot p flag) : Enters s s'' fd slot p flag := by
  have htable := h.fileTable
  refine ⟨h.nodes.trans he.toKeepsNodes, ?_, ?_, he.lt, h.keepsFds.sameFds.installs he.installs⟩
  · rw [← he.free, getFreeSlotInGlobal, getFreeSlotInGlobal, htable]
  · rw [he.fileTable, htable]

/-- `sys_open` enters nothing in the file table, or fills a free slot for the
    inode of that number. -/
theorem sysOpen_table {pathname : List UInt8} {flags : Nat} {fd : Int} (hs : NodesOk s)
    (h : Fs.sysOpen s pathname flags = .ok (fd, s')) :
    (fd = -1 ∧ Refuses s s')
      ∨ ∃ n slot p, EntersNo s pathname flags n ∧ Enters s s' fd slot p flags
        ∧ (s'.inodes p).iNo = n := by
  rcases sysOpen_cases h with ⟨hfd, hsought⟩ | ⟨inodeNo, record, s₁, hres, hcreat, hopen⟩
    | ⟨record, filename, s₁, s₂, hres, hcreat, -, hcreate, hclose⟩
  · exact .inl ⟨hfd, hsought.looks.keepsFds.refuses⟩
  · have hlook := searchFile_looks hres.search
    cases hslot : getFreeSlotInGlobal s₁ with
    | none =>
        obtain ⟨hfd, rfl⟩ := fileOpen_noSlot hslot hopen
        exact .inl ⟨hfd, hlook.keepsFds.refuses⟩
    | some slot =>
        obtain ⟨p, henter, hno⟩ := fileOpen_enters (hlook.nodes.opened_lt hs.opened) hslot hopen
        exact .inr ⟨_, slot, p, .inl ⟨inodeNo, record, s₁, hres, hcreat, rfl⟩,
          henter.of_looks hlook, hno⟩
  · have hlook := searchFile_looks hres.search
    have hclose := dirClose_looks hclose
    rcases fileCreate_cases hcreate with ⟨hfd, href⟩ | ⟨n, slot, p, hfirst, henter, hno⟩
    · exact .inl ⟨hfd, hlook.keepsFds.refuses.trans (href.trans hclose.keepsFds.refuses)⟩
    · have henter := henter.of_looks hlook
      refine .inr ⟨n, slot, p, .inr ⟨⟨record, s₁, hres⟩, hcreat, ?_⟩,
        ⟨henter.toKeepsNodes.trans hclose.nodes, henter.free, ?_,
          Nat.lt_of_lt_of_le henter.lt hclose.nextNode,
          henter.installs.sameFds hclose.keepsFds.sameFds⟩, ?_⟩
      · rw [hlook.same] at hfirst
        exact hfirst
      · rw [hclose.fileTable, henter.fileTable]
      · rw [hclose.nodes.iNo p henter.lt, hno]

/-- `file_close` of an entry whose inode is in node `p`. -/
theorem fileClose_eq {fdIdx p : Nat} (hp : (s.fileTable fdIdx).fdInode = some p) :
    ∃ s₁, s₁ = s.setInode p { s.inodes p with writeDeny := false }
      ∧ fileClose s fdIdx = .ok ((inodeClose s₁ p).setFd fdIdx
        { (inodeClose s₁ p).fileTable fdIdx with fdInode := none }) := by
  refine ⟨s.setInode p { s.inodes p with writeDeny := false }, rfl, ?_⟩
  unfold fileClose
  rw [hp]

theorem fileClose_ne_none {fdIdx : Nat} (h : fileClose s fdIdx = .ok s') :
    ∃ p, (s.fileTable fdIdx).fdInode = some p := by
  cases hp : (s.fileTable fdIdx).fdInode with
  | none =>
      unfold fileClose at h
      rw [hp] at h
      cases h
  | some p => exact ⟨p, rfl⟩

/-- `file_close` empties its entry. -/
theorem fileClose_spec {fdIdx : Nat} (h : fileClose s fdIdx = .ok s') :
    KeepsNodes s s' ∧ s'.fileTable
      = Function.update s.fileTable fdIdx { s.fileTable fdIdx with fdInode := none } := by
  obtain ⟨p, hp⟩ := fileClose_ne_none h
  obtain ⟨s₁, hs₁, hcall⟩ := fileClose_eq hp
  rw [hcall] at h
  rw [← Except.ok.inj h]
  have hkeep : KeepsNodes s s₁ := hs₁ ▸ keepsNodes_setDeny s p false
  have hclose := looks_inodeClose s₁ p
  have htable : (inodeClose s₁ p).fileTable = s.fileTable := by
    rw [hclose.fileTable, hs₁]
    rfl
  refine ⟨(hkeep.trans hclose.nodes).setFd _ _, ?_⟩
  rw [FsState.setFd_fileTable, htable]

/-- One entry may be closed or count one user less; nothing is opened. -/
structure Closes (s s' : FsState) : Prop extends KeepsNodes s s' where
  table : ∀ i, s'.fileTable i = s.fileTable i
    ∨ (s'.fileTable i).fdInode = none
    ∨ (s'.fileTable i).fdInode = (s.fileTable i).fdInode
      ∧ (s'.fileTable i).fdFlag = (s.fileTable i).fdFlag

theorem pipeClose_closes (s : FsState) (globalFd : Nat) : Closes s (pipeClose s globalFd) := by
  unfold pipeClose
  simp only
  split
  · refine ⟨⟨Nat.le_refl _, fun _ _ => rfl, fun _ hq => .inl hq⟩, fun i => ?_⟩
    rw [FsState.setFd_fileTable]
    by_cases hi : i = globalFd
    · rw [hi, Function.update_self]
      exact .inr (.inl rfl)
    · rw [Function.update_of_ne hi]
      exact .inl rfl
  · refine ⟨⟨Nat.le_refl _, fun _ _ => rfl, fun _ hq => .inl hq⟩, fun i => ?_⟩
    rw [FsState.setFd_fileTable]
    by_cases hi : i = globalFd
    · rw [hi, Function.update_self]
      exact .inr (.inr ⟨rfl, rfl⟩)
    · rw [Function.update_of_ne hi]
      exact .inl rfl

theorem closeGlobal_closes {globalFd : Nat} (h : closeGlobal s globalFd = .ok s') :
    Closes s s' := by
  unfold closeGlobal at h
  split at h
  · rw [← Except.ok.inj h]
    exact pipeClose_closes s globalFd
  · obtain ⟨hkeep, htable⟩ := fileClose_spec h
    refine ⟨hkeep, fun i => ?_⟩
    rw [htable]
    by_cases hi : i = globalFd
    · rw [hi, Function.update_self]
      exact .inr (.inl rfl)
    · rw [Function.update_of_ne hi]
      exact .inl rfl

theorem sysClose_closes {fd r : Int} (h : Fs.sysClose s fd = .ok (r, s')) : Closes s s' := by
  unfold Fs.sysClose at h
  split at h
  · obtain ⟨globalFd, -, h⟩ := Outcome.bind_eq_ok.1 h
    obtain ⟨s₁, hclose, h⟩ := Outcome.bind_eq_ok.1 h
    cases h
    have hcloses := closeGlobal_closes hclose
    exact ⟨hcloses.setTask _, hcloses.table⟩
  · cases h
    exact ⟨.refl s, fun _ => .inl rfl⟩

/-! ## The nodes stay in order -/

/-- A new process runs on the same tables. -/
theorem NodesOk.runAs (h : NodesOk s) (t : Nat) : NodesOk (s.runAs t) := ⟨h.opened, h.table⟩

theorem Enters.nodesOk {fd : Int} {slot p flag : Nat} (h : Enters s s' fd slot p flag)
    (hs : NodesOk s) : NodesOk s' := by
  refine ⟨h.toKeepsNodes.opened_lt hs.opened, fun i q hq => ?_⟩
  rw [h.fileTable] at hq
  by_cases hi : i = slot
  · rw [hi, Function.update_self] at hq
    cases hq
    exact h.lt
  · rw [Function.update_of_ne hi] at hq
    exact Nat.lt_of_lt_of_le (hs.table i q hq) h.nextNode

theorem Refuses.nodesOk (h : Refuses s s') (hs : NodesOk s) : NodesOk s' := by
  refine ⟨h.toKeepsNodes.opened_lt hs.opened, fun i q hq => ?_⟩
  rcases h.table i with htable | ⟨-, hnone⟩
  · rw [htable] at hq
    exact Nat.lt_of_lt_of_le (hs.table i q hq) h.nextNode
  · rw [hnone] at hq
    cases hq

theorem Closes.nodesOk (h : Closes s s') (hs : NodesOk s) : NodesOk s' := by
  refine ⟨h.toKeepsNodes.opened_lt hs.opened, fun i q hq => ?_⟩
  rcases h.table i with htable | hnone | ⟨hsame, -⟩
  · rw [htable] at hq
    exact Nat.lt_of_lt_of_le (hs.table i q hq) h.nextNode
  · rw [hnone] at hq
    cases hq
  · rw [hsame] at hq
    exact Nat.lt_of_lt_of_le (hs.table i q hq) h.nextNode

end Fs
end JackOS
