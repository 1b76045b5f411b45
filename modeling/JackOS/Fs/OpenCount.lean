/-
  JackOS.Fs.OpenCount

  The entries of the file table among the holders of a node.  Every entry that
  is in use for a file holds its node, so the node stays open at least as long;
  `sys_open` and `file_close` keep it so.
-/

import JackOS.Base.Pointwise
import JackOS.Fs.RefCount

namespace JackOS
namespace Fs

open Base

variable {s s' : FsState} {refs : Nat → Nat} {p : Nat}

/-! ## Entries -/

/-- How many entries in use for a file lie in node `p`. -/
def fileRefs (s : FsState) (p : Nat) : Nat :=
  (List.range maxFileOpen).countP fun i => (s.fileTable i).fdInode = some p ∧ isPipe s i = false

/-- The holders include the entries of the file table. -/
structure Counted (s : FsState) (refs : Nat → Nat) : Prop extends RefCounts s refs where
  entries : ∀ p, fileRefs s p ≤ refs p

theorem fileRefs_congr (h : s'.fileTable = s.fileTable) (p : Nat) :
    fileRefs s' p = fileRefs s p := by
  unfold fileRefs isPipe
  rw [h]

/-- Counting with entry `i` set apart. -/
theorem fileRefs_setFd {i : Nat} {fd : FileDesc} (hi : i < maxFileOpen)
    (h : s'.fileTable = Function.update s.fileTable i fd) (p : Nat) :
    fileRefs s' p + (if (s.fileTable i).fdInode = some p ∧ isPipe s i = false then 1 else 0)
      = fileRefs s p + (if fd.fdInode = some p ∧ (fd.fdFlag == pipeFlag) = false then 1 else 0) := by
  have hmem : i ∈ List.range maxFileOpen := List.mem_range.2 hi
  have hrest : ∀ j, j ≠ i →
      decide ((s'.fileTable j).fdInode = some p ∧ isPipe s' j = false)
        = decide ((s.fileTable j).fdInode = some p ∧ isPipe s j = false) := by
    intro j hj
    rw [isPipe, isPipe, h, Function.update_of_ne hj]
  have hself : (s'.fileTable i).fdInode = some p ∧ isPipe s' i = false
      ↔ fd.fdInode = some p ∧ (fd.fdFlag == pipeFlag) = false := by
    rw [isPipe, h, Function.update_self]
  -- the other entries count the same on both sides
  rw [fileRefs, fileRefs, countP_eq_erase _ hmem, countP_eq_erase _ hmem,
    countP_erase_congr List.nodup_range hrest]
  simp only [decide_eq_true_eq, hself]
  omega

/-- From `s` to `s'` the holders are those of `refs` and those of the entries
    that were filled. -/
def Grows (s s' : FsState) (refs : Nat → Nat) : Prop :=
  (RefCounts s' refs ∧ ∀ q, fileRefs s' q ≤ fileRefs s q)
    ∨ ∃ p, RefCounts s' (addRef refs p) ∧ ∀ q, fileRefs s' q ≤ addRef (fileRefs s) p q

/-- From `s` to `s'` the free slot `slot` was filled for node `p`, which has one
    holder more. -/
structure Fills (s s' : FsState) (refs : Nat → Nat) (slot p : Nat) : Prop where
  free : getFreeSlotInGlobal s = some slot
  table : ∃ flag, s'.fileTable = Function.update s.fileTable slot ⟨0, flag, some p⟩
  counts : RefCounts s' (addRef refs p)

/-- From `s` to `s'` the call failed, and every node has the holders it had. -/
structure Fails (s s' : FsState) (refs : Nat → Nat) (fd : Int) : Prop where
  fd : fd = -1
  counts : RefCounts s' refs
  entries : ∀ q, fileRefs s' q ≤ fileRefs s q

theorem RefCounts.setTask (h : RefCounts s refs) (task : Task) : RefCounts (s.setTask task) refs :=
  h.congr rfl (Nat.le_refl _) fun _ _ => rfl

theorem RefCounts.setFd (h : RefCounts s refs) (i : Nat) (fd : FileDesc) :
    RefCounts (s.setFd i fd) refs :=
  h.congr rfl (Nat.le_refl _) fun _ _ => rfl

theorem RefCounts.setDeny (h : RefCounts s refs) (p : Nat) (deny : Bool) :
    RefCounts (s.setInode p { s.inodes p with writeDeny := deny }) refs := by
  refine h.congr rfl (Nat.le_refl _) fun q _ => ?_
  rw [FsState.setInode_inodes]
  by_cases hqp : q = p
  · rw [hqp, Function.update_self]
  · rw [Function.update_of_ne hqp]

theorem RefCounts.pcbFdInstall {globalFd : Int} {r : Int × FsState} (h : RefCounts s refs)
    (hcall : Fs.pcbFdInstall s globalFd = r) :
    RefCounts r.2 refs ∧ r.2.fileTable = s.fileTable := by
  obtain ⟨task, htask⟩ := pcbFdInstall_state s globalFd
  rw [← hcall, htask]
  exact ⟨h.setTask task, rfl⟩

/-- An entry filled for node `p` may be one more of `p`. -/
theorem fileRefs_fill {slot flag : Nat} (hslot : slot < maxFileOpen)
    (h : s'.fileTable = Function.update s.fileTable slot ⟨0, flag, some p⟩) (q : Nat) :
    fileRefs s' q ≤ addRef (fileRefs s) p q := by
  have hcount := fileRefs_setFd hslot h q
  by_cases hq : q = p
  · rw [hq, addRef_self]
    rw [hq] at hcount
    split at hcount <;> split at hcount <;> omega
  · rw [addRef_of_ne hq]
    have hne : ¬ (some p = some q ∧ (flag == pipeFlag) = false) := by
      rintro ⟨heq, -⟩
      exact hq (Option.some.inj heq).symm
    rw [if_neg hne] at hcount
    omega

theorem fileRefs_clear {i : Nat} {fd : FileDesc} (hi : i < maxFileOpen) (hfd : fd.fdInode = none)
    (h : s'.fileTable = Function.update s.fileTable i fd) (q : Nat) :
    fileRefs s' q ≤ fileRefs s q := by
  have hcount := fileRefs_setFd hi h q
  rw [hfd, if_neg (show ¬ (none = some q ∧ _) from fun hand => (by cases hand.1))] at hcount
  omega

/-- The count in a pipe's entry is no matter of files. -/
theorem fileRefs_setFd_pipe {i : Nat} (hi : i < maxFileOpen) (hpipe : isPipe s i = true)
    (pos q : Nat) :
    fileRefs (s.setFd i { s.fileTable i with fdPos := pos }) q = fileRefs s q := by
  have hcount := fileRefs_setFd hi (FsState.setFd_fileTable s i ⟨pos, (s.fileTable i).fdFlag,
    (s.fileTable i).fdInode⟩) q
  have hflag : ((s.fileTable i).fdFlag == pipeFlag) = true := hpipe
  rw [if_neg (by rw [hpipe]; simp), if_neg (by rw [hflag]; simp)] at hcount
  exact hcount

theorem Fills.grows {slot : Nat} (h : Fills s s' refs slot p) : Grows s s' refs := by
  obtain ⟨flag, htable⟩ := h.table
  exact .inr ⟨p, h.counts, fileRefs_fill (getFreeSlotInGlobal_some h.free).2.1 htable⟩

theorem Fails.grows {fd : Int} (h : Fails s s' refs fd) : Grows s s' refs :=
  .inl ⟨h.counts, h.entries⟩

/-- `file_open` fills a slot whenever one is free, whether it succeeds or not. -/
theorem RefCounts.fileOpen_fills {inodeNo flag slot : Nat} {fd : Int} (h : RefCounts s refs)
    (hroom : Room refs 1) (hslot : getFreeSlotInGlobal s = some slot)
    (hcall : Fs.fileOpen s inodeNo flag = .ok (fd, s')) :
    ∃ p s₁, Fs.inodeOpen s inodeNo = .ok (p, s₁) ∧ Fills s s' refs slot p := by
  unfold Fs.fileOpen at hcall
  rw [hslot] at hcall
  obtain ⟨⟨p, s₁⟩, hopen, hcall⟩ := Outcome.bind_eq_ok.1 hcall
  let s₂ := s₁.setFd slot { fdPos := 0, fdFlag := flag, fdInode := some p }
  have h₂ : RefCounts s₂ (addRef refs p) := (h.inodeOpen hroom hopen).setFd _ _
  have htable₂ : s₂.fileTable = Function.update s.fileTable slot ⟨0, flag, some p⟩ := by
    rw [FsState.setFd_fileTable, (inodeOpen_spec hopen).1.fileTable]
  have hend : ∀ {t : FsState}, RefCounts t (addRef refs p) → t.fileTable = s₂.fileTable →
      ∃ p s₁, Fs.inodeOpen s inodeNo = .ok (p, s₁) ∧ Fills s t refs slot p := by
    intro t ht htable
    exact ⟨p, s₁, hopen, hslot, ⟨flag, htable.trans htable₂⟩, ht⟩
  simp only at hcall
  by_cases hwrite : wantsWrite flag = true
  · rw [if_pos hwrite] at hcall
    by_cases hdeny : (s₂.inodes p).writeDeny = true
    · rw [if_pos hdeny] at hcall
      cases hcall
      exact hend h₂ rfl
    · rw [if_neg hdeny] at hcall
      have hfin := (h₂.setDeny p true).pcbFdInstall (Except.ok.inj hcall)
      exact hend hfin.1 hfin.2
  · rw [if_neg hwrite] at hcall
    have hfin := h₂.pcbFdInstall (Except.ok.inj hcall)
    exact hend hfin.1 hfin.2

theorem RefCounts.fileOpen {inodeNo flag : Nat} {fd : Int} (h : RefCounts s refs)
    (hroom : Room refs 1) (hcall : Fs.fileOpen s inodeNo flag = .ok (fd, s')) :
    Grows s s' refs := by
  cases hslot : getFreeSlotInGlobal s with
  | none =>
      obtain ⟨-, rfl⟩ := fileOpen_noSlot hslot hcall
      exact .inl ⟨h, fun _ => Nat.le_refl _⟩
  | some slot =>
      obtain ⟨_, _, -, hfills⟩ := h.fileOpen_fills hroom hslot hcall
      exact hfills.grows

theorem RefCounts.rollbackInodeNo {inodeNo : Nat} {ioBuf : HeapBlock} {fd : Int}
    (h : RefCounts s refs) (hcall : Fs.rollbackInodeNo inodeNo ioBuf s = .ok (fd, s')) :
    RefCounts s' refs ∧ s'.fileTable = s.fileTable := by
  obtain ⟨s₁, hset, hcall⟩ := Outcome.bind_eq_ok.1 hcall
  obtain ⟨_, -, hcall⟩ := Outcome.bind_eq_ok.1 hcall
  cases hcall
  rw [setInodeBit_eq hset]
  exact ⟨h.congr rfl (Nat.le_refl _) fun _ _ => rfl, rfl⟩

theorem RefCounts.rollbackNode {inodeNo : Nat} {node ioBuf : HeapBlock} {fd : Int}
    (h : RefCounts s refs) (hcall : Fs.rollbackNode inodeNo node ioBuf s = .ok (fd, s')) :
    RefCounts s' refs ∧ s'.fileTable = s.fileTable := by
  obtain ⟨_, -, hcall⟩ := Outcome.bind_eq_ok.1 hcall
  exact h.rollbackInodeNo hcall

/-- `file_create` from the filled descriptor on, for a node that is not open
    yet. -/
theorem RefCounts.createInDir {s₀ : FsState} {parentDir : Dir} {filename : List UInt8}
    {inodeNo slot : Nat} {node ioBuf : HeapBlock} {fd : Int} (h : RefCounts s refs)
    (hfresh : p ∉ s.part.openInodes) (hlt : p < s.nextNode)
    (hslot : getFreeSlotInGlobal s₀ = some slot)
    (htable : ∃ flag, s.fileTable = Function.update s₀.fileTable slot ⟨0, flag, some p⟩)
    (hcall : Fs.createInDir parentDir filename inodeNo slot p node ioBuf s = .ok (fd, s')) :
    Fails s₀ s' refs fd ∨ Fills s₀ s' refs slot p := by
  obtain ⟨flag, htable⟩ := htable
  rcases createInDir_cases hcall with ⟨hfd, s₁, hwrites, hroll⟩ | ⟨s₁, hwrites, hinstall⟩
  · -- the entry of the directory was not written: the descriptor is given back
    obtain ⟨hcounts, htable'⟩ := ((h.writes hwrites).setFd _ _).rollbackNode hroll
    have hclear : s'.fileTable = Function.update s₀.fileTable slot ⟨0, 0, none⟩ := by
      rw [htable', FsState.setFd_fileTable, hwrites.keepsFds.fileTable, htable,
        Function.update_idem]
    exact .inl ⟨hfd, hcounts, fileRefs_clear (getFreeSlotInGlobal_some hslot).2.1 rfl hclear⟩
  · -- it was: the new node goes into the list of the open ones
    have h₁ := h.writes hwrites
    have hsame := hwrites.same
    have hopen₁ : s₁.part.openInodes = s.part.openInodes := by rw [hsame]
    have hnext₁ : s₁.nextNode = s.nextNode := by rw [hsame]
    have hfresh₁ : p ∉ s₁.part.openInodes := hopen₁ ▸ hfresh
    have hpush : RefCounts ((s₁.pushOpen p).setInode p { s₁.inodes p with iOpenCnt := 1 })
        (addRef refs p) := by
      refine h₁.push hfresh₁ rfl (hnext₁ ▸ hlt) (Nat.le_refl _) rfl (fun q hq => ?_) ?_
      · have hne : q ≠ p := fun heq => hfresh₁ (heq ▸ hq)
        show (Function.update s₁.inodes p _ q).iOpenCnt = _
        rw [Function.update_of_ne hne]
      · show (Function.update s₁.inodes p _ p).iOpenCnt = 1
        rw [Function.update_self]
    obtain ⟨hcounts, htable'⟩ := hpush.pcbFdInstall hinstall
    have hfill : s'.fileTable = Function.update s₀.fileTable slot ⟨0, flag, some p⟩ := by
      rw [htable']
      show s₁.fileTable = _
      rw [hwrites.keepsFds.fileTable, htable]
    exact .inr ⟨hslot, ⟨flag, hfill⟩, hcounts⟩

theorem RefCounts.createNode {parentDir : Dir} {filename : List UInt8} {flag inodeNo : Nat}
    {ioBuf : HeapBlock} {fd : Int} (h : RefCounts s refs)
    (hcall : Fs.createNode parentDir filename flag inodeNo ioBuf s = .ok (fd, s')) :
    Fails s s' refs fd ∨ ∃ slot, Fills s s' refs slot s.nextNode := by
  unfold Fs.createNode at hcall
  simp only at hcall
  cases hnode : Fs.sysMalloc (s.setPgdir none) with
  | mk node s₁ =>
  rw [hnode] at hcall
  have hs₁ := sysMalloc_state hnode
  have h₁ : RefCounts s₁ refs := (h.setTask _).sysMalloc hnode
  have htable₁ : s₁.fileTable = s.fileTable := by
    rw [hs₁]
    rfl
  cases node with
  | none =>
      obtain ⟨hcounts, htable⟩ := h₁.rollbackInodeNo hcall
      exact .inl ⟨(rollbackInodeNo_refuses hcall).1, hcounts,
        fun q => Nat.le_of_eq (fileRefs_congr (htable.trans htable₁) q)⟩
  | some node =>
      simp only at hcall
      let s₂ := (s₁.newNode (inodeInit inodeNo)).setPgdir s.task.pgdir
      have hkeep₂ : ∀ q ∈ s₁.part.openInodes, s₂.inodes q = s₁.inodes q := by
        intro q hq
        show Function.update s₁.inodes s₁.nextNode (inodeInit inodeNo) q = _
        rw [Function.update_of_ne (Nat.ne_of_lt (h₁.lt q hq))]
      have h₂ : RefCounts s₂ refs := by
        refine h₁.congr rfl (Nat.le_succ _) fun q hq => ?_
        rw [hkeep₂ q hq]
      cases hslot : getFreeSlotInGlobal s₂ with
      | none =>
          rw [hslot] at hcall
          obtain ⟨hcounts, htable⟩ := h₂.rollbackNode hcall
          exact .inl ⟨(rollbackNode_refuses hcall).1, hcounts,
            fun q => Nat.le_of_eq (fileRefs_congr (htable.trans htable₁) q)⟩
      | some slot =>
          rw [hslot] at hcall
          have h₃ := (h₂.setFd slot ⟨0, flag, some s₁.nextNode⟩).setDeny s₁.nextNode false
          -- the node comes from the heap and was never open
          have hfresh : s₁.nextNode ∉ s₁.part.openInodes :=
            fun hmem => Nat.lt_irrefl _ (h₁.lt _ hmem)
          have hfill : s₂.fileTable = s.fileTable := htable₁
          have hfree : getFreeSlotInGlobal s = some slot := by
            rw [← hslot, getFreeSlotInGlobal, getFreeSlotInGlobal, hfill]
          have hnext : s₁.nextNode = s.nextNode := by
            rw [hs₁]
            rfl
          have hcall : Fs.createInDir parentDir filename inodeNo slot s₁.nextNode node ioBuf
              ((s₂.setFd slot ⟨0, flag, some s₁.nextNode⟩).setInode s₁.nextNode
                { s₂.inodes s₁.nextNode with writeDeny := false }) = .ok (fd, s') := hcall
          rw [← hnext]
          refine (h₃.createInDir hfresh (Nat.lt_succ_self _) hfree ⟨flag, ?_⟩ hcall).imp id
            fun hfills => ⟨slot, hfills⟩
          rw [FsState.setInode_fileTable, FsState.setFd_fileTable, hfill]

theorem RefCounts.fileCreate {parentDir : Dir} {filename : List UInt8} {flag : Nat} {fd : Int}
    (h : RefCounts s refs)
    (hcall : Fs.fileCreate s parentDir filename flag = .ok (fd, s')) :
    Fails s s' refs fd ∨ ∃ slot, Fills s s' refs slot s.nextNode := by
  unfold Fs.fileCreate at hcall
  cases hbuf : Fs.sysMalloc s with
  | mk ioBuf s₁ =>
  rw [hbuf] at hcall
  have h₁ := h.sysMalloc hbuf
  have hs₁ := sysMalloc_state hbuf
  cases ioBuf with
  | none =>
      cases hcall
      refine .inl ⟨rfl, h₁, fun q => Nat.le_of_eq (fileRefs_congr ?_ q)⟩
      rw [hs₁]
      rfl
  | some ioBuf =>
      obtain ⟨⟨inodeNo, s₂⟩, halloc, hcall⟩ := Outcome.bind_eq_ok.1 hcall
      cases inodeNo with
      | none =>
          cases hcall
          rw [inodeBitmapAlloc_none halloc]
          refine .inl ⟨rfl, h₁, fun q => Nat.le_of_eq (fileRefs_congr ?_ q)⟩
          rw [hs₁]
          rfl
      | some inodeNo =>
          have hs₂ := setInodeBit_eq (inodeBitmapAlloc_some halloc).2
          have h₂ : RefCounts s₂ refs := by
            rw [hs₂]
            exact h₁.congr rfl (Nat.le_refl _) fun _ _ => rfl
          have htable₂ : s₂.fileTable = s.fileTable := by
            rw [hs₂, hs₁]
            rfl
          have hnext₂ : s₂.nextNode = s.nextNode := by
            rw [hs₂, hs₁]
            rfl
          rw [← hnext₂]
          refine (h₂.createNode hcall).imp (fun hfails => ?_) fun ⟨slot, hfills⟩ => ⟨slot, ?_⟩
          · refine ⟨hfails.fd, hfails.counts, fun q => ?_⟩
            rw [← fileRefs_congr htable₂ q]
            exact hfails.entries q
          · refine ⟨?_, ?_, hfills.counts⟩
            · rw [← hfills.free, getFreeSlotInGlobal, getFreeSlotInGlobal, htable₂]
            · rw [← htable₂]
              exact hfills.table

/-! ## Calls -/

theorem addRef_comm (refs : Nat → Nat) (p q : Nat) :
    addRef (addRef refs p) q = addRef (addRef refs q) p := by
  funext r
  by_cases hpq : p = q
  · rw [hpq]
  by_cases hrq : r = q
  · rw [hrq, addRef_self, addRef_of_ne (Ne.symm hpq), addRef_of_ne (Ne.symm hpq), addRef_self]
  by_cases hrp : r = p
  · rw [hrp, addRef_of_ne hpq, addRef_self, addRef_self, addRef_of_ne hpq]
  · rw [addRef_of_ne hrq, addRef_of_ne hrp, addRef_of_ne hrp, addRef_of_ne hrq]

theorem dirHeld_addRef (refs : Nat → Nat) (dir : Dir) (p : Nat) :
    dirHeld (addRef refs p) dir = addRef (dirHeld refs dir) p := by
  unfold dirHeld
  cases dir.block with
  | none => rfl
  | some block => exact addRef_comm refs p dir.inode

theorem addRef_mono {f g : Nat → Nat} (h : ∀ q, f q ≤ g q) (p q : Nat) :
    addRef f p q ≤ addRef g p q := by
  by_cases hq : q = p
  · rw [hq, addRef_self, addRef_self]
    exact Nat.succ_le_succ (h p)
  · rw [addRef_of_ne hq, addRef_of_ne hq]
    exact h q

theorem Grows.counted (h : Grows s s' refs) (hle : ∀ q, fileRefs s q ≤ refs q) :
    ∃ refs', Counted s' refs' := by
  rcases h with ⟨hcounts, hless⟩ | ⟨p, hcounts, hless⟩
  · exact ⟨refs, hcounts, fun q => Nat.le_trans (hless q) (hle q)⟩
  · exact ⟨_, hcounts, fun q => Nat.le_trans (hless q) (addRef_mono hle p q)⟩

/-- `sys_open` counts what it opens; the parent directory of a file that is
    opened and not created stays open. -/
theorem Counted.sysOpen {pathname : List UInt8} {flags : Nat} {fd : Int} (h : Counted s refs)
    (hroom : Room refs 2) (hcall : Fs.sysOpen s pathname flags = .ok (fd, s')) :
    ∃ refs', Counted s' refs' := by
  have hroom₁ : Room refs 1 := hroom.mono (Nat.le_succ 1)
  rcases sysOpen_cases hcall with ⟨-, hsought⟩ | ⟨inodeNo, record, s₁, hres, -, hopen⟩
    | ⟨record, filename, s₁, s₂, hres, -, -, hcreate, hclose⟩
  · rcases hsought with rfl | ⟨r, record, s₁, hsearch, hclose⟩
    · exact ⟨refs, h⟩
    · have hlook : Looks s s' := (searchFile_looks hsearch).trans (dirClose_looks hclose)
      refine ⟨refs, (h.searchFile hroom₁ hsearch).dirClose hclose, fun q => ?_⟩
      rw [fileRefs_congr hlook.fileTable]
      exact h.entries q
  · -- an existing file: the parent directory of the search stays open
    have hgrows := (h.searchFile hroom₁ hres.search).fileOpen (hroom.dirHeld _) hopen
    refine hgrows.counted fun q => ?_
    rw [fileRefs_congr (searchFile_looks hres.search).fileTable]
    exact Nat.le_trans (h.entries q) (le_dirHeld refs _ q)
  · have hentries : ∀ q, fileRefs s₁ q ≤ refs q := by
      intro q
      rw [fileRefs_congr (searchFile_looks hres.search).fileTable]
      exact h.entries q
    have htable := fileRefs_congr (dirClose_looks hclose).fileTable
    have hgrows : Grows s₁ s₂ (dirHeld refs record.parentDir) :=
      ((h.searchFile hroom₁ hres.search).fileCreate hcreate).elim Fails.grows
        fun ⟨_, hfills⟩ => hfills.grows
    rcases hgrows with ⟨hcounts, hless⟩ | ⟨p, hcounts, hless⟩
    · refine ⟨refs, hcounts.dirClose hclose, fun q => ?_⟩
      rw [htable]
      exact Nat.le_trans (hless q) (hentries q)
    · rw [← dirHeld_addRef] at hcounts
      refine ⟨addRef refs p, hcounts.dirClose hclose, fun q => ?_⟩
      rw [htable]
      exact Nat.le_trans (hless q) (addRef_mono hentries p q)

/-- A node in the file table is an open one. -/
theorem Counted.mem_open {i : Nat} (h : Counted s refs) (hi : i < maxFileOpen)
    (hp : (s.fileTable i).fdInode = some p) (hpipe : isPipe s i = false) :
    p ∈ s.part.openInodes := by
  rw [h.held]
  refine Nat.lt_of_lt_of_le ?_ (h.entries p)
  exact List.countP_pos_iff.2 ⟨i, List.mem_range.2 hi, decide_eq_true ⟨hp, hpipe⟩⟩

theorem Counted.fileClose {i : Nat} (h : Counted s refs) (hi : i < maxFileOpen)
    (hpipe : isPipe s i = false) (hcall : Fs.fileClose s i = .ok s') :
    ∃ refs', Counted s' refs' := by
  obtain ⟨p, hp⟩ := fileClose_ne_none hcall
  obtain ⟨s₁, hs₁, heq⟩ := fileClose_eq hp
  have hpos : 0 < refs p := (h.held p).1 (h.mem_open hi hp hpipe)
  -- the entry that is closed was one of the holders
  let refs₁ := Function.update refs p (refs p - 1)
  have hrefs : refs = addRef refs₁ p := by
    show refs = Function.update (Function.update refs p (refs p - 1)) p
      (Function.update refs p (refs p - 1) p + 1)
    rw [Function.update_idem, Function.update_self, Nat.sub_add_cancel hpos,
      Function.update_eq_self]
  have h₁ : RefCounts s₁ (addRef refs₁ p) := by
    rw [← hrefs, hs₁]
    exact h.setDeny p false
  have htable := (fileClose_spec hcall).2
  rw [heq] at hcall
  rw [← Except.ok.inj hcall] at htable ⊢
  refine ⟨refs₁, h₁.inodeClose.setFd _ _, fun q => ?_⟩
  have hcount := fileRefs_setFd hi htable q
  have hle := h.entries q
  rw [if_neg (show ¬ (none = some q ∧ _) from fun hand => (by cases hand.1))] at hcount
  by_cases hq : q = p
  · rw [hq] at hcount hle ⊢
    rw [if_pos ⟨hp, hpipe⟩] at hcount
    show _ ≤ Function.update refs p (refs p - 1) p
    rw [Function.update_self]
    omega
  · show _ ≤ Function.update refs p (refs p - 1) q
    rw [Function.update_of_ne hq]
    omega

/-- After `filesys_init` only the root directory is held. -/
theorem filesysInit_counted (h : filesysInit s = .ok s') : ∃ refs, Counted s' refs := by
  have htable := (filesysInit_spec h).2
  obtain ⟨⟨sbBuf, s₁⟩, -, h⟩ := Outcome.bind_eq_ok.1 h
  obtain ⟨s₂, -, h⟩ := Outcome.bind_eq_ok.1 h
  obtain ⟨_, -, h⟩ := Outcome.bind_eq_ok.1 h
  obtain ⟨s₃, hmount, h⟩ := Outcome.bind_eq_ok.1 h
  obtain ⟨s₄, hroot, h⟩ := Outcome.bind_eq_ok.1 h
  obtain ⟨⟨p, s₅⟩, hopen, hroot⟩ := Outcome.bind_eq_ok.1 hroot
  cases hroot
  cases h
  have hnone := mountPartition_openInodes hmount
  have hempty : RefCounts s₃ fun _ => 0 := by
    refine ⟨?_, ?_, ?_, fun q => ?_, fun _ => by norm_num⟩
    · rw [hnone]
      exact List.nodup_nil
    · rw [hnone]
      exact fun q hq => absurd hq List.not_mem_nil
    · rw [hnone]
      exact fun q hq => absurd hq List.not_mem_nil
    · rw [hnone]
      exact iff_of_false List.not_mem_nil (Nat.lt_irrefl 0)
  have hcounts := hempty.inodeOpen (fun _ => by norm_num) hopen
  refine ⟨_, hcounts.congr rfl (Nat.le_refl _) fun _ _ => rfl, fun q => ?_⟩
  refine Nat.le_trans (Nat.le_of_eq ?_) (Nat.zero_le _)
  rw [fileRefs, List.countP_eq_zero]
  intro i _ hi
  have hi := (of_decide_eq_true hi).1
  rw [htable i] at hi
  cases hi

end Fs
end JackOS
