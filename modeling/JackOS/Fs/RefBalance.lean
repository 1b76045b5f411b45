/-
  JackOS.Fs.RefBalance

  What the calls on paths leave open.  A call that gives back every directory it
  opened leaves each inode with the count it had (`openCnt_same`); one more
  holder of a node is one more of its inode (`openCnt_addRef`).  `sys_open`
  keeps the parent directory of a file that it opens, and `sys_opendir` counts
  the root directory when the path is not "/".
-/

import JackOS.Fs.OpenCount
import JackOS.Fs.PathLoop
import JackOS.Fs.Search

namespace JackOS
namespace Fs

open Base

variable {s s' t t' : FsState} {refs held : Nat → Nat} {p m n : Nat} {dir : Dir}

/-! ## Counts by inode number -/

/-- No inode has two open nodes. -/
def Distinct (s : FsState) : Prop :=
  ∀ p ∈ s.part.openInodes, ∀ q ∈ s.part.openInodes, (s.inodes p).iNo = (s.inodes q).iNo → p = q

/-- The count of an inode is how often its node is held. -/
theorem openCnt_of_node (h : RefCounts s refs) (hd : Distinct s) (hp : NodeOf s p m) :
    openCnt s m = refs p := by
  unfold openCnt
  cases hfind : findOpen s m with
  | none => exact absurd hp.iNo (findOpen_none.1 hfind p hp.opened)
  | some q =>
      obtain ⟨hq, hno⟩ := findOpen_some hfind
      obtain rfl := hd q hq p hp.opened (hno.trans hp.iNo.symm)
      exact h.count q hq

theorem openCnt_of_closed (h : ∀ p ∈ s.part.openInodes, (s.inodes p).iNo ≠ m) :
    openCnt s m = 0 := by
  rw [openCnt, findOpen_none.2 h]

/-- Open nodes keep their numbers. -/
theorem KeepsNodes.open_iNo (h : KeepsNodes s s') (hc : RefCounts s refs)
    (hp : p ∈ s.part.openInodes) : (s'.inodes p).iNo = (s.inodes p).iNo :=
  h.iNo p (hc.lt p hp)

/-- With the same holders every inode has the count it had. -/
theorem openCnt_same (h : RefCounts s refs) (hd : Distinct s) (hkeep : KeepsNodes s s')
    (h' : RefCounts s' refs) (m : Nat) : openCnt s' m = openCnt s m := by
  have hmem : ∀ p, p ∈ s'.part.openInodes ↔ p ∈ s.part.openInodes := fun p => by
    rw [h'.held, h.held]
  have hd' : Distinct s' := by
    intro p hp q hq heq
    rw [hmem] at hp hq
    rw [hkeep.open_iNo h hp, hkeep.open_iNo h hq] at heq
    exact hd p hp q hq heq
  by_cases hopen : ∃ p, NodeOf s p m
  · obtain ⟨p, hp⟩ := hopen
    have hp' : NodeOf s' p m :=
      ⟨(hmem p).2 hp.opened, by rw [hkeep.open_iNo h hp.opened, hp.iNo]⟩
    rw [openCnt_of_node h hd hp, openCnt_of_node h' hd' hp']
  · have hclosed : ∀ p ∈ s.part.openInodes, (s.inodes p).iNo ≠ m :=
      fun p hp hno => hopen ⟨p, hp, hno⟩
    rw [openCnt_of_closed hclosed, openCnt_of_closed fun p hp => ?_]
    rw [hmem] at hp
    rw [hkeep.open_iNo h hp]
    exact hclosed p hp

theorem mem_open_addRef (h : RefCounts s refs) (h' : RefCounts s' (addRef refs p)) (q : Nat) :
    q ∈ s'.part.openInodes ↔ q = p ∨ q ∈ s.part.openInodes := by
  rw [h'.held, h.held]
  by_cases hq : q = p
  · rw [hq, addRef_self]
    exact iff_of_true (Nat.succ_pos _) (.inl rfl)
  · rw [addRef_of_ne hq, or_iff_right hq]

/-- The node of the new holder was open, or no node of its inode was. -/
theorem Distinct.addRef (hd : Distinct s) (h : RefCounts s refs) (hkeep : KeepsNodes s s')
    (h' : RefCounts s' (Fs.addRef refs p))
    (hp : p ∈ s.part.openInodes ∨ findOpen s (s'.inodes p).iNo = none) : Distinct s' := by
  have hmem := mem_open_addRef h h'
  -- a node that was open is not of the inode of a new one
  have hother : ∀ q ∈ s.part.openInodes, (s'.inodes q).iNo = (s'.inodes p).iNo → q = p := by
    intro q hq heq
    rw [hkeep.open_iNo h hq] at heq
    rcases hp with hp | hnone
    · rw [hkeep.open_iNo h hp] at heq
      exact hd q hq p hp heq
    · exact absurd heq (findOpen_none.1 hnone q hq)
  intro q hq r hr heq
  rcases (hmem q).1 hq with rfl | hq <;> rcases (hmem r).1 hr with rfl | hr
  · rfl
  · exact (hother r hr heq.symm).symm
  · exact hother q hq heq
  · rw [hkeep.open_iNo h hq, hkeep.open_iNo h hr] at heq
    exact hd q hq r hr heq

/-- One more holder of a node is one more of its inode. -/
theorem openCnt_addRef (h : RefCounts s refs) (hd : Distinct s) (hkeep : KeepsNodes s s')
    (h' : RefCounts s' (addRef refs p)) (hd' : Distinct s') (hp : (s'.inodes p).iNo = n)
    (m : Nat) : openCnt s' m = openCnt s m + if n = m then 1 else 0 := by
  have hmem := mem_open_addRef h h'
  have hnode : NodeOf s' p n := ⟨(hmem p).2 (.inl rfl), hp⟩
  have hkept : ∀ {q k}, NodeOf s q k → NodeOf s' q k := fun hq =>
    ⟨(hmem _).2 (.inr hq.opened), by rw [hkeep.open_iNo h hq.opened, hq.iNo]⟩
  by_cases hopen : ∃ q, NodeOf s q m
  · obtain ⟨q, hq⟩ := hopen
    rw [openCnt_of_node h hd hq, openCnt_of_node h' hd' (hkept hq)]
    by_cases hm : n = m
    · have hqp : q = p := hd' q (hkept hq).opened p hnode.opened
        ((hkept hq).iNo.trans (hm.symm.trans hp.symm))
      rw [if_pos hm, hqp, addRef_self]
    · have hqp : q ≠ p := by
        rintro rfl
        exact hm (hp.symm.trans (hkept hq).iNo)
      rw [if_neg hm, addRef_of_ne hqp]
      rfl
  · have hclosed : ∀ q ∈ s.part.openInodes, (s.inodes q).iNo ≠ m :=
      fun q hq hno => hopen ⟨q, hq, hno⟩
    rw [openCnt_of_closed hclosed]
    by_cases hm : n = m
    · subst hm
      have hzero : refs p = 0 := by
        by_contra hpos
        have hp' := (h.held p).2 (Nat.pos_of_ne_zero hpos)
        exact hclosed p hp' (by rw [← hkeep.open_iNo h hp', hp])
      rw [openCnt_of_node h' hd' hnode, addRef_self, hzero, if_pos rfl]
    · rw [if_neg hm, openCnt_of_closed fun q hq => ?_]
      rcases (hmem q).1 hq with rfl | hq
      · rw [hp]
        exact hm
      · rw [hkeep.open_iNo h hq]
        exact hclosed q hq

/-! ## Inside a call -/

/-- A call that began in `s` is in `t`, where the nodes are held as `held` says. -/
structure Within (s t : FsState) (held : Nat → Nat) : Prop extends KeepsNodes s t where
  counts : RefCounts t held

theorem RefCounts.within (h : RefCounts s refs) : Within s s refs := ⟨.refl s, h⟩

theorem Within.writes (h : Within s t held) (hw : Writes t t') : Within s t' held :=
  ⟨h.toKeepsNodes.trans hw.keepsFds.nodes, h.counts.writes hw⟩

theorem Within.sysMalloc {r : Option HeapBlock} (h : Within s t held)
    (hcall : Fs.sysMalloc t = (r, t')) : Within s t' held :=
  ⟨h.toKeepsNodes.trans (looks_sysMalloc hcall).nodes, h.counts.sysMalloc hcall⟩

theorem Within.setTask (h : Within s t held) (task : Task) : Within s (t.setTask task) held :=
  ⟨h.toKeepsNodes.setTask task, h.counts.setTask task⟩

theorem Within.setInodeBit {bitIdx : Nat} {value : Bool} (h : Within s t held)
    (hcall : partBitmapSet t .inodeBitmap bitIdx value = .ok t') : Within s t' held := by
  rw [setInodeBit_eq hcall]
  exact ⟨⟨h.nextNode, h.iNo, h.opened⟩, h.counts.congr rfl (Nat.le_refl _) fun _ _ => rfl⟩

theorem Within.inodeOpen {inodeNo : Nat} (h : Within s t held) (hroom : Room held 1)
    (hcall : Fs.inodeOpen t inodeNo = .ok (p, t')) : Within s t' (addRef held p) :=
  ⟨h.toKeepsNodes.trans (inodeOpen_spec hcall).1.nodes, h.counts.inodeOpen hroom hcall⟩

theorem Within.inodeClose (h : Within s t (addRef held p)) : Within s (Fs.inodeClose t p) held :=
  ⟨h.toKeepsNodes.trans (looks_inodeClose t p).nodes, h.counts.inodeClose⟩

theorem Within.dirOpen {inodeNo : Nat} (h : Within s t held) (hroom : Room held 1)
    (hcall : Fs.dirOpen t inodeNo = .ok (dir, t')) : Within s t' (dirHeld held dir) :=
  ⟨h.toKeepsNodes.trans (dirOpen_spec hcall).1.nodes, h.counts.dirOpen hroom hcall⟩

theorem Within.dirClose (h : Within s t (dirHeld held dir))
    (hcall : Fs.dirClose t dir = .ok t') : Within s t' held :=
  ⟨h.toKeepsNodes.trans (dirClose_looks hcall).nodes, h.counts.dirClose hcall⟩

theorem Within.searchFile {path : List UInt8} {r : Option Nat} {record : PathSearchRecord}
    (h : Within s t held) (hroom : Room held 1)
    (hcall : Fs.searchFile t path = .ok (r, record, t')) :
    Within s t' (dirHeld held record.parentDir) :=
  ⟨h.toKeepsNodes.trans (searchFile_looks hcall).nodes, h.counts.searchFile hroom hcall⟩

/-- `inode_release` gives back the node it opens. -/
theorem Within.inodeRelease {inodeNo : Nat} (h : Within s t held) (hroom : Room held 1)
    (hcall : Fs.inodeRelease t inodeNo = .ok t') : Within s t' held := by
  obtain ⟨⟨p, t₁⟩, hopen, hcall⟩ := Outcome.bind_eq_ok.1 hcall
  obtain ⟨_, -, hcall⟩ := Outcome.bind_eq_ok.1 hcall
  obtain ⟨⟨all, blockCnt, t₂⟩, htable, hcall⟩ := Outcome.bind_eq_ok.1 hcall
  obtain ⟨t₃, hfree, hcall⟩ := Outcome.bind_eq_ok.1 hcall
  obtain ⟨t₄, hset, hcall⟩ := Outcome.bind_eq_ok.1 hcall
  obtain ⟨t₅, hsync, hcall⟩ := Outcome.bind_eq_ok.1 hcall
  have h₅ := ((((h.inodeOpen hroom hopen).writes (releaseTable_writes htable)).writes
    (freeBlocks_writes hfree)).setInodeBit hset).writes (bitmapSync_writes hsync)
  cases hbuf : Fs.sysMalloc t₅ with
  | mk ioBuf t₆ =>
  rw [hbuf] at hcall
  cases ioBuf with
  | none => cases hcall
  | some ioBuf =>
      obtain ⟨t₇, hdelete, hcall⟩ := Outcome.bind_eq_ok.1 hcall
      obtain ⟨_, -, hcall⟩ := Outcome.bind_eq_ok.1 hcall
      rw [← Except.ok.inj hcall]
      exact ((h₅.sysMalloc hbuf).writes (inodeDelete_writes hdelete)).inodeClose

/-! ## Calls that give everything back -/

theorem Within.refuse {record : PathSearchRecord} {r : Int}
    (h : Within s t (dirHeld held record.parentDir)) (hcall : Fs.refuse t record = .ok (r, t')) :
    Within s t' held := by
  obtain ⟨t₁, hclose, hcall⟩ := Outcome.bind_eq_ok.1 hcall
  cases hcall
  exact h.dirClose hclose

theorem Within.unlinkFile {inodeNo : Nat} {r : Int} (h : Within s t (dirHeld held dir))
    (hroom : Room (dirHeld held dir) 1) (hcall : Fs.unlinkFile dir inodeNo t = .ok (r, t')) :
    Within s t' held := by
  unfold Fs.unlinkFile at hcall
  split at hcall
  · obtain ⟨t₁, hclose, hcall⟩ := Outcome.bind_eq_ok.1 hcall
    cases hcall
    exact h.dirClose hclose
  · cases hbuf : Fs.sysMalloc t with
    | mk ioBuf t₁ =>
    rw [hbuf] at hcall
    cases ioBuf with
    | none =>
        obtain ⟨t₂, hclose, hcall⟩ := Outcome.bind_eq_ok.1 hcall
        cases hcall
        exact (h.sysMalloc hbuf).dirClose hclose
    | some ioBuf =>
        obtain ⟨⟨ok, t₂⟩, hdelete, hcall⟩ := Outcome.bind_eq_ok.1 hcall
        obtain ⟨t₃, hrelease, hcall⟩ := Outcome.bind_eq_ok.1 hcall
        obtain ⟨_, -, hcall⟩ := Outcome.bind_eq_ok.1 hcall
        obtain ⟨t₄, hclose, hcall⟩ := Outcome.bind_eq_ok.1 hcall
        cases hcall
        exact (((h.sysMalloc hbuf).writes (deleteDirEntry_writes hdelete)).inodeRelease hroom
          hrelease).dirClose hclose

theorem sysUnlink_within {path : List UInt8} {r : Int} (h : RefCounts s refs)
    (hroom : Room refs 2) (hcall : sysUnlink s path = .ok (r, s')) : Within s s' refs := by
  obtain ⟨_, -, hcall⟩ := Outcome.bind_eq_ok.1 hcall
  obtain ⟨⟨inodeNo, record, t⟩, hsearch, hcall⟩ := Outcome.bind_eq_ok.1 hcall
  obtain ⟨_, -, hcall⟩ := Outcome.bind_eq_ok.1 hcall
  have ht := h.within.searchFile (hroom.mono (Nat.le_succ 1)) hsearch
  cases inodeNo with
  | none => exact ht.refuse hcall
  | some inodeNo =>
      dsimp only at hcall
      split at hcall
      · exact ht.refuse hcall
      · exact ht.unlinkFile (hroom.dirHeld _) hcall

theorem Within.mkdirFail {ioBuf : HeapBlock} {r : Int} (h : Within s t (dirHeld held dir))
    (hcall : Fs.mkdirFail dir ioBuf t = .ok (r, t')) : Within s t' held := by
  obtain ⟨t₁, hclose, hcall⟩ := Outcome.bind_eq_ok.1 hcall
  obtain ⟨_, -, hcall⟩ := Outcome.bind_eq_ok.1 hcall
  cases hcall
  exact h.dirClose hclose

theorem Within.mkdirFailInode {inodeNo : Nat} {ioBuf : HeapBlock} {r : Int}
    (h : Within s t (dirHeld held dir))
    (hcall : Fs.mkdirFailInode dir inodeNo ioBuf t = .ok (r, t')) : Within s t' held := by
  obtain ⟨t₁, hset, hcall⟩ := Outcome.bind_eq_ok.1 hcall
  exact (h.setInodeBit hset).mkdirFail hcall

/-- The new directory's inode is no node; only the parent is open. -/
theorem Within.mkdirInBlock {dirname : List UInt8} {inodeNo blockLba : Nat} {ioBuf : HeapBlock}
    {r : Int} (h : Within s t (dirHeld held dir))
    (hcall : Fs.mkdirInBlock dir dirname inodeNo blockLba ioBuf t = .ok (r, t')) :
    Within s t' held := by
  obtain ⟨_, -, hcall⟩ := Outcome.bind_eq_ok.1 hcall
  obtain ⟨t₁, hbit, hcall⟩ := Outcome.bind_eq_ok.1 hcall
  obtain ⟨t₂, hdots, hcall⟩ := Outcome.bind_eq_ok.1 hcall
  obtain ⟨newDe, -, hcall⟩ := Outcome.bind_eq_ok.1 hcall
  obtain ⟨⟨synced, t₃⟩, hsync, hcall⟩ := Outcome.bind_eq_ok.1 hcall
  have h₃ := ((h.writes (bitmapSync_writes hbit)).writes (ideWrite_writes hdots)).writes
    (syncDirEntry_writes hsync)
  cases synced with
  | false => exact h₃.mkdirFailInode hcall
  | true =>
      obtain ⟨t₄, hparent, hcall⟩ := Outcome.bind_eq_ok.1 hcall
      obtain ⟨t₅, hnew, hcall⟩ := Outcome.bind_eq_ok.1 hcall
      obtain ⟨_, -, hcall⟩ := Outcome.bind_eq_ok.1 hcall
      obtain ⟨t₆, hclose, hcall⟩ := Outcome.bind_eq_ok.1 hcall
      cases hcall
      exact ((h₃.writes (inodeSync_writes hparent)).writes (inodeSync_writes hnew)).dirClose hclose

theorem Within.mkdirInode {dirname : List UInt8} {ioBuf : HeapBlock} {r : Int}
    (h : Within s t (dirHeld held dir))
    (hcall : Fs.mkdirInode dir dirname ioBuf t = .ok (r, t')) : Within s t' held := by
  obtain ⟨⟨inodeNo, t₁⟩, hinode, hcall⟩ := Outcome.bind_eq_ok.1 hcall
  cases inodeNo with
  | none =>
      rw [inodeBitmapAlloc_none hinode] at hcall
      exact h.mkdirFail hcall
  | some inodeNo =>
      have h₁ := h.setInodeBit (inodeBitmapAlloc_some hinode).2
      obtain ⟨⟨blockLba, t₂⟩, hblock, hcall⟩ := Outcome.bind_eq_ok.1 hcall
      have h₂ := h₁.writes (blockBitmapAlloc_writes hblock)
      cases blockLba with
      | none => exact h₂.mkdirFailInode hcall
      | some blockLba => exact h₂.mkdirInBlock hcall

theorem sysMkdir_within {path : List UInt8} {r : Int} (h : RefCounts s refs)
    (hroom : Room refs 1) (hcall : sysMkdir s path = .ok (r, s')) : Within s s' refs := by
  unfold sysMkdir at hcall
  cases hbuf : sysMalloc s with
  | mk ioBuf s₁ =>
  rw [hbuf] at hcall
  have h₁ := h.within.sysMalloc hbuf
  cases ioBuf with
  | none =>
      cases hcall
      exact h₁
  | some ioBuf =>
      obtain ⟨⟨inodeNo, record, t⟩, hsearch, hcall⟩ := Outcome.bind_eq_ok.1 hcall
      have ht := h₁.searchFile hroom hsearch
      cases inodeNo with
      | some inodeNo => exact ht.mkdirFail hcall
      | none =>
          obtain ⟨depth, -, hcall⟩ := Outcome.bind_eq_ok.1 hcall
          obtain ⟨depth', -, hcall⟩ := Outcome.bind_eq_ok.1 hcall
          split at hcall
          · obtain ⟨_, -, hcall⟩ := Outcome.bind_eq_ok.1 hcall
            exact ht.mkdirFail hcall
          · cases hname : baseName record.searchedPath with
            | none =>
                rw [hname] at hcall
                cases hcall
            | some dirname =>
                rw [hname] at hcall
                exact ht.mkdirInode hcall

theorem Within.removeIfEmpty {parentDir : Dir} {ok : Bool} (h : Within s t held)
    (hroom : Room held 1) (hcall : Fs.removeIfEmpty t parentDir dir = .ok (ok, t')) :
    Within s t' held := by
  unfold Fs.removeIfEmpty at hcall
  split at hcall
  · obtain ⟨_, -, hcall⟩ := Outcome.bind_eq_ok.1 hcall
    cases hbuf : Fs.sysMalloc t with
    | mk ioBuf t₁ =>
    rw [hbuf] at hcall
    have h₁ := h.sysMalloc hbuf
    cases ioBuf with
    | none =>
        cases hcall
        exact h₁
    | some ioBuf =>
        obtain ⟨⟨ok, t₂⟩, hdelete, hcall⟩ := Outcome.bind_eq_ok.1 hcall
        obtain ⟨t₃, hrelease, hcall⟩ := Outcome.bind_eq_ok.1 hcall
        obtain ⟨_, -, hcall⟩ := Outcome.bind_eq_ok.1 hcall
        cases hcall
        exact (h₁.writes (deleteDirEntry_writes hdelete)).inodeRelease hroom hrelease
  · cases hcall
    exact h

theorem sysRmdir_within {path : List UInt8} {r : Int} (h : RefCounts s refs)
    (hroom : Room refs 3) (hcall : sysRmdir s path = .ok (r, s')) : Within s s' refs := by
  obtain ⟨⟨inodeNo, record, t⟩, hsearch, hcall⟩ := Outcome.bind_eq_ok.1 hcall
  obtain ⟨_, -, hcall⟩ := Outcome.bind_eq_ok.1 hcall
  have ht := h.within.searchFile (hroom.mono (by decide)) hsearch
  cases inodeNo with
  | none =>
      obtain ⟨_, -, hcall⟩ := Outcome.bind_eq_ok.1 hcall
      exact ht.refuse hcall
  | some inodeNo =>
      dsimp only at hcall
      split at hcall
      · exact ht.refuse hcall
      · -- the parent directory and the directory are both open
        obtain ⟨⟨dir, t₁⟩, hopen, hcall⟩ := Outcome.bind_eq_ok.1 hcall
        obtain ⟨⟨ok, t₂⟩, hremove, hcall⟩ := Outcome.bind_eq_ok.1 hcall
        obtain ⟨t₃, hclose, hcall⟩ := Outcome.bind_eq_ok.1 hcall
        obtain ⟨t₄, hclose', hcall⟩ := Outcome.bind_eq_ok.1 hcall
        cases hcall
        have hroom₁ := (hroom.dirHeld record.parentDir).dirHeld dir
        exact (((ht.dirOpen ((hroom.dirHeld _).mono (Nat.le_succ 1)) hopen).removeIfEmpty hroom₁
          hremove).dirClose hclose).dirClose hclose'

theorem sysChdir_within {path : List UInt8} {r : Int} (h : RefCounts s refs)
    (hroom : Room refs 1) (hcall : sysChdir s path = .ok (r, s')) : Within s s' refs := by
  obtain ⟨⟨inodeNo, record, t⟩, hsearch, hcall⟩ := Outcome.bind_eq_ok.1 hcall
  have ht := h.within.searchFile hroom hsearch
  cases inodeNo with
  | none => exact ht.refuse hcall
  | some inodeNo =>
      dsimp only at hcall
      split at hcall
      · obtain ⟨t₁, hclose, hcall⟩ := Outcome.bind_eq_ok.1 hcall
        cases hcall
        exact (ht.setTask _).dirClose hclose
      · exact ht.refuse hcall

theorem sysStat_within {path : List UInt8} {buf buf' : Stat} {r : Int} (h : RefCounts s refs)
    (hroom : Room refs 2) (hcall : sysStat s path buf = .ok (r, buf', s')) : Within s s' refs := by
  obtain ⟨⟨inodeNo, record, t⟩, hsearch, hcall⟩ := Outcome.bind_eq_ok.1 hcall
  have ht := h.within.searchFile (hroom.mono (Nat.le_succ 1)) hsearch
  cases inodeNo with
  | none =>
      obtain ⟨t₁, hclose, hcall⟩ := Outcome.bind_eq_ok.1 hcall
      cases hcall
      exact ht.dirClose hclose
  | some inodeNo =>
      obtain ⟨⟨p, t₁⟩, hopen, hcall⟩ := Outcome.bind_eq_ok.1 hcall
      obtain ⟨t₂, hclose, hcall⟩ := Outcome.bind_eq_ok.1 hcall
      cases hcall
      exact (ht.inodeOpen (hroom.dirHeld _) hopen).inodeClose.dirClose hclose

/-! ## Calls that leave something open -/

theorem dirOpen_block {inodeNo : Nat} (h : dirOpen t inodeNo = .ok (dir, t')) :
    dir.block ≠ none := by
  unfold dirOpen at h
  cases hblock : Fs.sysMalloc t with
  | mk block t₁ =>
  rw [hblock] at h
  cases block with
  | none => cases h
  | some block =>
      obtain ⟨⟨p, t₂⟩, -, h⟩ := Outcome.bind_eq_ok.1 h
      cases h
      exact Option.some_ne_none block

theorem dirHeld_of_block (refs : Nat → Nat) (h : dir.block ≠ none) :
    dirHeld refs dir = addRef refs dir.inode := by
  unfold dirHeld
  obtain ⟨block, hblock⟩ := Option.ne_none_iff_exists'.1 h
  rw [hblock]

/-- Behind a directory that was opened the search hands over an opened one. -/
theorem searchNames_block {names : List (List UInt8)} {parentDir : Dir} {parentInodeNo : Nat}
    {dirE : Option DirEntry} {searchedPath : List UInt8} {r : Option Nat}
    {record : PathSearchRecord} (hblock : parentDir.block ≠ none)
    (h : searchNames names parentDir parentInodeNo dirE searchedPath t = .ok (r, record, t')) :
    record.parentDir.block ≠ none := by
  induction names generalizing parentDir parentInodeNo dirE searchedPath t with
  | nil =>
      obtain ⟨t₁, -, h⟩ := Outcome.bind_eq_ok.1 h
      obtain ⟨⟨dir, t₂⟩, hopen, h⟩ := Outcome.bind_eq_ok.1 h
      cases dirE with
      | none => cases h
      | some de =>
          cases h
          exact dirOpen_block hopen
  | cons name names ih =>
      obtain ⟨_, -, h⟩ := Outcome.bind_eq_ok.1 h
      obtain ⟨searchedPath', -, h⟩ := Outcome.bind_eq_ok.1 h
      obtain ⟨⟨found, t₁⟩, -, h⟩ := Outcome.bind_eq_ok.1 h
      cases found with
      | none =>
          cases h
          exact hblock
      | some de =>
          dsimp only at h
          split at h
          · obtain ⟨t₂, -, h⟩ := Outcome.bind_eq_ok.1 h
            obtain ⟨⟨dir, t₃⟩, hopen, h⟩ := Outcome.bind_eq_ok.1 h
            exact ih (dirOpen_block hopen) h
          · split at h
            · cases h
              exact hblock
            · exact ih hblock h

variable {dirs : Nat → Option Inode} {path : List UInt8}

/-- The parent directory of a file is `root_dir` itself, and the first name the
    file's, or it was opened on the way. -/
theorem searchFile_parent (htree : DirTree s dirs refs) (hpath : PathOk path)
    (hne : words slash path ≠ []) {r : Option Nat} {record : PathSearchRecord}
    (h : searchFile s path = .ok (r, record, t)) (htype : record.fileType = .regular) :
    (record.parentDir.block = none ∧ ∃ name ∈ words slash path, record.searchedPath = slash :: name)
      ∨ record.parentDir.block ≠ none ∧ 2 ≤ (words slash path).length := by
  have hroot : isRootPath path = false := by
    by_contra hroot
    rw [searchFile, if_pos (by simpa using hroot)] at h
    cases h
    cases htype
  rw [searchFile_eq hpath.names hroot hpath.absolute hpath.length_lt] at h
  obtain ⟨name, names, hwords⟩ := List.exists_cons_of_ne_nil hne
  have hisName := hpath.isName name (by rw [hwords]; exact List.mem_cons_self)
  rw [hwords] at h ⊢
  obtain ⟨_, -, h⟩ := Outcome.bind_eq_ok.1 h
  obtain ⟨searchedPath, happend, h⟩ := Outcome.bind_eq_ok.1 h
  obtain ⟨⟨found, t₁⟩, hsearch, h⟩ := Outcome.bind_eq_ok.1 h
  have hpath' : searchedPath = slash :: name := by
    unfold appendName at happend
    split at happend
    · exact (Except.ok.inj happend).symm
    · cases happend
  have hfound := ((htree.stands.searchDirEntry htree htree.root hisName).post _ hsearch).2
  dsimp only at hfound
  cases found with
  | none =>
      cases h
      cases htype
  | some de =>
      dsimp only at h
      rcases htree.lookup_cases hfound.symm with ⟨hdir, -⟩ | ⟨hreg, -⟩
      · -- a directory, so there is another name
        have hdir : de.fType = FileType.directory.toWord := hdir
        rw [if_pos hdir] at h
        obtain ⟨t₂, -, h⟩ := Outcome.bind_eq_ok.1 h
        obtain ⟨⟨dir, t₃⟩, hopen, h⟩ := Outcome.bind_eq_ok.1 h
        refine .inr ⟨searchNames_block (dirOpen_block hopen) h, ?_⟩
        cases names with
        | nil =>
            obtain ⟨t₄, -, h⟩ := Outcome.bind_eq_ok.1 h
            obtain ⟨⟨dir', t₅⟩, -, h⟩ := Outcome.bind_eq_ok.1 h
            cases h
            cases htype
        | cons name' names => exact Nat.le_add_left 2 names.length
      · have hreg : de.fType = FileType.regular.toWord := hreg
        rw [if_neg (by rw [hreg]; decide), if_pos hreg] at h
        cases h
        exact .inl ⟨rfl, name, List.mem_cons_self, hpath'⟩

/-- `sys_open` of a file that is there goes through one name exactly if its
    parent directory is `root_dir`. -/
theorem Resolves.parent_iff (htree : DirTree s dirs refs) (hpath : PathOk path)
    (hne : words slash path ≠ []) {r : Option Nat} {record : PathSearchRecord}
    (h : Resolves s path r record t) (htype : record.fileType = .regular) :
    record.parentDir.block = none ↔ (words slash path).length = 1 := by
  rcases searchFile_parent htree hpath hne h.search htype with
    ⟨hblock, name, hname, hsearched⟩ | ⟨hblock, htwo⟩
  · refine iff_of_true hblock ?_
    -- the depth of the path is that of what was searched
    obtain ⟨hnonempty, hnoSlash, -⟩ := mem_words hname
    have hone : words slash record.searchedPath = [name] := by
      rw [hsearched, words_sep_cons]
      exact words_of_notMem hnonempty hnoSlash
    have hdepth := h.depth
    rw [pathDepthCnt_eq hne hpath.names, pathDepthCnt_eq (by rw [hone]; exact List.cons_ne_nil _ _)
      (by rw [hone]; exact fun w hw => List.mem_singleton.1 hw ▸ hpath.names name hname), hone]
      at hdepth
    exact Except.ok.inj hdepth
  · exact iff_of_false hblock (by omega)

/-- The node behind descriptor `fd` of the running process. -/
def fdNode (s : FsState) (fd : Int) : Option Nat :=
  (s.fileTable (s.task.fdTable fd.toNat).toNat).fdInode

/-- The new descriptor leads to the node of the slot that was filled. -/
theorem Enters.fdNode {fd : Int} {slot flag : Nat} (h : Enters s s' fd slot p flag)
    (hfd : fd ≠ -1) : Fs.fdNode s' fd = some p := by
  rcases h.installs.fdTable with ⟨hno, -⟩ | ⟨i, -, rfl, htable⟩
  · exact absurd hno hfd
  · have htask : s'.task.fdTable i = slot := by
      rw [FsState.task, htable, h.installs.cur, if_pos rfl, Function.update_self]
    rw [Fs.fdNode, Int.toNat_natCast, htask, Int.toNat_natCast, h.fileTable,
      Function.update_self]

/-- The slot was filled for one node only. -/
theorem Fills.eq_of_enters {fd : Int} {slot slot' q flag : Nat} (h : Fills s s' refs slot p)
    (h' : Enters s s' fd slot' q flag) : p = q := by
  obtain ⟨flag', htable⟩ := h.table
  obtain rfl : slot = slot' := Option.some.inj (h.free.symm.trans h'.free)
  have hfill := congrFun (htable.symm.trans h'.fileTable) slot
  rw [Function.update_self, Function.update_self] at hfill
  exact Option.some.inj (congrArg FileDesc.fdInode hfill)

/-- The inodes of the files carry their numbers. -/
def FilesNumbered (s : FsState) (dirs : Nat → Option Inode) : Prop :=
  ∀ m name e, lookup (treeEntries s.disk dirs m) name = some e →
    e.fType = FileType.regular.toWord → openedNo s e.iNo = e.iNo

/-- A file that is reached is an entry of a directory. -/
theorem reach_regular {tree : Nat → List Entry} {f g : Found} {names : List (List UInt8)}
    (hdir : f.fType = .directory) (h : reach tree f names = some g) (hg : g.fType = .regular) :
    ∃ m name e, lookup (tree m) name = some e ∧ e.iNo = g.iNo
      ∧ e.fType ≠ FileType.directory.toWord := by
  induction names generalizing f with
  | nil =>
      cases h
      rw [hdir] at hg
      cases hg
  | cons name names ih =>
      obtain ⟨k, hk, h⟩ := Option.bind_eq_some_iff.1 h
      split at h
      · exact ih ‹_› h
      · cases h
        rw [nextFound, if_pos hdir] at hk
        obtain ⟨e, he, rfl⟩ := Option.map_eq_some_iff.1 hk
        refine ⟨f.iNo, name, e, he, rfl, fun hedir => ?_⟩
        rw [Entry.found, hedir] at hg
        cases hg

/-- A directory that is reached is what the whole path names. -/
theorem reach_directory {tree : Nat → List Entry} {f g : Found} {names : List (List UInt8)}
    (h : reach tree f names = some g) (hg : g.fType = .directory) :
    walk tree f names = some g := by
  induction names generalizing f with
  | nil => exact h
  | cons name names ih =>
      obtain ⟨k, hk, h⟩ := Option.bind_eq_some_iff.1 h
      rw [walk_cons, hk, Option.bind_some]
      split at h
      · exact ih h
      · cases h
        exact absurd hg ‹_›

theorem reach_type {tree : Nat → List Entry} {f g : Found} {names : List (List UInt8)}
    (hdir : f.fType = .directory) (h : reach tree f names = some g) :
    g.fType = .directory ∨ g.fType = .regular := by
  induction names generalizing f with
  | nil =>
      cases h
      exact .inl hdir
  | cons name names ih =>
      obtain ⟨k, hk, h⟩ := Option.bind_eq_some_iff.1 h
      split at h
      · exact ih ‹_› h
      · cases h
        exact nextFound_type hk

/-- The file that a search found has its own number in the node that is opened
    for it. -/
theorem openedNo_of_reach (htree : DirTree s dirs refs) (hfiles : FilesNumbered s dirs)
    {names : List (List UInt8)} {f : Found}
    (hf : reach (treeEntries s.disk dirs) rootFound names = some f) (hreg : f.fType = .regular)
    (hsees : Sees s t dirs) (hcounts : RefCounts t held) (hle : ∀ p, refs p ≤ held p) :
    openedNo t f.iNo = f.iNo := by
  obtain ⟨m, name, e, he, heno, hedir⟩ := reach_regular rfl hf hreg
  have hereg : e.fType = FileType.regular.toWord := by
    rcases htree.lookup_cases he with ⟨hdir, -⟩ | ⟨hereg, -⟩
    · exact absurd hdir hedir
    · exact hereg
  have hno := hfiles m name e he hereg
  rw [heno] at hno
  unfold openedNo at hno ⊢
  cases hfind : findOpen t f.iNo with
  | some q => rfl
  | none =>
      rw [hsees.closed htree hcounts hle hfind] at hno
      dsimp only at hno ⊢
      rw [hsees.looks.disk, hsees.looks.sb]
      exact hno

/-- What `sys_open` leaves of a file that is there: the parent directory, and
    the node behind the descriptor. -/
theorem sysOpen_opened (htree : DirTree s dirs refs) (hfiles : FilesNumbered s dirs)
    (hpath : PathOk path) {flags : Nat} {fd : Int} (hflags : flags.testBit 2 = false)
    (hfd : fd ≠ -1) (hcall : sysOpen s path flags = .ok (fd, s')) :
    ∃ parentDir t d p, Within s t (dirHeld refs parentDir) ∧ Distinct t
      ∧ NodeOf t parentDir.inode d
      ∧ (parentDir.block = none ↔ (words slash path).length = 1)
      ∧ Within t s' (addRef (dirHeld refs parentDir) p) ∧ Distinct s'
      ∧ fdNode s' fd = some p := by
  rcases sysOpen_cases hcall with ⟨hno, -⟩ | ⟨n, record, t, hres, -, hopen⟩
    | ⟨_, _, _, _, _, hcreat, -⟩
  · exact absurd hno hfd
  · have hne : words slash path ≠ [] := by
      intro hnil
      refine searchFile_slashes hpath (fun hslash => hres.noSlash ?_) hnil hres.search
      rw [hslash]
      rfl
    have hreached := (searchFile_meets htree hpath (.inr hne)).post _ hres.search
    obtain ⟨f, hf, rfl, htype, hstands⟩ := hreached.found rfl
    have hreg : f.fType = .regular :=
      (reach_type rfl hf).resolve_left fun hdir => hres.noDir (htype.trans hdir)
    have hno := openedNo_of_reach htree hfiles hf hreg hstands.sees hstands.counts
      (le_dirHeld refs _)
    cases hslot : getFreeSlotInGlobal t with
    | none => exact absurd (fileOpen_noSlot hslot hopen).1 hfd
    | some slot =>
        have hroom : Room (dirHeld refs record.parentDir) 1 :=
          (htree.room.mono (by decide : 2 ≤ 4)).dirHeld _
        obtain ⟨p, t₁, hinode, hfills⟩ := hstands.counts.fileOpen_fills hroom hslot hopen
        obtain ⟨q, henter, hq⟩ := fileOpen_enters hstands.counts.lt hslot hopen
        obtain rfl := hfills.eq_of_enters henter
        refine ⟨record.parentDir, t, f.parent, p,
          ⟨hstands.sees.looks.nodes, hstands.counts⟩, hstands.sees.distinct, hstands.toNodeOf,
          hres.parent_iff htree hpath hne (htype.trans hreg),
          ⟨henter.toKeepsNodes, hfills.counts⟩, ?_, henter.fdNode hfd⟩
        refine Distinct.addRef hstands.sees.distinct hstands.counts henter.toKeepsNodes
          hfills.counts ?_
        rw [hq, hno]
        cases hfind : findOpen t f.iNo with
        | none => exact .inr rfl
        | some r =>
            rw [inodeOpen, hfind] at hinode
            cases hinode
            exact .inl (findOpen_some hfind).1
  · rw [hflags] at hcreat
    cases hcreat

/-- What `sys_open` leaves of a file that it creates: the node behind the
    descriptor, of the first inode number that was free. -/
theorem sysOpen_created (h : RefCounts s refs) (hroom : Room refs 1) {flags : Nat} {fd : Int}
    (hflags : flags.testBit 2 = true) (hfd : fd ≠ -1)
    (hcall : sysOpen s path flags = .ok (fd, s')) :
    ∃ n p, FirstClear s.part.inodeBitmap n ∧ Within s s' (addRef refs p)
      ∧ p ∉ s.part.openInodes ∧ (s'.inodes p).iNo = n ∧ fdNode s' fd = some p := by
  rcases sysOpen_cases hcall with ⟨hno, -⟩ | ⟨_, _, _, _, hcreat, -⟩
    | ⟨record, filename, t, t', hres, -, -, hcreate, hclose⟩
  · exact absurd hno hfd
  · rw [hflags] at hcreat
    cases hcreat
  · have hlook := searchFile_looks hres.search
    have hlook' := dirClose_looks hclose
    have ht := h.within.searchFile hroom hres.search
    rcases ht.counts.fileCreate hcreate with hfails | ⟨slot, hfills⟩
    · exact absurd hfails.fd hfd
    rcases fileCreate_cases hcreate with ⟨hno, -⟩ | ⟨n, slot', q, hfirst, henter, hq⟩
    · exact absurd hno hfd
    obtain rfl := hfills.eq_of_enters henter
    have hcounts := hfills.counts
    rw [← dirHeld_addRef] at hcounts
    have hwithin : Within s t' (dirHeld (addRef refs t.nextNode) record.parentDir) :=
      ⟨ht.toKeepsNodes.trans henter.toKeepsNodes, hcounts⟩
    refine ⟨n, t.nextNode, ?_, hwithin.dirClose hclose, fun hmem => ?_, ?_, ?_⟩
    · rw [hlook.keepsFds.inodeBitmap] at hfirst
      exact hfirst
    · exact absurd (Nat.lt_of_lt_of_le (h.lt _ hmem) hlook.nextNode) (Nat.lt_irrefl _)
    · rw [hlook'.nodes.iNo _ henter.lt, hq]
    · have hnode := henter.fdNode hfd
      rw [fdNode, hlook'.fileTable, hlook'.task]
      exact hnode

/-- What `sys_opendir` leaves of a directory that it opens. -/
theorem sysOpendir_opened (htree : DirTree s dirs refs) (hpath : PathOk path)
    (hslash : path ≠ [slash]) (hcall : sysOpendir s path = .ok (some dir, s')) :
    ∃ f, resolve (treeEntries s.disk dirs) path = some f
      ∧ Within s s' (addRef refs dir.inode) ∧ Distinct s' ∧ NodeOf s' dir.inode f.iNo := by
  obtain ⟨_, -, hcall⟩ := Outcome.bind_eq_ok.1 hcall
  rw [if_neg hslash] at hcall
  obtain ⟨⟨inodeNo, record, t⟩, hsearch, hcall⟩ := Outcome.bind_eq_ok.1 hcall
  have hne : words slash path ≠ [] := fun hnil => searchFile_slashes hpath hslash hnil hsearch
  have hreached := (searchFile_meets htree hpath (.inr hne)).post _ hsearch
  cases inodeNo with
  | none =>
      obtain ⟨t₁, -, hcall⟩ := Outcome.bind_eq_ok.1 hcall
      cases hcall
  | some n =>
      obtain ⟨f, hf, rfl, htype, hstands⟩ := hreached.found rfl
      dsimp only at hcall
      split at hcall
      · obtain ⟨⟨d, t₁⟩, hopen, hcall⟩ := Outcome.bind_eq_ok.1 hcall
        obtain ⟨t₂, hclose, hcall⟩ := Outcome.bind_eq_ok.1 hcall
        cases hcall
        have hfdir : f.fType = .directory := htype.symm.trans ‹_›
        have hresolve : resolve (treeEntries s.disk dirs) path = some f :=
          reach_directory hf hfdir
        have hroom : Room (dirHeld refs record.parentDir) 1 :=
          (htree.room.mono (by decide : 2 ≤ 4)).dirHeld _
        have hopened := (hstands.sees.dirOpen htree hstands.counts (le_dirHeld refs _) hroom
          (htree.resolve_isDir hresolve hfdir)).post _ hopen
        have hcounts := hopened.counts
        rw [dirHeld_of_block _ (dirOpen_block hopen), ← dirHeld_addRef] at hcounts
        have hwithin : Within s t₁ (dirHeld (addRef refs d.inode) record.parentDir) :=
          ⟨hopened.sees.looks.nodes, hcounts⟩
        have hclosed := hwithin.dirClose hclose
        refine ⟨f, hresolve, hclosed, (hopened.sees.dirClose hclose).distinct, ?_, ?_⟩
        · rw [hclosed.counts.held, addRef_self]
          exact Nat.succ_pos _
        · rw [(dirClose_looks hclose).nodes.open_iNo hcounts hopened.opened]
          exact hopened.iNo
      · obtain ⟨t₁, -, hcall⟩ := Outcome.bind_eq_ok.1 hcall
        cases hcall

/-! ## Balance -/

/-- The calls that look a path up. -/
inductive PathCall where
  | sysOpen (path : List UInt8) (flags : Nat)
  | sysUnlink (path : List UInt8)
  | sysMkdir (path : List UInt8)
  | sysOpendir (path : List UInt8)
  | sysRmdir (path : List UInt8)
  | sysChdir (path : List UInt8)
  | sysStat (path : List UInt8) (buf : Stat)

namespace PathCall

def pathname : PathCall → List UInt8
  | .sysOpen path _ | .sysUnlink path | .sysMkdir path | .sysOpendir path | .sysRmdir path
  | .sysChdir path | .sysStat path _ => path

/-- The call returned a success value, in state `s'`.  `gain` is the inode whose
    count it is to raise: that of the opened file, or of the opened directory
    unless it is the root. -/
def Succeeds (call : PathCall) (s : FsState) (gain : Option Nat) (s' : FsState) : Prop :=
  match call with
  | .sysOpen path flags => ∃ fd, Fs.sysOpen s path flags = .ok (fd, s') ∧ fd ≠ -1
      ∧ gain = (fdNode s' fd).map fun p => (s'.inodes p).iNo
  | .sysOpendir path => ∃ dir, Fs.sysOpendir s path = .ok (some dir, s')
      ∧ gain = if (s'.inodes dir.inode).iNo = 0 then none else some (s'.inodes dir.inode).iNo
  | .sysUnlink path => Fs.sysUnlink s path = .ok (0, s') ∧ gain = none
  | .sysMkdir path => Fs.sysMkdir s path = .ok (0, s') ∧ gain = none
  | .sysRmdir path => Fs.sysRmdir s path = .ok (0, s') ∧ gain = none
  | .sysChdir path => Fs.sysChdir s path = .ok (0, s') ∧ gain = none
  | .sysStat path buf => ∃ buf', Fs.sysStat s path buf = .ok (0, buf', s') ∧ gain = none

/-- A file is opened through a single name, or created with a number that no
    open node has; and a directory is opened as "/" or is not the root. -/
def KeepsBalance (call : PathCall) (s : FsState) (dirs : Nat → Option Inode) : Prop :=
  match call with
  | .sysOpen path flags =>
      if flags.testBit 2 then ∀ n, FirstClear s.part.inodeBitmap n → findOpen s n = none
      else (words slash path).length = 1
  | .sysOpendir path =>
      path = [slash] ∨ ∀ f, resolve (treeEntries s.disk dirs) path = some f → f.iNo ≠ 0
  | _ => True

end PathCall

/-- Every inode has the count it had, and one more if it is `gain`. -/
def Balanced (s s' : FsState) (gain : Option Nat) : Prop :=
  ∀ m, openCnt s' m = openCnt s m + if gain = some m then 1 else 0

theorem Within.balanced (h : RefCounts s refs) (hd : Distinct s) (hw : Within s s' refs) :
    Balanced s s' none := by
  intro m
  rw [openCnt_same h hd hw.toKeepsNodes hw.counts, if_neg (Option.some_ne_none m).symm]
  rfl

theorem Within.balanced_addRef (h : RefCounts s refs) (hd : Distinct s)
    (hw : Within s s' (addRef refs p)) (hd' : Distinct s') (hno : (s'.inodes p).iNo = n) :
    Balanced s s' (some n) := by
  intro m
  rw [openCnt_addRef h hd hw.toKeepsNodes hw.counts hd' hno m]
  simp only [Option.some_inj]

/-- A new node does not add up with one that the inode already has. -/
theorem openCnt_ne_of_new {q : Nat} (h : RefCounts s refs) (hd : Distinct s)
    (hw : Within s s' (addRef refs p)) (hfresh : p ∉ s.part.openInodes) (hq : NodeOf s q n) :
    openCnt s' n ≠ openCnt s n + 1 := by
  have hpos := (h.held q).1 hq.opened
  have hzero : refs p = 0 := by
    have := mt (h.held p).2 hfresh
    omega
  rw [openCnt_of_node h hd hq]
  unfold openCnt
  cases hfind : findOpen s' n with
  | none => exact (Nat.succ_ne_zero _).symm
  | some r =>
      obtain ⟨hr, hno⟩ := findOpen_some hfind
      dsimp only
      rw [hw.counts.count r hr]
      rcases (mem_open_addRef h hw.counts r).1 hr with rfl | hr
      · rw [addRef_self, hzero]
        omega
      · rw [hw.open_iNo h hr] at hno
        have hrq := hd r hr q hq.opened (hno.trans hq.iNo.symm)
        have hrp : r ≠ p := by
          rintro rfl
          exact hfresh hr
        rw [addRef_of_ne hrp, hrq]
        omega

/-- A file that is there. -/
theorem balanced_sysOpen_opened (htree : DirTree s dirs refs) (hfiles : FilesNumbered s dirs)
    (hpath : PathOk path) {flags : Nat} {fd : Int} (hflags : flags.testBit 2 = false)
    (hfd : fd ≠ -1) (hcall : sysOpen s path flags = .ok (fd, s')) :
    Balanced s s' ((fdNode s' fd).map fun p => (s'.inodes p).iNo)
      ↔ (words slash path).length = 1 := by
  obtain ⟨parentDir, t, d, p, ht, hdt, hparent, hblock, hopen, hd', hnode⟩ :=
    sysOpen_opened htree hfiles hpath hflags hfd hcall
  have hbal := Within.balanced_addRef ht.counts hdt hopen hd' rfl
  rw [hnode, Option.map_some, ← hblock]
  constructor
  · -- the parent directory counts one more
    intro hall
    by_contra hne
    rw [dirHeld_of_block refs hne] at ht
    have hleak := Within.balanced_addRef htree.counts htree.distinct ht hdt hparent.iNo d
    rw [if_pos rfl] at hleak
    have := hbal d
    have := hall d
    omega
  · intro hnone m
    have hheld : dirHeld refs parentDir = refs := by
      rw [dirHeld, hnone]
    rw [hheld] at ht
    rw [hbal m, openCnt_same htree.counts htree.distinct ht.toKeepsNodes ht.counts]

/-- A file that is created. -/
theorem balanced_sysOpen_created (h : RefCounts s refs) (hd : Distinct s) (hroom : Room refs 1)
    {flags : Nat} {fd : Int} (hflags : flags.testBit 2 = true) (hfd : fd ≠ -1)
    (hcall : sysOpen s path flags = .ok (fd, s')) :
    Balanced s s' ((fdNode s' fd).map fun p => (s'.inodes p).iNo)
      ↔ ∀ n, FirstClear s.part.inodeBitmap n → findOpen s n = none := by
  obtain ⟨n, p, hfirst, hw, hfresh, hno, hnode⟩ := sysOpen_created h hroom hflags hfd hcall
  rw [hnode, Option.map_some, hno]
  constructor
  · intro hall n' hn'
    obtain rfl := hfirst.unique hn'
    cases hfind : findOpen s n with
    | none => rfl
    | some q =>
        obtain ⟨hq, hqno⟩ := findOpen_some hfind
        have hcnt := hall n
        rw [if_pos rfl] at hcnt
        exact absurd hcnt (openCnt_ne_of_new h hd hw hfresh ⟨hq, hqno⟩)
  · intro hclosed
    refine Within.balanced_addRef h hd hw ?_ hno
    refine Distinct.addRef hd h hw.toKeepsNodes hw.counts (.inr ?_)
    rw [hno]
    exact hclosed n hfirst

theorem balanced_sysOpendir (htree : DirTree s dirs refs) (hpath : PathOk path)
    (hcall : sysOpendir s path = .ok (some dir, s')) :
    Balanced s s' (if (s'.inodes dir.inode).iNo = 0 then none else some (s'.inodes dir.inode).iNo)
      ↔ path = [slash] ∨ ∀ f, resolve (treeEntries s.disk dirs) path = some f → f.iNo ≠ 0 := by
  by_cases hslash : path = [slash]
  · obtain ⟨_, -, hcall⟩ := Outcome.bind_eq_ok.1 hcall
    rw [if_pos hslash] at hcall
    cases hcall
    rw [if_pos (show (s.inodes s.rootDir.inode).iNo = 0 from htree.rootNode.2)]
    exact iff_of_true (htree.counts.within.balanced htree.counts htree.distinct) (.inl hslash)
  · obtain ⟨f, hf, hw, hd', hnode⟩ := sysOpendir_opened htree hpath hslash hcall
    have hbal := hw.balanced_addRef htree.counts htree.distinct hd' hnode.iNo
    rw [hnode.iNo, or_iff_right hslash]
    by_cases hroot : f.iNo = 0
    · -- the root's node is held once more
      rw [if_pos hroot]
      refine iff_of_false (fun hall => ?_) fun hnot => hnot f hf hroot
      have hone := hbal f.iNo
      have hsame := hall f.iNo
      rw [if_pos rfl] at hone
      rw [if_neg (Option.some_ne_none _).symm] at hsame
      omega
    · rw [if_neg hroot]
      refine iff_of_true hbal fun g hg => ?_
      rw [hf] at hg
      cases hg
      exact hroot

/-- A call on a path that succeeds is balanced exactly as `KeepsBalance` says:
    of the seven, `sys_open` leaks the parent directory of a file below another
    directory, and `sys_opendir` counts the root when it is not named "/". -/
theorem balanced_iff {call : PathCall} {gain : Option Nat} (htree : DirTree s dirs refs)
    (hfiles : FilesNumbered s dirs) (hpath : PathOk call.pathname)
    (hcall : call.Succeeds s gain s') : Balanced s s' gain ↔ call.KeepsBalance s dirs := by
  have hroom : ∀ k, k ≤ 4 → Room refs k := fun k hk => htree.room.mono hk
  cases call with
  | sysOpen path flags =>
      obtain ⟨fd, hrun, hfd, rfl⟩ := hcall
      cases hflags : flags.testBit 2 with
      | true =>
          simp only [PathCall.KeepsBalance, hflags, if_true]
          exact balanced_sysOpen_created htree.counts htree.distinct (hroom 1 (by decide)) hflags
            hfd hrun
      | false =>
          simp only [PathCall.KeepsBalance, hflags, Bool.false_eq_true, if_false]
          exact balanced_sysOpen_opened htree hfiles hpath hflags hfd hrun
  | sysOpendir path =>
      obtain ⟨dir, hrun, rfl⟩ := hcall
      exact balanced_sysOpendir htree hpath hrun
  | sysUnlink path =>
      obtain ⟨hrun, rfl⟩ := hcall
      exact iff_of_true ((sysUnlink_within htree.counts (hroom 2 (by decide)) hrun).balanced
        htree.counts htree.distinct) trivial
  | sysMkdir path =>
      obtain ⟨hrun, rfl⟩ := hcall
      exact iff_of_true ((sysMkdir_within htree.counts (hroom 1 (by decide)) hrun).balanced
        htree.counts htree.distinct) trivial
  | sysRmdir path =>
      obtain ⟨hrun, rfl⟩ := hcall
      exact iff_of_true ((sysRmdir_within htree.counts (hroom 3 (by decide)) hrun).balanced
        htree.counts htree.distinct) trivial
  | sysChdir path =>
      obtain ⟨hrun, rfl⟩ := hcall
      exact iff_of_true ((sysChdir_within htree.counts (hroom 1 (by decide)) hrun).balanced
        htree.counts htree.distinct) trivial
  | sysStat path buf =>
      obtain ⟨buf', hrun, rfl⟩ := hcall
      exact iff_of_true ((sysStat_within htree.counts (hroom 2 (by decide)) hrun).balanced
        htree.counts htree.distinct) trivial

theorem smallTree_filesNumbered : FilesNumbered smallTreeFs smallTreeDirs := by
  intro m name e he hreg
  have hmem : e ∈ treeEntries smallTreeDisk smallTreeDirs m := List.mem_of_find?_eq_some he
  cases hm : smallTreeDirs m with
  | none =>
      rw [treeEntries, hm] at hmem
      cases hmem
  | some ino =>
      rw [treeEntries_some hm] at hmem
      rcases smallTreeDirs_some hm with ⟨-, rfl⟩ | ⟨-, rfl⟩
      · rw [smallTree_root] at hmem
        simp only [List.mem_cons, List.not_mem_nil, or_false] at hmem
        rcases hmem with rfl | rfl | rfl | rfl
        · exact absurd hreg (by decide)
        · exact absurd hreg (by decide)
        · decide +kernel
        · exact absurd hreg (by decide)
      · rw [smallTree_dir] at hmem
        simp only [List.mem_cons, List.not_mem_nil, or_false] at hmem
        rcases hmem with rfl | rfl | rfl
        · exact absurd hreg (by decide)
        · exact absurd hreg (by decide)
        · decide +kernel

/-- "/a" -/
theorem balanced_iff_smallTree :
    ∃ gain s', (PathCall.sysOpen [47, 97] 0).Succeeds smallTreeFs gain s'
      ∧ (Balanced smallTreeFs s' gain
        ↔ (PathCall.sysOpen [47, 97] 0).KeepsBalance smallTreeFs smallTreeDirs) := by
  have hrun : (sysOpen smallTreeFs [47, 97] 0).returns (fun r => decide (r.1 ≠ -1)) = true := by
    decide +kernel
  obtain ⟨⟨fd, s'⟩, hcall, hfd⟩ := Outcome.returns_iff.1 hrun
  have hsucceeds : (PathCall.sysOpen [47, 97] 0).Succeeds smallTreeFs
      ((fdNode s' fd).map fun p => (s'.inodes p).iNo) s' := ⟨fd, hcall, of_decide_eq_true hfd, rfl⟩
  have hpath : PathOk [47, 97] := ⟨rfl, by decide, by decide, by decide⟩
  exact ⟨_, s', hsucceeds, balanced_iff smallTree_tree smallTree_filesNumbered hpath hsucceeds⟩

/-- "/d/f": the directory "d" stays open. -/
theorem not_balanced_smallTree :
    ¬ ∀ (s s' : FsState) dirs refs gain (call : PathCall), DirTree s dirs refs →
      FilesNumbered s dirs → PathOk call.pathname → call.Succeeds s gain s' →
      Balanced s s' gain := by
  intro hall
  have hrun : (sysOpen smallTreeFs [47, 100, 47, 102] 0).returns (fun r => decide (r.1 ≠ -1
      ∧ openCnt r.2 2 = 1 ∧ (fdNode r.2 r.1).map (fun p => (r.2.inodes p).iNo) = some 3))
      = true := by
    decide +kernel
  obtain ⟨⟨fd, s'⟩, hcall, htest⟩ := Outcome.returns_iff.1 hrun
  obtain ⟨hfd, hparent, hfile⟩ := of_decide_eq_true htest
  have hpath : PathOk [47, 100, 47, 102] := ⟨rfl, by decide, by decide, by decide⟩
  have hbal := hall smallTreeFs s' _ _ _ (.sysOpen [47, 100, 47, 102] 0) smallTree_tree
    smallTree_filesNumbered hpath ⟨fd, hcall, hfd, rfl⟩ 2
  rw [hfile, hparent] at hbal
  exact absurd hbal (by decide)

end Fs
end JackOS
