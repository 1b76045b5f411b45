/-
  JackOS.Fs.RemoveCalls

  `sys_unlink` and `sys_rmdir` on a partition (`Volume`).  Each refuses, and
  leaves the partition as it was, or takes away the entry that the search found
  and nothing else.
-/

import JackOS.Fs.RefBalance
import JackOS.Fs.Volume

namespace JackOS
namespace Fs

open Base

variable {s s' t t' u : FsState} {dirs files : Nat → Option Inode} {parent refs held : Nat → Nat}
  {d : Mem} {ino old gone : Inode} {m n p q k i : Nat}

/-! ## The entry goes -/

/-- A call that began in `s` is in `t`, where node `q` is that of directory
    `p`. -/
structure Inside (s t : FsState) (dirs files : Nat → Option Inode) (held : Nat → Nat)
    (q p : Nat) : Prop extends NodeOf t q p where
  sees : Sees s t (objects dirs files)
  counts : RefCounts t held

theorem Inside.node (h : Inside s t dirs files held q p) (hp : dirs p = some old) :
    SameRecord (t.inodes q) old :=
  h.sees.node p old (objects_dir hp) q h.opened h.iNo

theorem Inside.countMalloc (h : Inside s t dirs files held q p) :
    Inside s t.countMalloc dirs files held q p :=
  ⟨⟨h.opened, h.iNo⟩, h.sees.countMalloc, h.counts.countMalloc⟩

theorem SameRecord.synced_bytes {a b : Inode} (h : SameRecord a b) :
    a.synced.bytes = b.synced.bytes := by
  have hword : a.synced.word = b.synced.word := by
    funext j
    by_cases h0 : j = 0
    · rw [h0]
      exact h.iNo
    by_cases h1 : j = 1
    · rw [h1]
      exact h.iSize
    simp only [Inode.word, if_neg h0, if_neg h1]
    by_cases h17 : j < 17
    · rw [if_pos h17, if_pos h17]
      have hsec : a.synced.iSectors (j - 4) = b.synced.iSectors (j - 4) :=
        h.iSectors (j - 4) (by omega)
      rw [hsec]
      rfl
    · rw [if_neg h17, if_neg h17]
      rfl
  rw [Inode.bytes, hword]
  rfl

theorem SameRecord.shrunk {a b : Inode} (h : SameRecord a b) : SameRecord a.shrunk b.shrunk := by
  refine ⟨?_, ?_, fun j hj => ?_⟩
  · rw [Inode.shrunk_iNo, Inode.shrunk_iNo, h.iNo]
  · rw [Inode.shrunk_iSize, Inode.shrunk_iSize, h.iSize]
  · rw [Inode.shrunk_iSectors, Inode.shrunk_iSectors, h.iSectors j hj]

/-- The state between the two calls. -/
structure Deleted (s t u : FsState) (q p lba i : Nat) (old : Inode) : Prop where
  part : u.part = t.part
  heap : u.heapJunk = t.heapJunk ∧ u.mallocOk = t.mallocOk ∧ u.mallocCnt = t.mallocCnt
  process : u.rootInode = t.rootInode ∧ u.task = t.task
  nextNode : u.nextNode = t.nextNode
  node : SameRecord (u.inodes q) old.shrunk
  others : ∀ r, r ≠ q → u.inodes r = t.inodes r
  same : ∀ a, OutsideRecord s p a → OutsideSlot lba i a → u.disk a = s.disk a
  slot : ∀ a, OutsideRecord s p (lba * 512 + dirEntryBytes * i + a) → a < dirEntryBytes →
    u.disk (lba * 512 + dirEntryBytes * i + a) = 0
  record : ∀ a, a < inodeSpan p → u.disk (slotAddr s p + a) = old.shrunk.synced.bytes a

/-- The node reads as the directory, and its first entry for `n` is the one. -/
theorem Inside.carrier (hv : Volume s dirs files parent refs)
    (hat : EntryAt s dirs files p n k i old gone) (h : Inside s t dirs files held q p) :
    DirRep t (t.inodes q) ∧ blockRef t.disk (t.inodes q) = blockRef s.disk old
      ∧ FirstCarrier t.disk (t.inodes q) n k i := by
  have hdisk : t.disk = s.disk := h.sees.looks.disk
  have hrec := h.node hat.dir
  have href : blockRef t.disk (t.inodes q) = blockRef s.disk old := by
    funext j
    rw [hdisk, hrec.blockRef_eq]
  have hfirst := hat.carrier.firstCarrier
  refine ⟨(h.sees.of_objects.dirRep hv.tree h.toNodeOf hat.dir).1, href, hfirst.block, ?_,
    hfirst.slot, ?_, ?_, ?_⟩
  · rw [href]
    exact hfirst.there
  · rw [href, hdisk]
    exact hfirst.here
  · rw [href, hdisk]
    exact hfirst.before
  · rw [href, hdisk]
    exact hfirst.above

/-- `delete_dir_entry` of an entry whose block stays. -/
theorem Inside.deletes (hv : Volume s dirs files parent refs)
    (hat : EntryAt s dirs files p n k i old gone) (h : Inside s t dirs files held q p)
    (hstored : inodeStored p) (hkept : Kept s.disk (blockRef s.disk old k) i) :
    ∃ u, deleteDirEntry t q n = .ok (true, u)
      ∧ Deleted s t u q p (blockRef s.disk old k) i old := by
  have hlook := h.sees.looks
  have hrec := h.node hat.dir
  obtain ⟨hrep, href, hcarrier⟩ := h.carrier hv hat
  obtain ⟨d₁, hcall, hclears⟩ := deleteDirEntry_kept (hv.tree.layout.looks hlook) hrep hcarrier
    (by rw [href, hlook.disk]; exact hkept)
  rw [href, hlook.disk] at hclears
  have hle : dirEntryBytes ≤ ((t.setDisk d₁).inodes q).iSize := by
    change dirEntryBytes ≤ (t.inodes q).iSize
    rw [hrep.size]
    exact Nat.le_mul_of_pos_right _ hcarrier.entry_mem_dir
  have hno : ((t.setDisk d₁).inodes q).iNo = p := h.iNo
  have hnode : (finishRemove (t.setDisk d₁) q).inodes q = (t.inodes q).shrunk :=
    finishRemove_shrunk hrep.entrySize hrep.iSize_lt hle
  have hdisk := finishRemove_record (s := t.setDisk d₁) (p := q) hrep.entrySize hrep.iSize_lt hle
  have hbytes := hrec.shrunk.synced_bytes
  have haddr : slotAddr (t.setDisk d₁) p = slotAddr s p := slotAddr_congr (s := s) hlook.sb p
  rw [hno, Nat.mod_eq_of_lt hstored.1, haddr] at hdisk
  refine ⟨_, hcall, rfl, ⟨rfl, rfl, rfl⟩, ⟨rfl, rfl⟩, rfl, ?_, fun r hr => ?_,
    fun a hout hslot => ?_, fun a hout ha => ?_, fun a ha => ?_⟩
  · rw [hnode]
    exact hrec.shrunk
  · exact Function.update_of_ne hr _ _
  · rw [hdisk, Mem.copy_outside hout]
    exact hclears.outside a hslot
  · rw [hdisk, Mem.copy_outside hout]
    exact hclears.inside a ha
  · rw [hdisk, Mem.copy_inside (Nat.le_add_right _ _) (by omega), Nat.zero_add,
      Nat.add_sub_cancel_left]
    exact congrFun hbytes a

/-! ## The inode goes -/

section Deleted

variable (hv : Volume s dirs files parent refs) (hat : EntryAt s dirs files p n k i old gone)
  (h : Inside s t dirs files held q p)
  (hdel : Deleted s t u q p (blockRef s.disk old k) i old)

include hv hat hdel

theorem Deleted.keepsData : KeepsData s u (blockRef s.disk old k) i := fun a ha hslot =>
  hdel.same a (.of_data hv.tree.layout (hv.tree.iNo p old hat.dir).2 ha) hslot

/-- Before the data area only the record was written. -/
theorem Deleted.before {a : Nat} (ha : a < s.part.sb.dataStartLba * 512)
    (hout : OutsideRecord s p a) : u.disk a = s.disk a := by
  have harea := (hv.tree.rep p old hat.dir).area k hat.carrier.there
  have hdata := Nat.mul_le_mul_right 512 harea
  exact hdel.same a hout (.inl (Nat.lt_of_lt_of_le ha (hdata.trans (Nat.le_add_right _ _))))

theorem Deleted.loadsAs (hu : InodeTableOnDisk u) (hsb : u.part.sb = s.part.sb)
    (hjunk : u.heapJunk = s.heapJunk) (hm : m < 4096) (hmp : m ≠ p) (hload : LoadsAs s m ino) :
    LoadsAs u m ino := by
  have hs := hv.tree.layout
  intro junk ino' hrun
  refine hload junk ino' ?_
  rw [hjunk, loadInode_eq hu hm, slotView_congr hsb ?_] at hrun
  · rw [loadInode_eq hs.table hm]
    exact hrun
  · intro a ha hlt
    exact hdel.before hv hat (Nat.lt_of_lt_of_le hlt (hs.record_le hm)) (.of_other hmp ha hlt)

include h

/-- What the release of the inode meets. -/
theorem Deleted.releases (hle : ∀ r, refs r ≤ held r) :
    Outcome.Meets (HeapServes s) (inodeRelease u n)
      fun s' => Forgets u s' n ∧ Released u s' gone := by
  have hlook := h.sees.looks
  have hs := hv.tree.layout
  have hdata := hdel.keepsData hv hat
  have hlay : Layout u := (hs.looks hlook).congr hdel.part
  have hsb : u.part.sb = s.part.sb := by rw [hdel.part, hlook.sb]
  have hjunk : u.heapJunk = s.heapJunk := by rw [hdel.heap.1, hlook.same]
  obtain ⟨hno, hlt⟩ := hv.object hat.object
  have hn0 := hat.ne_root hv
  have hheap : HeapServes s → HeapServes u := by
    intro hheap j hj
    rw [hdel.heap.2.1]
    rw [hdel.heap.2.2] at hj
    exact h.sees.heapServes hheap j hj
  have hmap : BlockMapSynced u := by
    -- the block bitmap lies before the records
    intro a ha hP
    have hlen := hs.blockLen
    have hmap := hs.blockMap_le
    have hmap' := hs.inodeMap_lt
    have htable := hs.table_le
    have haddr : slotAddr s p = s.part.sb.inodeTableLba * 512 + inodeSize * p := rfl
    rw [hdel.part, hlook.blockBitmap] at ha ⊢
    rw [hlook.sb, hdel.before hv hat (by omega) (.inl (by omega))]
    exact hv.blockMap a ha hP
  refine Outcome.Meets.weaken (Outcome.Meets.mono (inodeRelease_meets hlay hlt hno
    (fun j hj => ?_) (fun r hr => ?_) fun r v hopen => ?_) fun s' h => ⟨h.1, h.2 hmap⟩) hheap
  · rw [hdata.blockRef_same hv hat hat.object] at hj ⊢
    exact (hv.area n gone hat.object hn0 j hj).congr hsb
      (by rw [hdel.part, hlook.blockBitmap])
  · rw [hdel.nextNode]
    rw [hdel.part] at hr
    exact h.counts.lt r hr
  · refine inodeOpen_record hopen (fun r' hr' hno' => ?_) fun hnone => ?_
    · rw [hdel.part] at hr'
      have hne : r' ≠ q := by
        rintro rfl
        rw [hdel.node.iNo, Inode.shrunk_iNo, (hv.tree.iNo p old hat.dir).1] at hno'
        exact hat.ne hno'
      rw [hdel.others r' hne] at hno' ⊢
      exact h.sees.node n gone hat.object r' hr' hno'
    · have hclosed : findOpen t n = none := by
        rw [findOpen_none] at hnone ⊢
        intro r' hr' hno'
        have hne : r' ≠ q := by
          rintro rfl
          exact hat.ne (h.iNo.symm.trans hno')
        refine hnone r' (by rw [hdel.part]; exact hr') ?_
        rw [hdel.others r' hne]
        exact hno'
      have hclosed' := h.sees.of_objects.closed hv.tree h.counts hle hclosed
      refine hdel.loadsAs hv hat hlay.table hsb hjunk hlt hat.ne.symm ?_
      rcases objects_cases hat.object with hdir | ⟨-, hfile⟩
      · exact hv.tree.loadsAs n gone hdir hclosed'
      · exact hv.fileLoads n gone hfile hclosed'

/-- The two calls together. -/
theorem Deleted.removes (hforgets : Forgets u s' n) (hrel : Released u s' gone) :
    Removes s s' old gone (blockRef s.disk old k) i := by
  have hlook := h.sees.looks
  have hs := hv.tree.layout
  have hdata := hdel.keepsData hv hat
  have hsb : u.part.sb = s.part.sb := by rw [hdel.part, hlook.sb]
  have hbits : u.part.blockBitmap = s.part.blockBitmap := by rw [hdel.part, hlook.blockBitmap]
  obtain ⟨hno, hlt⟩ := hv.tree.iNo p old hat.dir
  obtain ⟨hno', hlt'⟩ := hv.object hat.object
  have hown : ∀ b, ownsBit u gone b ↔ ownsBit s gone b := by
    intro b
    unfold ownsBit
    rw [hsb]
    simp only [hdata.blockRef_same hv hat hat.object]
  have hdisk : ∀ a, s.part.sb.inodeTableLba * 512 ≤ a → OutsideRecord s n a →
      s'.disk a = u.disk a := fun a ha hout =>
    hforgets.disk a (by rw [hsb]; exact ha) ((OutsideRecord.congr hsb).2 hout)
  refine ⟨hforgets.sb.trans hsb, hforgets.layout, ?_, ?_, fun b => ?_, fun m => ?_, hrel.blockMap,
    fun a ha hgone hold hslot => ?_, fun a ha => ?_, fun a ha => ?_⟩
  · rw [hforgets.heap.1, hdel.heap.1, hlook.same]
  · rw [hrel.blockLen, hbits]
  · rw [hrel.blocks, hown, hbits]
  · rw [hrel.inode, hdel.part, hlook.inodeBitmap]
  · rw [hdisk a ha (hno' ▸ hgone)]
    exact hdel.same a (hno ▸ hold) hslot
  · have harea := (hv.tree.rep p old hat.dir).area k hat.carrier.there
    have hstart : s.part.sb.dataStartLba * 512
        ≤ blockRef s.disk old k * 512 + dirEntryBytes * i + a := by
      rw [Nat.add_assoc]
      exact (Nat.mul_le_mul_right 512 harea).trans (Nat.le_add_right _ _)
    rw [hdisk _ (hs.dataStart_behind hstart) (.of_data hs hlt' hstart)]
    exact hdel.slot a (.of_data hs hlt hstart) ha
  · rw [hno] at ha ⊢
    have hspan := inodeSpan_le p
    have htable : s.part.sb.inodeTableLba * 512 ≤ slotAddr s p + a := by
      rw [slotAddr, Nat.add_assoc]
      exact Nat.le_add_right _ _
    rw [hdisk _ htable (.of_other hat.ne (Nat.le_add_right _ _) (by omega))]
    exact hdel.record a ha

omit hat in
/-- Nodes that were open. -/
theorem Deleted.node_record (hforgets : Forgets u s' n) {r : Nat}
    (hr : r ∈ s.part.openInodes) (hrt : r ∈ t.part.openInodes) :
    SameRecord (s'.inodes r) (if (s.inodes r).iNo = p then old.shrunk else s.inodes r) := by
  have hlook := h.sees.looks
  have hlt : r < s.nextNode := hv.tree.counts.lt r hr
  have hlt' : r < u.nextNode := by
    rw [hdel.nextNode]
    exact Nat.lt_of_lt_of_le hlt hlook.nextNode
  refine (hforgets.node r hlt').trans ?_
  have hrec := hlook.sameRecord hlt
  by_cases hrq : r = q
  · rw [hrq] at hrec ⊢
    rw [if_pos (hrec.iNo.symm.trans h.iNo)]
    exact hdel.node
  · rw [if_neg ?_, hdel.others r hrq]
    · exact hrec
    · intro hp
      exact hrq (h.sees.distinct r hrt q h.opened
        ((hrec.iNo.trans hp).trans h.iNo.symm))

end Deleted

/-! ## Closing -/

/-- From `s` to `s'` the partition did not change. -/
def Intact (s s' : FsState) (dirs files : Nat → Option Inode) (parent refs : Nat → Nat) : Prop :=
  Volume s' dirs files parent refs ∧ s'.disk = s.disk

/-- From `s` to `s'` directory `p` lost its entry for `n`, and all else is as it
    was. -/
def Takes (s s' : FsState) (dirs : Nat → Option Inode) (parent refs : Nat → Nat) (p n : Nat) :
    Prop :=
  ∃ dirs' files', Volume s' dirs' files' parent refs
    ∧ Loses (treeEntries s.disk dirs) (treeEntries s'.disk dirs') p n

theorem Deleted.takes {s₃ : FsState} (hv : Volume s dirs files parent refs)
    (hat : EntryAt s dirs files p n k i old gone) (h : Inside s t dirs files held q p)
    (hdel : Deleted s t u q p (blockRef s.disk old k) i old) (hle : ∀ r, refs r ≤ held r)
    (hforgets : Forgets u s₃ n) (hrel : Released u s₃ gone) (hstored : inodeStored p)
    (hlook : Looks s₃ s') (hcounts : RefCounts s' refs) : Takes s s' dirs parent refs p n := by
  have hremoves := (hdel.removes hv hat h hforgets hrel).looks hlook
  refine ⟨_, _, hv.removes hat hremoves hstored hcounts ?_ fun r hr => ?_, hremoves.loses hv hat⟩
  · rw [hlook.same]
    exact hforgets.process.1.trans (hdel.process.1.trans (by rw [h.sees.looks.same]))
  · have hopen : r ∈ t.part.openInodes :=
      (h.counts.held r).2 (Nat.lt_of_lt_of_le ((hv.tree.counts.held r).1 hr) (hle r))
    have hlt : r < s₃.nextNode := by
      refine Nat.lt_of_lt_of_le ?_ hforgets.nextNode
      rw [hdel.nextNode]
      exact h.counts.lt r hopen
    exact (hlook.sameRecord hlt).trans (hdel.node_record hv h hforgets hr hopen)

/-- `delete_dir_entry` in directory `p`, then `inode_release` of `n`, whose node
    may be held, leave the partition as `after` says once all that the call
    opened is closed. -/
def TakesOut (s : FsState) (dirs files : Nat → Option Inode) (refs : Nat → Nat) (p n : Nat)
    (served : Prop) (after : FsState → Prop) : Prop :=
  ∀ t q r held, (∀ j, refs j ≤ held j) → Room held 1 → Inside s t dirs files held q p →
    NodeOf t r n → Outcome.Meets served (deleteDirEntry t q n >>= fun d => inodeRelease d.2 n)
      fun t' => RefCounts t' held ∧ t'.task = t.task
        ∧ ∀ s', Looks t' s' → RefCounts s' refs → after s'

/-- The two calls where the entry's block stays. -/
theorem Inside.takesEntry (hv : Volume s dirs files parent refs)
    (hat : EntryAt s dirs files p n k i old gone) (hstored : inodeStored p)
    (hkept : Kept s.disk (blockRef s.disk old k) i) (hle : ∀ r, refs r ≤ held r)
    (hroom : Room held 1) (h : Inside s t dirs files held q p) :
    Outcome.Meets (HeapServes s) (deleteDirEntry t q n >>= fun d => inodeRelease d.2 n)
      fun t' => RefCounts t' held ∧ t'.task = t.task
        ∧ ∀ s', Looks t' s' → RefCounts s' refs → Takes s s' dirs parent refs p n := by
  obtain ⟨u, hcall, hdel⟩ := h.deletes hv hat hstored hkept
  have hu : RefCounts u held := h.counts.writes (deleteDirEntry_writes hcall)
  rw [hcall, Outcome.ok_bind]
  apply (hdel.releases hv hat h hle).with_eq.mono
  rintro t' ⟨hrelease, hforgets, hrel⟩
  refine ⟨(hu.within.inodeRelease hroom hrelease).counts, ?_, fun s' hlook hcounts => ?_⟩
  · exact hforgets.process.2.trans hdel.process.2
  · exact hdel.takes hv hat h hle hforgets hrel hstored hlook hcounts

variable {parentDir dir : Dir}

theorem Volume.intact (hv : Volume s dirs files parent refs) (hsees : Sees s t dirs)
    (hcounts : RefCounts t refs) : Intact s t dirs files parent refs :=
  ⟨hv.looks hsees hcounts, hsees.looks.disk⟩

/-- Where the nodes are that are held. -/
theorem Volume.sees_held (hv : Volume s dirs files parent refs) (hsees : Sees s t dirs)
    (hcounts : RefCounts t held)
    (hheld : ∀ r, 0 < held r → 0 < refs r ∨ dirs (t.inodes r).iNo ≠ none) :
    Sees s t (objects dirs files) := by
  refine hv.sees hsees fun r hr => ?_
  rw [hv.tree.counts.held]
  exact hheld r ((hcounts.held r).1 hr)

theorem dirHeld_pos {r : Nat} (h : 0 < dirHeld refs dir r) : 0 < refs r ∨ r = dir.inode := by
  unfold dirHeld at h
  cases hblock : dir.block with
  | none =>
      rw [hblock] at h
      exact .inl h
  | some block =>
      rw [hblock] at h
      by_cases hr : r = dir.inode
      · exact .inr hr
      · dsimp only at h
        rw [addRef_of_ne hr] at h
        exact .inl h

theorem Volume.inside (hv : Volume s dirs files parent refs)
    (h : Stands s t dirs refs parentDir p) (hp : dirs p ≠ none) :
    Inside s t dirs files (dirHeld refs parentDir) parentDir.inode p := by
  refine ⟨h.toNodeOf, hv.sees_held h.sees h.counts fun r hr => ?_, h.counts⟩
  rcases dirHeld_pos hr with hpos | rfl
  · exact .inl hpos
  · right
    rw [h.iNo]
    exact hp

/-! ## Removing -/

/-- Where a removal works: the last name of the path is not ".", the record of
    the directory lies in the sectors `inode_open` and `inode_sync` use, and
    the block with the entry stays. -/
structure RemoveOk (s : FsState) (dirs : Nat → Option Inode) (f : Found) : Prop where
  notDot : f.parent ≠ f.iNo
  stored : inodeStored f.parent
  kept : ∀ old k i, dirs f.parent = some old → OnlyCarrier s.disk old f.iNo k i →
    Kept s.disk (blockRef s.disk old k) i

/-- The place of the entry that a path led to. -/
theorem RemoveOk.entryAt {f : Found} {names : List (List UInt8)}
    (hv : Volume s dirs files parent refs) (hok : RemoveOk s dirs f)
    (hf : reach (treeEntries s.disk dirs) rootFound names = some f)
    (hempty : EmptyDir (treeEntries s.disk dirs) f.iNo) :
    ∃ k i old gone, EntryAt s dirs files f.parent f.iNo k i old gone
      ∧ Kept s.disk (blockRef s.disk old k) i := by
  obtain ⟨e, he, hplain, hno⟩ := hv.names.reach_plain hempty hf rfl hok.notDot
  obtain ⟨k, i, old, gone, hat⟩ := hv.entryAt he hplain (by rwa [hno])
  rw [hno] at hat
  exact ⟨k, i, old, gone, hat, hok.kept old k i hat.dir hat.carrier⟩

theorem dirClose_eq {served : Prop} (h : Stands s t dirs refs dir m) (htask : t'.task = t.task) :
    Outcome.Meets served (dirClose t' dir) fun t'' => dirClose t' dir = .ok t'' := by
  refine dirClose_meets fun block hblock => ?_
  rw [htask, h.sees.looks.task]
  exact h.own block hblock

/-- `sys_unlink` once the entry was found. -/
theorem unlinkFile_meets (hv : Volume s dirs files parent refs)
    (hat : EntryAt s dirs files p n k i old gone) (hstored : inodeStored p)
    (hkept : Kept s.disk (blockRef s.disk old k) i) (h : Stands s t dirs refs parentDir p) :
    Outcome.Meets (HeapServes s) (unlinkFile parentDir n t) fun r =>
      r.1 = -1 ∧ Intact s r.2 dirs files parent refs
        ∨ r.1 = 0 ∧ Takes s r.2 dirs parent refs p n := by
  have hdir : dirs p ≠ none := by
    rw [hat.dir]
    exact Option.some_ne_none _
  by_cases hopen : isOpenInTable t n = true
  · rw [unlinkFile, if_pos hopen]
    apply h.dirClose.bind
    rintro t₁ ⟨hsees, hcounts⟩
    exact Outcome.meets_ok (.inl ⟨rfl, hv.intact hsees hcounts⟩)
  · rw [unlinkFile, if_neg hopen]
    cases hmalloc : sysMalloc t with
    | mk ioBuf t₁ =>
    obtain rfl := sysMalloc_state hmalloc
    cases ioBuf with
    | none =>
        have h₁ : Stands s t.countMalloc dirs refs parentDir p :=
          ⟨⟨h.opened, h.iNo⟩, h.sees.countMalloc, h.counts.countMalloc, h.own⟩
        apply h₁.dirClose.bind
        rintro t₂ ⟨hsees, hcounts⟩
        exact Outcome.meets_ok (.inl ⟨rfl, hv.intact hsees hcounts⟩)
    | some ioBuf =>
        have htwo := (hv.inside h hdir).countMalloc.takesEntry hv hat hstored hkept
          (le_dirHeld refs parentDir) (hv.tree.room.dirHeld _ |>.mono (by decide))
        dsimp only
        rw [← bind_assoc]
        apply htwo.bind
        rintro t₃ ⟨hcounts, htask, htakes⟩
        rw [sysFree_own ((sysMalloc_own hmalloc).trans (by rw [htask]; rfl)), Outcome.ok_bind]
        apply (dirClose_eq h htask).bind
        intro s' hclose
        refine Outcome.meets_ok (.inr ⟨rfl, ?_⟩)
        exact htakes s' (dirClose_looks hclose) (hcounts.dirClose hclose)

/-- A directory is taken for empty if it has no entries but "." and "..". -/
theorem Inside.dirIsEmpty_iff (hv : Volume s dirs files parent refs)
    (h : Inside s t dirs files held dir.inode n) (hn : dirs n = some gone) :
    dirIsEmpty t dir = true ↔ EmptyDir (treeEntries s.disk dirs) n := by
  have hrep := hv.tree.rep n gone hn
  have hisDir : dirs n ≠ none := by
    rw [hn]
    exact Option.some_ne_none _
  have hentry : t.part.sb.dirEntrySize = dirEntryBytes := by
    rw [h.sees.looks.sb]
    exact hrep.entrySize
  rw [hv.names.emptyDir_iff hisDir, treeEntries_some hn, dirIsEmpty, beq_iff_eq, hentry,
    (h.node hn).iSize, hrep.size]
  exact Nat.mul_left_cancel_iff (by decide)

/-- `sys_rmdir` of a directory frees only one block and the table. -/
def OneBlock (s : FsState) (ino : Inode) : Prop :=
  (∀ j ∈ List.range' 1 11, ino.iSectors j = 0) ∨ s.ndebug = true

/-- What `sys_rmdir` does with the two directories open; `n` is the one that is
    removed. -/
theorem removeIfEmpty_meets {served : Prop} {after : FsState → Prop}
    (hv : Volume s dirs files parent refs) (hn : dirs n = some gone)
    (htakes : EmptyDir (treeEntries s.disk dirs) n →
      TakesOut s dirs files refs p n served after)
    (hle : ∀ r, refs r ≤ held r) (hroom : Room held 1)
    (h : Inside s t dirs files held parentDir.inode p) (hdir : NodeOf t dir.inode n) :
    Outcome.Meets (served ∧ HeapServes s
        ∧ (EmptyDir (treeEntries s.disk dirs) n → OneBlock s gone))
      (removeIfEmpty t parentDir dir) fun r => RefCounts r.2 held ∧ r.2.task = t.task
        ∧ (r.1 = false ∧ (r.2 = t ∨ r.2 = t.countMalloc)
            ∧ (HeapServes s → ¬ EmptyDir (treeEntries s.disk dirs) n)
          ∨ r.1 = true ∧ (EmptyDir (treeEntries s.disk dirs) n ∧ OneBlock s gone)
            ∧ ∀ s', Looks r.2 s' → RefCounts s' refs → after s') := by
  have hn' : Inside s t dirs files held dir.inode n := ⟨hdir, h.sees, h.counts⟩
  have hrec := hn'.node hn
  by_cases hempty : dirIsEmpty t dir = true
  · have hnone := (hn'.dirIsEmpty_iff hv hn).1 hempty
    rw [removeIfEmpty, if_pos hempty, dirRemove]
    have hsectors : Outcome.Meets (served ∧ HeapServes s
          ∧ (EmptyDir (treeEntries s.disk dirs) n → OneBlock s gone))
        (kassert t (∀ j ∈ List.range' 1 11, (t.inodes dir.inode).iSectors j = 0))
        fun _ => OneBlock s gone := by
      have hndebug : t.ndebug = s.ndebug := by rw [h.sees.looks.same]
      have hblocks : (∀ j ∈ List.range' 1 11, (t.inodes dir.inode).iSectors j = 0)
          ↔ ∀ j ∈ List.range' 1 11, gone.iSectors j = 0 := by
        refine forall₂_congr fun j hj => ?_
        have hlt := List.mem_range'_1.1 hj
        rw [hrec.iSectors j (by omega)]
      have hiff := or_congr hblocks (iff_of_eq (congrArg (· = true) hndebug))
      exact ⟨fun _ hpass => hiff.1 (kassert_eq_ok.1 hpass),
        fun hserved => ⟨(), kassert_eq_ok.2 (hiff.2 (hserved.2.2 hnone))⟩⟩
    apply hsectors.bind
    intro _ hone
    cases hmalloc : sysMalloc t with
    | mk ioBuf t₁ =>
    obtain rfl := sysMalloc_state hmalloc
    cases ioBuf with
    | none =>
        apply Outcome.meets_ok
        refine ⟨h.counts.countMalloc, rfl, .inl ⟨rfl, .inr rfl, fun hheap => ?_⟩⟩
        rw [(h.sees.heapServes hheap).sysMalloc] at hmalloc
        cases hmalloc
    | some ioBuf =>
        have htwo := htakes hnone t.countMalloc parentDir.inode dir.inode held hle hroom
          h.countMalloc ⟨hdir.opened, hdir.iNo⟩
        have hiNo : (t.countMalloc.inodes dir.inode).iNo = n := hdir.iNo
        dsimp only
        rw [hiNo]
        have hsame : (deleteDirEntry t.countMalloc parentDir.inode n >>= fun d =>
              inodeRelease d.2 (d.2.inodes dir.inode).iNo)
            = deleteDirEntry t.countMalloc parentDir.inode n >>= fun d => inodeRelease d.2 n := by
          cases hcall : deleteDirEntry t.countMalloc parentDir.inode n with
          | error e => rfl
          | ok d =>
              rw [Outcome.ok_bind, Outcome.ok_bind, (deleteDirEntry_writes hcall).iNo, hiNo]
        rw [← bind_assoc, hsame]
        apply (htwo.weaken And.left).bind
        rintro t₃ ⟨hcounts, htask, hafter⟩
        rw [sysFree_own ((sysMalloc_own hmalloc).trans (by rw [htask]; rfl)), Outcome.ok_bind]
        apply Outcome.meets_ok
        exact ⟨hcounts, htask, .inr ⟨rfl, ⟨hnone, hone⟩, hafter⟩⟩
  · rw [removeIfEmpty, if_neg hempty]
    apply Outcome.meets_ok
    exact ⟨h.counts, rfl, .inl ⟨rfl, .inl rfl, fun _ hnone =>
      hempty ((hn'.dirIsEmpty_iff hv hn).2 hnone)⟩⟩

/-- Closing a directory that is held. -/
theorem dirClose_held {served : Prop} (hsees : Sees s t dirs)
    (hcounts : RefCounts t (dirHeld refs dir))
    (hown : ∀ block, dir.block = some block → block.kernel = s.task.pgdir.isNone) :
    Outcome.Meets served (dirClose t dir) fun t' => Sees s t' dirs ∧ RefCounts t' refs := by
  apply (dirClose_meets fun block hblock => ?_).mono
  · intro t' hcall
    exact ⟨hsees.dirClose hcall, hcounts.dirClose hcall⟩
  · rw [hsees.looks.task]
    exact hown block hblock

/-- `sys_rmdir` once both directories are open. -/
theorem rmdirOpened_meets {served : Prop} {after : FsState → Prop}
    (hv : Volume s dirs files parent refs) (hn : dirs n = some gone) (hp : dirs p ≠ none)
    (htakes : EmptyDir (treeEntries s.disk dirs) n →
      TakesOut s dirs files refs p n served after)
    (hpar : NodeOf t parentDir.inode p)
    (hown : ∀ block, parentDir.block = some block → block.kernel = s.task.pgdir.isNone)
    (h : Stands s t dirs (dirHeld refs parentDir) dir n) :
    Outcome.Meets (served ∧ HeapServes s
        ∧ (EmptyDir (treeEntries s.disk dirs) n → OneBlock s gone))
      (rmdirOpened parentDir dir t) fun r =>
        r.1 = -1 ∧ (Sees s r.2 dirs ∧ RefCounts r.2 refs)
            ∧ (HeapServes s → ¬ EmptyDir (treeEntries s.disk dirs) n)
          ∨ r.1 = 0 ∧ (EmptyDir (treeEntries s.disk dirs) n ∧ OneBlock s gone) ∧ after r.2 := by
  have hle : ∀ r, refs r ≤ dirHeld (dirHeld refs parentDir) dir r := fun r =>
    (le_dirHeld refs parentDir r).trans (le_dirHeld _ dir r)
  have hobjects : Sees s t (objects dirs files) := by
    refine hv.sees_held h.sees h.counts fun r hr => ?_
    rcases dirHeld_pos hr with hr | rfl
    · rcases dirHeld_pos hr with hr | rfl
      · exact .inl hr
      · right
        rw [hpar.iNo]
        exact hp
    · right
      rw [h.iNo, hn]
      exact Option.some_ne_none _
  have hroom := ((hv.tree.room.dirHeld parentDir).dirHeld dir).mono (show 1 ≤ 2 by decide)
  apply (removeIfEmpty_meets hv hn htakes hle hroom ⟨hpar, hobjects, h.counts⟩ h.toNodeOf).bind
  rintro ⟨removed, t₁⟩ ⟨hcounts, htask, hcase⟩
  dsimp only at hcounts htask hcase ⊢
  rcases hcase with ⟨rfl, hsame, hnot⟩ | ⟨rfl, hempty, hafter⟩
  · -- nothing was removed
    have hsees : Sees s t₁ dirs := by
      rcases hsame with rfl | rfl
      · exact h.sees
      · exact h.sees.countMalloc
    apply (dirClose_held hsees hcounts h.own).bind
    rintro t₂ ⟨hsees, hcounts⟩
    apply (dirClose_held hsees hcounts hown).bind
    rintro t₃ hclosed
    exact Outcome.meets_ok (.inl ⟨rfl, hclosed, hnot⟩)
  · apply (dirClose_eq h htask).bind
    intro t₂ hclose
    have htask₂ : t₂.task = s.task := by
      rw [(dirClose_looks hclose).task, htask, h.sees.looks.task]
    have hclose₂ : Outcome.Meets (served ∧ HeapServes s
          ∧ (EmptyDir (treeEntries s.disk dirs) n → OneBlock s gone))
        (dirClose t₂ parentDir) fun t₃ => dirClose t₂ parentDir = .ok t₃ := by
      refine dirClose_meets fun block hblock => ?_
      rw [htask₂]
      exact hown block hblock
    apply hclose₂.bind
    intro t₃ hclose'
    refine Outcome.meets_ok (.inr ⟨rfl, hempty, ?_⟩)
    exact hafter t₃ ((dirClose_looks hclose).trans (dirClose_looks hclose'))
      ((hcounts.dirClose hclose).dirClose hclose')

/-! ## The calls on paths -/

variable {path : List UInt8}

/-- What a path leads to is in a directory of the tree. -/
theorem Volume.reach_parent (hv : Volume s dirs files parent refs) {f : Found}
    {names : List (List UInt8)} (hf : reach (treeEntries s.disk dirs) rootFound names = some f) :
    dirs f.parent ≠ none := by
  rcases reach_entry hf with rfl | ⟨e, he, -⟩
  · exact hv.tree.root
  · exact hv.names.isDir_of_mem he

/-- Paths that lead to the root cannot be removed; "//" is one of them. -/
def NotRoot (s : FsState) (dirs : Nat → Option Inode) (path : List UInt8) : Prop :=
  ∀ f, reach (treeEntries s.disk dirs) rootFound (words slash path) = some f → f.iNo ≠ 0

theorem NotRoot.names (h : NotRoot s dirs path) : words slash path ≠ [] := by
  intro hnil
  have := h rootFound (by rw [hnil]; rfl)
  exact this rfl

/-- The search of a call on a path, then the rest. -/
theorem searchFile_bind {post : Int × FsState → Prop} {served : Prop}
    {rest : Option Nat × PathSearchRecord × FsState → Outcome (Int × FsState)}
    (hv : Volume s dirs files parent refs) (hpath : PathOk path)
    (hheap : served → HeapServes s ∧ (path = [slash] ∨ words slash path ≠ []))
    (hrest : ∀ r, searchFile s path = .ok r → Reached s dirs refs
      (reach (treeEntries s.disk dirs) rootFound (words slash path)) r →
      Outcome.Meets served (rest r) post) :
    Outcome.Meets served (searchFile s path >>= rest) post := by
  by_cases hnames : path = [slash] ∨ words slash path ≠ []
  · apply ((searchFile_meets hv.tree hpath hnames).weaken fun h => (hheap h).1).with_eq.bind
    exact fun r h => hrest r h.1 h.2
  · obtain ⟨hslash, hnil⟩ := not_or.1 hnames
    refine ⟨fun r hcall => ?_, fun hserved => ?_⟩
    · obtain ⟨r', hsearch, -⟩ := Outcome.bind_eq_ok.1 hcall
      exact absurd hsearch (searchFile_slashes hpath hslash (not_not.1 hnil))
    · exact absurd (hheap hserved).2 hnames

theorem kassert_meets {served : Prop} {c : Prop} [Decidable c] (h : served → c) :
    Outcome.Meets served (kassert s c) fun _ => True :=
  ⟨fun _ _ => trivial, fun hserved => ⟨(), kassert_eq_ok.2 (.inl (h hserved))⟩⟩

theorem Reached.notRoot {found : Option Found} {r : Option Nat × PathSearchRecord × FsState}
    (h : Reached s dirs refs found r) (hroot : ∀ f, found = some f → f.iNo ≠ 0) :
    r.1 ≠ some 0 := by
  rw [h.iNo]
  intro heq
  obtain ⟨f, hf, hzero⟩ := Option.map_eq_some_iff.1 heq
  exact hroot f hf hzero

/-- Refusing gives back what the search opened. -/
theorem Reached.refuses {found : Option Found} {r : Option Nat × PathSearchRecord × FsState}
    {served : Prop} (h : Reached s dirs refs found r) (hheap : served → HeapServes s) :
    Outcome.Meets served (Fs.refuse r.2.2 r.2.1) fun r' =>
      r'.1 = -1 ∧ Sees s r'.2 dirs ∧ RefCounts r'.2 refs := by
  obtain ⟨m, hstands, -⟩ := h.stands
  apply (hstands.dirClose.weaken hheap).bind
  rintro t hclosed
  exact Outcome.meets_ok ⟨rfl, hclosed⟩

/-- Refusing leaves the partition as it was. -/
theorem Reached.refuse {found : Option Found} {r : Option Nat × PathSearchRecord × FsState}
    {served : Prop} (hv : Volume s dirs files parent refs) (h : Reached s dirs refs found r)
    (hheap : served → HeapServes s) :
    Outcome.Meets served (Fs.refuse r.2.2 r.2.1) fun r' =>
      r'.1 = -1 ∧ Intact s r'.2 dirs files parent refs :=
  (h.refuses hheap).mono fun _ hr => ⟨hr.1, hv.intact hr.2.1 hr.2.2⟩

/-- What `sys_unlink` does: it refuses, or takes the entry of the file away that
    the search found. -/
def Unlinks (s : FsState) (dirs files : Nat → Option Inode) (parent refs : Nat → Nat)
    (path : List UInt8) (r : Int × FsState) : Prop :=
  r.1 = -1 ∧ Intact s r.2 dirs files parent refs
    ∨ r.1 = 0 ∧ ∃ f, reach (treeEntries s.disk dirs) rootFound (words slash path) = some f
      ∧ f.fType = .regular ∧ Takes s r.2 dirs parent refs f.parent f.iNo

theorem sysUnlink_meets (hv : Volume s dirs files parent refs) (hpath : PathOk path)
    (hok : ∀ f, reach (treeEntries s.disk dirs) rootFound (words slash path) = some f →
      f.fType = .regular → RemoveOk s dirs f) :
    Outcome.Meets (HeapServes s ∧ NotRoot s dirs path) (sysUnlink s path)
      (Unlinks s dirs files parent refs path) := by
  rw [sysUnlink, kassert_pos hpath.length_lt, Outcome.ok_bind]
  refine searchFile_bind hv hpath (fun h => ⟨h.1, .inr h.2.names⟩) fun r _ hreached => ?_
  obtain ⟨no, record, t⟩ := r
  have hassert : Outcome.Meets (HeapServes s ∧ NotRoot s dirs path) (kassert t (no ≠ some 0))
      fun _ => True := kassert_meets fun h => hreached.notRoot h.2
  apply hassert.bind
  intro _ _
  have hrefuse : Outcome.Meets (HeapServes s ∧ NotRoot s dirs path) (refuse t record)
      (Unlinks s dirs files parent refs path) :=
    (hreached.refuse hv And.left).mono fun r h => .inl h
  cases hno : no with
  | none => exact hrefuse
  | some n =>
      obtain ⟨f, hf, rfl, htype, hstands⟩ := hreached.found hno
      dsimp only
      by_cases hdir : record.fileType = .directory
      · rw [if_pos hdir]
        exact hrefuse
      · rw [if_neg hdir]
        rw [htype] at hdir
        obtain ⟨hreg, hfile⟩ := (hv.names.reach_kind hf).resolve_left fun h => hdir h.1
        have hok := hok f hf hreg
        have hempty := hv.names.emptyDir_of_file hfile
        obtain ⟨k, i, old, gone, hat, hkept⟩ := hok.entryAt hv hf hempty
        apply ((unlinkFile_meets hv hat hok.stored hkept hstands).weaken And.left).mono
        rintro r (h | ⟨hzero, htakes⟩)
        · exact .inl h
        · exact .inr ⟨hzero, f, hf, hreg, htakes⟩

/-- The path leads to a directory without entries of its own. -/
def LeadsToEmpty (tree : Nat → List Entry) (path : List UInt8) (f : Found) : Prop :=
  reach tree rootFound (words slash path) = some f ∧ f.fType = .directory ∧ EmptyDir tree f.iNo

/-- What `sys_rmdir` does: it refuses, which it does of an empty directory only
    without memory, or takes the empty directory away that the path leads to. -/
def Rmdirs (s : FsState) (dirs files : Nat → Option Inode) (parent refs : Nat → Nat)
    (path : List UInt8) (r : Int × FsState) : Prop :=
  r.1 = -1 ∧ Intact s r.2 dirs files parent refs
      ∧ (HeapServes s → ¬ ∃ f, LeadsToEmpty (treeEntries s.disk dirs) path f)
    ∨ r.1 = 0 ∧ ∃ f, LeadsToEmpty (treeEntries s.disk dirs) path f
      ∧ Takes s r.2 dirs parent refs f.parent f.iNo

/-- An empty directory at the end of the path passes the check of its pointers. -/
def OneBlockAt (s : FsState) (dirs : Nat → Option Inode) (path : List UInt8) : Prop :=
  ∀ f ino, reach (treeEntries s.disk dirs) rootFound (words slash path) = some f →
    dirs f.iNo = some ino → EmptyDir (treeEntries s.disk dirs) f.iNo → OneBlock s ino

/-- The message about a missing part of the path. -/
theorem rmdirMessage_eq {searchedPath : List UInt8} (h : Printable path)
    (hle : searchedPath.length ≤ path.length) :
    kprintStrings "%s: In %s, subpath %s not exists!\n"
      [literal "sys_rmdir", path, searchedPath] = .ok () := by
  refine kprintStrings_eq [([], literal "sys_rmdir"), (literal ": In ", path),
    (literal ", subpath ", searchedPath)] (literal " not exists!\n") rfl ?_ ?_
  · change Unformatted ([[], literal ": In ", literal ", subpath "].flatten
      ++ literal " not exists!\n")
    decide
  · change 0 + 9 + (5 + path.length + (10 + searchedPath.length + 0)) + 13 < 1024
    omega

/-- Such a message is printed where it fits. -/
theorem PathOk.message_meets (hpath : PathOk path) {r : Option Nat} {record : PathSearchRecord}
    {served : Prop} {message : Outcome Unit} (hsearch : searchFile s path = .ok (r, record, t))
    (hfits : served → record.searchedPath.length ≤ path.length → message = .ok ()) :
    Outcome.Meets served message fun _ => True := by
  have hle := searchFile_searched hpath.names hpath.absolute hpath.length_lt hsearch
  exact ⟨fun _ _ => trivial, fun hserved => ⟨(), hfits hserved hle⟩⟩

/-- `sys_rmdir` refuses, or takes out the empty directory that the path leads
    to. -/
theorem sysRmdir_takesOut {served : Prop} {after : Found → FsState → Prop}
    (hv : Volume s dirs files parent refs) (hpath : PathOk path)
    (htakes : ∀ f, LeadsToEmpty (treeEntries s.disk dirs) path f →
      TakesOut s dirs files refs f.parent f.iNo served (after f)) :
    Outcome.Meets (served ∧ HeapServes s ∧ NotRoot s dirs path ∧ OneBlockAt s dirs path
        ∧ (Printable path ∨ ∃ f, LeadsToEmpty (treeEntries s.disk dirs) path f))
      (sysRmdir s path) fun r =>
        r.1 = -1 ∧ (Sees s r.2 dirs ∧ RefCounts r.2 refs)
            ∧ (HeapServes s → ¬ ∃ f, LeadsToEmpty (treeEntries s.disk dirs) path f)
          ∨ r.1 = 0 ∧ ∃ f, LeadsToEmpty (treeEntries s.disk dirs) path f
            ∧ (∀ gone, dirs f.iNo = some gone → OneBlock s gone) ∧ after f r.2 := by
  rw [sysRmdir]
  refine searchFile_bind hv hpath (fun h => ⟨h.2.1, .inr h.2.2.1.names⟩) fun r hsearch hreached => ?_
  obtain ⟨no, record, t⟩ := r
  apply Outcome.Meets.bind
  · exact kassert_meets fun h => hreached.notRoot h.2.2.1
  intro _ _
  dsimp only
  cases hno : no with
  | none =>
      -- there is no such directory
      have hnone : ¬ ∃ f, LeadsToEmpty (treeEntries s.disk dirs) path f := by
        rintro ⟨f, hf, -⟩
        have hlost := Option.map_eq_none_iff.1 (hreached.iNo.symm.trans hno)
        rw [hf] at hlost
        cases hlost
      apply Outcome.Meets.bind
      · exact hpath.message_meets hsearch fun h =>
          rmdirMessage_eq (h.2.2.2.2.resolve_right hnone)
      intro _ _
      exact (hreached.refuses fun h => h.2.1).mono fun r h => .inl ⟨h.1, h.2, fun _ => hnone⟩
  | some n =>
      obtain ⟨f, hf, rfl, htype, hstands⟩ := hreached.found hno
      dsimp only
      by_cases hreg : record.fileType = .regular
      · rw [if_pos hreg]
        refine (hreached.refuses fun h => h.2.1).mono fun r h => .inl ⟨h.1, h.2, fun _ => ?_⟩
        rintro ⟨f', hf', hdir, -⟩
        obtain rfl := Option.some.inj (hf.symm.trans hf')
        rw [htype, hdir] at hreg
        cases hreg
      · rw [if_neg hreg]
        rw [htype] at hreg
        obtain ⟨hdir, hisDir⟩ := (hv.names.reach_kind hf).resolve_right fun h => hreg h.1
        obtain ⟨gone, hgone⟩ := dirs_some hisDir
        apply (((hstands.sees.dirOpen hv.tree hstands.counts (le_dirHeld refs _)
          (hv.tree.room.dirHeld _ |>.mono (by decide)) hisDir).with_eq).weaken fun h => h.2.1).bind
        rintro ⟨dir, t₁⟩ ⟨hopen, hdirStands⟩
        have hpar := hstands.stays hdirStands.counts (le_dirHeld _ dir) (dirOpen_spec hopen).1
        apply ((rmdirOpened_meets hv hgone (hv.reach_parent hf)
          (fun hempty => htakes f ⟨hf, hdir, hempty⟩) hpar hstands.own hdirStands).weaken
          fun h => ⟨h.1, h.2.1, h.2.2.2.1 f gone hf hgone⟩).mono
        rintro r (⟨hr, hclosed, hnot⟩ | ⟨hzero, ⟨hempty, hone⟩, hafter⟩)
        · refine .inl ⟨hr, hclosed, fun hheap ⟨f', hf'⟩ => ?_⟩
          obtain rfl := Option.some.inj (hf.symm.trans hf'.1)
          exact hnot hheap hf'.2.2
        · refine .inr ⟨hzero, f, ⟨hf, hdir, hempty⟩, fun gone' hgone' => ?_, hafter⟩
          obtain rfl := Option.some.inj (hgone.symm.trans hgone')
          exact hone

theorem sysRmdir_meets (hv : Volume s dirs files parent refs) (hpath : PathOk path)
    (hok : ∀ f, LeadsToEmpty (treeEntries s.disk dirs) path f → RemoveOk s dirs f) :
    Outcome.Meets (HeapServes s ∧ NotRoot s dirs path ∧ OneBlockAt s dirs path ∧ Printable path)
      (sysRmdir s path) (Rmdirs s dirs files parent refs path) := by
  have htakes : ∀ f, LeadsToEmpty (treeEntries s.disk dirs) path f →
      TakesOut s dirs files refs f.parent f.iNo (HeapServes s)
        fun s' => Takes s s' dirs parent refs f.parent f.iNo := by
    intro f hf t q r held hle hroom h _
    obtain ⟨k, i, old, gone, hat, hkept⟩ := (hok f hf).entryAt hv hf.1 hf.2.2
    exact h.takesEntry hv hat (hok f hf).stored hkept hle hroom
  apply ((sysRmdir_takesOut hv hpath htakes).weaken fun h =>
    ⟨h.1, h.1, h.2.1, h.2.2.1, .inl h.2.2.2⟩).mono
  rintro r (⟨hr, ⟨hsees, hcounts⟩, hnot⟩ | ⟨hr, f, hf, -, htakes⟩)
  · exact .inl ⟨hr, hv.intact hsees hcounts, hnot⟩
  · exact .inr ⟨hr, f, hf, htakes⟩

/-- In a partition where removing works at the end of the path: `sys_rmdir`
    returns, for a path that it can print, 0 exactly if the path leads to a
    directory without entries of its own.  Then the entry of the directory is
    gone and nothing else, and no path leads to the directory; otherwise the
    partition is as it was. -/
theorem sysRmdir_exact (hv : Volume s dirs files parent refs) (hpath : PathOk path)
    (hshort : Printable path) (hheap : HeapServes s) (hroot : NotRoot s dirs path)
    (hone : OneBlockAt s dirs path)
    (hok : ∀ f, LeadsToEmpty (treeEntries s.disk dirs) path f → RemoveOk s dirs f) :
    ∃ r s', sysRmdir s path = .ok (r, s') ∧ (r = 0 ∨ r = -1)
      ∧ (r = 0 ↔ ∃ f, LeadsToEmpty (treeEntries s.disk dirs) path f)
      ∧ (r = -1 → Volume s' dirs files parent refs ∧ s'.disk = s.disk)
      ∧ ∀ f, LeadsToEmpty (treeEntries s.disk dirs) path f →
        ∃ dirs' files', Volume s' dirs' files' parent refs
          ∧ Loses (treeEntries s.disk dirs) (treeEntries s'.disk dirs') f.parent f.iNo
          ∧ ∀ names g, reach (treeEntries s'.disk dirs') rootFound names = some g →
            g.iNo ≠ f.iNo := by
  obtain ⟨⟨r, s'⟩, hcall, hcase⟩ := (sysRmdir_meets hv hpath hok).exists
    ⟨hheap, hroot, hone, hshort⟩
  refine ⟨r, s', hcall, ?_⟩
  rcases hcase with ⟨hr, hintact, hnot⟩ | ⟨hr, f, hf, htakes⟩
  · dsimp only at hr hintact
    subst hr
    have hnot := hnot hheap
    exact ⟨.inr rfl, iff_of_false (by decide) hnot, fun _ => hintact,
      fun f hf => absurd ⟨f, hf⟩ hnot⟩
  · dsimp only at hr htakes
    subst hr
    refine ⟨.inl rfl, iff_of_true rfl ⟨f, hf⟩, fun h => absurd h (by decide), fun f' hf' => ?_⟩
    obtain rfl := Option.some.inj (hf.1.symm.trans hf'.1)
    obtain ⟨dirs', files', hv', hloses⟩ := htakes
    exact ⟨dirs', files', hv', hloses, fun names g hg =>
      hloses.unreachable hv.names hf.2.2 hg⟩

/-! ### A small partition -/

/-- The node of the root is that of directory 0. -/
theorem Volume.root_record {old : Inode} (hv : Volume s dirs files parent refs)
    (hdir : dirs 0 = some old) : SameRecord (s.inodes s.rootInode) old :=
  hv.tree.node 0 old hdir s.rootInode hv.tree.rootNode.1 hv.tree.rootNode.2

/-- In the small partition "/d" is the empty directory. -/
theorem smallVolume_reach (hv : Volume smallVolumeFs dirs files parent refs) :
    reach (treeEntries smallVolumeFs.disk dirs) rootFound (words slash [47, 100])
      = some ⟨2, .directory, 0⟩ := by
  obtain ⟨old, hdir⟩ := dirs_some hv.tree.root
  have hentries : treeEntries smallVolumeFs.disk dirs 0
      = [(shortEntry dot 0 2).entry, (shortEntry dotDot 0 2).entry, (shortEntry [97] 1 1).entry,
        (shortEntry [100] 2 2).entry] := by
    rw [treeEntries_some hdir, ← (hv.root_record hdir).dirEntries_eq]
    exact smallVolume_root
  have hwords : words slash [47, 100] = [[100]] := by decide
  rw [hwords, reach, nextFound, if_pos (show rootFound.fType = .directory from rfl)]
  change ((lookup (treeEntries smallVolumeFs.disk dirs 0) [100]).map (Entry.found 0)).bind _ = _
  rw [hentries]
  rfl

theorem smallVolume_removeOk (hv : Volume smallVolumeFs dirs files parent refs) {f : Found}
    (hf : reach (treeEntries smallVolumeFs.disk dirs) rootFound (words slash [47, 100]) = some f) :
    RemoveOk smallVolumeFs dirs f := by
  obtain rfl := Option.some.inj ((smallVolume_reach hv).symm.trans hf)
  refine ⟨by decide, by decide, fun old k i hdir hcarrier => ?_⟩
  have href : blockRef smallVolumeFs.disk old k = if k = 0 then 612 else 0 := by
    rw [← (hv.root_record hdir).blockRef_eq]
    exact blockRef_oneBlock _ 0 96 612 1 k
  have hthere := hcarrier.there
  have hhere := hcarrier.here
  rw [href] at hthere hhere ⊢
  split_ifs at hthere hhere ⊢ with hk
  · -- "." stands before it
    have hdot : slotEntry smallVolumeDisk 612 0 = some (shortEntry dot 0 2).entry := by
      decide +kernel
    refine ⟨0, (shortEntry dot 0 2).entry, Nat.pos_of_ne_zero ?_, hdot, by decide⟩
    rintro rfl
    obtain ⟨e, he, hplain, -⟩ := hhere
    obtain rfl := Option.some.inj (hdot.symm.trans he)
    exact hplain.1 rfl
  · exact absurd rfl hthere

theorem smallVolume_notRoot : NotRoot smallVolumeFs smallVolumeDirs [47, 100] := by
  intro f hf
  obtain rfl := Option.some.inj ((smallVolume_reach smallVolume).symm.trans hf)
  decide

theorem smallVolume_oneBlock : OneBlockAt smallVolumeFs smallVolumeDirs [47, 100] := by
  intro f ino hf hdir _
  obtain rfl := Option.some.inj ((smallVolume_reach smallVolume).symm.trans hf)
  obtain rfl := Option.some.inj hdir
  exact .inl (by decide)

theorem sysRmdir_exact_smallVolume :
    ∃ r s', sysRmdir smallVolumeFs [47, 100] = .ok (r, s') ∧ (r = 0 ∨ r = -1)
      ∧ (r = 0 ↔ ∃ f, LeadsToEmpty (treeEntries smallVolumeFs.disk smallVolumeDirs) [47, 100] f)
      ∧ (r = -1 → Volume s' smallVolumeDirs smallVolumeFiles (fun _ => 0) smallTreeRefs
          ∧ s'.disk = smallVolumeFs.disk)
      ∧ ∀ f, LeadsToEmpty (treeEntries smallVolumeFs.disk smallVolumeDirs) [47, 100] f →
        ∃ dirs' files', Volume s' dirs' files' (fun _ => 0) smallTreeRefs
          ∧ Loses (treeEntries smallVolumeFs.disk smallVolumeDirs) (treeEntries s'.disk dirs')
            f.parent f.iNo
          ∧ ∀ names g, reach (treeEntries s'.disk dirs') rootFound names = some g →
            g.iNo ≠ f.iNo := by
  apply sysRmdir_exact smallVolume ⟨rfl, by decide, by decide, by decide⟩ (by decide)
    (fun _ _ => rfl) smallVolume_notRoot smallVolume_oneBlock
  intro f hf
  exact smallVolume_removeOk smallVolume hf.1

end Fs
end JackOS
