/-
  JackOS.Fs.RmdirClean

  `sys_rmdir` looks for the entry in the directory that the last name of the path
  was looked up in, does not ask whether `delete_dir_entry` found it, and
  releases the inode.  An entry for the released inode is left where the last
  name is ".", and where the block with the entry is dropped but not the pointer
  to it (`Lingers`); nowhere else (`RmdirOk`).
-/

import JackOS.Fs.EntryCut

namespace JackOS
namespace Fs

open Base

variable {s s' t : FsState} {dirs files : Nat → Option Inode} {parent refs held : Nat → Nat}
  {ino old gone : Inode} {m n p q k i : Nat}

/-! ## Where the entry is looked for -/

/-- The pointer at `j` of record `p` is written by `inode_sync` where `inode_open`
    reads it. -/
def PointerSynced (p j : Nat) : Prop := p < 256 ∧ 20 + 4 * j ≤ inodeSpan p

instance (p j : Nat) : Decidable (PointerSynced p j) := by
  unfold PointerSynced
  infer_instance

/-- `delete_dir_entry` drops the block of the entry and returns, but the record
    that the directory is read through later, that on disk, keeps the pointer. -/
structure Lingers (s : FsState) (p k i : Nat) (old : Inode) : Prop where
  returns : ReturnOk s old k i
  dropped : ¬ Kept s.disk (blockRef s.disk old k) i
  closed : findOpen s p = none
  unsynced : ¬ PointerSynced p (min k 12)

/-- The first block of the data area is the root directory's first, as
    `partition_format` makes it. -/
def RootFirst (s : FsState) (dirs : Nat → Option Inode) : Prop :=
  ∀ root, dirs 0 = some root → root.iSectors 0 = s.part.sb.dataStartLba

/-- So it is nobody's table. -/
theorem Volume.table_ne (hv : Volume s dirs files parent refs) (hfirst : RootFirst s dirs)
    (hm : dirs m = some ino) : ino.iSectors 12 ≠ s.part.sb.dataStartLba := by
  intro heq
  have hstart := hv.tree.layout.table_le
  have hthere : blockRef s.disk ino 140 ≠ 0 := by
    rw [blockRef_table]
    omega
  by_cases hm0 : m = 0
  · subst hm0
    have hzero : blockRef s.disk ino 140 = blockRef s.disk ino 0 := by
      rw [blockRef_table, blockRef_direct (by decide), heq, hfirst ino hm]
    exact absurd ((hv.tree.rep 0 ino hm).sound.inj 140 0 hthere hzero) (by decide)
  · have hbehind := (hv.area m ino (objects_dir hm) hm0 140 hthere).behindRoot
    rw [blockRef_table] at hbehind
    omega

/-- Whether the call returns does not depend on what else is open. -/
theorem Inside.returnOk_iff (hv : Volume s dirs files parent refs)
    (hat : EntryAt s dirs files p n k i old gone) (h : Inside s t dirs files held q p) :
    ReturnOk t (t.inodes q) k i ↔ ReturnOk s old k i := by
  obtain ⟨-, href, -⟩ := h.carrier hv hat
  have hlook := h.sees.looks
  have hbit : ∀ lba, droppedBit t lba = droppedBit s lba := fun lba => by
    rw [droppedBit, hlook.sb, droppedBit]
  have hbits : blockBits t = blockBits s := by rw [blockBits, hlook.blockBitmap, blockBits]
  have hndebug : t.ndebug = s.ndebug := by rw [hlook.same]
  unfold ReturnOk
  rw [href, hlook.disk, hbit, hbits, hndebug]

/-- The two calls where the entry is looked for in its own directory. -/
theorem EntryAt.takesOut (hv : Volume s dirs files parent refs)
    (hfirst : s.ndebug = true → RootFirst s dirs) (hat : EntryAt s dirs files p n k i old gone) :
    TakesOut s dirs files refs p n (HeapServes s ∧ ReturnOk s old k i)
      fun s' => Dangles s' dirs n ↔ Lingers s p k i old := by
  have hmod : p % 256 < 4096 := by omega
  refine takesOut_of_cuts hv hat (fun fate =>
    ReturnOk s old k i ∧ (fate = .cleared ∧ Kept s.disk (blockRef s.disk old k) i
      ∨ fate = .dropped ∧ ¬ Kept s.disk (blockRef s.disk old k) i)) hmod (fun t q held h => ?_)
    fun s' fate cut hcounts hcut hok => ?_
  · -- `delete_dir_entry`, which returns in the same cases wherever it is called
    have hlay := hv.tree.layout.looks h.sees.looks
    obtain ⟨hrep, -, hcarrier⟩ := h.carrier hv hat
    constructor
    · rintro ⟨r, u⟩ hcall
      obtain ⟨fate, cut, hcut, hfate⟩ := h.cuts hv hat
        (fun hndebug => hv.table_ne (hfirst hndebug) hat.dir) hcall
      exact ⟨fate, cut, hcut,
        (h.returnOk_iff hv hat).1 (returnOk_of_call hlay hrep hcarrier hcall), hfate⟩
    · intro hreturn
      obtain ⟨r, u, hcall, -⟩ := deleteReturns_of_returnOk hlay hrep hcarrier
        ((h.returnOk_iff hv hat).2 hreturn)
      exact ⟨(r, u), hcall⟩
  · -- what is left of the entry; `inode_sync` writes record `p % 256`
    rw [hcut.dangles_iff hv hat hmod hcounts]
    have hsynced : (p = p % 256 → inodeSpan (p % 256) < 20 + 4 * min k 12)
        ↔ ¬ PointerSynced p (min k 12) := by
      unfold PointerSynced
      constructor
      · rintro h ⟨hlt, hle⟩
        rw [Nat.mod_eq_of_lt hlt] at h
        exact absurd (h rfl) (Nat.not_lt_of_le hle)
      · intro h heq
        rw [← heq]
        exact Nat.lt_of_not_le fun hle => h ⟨by omega, hle⟩
    obtain ⟨hreturn, ⟨rfl, hkept⟩ | ⟨rfl, hnot⟩⟩ := hok
    · -- the slot was cleared, and no record matters
      refine iff_of_false ?_ fun h => h.dropped hkept
      rintro (h | ⟨h, -⟩)
      · cases h
      · cases h
    · rw [hsynced]
      constructor
      · rintro (h | ⟨-, hclosed, hnot'⟩)
        · cases h
        · exact ⟨hreturn, hnot, hclosed, hnot'⟩
      · exact fun h => .inr ⟨rfl, h.closed, h.unsynced⟩

/-- The two calls where it is looked for in the empty directory itself. -/
theorem EntryAt.takesOut_self (hv : Volume s dirs files parent refs)
    (hat : EntryAt s dirs files p n k i old gone) (hn : dirs n = some gone) :
    TakesOut s dirs files refs n n (HeapServes s ∧ True) fun s' => Dangles s' dirs n := by
  have hlt := (hv.tree.iNo n gone hn).2
  refine takesOut_of_cuts hv hat (fun fate => fate = .missed) hlt (fun t q held h => ?_)
    fun s' fate cut hcounts hcut hfate => (hcut.dangles_iff hv hat hlt hcounts).2 (.inl hfate)
  obtain ⟨hrep, hentries⟩ := h.sees.of_objects.dirRep hv.tree h.toNodeOf hn
  -- the directory has only "." and "..", which are not looked at
  have hcall : deleteDirEntry t q n = .ok (false, t) := by
    refine deleteDirEntry_none hrep fun k' i' hk hthere hi hcarries => ?_
    obtain ⟨e, hslot, hplain, -⟩ := hcarries
    have hmem := mem_of_slot hk hthere hi hslot
    rw [hentries, ← treeEntries_some hn] at hmem
    exact hat.empty e hmem hplain
  rw [hcall]
  exact Outcome.meets_ok ⟨.missed, old, h.misses hv hat, rfl⟩

/-! ## The law -/

variable {path : List UInt8} {f : Found}

/-- The path names a directory without entries of its own. -/
def NamesEmpty (tree : Nat → List Entry) (path : List UInt8) (f : Found) : Prop :=
  resolve tree path = some f ∧ f.fType = .directory ∧ EmptyDir tree f.iNo

/-- `sys_rmdir` leaves no entry for what it removed: when it returns 0 the path
    named an empty directory, whose entry is gone from its parent, and no entry of
    any directory carries the number; when it returns -1 nothing changed. -/
def RmdirClean (s : FsState) (dirs : Nat → Option Inode) (parent : Nat → Nat)
    (path : List UInt8) : Prop :=
  ∀ r s', sysRmdir s path = .ok (r, s') →
    (r = 0 → ∃ f, NamesEmpty (treeEntries s.disk dirs) path f
      ∧ (∀ ino, RecordOf s' (parent f.iNo) ino → ∀ e ∈ dirEntries s'.disk ino, e.iNo ≠ f.iNo)
      ∧ ¬ Dangles s' dirs f.iNo)
    ∧ (r = -1 → Unchanged s s' dirs)

/-- Where it does: of an empty directory that passes the check of its pointers
    the last name of the path is not ".", and the block with its entry does not
    linger. -/
def RmdirOk (s : FsState) (dirs : Nat → Option Inode) (path : List UInt8) : Prop :=
  ∀ f gone, NamesEmpty (treeEntries s.disk dirs) path f → dirs f.iNo = some gone →
    OneBlock s gone → (words slash path).getLast? ≠ some dot
      ∧ ∀ old k i, dirs f.parent = some old → OnlyCarrier s.disk old f.iNo k i →
        ¬ Lingers s f.parent k i old

/-- The entry of `f` is left. -/
def Leaves (s : FsState) (dirs : Nat → Option Inode) (f : Found) : Prop :=
  f.parent = f.iNo ∨ ∃ old k i, dirs f.parent = some old ∧ OnlyCarrier s.disk old f.iNo k i
    ∧ Lingers s f.parent k i old

theorem leadsToEmpty_iff {tree : Nat → List Entry} :
    LeadsToEmpty tree path f ↔ NamesEmpty tree path f := by
  unfold LeadsToEmpty NamesEmpty resolve
  rw [and_congr_left_iff]
  rintro ⟨hdir, -⟩
  exact reach_iff_walk rfl hdir

/-- The search ends at the root only if the path names it. -/
theorem Volume.notRoot (hv : Volume s dirs files parent refs)
    (hroot : ∀ f, resolve (treeEntries s.disk dirs) path = some f → f.iNo ≠ 0) :
    NotRoot s dirs path := by
  intro f hf
  rcases hv.names.reach_kind hf with ⟨hdir, -⟩ | ⟨-, hfile⟩
  · exact hroot f ((reach_iff_walk rfl hdir).1 hf)
  · intro hzero
    exact hfile (hzero ▸ hv.names.root)

/-- The entry of a directory that can be removed. -/
theorem Volume.entryAt_parent (hv : Volume s dirs files parent refs) (hn : dirs n = some gone)
    (hn0 : n ≠ 0) (hempty : EmptyDir (treeEntries s.disk dirs) n) :
    ∃ k i old, EntryAt s dirs files (parent n) n k i old gone := by
  obtain ⟨e, he, hplain, rfl⟩ := hv.names.linked n hn0 (by rw [hn]; exact Option.some_ne_none _)
  obtain ⟨k, i, old, gone', hat⟩ := hv.entryAt he hplain hempty
  have hobject := hat.object
  rw [objects_dir hn] at hobject
  obtain rfl := Option.some.inj hobject
  exact ⟨k, i, old, hat⟩

/-- The two calls at the end of a path, which leave an entry or not. -/
theorem Volume.takesOut (hv : Volume s dirs files parent refs)
    (hfirst : s.ndebug = true → RootFirst s dirs)
    (hf : NamesEmpty (treeEntries s.disk dirs) path f) (hf0 : f.iNo ≠ 0) :
    TakesOut s dirs files refs f.parent f.iNo (HeapServes s ∧ Leaves s dirs f)
      fun s' => Dangles s' dirs f.iNo ↔ Leaves s dirs f := by
  obtain ⟨hresolve, hdir, hempty⟩ := hf
  have hreach := (reach_iff_walk rfl hdir).2 hresolve
  obtain ⟨gone, hgone⟩ := dirs_some
    ((hv.names.reach_kind hreach).resolve_right fun h => by rw [h.1] at hdir; cases hdir).2
  -- the last name was ".", so the entry is looked for in the directory itself
  by_cases hself : f.parent = f.iNo
  · obtain ⟨k, i, old, hat⟩ := hv.entryAt_parent hgone hf0 hempty
    rw [hself]
    intro t q r held hle hroom h hr
    apply ((hat.takesOut_self hv hgone t q r held hle hroom h hr).weaken
      fun h => ⟨h.1, trivial⟩).mono
    rintro t' ⟨hcounts, htask, hafter⟩
    exact ⟨hcounts, htask, fun s' hlook hcounts => iff_of_true (hafter s' hlook hcounts)
      (.inl hself)⟩
  · -- a name of an entry in the parent, which is the only one for this inode
    obtain ⟨e, he, hplain, hno⟩ := hv.names.reach_plain hempty hreach rfl hself
    obtain ⟨k, i, old, gone', hat⟩ := hv.entryAt he hplain (by rwa [hno])
    rw [hno] at hat
    have hleaves : Leaves s dirs f ↔ Lingers s f.parent k i old := by
      constructor
      · rintro (h | ⟨old', k', i', hdir', hcarrier, hlingers⟩)
        · exact absurd h hself
        · obtain rfl := Option.some.inj (hdir'.symm.trans hat.dir)
          obtain ⟨rfl, rfl⟩ := hat.carrier.only k' i' hcarrier.block hcarrier.there hcarrier.slot
            hcarrier.here
          exact hlingers
      · exact fun h => .inr ⟨old, k, i, hat.dir, hat.carrier, h⟩
    intro t q r held hle hroom h hr
    rw [hleaves]
    exact (hat.takesOut hv hfirst t q r held hle hroom h hr).weaken fun h => ⟨h.1, h.2.returns⟩

/-- `sys_rmdir` of a path that does not name the root. -/
theorem sysRmdir_leaves (hv : Volume s dirs files parent refs)
    (hfirst : s.ndebug = true → RootFirst s dirs) (hpath : PathOk path)
    (hroot : ∀ f, resolve (treeEntries s.disk dirs) path = some f → f.iNo ≠ 0) :
    Outcome.Meets (HeapServes s ∧ OneBlockAt s dirs path
        ∧ ∃ f, NamesEmpty (treeEntries s.disk dirs) path f ∧ Leaves s dirs f)
      (sysRmdir s path) fun r =>
        r.1 = -1 ∧ Unchanged s r.2 dirs
            ∧ (HeapServes s → ¬ ∃ f, NamesEmpty (treeEntries s.disk dirs) path f)
          ∨ r.1 = 0 ∧ ∃ f, NamesEmpty (treeEntries s.disk dirs) path f
            ∧ (∀ gone, dirs f.iNo = some gone → OneBlock s gone)
            ∧ (Dangles r.2 dirs f.iNo ↔ Leaves s dirs f) := by
  have htakes : ∀ f, LeadsToEmpty (treeEntries s.disk dirs) path f →
      TakesOut s dirs files refs f.parent f.iNo (HeapServes s
          ∧ ∃ f, NamesEmpty (treeEntries s.disk dirs) path f ∧ Leaves s dirs f)
        fun s' => Dangles s' dirs f.iNo ↔ Leaves s dirs f := by
    intro f hf t q r held hle hroom h hr
    have hf := leadsToEmpty_iff.1 hf
    refine (hv.takesOut hfirst hf (hroot f hf.1) t q r held hle hroom h hr).weaken ?_
    rintro ⟨hheap, f', hf', hleaves⟩
    obtain rfl := Option.some.inj (hf'.1.symm.trans hf.1)
    exact ⟨hheap, hleaves⟩
  refine ((sysRmdir_takesOut hv hpath htakes).weaken ?_).mono ?_
  · rintro ⟨hheap, hone, f, hf, hleaves⟩
    exact ⟨⟨hheap, f, hf, hleaves⟩, hheap, hv.notRoot hroot, hone, .inr ⟨f, leadsToEmpty_iff.2 hf⟩⟩
  · simp only [leadsToEmpty_iff]
    rintro r (⟨hr, ⟨hsees, hcounts⟩, hnone⟩ | hzero)
    · exact .inl ⟨hr, hv.unchanged hsees hcounts, hnone⟩
    · exact .inr hzero

/-- What the condition says of a path to an empty directory. -/
theorem Volume.not_leaves_iff (hv : Volume s dirs files parent refs)
    (hf : NamesEmpty (treeEntries s.disk dirs) path f) (hf0 : f.iNo ≠ 0) :
    ¬ Leaves s dirs f ↔ (words slash path).getLast? ≠ some dot
      ∧ ∀ old k i, dirs f.parent = some old → OnlyCarrier s.disk old f.iNo k i →
        ¬ Lingers s f.parent k i old := by
  have hnames : words slash path ≠ [] := by
    intro hnil
    have hresolve := hf.1
    rw [resolve, hnil] at hresolve
    obtain rfl := Option.some.inj hresolve
    exact hf0 rfl
  have hdot := hv.names.last_dot_iff hf.2.2 hf0 hnames hf.1
  unfold Leaves
  rw [not_or, ← hdot]
  refine and_congr_right fun _ => ⟨fun h old k i hdir hcarrier hlingers => ?_, fun h => ?_⟩
  · exact h ⟨old, k, i, hdir, hcarrier, hlingers⟩
  · rintro ⟨old, k, i, hdir, hcarrier, hlingers⟩
    exact h old k i hdir hcarrier hlingers

theorem rmdirClean_of_rmdirOk (hv : Volume s dirs files parent refs)
    (hfirst : s.ndebug = true → RootFirst s dirs) (hpath : PathOk path)
    (hroot : ∀ f, resolve (treeEntries s.disk dirs) path = some f → f.iNo ≠ 0)
    (hok : RmdirOk s dirs path) : RmdirClean s dirs parent path := by
  intro r s' hcall
  rcases (sysRmdir_leaves hv hfirst hpath hroot).post _ hcall with
    ⟨hr, hsame, -⟩ | ⟨hr, f, hf, hone, hiff⟩
  · dsimp only at hr
    exact ⟨fun hzero => absurd (hr.symm.trans hzero) (by decide), fun _ => hsame⟩
  · dsimp only at hr
    refine ⟨fun _ => ?_, fun hrefused => absurd (hr.symm.trans hrefused) (by decide)⟩
    obtain ⟨hresolve, hdir, hempty⟩ := hf
    have hf0 := hroot f hresolve
    have hreach := (reach_iff_walk rfl hdir).2 hresolve
    obtain ⟨gone, hgone⟩ := dirs_some
      ((hv.names.reach_kind hreach).resolve_right fun h => by rw [h.1] at hdir; cases hdir).2
    -- the call returned 0, so it got past the checks and met the condition
    have hnot : ¬ Dangles s' dirs f.iNo := by
      rw [hiff, hv.not_leaves_iff ⟨hresolve, hdir, hempty⟩ hf0]
      exact hok f gone ⟨hresolve, hdir, hempty⟩ hgone (hone gone hgone)
    obtain ⟨k, i, old, hat⟩ := hv.entryAt_parent hgone hf0 hempty
    refine ⟨f, ⟨hresolve, hdir, hempty⟩, fun ino hrec e he hno => hnot ?_, hnot⟩
    refine ⟨parent f.iNo, ino, e, ?_, hat.ne, hrec, he, hno⟩
    rw [hat.dir]
    exact Option.some_ne_none _

theorem rmdirOk_of_rmdirClean (hv : Volume s dirs files parent refs)
    (hfirst : s.ndebug = true → RootFirst s dirs) (hpath : PathOk path)
    (hroot : ∀ f, resolve (treeEntries s.disk dirs) path = some f → f.iNo ≠ 0)
    (hheap : HeapServes s) (hclean : RmdirClean s dirs parent path) : RmdirOk s dirs path := by
  intro f gone hf hgone hone
  rw [← hv.not_leaves_iff hf (hroot f hf.1)]
  intro hleaves
  -- the check of the pointers passes, so the call gets as far as the entry
  have honeAt : OneBlockAt s dirs path := by
    intro f' ino hf' hino _
    have hreach := (reach_iff_walk rfl hf.2.1).2 hf.1
    obtain rfl := Option.some.inj (hreach.symm.trans hf')
    obtain rfl := Option.some.inj (hgone.symm.trans hino)
    exact hone
  obtain ⟨⟨r, s'⟩, hcall, hcase⟩ := (sysRmdir_leaves hv hfirst hpath hroot).exists
    ⟨hheap, honeAt, f, hf, hleaves⟩
  rcases hcase with ⟨-, -, hnone⟩ | ⟨hr, f', hf', -, hiff⟩
  · exact hnone hheap ⟨f, hf⟩
  · obtain ⟨f'', hf'', -, hnot⟩ := (hclean r s' hcall).1 hr
    obtain rfl := Option.some.inj (hf'.1.symm.trans hf.1)
    obtain rfl := Option.some.inj (hf''.1.symm.trans hf.1)
    exact hnot (hiff.2 hleaves)

theorem smallVolume_rootFirst : RootFirst smallVolumeFs smallVolumeDirs := by
  intro root hroot
  obtain rfl := Option.some.inj hroot
  decide

theorem smallVolume_walk : walk (treeEntries smallVolumeFs.disk smallVolumeDirs) rootFound [[100]]
    = some ⟨2, .directory, 0⟩ :=
  (reach_iff_walk rfl rfl).1 (smallVolume_reach smallVolume)

/-- "/d/." names the directory "/d". -/
theorem smallVolume_resolve_dot :
    resolve (treeEntries smallVolumeFs.disk smallVolumeDirs) [47, 100, 47, 46]
      = some ⟨2, .directory, 2⟩ := by
  have hwords : words slash [47, 100, 47, 46] = [[100]] ++ [dot] := by decide
  have hdir : treeEntries smallVolumeFs.disk smallVolumeDirs 2
      = [(shortEntry dot 2 2).entry, (shortEntry dotDot 0 2).entry] :=
    (treeEntries_some rfl).trans smallVolume_dir
  rw [resolve, hwords, walk_append, smallVolume_walk, Option.bind_some, walk_cons, nextFound,
    if_pos rfl, hdir]
  decide

theorem smallVolume_empty : EmptyDir (treeEntries smallVolumeFs.disk smallVolumeDirs) 2 := by
  have hdir : treeEntries smallVolumeFs.disk smallVolumeDirs 2
      = [(shortEntry dot 2 2).entry, (shortEntry dotDot 0 2).entry] :=
    (treeEntries_some rfl).trans smallVolume_dir
  rw [EmptyDir, hdir]
  decide

/-- Removing "/d" by its own name is in order. -/
theorem smallVolume_rmdirOk : RmdirOk smallVolumeFs smallVolumeDirs [47, 100] := by
  intro f gone hf hgone _
  refine ⟨by decide, fun old k i hdir _ hlingers => ?_⟩
  obtain rfl := Option.some.inj (hf.1.symm.trans smallVolume_walk)
  exact absurd hlingers.closed (by decide)

/-- Removing it through its "." is not. -/
theorem smallVolume_not_rmdirOk : ¬ RmdirOk smallVolumeFs smallVolumeDirs [47, 100, 47, 46] :=
  fun h => (h ⟨2, .directory, 2⟩ _ ⟨smallVolume_resolve_dot, rfl, smallVolume_empty⟩ rfl
    (.inl (by decide))).1 (by decide)

theorem smallVolume_resolve_ne {f : Found}
    (h : resolve (treeEntries smallVolumeFs.disk smallVolumeDirs) [47, 100] = some f) :
    f.iNo ≠ 0 := by
  obtain rfl := Option.some.inj (h.symm.trans smallVolume_walk)
  decide

theorem smallVolume_resolve_dot_ne {f : Found}
    (h : resolve (treeEntries smallVolumeFs.disk smallVolumeDirs) [47, 100, 47, 46] = some f) :
    f.iNo ≠ 0 := by
  obtain rfl := Option.some.inj (h.symm.trans smallVolume_resolve_dot)
  decide

end Fs
end JackOS
