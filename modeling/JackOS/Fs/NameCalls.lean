/-
  JackOS.Fs.NameCalls

  Runs of the calls that look names up and take them away.  They follow the tree
  of names (`nameCalls_refine`): each call finds what the path leads to in the
  tree as the calls before it left it, and the tree stays whole.
-/

import JackOS.Base.Simulation
import JackOS.Fs.RemoveCalls

namespace JackOS
namespace Fs

open Base

/-! ## The tree of names -/

/-- Calls on names. -/
inductive NameCall where
  | unlink (path : List UInt8)
  | rmdir (path : List UInt8)
  | chdir (path : List UInt8)
  | stat (path : List UInt8)

/-- What a call that returned `r` did to the tree. -/
inductive NameStep (tree tree' : Nat → List Entry) : NameCall → Int → Prop
  | refused {call : NameCall} (hsame : tree' = tree) : NameStep tree tree' call (-1)
  | unlinked {path : List UInt8} {f : Found}
      (hpath : reach tree rootFound (words slash path) = some f) (hfile : f.fType = .regular)
      (hloses : Loses tree tree' f.parent f.iNo) : NameStep tree tree' (.unlink path) 0
  | removed {path : List UInt8} {f : Found}
      (hpath : reach tree rootFound (words slash path) = some f) (hdir : f.fType = .directory)
      (hempty : EmptyDir tree f.iNo) (hloses : Loses tree tree' f.parent f.iNo) :
      NameStep tree tree' (.rmdir path) 0
  | entered {path : List UInt8} {f : Found}
      (hpath : reach tree rootFound (words slash path) = some f) (hdir : f.fType = .directory)
      (hsame : tree' = tree) : NameStep tree tree' (.chdir path) 0
  | found {path : List UInt8} {f : Found}
      (hpath : reach tree rootFound (words slash path) = some f) (hsame : tree' = tree) :
      NameStep tree tree' (.stat path) 0

/-- The tree of names as a system; a step is a call with what it returned. -/
def nameSystem (parent : Nat → Nat) : System (Nat → List Entry) (NameCall × Int) where
  init tree := ∃ isDir, NameTree tree isDir parent
  next tree step tree' := NameStep tree tree' step.1 step.2

/-! ## The code -/

def NameCall.path : NameCall → List UInt8
  | .unlink path => path
  | .rmdir path => path
  | .chdir path => path
  | .stat path => path

/-- The call; the buffer of `sys_stat` is left out. -/
def NameCall.run (s : FsState) : NameCall → Outcome (Int × FsState)
  | .unlink path => sysUnlink s path
  | .rmdir path => sysRmdir s path
  | .chdir path => sysChdir s path
  | .stat path => do
      let (r, _, s) ← sysStat s path ⟨0, 0, .unknow⟩
      .ok (r, s)

/-- Whether the call takes what `f` is away. -/
def NameCall.Takes (tree : Nat → List Entry) (f : Found) : NameCall → Prop
  | .unlink _ => f.fType = .regular
  | .rmdir _ => f.fType = .directory ∧ EmptyDir tree f.iNo
  | .chdir _ => False
  | .stat _ => False

/-- The call's path is a good one, and if it takes something away, removing works
    there. -/
structure NameCall.Ok (s : FsState) (dirs : Nat → Option Inode) (call : NameCall) : Prop where
  path : PathOk call.path
  removal : ∀ f, reach (treeEntries s.disk dirs) rootFound (words slash call.path) = some f →
    call.Takes (treeEntries s.disk dirs) f → RemoveOk s dirs f

/-- The calls on names, where removing works. -/
def fsNames (parent refs : Nat → Nat) : System FsState (NameCall × Int) where
  init s := ∃ dirs files, Volume s dirs files parent refs
  next s step s' := (∀ dirs files, Volume s dirs files parent refs → step.1.Ok s dirs)
    ∧ step.1.run s = .ok (step.2, s')

variable {s s' t : FsState} {dirs files : Nat → Option Inode} {parent refs : Nat → Nat}
  {path : List UInt8} {tree tree' : Nat → List Entry}

/-- The partition in `s` has the tree of names `tree`. -/
def HasNames (parent refs : Nat → Nat) (s : FsState) (tree : Nat → List Entry) : Prop :=
  ∃ dirs files, Volume s dirs files parent refs ∧ tree = treeEntries s.disk dirs

theorem Intact.hasNames (h : Intact s s' dirs files parent refs) :
    HasNames parent refs s' (treeEntries s.disk dirs) :=
  ⟨dirs, files, h.1, by rw [h.2]⟩

/-! ## Calls that only look -/

theorem Volume.setTask (h : Volume s dirs files parent refs) (task : Task) :
    Volume (s.setTask task) dirs files parent refs where
  tree := h.tree.setTask task
  names := h.names
  file := h.file
  fileNo := h.fileNo
  fileNode := h.fileNode
  fileLoads := h.fileLoads
  area m ino hm hm0 j hj := (h.area m ino hm hm0 j hj).congr rfl rfl
  apart := h.apart
  blockMap := h.blockMap
  inodeBit := h.inodeBit
  used := h.used
  free := h.free

/-- What `sys_chdir` does: it refuses, or makes the directory that the path leads
    to the working directory. -/
def Chdirs (s : FsState) (dirs : Nat → Option Inode) (refs : Nat → Nat) (path : List UInt8)
    (r : Int × FsState) : Prop :=
  r.1 = -1 ∧ Climbing s r.2 dirs refs
      ∧ (∀ f, reach (treeEntries s.disk dirs) rootFound (words slash path) = some f →
        f.fType ≠ .directory)
    ∨ r.1 = 0 ∧ ∃ f, reach (treeEntries s.disk dirs) rootFound (words slash path) = some f
      ∧ f.fType = .directory
      ∧ Climbing (s.setTask { s.task with cwdInodeNo := f.iNo }) r.2 dirs refs

theorem sysChdir_meets (hv : Volume s dirs files parent refs) (hpath : PathOk path) :
    Outcome.Meets (HeapServes s ∧ (path = [slash] ∨ words slash path ≠ [])) (sysChdir s path)
      (Chdirs s dirs refs path) := by
  rw [sysChdir]
  refine searchFile_bind hv hpath id fun r _ hreached => ?_
  obtain ⟨no, record, t⟩ := r
  have hrefuse : (∀ f, reach (treeEntries s.disk dirs) rootFound (words slash path) = some f →
      f.fType ≠ .directory) →
      Outcome.Meets (HeapServes s ∧ (path = [slash] ∨ words slash path ≠ [])) (refuse t record)
        (Chdirs s dirs refs path) := by
    intro hnone
    obtain ⟨m, hstands, -⟩ := hreached.stands
    apply (hstands.dirClose.weaken And.left).bind
    rintro t' ⟨hsees, hcounts⟩
    exact Outcome.meets_ok (.inl ⟨rfl, ⟨hsees, hcounts⟩, hnone⟩)
  dsimp only
  cases hno : no with
  | none =>
      apply hrefuse
      intro f hf
      rw [Option.map_eq_none_iff.1 (hreached.iNo.symm.trans hno)] at hf
      cases hf
  | some n =>
      obtain ⟨f, hf, rfl, htype, hstands⟩ := hreached.found hno
      dsimp only
      by_cases hdir : record.fileType = .directory
      · rw [if_pos hdir, hstands.sees.looks.task]
        -- the process changes before the directory is closed
        have hstands' : Stands (s.setTask { s.task with cwdInodeNo := f.iNo })
            (t.setTask { s.task with cwdInodeNo := f.iNo }) dirs refs record.parentDir f.parent := by
          refine ⟨⟨hstands.opened, hstands.iNo⟩, ⟨hstands.sees.looks.setTask _,
            hstands.sees.mallocCnt, hstands.sees.distinct, hstands.sees.node⟩,
            hstands.counts.setTask _, fun block hblock => ?_⟩
          rw [hstands.own block hblock, FsState.setTask_task]
        apply (hstands'.dirClose.weaken And.left).bind
        rintro t' ⟨hsees, hcounts⟩
        exact Outcome.meets_ok (.inr ⟨rfl, f, hf, htype ▸ hdir, hsees, hcounts⟩)
      · rw [if_neg hdir]
        apply hrefuse
        intro f' hf'
        obtain rfl := Option.some.inj (hf.symm.trans hf')
        rwa [htype] at hdir

/-- Opening any object of the partition. -/
theorem Volume.inodeOpen {held : Nat → Nat} {n p : Nat} {t' : FsState} {ino : Inode}
    (hv : Volume s dirs files parent refs) (hsees : Sees s t (objects dirs files))
    (hcounts : RefCounts t held) (hle : ∀ r, refs r ≤ held r)
    (hn : objects dirs files n = some ino) (hcall : inodeOpen t n = .ok (p, t')) :
    Sees s t' (objects dirs files) := by
  refine (hsees.inodeOpen_of_load hcounts (fun hnone k ino' hload => ?_) hcall).1
  have hclosed := hsees.of_objects.closed hv.tree hcounts hle hnone
  have hloads : LoadsAs s n ino := by
    rcases objects_cases hn with hdir | ⟨-, hfile⟩
    · exact hv.tree.loadsAs n ino hdir hclosed
    · exact hv.fileLoads n ino hfile hclosed
  rw [hsees.looks.same] at hload
  have hrec := hloads k ino' hload
  refine ⟨hrec.iNo.trans (hv.object hn).1, fun ino₁ hino₁ => ?_⟩
  rw [hn] at hino₁
  cases hino₁
  exact hrec

/-- What a path leads to is an object of the partition. -/
theorem Volume.reach_object (hv : Volume s dirs files parent refs) {f : Found}
    {names : List (List UInt8)} (hf : reach (treeEntries s.disk dirs) rootFound names = some f) :
    ∃ ino, objects dirs files f.iNo = some ino := by
  rcases reach_entry hf with rfl | ⟨e, he, hfound⟩
  · obtain ⟨ino, hino⟩ := dirs_some hv.tree.root
    exact ⟨ino, objects_dir hino⟩
  · have hno : f.iNo = e.iNo := by
      rw [← hfound]
      rfl
    rw [hno]
    exact Option.ne_none_iff_exists'.1 (hv.entry_object he)

/-- `sys_stat` of what the path leads to. -/
theorem sysStat_found {buf buf' : Stat} {r : Int} (hv : Volume s dirs files parent refs)
    (hpath : PathOk path) (hcall : sysStat s path buf = .ok (r, buf', s')) :
    Intact s s' dirs files parent refs
      ∧ (r = -1 ∧ reach (treeEntries s.disk dirs) rootFound (words slash path) = none
        ∨ r = 0 ∧ ∃ f, reach (treeEntries s.disk dirs) rootFound (words slash path) = some f) := by
  have hcounts := (sysStat_within hv.tree.counts (hv.tree.room.mono (by decide)) hcall).counts
  obtain ⟨⟨no, record, t⟩, hsearch, hcall⟩ := Outcome.bind_eq_ok.1 hcall
  have hnames : path = [slash] ∨ words slash path ≠ [] := by
    by_contra hno
    obtain ⟨hslash, hnil⟩ := not_or.1 hno
    exact searchFile_slashes hpath hslash (not_not.1 hnil) hsearch
  have hreached := (searchFile_meets hv.tree hpath hnames).post _ hsearch
  dsimp only at hcall
  cases hno : no with
  | none =>
      rw [hno] at hcall
      obtain ⟨t', hclose, hcall⟩ := Outcome.bind_eq_ok.1 hcall
      cases hcall
      obtain ⟨m, hstands, -⟩ := hreached.stands
      have hnone := Option.map_eq_none_iff.1 (hreached.iNo.symm.trans hno)
      exact ⟨hv.intact (hstands.sees.dirClose hclose) hcounts, .inl ⟨rfl, hnone⟩⟩
  | some n =>
      obtain ⟨f, hf, rfl, -, hstands⟩ := hreached.found hno
      rw [hno] at hcall
      obtain ⟨⟨p, t₁⟩, hopen, hcall⟩ := Outcome.bind_eq_ok.1 hcall
      obtain ⟨t', hclose, hcall⟩ := Outcome.bind_eq_ok.1 hcall
      cases hcall
      obtain ⟨ino, hino⟩ := hv.reach_object hf
      have hinside := hv.inside hstands (hv.reach_parent hf)
      have hsees := hv.inodeOpen hinside.sees hinside.counts (le_dirHeld refs _) hino hopen
      exact ⟨hv.intact ((hsees.inodeClose p).of_objects.dirClose hclose) hcounts,
        .inr ⟨rfl, f, hf⟩⟩

/-! ## Runs -/

/-- Every call follows the tree of names. -/
theorem fsNames_simulates : System.Simulates (fsNames parent refs) (nameSystem parent)
    (HasNames parent refs) := by
  rintro s ⟨call, r⟩ s' _ ⟨dirs, files, hv, rfl⟩ ⟨hok, hcall⟩
  have hok := hok dirs files hv
  cases call with
  | unlink path =>
      rcases (sysUnlink_meets hv hok.path fun f hf hfile => hok.removal f hf hfile).post _ hcall with
        ⟨hr, hintact⟩ | ⟨hr, f, hf, hfile, dirs', files', hv', hloses⟩
      · dsimp only at hr
        subst hr
        exact ⟨_, .refused rfl, hintact.hasNames⟩
      · dsimp only at hr
        subst hr
        exact ⟨_, .unlinked hf hfile hloses, dirs', files', hv', rfl⟩
  | rmdir path =>
      rcases (sysRmdir_meets hv hok.path fun f hf => hok.removal f hf.1 hf.2).post _ hcall with
        ⟨hr, hintact, -⟩ | ⟨hr, f, ⟨hf, hdir, hempty⟩, dirs', files', hv', hloses⟩
      · dsimp only at hr
        subst hr
        exact ⟨_, .refused rfl, hintact.hasNames⟩
      · dsimp only at hr
        subst hr
        exact ⟨_, .removed hf hdir hempty hloses, dirs', files', hv', rfl⟩
  | chdir path =>
      rcases (sysChdir_meets hv hok.path).post _ hcall with
        ⟨hr, hclimb, -⟩ | ⟨hr, f, hf, hdir, hclimb⟩
      · dsimp only at hr
        subst hr
        exact ⟨_, .refused rfl, (hv.intact hclimb.sees hclimb.counts).hasNames⟩
      · dsimp only at hr
        subst hr
        have hintact : Intact s s' dirs files parent refs :=
          (hv.setTask _).intact hclimb.sees hclimb.counts
        exact ⟨_, .entered hf hdir rfl, hintact.hasNames⟩
  | stat path =>
      obtain ⟨⟨r', buf', t⟩, hstat, heq⟩ := Outcome.bind_eq_ok.1 hcall
      cases heq
      obtain ⟨hintact, ⟨rfl, -⟩ | ⟨rfl, f, hf⟩⟩ := sysStat_found hv hok.path hstat
      · exact ⟨_, .refused rfl, hintact.hasNames⟩
      · exact ⟨_, .found hf rfl, hintact.hasNames⟩

/-- For every partition and every run of calls on names in which removing works:
    the tree of names follows the run, call by call with what it returned, and
    afterwards the partition is whole, its tree is the one the run led to, and
    in that tree no path leads to anything that is not there. -/
theorem nameCalls_refine {trace : List (NameCall × Int)} (hv : Volume s dirs files parent refs)
    (hrun : (fsNames parent refs).Run s trace s') :
    ∃ dirs' files', Volume s' dirs' files' parent refs
      ∧ (nameSystem parent).Run (treeEntries s.disk dirs) trace (treeEntries s'.disk dirs')
      ∧ ∀ names f, reach (treeEntries s'.disk dirs') rootFound names = some f →
        ∃ ino, objects dirs' files' f.iNo = some ino := by
  obtain ⟨tree', habs, dirs', files', hv', rfl⟩ :=
    fsNames_simulates.run ⟨dirs, files, hv, rfl⟩ hrun
  exact ⟨dirs', files', hv', habs, fun _ _ hf => hv'.reach_object hf⟩

theorem nameCalls_refine_smallVolume :
    ∃ r s', (fsNames (fun _ => 0) smallTreeRefs).Run smallVolumeFs [(.rmdir [47, 100], r)] s'
      ∧ ∃ dirs' files', Volume s' dirs' files' (fun _ => 0) smallTreeRefs
        ∧ (nameSystem fun _ => 0).Run (treeEntries smallVolumeFs.disk smallVolumeDirs)
            [(.rmdir [47, 100], r)] (treeEntries s'.disk dirs')
        ∧ ∀ names f, reach (treeEntries s'.disk dirs') rootFound names = some f →
          ∃ ino, objects dirs' files' f.iNo = some ino := by
  have hok : ∀ dirs files, Volume smallVolumeFs dirs files (fun _ => 0) smallTreeRefs →
      NameCall.Ok smallVolumeFs dirs (.rmdir [47, 100]) := fun dirs files hv =>
    ⟨⟨rfl, by decide, by decide, by decide⟩, fun f hf _ => smallVolume_removeOk hv hf⟩
  obtain ⟨⟨r, s'⟩, hcall, -⟩ := (sysRmdir_meets smallVolume (hok _ _ smallVolume).path
    fun f hf => (hok _ _ smallVolume).removal f hf.1 hf.2).exists
    ⟨fun _ _ => rfl, smallVolume_notRoot, smallVolume_oneBlock, by decide⟩
  have hrun : (fsNames (fun _ => 0) smallTreeRefs).Run smallVolumeFs [(.rmdir [47, 100], r)] s' :=
    .cons ⟨hok, hcall⟩ (.nil s')
  exact ⟨r, s', hrun, nameCalls_refine smallVolume hrun⟩

end Fs
end JackOS
