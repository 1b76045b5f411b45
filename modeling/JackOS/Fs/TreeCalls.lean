/-
  JackOS.Fs.TreeCalls

  Runs of the calls on names, `sys_mkdir` among them, in a kernel that has
  memory.  They follow the tree of names (`treeCalls_refine`): a call that is
  refused is refused for a reason that the tree shows, and a path is lost only by
  a call that takes something away.
-/

import JackOS.Fs.MakeCalls
import JackOS.Fs.NameCalls

namespace JackOS
namespace Fs

open Base

/-! ## The tree of names -/

/-- Calls on names, and `sys_mkdir`. -/
inductive TreeCall where
  | mkdir (path : List UInt8)
  | name (call : NameCall)

/-- Why the tree refuses a call.  Of a file it does not say whether it is open. -/
def TreeCall.Refused (tree : Nat → List Entry) : TreeCall → Prop
  | .mkdir path => ∀ g name, ¬ LeadsToNew tree path g name
  | .name (.unlink _) => True
  | .name (.rmdir path) => ∀ f, ¬ LeadsToEmpty tree path f
  | .name (.chdir path) =>
      ∀ f, reach tree rootFound (words slash path) = some f → f.fType ≠ .directory
  | .name (.stat path) => reach tree rootFound (words slash path) = none

/-- What a call that returned `r` did to the tree. -/
inductive TreeStep (tree tree' : Nat → List Entry) : TreeCall → Int → Prop
  | refused {call : TreeCall} (hsame : tree' = tree) (hwhy : call.Refused tree) :
      TreeStep tree tree' call (-1)
  | made {path : List UInt8} {g : Found} {e : Entry} {isDir : Nat → Prop} {parent : Nat → Nat}
      (hnames : NameTree tree isDir parent) (hnew : LeadsToNew tree path g e.name)
      (hentry : NewEntry tree isDir g.iNo e) (hdir : e.fType = FileType.directory.toWord)
      (hgains : Gains tree tree' g.iNo e) : TreeStep tree tree' (.mkdir path) 0
  | done {call : NameCall} (hstep : NameStep tree tree' call 0) :
      TreeStep tree tree' (.name call) 0

/-- The tree of names as a system; a step is a call with what it returned. -/
def treeSystem : System (Nat → List Entry) (TreeCall × Int) where
  init tree := ∃ isDir parent, NameTree tree isDir parent
  next tree step tree' := TreeStep tree tree' step.1 step.2

/-- The call takes something away, if it returns 0. -/
def TreeCall.Removes : TreeCall → Prop
  | .name (.unlink _) => True
  | .name (.rmdir _) => True
  | _ => False

variable {s s' t : FsState} {dirs files : Nat → Option Inode} {parent refs : Nat → Nat}
  {path : List UInt8} {tree tree' : Nat → List Entry}

/-- Without a removal every path leads where it led. -/
theorem TreeStep.reach {call : TreeCall} {r : Int} (h : TreeStep tree tree' call r)
    (hkeeps : call.Removes → r ≠ 0) {names : List (List UInt8)} {f : Found}
    (hf : Fs.reach tree rootFound names = some f) : Fs.reach tree' rootFound names = some f := by
  cases h with
  | refused hsame =>
      rw [hsame]
      exact hf
  | made hnames _ hentry _ hgains => exact hgains.reach hentry hnames hf
  | done hstep =>
      cases hstep with
      | unlinked => exact absurd rfl (hkeeps trivial)
      | removed => exact absurd rfl (hkeeps trivial)
      | entered _ _ hsame =>
          rw [hsame]
          exact hf
      | found _ hsame =>
          rw [hsame]
          exact hf

theorem treeSystem_run_reach {trace : List (TreeCall × Int)}
    (hrun : treeSystem.Run tree trace tree')
    (hkeeps : ∀ step ∈ trace, step.1.Removes → step.2 ≠ 0) {names : List (List UInt8)}
    {f : Found} (hf : reach tree rootFound names = some f) :
    reach tree' rootFound names = some f := by
  induction hrun with
  | nil => exact hf
  | cons hstep _ ih =>
      refine ih (fun step hmem => hkeeps step (List.mem_cons_of_mem _ hmem)) ?_
      exact TreeStep.reach hstep (hkeeps _ List.mem_cons_self) hf

/-! ## The code -/

def TreeCall.run (s : FsState) : TreeCall → Outcome (Int × FsState)
  | .mkdir path => sysMkdir s path
  | .name call => call.run s

/-- The call's path is a good one, and what the call does works there. -/
def TreeCall.Ok (s : FsState) (dirs : Nat → Option Inode) : TreeCall → Prop
  | .mkdir path => PathOk path ∧ ∀ g name, LeadsToNew (treeEntries s.disk dirs) path g name →
      ∃ n, MkdirOk s dirs g.iNo n
  | .name call => call.Ok s dirs

/-- The calls on names, with memory, where they work. -/
def fsTrees (refs : Nat → Nat) : System FsState (TreeCall × Int) where
  init s := ∃ dirs files parent, Volume s dirs files parent refs
  next s step s' := HeapServes s
    ∧ (∀ dirs files parent, Volume s dirs files parent refs → step.1.Ok s dirs)
    ∧ step.1.run s = .ok (step.2, s')

/-- The partition in `s` has the tree of names `tree`. -/
def HasTree (refs : Nat → Nat) (s : FsState) (tree : Nat → List Entry) : Prop :=
  ∃ dirs files parent, Volume s dirs files parent refs ∧ tree = treeEntries s.disk dirs

/-- A call on names that is refused. -/
theorem NameCall.refused {call : NameCall} (hv : Volume s dirs files parent refs)
    (hheap : HeapServes s) (hok : call.Ok s dirs) (hcall : call.run s = .ok (-1, s')) :
    TreeCall.Refused (treeEntries s.disk dirs) (.name call) := by
  cases call with
  | unlink path => exact trivial
  | rmdir path =>
      rcases (sysRmdir_meets hv hok.path fun f hf => hok.removal f hf.1 hf.2).post _ hcall with
        ⟨-, -, hnot⟩ | ⟨hr, -⟩
      · exact fun f hf => hnot hheap ⟨f, hf⟩
      · cases hr
  | chdir path =>
      rcases (sysChdir_meets hv hok.path).post _ hcall with ⟨-, -, hnot⟩ | ⟨hr, -⟩
      · exact hnot
      · cases hr
  | stat path =>
      obtain ⟨⟨r', buf', t⟩, hstat, heq⟩ := Outcome.bind_eq_ok.1 hcall
      cases heq
      obtain ⟨-, ⟨-, hnone⟩ | ⟨hr, -⟩⟩ := sysStat_found hv hok.path hstat
      · exact hnone
      · cases hr

/-- Every call follows the tree of names. -/
theorem fsTrees_simulates : System.Simulates (fsTrees refs) treeSystem (HasTree refs) := by
  rintro s ⟨call, r⟩ s' _ ⟨dirs, files, parent, hv, rfl⟩ ⟨hheap, hok, hcall⟩
  cases call with
  | mkdir path =>
      obtain ⟨hpath, hroom⟩ := hok dirs files parent hv
      rcases (sysMkdir_meets hv hpath hroom).post _ hcall with
        ⟨hr, ⟨hv', hdisk⟩, hnot⟩ | ⟨hr, g, name, n, hnew, hputs⟩
      · dsimp only at hr
        subst hr
        have hwhy : TreeCall.Refused (treeEntries s.disk dirs) (.mkdir path) :=
          fun g name hnew => hnot hheap ⟨g, name, hnew⟩
        exact ⟨_, .refused rfl hwhy, dirs, files, parent, hv', by rw [hdisk]⟩
      · dsimp only at hr
        subst hr
        obtain ⟨-, dirs', files', parent', hv', hentry, hgains⟩ := hputs
        have hname : (dotEntry name n).entry.name = name := shortEntry_name (hnew.isName hpath) n _
        refine ⟨_, .made hv.names ?_ hentry rfl hgains, dirs', files', parent', hv', rfl⟩
        rw [hname]
        exact hnew
  | name call =>
      -- these follow their own tree of names; it remains to say why one is refused
      have hnames : (fsNames parent refs).next s (call, r) s' :=
        ⟨fun dirs files hv => hok dirs files parent hv, hcall⟩
      obtain ⟨tree', hstep, dirs', files', hv', rfl⟩ :=
        fsNames_simulates s (call, r) s' _ ⟨dirs, files, hv, rfl⟩ hnames
      refine ⟨_, ?_, dirs', files', parent, hv', rfl⟩
      by_cases hr : r = 0
      · subst hr
        exact .done hstep
      · have hrefused : r = -1 ∧ treeEntries s'.disk dirs' = treeEntries s.disk dirs := by
          cases hstep with
          | refused hsame => exact ⟨rfl, hsame⟩
          | _ => exact absurd rfl hr
        obtain ⟨rfl, hsame⟩ := hrefused
        exact .refused hsame (NameCall.refused hv hheap (hok dirs files parent hv) hcall)

/-- For every partition and every run of `sys_mkdir` and the calls on names, in a
    kernel with memory and where the calls work: the tree of names follows the
    run, call by call with what it returned; the partition stays whole; and if no
    call took something away, every path leads where it led before the run. -/
theorem treeCalls_refine {trace : List (TreeCall × Int)} (hv : Volume s dirs files parent refs)
    (hrun : (fsTrees refs).Run s trace s') :
    ∃ dirs' files' parent', Volume s' dirs' files' parent' refs
      ∧ treeSystem.Run (treeEntries s.disk dirs) trace (treeEntries s'.disk dirs')
      ∧ ((∀ step ∈ trace, step.1.Removes → step.2 ≠ 0) → ∀ names f,
        reach (treeEntries s.disk dirs) rootFound names = some f →
          reach (treeEntries s'.disk dirs') rootFound names = some f) := by
  obtain ⟨tree', habs, dirs', files', parent', hv', rfl⟩ :=
    fsTrees_simulates.run ⟨dirs, files, parent, hv, rfl⟩ hrun
  exact ⟨dirs', files', parent', hv', habs,
    fun hkeeps _ _ hf => treeSystem_run_reach habs hkeeps hf⟩

/-- "/e" is made. -/
theorem treeCalls_refine_smallVolume :
    ∃ r s', (fsTrees smallTreeRefs).Run smallVolumeFs [(.mkdir [47, 101], r)] s'
      ∧ ∃ dirs' files' parent', Volume s' dirs' files' parent' smallTreeRefs
        ∧ treeSystem.Run (treeEntries smallVolumeFs.disk smallVolumeDirs)
            [(.mkdir [47, 101], r)] (treeEntries s'.disk dirs')
        ∧ ((∀ step ∈ [(TreeCall.mkdir [47, 101], r)], step.1.Removes → step.2 ≠ 0) → ∀ names f,
          reach (treeEntries smallVolumeFs.disk smallVolumeDirs) rootFound names = some f →
            reach (treeEntries s'.disk dirs') rootFound names = some f) := by
  have hpath : PathOk [47, 101] := ⟨rfl, by decide, by decide, by decide⟩
  have hok : ∀ dirs files parent, Volume smallVolumeFs dirs files parent smallTreeRefs →
      TreeCall.Ok smallVolumeFs dirs (.mkdir [47, 101]) := fun dirs files parent hv =>
    ⟨hpath, fun g name hnew => ⟨3, smallVolume_mkdirOk hv hnew⟩⟩
  obtain ⟨⟨r, s'⟩, hcall, -⟩ := (sysMkdir_meets smallVolume hpath
    (hok _ _ _ smallVolume).2).exists ⟨fun _ _ => rfl, .inr (by decide), by decide⟩
  have hrun : (fsTrees smallTreeRefs).Run smallVolumeFs [(.mkdir [47, 101], r)] s' :=
    .cons ⟨fun _ _ => rfl, hok, hcall⟩ (.nil s')
  exact ⟨r, s', hrun, treeCalls_refine smallVolume hrun⟩

end Fs
end JackOS
