/-
  JackOS.Shell.MkdirCmd

  The builtin `mkdir` of shell/builtin_cmd.c, on a partition where making a
  directory works.  It makes what the normal form of the path names, and then `cd`
  finds it there: the normal form is the path of the new directory
  (`mkdir_exact`).
-/

import JackOS.Fs.TreeCalls
import JackOS.Shell.BuiltinCmd

namespace JackOS
namespace Shell

open Base Fs

variable {s s' t : FsState} {dirs files : Nat → Option Inode} {parent refs : Nat → Nat}
  {stack names : List (List UInt8)} {path name : List UInt8} {arg finalPath : Buf}
  {tree tree' : Nat → List Entry} {isDir : Nat → Prop} {d p : Nat} {e : Entry}

/-- What the builtin `mkdir` makes: the last name of the normal form, in the
    directory `d` that the names before it lead to. -/
def MkdirMakes (tree : Nat → List Entry) (names : List (List UInt8)) (d : Nat)
    (name : List UInt8) : Prop :=
  ∃ front, names = front ++ [name] ∧ CanonicalPath tree front d ∧ lookup (tree d) name = none

/-- That is what `sys_mkdir` makes when it gets the normal form. -/
theorem mkdirMakes_iff (hnames : NameTree tree isDir parent)
    (hplain : ∀ v ∈ names, IsPlainName v) :
    MkdirMakes tree names d name ↔ ∃ g, LeadsToNew tree (stackPath names) g name ∧ g.iNo = d := by
  have hwords := words_stackPath hplain
  constructor
  · rintro ⟨front, hsplit, hcanonical, hmissing⟩
    obtain ⟨g, hwalk, rfl, hdir⟩ := hcanonical.walk hnames.shape
    exact ⟨g, ⟨front, hwords.trans hsplit, reach_of_walk rfl hwalk, hdir, hmissing⟩, rfl⟩
  · rintro ⟨g, ⟨front, hmiss⟩, rfl⟩
    have hsplit := hwords.symm.trans hmiss.split
    have hfront : ∀ v ∈ front, IsPlainName v := fun v hv =>
      hplain v (hsplit ▸ List.mem_append_left _ hv)
    have hwalk := walk_of_reach rfl hmiss.leads hmiss.directory
    exact ⟨front, hsplit, canonicalPath_of_walk hnames hfront hwalk hmiss.directory, hmiss.missing⟩

/-- A directory keeps its path where the tree gains an entry. -/
theorem canonicalPath_gains {isDir' : Nat → Prop} {parent' : Nat → Nat}
    (hnames : NameTree tree isDir parent) (hnames' : NameTree tree' isDir' parent')
    (hentry : NewEntry tree isDir p e) (hgains : Gains tree tree' p e)
    (h : CanonicalPath tree stack d) : CanonicalPath tree' stack d := by
  have hplain := canonicalPath_plain hnames.shape h
  obtain ⟨g, hwalk, rfl, hdir⟩ := h.walk hnames.shape
  have hreach := hgains.reach hentry hnames (reach_of_walk rfl hwalk)
  exact canonicalPath_of_walk hnames' hplain (walk_of_reach rfl hreach hdir) hdir

/-- The new directory has the path it was made by. -/
theorem MkdirMakes.gains {isDir' : Nat → Prop} {parent' : Nat → Nat}
    (hnames : NameTree tree isDir parent) (hnames' : NameTree tree' isDir' parent')
    (hplain : ∀ v ∈ names, IsPlainName v) (hentry : NewEntry tree isDir d e)
    (hgains : Gains tree tree' d e) (hdir : (e.found d).fType = .directory)
    (h : MkdirMakes tree names d e.name) : CanonicalPath tree' names e.iNo := by
  obtain ⟨front, rfl, hcanonical, -⟩ := h
  obtain ⟨g, hwalk, hno, hfront⟩ := hcanonical.walk hnames.shape
  have hreach := hgains.reach_new hentry hnames (reach_of_walk rfl hwalk) hfront hno
  exact canonicalPath_of_walk hnames' hplain (walk_of_reach rfl hreach hdir) hdir

/-- For every path whose names are short and whose normal form can be printed, in a
    partition where making a directory works: the builtin `mkdir` comes back.  It returns 0 exactly if the names of
    the normal form lead to a directory, but for the last one, which is new there.
    Then the normal form is the path of a new directory, and the working directory
    has the path it had; otherwise the partition is as it was. -/
theorem mkdir_exact (cmd : Buf) (hv : Volume s dirs files parent refs)
    (hnames : NamesTree s dirs parent) (hheap : HeapServes s)
    (hcwd : CanonicalPath (treeEntries s.disk dirs) stack s.task.cwdInodeNo)
    (harg : ArgOk stack arg path) (hroom : maxPathLen ≤ finalPath.length)
    (hshort : Printable (stackPath (target stack path)))
    (hok : ∀ d name, MkdirMakes (treeEntries s.disk dirs) (target stack path) d name →
      ∃ n, MkdirOk s dirs d n) :
    ∃ r final s', builtinMkdir s [cmd, arg] finalPath = .ok (r, final, s')
      ∧ CString final (stackPath (target stack path)) ∧ (r = 0 ∨ r = -1)
      ∧ (r = 0 ↔ ∃ d name, MkdirMakes (treeEntries s.disk dirs) (target stack path) d name)
      ∧ (r = -1 → Volume s' dirs files parent refs ∧ s'.disk = s.disk)
      ∧ ∀ d name, MkdirMakes (treeEntries s.disk dirs) (target stack path) d name →
        ∃ dirs' files' parent' e, Volume s' dirs' files' parent' refs
          ∧ e.name = name ∧ Gains (treeEntries s.disk dirs) (treeEntries s'.disk dirs') d e
          ∧ CanonicalPath (treeEntries s'.disk dirs') (target stack path) e.iNo
          ∧ CanonicalPath (treeEntries s'.disk dirs') stack s'.task.cwdInodeNo := by
  have hshape := hv.names.shape
  obtain ⟨final, t, hclimb, hfinal, hcommand⟩ :=
    pathCommand_eq sysMkdir cmd hv hnames hheap hcwd harg hroom
  have hplain : ∀ v ∈ target stack path, IsPlainName v := target_plain hshape hcwd
  obtain ⟨hv', hdisk⟩ := hv.intact hclimb.sees hclimb.counts
  have hiff : ∀ d name, MkdirMakes (treeEntries s.disk dirs) (target stack path) d name
      ↔ ∃ g, LeadsToNew (treeEntries t.disk dirs) (stackPath (target stack path)) g name
        ∧ g.iNo = d := by
    rw [hdisk]
    exact fun d name => mkdirMakes_iff hv.names hplain
  rw [builtinMkdir, hcommand]
  by_cases hne : target stack path = []
  · -- "/" has no last name, and the kernel is not called
    rw [if_pos hne]
    have hnone : ∀ d name, ¬ MkdirMakes (treeEntries s.disk dirs) (target stack path) d name := by
      rintro d name ⟨front, hsplit, -⟩
      rw [hne] at hsplit
      exact List.append_ne_nil_of_right_ne_nil _ (List.cons_ne_nil _ _) hsplit.symm
    exact ⟨-1, final, t, rfl, hfinal, .inr rfl,
      iff_of_false (by decide) fun ⟨d, name, h⟩ => hnone d name h, fun _ => ⟨hv', hdisk⟩,
      fun d name h => absurd h (hnone d name)⟩
  · rw [if_neg hne]
    have hok' : ∀ g name, LeadsToNew (treeEntries t.disk dirs) (stackPath (target stack path)) g
        name → ∃ n, MkdirOk t dirs g.iNo n := by
      intro g name hnew
      obtain ⟨n, hok⟩ := hok g.iNo name ((hiff g.iNo name).2 ⟨g, hnew, rfl⟩)
      exact ⟨n, hok.sees hv hclimb.sees hclimb.counts⟩
    have hpath := pathOk_target hshape hcwd harg hfinal
    have hwords : words slash (stackPath (target stack path)) ≠ [] := by
      rwa [words_stackPath hplain]
    have hheap' := hclimb.sees.heapServes hheap
    obtain ⟨⟨r, s'⟩, hmkdir, hcase⟩ :=
      (sysMkdir_meets hv' hpath hok').exists ⟨hheap', .inr hwords, hshort⟩
    rw [hmkdir, Outcome.ok_bind]
    refine ⟨_, final, s', rfl, hfinal, ?_⟩
    rcases hcase with ⟨hr, ⟨hv'', hdisk'⟩, hnot⟩ | ⟨hr, g, name, n, hnew, hputs⟩
    · dsimp only at hr
      subst hr
      have hnone : ¬ ∃ d name, MkdirMakes (treeEntries s.disk dirs) (target stack path) d name := by
        rintro ⟨d, name, h⟩
        obtain ⟨g, hnew, -⟩ := (hiff d name).1 h
        exact hnot hheap' ⟨g, name, hnew⟩
      exact ⟨.inr rfl, iff_of_false (by simp) hnone, fun _ => ⟨hv'', hdisk'.trans hdisk⟩,
        fun d name h => absurd ⟨d, name, h⟩ hnone⟩
    · dsimp only at hr
      subst hr
      refine ⟨.inl rfl, iff_of_true rfl ⟨g.iNo, name, (hiff g.iNo name).2 ⟨g, hnew, rfl⟩⟩,
        fun h => absurd h (by simp), fun d' name' h => ?_⟩
      obtain ⟨g', hnew', rfl⟩ := (hiff d' name').1 h
      -- the kernel made the same name, in the same directory
      obtain ⟨front, hmiss⟩ := hnew
      obtain ⟨-, rfl, rfl⟩ := hmiss.last hnew'
      obtain ⟨htask, dirs', files', parent', hv'', hentry, hgains⟩ := hputs
      have hname : (dotEntry name' n).entry.name = name' :=
        shortEntry_name (hnew'.isName hpath) n _
      rw [hdisk] at hentry hgains
      refine ⟨dirs', files', parent', (dotEntry name' n).entry, hv'', hname, hgains,
        MkdirMakes.gains hv.names hv''.names hplain hentry hgains rfl (hname.symm ▸ h), ?_⟩
      rw [htask, hclimb.sees.looks.task]
      exact canonicalPath_gains hv.names hv''.names hentry hgains hcwd

/-- "./e" -/
theorem mkdir_exact_smallVolume :
    ∃ r final s', builtinMkdir smallVolumeFs [[109, 107, 100, 105, 114, 0], [46, 47, 101, 0]]
        (List.replicate maxPathLen 0) = .ok (r, final, s')
      ∧ CString final [47, 101] ∧ (r = 0 ∨ r = -1)
      ∧ (r = 0 ↔ ∃ d name,
        MkdirMakes (treeEntries smallVolumeFs.disk smallVolumeDirs) [[101]] d name) := by
  have harg : ArgOk [] [46, 47, 101, 0] [46, 47, 101] :=
    ⟨⟨[], rfl, by decide⟩, by decide, by decide⟩
  have hplain : ∀ v ∈ [[101]], IsPlainName v := by
    intro v hv
    obtain rfl := List.mem_singleton.1 hv
    exact ⟨by decide, by decide, by decide, by decide⟩
  obtain ⟨r, final, s', hcall, hfinal, hr, hzero, -⟩ := mkdir_exact [109, 107, 100, 105, 114, 0]
    smallVolume smallVolume_namesTree (fun _ _ => rfl) .root harg (List.length_replicate).ge
    (by decide) fun d name h => by
      obtain ⟨g, hnew, rfl⟩ := (mkdirMakes_iff smallVolume.names hplain).1 h
      exact ⟨3, smallVolume_mkdirOk smallVolume hnew⟩
  exact ⟨r, final, s', hcall, hfinal, hr, hzero⟩

end Shell
end JackOS
