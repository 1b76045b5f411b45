/-
  JackOS.Shell.BuiltinCmd

  The builtin commands of shell/builtin_cmd.c that take a path.  The shell puts the
  path of the working directory in front and normalises the string, where the
  kernel follows the entries "." and ".." on the disk.  On a partition the two
  agree (`foldl_pushName_leads`), so `cd` goes where the path leads
  (`cd_follows`), and `rmdir` takes the directory away that it leads to
  (`rmdir_exact`).
-/

import JackOS.Fs.NameCalls
import JackOS.Shell.WashPath
namespace JackOS
namespace Shell

open Base Fs

/-! ## The code -/

/-- `getcwd(abs_path, MAX_PATH_LEN)`, and a slash behind it unless it is "/".  The
    array is zero where nothing was written. -/
def absCwd (s : FsState) : Outcome (Buf × FsState) := do
  let (cwd, s) ← sysGetcwd s maxPathLen
  match cwd with
  | none => .ok (List.replicate maxPathLen 0, s)
  | some cwd => do
      let absPath : Buf := cwd ++ List.replicate (maxPathLen - cwd.length) 0
      let c₀ ← absPath.load 0
      let c₁ ← absPath.load 1
      if ¬ (c₀ = slash ∧ c₁ = 0) then do
        let absPath ← strcat absPath [slash, 0]
        .ok (absPath, s)
      else .ok (absPath, s)

/-- What the path is appended to. -/
def absFront (s : FsState) (path : Buf) : Outcome (Buf × FsState) := do
  let c ← path.load 0
  if c ≠ slash then absCwd s else .ok (List.replicate maxPathLen 0, s)

/-- `make_clear_abs_path` -/
def makeClearAbsPath (s : FsState) (path finalPath : Buf) : Outcome (Buf × FsState) := do
  let (absPath, s) ← absFront s path
  let absPath ← strcat absPath path
  let finalPath ← washPath absPath finalPath
  .ok (finalPath, s)

/-- `chdir(final_path)` of `buildin_cd`; `false` is for NULL. -/
def cdTo (s : FsState) (finalPath : Buf) : Outcome (Bool × Buf × FsState) := do
  let path ← finalPath.string
  let (r, s) ← sysChdir s path
  .ok (r ≠ -1, finalPath, s)

/-- `buildin_cd` -/
def buildinCd (s : FsState) (argv : List Buf) (finalPath : Buf) :
    Outcome (Bool × Buf × FsState) :=
  match argv with
  | [] => .error .undefined
  | [_] => do
      let finalPath ← finalPath.store 0 slash
      let finalPath ← finalPath.store 1 0
      cdTo s finalPath
  | [_, arg] => do
      let (finalPath, s) ← makeClearAbsPath s arg finalPath
      cdTo s finalPath
  | _ => .ok (false, finalPath, s)

/-- `builtin_mkdir`, `builtin_rmdir` and `builtin_rm`: what the argument names goes
    to a system call, unless it is the root. -/
def pathCommand (call : FsState → List UInt8 → Outcome (Int × FsState)) (s : FsState)
    (argv : List Buf) (finalPath : Buf) : Outcome (Int × Buf × FsState) :=
  match argv with
  | [_, arg] => do
      let (finalPath, s) ← makeClearAbsPath s arg finalPath
      let c ← strcmp [slash, 0] finalPath
      if c ≠ 0 then do
        let path ← finalPath.string
        let (r, s) ← call s path
        .ok (if r = 0 then 0 else -1, finalPath, s)
      else .ok (-1, finalPath, s)
  | _ => .ok (-1, finalPath, s)

/-- `builtin_mkdir` -/
def builtinMkdir : FsState → List Buf → Buf → Outcome (Int × Buf × FsState) :=
  pathCommand sysMkdir

/-- `builtin_rmdir` -/
def builtinRmdir : FsState → List Buf → Buf → Outcome (Int × Buf × FsState) :=
  pathCommand sysRmdir

/-- `builtin_rm` -/
def builtinRm : FsState → List Buf → Buf → Outcome (Int × Buf × FsState) :=
  pathCommand sysUnlink

variable {s t : FsState} {dirs files : Nat → Option Inode} {parent refs : Nat → Nat}
  {stack : List (List UInt8)} {path : List UInt8} {b arg finalPath : Buf}

/-! ## The absolute path -/

/-- The normal form of a path; `stack` is that of the working directory. -/
def target (stack : List (List UInt8)) (path : List UInt8) : List (List UInt8) :=
  (words slash path).foldl pushName (if path.head? = some slash then [] else stack)

theorem absolutePath_eq (stack : List (List UInt8)) : absolutePath stack = stackPath stack := by
  unfold absolutePath
  by_cases hnil : stack = []
  · rw [if_pos hnil, hnil, stackPath_nil]
  · rw [if_neg hnil, stackPath_of_ne_nil hnil]

theorem canonicalPath_plain {tree : Nat → List Entry} {d : Nat} (hshape : TreeShape tree parent)
    (h : CanonicalPath tree stack d) : ∀ v ∈ stack, IsPlainName v := by
  induction h with
  | root => exact fun _ hv => absurd hv List.not_mem_nil
  | child _ hmem _ hdot hdotDot ih =>
      intro v hv
      rcases List.mem_append.1 hv with hv | hv
      · exact ih v hv
      · rw [List.mem_singleton.1 hv]
        have hname := hshape.isName _ _ hmem
        exact ⟨hname.1.nonempty, hdot, hdotDot, hname.2⟩

/-- With a slash behind the working directory's path the names of both follow each
    other. -/
theorem absCwd_meets (htree : DirTree s dirs refs) (hnames : NamesTree s dirs parent)
    (hheap : HeapServes s)
    (hcwd : CanonicalPath (treeEntries s.disk dirs) stack s.task.cwdInodeNo)
    (h : Climbing s t dirs refs) (hlen : (joinAll slash stack).length + 1 < maxPathLen) :
    ∃ abs t', absCwd t = .ok (abs, t') ∧ Climbing s t' dirs refs ∧ abs.length = maxPathLen
      ∧ CString abs (joinAll slash stack ++ [slash]) := by
  have hplain := canonicalPath_plain hnames.shape hcwd
  have hwhole : (absolutePath stack).length < maxPathLen := by
    unfold absolutePath
    split
    · decide
    · omega
  obtain ⟨t', hcall, hclimb⟩ := sysGetcwd_climbing htree hnames hheap hcwd h (by omega) hwhole
  have hstr : CString (absolutePath stack
      ++ List.replicate (maxPathLen - (absolutePath stack).length) 0) (absolutePath stack) := by
    obtain ⟨n, hn⟩ : ∃ n, maxPathLen - (absolutePath stack).length = n + 1 :=
      ⟨maxPathLen - (absolutePath stack).length - 1, by omega⟩
    refine ⟨List.replicate n 0, by rw [hn]; rfl, ?_⟩
    exact (pathOk_absolutePath (hcwd.isName hnames.shape) hwhole).noNul
  rw [absCwd, hcall, Outcome.ok_bind]
  dsimp only
  cases stack with
  | nil =>
      refine ⟨_, t', rfl, hclimb, ?_, hstr⟩
      rw [List.length_append, List.length_replicate]
      rfl
  | cons w stack =>
      obtain ⟨c, w', hw⟩ := List.exists_cons_of_ne_nil (hplain w List.mem_cons_self).1
      have hne : absolutePath (w :: stack) = joinAll slash (w :: stack) :=
        if_neg (List.cons_ne_nil _ _)
      have hc : c ≠ 0 := by
        rintro rfl
        have hnul := (hcwd.isName hnames.shape w List.mem_cons_self).1.noNul
        rw [hw] at hnul
        exact hnul List.mem_cons_self
      rw [hne] at hstr hwhole ⊢
      obtain ⟨abs, hcat, hstr', hlen'⟩ := hstr.strcat cstring_slash (by
        rw [List.length_append, List.length_replicate, List.length_singleton]
        omega)
      refine ⟨abs, t', ?_, hclimb, ?_, hstr'⟩
      · rw [hw] at hcat ⊢
        have hneg : ¬ (slash = slash ∧ c = 0) := fun h => hc h.2
        change (if ¬ (slash = slash ∧ c = 0) then _ else _) = _
        rw [if_pos hneg, hcat]
        rfl
      · rw [hlen', List.length_append, List.length_replicate]
        omega


/-- The conditions on an argument: its names are short, and it fits behind the
    path of the working directory. -/
structure ArgOk (stack : List (List UInt8)) (arg : Buf) (path : List UInt8) : Prop where
  string : CString arg path
  names : ∀ name ∈ words slash path, name.length < maxFileNameLen
  fits : (joinAll slash stack).length + 1 + path.length < maxPathLen

/-- The names of the path come behind those of the working directory, or behind
    none. -/
theorem absFront_meets (htree : DirTree s dirs refs) (hnames : NamesTree s dirs parent)
    (hheap : HeapServes s)
    (hcwd : CanonicalPath (treeEntries s.disk dirs) stack s.task.cwdInodeNo)
    (h : Climbing s t dirs refs) (harg : ArgOk stack arg path) :
    ∃ front abs t', absFront t arg = .ok (abs, t') ∧ Climbing s t' dirs refs
      ∧ abs.length = maxPathLen ∧ CString abs front
      ∧ front.length ≤ (joinAll slash stack).length + 1
      ∧ (front ++ path).head? = some slash
      ∧ words slash (front ++ path)
        = (if path.head? = some slash then [] else stack) ++ words slash path := by
  have hfits := harg.fits
  obtain ⟨c, hload, -⟩ := harg.string.load_zero
  rw [absFront, hload, Outcome.ok_bind]
  by_cases hc : c = slash
  · have hhead : path.head? = some slash := by
      rcases harg.string.cases with ⟨rfl, rest, rfl⟩ | ⟨a, path', b', rfl, rfl, -⟩
      · obtain rfl : (0 : UInt8) = c := Except.ok.inj hload
        cases hc
      · obtain rfl : a = c := Except.ok.inj hload
        rw [hc]
        rfl
    rw [if_neg (not_not.2 hc), if_pos hhead]
    exact ⟨[], _, t, rfl, h, List.length_replicate, cstring_replicate (by decide), Nat.zero_le _,
      hhead, rfl⟩
  · have hhead : path.head? ≠ some slash := by
      intro hhead
      obtain ⟨path', rfl⟩ := List.head?_eq_some_iff.1 hhead
      obtain ⟨rest, rfl, -⟩ := harg.string
      exact hc (Except.ok.inj hload).symm
    rw [if_pos hc, if_neg hhead]
    obtain ⟨abs, t', hcall, hclimb, hlen, hstr⟩ :=
      absCwd_meets htree hnames hheap hcwd h (by omega)
    have hplain := canonicalPath_plain hnames.shape hcwd
    refine ⟨_, abs, t', hcall, hclimb, hlen, hstr, ?_, ?_, ?_⟩
    · rw [List.length_append, List.length_singleton]
    · cases stack with
      | nil => rfl
      | cons w stack => rfl
    · rw [List.append_assoc, List.singleton_append, words_append_sep]
      congr 1
      exact words_joinAll fun v hv => ⟨(hplain v hv).1, (hplain v hv).2.2.2⟩

/-- `make_clear_abs_path` writes the normal form of the path. -/
theorem makeClearAbsPath_meets (htree : DirTree s dirs refs) (hnames : NamesTree s dirs parent)
    (hheap : HeapServes s)
    (hcwd : CanonicalPath (treeEntries s.disk dirs) stack s.task.cwdInodeNo)
    (h : Climbing s t dirs refs) (harg : ArgOk stack arg path)
    (hroom : maxPathLen ≤ finalPath.length) :
    ∃ final t', makeClearAbsPath t arg finalPath = .ok (final, t') ∧ Climbing s t' dirs refs
      ∧ CString final (stackPath (target stack path)) ∧ final.length = finalPath.length := by
  have hfits := harg.fits
  obtain ⟨front, abs, t', hfront, hclimb, hlen, hstr, hlt, habs, hwords⟩ :=
    absFront_meets htree hnames hheap hcwd h harg
  obtain ⟨abs', hcat, hstr', -⟩ := hstr.strcat harg.string (by omega)
  have hshort : ∀ name ∈ (front ++ path).splitOn slash, name.length < maxFileNameLen := by
    intro name hname
    by_cases hnil : name = []
    · rw [hnil]
      decide
    · have hword : name ∈ words slash (front ++ path) :=
        List.mem_filter.2 ⟨hname, by simpa using hnil⟩
      rw [hwords] at hword
      rcases List.mem_append.1 hword with hmem | hmem
      · split at hmem
        · cases hmem
        · exact (hcwd.isName hnames.shape name hmem).1.length_lt
      · exact harg.names name hmem
  obtain ⟨final, hwash, hfinal, hflen⟩ := washPath_writes hstr' habs hshort
    (by rw [List.length_append]; omega) hroom
  refine ⟨final, t', ?_, hclimb, ?_, hflen⟩
  · rw [makeClearAbsPath, hfront, Outcome.ok_bind]
    dsimp only
    rw [hcat, Outcome.ok_bind, hwash]
    rfl
  · have hstack : (if path.head? = some slash then [] else stack).foldl pushName []
        = if path.head? = some slash then [] else stack := by
      split
      · rfl
      · exact foldl_pushName_of_plain (canonicalPath_plain hnames.shape hcwd)
    rw [nameStack_eq, hwords, List.foldl_append, hstack] at hfinal
    exact hfinal


theorem target_plain {tree : Nat → List Entry} {d : Nat} (hshape : TreeShape tree parent)
    (hcwd : CanonicalPath tree stack d) : ∀ v ∈ target stack path, IsPlainName v := by
  refine foldl_pushName_plain ?_ fun w hw => (mem_words hw).2.1
  split
  · exact fun _ hv => absurd hv List.not_mem_nil
  · exact canonicalPath_plain hshape hcwd

/-- The kernel takes the normal form. -/
theorem pathOk_target {tree : Nat → List Entry} {d : Nat} (hshape : TreeShape tree parent)
    (hcwd : CanonicalPath tree stack d) (harg : ArgOk stack arg path)
    (hstr : CString b (stackPath (target stack path))) : PathOk (stackPath (target stack path)) := by
  have hplain : ∀ v ∈ target stack path, IsPlainName v := target_plain hshape hcwd
  obtain ⟨-, -, hnul⟩ := hstr
  refine ⟨rfl, hnul, ?_, ?_⟩
  · by_cases hnil : target stack path = []
    · rw [hnil]
      decide
    · have hle := length_foldl_pushName_le (if path.head? = some slash then [] else stack)
        (words slash path)
      have hwords := length_joinAll_words slash path
      have hfits := harg.fits
      rw [stackPath_of_ne_nil hnil, target]
      rw [joinAll_append, List.length_append] at hle
      split at hle
      · rw [if_pos ‹_›]
        rw [joinAll_nil, List.length_nil] at hle
        omega
      · rw [if_neg ‹_›]
        omega
  · rw [words_stackPath hplain]
    intro name hname
    rcases foldl_pushName_sub hname with hmem | hmem
    · split at hmem
      · cases hmem
      · exact (hcwd.isName hshape name hmem).1.length_lt
    · exact harg.names name hmem

/-! ## Normal forms in a tree of names -/

/-- The names lead from the root to what `g` is. -/
def LeadsTo (tree : Nat → List Entry) (names : List (List UInt8)) (g : Found) : Prop :=
  ∃ k, walk tree rootFound names = some k ∧ k.iNo = g.iNo ∧ k.fType = g.fType

/-- The path of the parent has one name less; the root is its own parent. -/
theorem canonicalPath_parent (hshape : TreeShape tree parent) (h : CanonicalPath tree stack d) :
    CanonicalPath tree stack.dropLast (parent d) := by
  cases h with
  | root =>
      rw [hshape.rootParent]
      exact .root
  | child hm hmem hdir hdot hdotDot =>
      rw [List.dropLast_concat, (hshape.child _ _ hmem hdir hdot hdotDot).2]
      exact hm

theorem canonicalPath_leads (hshape : TreeShape tree parent) (h : CanonicalPath tree stack d)
    (hno : g.iNo = d) (hdir : g.fType = .directory) : LeadsTo tree stack g := by
  obtain ⟨k, hwalk, hk, hkdir⟩ := h.walk hshape
  exact ⟨k, hwalk, hk.trans hno.symm, hkdir.trans hdir.symm⟩

/-- One name further on, the normal form leads to the same object.  The cases
    are those of the stack: ".." goes to the parent, where the stack ends one
    name earlier, and a plain name is an entry of the directory. -/
theorem pushName_leads (hnames : NameTree tree isDir parent) (hpath : CanonicalPath tree stack d)
    (hdir : f.fType = .directory) (hno : f.iNo = d) (h : nextFound tree f name = some g) :
    LeadsTo tree (pushName stack name) g
      ∧ (g.fType = .directory → CanonicalPath tree (pushName stack name) g.iNo) := by
  have hshape := hnames.shape
  rw [nextFound, if_pos hdir, hno] at h
  obtain ⟨e, he, rfl⟩ := Option.map_eq_some_iff.1 h
  have hmem : e ∈ tree d := List.mem_of_find?_eq_some he
  have hname : e.name = name := by simpa using List.find?_some he
  have htype := hnames.directory d e hmem
  -- what a directory has as its entry
  have hwhole : ∀ stack', CanonicalPath tree stack' e.iNo →
      e.fType = FileType.directory.toWord → LeadsTo tree stack' (e.found d)
        ∧ ((e.found d).fType = .directory → CanonicalPath tree stack' (e.found d).iNo) :=
    fun stack' hpath' heType => ⟨canonicalPath_leads hshape hpath' rfl (if_pos heType),
      fun _ => hpath'⟩
  unfold pushName
  by_cases hdot : name = [] ∨ name = dot
  · rw [if_pos hdot]
    have hdot : name = dot := hdot.resolve_left fun hnil =>
      (hshape.isName d e hmem).1.nonempty (hname.trans hnil)
    have heNo := hshape.dot d e hmem (hname.trans hdot)
    refine hwhole stack (heNo ▸ hpath) (htype.2 ?_)
    rw [heNo]
    exact hnames.isDir_of_mem hmem
  · rw [if_neg hdot]
    by_cases hdotDot : name = dotDot
    · rw [if_pos hdotDot]
      have heNo := hshape.dotDot d e hmem (hname.trans hdotDot)
      refine hwhole stack.dropLast (heNo ▸ canonicalPath_parent hshape hpath) (htype.2 ?_)
      rw [heNo]
      exact hnames.parent_isDir (hnames.isDir_of_mem hmem)
    · rw [if_neg hdotDot]
      have hplain : e.name ≠ dot ∧ e.name ≠ dotDot := by
        rw [hname]
        exact ⟨fun heq => hdot (.inr heq), hdotDot⟩
      constructor
      · obtain ⟨k, hwalk, hk, hkdir⟩ := hpath.walk hshape
        refine ⟨e.found d, ?_, rfl, rfl⟩
        rw [walk_append, hwalk, Option.bind_some, walk_cons, nextFound, if_pos hkdir, hk, he]
        rfl
      · intro hedir
        have heType : e.fType = FileType.directory.toWord := by
          by_contra hne
          rw [Entry.found, if_neg hne] at hedir
          cases hedir
        rw [← hname]
        exact hpath.child hmem heType hplain.1 hplain.2

/-- Where walking the names one by one succeeds, the normal form leads to the
    same object. -/
theorem foldl_pushName_leads (hnames : NameTree tree isDir parent)
    (hpath : CanonicalPath tree stack d) (hdir : f.fType = .directory) (hno : f.iNo = d)
    (h : walk tree f names = some g) :
    LeadsTo tree (names.foldl pushName stack) g
      ∧ (g.fType = .directory → CanonicalPath tree (names.foldl pushName stack) g.iNo) := by
  induction names generalizing f d stack with
  | nil =>
      obtain rfl := Option.some.inj h
      exact ⟨canonicalPath_leads hnames.shape hpath hno hdir, fun _ => hno ▸ hpath⟩
  | cons name names ih =>
      rw [walk_cons] at h
      obtain ⟨k, hk, h⟩ := Option.bind_eq_some_iff.1 h
      obtain ⟨hleads, hcanonical⟩ := pushName_leads hnames hpath hdir hno hk
      rcases nextFound_type hk with hkdir | hkreg
      · exact ih (hcanonical hkdir) hkdir rfl h
      · -- behind a file there is nothing
        by_cases hnil : names = []
        · subst hnil
          obtain rfl := Option.some.inj h
          exact ⟨hleads, hcanonical⟩
        · rw [walk_regular hkreg hnil] at h
          cases h


/-- A path that leads to a directory goes through directories only. -/
theorem walk_of_reach {tree : Nat → List Entry} {names : List (List UInt8)} {f g : Found}
    (hf : f.fType = .directory) (h : reach tree f names = some g) (hdir : g.fType = .directory) :
    walk tree f names = some g := by
  induction names generalizing f with
  | nil => exact h
  | cons name names ih =>
      obtain ⟨k, hk, h⟩ := Option.bind_eq_some_iff.1 h
      rw [walk_cons, hk, Option.bind_some]
      split at h
      · exact ih ‹_› h
      · cases h
        exact absurd hdir ‹_›

/-- Where walking succeeds, searching does. -/
theorem reach_of_walk {tree : Nat → List Entry} {names : List (List UInt8)} {f g : Found}
    (hf : f.fType = .directory) (h : walk tree f names = some g) : reach tree f names = some g := by
  have hspec := @reach_spec tree f names hf
  rw [hspec.1 fun hthrough => ?_, h]
  rw [(hspec.2 hthrough).2] at h
  cases h

/-- A normal form that can be walked is the path of the directory. -/
theorem canonicalPath_of_walk {tree : Nat → List Entry} {isDir : Nat → Prop} {g : Found}
    (hnames : NameTree tree isDir parent) (hplain : ∀ v ∈ stack, IsPlainName v)
    (hwalk : walk tree rootFound stack = some g) (hdir : g.fType = .directory) :
    CanonicalPath tree stack g.iNo := by
  have hleads := (foldl_pushName_leads hnames .root rfl rfl hwalk).2 hdir
  rwa [foldl_pushName_of_plain hplain, List.nil_append] at hleads

/-! ## cd -/

theorem namesTree_congr (h : NamesTree s dirs parent) (hdisk : t.disk = s.disk) :
    NamesTree t dirs parent :=
  ⟨hdisk ▸ h.shape, hdisk ▸ h.second⟩

/-- The directory where the names of the path are looked up. -/
def startDir (cwd : Nat) (path : List UInt8) : Found :=
  if path.head? = some slash then rootFound else ⟨cwd, .directory, 0⟩

/-- For every path whose names are short: `cd` keeps the partition, and goes to the
    directory that the normal form of the path leads to if there is one.  Then
    `final_path` is what `pwd` prints.  Where the names of the path can be walked
    one by one, through the entries "." and ".." on the disk, it is the directory
    they lead to. -/
theorem cd_follows (cmd : Buf) (hv : Volume s dirs files parent refs)
    (hnames : NamesTree s dirs parent) (hheap : HeapServes s)
    (hcwd : CanonicalPath (treeEntries s.disk dirs) stack s.task.cwdInodeNo)
    (harg : ArgOk stack arg path) (hroom : maxPathLen ≤ finalPath.length) :
    ∃ r final s', buildinCd s [cmd, arg] finalPath = .ok (r, final, s')
      ∧ CString final (stackPath (target stack path))
      ∧ Volume s' dirs files parent refs ∧ s'.disk = s.disk
      ∧ (r = true ↔ ∃ d, CanonicalPath (treeEntries s.disk dirs) (target stack path) d)
      ∧ (r = true → CanonicalPath (treeEntries s.disk dirs) (target stack path) s'.task.cwdInodeNo
        ∧ ∃ t, sysGetcwd s' maxPathLen = .ok (some (stackPath (target stack path)), t))
      ∧ (r = false → s'.task = s.task)
      ∧ ∀ g, walk (treeEntries s.disk dirs) (startDir s.task.cwdInodeNo path) (words slash path)
          = some g → g.fType = .directory → r = true ∧ s'.task.cwdInodeNo = g.iNo := by
  have hshape := hv.names.shape
  obtain ⟨final, t, hclear, hclimb, hfinal, -⟩ := makeClearAbsPath_meets hv.tree hnames hheap hcwd
    ⟨hv.tree.sees, hv.tree.counts⟩ harg hroom
  have hplain : ∀ v ∈ target stack path, IsPlainName v := target_plain hshape hcwd
  have hwords := words_stackPath hplain
  obtain ⟨hv', hdisk⟩ := hv.intact hclimb.sees hclimb.counts
  have hnonempty : stackPath (target stack path) = [slash]
      ∨ words slash (stackPath (target stack path)) ≠ [] := by
    rw [stackPath_eq_slash hplain, hwords]
    exact em _
  obtain ⟨⟨r, s'⟩, hchdir, hcase⟩ := (sysChdir_meets hv' (pathOk_target hshape hcwd harg hfinal)).exists
    ⟨hclimb.sees.heapServes hheap, hnonempty⟩
  have htask := hclimb.sees.looks.task
  -- the normal form, where the names can be walked
  have hwalked : ∀ g, walk (treeEntries s.disk dirs) (startDir s.task.cwdInodeNo path)
      (words slash path) = some g → g.fType = .directory →
      LeadsTo (treeEntries s.disk dirs) (target stack path) g
        ∧ CanonicalPath (treeEntries s.disk dirs) (target stack path) g.iNo := by
    intro g hg hdir
    unfold startDir at hg
    unfold target
    split at hg
    · rw [if_pos ‹_›]
      obtain ⟨hleads, hcanonical⟩ := foldl_pushName_leads hv.names .root rfl rfl hg
      exact ⟨hleads, hcanonical hdir⟩
    · rw [if_neg ‹_›]
      obtain ⟨hleads, hcanonical⟩ := foldl_pushName_leads hv.names hcwd rfl rfl hg
      exact ⟨hleads, hcanonical hdir⟩
  rw [Chdirs, hwords, hdisk] at hcase
  refine ⟨decide (r ≠ -1), final, s', ?_, hfinal, ?_⟩
  · rw [buildinCd, hclear, Outcome.ok_bind]
    dsimp only
    rw [cdTo, hfinal.string, Outcome.ok_bind, hchdir]
    rfl
  rcases hcase with ⟨hr, hclimb', hnone⟩ | ⟨hr, f, hf, hdir, hclimb'⟩
  · dsimp only at hr hclimb'
    subst hr
    obtain ⟨hv'', hdisk'⟩ := hv'.intact hclimb'.sees hclimb'.counts
    have hno : ¬ ∃ d, CanonicalPath (treeEntries s.disk dirs) (target stack path) d := by
      rintro ⟨d, hd⟩
      obtain ⟨k, hwalk, -, hkdir⟩ := hd.walk hshape
      exact hnone k (reach_of_walk rfl hwalk) hkdir
    refine ⟨hv'', hdisk'.trans hdisk, iff_of_false (by decide) hno, fun h => (by cases h),
      fun _ => hclimb'.sees.looks.task.trans htask, fun g hg hgdir => ?_⟩
    exact absurd ⟨g.iNo, (hwalked g hg hgdir).2⟩ hno
  · dsimp only at hr hclimb'
    subst hr
    obtain ⟨hv'', hdisk'⟩ := (hv'.setTask _).intact hclimb'.sees hclimb'.counts
    have hwalk := walk_of_reach rfl hf hdir
    have hcanonical : CanonicalPath (treeEntries s.disk dirs) (target stack path) f.iNo :=
      canonicalPath_of_walk hv.names hplain hwalk hdir
    have hcwd' : s'.task.cwdInodeNo = f.iNo := by
      rw [hclimb'.sees.looks.task, FsState.setTask_task]
    refine ⟨hv'', hdisk'.trans hdisk, iff_of_true rfl ⟨f.iNo, hcanonical⟩, fun _ => ⟨?_, ?_⟩,
      fun h => (by cases h), fun g hg hgdir => ⟨rfl, ?_⟩⟩
    · rw [hcwd']
      exact hcanonical
    · have hshort := (pathOk_target hshape hcwd harg hfinal).length_lt
      rw [← absolutePath_eq] at hshort ⊢
      have hjoin : (joinAll slash (target stack path)).length < maxPathLen := by
        unfold absolutePath at hshort
        split at hshort
        · rw [‹target stack path = []›]
          decide
        · exact hshort
      obtain ⟨t', hcall, -⟩ := sysGetcwd_climbing (hv'.setTask _).tree
        ((namesTree_congr hnames hdisk).setTask _) (hclimb.sees.heapServes hheap)
        (by rw [FsState.setTask_task, FsState.setTask_disk, hdisk]; exact hcanonical) hclimb' hjoin
        hshort
      exact ⟨t', hcall⟩
    · obtain ⟨k, hk, hkno, -⟩ := (hwalked g hg hgdir).1
      obtain rfl := Option.some.inj (hwalk.symm.trans hk)
      exact hcwd'.trans hkno

theorem smallVolume_namesTree : NamesTree smallVolumeFs smallVolumeDirs fun _ => 0 where
  shape := smallVolume_names.shape
  second m ino h := by
    rcases smallVolumeDirs_some h with ⟨-, rfl⟩ | ⟨-, rfl⟩
    · exact ⟨by decide, by decide +kernel, by decide +kernel⟩
    · exact ⟨by decide, by decide +kernel, by decide +kernel⟩

/-- "d/.." -/
theorem cd_follows_smallVolume :
    ∃ r final s', buildinCd smallVolumeFs [[99, 100, 0], [100, 47, 46, 46, 0]]
        (List.replicate maxPathLen 0) = .ok (r, final, s')
      ∧ CString final [slash] ∧ s'.disk = smallVolumeFs.disk
      ∧ (r = true → ∃ t, sysGetcwd s' maxPathLen = .ok (some [slash], t)) := by
  have harg : ArgOk [] [100, 47, 46, 46, 0] [100, 47, 46, 46] :=
    ⟨⟨[], rfl, by decide⟩, by decide, by decide⟩
  obtain ⟨r, final, s', hcall, hfinal, -, hdisk, -, hpwd, -⟩ := cd_follows [99, 100, 0]
    smallVolume smallVolume_namesTree (fun _ _ => rfl) .root harg (List.length_replicate).ge
  exact ⟨r, final, s', hcall, hfinal, hdisk, fun hr => (hpwd hr).2⟩

/-! ## rmdir -/

/-- The commands that take one path hand its normal form on, unless it is "/". -/
theorem pathCommand_eq (call : FsState → List UInt8 → Outcome (Int × FsState)) (cmd : Buf)
    (hv : Volume s dirs files parent refs) (hnames : NamesTree s dirs parent)
    (hheap : HeapServes s)
    (hcwd : CanonicalPath (treeEntries s.disk dirs) stack s.task.cwdInodeNo)
    (harg : ArgOk stack arg path) (hroom : maxPathLen ≤ finalPath.length) :
    ∃ final t, Climbing s t dirs refs ∧ CString final (stackPath (target stack path))
      ∧ pathCommand call s [cmd, arg] finalPath = if target stack path = [] then .ok (-1, final, t)
        else call t (stackPath (target stack path)) >>= fun r =>
          .ok (if r.1 = 0 then 0 else -1, final, r.2) := by
  obtain ⟨final, t, hclear, hclimb, hfinal, -⟩ := makeClearAbsPath_meets hv.tree hnames hheap hcwd
    ⟨hv.tree.sees, hv.tree.counts⟩ harg hroom
  obtain ⟨c, hcmp, hc⟩ := cstring_slash.strcmp hfinal
  have hc : c = 0 ↔ target stack path = [] :=
    hc.trans (eq_comm.trans (stackPath_eq_slash (target_plain hv.names.shape hcwd)))
  refine ⟨final, t, hclimb, hfinal, ?_⟩
  rw [pathCommand]
  simp only [hclear, Outcome.ok_bind, hcmp]
  by_cases hne : target stack path = []
  · rw [if_neg (not_not.2 (hc.2 hne)), if_pos hne]
  · rw [if_pos (mt hc.1 hne), if_neg hne, hfinal.string]
    rfl

/-- A directory that a normal form other than "/" leads to is not the root, and
    it does not stand in itself. -/
theorem reach_plain_ne {tree : Nat → List Entry} {isDir : Nat → Prop} {f : Found}
    (hnames : NameTree tree isDir parent) (hplain : ∀ v ∈ stack, IsPlainName v) (hne : stack ≠ [])
    (hf : reach tree rootFound stack = some f) (hdir : f.fType = .directory) :
    f.iNo ≠ 0 ∧ f.parent ≠ f.iNo := by
  have hshape := hnames.shape
  have hwalk := walk_of_reach rfl hf hdir
  have hwhole := canonicalPath_of_walk hnames hplain hwalk hdir
  constructor
  · intro hzero
    rw [hzero] at hwhole
    exact hne (List.length_eq_zero_iff.1 (hwhole.length_eq hshape .root))
  · intro hsame
    obtain ⟨front, w, rfl⟩ := (List.eq_nil_or_concat stack).resolve_left hne
    rw [List.concat_eq_append] at hplain hwalk hwhole
    rw [walk_append] at hwalk
    obtain ⟨k, hk, hlast⟩ := Option.bind_eq_some_iff.1 hwalk
    obtain ⟨k', hnext, hend⟩ := Option.bind_eq_some_iff.1 (walk_cons ▸ hlast)
    obtain rfl := Option.some.inj hend
    unfold nextFound at hnext
    split at hnext
    · obtain ⟨e, -, rfl⟩ := Option.map_eq_some_iff.1 hnext
      have hfront := canonicalPath_of_walk hnames
        (fun v hv => hplain v (List.mem_append_left _ hv)) hk ‹_›
      have hparent : k.iNo = (e.found k.iNo).iNo := hsame
      rw [← hparent] at hwhole
      have hlen := hwhole.length_eq hshape hfront
      rw [List.length_append, List.length_singleton] at hlen
      omega
    · cases hnext

/-- What the builtin `rmdir` takes away: an empty directory other than the root
    at the end of the normal form. -/
def RmdirTakes (tree : Nat → List Entry) (names : List (List UInt8)) (f : Found) : Prop :=
  names ≠ [] ∧ LeadsToEmpty tree (stackPath names) f

/-- For every path whose names are short and whose normal form can be printed, in a
    partition where removing works: the builtin `rmdir` comes back, for the kernel never meets its assertion about the
    root.  It returns 0 exactly if the normal form leads to an empty directory
    other than the root.  Then the entry of the directory is gone and nothing
    else; otherwise the partition is as it was. -/
theorem rmdir_exact (cmd : Buf) (hv : Volume s dirs files parent refs)
    (hnames : NamesTree s dirs parent) (hheap : HeapServes s)
    (hcwd : CanonicalPath (treeEntries s.disk dirs) stack s.task.cwdInodeNo)
    (harg : ArgOk stack arg path) (hroom : maxPathLen ≤ finalPath.length)
    (hshort : Printable (stackPath (target stack path)))
    (hone : OneBlockAt s dirs (stackPath (target stack path)))
    (hstored : ∀ f, RmdirTakes (treeEntries s.disk dirs) (target stack path) f →
      inodeStored f.parent)
    (hkept : ∀ f, RmdirTakes (treeEntries s.disk dirs) (target stack path) f →
      ∀ old k i, dirs f.parent = some old → OnlyCarrier s.disk old f.iNo k i →
        Kept s.disk (blockRef s.disk old k) i) :
    ∃ r final s', builtinRmdir s [cmd, arg] finalPath = .ok (r, final, s')
      ∧ CString final (stackPath (target stack path)) ∧ (r = 0 ∨ r = -1)
      ∧ (r = 0 ↔ ∃ f, RmdirTakes (treeEntries s.disk dirs) (target stack path) f)
      ∧ (r = -1 → Volume s' dirs files parent refs ∧ s'.disk = s.disk)
      ∧ ∀ f, RmdirTakes (treeEntries s.disk dirs) (target stack path) f →
        ∃ dirs' files', Volume s' dirs' files' parent refs
          ∧ Loses (treeEntries s.disk dirs) (treeEntries s'.disk dirs') f.parent f.iNo := by
  have hshape := hv.names.shape
  obtain ⟨final, t, hclimb, hfinal, hcommand⟩ :=
    pathCommand_eq sysRmdir cmd hv hnames hheap hcwd harg hroom
  have hplain : ∀ v ∈ target stack path, IsPlainName v := target_plain hshape hcwd
  have hwords := words_stackPath hplain
  obtain ⟨hv', hdisk⟩ := hv.intact hclimb.sees hclimb.counts
  rw [builtinRmdir, hcommand]
  by_cases hne : target stack path = []
  · rw [if_pos hne]
    have hnone : ∀ f, ¬ RmdirTakes (treeEntries s.disk dirs) (target stack path) f :=
      fun _ hf => hf.1 hne
    exact ⟨-1, final, t, rfl, hfinal, .inr rfl, iff_of_false (by decide) fun ⟨f, hf⟩ => hnone f hf,
      fun _ => ⟨hv', hdisk⟩, fun f hf => absurd hf (hnone f)⟩
  · rw [if_neg hne]
    have htakes : ∀ f, LeadsToEmpty (treeEntries t.disk dirs) (stackPath (target stack path)) f →
        RmdirTakes (treeEntries s.disk dirs) (target stack path) f := by
      intro f hf
      rw [hdisk] at hf
      exact ⟨hne, hf⟩
    have hroot : NotRoot t dirs (stackPath (target stack path)) := by
      intro f hf
      rw [hdisk] at hf
      rcases hv.names.reach_kind hf with ⟨hdir, -⟩ | ⟨-, hfile⟩
      · rw [hwords] at hf
        exact (reach_plain_ne hv.names hplain hne hf hdir).1
      · intro hzero
        rw [hzero] at hfile
        exact hfile hv.names.root
    have hone' : OneBlockAt t dirs (stackPath (target stack path)) := by
      intro f ino hf hdir hempty
      rw [hdisk] at hf hempty
      refine (hone f ino hf hdir hempty).imp id fun hndebug => ?_
      rw [hclimb.sees.looks.same]
      exact hndebug
    have hok : ∀ f, LeadsToEmpty (treeEntries t.disk dirs) (stackPath (target stack path)) f →
        RemoveOk t dirs f := by
      intro f hf
      have hf' := htakes f hf
      obtain ⟨hreach, hdir, -⟩ := hf'.2
      rw [hwords] at hreach
      refine ⟨(reach_plain_ne hv.names hplain hne hreach hdir).2, hstored f hf', ?_⟩
      rw [hdisk]
      exact hkept f hf'
    obtain ⟨⟨r, s'⟩, hrmdir, hcase⟩ := (sysRmdir_meets hv' (pathOk_target hshape hcwd harg hfinal)
      hok).exists ⟨hclimb.sees.heapServes hheap, hroot, hone', hshort⟩
    rw [hrmdir, Outcome.ok_bind]
    refine ⟨_, final, s', rfl, hfinal, ?_⟩
    rcases hcase with ⟨hr, ⟨hv'', hdisk'⟩, hnone⟩ | ⟨hr, f, hf, dirs', files', hv'', hloses⟩
    · dsimp only at hr
      subst hr
      have hnone : ¬ ∃ f, RmdirTakes (treeEntries s.disk dirs) (target stack path) f := by
        rintro ⟨f, -, hf⟩
        rw [← hdisk] at hf
        exact hnone (hclimb.sees.heapServes hheap) ⟨f, hf⟩
      exact ⟨.inr rfl, iff_of_false (by simp) hnone, fun _ => ⟨hv'', hdisk'.trans hdisk⟩,
        fun f hf => absurd ⟨f, hf⟩ hnone⟩
    · dsimp only at hr
      subst hr
      refine ⟨.inl rfl, iff_of_true rfl ⟨f, htakes f hf⟩, fun h => absurd h (by simp),
        fun f' hf' => ?_⟩
      have hreach := (htakes f hf).2.1
      obtain rfl := Option.some.inj (hreach.symm.trans hf'.2.1)
      rw [hdisk] at hloses
      exact ⟨dirs', files', hv'', hloses⟩

/-- "./d" -/
theorem rmdir_exact_smallVolume :
    ∃ r final s', builtinRmdir smallVolumeFs [[114, 109, 100, 105, 114, 0], [46, 47, 100, 0]]
        (List.replicate maxPathLen 0) = .ok (r, final, s')
      ∧ CString final [47, 100] ∧ (r = 0 ∨ r = -1)
      ∧ (r = 0 ↔ ∃ f, RmdirTakes (treeEntries smallVolumeFs.disk smallVolumeDirs) [[100]] f) := by
  have harg : ArgOk [] [46, 47, 100, 0] [46, 47, 100] :=
    ⟨⟨[], rfl, by decide⟩, by decide, by decide⟩
  have hok : ∀ f, RmdirTakes (treeEntries smallVolumeFs.disk smallVolumeDirs) [[100]] f →
      RemoveOk smallVolumeFs smallVolumeDirs f := fun f hf =>
    smallVolume_removeOk smallVolume hf.2.1
  obtain ⟨r, final, s', hcall, hfinal, hr, hzero, -⟩ := rmdir_exact [114, 109, 100, 105, 114, 0]
    smallVolume smallVolume_namesTree (fun _ _ => rfl) .root harg (List.length_replicate).ge
    (by decide) smallVolume_oneBlock (fun f hf => (hok f hf).stored) fun f hf => (hok f hf).kept
  exact ⟨r, final, s', hcall, hfinal, hr, hzero⟩

end Shell
end JackOS
