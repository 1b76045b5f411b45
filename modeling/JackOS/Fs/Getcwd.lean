/-
  JackOS.Fs.Getcwd

  `sys_getcwd` of fs/fs.c.  It climbs from the working directory to the root by
  the entries "..", looks up in each parent under which name the child stands
  there, and so writes the names of the path down in reverse; then it turns them
  round.  On a tree this is the path that `search_file` walks down
  (`getcwd_inverts`).
-/

import JackOS.Fs.OpenCount
import JackOS.Fs.PathLoop
import JackOS.Fs.Search

namespace JackOS
namespace Fs

open Base

/-! ## The code -/

/-- `get_parent_dir_inode_nr` -/
def getParentDirInodeNr (s : FsState) (childInodeNo : Nat) : Outcome (Nat × FsState) := do
  let (p, s) ← inodeOpen s childInodeNo
  let blockLba := (s.inodes p).iSectors 0
  kassert s (s.part.sb.dataStartLba ≤ blockLba)
  let s := inodeClose s p
  let ioBuf ← ideRead s blockLba Mem.zero 0 1
  -- entry 0 is ".", entry 1 is ".."
  let de := DirEntry.ofBytes ioBuf (dirEntryBytes * 1)
  kassert s (de.iNo < 4096 ∧ de.fType = FileType.directory.toWord)
  .ok (de.iNo, s)

/-- The first entry of the sector with this inode number, whatever its type. -/
def findIno (s : FsState) (buf : Mem) (inodeNo : Nat) : Option Nat :=
  (List.range s.dirEntryPerSec).find? fun i =>
    (DirEntry.ofBytes buf (dirEntryBytes * i)).iNo = inodeNo

/-- The loop of `get_child_dir_name`, with `left` blocks to go. -/
def childBlocks (s : FsState) (all : Nat → Nat) (cInodeNo : Nat) :
    (left blockIdx : Nat) → Outcome (Option DirEntry)
  | 0, _ => .ok none
  | left + 1, blockIdx =>
      if all blockIdx = 0 then childBlocks s all cInodeNo left (blockIdx + 1)
      else do
        let ioBuf ← ideRead s (all blockIdx) Mem.zero 0 1
        match findIno s ioBuf cInodeNo with
        | some i => .ok (some (DirEntry.ofBytes ioBuf (dirEntryBytes * i)))
        | none => childBlocks s all cInodeNo left (blockIdx + 1)

/-- `get_child_dir_name`: `path` with the name appended, or `none` for -1. -/
def getChildDirName (s : FsState) (pInodeNo cInodeNo : Nat) (path : List UInt8) :
    Outcome (Option (List UInt8) × FsState) := do
  let (p, s) ← inodeOpen s pInodeNo
  let all ← allBlocks s (s.inodes p)
  let blockCnt := if (s.inodes p).iSectors 12 ≠ 0 then 140 else 12
  let s := inodeClose s p
  let found ← childBlocks s all cInodeNo blockCnt 0
  match found with
  | some de => do
      let path ← appendName path de.entry.name
      .ok (some path, s)
  | none => .ok (none, s)

/-- The loop of `sys_getcwd` up to the root, at most `fuel` rounds. -/
def climbLoop : (fuel childInodeNo : Nat) → (fullPathReverse : List UInt8) → FsState →
    Outcome (Option (List UInt8) × FsState)
  | fuel, childInodeNo, fullPathReverse, s =>
      if childInodeNo = 0 then .ok (some fullPathReverse, s)
      else
        match fuel with
        | 0 => .error .diverges
        | fuel + 1 => do
            let (parentInodeNo, s) ← getParentDirInodeNr s childInodeNo
            let (path, s) ← getChildDirName s parentInodeNo childInodeNo fullPathReverse
            match path with
            | none => .ok (none, s)
            | some path => climbLoop fuel parentInodeNo path s

/-- The string from its last '/' on, for `strrchr(path, '/')`. -/
def lastName (path : List UInt8) : List UInt8 :=
  slash :: (path.reverse.takeWhile (· != slash)).reverse

/-- The loop of `sys_getcwd` that turns the names round, at most `fuel` rounds;
    `size` bytes are there for `buf`. -/
def flipLoop (size : Nat) : (fuel : Nat) → (fullPathReverse buf : List UInt8) →
    Outcome (List UInt8)
  | fuel, fullPathReverse, buf =>
      if slash ∈ fullPathReverse then
        match fuel with
        | 0 => .error .diverges
        | fuel + 1 =>
            let lastSlash := lastName fullPathReverse
            if buf.length + lastSlash.length < size then
              -- *last_slash = 0
              flipLoop size fuel (fullPathReverse.take (fullPathReverse.length - lastSlash.length))
                (buf ++ lastSlash)
            else .error .undefined
      else .ok buf

/-- `sys_getcwd`: the string in `buf`, or `none` for NULL.  Each round up to the
    root puts a '/' into `full_path_reverse`, which has `MAX_PATH_LEN` bytes. -/
def sysGetcwd (s : FsState) (size : Nat) : Outcome (Option (List UInt8) × FsState) :=
  let (ioBuf, s) := sysMalloc s
  match ioBuf with
  | none => .ok (none, s)
  | some ioBuf => do
      let childInodeNo := s.task.cwdInodeNo
      kassert s (childInodeNo < 4096)
      if childInodeNo = 0 then
        -- io_buf is not freed
        if 2 ≤ size then .ok (some [slash], s) else .error .undefined
      else do
        let (fullPathReverse, s) ← climbLoop maxPathLen childInodeNo [] s
        match fullPathReverse with
        | none => do
            sysFree s ioBuf
            .ok (none, s)
        | some fullPathReverse => do
            kassert s (fullPathReverse.length < size)
            let buf ← flipLoop size fullPathReverse.length fullPathReverse []
            sysFree s ioBuf
            .ok (some buf, s)

/-! ## Turning the names round -/

variable {size fuel : Nat} {names : List (List UInt8)} {buf : List UInt8}

/-- What stands behind the last '/'. -/
theorem lastName_append {front name : List UInt8} (hname : slash ∉ name) :
    lastName (front ++ slash :: name) = slash :: name := by
  have hall : ∀ c ∈ name.reverse, (c != slash) = true := by
    intro c hc
    rw [bne_iff_ne]
    rintro rfl
    exact hname (List.mem_reverse.1 hc)
  rw [lastName, List.reverse_append, List.reverse_cons, List.append_assoc,
    List.takeWhile_append_of_pos hall]
  simp

/-- The loop gives the names in the other order. -/
theorem flipLoop_eq (hnames : ∀ name ∈ names, slash ∉ name) (hfuel : names.length ≤ fuel)
    (hsize : buf.length + (joinAll slash names).length < size) :
    flipLoop size fuel (joinAll slash names) buf = .ok (buf ++ joinAll slash names.reverse) := by
  induction names using List.reverseRecOn generalizing fuel buf with
  | nil =>
      have hend : slash ∉ joinAll slash ([] : List (List UInt8)) := List.not_mem_nil
      cases fuel <;> rw [flipLoop, if_neg hend] <;> simp
  | append_singleton names name ih =>
      have hname : slash ∉ name := hnames name (by simp)
      have hjoin : joinAll slash (names ++ [name]) = joinAll slash names ++ slash :: name := by
        rw [joinAll_append, joinAll_cons, joinAll_nil, List.append_nil]
      have hmem : slash ∈ joinAll slash names ++ slash :: name := by simp
      rw [hjoin, List.length_append] at hsize
      rw [hjoin]
      cases fuel with
      | zero => simp at hfuel
      | succ fuel =>
          -- the last name goes behind the others of `buf`
          have hfront : (joinAll slash names ++ slash :: name).take
              ((joinAll slash names ++ slash :: name).length - (slash :: name).length)
              = joinAll slash names := by
            rw [List.length_append, Nat.add_sub_cancel, List.take_left]
          rw [flipLoop, if_pos hmem, lastName_append hname]
          dsimp only
          rw [if_pos (by omega), hfront, ih (fun n hn => hnames n (by simp [hn]))
            (by simpa using hfuel) (by rw [List.length_append]; omega)]
          simp

/-! ## Paths in a tree -/

/-- The names that lead from the root to `d`, each through an entry other than
    "." and "..". -/
inductive CanonicalPath (tree : Nat → List Entry) : List (List UInt8) → Nat → Prop
  | root : CanonicalPath tree [] 0
  | child {names : List (List UInt8)} {m : Nat} {e : Entry} (parent : CanonicalPath tree names m)
      (mem : e ∈ tree m) (directory : e.fType = FileType.directory.toWord)
      (notDot : e.name ≠ dot) (notDotDot : e.name ≠ dotDot) :
      CanonicalPath tree (names ++ [e.name]) e.iNo

/-- The entries are those of a tree whose directories have the parents `parent`. -/
structure TreeShape (tree : Nat → List Entry) (parent : Nat → Nat) : Prop where
  isName : ∀ m, ∀ e ∈ tree m, IsName e.name ∧ slash ∉ e.name
  unique : ∀ m, ∀ e ∈ tree m, ∀ e' ∈ tree m, e.name = e'.name → e = e'
  dot : ∀ m, ∀ e ∈ tree m, e.name = dot → e.iNo = m
  dotDot : ∀ m, ∀ e ∈ tree m, e.name = dotDot → e.iNo = parent m
  rootParent : parent 0 = 0
  child : ∀ m, ∀ e ∈ tree m, e.fType = FileType.directory.toWord → e.name ≠ Fs.dot →
    e.name ≠ Fs.dotDot → e.iNo ≠ 0 ∧ parent e.iNo = m
  oneName : ∀ m, ∀ e ∈ tree m, ∀ e' ∈ tree m, e.name ≠ Fs.dot → e.name ≠ Fs.dotDot →
    e'.name ≠ Fs.dot → e'.name ≠ Fs.dotDot → e.iNo = e'.iNo → e = e'

variable {tree : Nat → List Entry} {parent : Nat → Nat} {m d : Nat} {e : Entry}

/-- All paths to a directory are equally long: their parents are the same. -/
theorem CanonicalPath.length_eq (hshape : TreeShape tree parent) {names' : List (List UInt8)}
    (h : CanonicalPath tree names d) (h' : CanonicalPath tree names' d) :
    names.length = names'.length := by
  induction h generalizing names' with
  | root =>
      generalize hd : 0 = d at h'
      cases h' with
      | root => rfl
      | child hparent hmem hdir hdot hdotDot =>
          exact absurd hd.symm (hshape.child _ _ hmem hdir hdot hdotDot).1
  | @child names m e hm hmem hdir hdot hdotDot ih =>
      have hchild := hshape.child _ _ hmem hdir hdot hdotDot
      generalize hd : e.iNo = d at h'
      cases h' with
      | root => exact absurd hd hchild.1
      | @child names' m' e' hm' hmem' hdir' hdot' hdotDot' =>
          have hchild' := hshape.child _ _ hmem' hdir' hdot' hdotDot'
          obtain rfl : m = m' := by
            rw [← hchild.2, hd, hchild'.2]
          rw [List.length_append, List.length_append, ih hm']
          rfl

/-- A directory does not stand below itself or below its parent's place: in its
    parent only its own entry has its number. -/
theorem CanonicalPath.eq_of_iNo (hshape : TreeShape tree parent) (h : CanonicalPath tree names m)
    (hmem : e ∈ tree m) (hdir : e.fType = FileType.directory.toWord) (hdot : e.name ≠ Fs.dot)
    (hdotDot : e.name ≠ Fs.dotDot) {e' : Entry} (hmem' : e' ∈ tree m) (hno : e'.iNo = e.iNo) :
    e' = e := by
  have hpath := h.child hmem hdir hdot hdotDot
  by_cases hd : e'.name = Fs.dot
  · -- "." leads to the directory, whose path is shorter
    rw [← hno, hshape.dot m e' hmem' hd] at hpath
    have := hpath.length_eq hshape h
    rw [List.length_append, List.length_singleton] at this
    omega
  by_cases hdd : e'.name = Fs.dotDot
  · -- ".." leads to its parent, whose path is shorter still
    rw [← hno, hshape.dotDot m e' hmem' hdd] at hpath
    have hlonger : ∀ {front : List (List UInt8)}, CanonicalPath tree front (parent m) →
        front.length = names.length + 1 := by
      intro front hfront
      rw [hfront.length_eq hshape hpath, List.length_append, List.length_singleton]
    cases h with
    | root =>
        have hroot : CanonicalPath tree [] 0 := .root
        rw [← hshape.rootParent] at hroot
        have := hlonger hroot
        simp at this
    | child hup hmem₂ hdir₂ hdot₂ hdotDot₂ =>
        have hparent := (hshape.child _ _ hmem₂ hdir₂ hdot₂ hdotDot₂).2
        rw [hparent] at hlonger
        have := hlonger hup
        rw [List.length_append, List.length_singleton] at this
        omega
  exact hshape.oneName m e' hmem' e hmem hd hdd hdot hdotDot hno

/-- Walking down the names leads to the directory. -/
theorem CanonicalPath.walk (hshape : TreeShape tree parent) (h : CanonicalPath tree names d) :
    ∃ f, Fs.walk tree rootFound names = some f ∧ f.iNo = d ∧ f.fType = .directory := by
  induction h with
  | root => exact ⟨rootFound, rfl, rfl, rfl⟩
  | @child names m e hm hmem hdir hdot hdotDot ih =>
      obtain ⟨f, hwalk, hno, hfdir⟩ := ih
      have hlookup : lookup (tree m) e.name = some e := by
        cases hfind : lookup (tree m) e.name with
        | none =>
            have := List.find?_eq_none.1 hfind e hmem
            simp at this
        | some e' =>
            have hname : e'.name = e.name := by
              simpa using List.find?_some (show (tree m).find? _ = some e' from hfind)
            rw [hshape.unique m e' (List.mem_of_find?_eq_some hfind) e hmem hname]
      refine ⟨e.found m, ?_, rfl, if_pos hdir⟩
      rw [walk_append, hwalk, Option.bind_some, walk_cons, nextFound, if_pos hfdir, hno, hlookup]
      rfl

theorem CanonicalPath.isName (hshape : TreeShape tree parent) (h : CanonicalPath tree names d) :
    ∀ name ∈ names, IsName name ∧ slash ∉ name := by
  induction h with
  | root => exact fun _ hname => absurd hname List.not_mem_nil
  | child hm hmem hdir hdot hdotDot ih =>
      intro name hname
      rcases List.mem_append.1 hname with hname | hname
      · exact ih name hname
      · rw [List.mem_singleton.1 hname]
        exact hshape.isName _ _ hmem

/-! ## The tree on the disk -/

/-- The directories form a tree, and the second entry of each leads to its
    parent. -/
structure NamesTree (s : FsState) (dirs : Nat → Option Inode) (parent : Nat → Nat) : Prop where
  shape : TreeShape (treeEntries s.disk dirs) parent
  second : ∀ m ino, dirs m = some ino → ino.iSectors 0 ≠ 0
    ∧ (slotAt s.disk (ino.iSectors 0) 1).name = dotDot
    ∧ (slotAt s.disk (ino.iSectors 0) 1).fType = FileType.directory.toWord

/-- The entries of a directory are its live slots. -/
theorem mem_dirEntries {d : Mem} {ino : Inode} : e ∈ dirEntries d ino ↔
    ∃ k i, k < 140 ∧ blockRef d ino k ≠ 0 ∧ i < slotsPerBlock
      ∧ slotAt d (blockRef d ino k) i = e ∧ e.fType ≠ FileType.unknow.toWord := by
  constructor
  · intro he
    obtain ⟨k, hk, he⟩ := List.mem_flatMap.1 he
    unfold blockEntries at he
    split at he
    · cases he
    · obtain ⟨i, hi, hslot⟩ := List.mem_filterMap.1 he
      unfold slotEntry at hslot
      split at hslot
      · cases hslot
      · obtain rfl := Option.some.inj hslot
        exact ⟨k, i, List.mem_range.1 hk, ‹_›, List.mem_range.1 hi, rfl, ‹_›⟩
  · rintro ⟨k, i, hk, hne, hi, rfl, hlive⟩
    refine List.mem_flatMap.2 ⟨k, List.mem_range.2 hk, ?_⟩
    rw [blockEntries, if_neg hne]
    exact List.mem_filterMap.2 ⟨i, List.mem_range.2 hi, if_neg hlive⟩

/-- A slot of zeros has the number 0. -/
theorem iNo_of_clear {d : Mem} {lba i : Nat}
    (h : ∀ a, a < dirEntryBytes → d (lba * 512 + dirEntryBytes * i + a) = 0) :
    (slotAt d lba i).iNo = 0 := by
  change d.le32 (lba * 512 + dirEntryBytes * i + 16) = 0
  simp only [dirEntryBytes] at h
  rw [← Mem.le32_zero 0]
  refine Mem.le32_congr fun b hb => ?_
  rw [Nat.add_assoc _ 16, h _ (by omega)]
  rfl

variable {s t : FsState} {dirs : Nat → Option Inode} {refs : Nat → Nat} {ino : Inode}

/-- A slot with a number other than 0 is live. -/
theorem DirRep.slot_live (h : DirRep s ino) {k i : Nat} (hk : k < 140)
    (hne : blockRef s.disk ino k ≠ 0) (hi : i < slotsPerBlock)
    (hno : (slotAt s.disk (blockRef s.disk ino k) i).iNo ≠ 0) :
    slotAt s.disk (blockRef s.disk ino k) i ∈ dirEntries s.disk ino := by
  refine mem_dirEntries.2 ⟨k, i, hk, hne, hi, rfl, fun hfree => hno ?_⟩
  exact iNo_of_clear (h.clear k hne hk i hi (if_pos hfree))

theorem DirTree.isDir_of_mem (htree : DirTree s dirs refs)
    (hmem : e ∈ treeEntries s.disk dirs m) (hdir : e.fType = FileType.directory.toWord) :
    dirs m ≠ none ∧ dirs e.iNo ≠ none := by
  cases hm : dirs m with
  | none =>
      rw [treeEntries, hm] at hmem
      cases hmem
  | some ino =>
      rw [treeEntries_some hm] at hmem
      refine ⟨Option.some_ne_none ino, ?_⟩
      rcases htree.entry m ino e hm hmem with ⟨-, hisDir⟩ | ⟨hreg, -⟩
      · exact hisDir
      · rw [hdir] at hreg
        cases hreg

/-- The second entry of a directory. -/
theorem NamesTree.second_entry (htree : DirTree s dirs refs) (hnames : NamesTree s dirs parent)
    (hm : dirs m = some ino) : (slotAt s.disk (ino.iSectors 0) 1).iNo = parent m
      ∧ dirs (parent m) ≠ none := by
  obtain ⟨hne, hname, hdir⟩ := hnames.second m ino hm
  have href : blockRef s.disk ino 0 = ino.iSectors 0 := blockRef_direct (by decide)
  have hmem : slotAt s.disk (ino.iSectors 0) 1 ∈ treeEntries s.disk dirs m := by
    rw [treeEntries_some hm]
    refine mem_dirEntries.2 ⟨0, 1, by decide, by rwa [href], by decide, by rw [href], ?_⟩
    rw [hdir]
    decide
  have hno := hnames.shape.dotDot m _ hmem hname
  exact ⟨hno, hno ▸ (htree.isDir_of_mem hmem hdir).2⟩

/-! ## One step up -/

/-- The climb from `s` has come to `t`, where it holds no node. -/
structure Climbing (s t : FsState) (dirs : Nat → Option Inode) (refs : Nat → Nat) : Prop where
  sees : Sees s t dirs
  counts : RefCounts t refs

/-- A directory of the tree is opened, and closed again. -/
theorem Climbing.inodeOpen (htree : DirTree s dirs refs) (h : Climbing s t dirs refs)
    (hm : dirs m = some ino) : Outcome.Meets (HeapServes s) (Fs.inodeOpen t m) fun r =>
      SameRecord (r.2.inodes r.1) ino ∧ Looks s r.2
        ∧ Climbing s (Fs.inodeClose r.2 r.1) dirs refs := by
  apply (inodeOpen_meets htree h.sees (htree.iNo m ino hm).2).mono
  rintro ⟨p, t'⟩ hopen
  obtain ⟨hsees, hnode⟩ :=
    h.sees.inodeOpen htree h.counts (fun _ => Nat.le_refl _) hm hopen
  have hcounts := h.counts.inodeOpen (htree.room.mono (by decide)) hopen
  exact ⟨hsees.node m ino hm p hnode.opened hnode.iNo, hsees.looks,
    hsees.inodeClose p, hcounts.inodeClose⟩

/-- The parent of a directory of the tree. -/
theorem getParentDirInodeNr_meets (htree : DirTree s dirs refs) (hnames : NamesTree s dirs parent)
    (h : Climbing s t dirs refs) (hm : dirs m ≠ none) :
    Outcome.Meets (HeapServes s) (getParentDirInodeNr t m) fun r =>
      r.1 = parent m ∧ Climbing s r.2 dirs refs := by
  obtain ⟨ino, hino⟩ := dirs_some hm
  obtain ⟨hne, -, hdir⟩ := hnames.second m ino hino
  obtain ⟨hno, hparent⟩ := hnames.second_entry htree hino
  have hused : ino.iSectors 0 ∈ usedBlocks s := by
    have href : blockRef s.disk ino 0 = ino.iSectors 0 := blockRef_direct (by decide)
    rw [← href] at hne ⊢
    exact (htree.rep m ino hino).sound.mem 0 hne
  have hstart := dataStart_le_of_mem hused
  have hle : ino.iSectors 0 ≤ maxLba := by
    have := (htree.rep m ino hino).onDisk 0
    rwa [blockRef_direct (by decide)] at this
  unfold getParentDirInodeNr
  apply (h.inodeOpen htree hino).bind
  rintro ⟨p, t'⟩ ⟨hrec, hlook, hclosed⟩
  have hlba : (t'.inodes p).iSectors 0 = ino.iSectors 0 := hrec.iSectors 0 (by decide)
  dsimp only at hclosed ⊢
  obtain ⟨buf, hread, hbuf⟩ := ideRead_block (s := Fs.inodeClose t' p) hle
  rw [hclosed.sees.looks.disk] at hbuf
  have hiNo : (DirEntry.ofBytes buf (dirEntryBytes * 1)).iNo = parent m := by
    rw [hbuf.iNo (by decide), hno]
  have hassert : parent m < 4096
      ∧ (DirEntry.ofBytes buf (dirEntryBytes * 1)).fType = FileType.directory.toWord := by
    rw [hbuf.fType (by decide), hdir]
    exact ⟨htree.lt hparent, rfl⟩
  rw [hlba, hlook.sb, kassert_pos hstart, Outcome.ok_bind, hread, Outcome.ok_bind, hiNo,
    kassert_pos hassert, Outcome.ok_bind]
  apply Outcome.meets_ok
  dsimp only
  exact ⟨rfl, hclosed⟩

/-- The loop over the blocks stops at a slot with the number, if there is one. -/
theorem childBlocks_spec {all : Nat → Nat} {c : Nat} (left k : Nat) (hall : ∀ j, all j ≤ maxLba)
    (hper : t.dirEntryPerSec = slotsPerBlock) :
    ∃ r, childBlocks t all c left k = .ok r
      ∧ (∀ de, r = some de → ∃ j i, k ≤ j ∧ j < k + left ∧ all j ≠ 0 ∧ i < slotsPerBlock
        ∧ (slotAt t.disk (all j) i).iNo = c ∧ de.entry = slotAt t.disk (all j) i)
      ∧ (r = none → ∀ j i, k ≤ j → j < k + left → all j ≠ 0 → i < slotsPerBlock →
        (slotAt t.disk (all j) i).iNo ≠ c) := by
  induction left generalizing k with
  | zero =>
      refine ⟨none, rfl, fun de h => (by cases h), fun _ j i hlo hhi => ?_⟩
      omega
  | succ left ih =>
      obtain ⟨r, hrest, hsome, hnone⟩ := ih (k + 1)
      rw [childBlocks]
      by_cases hzero : all k = 0
      · rw [if_pos hzero]
        refine ⟨r, hrest, fun de hr => ?_, fun hr j i hlo hhi hj => ?_⟩
        · obtain ⟨j, i, hlo, hhi, hat⟩ := hsome de hr
          exact ⟨j, i, by omega, by omega, hat⟩
        · have hne : j ≠ k := fun h => hj (h ▸ hzero)
          exact hnone hr j i (by omega) (by omega) hj
      · obtain ⟨buf, hread, hbuf⟩ := ideRead_block (s := t) (hall k)
        rw [if_neg hzero, hread, Outcome.ok_bind]
        cases hfound : findIno t buf c with
        | some i =>
            rw [findIno, hper] at hfound
            have hi := List.mem_range.1 (List.mem_of_find?_eq_some hfound)
            have hno := List.find?_some hfound
            rw [hbuf.iNo hi, decide_eq_true_eq] at hno
            refine ⟨_, rfl, fun de hr => ?_, fun hr => (by cases hr)⟩
            cases hr
            exact ⟨k, i, Nat.le_refl _, by omega, hzero, hi, hno, hbuf.entry hi⟩
        | none =>
            refine ⟨r, hrest, fun de hr => ?_, fun hr j i hlo hhi hj hi => ?_⟩
            · obtain ⟨j, i, hlo, hhi, hat⟩ := hsome de hr
              exact ⟨j, i, by omega, by omega, hat⟩
            · by_cases hjk : j = k
              · subst hjk
                rw [findIno, hper, List.find?_eq_none] at hfound
                have hne := hfound i (List.mem_range.2 hi)
                rw [hbuf.iNo hi, decide_eq_true_eq] at hne
                exact hne
              · exact hnone hr j i (by omega) (by omega) hj hi

/-- In its parent only the directory itself has its number, and its name is
    found. -/
theorem getChildDirName_meets {path : List UInt8} (htree : DirTree s dirs refs)
    (hnames : NamesTree s dirs parent) (h : Climbing s t dirs refs)
    (hpath : CanonicalPath (treeEntries s.disk dirs) names m)
    (hmem : e ∈ treeEntries s.disk dirs m) (hdir : e.fType = FileType.directory.toWord)
    (hdot : e.name ≠ dot) (hdotDot : e.name ≠ dotDot)
    (hlen : path.length + 1 + e.name.length < maxPathLen) :
    Outcome.Meets (HeapServes s) (getChildDirName t m e.iNo path) fun r =>
      r.1 = some (path ++ slash :: e.name) ∧ Climbing s r.2 dirs refs := by
  obtain ⟨ino, hino⟩ := dirs_some (htree.isDir_of_mem hmem hdir).1
  have hzero := (hnames.shape.child m e hmem hdir hdot hdotDot).1
  have hrep := htree.rep m ino hino
  -- a slot with the number is the entry of the directory
  have honly : ∀ k i, k < 140 → blockRef s.disk ino k ≠ 0 → i < slotsPerBlock →
      (slotAt s.disk (blockRef s.disk ino k) i).iNo = e.iNo →
      slotAt s.disk (blockRef s.disk ino k) i = e := by
    intro k i hk hne hi hno
    have hlive := hrep.slot_live hk hne hi (hno ▸ hzero)
    rw [← treeEntries_some hino] at hlive
    exact hpath.eq_of_iNo hnames.shape hmem hdir hdot hdotDot hlive hno
  unfold getChildDirName
  apply (h.inodeOpen htree hino).bind
  rintro ⟨p, t'⟩ ⟨hrec, hlook, hclosed⟩
  have href : ∀ j, blockRef t'.disk (t'.inodes p) j = blockRef s.disk ino j := by
    intro j
    rw [hlook.disk, hrec.blockRef_eq]
  have hdisk : ∀ j, blockRef t'.disk (t'.inodes p) j ≤ maxLba := by
    intro j
    rw [href]
    exact hrep.onDisk j
  obtain ⟨all, hall, hallref, hallle⟩ := allBlocks_eq hdisk
  have hper : (Fs.inodeClose t' p).dirEntryPerSec = slotsPerBlock := by
    rw [FsState.dirEntryPerSec, hclosed.sees.looks.sb]
    exact hrep.perSec
  dsimp only at hclosed ⊢
  rw [hall, Outcome.ok_bind, hrec.iSectors 12 (by decide)]
  have hcnt : (if ino.iSectors 12 ≠ 0 then 140 else 12) ≤ 140 := by
    split_ifs <;> decide
  obtain ⟨found, hfound, hsome, hnone⟩ := childBlocks_spec (t := Fs.inodeClose t' p) (c := e.iNo)
    (if ino.iSectors 12 ≠ 0 then 140 else 12) 0 hallle hper
  rw [hclosed.sees.looks.disk] at hsome hnone
  rw [hfound, Outcome.ok_bind]
  cases found with
  | some de =>
      obtain ⟨j, i, -, hj, hne, hi, hno, hde⟩ := hsome de rfl
      have hj : j < 140 := by omega
      rw [hallref j hj, href] at hne hno hde
      have heq : de.entry = e := hde.trans (honly j i hj hne hi hno)
      have hisName := (hnames.shape.isName m e hmem).1
      have happend : appendName path e.name = .ok (path ++ slash :: e.name) :=
        if_pos ⟨hisName.length_lt, hlen⟩
      dsimp only
      rw [heq, happend, Outcome.ok_bind]
      apply Outcome.meets_ok
      dsimp only
      exact ⟨rfl, hclosed⟩
  | none =>
      -- its own slot has the number
      rw [treeEntries_some hino] at hmem
      obtain ⟨k, i, hk, hne, hi, hslot, -⟩ := mem_dirEntries.1 hmem
      have hlt : k < 0 + if ino.iSectors 12 ≠ 0 then 140 else 12 := by
        by_cases htable : ino.iSectors 12 = 0
        · rw [if_neg (not_not.2 htable)]
          by_contra hge
          exact hne (blockRef_noTable (by omega) htable)
        · rw [if_pos htable]
          omega
      have hno := hnone rfl k i (Nat.zero_le k) hlt
      rw [hallref k hk, href, hslot] at hno
      exact absurd rfl (hno hne hi)

/-! ## The climb -/

/-- From a directory up to the root: the names come in the other order. -/
theorem climbLoop_meets {fuel : Nat} {path : List UInt8} (htree : DirTree s dirs refs)
    (hnames : NamesTree s dirs parent)
    (hpath : CanonicalPath (treeEntries s.disk dirs) names d)
    (h : Climbing s t dirs refs) (hfuel : names.length ≤ fuel)
    (hlen : path.length + (joinAll slash names).length < maxPathLen) :
    Outcome.Meets (HeapServes s) (climbLoop fuel d path t) fun r =>
      r.1 = some (path ++ joinAll slash names.reverse) ∧ Climbing s r.2 dirs refs := by
  induction hpath generalizing fuel path t with
  | root =>
      have hroot : climbLoop fuel 0 path t = .ok (some path, t) := by
        cases fuel <;> rw [climbLoop, if_pos rfl]
      rw [hroot]
      apply Outcome.meets_ok
      exact ⟨by rw [List.reverse_nil, joinAll_nil, List.append_nil], h⟩
  | @child names m e hm hmem hdir hdot hdotDot ih =>
      obtain ⟨hzero, hparent⟩ := hnames.shape.child m e hmem hdir hdot hdotDot
      rw [List.length_append, List.length_singleton] at hfuel
      rw [joinAll_append, joinAll_cons, joinAll_nil, List.append_nil, List.length_append,
        List.length_cons] at hlen
      obtain ⟨fuel, rfl⟩ : ∃ n, fuel = n + 1 := ⟨fuel - 1, by omega⟩
      rw [climbLoop, if_neg hzero]
      dsimp only
      apply (getParentDirInodeNr_meets htree hnames h (htree.isDir_of_mem hmem hdir).2).bind
      rintro ⟨m', t₁⟩ ⟨hm', h₁⟩
      obtain rfl : m' = m := hm'.trans hparent
      apply (getChildDirName_meets htree hnames h₁ hm hmem hdir hdot hdotDot (by omega)).bind
      rintro ⟨path', t₂⟩ ⟨hpath', h₂⟩
      dsimp only at hpath' h₂ ⊢
      rw [hpath']
      dsimp only
      apply (ih h₂ (by omega) ?_).mono
      · rintro ⟨r, t₃⟩ ⟨hr, h₃⟩
        refine ⟨hr.trans (congrArg some ?_), h₃⟩
        rw [List.reverse_append, List.reverse_singleton, List.singleton_append, joinAll_cons,
          List.append_assoc, List.cons_append]
      · rw [List.length_append, List.length_cons]
        omega

/-! ## sys_getcwd -/

/-- The path with these names; the root has none. -/
def absolutePath (names : List (List UInt8)) : List UInt8 :=
  if names = [] then [slash] else joinAll slash names

theorem length_joinAll_reverse (names : List (List UInt8)) :
    (joinAll slash names.reverse).length = (joinAll slash names).length :=
  ((List.reverse_perm names).flatMap_right _).length_eq

theorem Climbing.countMalloc (h : Climbing s t dirs refs) : Climbing s t.countMalloc dirs refs :=
  ⟨h.sees.countMalloc, h.counts.countMalloc⟩

theorem DirTree.path_lt (htree : DirTree s dirs refs)
    (hpath : CanonicalPath (treeEntries s.disk dirs) names d) : d < 4096 := by
  cases hpath with
  | root => decide
  | child _ hmem hdir => exact htree.lt (htree.isDir_of_mem hmem hdir).2

/-- `sys_getcwd` writes the path of the working directory, and keeps the tree. -/
theorem sysGetcwd_climbing (htree : DirTree s dirs refs) (hnames : NamesTree s dirs parent)
    (hheap : HeapServes s)
    (hpath : CanonicalPath (treeEntries s.disk dirs) names s.task.cwdInodeNo)
    (h : Climbing s t dirs refs) (hlen : (joinAll slash names).length < maxPathLen)
    (hsize : (absolutePath names).length < size) :
    ∃ t', sysGetcwd t size = .ok (some (absolutePath names), t') ∧ Climbing s t' dirs refs := by
  have hlt := htree.path_lt hpath
  rw [sysGetcwd, (h.sees.heapServes hheap).sysMalloc]
  dsimp only
  rw [FsState.countMalloc_task, h.sees.looks.task, kassert_pos hlt, Outcome.ok_bind]
  cases hnil : names with
  | nil =>
      subst hnil
      have hroot : s.task.cwdInodeNo = 0 := by
        generalize s.task.cwdInodeNo = d at hpath
        generalize hn : ([] : List (List UInt8)) = names at hpath
        cases hpath with
        | root => rfl
        | child => simp at hn
      rw [if_pos hroot, if_pos (show 2 ≤ size from hsize)]
      exact ⟨_, rfl, h.countMalloc⟩
  | cons name rest =>
      have hne : names ≠ [] := by
        rw [hnil]
        exact List.cons_ne_nil _ _
      have hwhole : absolutePath names = joinAll slash names := if_neg hne
      rw [← hnil]
      rw [hwhole] at hsize ⊢
      have hnot : s.task.cwdInodeNo ≠ 0 := by
        intro hzero
        rw [hzero] at hpath
        exact hne (List.length_eq_zero_iff.1 (hpath.length_eq hnames.shape .root))
      have hfuel : names.length ≤ maxPathLen := by
        have := length_le_joinAll names
        omega
      have hbuf : ([] : List UInt8).length + (joinAll slash names).length < maxPathLen := by
        rw [List.length_nil]
        omega
      obtain ⟨⟨r, t₁⟩, hclimb, hr, hclimbed⟩ :=
        (climbLoop_meets htree hnames hpath h.countMalloc hfuel hbuf).exists hheap
      have hslash : ∀ name ∈ names.reverse, slash ∉ name := fun name hname =>
        (hpath.isName hnames.shape name (List.mem_reverse.1 hname)).2
      have hreverse := length_joinAll_reverse names
      have hflip : flipLoop size (joinAll slash names.reverse).length (joinAll slash names.reverse)
          [] = .ok (joinAll slash names) := by
        rw [flipLoop_eq hslash (length_le_joinAll _) (by rw [List.length_nil]; omega),
          List.reverse_reverse, List.nil_append]
      have htask : t₁.task = s.task := hclimbed.sees.looks.task
      dsimp only at hr
      rw [List.nil_append] at hr
      rw [if_neg hnot, hclimb, Outcome.ok_bind]
      dsimp only
      rw [hr]
      dsimp only
      rw [kassert_pos (hreverse ▸ hsize), Outcome.ok_bind, hflip, Outcome.ok_bind,
        sysFree_own (show _ = t₁.task.pgdir.isNone by rw [htask]), Outcome.ok_bind]
      exact ⟨t₁, rfl, hclimbed⟩

theorem sysGetcwd_eq (htree : DirTree s dirs refs) (hnames : NamesTree s dirs parent)
    (hheap : HeapServes s)
    (hpath : CanonicalPath (treeEntries s.disk dirs) names s.task.cwdInodeNo)
    (h : Climbing s t dirs refs) (hlen : (joinAll slash names).length < maxPathLen)
    (hsize : (absolutePath names).length < size) :
    ∃ t', sysGetcwd t size = .ok (some (absolutePath names), t') := by
  obtain ⟨t', hcall, -⟩ := sysGetcwd_climbing htree hnames hheap hpath h hlen hsize
  exact ⟨t', hcall⟩

/-! ## sys_chdir -/

theorem words_absolutePath (hnames : ∀ name ∈ names, IsName name ∧ slash ∉ name) :
    words slash (absolutePath names) = names := by
  unfold absolutePath
  split
  · subst names
    rfl
  · exact words_joinAll fun name hname => ⟨(hnames name hname).1.nonempty, (hnames name hname).2⟩

theorem pathOk_absolutePath (hnames : ∀ name ∈ names, IsName name ∧ slash ∉ name)
    (hlen : (absolutePath names).length < maxPathLen) : PathOk (absolutePath names) := by
  refine ⟨?_, ?_, hlen, ?_⟩
  · cases names with
    | nil => rfl
    | cons name names => rfl
  · unfold absolutePath
    split
    · decide
    · intro hnul
      obtain ⟨name, hname, hmem⟩ := List.mem_flatMap.1 hnul
      rcases List.mem_cons.1 hmem with heq | hmem
      · exact absurd heq (by decide)
      · exact (hnames name hname).1.noNul hmem
  · rw [words_absolutePath hnames]
    exact fun name hname => (hnames name hname).1.length_lt

/-- `search_file` finds the directory under its path. -/
theorem searchFile_absolutePath (htree : DirTree s dirs refs) (hnames : NamesTree s dirs parent)
    (hpath : CanonicalPath (treeEntries s.disk dirs) names d)
    (hlen : (absolutePath names).length < maxPathLen) :
    Outcome.Meets (HeapServes s) (searchFile s (absolutePath names)) fun r =>
      r.1 = some d ∧ r.2.1.fileType = .directory
        ∧ ∃ m, Stands s r.2.2 dirs refs r.2.1.parentDir m := by
  have hisName := hpath.isName hnames.shape
  have hwords := words_absolutePath hisName
  obtain ⟨f, hwalk, rfl, hdir⟩ := hpath.walk hnames.shape
  -- no regular file stands in the way
  have hreach : reach (treeEntries s.disk dirs) rootFound names = some f := by
    have hspec := @reach_spec (treeEntries s.disk dirs) rootFound names rfl
    rw [hspec.1, hwalk]
    intro hthrough
    have hnone := (hspec.2 hthrough).2
    rw [hwalk] at hnone
    cases hnone
  have hroot : absolutePath names = [slash] ∨ words slash (absolutePath names) ≠ [] := by
    rw [hwords]
    by_cases hnil : names = []
    · exact .inl (if_pos hnil)
    · exact .inr hnil
  apply (searchFile_meets htree (pathOk_absolutePath hisName hlen) hroot).mono
  rintro r hreached
  rw [hwords, hreach] at hreached
  obtain ⟨m, hstands, -⟩ := hreached.stands
  exact ⟨hreached.iNo, (hreached.fType f rfl).trans hdir, m, hstands⟩

theorem Looks.setTask (h : Looks s t) (task : Task) : Looks (s.setTask task) (t.setTask task) := by
  refine ⟨?_, h.nextNode, h.node, h.opened⟩
  conv_lhs => rw [h.same]
  rfl

/-- The tree does not depend on the process. -/
theorem DirTree.setTask (h : DirTree s dirs refs) (task : Task) :
    DirTree (s.setTask task) dirs refs where
  layout := ⟨⟨h.layout.table.onDisk, h.layout.table.inPartition⟩, h.layout.bootSector,
    h.layout.blockLen, h.layout.inodeLen, h.layout.blockMap_le, h.layout.inodeMap_lt, h.layout.table_le, h.layout.data_le,
    h.layout.rootBit⟩
  root := h.root
  rep m ino hm := ⟨(h.rep m ino hm).entrySize, (h.rep m ino hm).sound, (h.rep m ino hm).onDisk,
    (h.rep m ino hm).size, (h.rep m ino hm).clear⟩
  iNo := h.iNo
  entry := h.entry
  rootDots := h.rootDots
  counts := h.counts.setTask task
  room := h.room
  distinct := h.distinct
  node := h.node
  rootNode := h.rootNode
  loadsAs := h.loadsAs

theorem NamesTree.setTask (h : NamesTree s dirs parent) (task : Task) :
    NamesTree (s.setTask task) dirs parent :=
  ⟨h.shape, h.second⟩

/-- `sys_chdir` makes the directory the working directory, and keeps the tree. -/
theorem sysChdir_eq (htree : DirTree s dirs refs) (hnames : NamesTree s dirs parent)
    (hheap : HeapServes s) (hpath : CanonicalPath (treeEntries s.disk dirs) names d)
    (hlen : (absolutePath names).length < maxPathLen) :
    ∃ t, sysChdir s (absolutePath names) = .ok (0, t)
      ∧ Climbing (s.setTask { s.task with cwdInodeNo := d }) t dirs refs := by
  obtain ⟨⟨r, record, t⟩, hsearch, hr, hdir, m, hstands⟩ :=
    (searchFile_absolutePath htree hnames hpath hlen).exists hheap
  dsimp only at hr hdir hstands
  have htask := hstands.sees.looks.task
  have hstands' : Stands (s.setTask { s.task with cwdInodeNo := d })
      (t.setTask { s.task with cwdInodeNo := d }) dirs refs record.parentDir m := by
    refine ⟨⟨hstands.opened, hstands.iNo⟩, ⟨hstands.sees.looks.setTask _, hstands.sees.mallocCnt,
      hstands.sees.distinct, hstands.sees.node⟩, hstands.counts.setTask _, fun block hblock => ?_⟩
    rw [hstands.own block hblock, FsState.setTask_task]
  obtain ⟨t', hclose, hsees, hcounts⟩ := hstands'.dirClose.exists hheap
  refine ⟨t', ?_, hsees, hcounts⟩
  rw [sysChdir, hsearch, Outcome.ok_bind]
  dsimp only
  rw [hr]
  dsimp only
  rw [if_pos hdir, htask, hclose, Outcome.ok_bind]

/-! ## Down by names, and up again -/

/-- The path of a directory leads to it, and from there `sys_getcwd` writes the
    path. -/
theorem getcwd_inverts (htree : DirTree s dirs refs) (hnames : NamesTree s dirs parent)
    (hheap : HeapServes s) (hpath : CanonicalPath (treeEntries s.disk dirs) names d)
    (hlen : (absolutePath names).length < maxPathLen)
    (hsize : (absolutePath names).length < size) :
    (∃ record t, searchFile s (absolutePath names) = .ok (some d, record, t))
      ∧ ∃ t, sysChdir s (absolutePath names) = .ok (0, t)
        ∧ ∃ t', sysGetcwd t size = .ok (some (absolutePath names), t') := by
  constructor
  · obtain ⟨⟨r, record, t⟩, hsearch, hr, -⟩ :=
      (searchFile_absolutePath htree hnames hpath hlen).exists hheap
    dsimp only at hr
    subst hr
    exact ⟨record, t, hsearch⟩
  · obtain ⟨t, hchdir, hclimbing⟩ := sysChdir_eq htree hnames hheap hpath hlen
    refine ⟨t, hchdir, ?_⟩
    refine sysGetcwd_eq (htree.setTask _) (hnames.setTask _) hheap ?_ hclimbing ?_ hsize
    · rw [FsState.setTask_task]
      exact hpath
    · unfold absolutePath at hlen
      split at hlen
      · subst names
        decide
      · exact hlen

instance (name : List UInt8) : Decidable (IsName name) :=
  decidable_of_iff (name ≠ [] ∧ name.length < maxFileNameLen ∧ 0 ∉ name)
    ⟨fun h => ⟨h.1, h.2.1, h.2.2⟩, fun h => ⟨h.nonempty, h.length_lt, h.noNul⟩⟩

theorem smallTree_forall {P : Nat → List Entry → Prop}
    (root : P 0 [(shortEntry dot 0 2).entry, (shortEntry dotDot 0 2).entry,
      (shortEntry [97] 1 1).entry, (shortEntry [100] 2 2).entry])
    (dir : P 2 [(shortEntry dot 2 2).entry, (shortEntry dotDot 0 2).entry,
      (shortEntry [102] 3 1).entry])
    (nil : ∀ m, P m []) (m : Nat) : P m (treeEntries smallTreeFs.disk smallTreeDirs m) := by
  cases hm : smallTreeDirs m with
  | none =>
      rw [treeEntries, hm]
      exact nil m
  | some ino =>
      rw [treeEntries_some hm]
      rcases smallTreeDirs_some hm with ⟨rfl, rfl⟩ | ⟨rfl, rfl⟩
      · exact smallTree_root.symm ▸ root
      · exact smallTree_dir.symm ▸ dir

theorem smallTree_namesTree : NamesTree smallTreeFs smallTreeDirs fun _ => 0 where
  shape := by
    have hnil : ∀ {Q : Entry → Prop}, ∀ e ∈ ([] : List Entry), Q e :=
      fun _ he => absurd he List.not_mem_nil
    refine ⟨?_, ?_, ?_, ?_, rfl, ?_, ?_⟩
    · exact smallTree_forall (P := fun _ l => ∀ e ∈ l, IsName e.name ∧ slash ∉ e.name)
        (by decide) (by decide) fun _ => hnil
    · exact smallTree_forall (P := fun _ l => ∀ e ∈ l, ∀ e' ∈ l, e.name = e'.name → e = e')
        (by decide) (by decide) fun _ => hnil
    · exact smallTree_forall (P := fun m l => ∀ e ∈ l, e.name = dot → e.iNo = m)
        (by decide) (by decide) fun _ => hnil
    · exact smallTree_forall (P := fun _ l => ∀ e ∈ l, e.name = dotDot → e.iNo = 0)
        (by decide) (by decide) fun _ => hnil
    · exact smallTree_forall (P := fun m l => ∀ e ∈ l, e.fType = FileType.directory.toWord →
          e.name ≠ dot → e.name ≠ dotDot → e.iNo ≠ 0 ∧ 0 = m)
        (by decide) (by decide) fun _ => hnil
    · exact smallTree_forall (P := fun _ l => ∀ e ∈ l, ∀ e' ∈ l, e.name ≠ dot → e.name ≠ dotDot →
          e'.name ≠ dot → e'.name ≠ dotDot → e.iNo = e'.iNo → e = e')
        (by decide) (by decide) fun _ => hnil
  second m ino h := by
    rcases smallTreeDirs_some h with ⟨-, rfl⟩ | ⟨-, rfl⟩
    · exact ⟨by decide, by decide +kernel, by decide +kernel⟩
    · exact ⟨by decide, by decide +kernel, by decide +kernel⟩

/-- "/d" -/
theorem getcwd_inverts_smallTree :
    (∃ record t, searchFile smallTreeFs [47, 100] = .ok (some 2, record, t))
      ∧ ∃ t, sysChdir smallTreeFs [47, 100] = .ok (0, t)
        ∧ ∃ t', sysGetcwd t 3 = .ok (some [47, 100], t') := by
  have hmem : (shortEntry [100] 2 2).entry ∈ treeEntries smallTreeFs.disk smallTreeDirs 0 := by
    change _ ∈ dirEntries smallTreeDisk _
    rw [smallTree_root]
    decide
  have hpath : CanonicalPath (treeEntries smallTreeFs.disk smallTreeDirs) [[100]] 2 :=
    .child .root hmem (by decide) (by decide) (by decide)
  exact getcwd_inverts smallTree_tree smallTree_namesTree (fun _ _ => rfl) hpath
    (by decide) (by decide)

end Fs
end JackOS
