/-
  JackOS.Fs.Search

  `search_file` against the tree of directories.  `walk` looks the names of a
  path up one after the other, where "." and ".." are entries like any other.
  The loop of `search_file` stops earlier, at the first regular file it meets
  (`reach`); the two agree unless that file stands before the last name.
-/

import JackOS.Fs.PathParse
import JackOS.Fs.Tree

namespace JackOS
namespace Fs

open Base

/-! ## Walking a tree -/

/-- What a path leads to, and the directory in which its last name was looked
    up. -/
structure Found where
  iNo : Nat
  fType : FileType
  parent : Nat
deriving DecidableEq, Repr

/-- The root directory, where every path starts. -/
def rootFound : Found := ⟨0, .directory, 0⟩

/-- What the entry leads to; there are files and directories only. -/
def Entry.found (dir : Nat) (e : Entry) : Found where
  iNo := e.iNo
  fType := if e.fType = FileType.directory.toWord then .directory else .regular
  parent := dir

/-- One name further on; names are looked up in directories only. -/
def nextFound (tree : Nat → List Entry) (f : Found) (name : List UInt8) : Option Found :=
  if f.fType = .directory then (lookup (tree f.iNo) name).map (Entry.found f.iNo) else none

/-- All names, one after the other. -/
def walk (tree : Nat → List Entry) (f : Found) (names : List (List UInt8)) : Option Found :=
  names.foldlM (nextFound tree) f

/-- The object that the whole path names. -/
def resolve (tree : Nat → List Entry) (path : List UInt8) : Option Found :=
  walk tree rootFound (words slash path)

/-- Looks up names until it meets a regular file. -/
def reach (tree : Nat → List Entry) : Found → (names : List (List UInt8)) → Option Found
  | f, [] => some f
  | f, name :: names =>
      (nextFound tree f name).bind fun g => if g.fType = .directory then reach tree g names else some g

/-- A proper prefix of the names leads to a regular file. -/
def ThroughFile (tree : Nat → List Entry) (f : Found) (names : List (List UInt8)) : Prop :=
  ∃ front rest g, names = front ++ rest ∧ rest ≠ [] ∧ walk tree f front = some g
    ∧ g.fType = .regular

variable {tree : Nat → List Entry} {f g : Found} {name : List UInt8} {names : List (List UInt8)}

theorem walk_cons : walk tree f (name :: names) = (nextFound tree f name).bind fun g => walk tree g names :=
  List.foldlM_cons ..

theorem walk_append {front rest : List (List UInt8)} :
    walk tree f (front ++ rest) = (walk tree f front).bind fun g => walk tree g rest :=
  List.foldlM_append ..

theorem Entry.found_type (dir : Nat) (e : Entry) :
    (e.found dir).fType = .directory ∨ (e.found dir).fType = .regular := by
  unfold Entry.found
  dsimp only
  split
  · exact .inl rfl
  · exact .inr rfl

theorem nextFound_type (h : nextFound tree f name = some g) : g.fType = .directory ∨ g.fType = .regular := by
  unfold nextFound at h
  split at h
  · obtain ⟨e, -, rfl⟩ := Option.map_eq_some_iff.1 h
    exact e.found_type f.iNo
  · cases h

/-- Nothing lies behind a regular file. -/
theorem walk_regular (h : f.fType = .regular) (hnames : names ≠ []) : walk tree f names = none := by
  obtain ⟨name, names, rfl⟩ := List.exists_cons_of_ne_nil hnames
  rw [walk_cons, nextFound, if_neg (by rw [h]; decide)]
  rfl

theorem throughFile_cons (h : nextFound tree f name = some g) (hdir : f.fType = .directory) :
    ThroughFile tree f (name :: names)
      ↔ if g.fType = .directory then ThroughFile tree g names else names ≠ [] := by
  constructor
  · rintro ⟨front, rest, k, heq, hrest, hwalk, htype⟩
    cases front with
    | nil =>
        cases hwalk
        rw [hdir] at htype
        cases htype
    | cons _ front =>
        obtain ⟨rfl, rfl⟩ := List.cons.inj heq
        rw [walk_cons, h, Option.bind_some] at hwalk
        split
        · exact ⟨front, rest, k, rfl, hrest, hwalk, htype⟩
        · intro hnil
          exact hrest (List.append_eq_nil_iff.1 hnil).2
  · intro hsplit
    split at hsplit
    · obtain ⟨front, rest, k, rfl, hrest, hwalk, htype⟩ := hsplit
      refine ⟨name :: front, rest, k, rfl, hrest, ?_, htype⟩
      rw [walk_cons, h]
      exact hwalk
    · refine ⟨[name], names, g, rfl, hsplit, ?_, (nextFound_type h).resolve_left ‹_›⟩
      rw [walk_cons, h]
      rfl

/-- The search goes to the end of the path unless a file stands in the way; then
    it gives that file, and the path names nothing. -/
theorem reach_spec (hdir : f.fType = .directory) :
    (¬ ThroughFile tree f names → reach tree f names = walk tree f names)
      ∧ (ThroughFile tree f names → (reach tree f names).isSome ∧ walk tree f names = none) := by
  induction names generalizing f with
  | nil =>
      refine ⟨fun _ => rfl, fun ⟨front, rest, _, heq, hrest, _⟩ => ?_⟩
      exact absurd (List.append_eq_nil_iff.1 heq.symm).2 hrest
  | cons name names ih =>
      rw [reach, walk_cons]
      cases hstep : nextFound tree f name with
      | none =>
          refine ⟨fun _ => rfl, fun ⟨front, rest, g, heq, hrest, hwalk, htype⟩ => ?_⟩
          cases front with
          | nil =>
              cases hwalk
              rw [hdir] at htype
              cases htype
          | cons _ front =>
              obtain ⟨rfl, rfl⟩ := List.cons.inj heq
              rw [walk_cons, hstep] at hwalk
              cases hwalk
      | some g =>
          rw [throughFile_cons hstep hdir, Option.bind_some, Option.bind_some]
          by_cases hg : g.fType = .directory
          · rw [if_pos hg, if_pos hg]
            exact ih hg
          · rw [if_neg hg, if_neg hg]
            have hreg := (nextFound_type hstep).resolve_left hg
            refine ⟨fun hnil => ?_, fun hne => ⟨rfl, walk_regular hreg hne⟩⟩
            rw [not_not.1 hnil]
            rfl

/-! ## Parsing -/

/-- A path is at least as long as its names with a slash before each. -/
theorem length_joinAll_path {path : List UInt8} (h : path.head? = some slash) :
    (joinAll slash (words slash path)).length ≤ path.length := by
  obtain ⟨rest, rfl⟩ := List.head?_eq_some_iff.1 h
  rw [words_sep_cons]
  exact length_joinAll_words slash rest

theorem length_le_joinAll (names : List (List UInt8)) :
    names.length ≤ (joinAll slash names).length := by
  induction names with
  | nil => exact Nat.zero_le _
  | cons name names ih =>
      rw [joinAll_cons, List.length_append]
      simp only [List.length_cons]
      omega

/-! ## The search -/

/-- What a search gives that went from `s` to what `found` says. -/
structure Reached (s : FsState) (dirs : Nat → Option Inode) (refs : Nat → Nat)
    (found : Option Found) (r : Option Nat × PathSearchRecord × FsState) : Prop where
  iNo : r.1 = found.map Found.iNo
  fType : ∀ f, found = some f → r.2.1.fileType = f.fType
  stands : ∃ m, Stands s r.2.2 dirs refs r.2.1.parentDir m ∧ ∀ f, found = some f → f.parent = m

variable {s t : FsState} {dirs : Nat → Option Inode} {refs : Nat → Nat} {dir : Dir}
  {subPath : Option (List UInt8)} {searchedPath : List UInt8}

/-- An entry in a directory of the tree. -/
theorem DirTree.lookup_cases (htree : DirTree s dirs refs) {m : Nat} {e : Entry}
    (h : lookup (treeEntries s.disk dirs m) name = some e) :
    e.fType = FileType.directory.toWord ∧ dirs e.iNo ≠ none
      ∨ e.fType = FileType.regular.toWord ∧ e.iNo < 4096 ∧ dirs e.iNo = none := by
  have hmem := List.mem_of_find?_eq_some h
  cases hm : dirs m with
  | none =>
      rw [treeEntries, hm] at hmem
      cases hmem
  | some ino =>
      rw [treeEntries_some hm] at hmem
      exact htree.entry m ino e hm hmem

theorem DirTree.lt (htree : DirTree s dirs refs) {m : Nat} (h : dirs m ≠ none) : m < 4096 := by
  obtain ⟨ino, hino⟩ := dirs_some h
  exact (htree.iNo m ino hino).2

theorem inodeNoAsInt_of_lt {n : Nat} (h : n < 4096) : inodeNoAsInt n = some n :=
  if_neg (by omega)

/-- Where the loop of `search_file` stands: in directory `f`, which entry `dirE`
    led to. -/
structure Searching (s t : FsState) (dirs : Nat → Option Inode) (refs : Nat → Nat) (dir : Dir)
    (f : Found) (dirE : Option DirEntry) : Prop where
  stands : Stands s t dirs refs dir f.iNo
  directory : f.fType = .directory
  isDir : dirs f.iNo ≠ none
  parentIsDir : dirs f.parent ≠ none
  entry : ∀ de, dirE = some de → de.iNo = f.iNo

/-- At the end of the path the directory is closed and its parent opened. -/
theorem Searching.searchEnd (htree : DirTree s dirs refs) {dirE : Option DirEntry}
    (h : Searching s t dirs refs dir f dirE) (hsome : dirE ≠ none) :
    Outcome.Meets (HeapServes s) (searchEnd dir f.parent dirE searchedPath t)
      (Reached s dirs refs (some f)) := by
  apply h.stands.dirClose.bind
  rintro t₁ ⟨hsees, hcounts⟩
  apply (hsees.dirOpen htree hcounts (fun _ => Nat.le_refl _) (htree.room.mono (by decide))
    h.parentIsDir).bind
  rintro ⟨parentDir, t₂⟩ hstands
  obtain ⟨de, rfl⟩ := Option.ne_none_iff_exists'.1 hsome
  apply Outcome.meets_ok
  refine ⟨?_, fun g hg => ?_, f.parent, hstands, fun g hg => ?_⟩
  · rw [h.entry de rfl, inodeNoAsInt_of_lt (htree.lt h.isDir)]
    rfl
  · cases hg
    exact h.directory.symm
  · cases hg
    rfl

/-- The loop of `search_file` follows `reach`. -/
theorem searchLoop_meets (htree : DirTree s dirs refs) {fuel : Nat} {dirE : Option DirEntry}
    (h : Searching s t dirs refs dir f dirE)
    (hsome : namesLeft name subPath = [] → dirE ≠ none)
    (hnames : ∀ n ∈ namesLeft name subPath, IsName n)
    (hlen : searchedPath.length + (joinAll slash (namesLeft name subPath)).length < maxPathLen)
    (hfuel : (namesLeft name subPath).length ≤ fuel) :
    Outcome.Meets (HeapServes s) (searchLoop fuel name subPath dir f.parent dirE searchedPath t)
      (Reached s dirs refs (reach (treeEntries s.disk dirs) f (namesLeft name subPath))) := by
  induction fuel generalizing name subPath dir f dirE searchedPath t with
  | zero =>
      have hnil : namesLeft name subPath = [] := List.length_eq_zero_iff.1 (by omega)
      have hname : name = [] := by
        by_contra hne
        rw [namesLeft_ne_nil hne] at hnil
        cases hnil
      rw [searchLoop, if_pos hname, hnil]
      exact h.searchEnd htree (hsome hnil)
  | succ fuel ih =>
      by_cases hname : name = []
      · have hnil : namesLeft name subPath = [] := if_pos hname
        rw [searchLoop, if_pos hname, hnil]
        exact h.searchEnd htree (hsome hnil)
      rw [namesLeft_ne_nil hname] at hnames hlen hfuel ⊢
      rw [joinAll_cons, List.length_append] at hlen
      simp only [List.length_cons] at hlen hfuel
      have hisName := hnames name List.mem_cons_self
      rw [searchLoop, if_neg hname]
      -- the name goes behind the path searched so far
      have happend : appendName searchedPath name = .ok (searchedPath ++ slash :: name) :=
        if_pos ⟨hisName.length_lt, by omega⟩
      rw [kassert_pos (by omega), happend, Outcome.ok_bind, Outcome.ok_bind]
      apply (h.stands.searchDirEntry htree h.isDir hisName).bind
      rintro ⟨found, t₁⟩ ⟨hstands, hfound⟩
      have hstep : nextFound (treeEntries s.disk dirs) f name
          = (found.map DirEntry.entry).map (Entry.found f.iNo) := by
        rw [nextFound, if_pos h.directory, hfound]
      rw [reach, hstep]
      dsimp only at hstands hfound ⊢
      cases found with
      | none =>
          apply Outcome.meets_ok
          exact ⟨rfl, fun _ hg => (by cases hg), f.iNo, hstands, fun _ hg => (by cases hg)⟩
      | some de =>
          apply (parseNext_meets fun n hn => (hnames n (List.mem_cons_of_mem _ hn)).length_lt).bind
          rintro ⟨name', subPath'⟩ hleft
          dsimp only at hleft ⊢
          rw [← hleft] at hnames hlen hfuel ⊢
          rw [Option.map_some, Option.map_some, Option.bind_some]
          rcases htree.lookup_cases (hfound.symm) with ⟨hdir, hisDir⟩ | ⟨hreg, hlt, -⟩
          · -- a directory: its parent is closed, and the search goes on in it
            have hdir : de.fType = FileType.directory.toWord := hdir
            have hisDir : dirs de.iNo ≠ none := hisDir
            have hfType : (de.entry.found f.iNo).fType = .directory := if_pos hdir
            rw [if_pos hdir, if_pos hfType, hstands.iNo]
            apply hstands.dirClose.bind
            rintro t₂ ⟨hsees, hcounts⟩
            apply (hsees.dirOpen htree hcounts (fun _ => Nat.le_refl _)
              (htree.room.mono (by decide)) hisDir).bind
            rintro ⟨dir', t₃⟩ hstands'
            refine ih (f := de.entry.found f.iNo) ⟨hstands', hfType, hisDir, h.isDir, ?_⟩
              (fun _ => Option.some_ne_none de) (fun n hn => hnames n (List.mem_cons_of_mem _ hn))
              ?_ (by omega)
            · intro de' hde'
              cases hde'
              rfl
            · rw [List.length_append, List.length_cons]
              omega
          · -- a regular file: the search ends here
            have hreg : de.fType = FileType.regular.toWord := hreg
            have hnot : ¬ de.fType = FileType.directory.toWord := by
              rw [hreg]
              decide
            have hfType : (de.entry.found f.iNo).fType = .regular := if_neg hnot
            rw [if_neg hnot, if_pos hreg, if_neg (by rw [hfType]; decide)]
            apply Outcome.meets_ok
            refine ⟨?_, fun g hg => ?_, f.iNo, hstands, fun g hg => ?_⟩
            · have hlt : de.iNo < 4096 := hlt
              rw [inodeNoAsInt_of_lt hlt]
              rfl
            · cases hg
              exact hfType.symm
            · cases hg
              rfl

/-! ## search_file -/

/-- An absolute path of fewer than 512 bytes, in which no name has more than
    fifteen characters. -/
structure PathOk (path : List UInt8) : Prop where
  absolute : path.head? = some slash
  noNul : 0 ∉ path
  length_lt : path.length < maxPathLen
  names : ∀ name ∈ words slash path, name.length < maxFileNameLen

variable {path : List UInt8}

theorem PathOk.isName (h : PathOk path) : ∀ name ∈ words slash path, IsName name := by
  intro name hname
  obtain ⟨hne, -, hmem⟩ := mem_words hname
  exact ⟨hne, h.names name hname, fun hnul => h.noNul (hmem 0 hnul)⟩

theorem isRootPath_iff : isRootPath path = true
    ↔ path = [slash] ∨ path = slash :: dot ∨ path = slash :: dotDot := by
  simp only [isRootPath, Bool.or_eq_true, beq_iff_eq, or_assoc]

/-- "." and ".." of the root lead to the root. -/
theorem DirTree.reach_dots (htree : DirTree s dirs refs) (hname : name = dot ∨ name = dotDot) :
    reach (treeEntries s.disk dirs) rootFound [name] = some rootFound := by
  obtain ⟨e, hlookup, hiNo⟩ := htree.rootDots name hname
  have hdir : e.fType = FileType.directory.toWord := by
    rcases htree.lookup_cases hlookup with ⟨hdir, -⟩ | ⟨-, -, hnone⟩
    · exact hdir
    · rw [hiNo] at hnone
      exact absurd hnone htree.root
  have hfound : e.found 0 = rootFound := by
    rw [Entry.found, hiNo, if_pos hdir]
    rfl
  have hstep : nextFound (treeEntries s.disk dirs) rootFound name = some rootFound := by
    rw [nextFound, if_pos (show rootFound.fType = .directory from rfl)]
    change (lookup (treeEntries s.disk dirs 0) name).map (Entry.found 0) = some rootFound
    rw [hlookup, Option.map_some, hfound]
  rw [reach, hstep]
  rfl

/-- `search_file` follows `reach`, when the path is "/" or has a name. -/
theorem searchFile_meets (htree : DirTree s dirs refs) (hpath : PathOk path)
    (hnames : path = [slash] ∨ words slash path ≠ []) :
    Outcome.Meets (HeapServes s) (searchFile s path)
      (Reached s dirs refs
        (reach (treeEntries s.disk dirs) rootFound (words slash path))) := by
  by_cases hroot : isRootPath path = true
  · rw [searchFile, if_pos hroot]
    apply Outcome.meets_ok
    have hreach : reach (treeEntries s.disk dirs) rootFound (words slash path)
        = some rootFound := by
      rcases isRootPath_iff.1 hroot with rfl | rfl | rfl
      · rfl
      · exact htree.reach_dots (.inl rfl)
      · exact htree.reach_dots (.inr rfl)
    rw [hreach]
    refine ⟨rfl, fun f hf => ?_, 0, htree.stands, fun f hf => ?_⟩
    · cases hf
      rfl
    · cases hf
      rfl
  · rw [searchFile, if_neg hroot]
    have hne : words slash path ≠ [] := hnames.resolve_left fun hslash =>
      hroot (isRootPath_iff.2 (.inl hslash))
    have hlong : 1 < path.length := by
      obtain ⟨rest, rfl⟩ := List.head?_eq_some_iff.1 hpath.absolute
      cases rest with
      | nil => exact absurd rfl hne
      | cons c rest => simp
    rw [kassert_pos ⟨hpath.absolute, hlong, hpath.length_lt⟩, Outcome.ok_bind]
    have hparse : Outcome.Meets (HeapServes s) (parseNext (some path))
        (fun r => namesLeft r.1 r.2 = words slash path) :=
      @parseNext_meets _ (some path) hpath.names
    apply hparse.bind
    rintro ⟨name, subPath⟩ hleft
    dsimp only at hleft ⊢
    have hleft : namesLeft name subPath = words slash path := hleft
    have hstart : Searching s s dirs refs s.rootDir rootFound none :=
      ⟨htree.stands, rfl, htree.root, htree.root, fun _ hde => (by cases hde)⟩
    have hjoin := length_joinAll_path hpath.absolute
    have hcount := length_le_joinAll (words slash path)
    have hlt := hpath.length_lt
    rw [← hleft] at hne hjoin hcount ⊢
    refine searchLoop_meets htree hstart (fun hnil => absurd hnil hne) ?_ ?_ (by omega)
    · rw [hleft]
      exact hpath.isName
    · rw [List.length_nil]
      omega

/-! ## Exact resolution -/

/-- `search_file` gives the object that the whole path names, its type and the
    directory in which its last name was looked up, or -1 if there is none. -/
def SearchExact (s : FsState) (dirs : Nat → Option Inode) (path : List UInt8) : Prop :=
  ∃ r record s', searchFile s path = .ok (r, record, s')
    ∧ r = (resolve (treeEntries s.disk dirs) path).map Found.iNo
    ∧ ∀ f, resolve (treeEntries s.disk dirs) path = some f →
      record.fileType = f.fType ∧ NodeOf s' record.parentDir.inode f.parent

/-- What the calls that look a path up go on with is what the path names. -/
structure ActsOnNamed (s : FsState) (dirs : Nat → Option Inode) (path : List UInt8) : Prop where
  unlink : ∀ s', sysUnlink s path = .ok (0, s') →
    ∃ f parentDir t, resolve (treeEntries s.disk dirs) path = some f ∧ f.fType = .regular
      ∧ NodeOf t parentDir.inode f.parent ∧ unlinkFile parentDir f.iNo t = .ok (0, s')
  stat : ∀ buf buf' s', sysStat s path buf = .ok (0, buf', s') →
    ∃ f p t t', resolve (treeEntries s.disk dirs) path = some f
      ∧ inodeOpen t f.iNo = .ok (p, t') ∧ buf' = ⟨f.iNo, (t'.inodes p).iSize, f.fType⟩
  chdir : ∀ s', sysChdir s path = .ok (0, s') →
    ∃ f, resolve (treeEntries s.disk dirs) path = some f ∧ f.fType = .directory
      ∧ s'.task.cwdInodeNo = f.iNo
  rmdir : ∀ s', sysRmdir s path = .ok (0, s') →
    ∃ f parentDir dir t, resolve (treeEntries s.disk dirs) path = some f ∧ f.fType = .directory
      ∧ NodeOf t dir.inode f.iNo ∧ NodeOf t parentDir.inode f.parent
      ∧ rmdirOpened parentDir dir t = .ok (0, s')

/-- The search gave the object that the path names. -/
theorem Reached.found {r : Option Nat} {record : PathSearchRecord} {s' : FsState} {n : Nat}
    {found : Option Found} (h : Reached s dirs refs found (r, record, s')) (hr : r = some n) :
    ∃ f, found = some f ∧ f.iNo = n ∧ record.fileType = f.fType
      ∧ Stands s s' dirs refs record.parentDir f.parent := by
  have hno := h.iNo
  dsimp only at hno
  rw [hr] at hno
  obtain ⟨f, hf, rfl⟩ := Option.map_eq_some_iff.1 hno.symm
  obtain ⟨m, hstands, hm⟩ := h.stands
  exact ⟨f, hf, rfl, h.fType f hf, hm f hf ▸ hstands⟩

theorem refuse_ne {record : PathSearchRecord} {s' : FsState} : refuse s record ≠ .ok (0, s') := by
  intro h
  obtain ⟨_, -, h⟩ := Outcome.bind_eq_ok.1 h
  cases h

theorem walk_type {f g : Found} (hdir : f.fType = .directory ∨ f.fType = .regular)
    (h : walk tree f names = some g) : g.fType = .directory ∨ g.fType = .regular := by
  induction names generalizing f with
  | nil =>
      cases h
      exact hdir
  | cons name names ih =>
      rw [walk_cons] at h
      obtain ⟨k, hk, hwalk⟩ := Option.bind_eq_some_iff.1 h
      exact ih (nextFound_type hk) hwalk

theorem resolve_type (h : resolve tree path = some f) :
    f.fType = .directory ∨ f.fType = .regular :=
  walk_type (.inl rfl) h

/-- Directories that the path names are directories of the tree. -/
theorem DirTree.resolve_isDir (htree : DirTree s dirs refs)
    (h : resolve (treeEntries s.disk dirs) path = some f) (hdir : f.fType = .directory) :
    dirs f.iNo ≠ none := by
  have hwalk : ∀ names g, (g.fType = .directory → dirs g.iNo ≠ none) →
      walk (treeEntries s.disk dirs) g names = some f → dirs f.iNo ≠ none := by
    intro names
    induction names with
    | nil =>
        intro g hg hwalk
        cases hwalk
        exact hg hdir
    | cons name names ih =>
        intro g hg hwalk
        rw [walk_cons] at hwalk
        obtain ⟨k, hk, hwalk⟩ := Option.bind_eq_some_iff.1 hwalk
        refine ih k (fun hkdir => ?_) hwalk
        unfold nextFound at hk
        split at hk
        · obtain ⟨e, he, rfl⟩ := Option.map_eq_some_iff.1 hk
          rcases htree.lookup_cases he with ⟨-, hisDir⟩ | ⟨hreg, -⟩
          · exact hisDir
          · rw [Entry.found, hreg] at hkdir
            cases hkdir
        · cases hk
  exact hwalk _ rootFound (fun _ => htree.root) h

/-- A directory that is held stays open. -/
theorem Stands.stays {m : Nat} {t' : FsState} {held : Nat → Nat}
    (h : Stands s t dirs refs dir m) (hcounts : RefCounts t' held)
    (hle : ∀ p, dirHeld refs dir p ≤ held p) (hlook : Looks t t') : NodeOf t' dir.inode m := by
  have hpos := (h.counts.held dir.inode).1 h.opened
  refine ⟨(hcounts.held dir.inode).2 (Nat.lt_of_lt_of_le hpos (hle dir.inode)), ?_⟩
  rw [hlook.node dir.inode (h.counts.lt _ h.opened)]
  exact h.iNo

/-- Where the search is exact the calls act on what it gives. -/
theorem actsOnNamed_of_meets (htree : DirTree s dirs refs)
    (h : Outcome.Meets (HeapServes s) (searchFile s path)
      (Reached s dirs refs (resolve (treeEntries s.disk dirs) path))) :
    ActsOnNamed s dirs path where
  unlink s' hcall := by
    obtain ⟨_, -, hcall⟩ := Outcome.bind_eq_ok.1 hcall
    obtain ⟨⟨r, record, t⟩, hsearch, hcall⟩ := Outcome.bind_eq_ok.1 hcall
    obtain ⟨_, -, hcall⟩ := Outcome.bind_eq_ok.1 hcall
    cases r with
    | none => exact absurd hcall refuse_ne
    | some n =>
        obtain ⟨f, hf, rfl, htype, hstands⟩ := (h.post _ hsearch).found rfl
        dsimp only at hcall
        by_cases hdir : record.fileType = .directory
        · rw [if_pos hdir] at hcall
          exact absurd hcall refuse_ne
        · rw [if_neg hdir] at hcall
          rw [htype] at hdir
          exact ⟨f, record.parentDir, t, hf, (resolve_type hf).resolve_left hdir,
            hstands.toNodeOf, hcall⟩
  stat buf buf' s' hcall := by
    obtain ⟨⟨r, record, t⟩, hsearch, hcall⟩ := Outcome.bind_eq_ok.1 hcall
    cases r with
    | none =>
        obtain ⟨_, -, hcall⟩ := Outcome.bind_eq_ok.1 hcall
        cases hcall
    | some n =>
        obtain ⟨f, hf, rfl, htype, hstands⟩ := (h.post _ hsearch).found rfl
        obtain ⟨⟨p, t'⟩, hopen, hcall⟩ := Outcome.bind_eq_ok.1 hcall
        obtain ⟨_, -, hcall⟩ := Outcome.bind_eq_ok.1 hcall
        cases hcall
        exact ⟨f, p, t, t', hf, hopen, by rw [← htype]⟩
  chdir s' hcall := by
    obtain ⟨⟨r, record, t⟩, hsearch, hcall⟩ := Outcome.bind_eq_ok.1 hcall
    cases r with
    | none => exact absurd hcall refuse_ne
    | some n =>
        obtain ⟨f, hf, rfl, htype, hstands⟩ := (h.post _ hsearch).found rfl
        dsimp only at hcall
        by_cases hdir : record.fileType = .directory
        · rw [if_pos hdir] at hcall
          obtain ⟨t', hclose, hcall⟩ := Outcome.bind_eq_ok.1 hcall
          cases hcall
          refine ⟨f, hf, htype ▸ hdir, ?_⟩
          rw [(dirClose_looks hclose).task]
          change (Function.update t.procs t.cur _ t.cur).cwdInodeNo = f.iNo
          rw [Function.update_self]
        · rw [if_neg hdir] at hcall
          exact absurd hcall refuse_ne
  rmdir s' hcall := by
    obtain ⟨⟨r, record, t⟩, hsearch, hcall⟩ := Outcome.bind_eq_ok.1 hcall
    obtain ⟨_, -, hcall⟩ := Outcome.bind_eq_ok.1 hcall
    cases r with
    | none =>
        obtain ⟨_, -, hcall⟩ := Outcome.bind_eq_ok.1 hcall
        exact absurd hcall refuse_ne
    | some n =>
        obtain ⟨f, hf, rfl, htype, hstands⟩ := (h.post _ hsearch).found rfl
        dsimp only at hcall
        by_cases hreg : record.fileType = .regular
        · rw [if_pos hreg] at hcall
          exact absurd hcall refuse_ne
        · rw [if_neg hreg] at hcall
          obtain ⟨⟨dir, t'⟩, hopen, hcall⟩ := Outcome.bind_eq_ok.1 hcall
          rw [htype] at hreg
          have hdir := (resolve_type hf).resolve_right hreg
          have hopened := (hstands.sees.dirOpen htree hstands.counts (le_dirHeld refs _)
            (htree.room.dirHeld _ |>.mono (by decide)) (htree.resolve_isDir hf hdir)).post _ hopen
          exact ⟨f, record.parentDir, dir, t', hf, hdir, hopened.toNodeOf,
            hstands.stays hopened.counts (le_dirHeld _ dir) (dirOpen_spec hopen).1, hcall⟩

/-- A path of slashes only is left without a directory entry. -/
theorem searchFile_slashes (hpath : PathOk path) (hslash : path ≠ [slash])
    (hnil : words slash path = []) {r : Option Nat × PathSearchRecord × FsState} :
    searchFile s path ≠ .ok r := by
  intro h
  have hroot : ¬ isRootPath path = true := by
    rw [isRootPath_iff]
    rintro (rfl | rfl | rfl)
    · exact hslash rfl
    · cases hnil
    · cases hnil
  rw [searchFile, if_neg hroot] at h
  obtain ⟨_, -, h⟩ := Outcome.bind_eq_ok.1 h
  obtain ⟨⟨name, subPath⟩, hparse, h⟩ := Outcome.bind_eq_ok.1 h
  have hmeets : Outcome.Meets True (parseNext (some path))
      (fun r => namesLeft r.1 r.2 = words slash path) :=
    @parseNext_meets _ (some path) hpath.names
  have hleft := hmeets.post _ hparse
  have hname : name = [] := by
    by_contra hne
    dsimp only at hleft
    rw [namesLeft_ne_nil hne] at hleft
    change _ = words slash path at hleft
    rw [hnil] at hleft
    cases hleft
  dsimp only at h
  rw [searchLoop, if_pos hname] at h
  obtain ⟨_, -, h⟩ := Outcome.bind_eq_ok.1 h
  obtain ⟨_, -, h⟩ := Outcome.bind_eq_ok.1 h
  cases h

end Fs
end JackOS
