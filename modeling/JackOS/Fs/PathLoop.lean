/-
  JackOS.Fs.PathLoop

  The loop around `path_parse` that `path_depth_cnt`, `search_file` and
  `wash_path` share: zero the name, parse into it, go on from the path that was
  returned, and stop at an empty name.  It visits the words of the path, and each
  of the three is what it does with one name, taken over the list of the names.
-/

import JackOS.Shell.WashPath

namespace JackOS
namespace Fs

open Base Shell

/-! ## The loop -/

/-- `while (name[0])`, at most `fuel` rounds: the arrays `name` that are
    visited. -/
def namesLoop : (fuel : Nat) → (subPath : Option Buf) → (name : Buf) → Outcome (List Buf)
  | fuel, subPath, name => do
      let c ← name.load 0
      if c = 0 then .ok []
      else
        match fuel with
        | 0 => .error .diverges
        | fuel + 1 => do
            let cleared ← memset name 0 0 maxFileNameLen
            let (subPath, next) ← parseNextBytes subPath cleared
            let names ← namesLoop fuel subPath next
            .ok (name :: names)

/-- The names of a path, from its start. -/
def visitNames (pathname : Buf) : Outcome (List Buf) := do
  let (subPath, name) ← pathParseBytes pathname (List.replicate maxFileNameLen 0)
  namesLoop pathname.length subPath name

/-- The loop of `path_depth_cnt`, at most `fuel` rounds. -/
def depthLoopBytes : (fuel depth : Nat) → (name : Buf) → (p : Option Buf) → Outcome Nat
  | fuel, depth, name, p => do
      let c ← name.load 0
      if c = 0 then .ok depth
      else
        match fuel with
        | 0 => .error .diverges
        | fuel + 1 => do
            let name ← memset name 0 0 maxFileNameLen
            let (p, name) ← parseNextBytes p name
            depthLoopBytes fuel (depth + 1) name p

/-- `path_depth_cnt`, with what its array happens to hold. -/
def pathDepthCntBytes (pathname name : Buf) : Outcome Nat := do
  let (p, name) ← pathParseBytes pathname name
  depthLoopBytes pathname.length 0 name p

variable {b name : Buf} {path : List UInt8} {names : List (List UInt8)} {sub : Option Buf}

/-- The loop visits the names that are left. -/
theorem namesLoop_words (fuel : Nat) (hparsed : ParsedTo sub name names)
    (hnames : ∀ w ∈ names, w ≠ [] ∧ w.length < maxFileNameLen) (hfuel : names.length ≤ fuel) :
    ∃ arrays, namesLoop fuel sub name = .ok arrays ∧ List.Forall₂ CString arrays names := by
  induction names generalizing fuel sub name with
  | nil =>
      obtain ⟨c, hload, hc⟩ := hparsed.string.load_zero
      refine ⟨[], ?_, .nil⟩
      unfold namesLoop
      rw [hload]
      exact if_pos (hc.2 rfl)
  | cons w names ih =>
      obtain ⟨c, hload, hc⟩ := hparsed.string.load_zero
      have htail := fun v hv => hnames v (List.mem_cons_of_mem w hv)
      cases fuel with
      | zero => cases hfuel
      | succ fuel =>
          obtain ⟨sub', name', hnext, hparsed'⟩ := hparsed.next fun v hv => (htail v hv).2
          obtain ⟨arrays, hloop, hall⟩ := ih fuel hparsed' htail (Nat.le_of_succ_le_succ hfuel)
          refine ⟨name :: arrays, ?_, .cons hparsed.string hall⟩
          have hzero := memset_all name 0
          rw [hparsed.length] at hzero
          rw [namesLoop, hload, Outcome.ok_bind,
            if_neg (mt hc.1 (hnames w List.mem_cons_self).1), hzero, Outcome.ok_bind, hnext,
            Outcome.ok_bind]
          dsimp only
          rw [hloop, Outcome.ok_bind]

/-- What a loop that goes on has found in its array. -/
theorem namesLoop_cons {fuel : Nat} {arrays : List Buf} (h : namesLoop fuel sub name = .ok arrays) :
    (name.load 0 = .ok 0 ∧ arrays = [])
    ∨ ∃ c fuel' cleared sub' name' arrays', name.load 0 = .ok c ∧ c ≠ 0 ∧ fuel = fuel' + 1
      ∧ memset name 0 0 maxFileNameLen = .ok cleared
      ∧ parseNextBytes sub cleared = .ok (sub', name')
      ∧ namesLoop fuel' sub' name' = .ok arrays' ∧ arrays = name :: arrays' := by
  unfold namesLoop at h
  obtain ⟨c, hload, h⟩ := Outcome.bind_eq_ok.1 h
  split at h
  · cases h
    exact .inl ⟨by rw [hload, ‹c = 0›], rfl⟩
  · cases fuel with
    | zero => cases h
    | succ fuel =>
        obtain ⟨cleared, hzero, h⟩ := Outcome.bind_eq_ok.1 h
        obtain ⟨⟨sub', name'⟩, hnext, h⟩ := Outcome.bind_eq_ok.1 h
        obtain ⟨arrays', hloop, h⟩ := Outcome.bind_eq_ok.1 h
        cases h
        exact .inr ⟨c, fuel, cleared, sub', name', arrays', hload, ‹_›, rfl, hzero, hnext, hloop, rfl⟩

/-- `path_depth_cnt` counts what the loop visits. -/
theorem depthLoopBytes_eq {fuel depth : Nat} {arrays : List Buf}
    (h : namesLoop fuel sub name = .ok arrays) :
    depthLoopBytes fuel depth name sub = .ok (depth + arrays.length) := by
  induction fuel generalizing sub name depth arrays with
  | zero =>
      rcases namesLoop_cons h with ⟨hload, rfl⟩ | ⟨_, fuel', _, _, _, _, -, -, hfuel, -⟩
      · rw [depthLoopBytes, hload]
        rfl
      · cases hfuel
  | succ fuel ih =>
      rcases namesLoop_cons h with ⟨hload, rfl⟩
        | ⟨c, fuel', cleared, sub', name', arrays', hload, hc, hfuel, hzero, hnext, hloop, rfl⟩
      · rw [depthLoopBytes, hload]
        rfl
      · cases hfuel
        rw [depthLoopBytes, hload, Outcome.ok_bind, if_neg hc, hzero, Outcome.ok_bind, hnext,
          Outcome.ok_bind]
        dsimp only
        rw [ih hloop, List.length_cons]
        congr 1
        omega

/-- `wash_path` takes the names one after the other. -/
theorem washLoop_eq {fuel : Nat} {arrays : List Buf} (h : namesLoop fuel sub name = .ok arrays)
    (newAbsPath : Buf) : washLoop fuel sub name newAbsPath = arrays.foldlM washName newAbsPath := by
  induction fuel generalizing sub name newAbsPath arrays with
  | zero =>
      rcases namesLoop_cons h with ⟨hload, rfl⟩ | ⟨_, fuel', _, _, _, _, -, -, hfuel, -⟩
      · rw [washLoop, hload]
        rfl
      · cases hfuel
  | succ fuel ih =>
      rcases namesLoop_cons h with ⟨hload, rfl⟩
        | ⟨c, fuel', cleared, sub', name', arrays', hload, hc, hfuel, hzero, hnext, hloop, rfl⟩
      · rw [washLoop, hload]
        rfl
      · cases hfuel
        rw [washLoop, hload, Outcome.ok_bind, if_neg hc, List.foldlM_cons]
        congr 1
        funext newAbsPath'
        rw [hzero, Outcome.ok_bind, hnext, Outcome.ok_bind]
        exact ih hloop newAbsPath'

/-! ## Paths as lists -/

/-- `search_file` over a list of names: what it does with each. -/
def searchNames : (names : List (List UInt8)) → (parentDir : Dir) → (parentInodeNo : Nat) →
    (dirE : Option DirEntry) → (searchedPath : List UInt8) → FsState →
    Outcome (Option Nat × PathSearchRecord × FsState)
  | [], parentDir, parentInodeNo, dirE, searchedPath, s =>
      searchEnd parentDir parentInodeNo dirE searchedPath s
  | name :: names, parentDir, parentInodeNo, _, searchedPath, s => do
      kassert s (searchedPath.length < maxPathLen)
      let searchedPath ← appendName searchedPath name
      let (found, s) ← searchDirEntry s parentDir.inode name
      match found with
      | none => .ok (none, ⟨searchedPath, parentDir, .unknow⟩, s)
      | some de =>
          if de.fType = FileType.directory.toWord then
            let parentInodeNo := (s.inodes parentDir.inode).iNo
            let s ← dirClose s parentDir
            let (parentDir, s) ← dirOpen s de.iNo
            searchNames names parentDir parentInodeNo (some de) searchedPath s
          else if de.fType = FileType.regular.toWord then
            .ok (inodeNoAsInt de.iNo, ⟨searchedPath, parentDir, .regular⟩, s)
          else searchNames names parentDir parentInodeNo (some de) searchedPath s

theorem parseNext_eq {subPath : Option (List UInt8)}
    (h : ∀ name ∈ (subPath.map (words slash)).getD [], name.length < maxFileNameLen) :
    ∃ name subPath', parseNext subPath = .ok (name, subPath')
      ∧ namesLeft name subPath' = (subPath.map (words slash)).getD [] := by
  have hmeets : Outcome.Meets True (parseNext subPath) fun r =>
      namesLeft r.1 r.2 = (subPath.map (words slash)).getD [] := parseNext_meets h
  obtain ⟨⟨name, subPath'⟩, hrun, hleft⟩ := hmeets.exists trivial
  exact ⟨name, subPath', hrun, hleft⟩

theorem depthLoop_eq {fuel depth : Nat} {name : List UInt8} {subPath : Option (List UInt8)}
    (hnames : ∀ w ∈ namesLeft name subPath, w.length < maxFileNameLen)
    (hfuel : (namesLeft name subPath).length ≤ fuel) :
    depthLoop fuel depth name subPath = .ok (depth + (namesLeft name subPath).length) := by
  induction fuel generalizing depth name subPath with
  | zero =>
      have hnil : name = [] := by
        by_contra hne
        rw [namesLeft_ne_nil hne] at hfuel
        cases hfuel
      rw [depthLoop, if_pos hnil, namesLeft, if_pos hnil]
      rfl
  | succ fuel ih =>
      by_cases hnil : name = []
      · rw [depthLoop, if_pos hnil, namesLeft, if_pos hnil]
        rfl
      · rw [namesLeft_ne_nil hnil] at hnames hfuel ⊢
        obtain ⟨name', subPath', hnext, hleft⟩ := parseNext_eq fun w hw =>
          hnames w (List.mem_cons_of_mem _ hw)
        rw [← hleft] at hnames hfuel ⊢
        rw [depthLoop, if_neg hnil, hnext, Outcome.ok_bind]
        dsimp only
        rw [ih (fun w hw => hnames w (List.mem_cons_of_mem _ hw)) (Nat.le_of_succ_le_succ hfuel),
          List.length_cons]
        congr 1
        omega

/-- `search_file` takes the names one after the other. -/
theorem searchLoop_eq {fuel : Nat} {name : List UInt8} {subPath : Option (List UInt8)}
    (hnames : ∀ w ∈ namesLeft name subPath, w.length < maxFileNameLen)
    (hfuel : (namesLeft name subPath).length ≤ fuel) (parentDir : Dir) (parentInodeNo : Nat)
    (dirE : Option DirEntry) (searchedPath : List UInt8) (s : FsState) :
    searchLoop fuel name subPath parentDir parentInodeNo dirE searchedPath s
      = searchNames (namesLeft name subPath) parentDir parentInodeNo dirE searchedPath s := by
  induction fuel generalizing name subPath parentDir parentInodeNo dirE searchedPath s with
  | zero =>
      have hnil : name = [] := by
        by_contra hne
        rw [namesLeft_ne_nil hne] at hfuel
        cases hfuel
      rw [searchLoop, if_pos hnil, namesLeft, if_pos hnil, searchNames]
  | succ fuel ih =>
      by_cases hnil : name = []
      · rw [searchLoop, if_pos hnil, namesLeft, if_pos hnil, searchNames]
      · rw [namesLeft_ne_nil hnil] at hnames hfuel ⊢
        obtain ⟨name', subPath', hnext, hleft⟩ := parseNext_eq fun w hw =>
          hnames w (List.mem_cons_of_mem _ hw)
        rw [← hleft] at hnames hfuel ⊢
        have ih := @ih name' subPath' (fun w hw => hnames w (List.mem_cons_of_mem _ hw))
          (Nat.le_of_succ_le_succ hfuel)
        rw [searchLoop, if_neg hnil, searchNames]
        apply bind_congr
        intro _
        apply bind_congr
        intro searchedPath
        apply bind_congr
        rintro ⟨_ | de, s⟩
        · rfl
        · simp only [hnext, Outcome.ok_bind, ih]

/-! ## All names of a path -/

theorem length_words_le_buf (h : CString b path) : (words slash path).length ≤ b.length := by
  have hle := length_words_le path
  have hlt := h.length_lt
  omega

theorem visitNames_words (h : CString b path)
    (hnames : ∀ name ∈ words slash path, name.length < maxFileNameLen) :
    ∃ sub name arrays, pathParseBytes b (List.replicate maxFileNameLen 0) = .ok (sub, name)
      ∧ ParsedTo sub name (words slash path) ∧ namesLoop b.length sub name = .ok arrays
      ∧ List.Forall₂ CString arrays (words slash path) := by
  obtain ⟨sub, name, hparse, hparsed⟩ := parsedTo_of_pathParse h hnames
  obtain ⟨arrays, hloop, hall⟩ := namesLoop_words b.length hparsed
    (fun w hw => ⟨(mem_words hw).1, hnames w hw⟩) (length_words_le_buf h)
  exact ⟨sub, name, arrays, hparse, hparsed, hloop, hall⟩

/-- The first name goes into an array that was not zeroed, and only its first
    character is looked at. -/
theorem pathDepthCntBytes_eq (h : CString b path) (hne : words slash path ≠ [])
    (hnames : ∀ name ∈ words slash path, name.length < maxFileNameLen) (name : Buf)
    (hname : name.length = maxFileNameLen) :
    pathDepthCntBytes b name = .ok (words slash path).length := by
  have hfirst : (pathParse path).1 ≠ [] := by
    intro hnil
    rw [words_pathParse, if_pos hnil] at hne
    exact hne rfl
  have hfits := hnames _ (pathParse_mem hfirst)
  obtain ⟨sub, hparse, hrel⟩ := pathParseBytes_any h name (by omega)
  have hwords := words_pathParse path
  rw [if_neg hfirst] at hwords
  have hrest : ∀ w ∈ ((pathParse path).2.map (words slash)).getD [], w ∈ words slash path := by
    intro w hw
    rw [hwords]
    exact List.mem_cons_of_mem _ hw
  obtain ⟨sub', name', hnext, hparsed⟩ := parseNextBytes_parsedTo hrel fun w hw =>
    hnames w (hrest w hw)
  obtain ⟨n, hn⟩ : ∃ n, b.length = n + 1 :=
    Nat.exists_eq_succ_of_ne_zero (Nat.ne_of_gt (Nat.lt_of_le_of_lt (Nat.zero_le _) h.length_lt))
  have hlen := length_words_le_buf h
  rw [hwords, List.length_cons, hn] at hlen
  obtain ⟨arrays, hloop, hall⟩ := namesLoop_words n hparsed
    (fun w hw => ⟨(mem_words (hrest w hw)).1, hnames w (hrest w hw)⟩) (Nat.le_of_succ_le_succ hlen)
  -- the array after the first call, with what was in it behind the name
  generalize hstored : (pathParse path).1 ++ name.drop (pathParse path).1.length = stored at hparse
  have hstored_length : stored.length = maxFileNameLen := by
    rw [← hstored, List.length_append, List.length_drop]
    omega
  obtain ⟨c, hload, hc⟩ : ∃ c, Buf.load stored 0 = .ok c ∧ c ≠ 0 := by
    obtain ⟨c, w, hw⟩ := List.exists_cons_of_ne_nil hfirst
    rw [hw] at hstored
    refine ⟨c, by rw [← hstored]; rfl, ?_⟩
    rintro rfl
    obtain ⟨_, -, hnot⟩ := h
    refine hnot ((mem_words (pathParse_mem hfirst)).2.2 0 ?_)
    rw [hw]
    exact List.mem_cons_self
  have hzero := memset_all stored 0
  rw [hstored_length] at hzero
  rw [pathDepthCntBytes, hparse, Outcome.ok_bind, hn]
  dsimp only
  rw [depthLoopBytes, hload, Outcome.ok_bind, if_neg hc, hzero, Outcome.ok_bind, hnext,
    Outcome.ok_bind]
  dsimp only
  rw [depthLoopBytes_eq hloop, hwords, List.length_cons, hall.length_eq]
  congr 1
  omega

/-- The parse of a path with names finds the first one. -/
theorem parseName_eq (hnames : ∀ name ∈ words slash path, name.length < maxFileNameLen) :
    ∃ name subPath, parseName path = .ok (name, subPath)
      ∧ namesLeft name subPath = words slash path := by
  have hparse : parseNext (some path) = parseName path := rfl
  rw [← hparse]
  exact @parseNext_eq (some path) hnames

theorem pathDepthCnt_eq (hne : words slash path ≠ [])
    (hnames : ∀ name ∈ words slash path, name.length < maxFileNameLen) :
    pathDepthCnt path = .ok (words slash path).length := by
  obtain ⟨name, subPath, hparse, hleft⟩ := parseName_eq hnames
  have hname : name ≠ [] := by
    rintro rfl
    rw [← hleft] at hne
    exact hne rfl
  have hle := length_words_le path
  rw [← hleft] at hnames hle ⊢
  rw [pathDepthCnt, hparse, Outcome.ok_bind]
  dsimp only
  rw [if_neg hname, depthLoop_eq hnames hle, Nat.zero_add]

theorem searchFile_eq (hnames : ∀ name ∈ words slash path, name.length < maxFileNameLen)
    (hroot : isRootPath path = false) (habs : path.head? = some slash)
    (hlen : path.length < maxPathLen) (s : FsState) :
    searchFile s path = searchNames (words slash path) s.rootDir 0 none [] s := by
  obtain ⟨name, subPath, hparse, hleft⟩ := parseName_eq hnames
  have hlong : 1 < path.length := by
    obtain ⟨rest, rfl⟩ := List.head?_eq_some_iff.1 habs
    cases rest with
    | nil => cases hroot
    | cons c rest => simp
  have hle := length_words_le path
  rw [← hleft] at hnames hle ⊢
  rw [searchFile, hroot, if_neg Bool.false_ne_true, kassert_pos ⟨habs, hlong, hlen⟩,
    Outcome.ok_bind, hparse, Outcome.ok_bind]
  exact searchLoop_eq hnames hle _ _ _ _ _

/-- What was searched of the path is made of its names. -/
theorem searchNames_searched {names : List (List UInt8)} {parentDir : Dir} {parentInodeNo : Nat}
    {dirE : Option DirEntry} {searchedPath : List UInt8} {s s' : FsState} {r : Option Nat}
    {record : PathSearchRecord}
    (h : searchNames names parentDir parentInodeNo dirE searchedPath s = .ok (r, record, s')) :
    record.searchedPath.length ≤ searchedPath.length + (joinAll slash names).length := by
  induction names generalizing parentDir parentInodeNo dirE searchedPath s with
  | nil =>
      obtain ⟨s₁, -, h⟩ := Outcome.bind_eq_ok.1 h
      obtain ⟨⟨dir, s₂⟩, -, h⟩ := Outcome.bind_eq_ok.1 h
      cases dirE with
      | none => cases h
      | some de =>
          cases h
          exact Nat.le_add_right _ _
  | cons name names ih =>
      obtain ⟨_, -, h⟩ := Outcome.bind_eq_ok.1 h
      obtain ⟨searched, happend, h⟩ := Outcome.bind_eq_ok.1 h
      obtain ⟨⟨found, s₁⟩, -, h⟩ := Outcome.bind_eq_ok.1 h
      have hlen : searched.length = searchedPath.length + (name.length + 1) := by
        unfold appendName at happend
        split at happend
        · cases happend
          rw [List.length_append, List.length_cons]
        · cases happend
      have hjoin : (joinAll slash (name :: names)).length
          = name.length + 1 + (joinAll slash names).length := by
        rw [joinAll_cons, List.length_append, List.length_cons]
      have hhere : searched.length
          ≤ searchedPath.length + (joinAll slash (name :: names)).length := by omega
      cases found with
      | none =>
          cases h
          exact hhere
      | some de =>
          dsimp only at h
          split at h
          · obtain ⟨s₂, -, h⟩ := Outcome.bind_eq_ok.1 h
            obtain ⟨⟨dir, s₃⟩, -, h⟩ := Outcome.bind_eq_ok.1 h
            have hrest := ih h
            omega
          · split at h
            · cases h
              exact hhere
            · have hrest := ih h
              omega

/-- So it is not longer than the path. -/
theorem searchFile_searched {s s' : FsState} {r : Option Nat} {record : PathSearchRecord}
    (hnames : ∀ name ∈ words slash path, name.length < maxFileNameLen)
    (habs : path.head? = some slash) (hlen : path.length < maxPathLen)
    (h : searchFile s path = .ok (r, record, s')) :
    record.searchedPath.length ≤ path.length := by
  cases hroot : isRootPath path with
  | true =>
      rw [searchFile, hroot, if_pos rfl] at h
      cases h
      exact Nat.zero_le _
  | false =>
      rw [searchFile_eq hnames hroot habs hlen] at h
      have hle := searchNames_searched h
      obtain ⟨rest, rfl⟩ := List.head?_eq_some_iff.1 habs
      have hwords := length_joinAll_words slash rest
      rw [words_sep_cons] at hle
      rw [List.length_nil] at hle
      rw [List.length_cons]
      omega

/-- The loop around `path_parse` ends and visits the words of the path in their
    order; `path_depth_cnt` returns how many they are, and `wash_path` and
    `search_file` take them one after the other. -/
theorem pathLoop_words (h : CString b path) (hne : words slash path ≠ [])
    (hnames : ∀ name ∈ words slash path, name.length ≤ 15) :
    ∃ names, visitNames b = .ok names ∧ List.Forall₂ CString names (words slash path)
      ∧ (∀ name, name.length = maxFileNameLen →
        pathDepthCntBytes b name = .ok (words slash path).length)
      ∧ pathDepthCnt path = .ok (words slash path).length
      ∧ (path.head? = some slash → ∀ x y new,
        washPath b (x :: y :: new) = names.foldlM washName (slash :: 0 :: new))
      ∧ (isRootPath path = false → path.head? = some slash → path.length < maxPathLen → ∀ s,
        searchFile s path = searchNames (words slash path) s.rootDir 0 none [] s) := by
  have hshort : ∀ name ∈ words slash path, name.length < maxFileNameLen :=
    fun name hname => Nat.lt_succ_of_le (hnames name hname)
  obtain ⟨sub, name, names, hparse, hparsed, hloop, hall⟩ := visitNames_words h hshort
  refine ⟨names, ?_, hall, pathDepthCntBytes_eq h hne hshort, pathDepthCnt_eq hne hshort,
    fun habs x y new => ?_, fun hroot habs hlen s => searchFile_eq hshort hroot habs hlen s⟩
  · rw [visitNames, hparse, Outcome.ok_bind]
    exact hloop
  · obtain ⟨c, hload, hc⟩ := hparsed.string.load_zero
    have hc0 : c ≠ 0 := by
      intro hzero
      obtain ⟨w, ws, hws⟩ := List.exists_cons_of_ne_nil hne
      have hhead := hc.1 hzero
      rw [hws] at hhead
      exact (mem_words (by rw [hws]; exact List.mem_cons_self)).1 hhead
    have hhead : b.load 0 = .ok slash := by
      obtain ⟨rest, rfl, -⟩ := h
      obtain ⟨path', rfl⟩ := List.head?_eq_some_iff.1 habs
      rfl
    rw [washPath, hhead, Outcome.ok_bind, require_pos rfl, Outcome.ok_bind, hparse, Outcome.ok_bind]
    dsimp only
    rw [hload, Outcome.ok_bind, if_neg hc0, ← washLoop_eq hloop]
    rfl

/-- "//usr///bin/" -/
theorem pathLoop_words_slashes :
    ∃ names, visitNames [47, 47, 117, 115, 114, 47, 47, 47, 98, 105, 110, 47, 0] = .ok names
      ∧ List.Forall₂ CString names [[117, 115, 114], [98, 105, 110]] := by
  have hwords : words slash [47, 47, 117, 115, 114, 47, 47, 47, 98, 105, 110, 47]
      = [[117, 115, 114], [98, 105, 110]] := by decide
  obtain ⟨names, hvisit, hall, -⟩ := pathLoop_words
    (⟨[], rfl, by decide⟩ : CString [47, 47, 117, 115, 114, 47, 47, 47, 98, 105, 110, 47, 0]
      [47, 47, 117, 115, 114, 47, 47, 47, 98, 105, 110, 47])
    (by rw [hwords]; decide) (by rw [hwords]; decide)
  rw [hwords] at hall
  exact ⟨names, hvisit, hall⟩

end Fs
end JackOS
