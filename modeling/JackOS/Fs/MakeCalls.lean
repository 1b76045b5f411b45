/-
  JackOS.Fs.MakeCalls

  `sys_mkdir` on a partition (`Volume`).  It refuses, and leaves the partition as
  it was, or puts an empty directory in where the path has its last name
  (`sysMkdir_exact`).  The search stops at the first name that is missing
  (`StopsAt`); the depths of the two paths tell whether that is the last one.
-/

import JackOS.Fs.DirMake
import JackOS.Fs.DirName

namespace JackOS
namespace Fs

open Base

variable {s s' t t' u : FsState} {dirs files : Nat → Option Inode} {parent refs held : Nat → Nat}
  {ino old grown new : Inode} {de : DirEntry} {f g : Found} {dir : Dir} {m n p q : Nat}

/-! ## A name that is missing -/

/-- The names lead to directory `g`, which has no entry of the name that comes
    next; `rest` is what comes behind. -/
structure MissesAt (tree : Nat → List Entry) (f : Found) (names front : List (List UInt8))
    (name : List UInt8) (rest : List (List UInt8)) (g : Found) : Prop where
  split : names = front ++ name :: rest
  leads : reach tree f front = some g
  directory : g.fType = .directory
  missing : lookup (tree g.iNo) name = none

theorem MissesAt.reach {tree : Nat → List Entry} {names front rest : List (List UInt8)}
    {name : List UInt8} (h : MissesAt tree f names front name rest g) :
    Fs.reach tree f names = none := by
  rw [h.split, reach_front h.directory h.leads, Fs.reach, nextFound, if_pos h.directory, h.missing]
  rfl

/-- What `search_file` gives when a name is missing: the directory without it is
    open, and the path searched ends with the name. -/
structure StopsAt (s t : FsState) (dirs : Nat → Option Inode) (refs : Nat → Nat) (f : Found)
    (names : List (List UInt8)) (searched : List UInt8) (record : PathSearchRecord)
    (front : List (List UInt8)) (name : List UInt8) (rest : List (List UInt8)) (g : Found) :
    Prop extends MissesAt (treeEntries s.disk dirs) f names front name rest g where
  isDir : dirs g.iNo ≠ none
  searchedPath : record.searchedPath = searched ++ joinAll slash (front ++ [name])
  stands : Stands s t dirs refs record.parentDir g.iNo

theorem appendName_eq_ok {searchedPath name searchedPath' : List UInt8}
    (h : appendName searchedPath name = .ok searchedPath') :
    searchedPath' = searchedPath ++ slash :: name := by
  unfold appendName at h
  split at h
  · exact (Except.ok.inj h).symm
  · cases h

/-- `search_file` over a list of names, one of which is missing. -/
theorem searchNames_stops (htree : DirTree s dirs refs) {names : List (List UInt8)}
    {dirE : Option DirEntry} {searchedPath : List UInt8} {record : PathSearchRecord}
    (h : Searching s t dirs refs dir f dirE) (hnames : ∀ w ∈ names, IsName w)
    (hcall : searchNames names dir f.parent dirE searchedPath t = .ok (none, record, t')) :
    ∃ front name rest g, StopsAt s t' dirs refs f names searchedPath record front name rest g := by
  induction names generalizing dir f dirE searchedPath t with
  | nil =>
      -- at the end of the path the search has a number
      obtain ⟨t₁, -, hcall⟩ := Outcome.bind_eq_ok.1 hcall
      obtain ⟨⟨parentDir, t₂⟩, -, hcall⟩ := Outcome.bind_eq_ok.1 hcall
      cases dirE with
      | none => cases hcall
      | some de =>
          have hno : inodeNoAsInt de.iNo = none := congrArg Prod.fst (Except.ok.inj hcall)
          rw [h.entry de rfl, inodeNoAsInt_of_lt (htree.lt h.isDir)] at hno
          cases hno
  | cons name names ih =>
      obtain ⟨_, -, hcall⟩ := Outcome.bind_eq_ok.1 hcall
      obtain ⟨searchedPath', happend, hcall⟩ := Outcome.bind_eq_ok.1 hcall
      obtain rfl := appendName_eq_ok happend
      obtain ⟨⟨found, t₁⟩, hsearch, hcall⟩ := Outcome.bind_eq_ok.1 hcall
      have hisName := hnames name List.mem_cons_self
      obtain ⟨hstands, hfound⟩ := (h.stands.searchDirEntry htree h.isDir hisName).post _ hsearch
      dsimp only at hstands hfound hcall
      cases found with
      | none =>
          cases hcall
          exact ⟨[], name, names, f, ⟨⟨rfl, rfl, h.directory, hfound.symm⟩, h.isDir,
            by simp [joinAll], hstands⟩⟩
      | some de =>
          dsimp only at hcall
          rcases htree.lookup_cases hfound.symm with ⟨hdir, hisDir⟩ | ⟨hreg, hlt, -⟩
          · have hdir : de.fType = FileType.directory.toWord := hdir
            have hisDir : dirs de.iNo ≠ none := hisDir
            have hfType : (de.entry.found f.iNo).fType = .directory := if_pos hdir
            rw [if_pos hdir, hstands.iNo] at hcall
            obtain ⟨t₂, hclose, hcall⟩ := Outcome.bind_eq_ok.1 hcall
            obtain ⟨⟨dir', t₃⟩, hopen, hcall⟩ := Outcome.bind_eq_ok.1 hcall
            obtain ⟨hsees, hcounts⟩ := hstands.dirClose.post _ hclose
            have hstands' := (hsees.dirOpen htree hcounts (fun _ => Nat.le_refl _)
              (htree.room.mono (by decide)) hisDir).post _ hopen
            obtain ⟨front, name', rest, g, hstops⟩ := @ih t₃ _ dir' (some de) _
              ⟨hstands', hfType, hisDir, h.isDir, fun _ hde => by cases hde; rfl⟩
              (fun w hw => hnames w (List.mem_cons_of_mem _ hw)) hcall
            have hstep : nextFound (treeEntries s.disk dirs) f name
                = some (de.entry.found f.iNo) := by
              rw [nextFound, if_pos h.directory, ← hfound]
              rfl
            refine ⟨name :: front, name', rest, g, ⟨⟨?_, ?_, hstops.directory, hstops.missing⟩,
              hstops.isDir, ?_, hstops.stands⟩⟩
            · rw [hstops.split]
              rfl
            · rw [Fs.reach, hstep, Option.bind_some, if_pos hfType]
              exact hstops.leads
            · rw [hstops.searchedPath, List.cons_append, joinAll_cons, List.append_assoc]
          · have hreg : de.fType = FileType.regular.toWord := hreg
            rw [if_neg (by rw [hreg]; decide), if_pos hreg] at hcall
            have hlt : de.iNo < 4096 := hlt
            have hno : inodeNoAsInt de.iNo = none := congrArg Prod.fst (Except.ok.inj hcall)
            rw [inodeNoAsInt_of_lt hlt] at hno
            cases hno

/-- `search_file` where the path leads nowhere. -/
theorem searchFile_stops (htree : DirTree s dirs refs) {path : List UInt8} (hpath : PathOk path)
    {record : PathSearchRecord} (hcall : searchFile s path = .ok (none, record, t)) :
    ∃ front name rest g,
      StopsAt s t dirs refs rootFound (words slash path) [] record front name rest g := by
  have hroot : isRootPath path = false := by
    by_contra hroot
    rw [searchFile, if_pos (by simpa using hroot)] at hcall
    cases hcall
  rw [searchFile_eq hpath.names hroot hpath.absolute hpath.length_lt] at hcall
  have hstart : Searching s s dirs refs s.rootDir rootFound none :=
    ⟨htree.stands, rfl, htree.root, htree.root, fun _ hde => (by cases hde)⟩
  exact searchNames_stops htree hstart hpath.isName hcall

/-! ## Making the directory -/

/-- Where making a directory in `p` works.  Its record and that of the first
    free number `n` lie in the sectors `inode_sync` uses; no node is of `n`; a
    direct block of `p` is missing or has a free slot; and two blocks are
    free. -/
structure MkdirOk (s : FsState) (dirs : Nat → Option Inode) (p n : Nat) : Prop where
  dirStored : inodeStored p
  first : FirstClear s.part.inodeBitmap n
  stored : inodeStored n
  closed : findOpen s n = none
  fits : ∀ old, dirs p = some old → ∃ k, k < 12 ∧ ¬ Filled s old k
  blocks : 1 < (freeBits s).card

/-- A short name reads back. -/
theorem shortEntry_name {name : List UInt8} (hname : IsName name) (n k : Nat) :
    (shortEntry name n k).entry.name = name := by
  have hbytes : strEq (fun a => name.getD a 0) 0 name = true := by
    refine strEq_iff_bytes.2 ⟨fun a c hc => ?_, ?_⟩
    · simp only [Nat.zero_add, List.getD_eq_getElem?_getD, hc, Option.getD_some]
    · rw [Nat.zero_add, List.getD_eq_getElem?_getD, List.getElem?_eq_none (Nat.le_refl _)]
      rfl
  have hread := (strEq_iff_takeWhile hname.noNul hname.length_lt).1 hbytes
  simp only [Nat.zero_add] at hread
  exact hread

/-- The entry is new. -/
theorem MkdirOk.makeAt (hok : MkdirOk s dirs p n) (hv : Volume s dirs files parent refs)
    (hold : dirs p = some old) {name : List UInt8} (hname : IsName name) (hslash : slash ∉ name)
    (hmissing : lookup (treeEntries s.disk dirs p) name = none) :
    MakeAt s dirs files p n old (dotEntry name n) where
  dir := hold
  free := by
    by_contra hsome
    have hclear := hok.first.clear
    rw [hv.inodeBit n hsome] at hclear
    cases hclear
  closed := hok.closed
  lt := Nat.lt_trans hok.stored.1 (by decide)
  iNo := rfl
  isName := by
    rw [dotEntry, shortEntry_name hname]
    exact ⟨hname, hslash⟩
  newName := by
    intro e he
    rw [dotEntry, shortEntry_name hname]
    simpa using List.find?_eq_none.1 hmissing e he
  fType := .inl rfl

/-- A directory with room has room once the new block is taken. -/
theorem StartsDir.not_filled {k lba : Nat} (hv : Volume s dirs files parent refs)
    (hat : MakeAt s dirs files p n old de) (h : Inside s t dirs files held q p)
    (hstart : StartsDir t u n lba p) (hk : k < 12) (hfit : ¬ Filled s old k) :
    ¬ Filled u (u.inodes q) k := by
  obtain ⟨-, href, -⟩ := hstart.dir hv hat h
  have hlook := h.sees.looks
  have hsec : (u.inodes q).iSectors k = old.iSectors k := by
    have := href k
    rwa [blockRef_direct hk, blockRef_direct hk] at this
  rintro ⟨hthere, hfull⟩
  rw [hsec] at hthere hfull
  have hused := hv.used p old (objects_dir hat.dir) k (by rwa [blockRef_direct hk])
  rw [blockRef_direct hk] at hused
  have hsame := hstart.sameBlock (hv.tree.layout.looks hlook)
    (by simpa only [usedBlocks, blockBits, hlook.sb, hlook.blockBitmap] using hused)
  refine hfit ⟨hthere, fun i hi => ?_⟩
  rw [← hlook.disk, ← slotEntry_congr fun a ha => ?_]
  · exact hfull i hi
  · rw [Nat.add_assoc]
    refine hsame _ ?_
    simp only [dirEntryBytes, slotsPerBlock] at *
    omega

theorem inodeBitmapAlloc_eq (h : FirstClear s.part.inodeBitmap n) :
    inodeBitmapAlloc s = .ok (some n, takeInodeNo s n) := by
  obtain ⟨k, hscan, hk⟩ := @bitmapScan_one s.ndebug _ _ h.lt h.clear
  obtain rfl := h.unique hk
  rw [inodeBitmapAlloc, hscan, Outcome.ok_bind]
  simp only [partBitmapSet, if_pos h.lt, Outcome.ok_bind]
  rfl

/-- `sys_mkdir` from the allocation of the inode to the last `dir_close`. -/
theorem Inside.mkdirInode_eq (hv : Volume s dirs files parent refs) (hold : dirs p = some old)
    (hok : MkdirOk s dirs p n) {name : List UInt8} (hname : IsName name) (hslash : slash ∉ name)
    (hmissing : lookup (treeEntries s.disk dirs p) name = none)
    (h : Inside s t dirs files held dir.inode p) {ioBuf : HeapBlock}
    (hbuf : ioBuf.kernel = t.task.pgdir.isNone) :
    ∃ u v w lba, StartsDir t u n lba p ∧ AddsEntry u v dir.inode (dotEntry name n)
      ∧ WritesRecords v w (v.inodes dir.inode) (newDirInode n lba)
      ∧ mkdirInode dir name ioBuf t = (do let s' ← dirClose w dir; .ok (0, s')) := by
  have hlook := h.sees.looks
  have ht := hv.tree.layout.looks hlook
  have hat := hok.makeAt hv hold hname hslash hmissing
  have hfree : FreeOnDisk t := by
    unfold FreeOnDisk blockBits
    rw [hlook.blockBitmap, hlook.sb]
    exact hv.free
  have hcard : (freeBits t).card = (freeBits s).card := by
    simp only [freeBits, blockBits, hlook.blockBitmap]
  have hblocks := hok.blocks
  -- the number and the block
  have hfirst : FirstClear t.part.inodeBitmap n := by
    rw [hlook.inodeBitmap]
    exact hok.first
  obtain ⟨b, hb, halloc, hsub, -, hput⟩ := takeBlock (ht.takeInodeNo n)
    (s := takeInodeNo t n) (by
      have : (freeBits (takeInodeNo t n)).card = (freeBits t).card := rfl
      omega)
  have hb : FirstClear t.part.blockBitmap b := hb
  have hb0 : b ≠ 0 := by
    rintro rfl
    have hclear := hb.clear
    rw [ht.rootBit] at hclear
    cases hclear
  have hstart := dotsState_starts ht hb hfree n p
  obtain ⟨hrep, -, -⟩ := hstart.dir hv hat h
  -- the entry
  obtain ⟨k, hk, hfit⟩ := hok.fits old hold
  have hlive : (dotEntry name n).Live := dotEntry_live (Nat.lt_trans hat.lt (by decide))
  have hone := hstart.card
  obtain ⟨v, hsync, hadd⟩ := syncDirEntry_adds hstart.layout hrep hlive hstart.free (by omega)
    ⟨k, hk, hstart.not_filled hv hat h hk hfit⟩
  have hvno : (v.inodes dir.inode).iNo = p := hadd.iNo.trans h.iNo
  -- the records
  have hnewNo : (newDirInode n (t.part.sb.dataStartLba + b)).iNo < 256 := hok.stored.1
  obtain ⟨v', w, hfirstSync, hsecondSync, hwrites⟩ := inodeSync_two hadd.layout.table
    (hvno ▸ hok.dirStored.1) hnewNo (hvno ▸ hat.ne) Mem.zero
  refine ⟨_, v, w, _, hstart, hadd, hwrites, ?_⟩
  have hlen : name.length ≤ maxFileNameLen := Nat.le_of_lt hname.length_lt
  have hentry : createDirEntry (dotsState t n b p) name n .directory = .ok (dotEntry name n) := by
    rw [createDirEntry, kassert_pos hlen, Outcome.ok_bind, if_pos (hlen.trans (by decide))]
    rfl
  have hsize : t.part.sb.dirEntrySize = dirEntryBytes := hrep.entrySize
  have hlba : t.part.sb.dataStartLba + b ≤ maxLba := hstart.onDisk
  have hnode : ((putBlockBit (takeInodeNo t n) b true).inodes dir.inode).iNo = p := h.iNo
  have hinode : { inodeInit n with
      iSize := u32 (2 * t.part.sb.dirEntrySize)
      iSectors := Function.update (inodeInit n).iSectors 0 (t.part.sb.dataStartLba + b) }
      = newDirInode n (t.part.sb.dataStartLba + b) := by
    rw [hsize]
    rfl
  have hown : ioBuf.kernel = w.task.pgdir.isNone := by
    obtain ⟨bits, d, ino, hstate⟩ := hadd.state
    rw [hbuf, hwrites.same, hstate]
    rfl
  have hdots : ideWrite (putBlockBit (takeInodeNo t n) b true) (t.part.sb.dataStartLba + b)
      (dotEntries n p) 0 1 = .ok (dotsState t n b p) := by
    rw [ideWrite, kassert_pos hlba, Outcome.ok_bind, kassert_pos (by omega), Outcome.ok_bind]
    rfl
  rw [mkdirInode, inodeBitmapAlloc_eq hfirst, Outcome.ok_bind]
  dsimp only
  rw [halloc, Outcome.ok_bind]
  dsimp only
  rw [mkdirInBlock]
  dsimp only
  rw [setBlockBit_sb, hsub, kassert_pos hb0, Outcome.ok_bind, hput, Outcome.ok_bind, hnode]
  change (ideWrite (putBlockBit (takeInodeNo t n) b true) (t.part.sb.dataStartLba + b)
    (dotEntries n p) 0 1 >>= _) = _
  rw [hdots, Outcome.ok_bind, hentry, Outcome.ok_bind, hsync, Outcome.ok_bind]
  dsimp only
  rw [if_neg (by decide), hfirstSync, Outcome.ok_bind]
  change (inodeSync v' { inodeInit n with
      iSize := u32 (2 * t.part.sb.dirEntrySize)
      iSectors := Function.update (inodeInit n).iSectors 0 (t.part.sb.dataStartLba + b) } Mem.zero
        >>= _) = _
  rw [hinode, hsecondSync, Outcome.ok_bind, sysFree_own hown, Outcome.ok_bind]

/-! ## The partition afterwards -/

theorem Stored.looks (h : Stored s m ino) (hlook : Looks s t) : Stored t m ino := by
  refine ⟨h.inSector, ?_⟩
  rw [hlook.disk, slotAddr_congr hlook.sb]
  exact h.record

/-- Opening and closing nodes afterwards changes nothing of it. -/
theorem Makes.looks (h : Makes s t old grown new de) (hlook : Looks t s') :
    Makes s s' old grown new de := by
  have hused : usedBlocks s' = usedBlocks t := by
    simp only [usedBlocks, blockBits, hlook.sb, hlook.blockBitmap]
  have hdisk := hlook.disk
  refine ⟨hlook.sb.trans h.sb, h.layout.looks hlook, ?_, ?_, ?_, ?_, ?_, ?_, ?_, h.iNo,
    h.rep.looks hlook (.refl _), ?_, ?_, ?_, h.newNo, ?_, ?_, ?_⟩
  · rw [hlook.same]
    exact h.heapJunk
  · rw [hlook.blockBitmap, h.blockLen]
  · rw [hused]
    exact h.used
  · rw [hlook.same]
    exact h.blockMap
  · rw [hlook.inodeBitmap]
    exact h.inodeBits
  · rw [hdisk]
    exact h.same
  · rw [hdisk]
    exact h.records
  · rw [hdisk]
    exact h.entries
  · rw [hdisk]
    exact h.fresh
  · exact h.stored.looks hlook
  · rw [hdisk, hused]
    exact h.newFresh
  · rw [hdisk]
    exact fun hdir => ⟨(h.newDir hdir).1.looks hlook (.refl _), (h.newDir hdir).2⟩
  · exact h.newStored.looks hlook

/-- From `s` to `s'` directory `p` got an entry for a new directory, and all else
    is as it was. -/
def Puts (s s' : FsState) (dirs : Nat → Option Inode) (refs : Nat → Nat) (p : Nat) (e : Entry) :
    Prop :=
  s'.task = s.task ∧ ∃ dirs' files' parent', Volume s' dirs' files' parent' refs
    ∧ NewEntry (treeEntries s.disk dirs) (fun m => dirs m ≠ none) p e
    ∧ Gains (treeEntries s.disk dirs) (treeEntries s'.disk dirs') p e

/-- `sys_mkdir` once the search has found that the name is new. -/
theorem mkdirInode_meets (hv : Volume s dirs files parent refs) (hisDir : dirs p ≠ none)
    (hok : MkdirOk s dirs p n) {name : List UInt8} (hname : IsName name) (hslash : slash ∉ name)
    (hmissing : lookup (treeEntries s.disk dirs p) name = none)
    (h : Stands s t dirs refs dir p) {ioBuf : HeapBlock}
    (hbuf : ioBuf.kernel = t.task.pgdir.isNone) {served : Prop} :
    Outcome.Meets served (mkdirInode dir name ioBuf t) fun r =>
      r.1 = 0 ∧ Puts s r.2 dirs refs p (dotEntry name n).entry := by
  obtain ⟨old, hold⟩ := dirs_some hisDir
  have hinside := hv.inside h hisDir
  have hat := hok.makeAt hv hold hname hslash hmissing
  obtain ⟨u, v, w, lba, hstart, hadd, hwrites, hcall⟩ :=
    hinside.mkdirInode_eq hv hold hok hname hslash hmissing hbuf
  have hmakes := hinside.makes hv hat hstart hadd hwrites hok.dirStored hok.stored
  obtain ⟨bits, d, ino, hstate⟩ := hadd.state
  have htask : w.task = t.task := by
    rw [hwrites.same, hstate, hstart.same]
    rfl
  have hcounts : ∀ r : Int × FsState, mkdirInode dir name ioBuf t = .ok r → RefCounts r.2 refs :=
    fun r hr => (h.counts.within.mkdirInode hr).counts
  rw [hcall] at hcounts ⊢
  apply (dirClose_eq h htask).bind
  intro s' hclose
  have hlook := dirClose_looks hclose
  have htask' : s'.task = s.task := by rw [hlook.task, htask, h.sees.looks.task]
  refine Outcome.meets_ok ⟨rfl, htask', _, _, _, hv.makes hat (hmakes.looks hlook) ?_ ?_
    fun r hr => ?_, hat.newEntry hv, (hmakes.looks hlook).gains hv hat⟩
  · refine hcounts (0, s') ?_
    rw [hclose]
    rfl
  · rw [hlook.same, hwrites.same, hstate, hstart.same, h.sees.looks.same]
    rfl
  · -- the nodes that were open
    have hlook' := h.sees.looks
    have hopen : r ∈ t.part.openInodes := by
      rw [h.counts.held]
      exact Nat.lt_of_lt_of_le ((hv.tree.counts.held r).1 hr) (le_dirHeld refs dir r)
    have hlt : r < w.nextNode := by
      rw [hwrites.same, hstate, hstart.same]
      exact h.counts.lt r hopen
    have hrec := hlook'.sameRecord (hv.tree.counts.lt r hr)
    have hw : w.inodes = v.inodes := by
      rw [hwrites.same]
      rfl
    refine (hlook.sameRecord hlt).trans ?_
    rw [hw]
    -- only the node of the directory grew, and no other one has its number
    by_cases hrq : r = dir.inode
    · subst hrq
      rw [if_pos (hrec.iNo.symm.trans h.iNo)]
      exact .refl _
    · have hvr : v.inodes r = t.inodes r := by
        rw [hstate, hstart.same]
        exact Function.update_of_ne hrq _ _
      rw [hvr, if_neg]
      · exact hrec
      · intro hp
        exact hrq (h.sees.distinct r hopen dir.inode h.opened
          ((hrec.iNo.trans hp).trans h.iNo.symm))

/-! ## sys_mkdir -/

variable {path : List UInt8}

/-- The path leads to directory `g` but for its last name, which is new there. -/
def LeadsToNew (tree : Nat → List Entry) (path : List UInt8) (g : Found) (name : List UInt8) :
    Prop :=
  ∃ front, MissesAt tree rootFound (words slash path) front name [] g

theorem LeadsToNew.isName {tree : Nat → List Entry} {name : List UInt8}
    (h : LeadsToNew tree path g name) (hpath : PathOk path) : IsName name := by
  obtain ⟨front, hmiss⟩ := h
  refine hpath.isName name ?_
  rw [hmiss.split]
  exact List.mem_append_right _ List.mem_cons_self

/-- What `sys_mkdir` does: it refuses, which it does of a new name only without
    memory, or puts the directory in. -/
def Mkdirs (s : FsState) (dirs files : Nat → Option Inode) (parent refs : Nat → Nat)
    (path : List UInt8) (r : Int × FsState) : Prop :=
  r.1 = -1 ∧ Intact s r.2 dirs files parent refs
      ∧ (HeapServes s → ¬ ∃ g name, LeadsToNew (treeEntries s.disk dirs) path g name)
    ∨ r.1 = 0 ∧ ∃ g name n, LeadsToNew (treeEntries s.disk dirs) path g name
      ∧ Puts s r.2 dirs refs g.iNo (dotEntry name n).entry

/-- The name a path ends with. -/
theorem baseName_append {front name : List UInt8} (hname : slash ∉ name) :
    baseName (front ++ slash :: name) = some name := by
  have hlast : lastName (front ++ slash :: name) = slash :: name := lastName_append hname
  rw [lastName] at hlast
  rw [baseName, if_pos (List.mem_append_right _ List.mem_cons_self), (List.cons.inj hlast).2]

theorem mkdirFail_meets (hv : Volume s dirs files parent refs)
    (h : Stands s t dirs refs dir p) {ioBuf : HeapBlock}
    (hbuf : ioBuf.kernel = s.task.pgdir.isNone) :
    Outcome.Meets (HeapServes s) (mkdirFail dir ioBuf t) fun r =>
      r.1 = -1 ∧ Intact s r.2 dirs files parent refs := by
  apply h.dirClose.bind
  rintro t' ⟨hsees, hcounts⟩
  rw [sysFree_own (by rw [hbuf, hsees.looks.task]), Outcome.ok_bind]
  exact Outcome.meets_ok ⟨rfl, hv.intact hsees hcounts⟩

/-- Opening and closing directories takes no room. -/
theorem MkdirOk.sees (h : MkdirOk s dirs p n) (hv : Volume s dirs files parent refs)
    (hsees : Sees s t dirs) (hcounts : RefCounts t refs) : MkdirOk t dirs p n := by
  have hlook := hsees.looks
  refine ⟨h.dirStored, ?_, h.stored, ?_, fun old hold => ?_, ?_⟩
  · rw [hlook.inodeBitmap]
    exact h.first
  · rw [findOpen_none]
    intro r hr
    have hopen := (hv.tree.counts.open_iff hcounts r).1 hr
    rw [hlook.node r (hv.tree.counts.lt r hopen)]
    exact findOpen_none.1 h.closed r hopen
  · unfold Filled
    rw [hlook.disk]
    exact h.fits old hold
  · have hfree : freeBits t = freeBits s := by
      simp only [freeBits, blockBits, hlook.blockBitmap]
    rw [hfree]
    exact h.blocks

/-- A missing name, from which the search went no further. -/
theorem StopsAt.depths {front rest : List (List UInt8)} {name : List UInt8}
    {record : PathSearchRecord} (hpath : PathOk path)
    (h : StopsAt s t dirs refs rootFound (words slash path) [] record front name rest g) :
    IsName name ∧ slash ∉ name ∧ pathDepthCnt path = .ok (words slash path).length
      ∧ pathDepthCnt record.searchedPath = .ok (front ++ [name]).length
      ∧ baseName record.searchedPath = some name := by
  have hmem : ∀ w ∈ front ++ [name], w ∈ words slash path := by
    intro w hw
    rw [h.split]
    rcases List.mem_append.1 hw with hw | hw
    · exact List.mem_append_left _ hw
    · exact List.mem_append_right _ (List.mem_singleton.1 hw ▸ List.mem_cons_self)
  have hwords : words slash (joinAll slash (front ++ [name])) = front ++ [name] :=
    words_joinAll fun w hw => ⟨(mem_words (hmem w hw)).1, (mem_words (hmem w hw)).2.1⟩
  have hlast : name ∈ front ++ [name] := List.mem_append_right _ List.mem_cons_self
  have hslash := (mem_words (hmem name hlast)).2.1
  have hsearched : record.searchedPath = joinAll slash (front ++ [name]) := h.searchedPath
  refine ⟨hpath.isName name (hmem name hlast), hslash, ?_, ?_, ?_⟩
  · refine pathDepthCnt_eq ?_ hpath.names
    rw [h.split]
    exact List.append_ne_nil_of_right_ne_nil _ (List.cons_ne_nil _ _)
  · rw [hsearched]
    refine (pathDepthCnt_eq ?_ ?_).trans (by rw [hwords])
    · rw [hwords]
      exact List.append_ne_nil_of_right_ne_nil _ (List.cons_ne_nil _ _)
    · rw [hwords]
      exact fun w hw => hpath.names w (hmem w hw)
  · rw [hsearched, joinAll_append, joinAll_cons, joinAll_nil, List.append_nil]
    exact baseName_append hslash

/-- A name that is missing is the last one of a path with a new last name. -/
theorem MissesAt.last {tree : Nat → List Entry} {front rest : List (List UInt8)}
    {name name' : List UInt8} {g' : Found}
    (h : MissesAt tree rootFound (words slash path) front name rest g)
    (hnew : LeadsToNew tree path g' name') : rest = [] ∧ g' = g ∧ name' = name := by
  obtain ⟨front', hnew⟩ := hnew
  have hsplit := h.split.symm.trans hnew.split
  rcases List.eq_nil_or_concat rest with rfl | ⟨rest', last, rfl⟩
  · obtain ⟨hfront, hname⟩ := List.append_inj' hsplit rfl
    have hleads := hnew.leads
    rw [← hfront, h.leads] at hleads
    exact ⟨rfl, (Option.some.inj hleads).symm, (List.cons.inj hname).1.symm⟩
  · -- the way to `g'` would go through the missing name
    have hlonger : (front ++ name :: rest') ++ [last] = front' ++ [name'] := by
      rw [← hsplit, List.concat_eq_append, List.append_assoc, List.cons_append]
    have hfront := (List.append_inj' hlonger rfl).1
    have hmisses : MissesAt tree rootFound front' front name rest' g :=
      ⟨hfront.symm, h.leads, h.directory, h.missing⟩
    have hleads := hnew.leads
    rw [hmisses.reach] at hleads
    cases hleads

/-- The message about a missing directory on the way. -/
theorem mkdirMessage_eq {searchedPath : List UInt8} (h : Printable path)
    (hle : searchedPath.length ≤ path.length) :
    kprintStrings "sys_mkdir: cannot access %s, parent directory %s not exists!\n"
      [path, searchedPath] = .ok () := by
  refine kprintStrings_eq [(literal "sys_mkdir: cannot access ", path),
    (literal ", parent directory ", searchedPath)] (literal " not exists!\n") rfl ?_ ?_
  · change Unformatted ([literal "sys_mkdir: cannot access ",
      literal ", parent directory "].flatten ++ literal " not exists!\n")
    decide
  · change 25 + path.length + (19 + searchedPath.length + 0) + 13 < 1024
    omega

theorem sysMkdir_meets (hv : Volume s dirs files parent refs) (hpath : PathOk path)
    (hok : ∀ g name, LeadsToNew (treeEntries s.disk dirs) path g name →
      ∃ n, MkdirOk s dirs g.iNo n) :
    Outcome.Meets (HeapServes s ∧ (path = [slash] ∨ words slash path ≠ []) ∧ Printable path)
      (sysMkdir s path) (Mkdirs s dirs files parent refs path) := by
  cases hmalloc : sysMalloc s with
  | mk ioBuf s₁ =>
  obtain rfl := sysMalloc_state hmalloc
  have hsees := hv.tree.sees.countMalloc
  have hv₁ : Volume s.countMalloc dirs files parent refs :=
    hv.looks hsees hv.tree.counts.countMalloc
  rw [sysMkdir, hmalloc]
  cases ioBuf with
  | none =>
      -- no memory for the two sectors: -1 before anything is read
      have hintact := hv.intact hsees hv.tree.counts.countMalloc
      refine Outcome.meets_ok (.inl ⟨rfl, hintact, fun hheap => ?_⟩)
      rw [hheap.sysMalloc] at hmalloc
      cases hmalloc
  | some ioBuf =>
      have hbuf := sysMalloc_own hmalloc
      dsimp only
      refine searchFile_bind hv₁ hpath (fun h => ⟨hsees.heapServes h.1, h.2.1⟩)
        fun r hsearch hreached => ?_
      obtain ⟨no, record, t⟩ := r
      -- the name cannot be put in
      have hrefuse : ∀ m, Stands s.countMalloc t dirs refs record.parentDir m →
          (¬ ∃ g name, LeadsToNew (treeEntries s.disk dirs) path g name) →
          Outcome.Meets (HeapServes s ∧ (path = [slash] ∨ words slash path ≠ []) ∧ Printable path)
            (mkdirFail record.parentDir ioBuf t) (Mkdirs s dirs files parent refs path) := by
        intro m hstands hnot
        apply ((mkdirFail_meets hv₁ hstands hbuf).weaken fun h => hsees.heapServes h.1).mono
        exact fun r h => .inl ⟨h.1, h.2, fun _ => hnot⟩
      dsimp only
      cases hno : no with
      | some n =>
          -- something has the path already
          obtain ⟨f, hf, -, -, hstands⟩ := hreached.found hno
          refine hrefuse _ hstands ?_
          rintro ⟨g, name, front, hmiss⟩
          cases hmiss.reach.symm.trans hf
      | none =>
          subst hno
          obtain ⟨front, name, rest, g, hstops⟩ := searchFile_stops hv₁.tree hpath hsearch
          obtain ⟨hname, hslash, hdepth, hdepth', hbase⟩ := hstops.depths hpath
          dsimp only
          rw [hdepth, Outcome.ok_bind, hdepth', Outcome.ok_bind]
          -- the depths agree exactly if the missing name is the last one
          by_cases hrest : rest = []
          · subst hrest
            have hlen : (words slash path).length = (front ++ [name]).length := by
              rw [hstops.split]
            have hnew : LeadsToNew (treeEntries s.disk dirs) path g name :=
              ⟨front, hstops.toMissesAt⟩
            obtain ⟨n, hok⟩ := hok g name hnew
            rw [if_neg (not_not.2 hlen), hbase]
            have hok₁ := hok.sees hv hsees hv.tree.counts.countMalloc
            apply (mkdirInode_meets hv₁ hstops.isDir hok₁ hname hslash hstops.missing hstops.stands
              (by rw [hbuf, hstops.stands.sees.looks.task]; rfl)).mono
            exact fun r h => .inr ⟨h.1, g, name, n, hnew, h.2⟩
          · have hlen : (words slash path).length ≠ (front ++ [name]).length := by
              have hpos := List.length_pos_iff.2 hrest
              rw [hstops.split]
              simp only [List.length_append, List.length_cons, List.length_nil]
              omega
            rw [if_pos hlen]
            apply (hpath.message_meets hsearch fun h => mkdirMessage_eq h.2.2).bind
            intro _ _
            refine hrefuse _ hstops.stands ?_
            rintro ⟨g', name', hnew⟩
            exact hrest (hstops.toMissesAt.last hnew).1

/-- In a partition where making a directory works at the end of the path:
    `sys_mkdir` returns, for a path that it can print, 0 exactly if the path leads
    to a directory but for its last name.  Then the path leads to a new directory without entries of its
    own, and every other path to what it led to; otherwise the partition is as it
    was. -/
theorem sysMkdir_exact (hv : Volume s dirs files parent refs) (hpath : PathOk path)
    (hshort : Printable path) (hheap : HeapServes s) (hwords : path = [slash] ∨ words slash path ≠ [])
    (hok : ∀ g name, LeadsToNew (treeEntries s.disk dirs) path g name →
      ∃ n, MkdirOk s dirs g.iNo n) :
    ∃ r s', sysMkdir s path = .ok (r, s') ∧ (r = 0 ∨ r = -1)
      ∧ (r = 0 ↔ ∃ g name, LeadsToNew (treeEntries s.disk dirs) path g name)
      ∧ (r = -1 → Volume s' dirs files parent refs ∧ s'.disk = s.disk)
      ∧ ∀ g name, LeadsToNew (treeEntries s.disk dirs) path g name →
        ∃ dirs' files' parent' e, Volume s' dirs' files' parent' refs
          ∧ e.name = name ∧ e.fType = FileType.directory.toWord
          ∧ Gains (treeEntries s.disk dirs) (treeEntries s'.disk dirs') g.iNo e
          ∧ EmptyDir (treeEntries s'.disk dirs') e.iNo
          ∧ reach (treeEntries s'.disk dirs') rootFound (words slash path) = some (e.found g.iNo)
          ∧ ∀ names f, reach (treeEntries s.disk dirs) rootFound names = some f →
            reach (treeEntries s'.disk dirs') rootFound names = some f := by
  obtain ⟨⟨r, s'⟩, hcall, hcase⟩ :=
    (sysMkdir_meets hv hpath hok).exists ⟨hheap, hwords, hshort⟩
  refine ⟨r, s', hcall, ?_⟩
  rcases hcase with ⟨hr, hintact, hnot⟩ | ⟨hr, g, name, n, hnew, hputs⟩
  · dsimp only at hr hintact
    subst hr
    have hnot := hnot hheap
    exact ⟨.inr rfl, iff_of_false (by decide) hnot, fun _ => hintact,
      fun g name hnew => absurd ⟨g, name, hnew⟩ hnot⟩
  · dsimp only at hr hputs
    subst hr
    refine ⟨.inl rfl, iff_of_true rfl ⟨g, name, hnew⟩, fun h => absurd h (by decide),
      fun g' name' hnew' => ?_⟩
    obtain ⟨front, hmiss⟩ := hnew
    obtain ⟨-, rfl, rfl⟩ := hmiss.last hnew'
    obtain ⟨-, dirs', files', parent', hv', hentry, hgains⟩ := hputs
    have hname : (dotEntry name' n).entry.name = name' :=
      shortEntry_name (hnew'.isName hpath) n _
    refine ⟨dirs', files', parent', (dotEntry name' n).entry, hv', hname, rfl, hgains, ?_, ?_,
      fun names f hf => hgains.reach hentry hv.names hf⟩
    · intro e he hplain
      obtain ⟨e₁, e₂, heq, ⟨hdot, -⟩, ⟨hdotDot, -⟩, -⟩ := hgains.directory rfl
      rw [heq] at he
      rcases List.mem_cons.1 he with rfl | he
      · exact hplain.1 hdot
      · obtain rfl := List.mem_singleton.1 he
        exact hplain.2 hdotDot
    · have hreach := hgains.reach_new hentry hv.names hmiss.leads hmiss.directory rfl
      rwa [hname, ← hmiss.split] at hreach

/-- In the small partition "/e" is a new name. -/
theorem smallVolume_mkdirOk (hv : Volume smallVolumeFs dirs files parent refs)
    {name : List UInt8}
    (h : LeadsToNew (treeEntries smallVolumeFs.disk dirs) [47, 101] g name) :
    MkdirOk smallVolumeFs dirs g.iNo 3 := by
  obtain ⟨front, hmiss⟩ := h
  have hsplit := hmiss.split
  have hwords : words slash [47, 101] = [] ++ [[101]] := by decide
  rw [hwords] at hsplit
  have hleads := hmiss.leads
  rw [← (List.append_inj' hsplit rfl).1] at hleads
  obtain rfl := Option.some.inj hleads
  have hfree : ∀ b, b < 4096 → bitAt smallVolumeFs.part.blockBitmap.bits b = false →
      b ∈ freeBits smallVolumeFs := fun b hb hclear =>
    Finset.mem_filter.2 ⟨Finset.mem_range.2 hb, hclear⟩
  refine ⟨by decide, ⟨by decide, by decide, by decide⟩, by decide, by decide, fun old hold => ?_,
    Finset.one_lt_card.2 ⟨3, hfree 3 (by decide) (by decide), 4, hfree 4 (by decide) (by decide),
      by decide⟩⟩
  have hslot : slotEntry smallVolumeDisk 612 4 = none := by
    decide +kernel
  have hsec : old.iSectors 0 = 612 := ((hv.root_record hold).iSectors 0 (by decide)).symm
  refine ⟨0, by decide, fun hfilled => ?_⟩
  have hfull := hfilled.2
  rw [hsec] at hfull
  exact hfull 4 (by decide) hslot

theorem sysMkdir_exact_smallVolume :
    ∃ r s', sysMkdir smallVolumeFs [47, 101] = .ok (r, s') ∧ (r = 0 ∨ r = -1)
      ∧ (r = 0 ↔ ∃ g name,
          LeadsToNew (treeEntries smallVolumeFs.disk smallVolumeDirs) [47, 101] g name)
      ∧ (r = -1 → Volume s' smallVolumeDirs smallVolumeFiles (fun _ => 0) smallTreeRefs
          ∧ s'.disk = smallVolumeFs.disk)
      ∧ ∀ g name, LeadsToNew (treeEntries smallVolumeFs.disk smallVolumeDirs) [47, 101] g name →
        ∃ dirs' files' parent' e, Volume s' dirs' files' parent' smallTreeRefs
          ∧ e.name = name ∧ e.fType = FileType.directory.toWord
          ∧ Gains (treeEntries smallVolumeFs.disk smallVolumeDirs)
            (treeEntries s'.disk dirs') g.iNo e
          ∧ EmptyDir (treeEntries s'.disk dirs') e.iNo
          ∧ reach (treeEntries s'.disk dirs') rootFound (words slash [47, 101])
            = some (e.found g.iNo)
          ∧ ∀ names f, reach (treeEntries smallVolumeFs.disk smallVolumeDirs) rootFound names
              = some f →
            reach (treeEntries s'.disk dirs') rootFound names = some f := by
  apply sysMkdir_exact smallVolume ⟨rfl, by decide, by decide, by decide⟩ (by decide)
    (fun _ _ => rfl) (.inr (by decide))
  exact fun g name h => ⟨3, smallVolume_mkdirOk smallVolume h⟩

end Fs
end JackOS
