/-
  JackOS.Fs.OpenTurns

  Processes that open files at the same time.  Both `get_free_slot_in_global`
  and the lookup of `inode_open` are followed by a disk wait before what they
  found is acted on.  `OpenInv` is what holds of the state and of all calls as
  long as nobody picks a slot while another call waits in `file_open`, and
  nobody misses an inode that another call is reading
  (`openTurns_noCollision`); where they do, two calls get one slot.
-/

import JackOS.Fs.OpenCount
import JackOS.Fs.OpenCut
import JackOS.Fs.PathLoop
import JackOS.Fs.Search

namespace JackOS
namespace Fs

open Base

/-! ## The disk -/

/-- From `s₀` to `s` the disk and the tables about it stayed. -/
structure SameDisk (s₀ s : FsState) : Prop where
  ndebug : s.ndebug = s₀.ndebug
  disk : s.disk = s₀.disk
  sb : s.part.sb = s₀.part.sb
  heapJunk : s.heapJunk = s₀.heapJunk
  rootInode : s.rootInode = s₀.rootInode

/-- What `inode_open` reads from the disk for `n` carries the number `n`, and is
    the directory if `n` is one. -/
def Known (s₀ : FsState) (dirs : Nat → Option Inode) (n : Nat) : Prop :=
  ∀ k ino', loadInode s₀ n (s₀.heapJunk k) = .ok ino' →
    ino'.iNo = n ∧ ∀ ino, dirs n = some ino → SameRecord ino' ino

/-- The directories on the disk, and the inodes that they lead to. -/
structure TreeOnDisk (s₀ : FsState) (dirs : Nat → Option Inode) : Prop where
  root : dirs 0 ≠ none
  rep : ∀ m ino, dirs m = some ino → DirRep s₀ ino
  small : ∀ m, dirs m ≠ none → m < 4096
  entry : ∀ m ino e, dirs m = some ino → e ∈ dirEntries s₀.disk ino →
    e.fType = FileType.directory.toWord ∧ dirs e.iNo ≠ none
      ∨ e.fType = FileType.regular.toWord ∧ e.iNo < 4096
  known : ∀ m ino e, dirs m = some ino → e ∈ dirEntries s₀.disk ino → Known s₀ dirs e.iNo
  knownDir : ∀ m, dirs m ≠ none → Known s₀ dirs m

/-! ## The calls -/

/-- The slot of the descriptor. -/
def slotOf (s : FsState) (got : Nat × Nat × Nat) : Int := (s.procs got.1).fdTable got.2.1

/-- What a call goes on with is still so. -/
structure PointOk (s : FsState) (point : OpenPoint) : Prop where
  dir : ∀ p m, point.dir = some (p, m) → (s.inodes p).iNo = m
  slot : ∀ k, point.slot = some k →
    3 ≤ k ∧ k < maxFileOpen ∧ (s.fileTable k).fdInode = none
  iNo : ∀ n, point.iNo = some n → findOpen s n = none
  got : ∀ g, point.got = some g → ∃ k p : Nat, slotOf s g = (k : Int) ∧ k < maxFileOpen
    ∧ (s.fileTable k).fdInode = some p ∧ isPipe s k = false ∧ (s.inodes p).iNo = g.2.2

/-- Two calls do not get in each other's way. -/
structure Apart (s : FsState) (x y : OpenPoint) : Prop where
  slot : x.slot = none ∨ y.slot = none
  iNo : ∀ n, x.iNo = some n → y.iNo ≠ some n
  got : ∀ g g', x.got = some g → y.got = some g' → slotOf s g ≠ slotOf s g'

theorem Apart.symm {s : FsState} {x y : OpenPoint} (h : Apart s x y) : Apart s y x :=
  ⟨h.slot.symm, fun n hy hx => h.iNo n hx hy, fun g g' hg hg' => (h.got g' g hg' hg).symm⟩

instance (s : FsState) : Std.Symm (Apart s) := ⟨fun _ _ => Apart.symm⟩

/-- Call `point` has a directory open through node `p`. -/
def OpenPoint.holds (p : Nat) (point : OpenPoint) : Prop := point.dir.map Prod.fst = some p

instance (p : Nat) : DecidablePred (OpenPoint.holds p) :=
  fun point => inferInstanceAs (Decidable (point.dir.map Prod.fst = some p))

/-- Who holds node `p`: the entries of the file table, the calls, and `base` of
    others. -/
def holders (base : Nat → Nat) (points : Multiset OpenPoint) (s : FsState) (p : Nat) : Nat :=
  base p + fileRefs s p + points.countP (OpenPoint.holds p)

/-- So many calls do not overflow a count. -/
abbrev maxCalls : Nat := 2 ^ 31

/-- The nodes are those of a tree on the disk, and hold it together with the
    calls at `points`. -/
structure OpenInv (s₀ : FsState) (dirs : Nat → Option Inode) (base : Nat → Nat)
    (points : Multiset OpenPoint) (s : FsState) : Prop where
  same : SameDisk s₀ s
  few : points.card ≤ maxCalls
  counts : RefCounts s (holders base points s)
  distinct : ∀ p ∈ s.part.openInodes, ∀ q ∈ s.part.openInodes,
    (s.inodes p).iNo = (s.inodes q).iNo → p = q
  node : ∀ m ino, dirs m = some ino → ∀ q ∈ s.part.openInodes, (s.inodes q).iNo = m →
    SameRecord (s.inodes q) ino
  root : (s.inodes s₀.rootInode).iNo = 0
  calls : ∀ point ∈ points, PointOk s point
  apart : points.Pairwise (Apart s)

variable {s₀ s t : FsState} {dirs : Nat → Option Inode} {base : Nat → Nat}
  {others : Multiset OpenPoint} {point point' : OpenPoint} {p q m n : Nat}

/-! ## Points -/

theorem pairwise_cons {α : Type} {r : α → α → Prop} [Std.Symm r] {a : α} {l : Multiset α} :
    (a ::ₘ l).Pairwise r ↔ (∀ b ∈ l, r a b) ∧ l.Pairwise r := by
  induction l using Quotient.inductionOn with
  | h l =>
      rw [Multiset.quot_mk_to_coe, Multiset.cons_coe, Multiset.pairwise_coe_iff_pairwise,
        Multiset.pairwise_coe_iff_pairwise, List.pairwise_cons]
      rfl

theorem pairwise_mono {α : Type} {r r' : α → α → Prop} [Std.Symm r] [Std.Symm r']
    {l : Multiset α} (h : l.Pairwise r) (himp : ∀ a ∈ l, ∀ b ∈ l, r a b → r' a b) :
    l.Pairwise r' := by
  induction l using Quotient.inductionOn with
  | h l =>
      rw [Multiset.quot_mk_to_coe, Multiset.pairwise_coe_iff_pairwise] at h ⊢
      exact h.imp_of_mem fun ha hb hab => himp _ ha _ hb hab

theorem holders_cons (point : OpenPoint) (others : Multiset OpenPoint) :
    holders base (point ::ₘ others) s p
      = holders base others s p + if point.holds p then 1 else 0 := by
  rw [holders, holders, Multiset.countP_cons]
  omega

/-- A call that has the directory open through `p` is one holder more of it. -/
theorem holders_dir (hdir : point.dir = some (p, m)) :
    holders base (point ::ₘ others) s = addRef (holders base others s) p := by
  funext q
  have hiff : point.holds q ↔ p = q := by
    unfold OpenPoint.holds
    rw [hdir, Option.map_some, Option.some_inj]
  rw [holders_cons]
  by_cases hq : q = p
  · rw [hq, addRef_self, if_pos (hq ▸ hiff.2 hq.symm)]
  · rw [addRef_of_ne hq, if_neg (fun h => hq (hiff.1 h).symm)]
    rfl

theorem holders_noDir (hdir : point.dir = none) :
    holders base (point ::ₘ others) s = holders base others s := by
  funext q
  have hnot : ¬ point.holds q := by
    unfold OpenPoint.holds
    rw [hdir]
    exact Option.some_ne_none q ∘ Eq.symm
  rw [holders_cons, if_neg hnot]
  rfl

theorem holders_addRef (points : Multiset OpenPoint) :
    holders (addRef base p) points s = addRef (holders base points s) p := by
  funext q
  by_cases hq : q = p
  · rw [hq, addRef_self, holders, holders, addRef_self]
    omega
  · rw [addRef_of_ne hq, holders, holders, addRef_of_ne hq]

/-- The file table has few entries. -/
theorem fileRefs_le (s : FsState) (p : Nat) : fileRefs s p ≤ maxFileOpen := by
  have h : fileRefs s p ≤ (List.range maxFileOpen).length := List.countP_le_length
  rwa [List.length_range] at h

theorem OpenInv.room (h : OpenInv s₀ dirs base others s) (hroom : Room base (maxCalls + 33)) :
    Room (holders base others s) 1 := by
  intro p
  have hfiles := fileRefs_le s p
  have hcalls : others.countP (OpenPoint.holds p) ≤ others.card := Multiset.countP_le_card ..
  have hfew := h.few
  have hbase := hroom p
  rw [holders]
  simp only [maxFileOpen] at hfiles
  omega

/-- A state in which the nodes are the same but for their counts, and none is
    new. -/
theorem PointOk.mono (h : PointOk s point) (hopen : ∀ q ∈ t.part.openInodes, q ∈ s.part.openInodes)
    (hiNo : ∀ q, (t.inodes q).iNo = (s.inodes q).iNo) (htable : t.fileTable = s.fileTable)
    (hprocs : t.procs = s.procs) : PointOk t point := by
  refine ⟨fun p m hdir => ?_, fun k hslot => ?_, fun n hno => ?_, fun g hgot => ?_⟩
  · rw [hiNo]
    exact h.dir p m hdir
  · rw [htable]
    exact h.slot k hslot
  · have hnone := findOpen_none.1 (h.iNo n hno)
    refine findOpen_none.2 fun q hq => ?_
    rw [hiNo]
    exact hnone q (hopen q hq)
  · obtain ⟨k, p, hk, hlt, hnode, hpipe, hn⟩ := h.got g hgot
    refine ⟨k, p, ?_, hlt, ?_, ?_, ?_⟩
    · rw [slotOf, hprocs]
      exact hk
    · rw [htable]
      exact hnode
    · rw [isPipe, htable]
      exact hpipe
    · rw [hiNo]
      exact hn

theorem Apart.congr {x y : OpenPoint} (h : Apart s x y) (hprocs : t.procs = s.procs) :
    Apart t x y := by
  refine ⟨h.slot, h.iNo, fun g g' hg hg' => ?_⟩
  rw [slotOf, slotOf, hprocs]
  exact h.got g g' hg hg'

/-- Nodes are counted, and may be closed. -/
theorem OpenInv.mono {base' : Nat → Nat} (h : OpenInv s₀ dirs base others s)
    (hsame : SameDisk s t)
    (hcounts : RefCounts t (holders base' others t))
    (hopen : ∀ q ∈ t.part.openInodes, q ∈ s.part.openInodes)
    (hrec : ∀ q, SameRecord (t.inodes q) (s.inodes q)) (htable : t.fileTable = s.fileTable)
    (hprocs : t.procs = s.procs) : OpenInv s₀ dirs base' others t where
  same := ⟨hsame.ndebug.trans h.same.ndebug, hsame.disk.trans h.same.disk,
    hsame.sb.trans h.same.sb, hsame.heapJunk.trans h.same.heapJunk,
    hsame.rootInode.trans h.same.rootInode⟩
  few := h.few
  counts := hcounts
  distinct p hp q hq heq := by
    rw [(hrec p).iNo, (hrec q).iNo] at heq
    exact h.distinct p (hopen p hp) q (hopen q hq) heq
  node m ino hm q hq hno := by
    rw [(hrec q).iNo] at hno
    exact (hrec q).trans (h.node m ino hm q (hopen q hq) hno)
  root := (hrec _).iNo.trans h.root
  calls point hpoint := (h.calls point hpoint).mono hopen (fun q => (hrec q).iNo) htable hprocs
  apart := pairwise_mono h.apart fun _ _ _ _ hxy => hxy.congr hprocs

theorem OpenInv.countMalloc (h : OpenInv s₀ dirs base others s) :
    OpenInv s₀ dirs base others s.countMalloc :=
  h.mono ⟨rfl, rfl, rfl, rfl, rfl⟩ (h.counts.congr rfl (Nat.le_refl _) fun _ _ => rfl)
    (fun _ hq => hq) (fun _ => .refl _) rfl rfl

/-- The call goes on to another point. -/
theorem OpenInv.setPoint (h : OpenInv s₀ dirs base (point ::ₘ others) s)
    (hdir : point'.dir = point.dir) (hok : PointOk s point')
    (hapart : ∀ y ∈ others, Apart s point' y) : OpenInv s₀ dirs base (point' ::ₘ others) s where
  same := h.same
  few := by
    rw [Multiset.card_cons]
    exact (Multiset.card_cons point others) ▸ h.few
  counts := by
    have hholders : holders base (point' ::ₘ others) s = holders base (point ::ₘ others) s := by
      funext q
      have hiff : point'.holds q ↔ point.holds q := by
        unfold OpenPoint.holds
        rw [hdir]
      rw [holders_cons, holders_cons, if_congr hiff rfl rfl]
    rw [hholders]
    exact h.counts
  distinct := h.distinct
  node := h.node
  root := h.root
  calls := Multiset.forall_mem_cons.2 ⟨hok, (Multiset.forall_mem_cons.1 h.calls).2⟩
  apart := pairwise_cons.2 ⟨hapart, (pairwise_cons.1 h.apart).2⟩

/-! ## Reading -/

/-- Nobody picks a slot while another call waits in `file_open`, or misses an
    inode that another call is reading. -/
def Undisturbed (others : Multiset OpenPoint) : OpenEvent → Prop
  | .picksSlot => ∀ y ∈ others, y.slot = none
  | .misses inodeNo => ∀ y ∈ others, y.iNo ≠ some inodeNo

/-- What is done for process `i`, among calls that keep the invariant. -/
abbrev OpenSafe (s₀ : FsState) (dirs : Nat → Option Inode) (base : Nat → Nat) (i : Nat) {α : Type}
    (post : Multiset OpenPoint → α → Prop) (others : Multiset OpenPoint) (r : OpenCut α) : Prop :=
  Cut.Safe (OpenInv s₀ dirs base) (fun s => s.cur = i) Undisturbed post others r

/-- Process `i` runs, in a call at `point`. -/
structure At (s₀ : FsState) (dirs : Nat → Option Inode) (base : Nat → Nat) (i : Nat)
    (point : OpenPoint) (others : Multiset OpenPoint) (s : FsState) : Prop where
  inv : OpenInv s₀ dirs base (point ::ₘ others) s
  cur : s.cur = i

variable {i : Nat}

theorem SameDisk.kassert (h : SameDisk s₀ s) (c : Prop) [Decidable c] :
    Fs.kassert s c = Fs.kassert s₀ c := by
  rw [Fs.kassert, Fs.kassert, h.ndebug]

theorem SameDisk.ideRead (h : SameDisk s₀ s) (lba : Nat) (buf : Mem) (off secCnt : Nat) :
    Fs.ideRead s lba buf off secCnt = Fs.ideRead s₀ lba buf off secCnt := by
  rw [Fs.ideRead, Fs.ideRead, h.kassert, h.kassert, h.disk]

theorem SameDisk.setFd (h : SameDisk s₀ s) (k : Nat) (fd : FileDesc) : SameDisk s₀ (s.setFd k fd) :=
  ⟨h.ndebug, h.disk, h.sb, h.heapJunk, h.rootInode⟩

theorem SameDisk.setTask (h : SameDisk s₀ s) (task : Task) : SameDisk s₀ (s.setTask task) :=
  ⟨h.ndebug, h.disk, h.sb, h.heapJunk, h.rootInode⟩

theorem At.countMalloc (h : At s₀ dirs base i point others s) :
    At s₀ dirs base i point others s.countMalloc :=
  ⟨h.inv.countMalloc, h.cur⟩

/-- The disk holds what it held. -/
theorem ideReadCut_safe (h : At s₀ dirs base i point others s) (lba : Nat) (buf : Mem)
    (off secCnt : Nat) :
    OpenSafe s₀ dirs base i (fun o r => ideRead s₀ lba buf off secCnt = .ok r.1
      ∧ At s₀ dirs base i point o r.2) others (ideReadCut point s lba buf off secCnt) := by
  refine ⟨h.inv, fun o s' hinv hcur => Cut.Safe.bind_lift fun buf' hread => ?_⟩
  rw [hinv.same.ideRead] at hread
  exact ⟨hread, hinv, hcur⟩

theorem loadInodeCut_safe (h : At s₀ dirs base i point others s) (junk : Mem) :
    OpenSafe s₀ dirs base i (fun o r => loadInode s₀ n junk = .ok r.1
      ∧ At s₀ dirs base i point o r.2) others (loadInodeCut point s n junk) := by
  unfold loadInodeCut loadInode
  apply Cut.Safe.bind_lift
  intro pos hpos
  have hpos₀ : inodeLocate s₀ n = .ok pos := by
    rw [← hpos, inodeLocate, inodeLocate, h.inv.same.kassert, h.inv.same.sb]
  apply (ideReadCut_safe h _ _ _ _).bind
  rintro o ⟨buf, s'⟩ ⟨hread, hat⟩
  refine ⟨?_, hat⟩
  rw [hpos₀, Outcome.ok_bind, hread]
  rfl

theorem allBlocksCut_safe (h : At s₀ dirs base i point others s) (ino : Inode) :
    OpenSafe s₀ dirs base i (fun o r => allBlocks s₀ ino = .ok r.1
      ∧ At s₀ dirs base i point o r.2) others (allBlocksCut point s ino) := by
  unfold allBlocksCut allBlocks
  split
  · refine ⟨h.inv, fun o s' hinv hcur => Cut.Safe.bind_lift fun arr hread => ?_⟩
    rw [ideReadWords, hinv.same.kassert, hinv.same.disk] at hread
    exact ⟨hread, hinv, hcur⟩
  · exact ⟨rfl, h⟩

theorem searchBlocksCut_safe {all : Nat → Nat} {name : List UInt8} {left k : Nat}
    (h : At s₀ dirs base i point others s) :
    OpenSafe s₀ dirs base i (fun o r => searchBlocks s₀ all name left k = .ok r.1
      ∧ At s₀ dirs base i point o r.2) others (searchBlocksCut point all name left k s) := by
  induction left generalizing k others s with
  | zero => exact ⟨rfl, h⟩
  | succ left ih =>
      rw [searchBlocksCut, searchBlocks]
      split
      · exact ih h
      · apply (ideReadCut_safe h _ _ _ _).bind
        rintro o ⟨buf, s'⟩ ⟨hread, hat⟩
        dsimp only at hread hat ⊢
        have hfind : findName s' buf name = findName s₀ buf name := by
          rw [findName, findName, FsState.dirEntryPerSec, FsState.dirEntryPerSec, hat.inv.same.sb]
        rw [hread, Outcome.ok_bind, hfind]
        cases findName s₀ buf name with
        | some j => exact ⟨rfl, hat⟩
        | none => exact ih hat

/-! ## Nodes -/

/-- A node that the call has a directory open through. -/
theorem OpenInv.dir_open (h : OpenInv s₀ dirs base (point ::ₘ others) s)
    (hdir : point.dir = some (p, m)) : p ∈ s.part.openInodes ∧ (s.inodes p).iNo = m := by
  refine ⟨(h.counts.held p).2 ?_, (h.calls point (Multiset.mem_cons_self ..)).dir p m hdir⟩
  rw [holders_dir hdir, addRef_self]
  exact Nat.succ_pos _

/-- One more holder of an open node. -/
theorem OpenInv.openAgain (h : OpenInv s₀ dirs base others s) (hroom : Room base (maxCalls + 33))
    (hp : p ∈ s.part.openInodes) :
    OpenInv s₀ dirs (addRef base p) others
      (s.setInode p { s.inodes p with iOpenCnt := u32 ((s.inodes p).iOpenCnt + 1) }) := by
  refine h.mono ⟨rfl, rfl, rfl, rfl, rfl⟩ ?_ (fun _ hq => hq)
    (fun q => sameRecord_setOpenCnt s p _ q) rfl rfl
  rw [holders_addRef]
  exact h.counts.increment (h.room hroom) hp

/-- A directory is closed: its node may leave the list. -/
theorem OpenInv.inodeClose (h : OpenInv s₀ dirs base (point ::ₘ others) s)
    (hdir : point.dir = some (p, m)) (hpoint' : point' = { point with dir := none }) :
    OpenInv s₀ dirs base (point' ::ₘ others) (Fs.inodeClose s p) := by
  subst hpoint'
  have hlook := looks_inodeClose s p
  have hcounts : RefCounts (Fs.inodeClose s p) (holders base others s) := by
    have hcounts := h.counts
    rw [holders_dir hdir] at hcounts
    exact hcounts.inodeClose
  obtain ⟨cnt, hclose⟩ := inodeClose_eq s p
  have hopen : ∀ q ∈ (Fs.inodeClose s p).part.openInodes, q ∈ s.part.openInodes := by
    rw [hclose]
    split
    · exact fun q hq => List.mem_of_mem_erase hq
    · exact fun q hq => hq
  have hrec : ∀ q, SameRecord ((Fs.inodeClose s p).inodes q) (s.inodes q) := by
    rw [hclose]
    split <;> exact fun q => sameRecord_setOpenCnt s p cnt q
  have hprocs : (Fs.inodeClose s p).procs = s.procs := by rw [hlook.same]
  obtain ⟨hpoint, hothers⟩ := Multiset.forall_mem_cons.1 h.calls
  obtain ⟨hfirst, hrest⟩ := pairwise_cons.1 h.apart
  have hmono := fun {x : OpenPoint} (hx : PointOk s x) =>
    hx.mono hopen (fun q => (hrec q).iNo) hlook.fileTable hprocs
  exact {
    same := ⟨by rw [hlook.same]; exact h.same.ndebug, hlook.disk.trans h.same.disk,
      hlook.sb.trans h.same.sb, by rw [hlook.same]; exact h.same.heapJunk,
      by rw [hlook.same]; exact h.same.rootInode⟩
    few := by
      rw [Multiset.card_cons]
      exact (Multiset.card_cons point others) ▸ h.few
    counts := by
      rw [holders_noDir (show ({ point with dir := none } : OpenPoint).dir = none from rfl)]
      have hholders : holders base others (Fs.inodeClose s p) = holders base others s := by
        funext q
        rw [holders, holders, fileRefs_congr hlook.fileTable]
      rw [hholders]
      exact hcounts
    distinct := fun q hq r hr heq => by
      rw [(hrec q).iNo, (hrec r).iNo] at heq
      exact h.distinct q (hopen q hq) r (hopen r hr) heq
    node := fun m' ino hm' q hq hno => by
      rw [(hrec q).iNo] at hno
      exact (hrec q).trans (h.node m' ino hm' q (hopen q hq) hno)
    root := (hrec _).iNo.trans h.root
    calls := by
      refine Multiset.forall_mem_cons.2 ⟨?_, fun x hx => hmono (hothers x hx)⟩
      have hok := hmono hpoint
      exact ⟨fun _ _ hnone => (by cases hnone), hok.slot, hok.iNo, hok.got⟩
    apart := pairwise_cons.2 ⟨fun y hy => by
        have hapart := (hfirst y hy).congr hprocs
        exact ⟨hapart.slot, hapart.iNo, hapart.got⟩,
      pairwise_mono hrest fun _ _ _ _ hxy => hxy.congr hprocs⟩ }

theorem OpenInv.dir_mem (h : OpenInv s₀ dirs base others s) (hpoint : point ∈ others)
    (hdir : point.dir = some (p, m)) : p ∈ s.part.openInodes := by
  refine (h.counts.held p).2 ?_
  have hpos : 0 < others.countP (OpenPoint.holds p) := by
    refine Multiset.countP_pos.2 ⟨point, hpoint, ?_⟩
    unfold OpenPoint.holds
    rw [hdir]
    rfl
  rw [holders]
  omega

/-- An entry of the file table keeps its node open. -/
theorem OpenInv.slot_mem (h : OpenInv s₀ dirs base others s) {k : Nat} (hk : k < maxFileOpen)
    (hp : (s.fileTable k).fdInode = some p) (hpipe : isPipe s k = false) :
    p ∈ s.part.openInodes := by
  refine (h.counts.held p).2 ?_
  have hpos : 0 < fileRefs s p :=
    List.countP_pos_iff.2 ⟨k, List.mem_range.2 hk, decide_eq_true ⟨hp, hpipe⟩⟩
  rw [holders]
  omega

theorem OpenInv.root_mem (h : OpenInv s₀ dirs base others s) (hroot : 0 < base s₀.rootInode) :
    s₀.rootInode ∈ s.part.openInodes := by
  refine (h.counts.held _).2 ?_
  rw [holders]
  omega

/-- The inode that was read becomes a node: it is the only one of its number,
    since nobody else has read it. -/
theorem OpenInv.pushOpen {ino : Inode} (h : OpenInv s₀ dirs base (point ::ₘ others) s)
    (hroot : 0 < base s₀.rootInode) (hiNo : point.iNo = some n) (hno : ino.iNo = n)
    (hrec : ∀ ino₁, dirs n = some ino₁ → SameRecord ino ino₁)
    (hpoint' : point' = { point with iNo := none }) :
    OpenInv s₀ dirs (addRef base s.nextNode) (point' ::ₘ others)
      ((s.newNode { ino with iOpenCnt := 1 }).pushOpen s.nextNode) := by
  subst hpoint'
  let t := (s.newNode { ino with iOpenCnt := 1 }).pushOpen s.nextNode
  have hlt := h.counts.lt
  have hself : t.inodes s.nextNode = { ino with iOpenCnt := 1 } := Function.update_self ..
  have hother : ∀ q ∈ s.part.openInodes, t.inodes q = s.inodes q := fun q hq =>
    Function.update_of_ne (Nat.ne_of_lt (hlt q hq)) _ _
  have hmem : ∀ q, q ∈ t.part.openInodes ↔ q = s.nextNode ∨ q ∈ s.part.openInodes := fun q =>
    List.mem_cons
  obtain ⟨hpoint, hothers⟩ := Multiset.forall_mem_cons.1 h.calls
  obtain ⟨hfirst, hrest⟩ := pairwise_cons.1 h.apart
  have hclosed := findOpen_none.1 (hpoint.iNo n hiNo)
  have hnew : ∀ q ∈ s.part.openInodes, (t.inodes q).iNo ≠ (t.inodes s.nextNode).iNo := by
    intro q hq
    rw [hother q hq, hself]
    exact fun heq => hclosed q hq (heq.trans hno)
  -- what the calls know about their nodes is about nodes that were open before
  have hcall : ∀ x ∈ point ::ₘ others,
      (∀ q m, x.dir = some (q, m) → (t.inodes q).iNo = m)
        ∧ ∀ g, x.got = some g → ∃ k q : Nat, slotOf t g = (k : Int) ∧ k < maxFileOpen
          ∧ (t.fileTable k).fdInode = some q ∧ isPipe t k = false ∧ (t.inodes q).iNo = g.2.2 := by
    intro x hx
    have hok := h.calls x hx
    refine ⟨fun q m hdir => ?_, fun g hgot => ?_⟩
    · rw [hother q (h.dir_mem hx hdir)]
      exact hok.dir q m hdir
    · obtain ⟨k, q, hk, hlt', hnode, hpipe, hn⟩ := hok.got g hgot
      refine ⟨k, q, hk, hlt', hnode, hpipe, ?_⟩
      rw [hother q (h.slot_mem hlt' hnode hpipe)]
      exact hn
  exact {
    same := ⟨h.same.ndebug, h.same.disk, h.same.sb, h.same.heapJunk, h.same.rootInode⟩
    few := by
      rw [Multiset.card_cons]
      exact (Multiset.card_cons point others) ▸ h.few
    counts := by
      have hholders : holders (addRef base s.nextNode) ({ point with iNo := none } ::ₘ others) t
          = addRef (holders base (point ::ₘ others) s) s.nextNode := by
        rw [holders_addRef]
        refine congrArg (fun f => addRef f s.nextNode) (funext fun q => ?_)
        rw [holders_cons, holders_cons]
        rfl
      rw [hholders]
      exact h.counts.push (fun hin => Nat.lt_irrefl _ (hlt _ hin)) rfl (Nat.lt_succ_self _)
        (Nat.le_succ _) rfl (fun q hq => congrArg Inode.iOpenCnt (hother q hq))
        (congrArg Inode.iOpenCnt hself)
    distinct := fun q hq r hr heq => by
      rcases (hmem q).1 hq with rfl | hq <;> rcases (hmem r).1 hr with rfl | hr
      · rfl
      · exact absurd heq.symm (hnew r hr)
      · exact absurd heq (hnew q hq)
      · rw [hother q hq, hother r hr] at heq
        exact h.distinct q hq r hr heq
    node := fun m ino₁ hm q hq hno' => by
      rcases (hmem q).1 hq with rfl | hq
      · rw [hself] at hno' ⊢
        obtain rfl : n = m := hno.symm.trans hno'
        have hrec := hrec ino₁ hm
        exact ⟨hrec.iNo, hrec.iSize, hrec.iSectors⟩
      · rw [hother q hq] at hno' ⊢
        exact h.node m ino₁ hm q hq hno'
    root := by
      rw [hother _ (h.root_mem hroot)]
      exact h.root
    calls := by
      refine Multiset.forall_mem_cons.2 ⟨?_, fun x hx => ?_⟩
      · obtain ⟨hdir, hgot⟩ := hcall point (Multiset.mem_cons_self ..)
        exact ⟨hdir, hpoint.slot, fun _ hnone => (by cases hnone), hgot⟩
      · obtain ⟨hdir, hgot⟩ := hcall x (Multiset.mem_cons_of_mem hx)
        refine ⟨hdir, (hothers x hx).slot, fun n' hn' => findOpen_none.2 fun q hq => ?_, hgot⟩
        rcases (hmem q).1 hq with rfl | hq
        · rw [hself]
          exact fun heq => (hfirst x hx).iNo n hiNo ((heq.symm.trans hno) ▸ hn')
        · rw [hother q hq]
          exact findOpen_none.1 ((hothers x hx).iNo n' hn') q hq
    apart := pairwise_cons.2 ⟨fun y hy => by
        have hapart := (hfirst y hy).congr (t := t) rfl
        exact ⟨hapart.slot, fun _ hnone => (by cases hnone), hapart.got⟩,
      pairwise_mono hrest fun _ _ _ _ hxy => hxy.congr rfl⟩ }

/-! ## The functions of a search -/

/-- The parameters of a run: the tree, the holders besides the calls and the
    file table, and that they leave room. -/
structure Setup (s₀ : FsState) (dirs : Nat → Option Inode) (base : Nat → Nat) : Prop where
  tree : TreeOnDisk s₀ dirs
  room : Room base (maxCalls + 33)
  root : 0 < base s₀.rootInode

/-- `inode_open` gives the only node of the number, with one holder more. -/
theorem inodeOpenCut_safe (hsetup : Setup s₀ dirs base) (h : At s₀ dirs base i point others s)
    (hpoint : point.iNo = none) (hknown : Known s₀ dirs n) :
    OpenSafe s₀ dirs base i (fun o r => At s₀ dirs (addRef base r.1) i point o r.2
      ∧ (r.2.inodes r.1).iNo = n) others (inodeOpenCut point s n) := by
  unfold inodeOpenCut
  cases hfind : findOpen s n with
  | some p =>
      obtain ⟨hp, hno⟩ := findOpen_some hfind
      refine ⟨⟨h.inv.openAgain hsetup.room hp, h.cur⟩, ?_⟩
      rw [(sameRecord_setOpenCnt s p _ p).iNo]
      exact hno
  | none =>
      intro hmisses
      dsimp only
      have hmalloc := h.countMalloc.countMalloc
      cases hnode : sysMalloc s with
      | mk node s₁ =>
      cases hbuf : sysMalloc s₁ with
      | mk inodeBuf s₂ =>
      have hs₁ := sysMalloc_state hnode
      have hs₂ := sysMalloc_state hbuf
      subst hs₁
      subst hs₂
      dsimp only
      cases node with
      | none => trivial
      | some node =>
        cases inodeBuf with
        | none => trivial
        | some inodeBuf =>
          -- the number becomes one that is being read
          have hreading : At s₀ dirs base i { point with iNo := some n } others
              s.countMalloc.countMalloc := by
            refine ⟨hmalloc.inv.setPoint rfl ?_ fun y hy => ?_, hmalloc.cur⟩
            · have hok := hmalloc.inv.calls point (Multiset.mem_cons_self ..)
              refine ⟨hok.dir, hok.slot, fun n' hn' => ?_, hok.got⟩
              cases hn'
              exact hfind
            · have hapart := (pairwise_cons.1 hmalloc.inv.apart).1 y hy
              refine ⟨hapart.slot, fun n' hn' => ?_, hapart.got⟩
              cases hn'
              exact hmisses y hy
          apply (loadInodeCut_safe hreading _).bind
          rintro o ⟨ino, s'⟩ ⟨hload, hat⟩
          apply Cut.Safe.bind_lift
          rintro - -
          rw [FsState.countMalloc_heapJunk, FsState.countMalloc_heapJunk, h.inv.same.heapJunk]
            at hload
          obtain ⟨hno, hrec⟩ := hknown _ _ hload
          refine ⟨⟨hat.inv.pushOpen hsetup.root rfl hno hrec ?_, hat.cur⟩, ?_⟩
          · rw [← hpoint]
          · change (Function.update s'.inodes s'.nextNode _ s'.nextNode).iNo = n
            rw [Function.update_self]
            exact hno

/-- The point of a call that stands in directory `m`. -/
def Dir.pointAt (dir : Dir) (m : Nat) : OpenPoint where
  dir := dir.block.map fun _ => (dir.inode, m)

/-- The call stands in directory `m` of the tree, which `dir` is open for. -/
structure StandsIn (s₀ : FsState) (dirs : Nat → Option Inode) (base : Nat → Nat) (i : Nat)
    (dir : Dir) (m : Nat) (others : Multiset OpenPoint) (s : FsState) : Prop where
  at_ : At s₀ dirs base i (dir.pointAt m) others s
  rootDir : dir.block = none → dir.inode = s₀.rootInode ∧ m = 0

variable {dir : Dir}

/-- The node of the directory. -/
theorem StandsIn.node (h : StandsIn s₀ dirs base i dir m others s) (hsetup : Setup s₀ dirs base) :
    dir.inode ∈ s.part.openInodes ∧ (s.inodes dir.inode).iNo = m := by
  cases hblock : dir.block with
  | none =>
      obtain ⟨hroot, rfl⟩ := h.rootDir hblock
      rw [hroot]
      exact ⟨h.at_.inv.root_mem hsetup.root, h.at_.inv.root⟩
  | some block =>
      refine h.at_.inv.dir_open ?_
      rw [Dir.pointAt, hblock]
      rfl

theorem StandsIn.point_eq (h : StandsIn s₀ dirs base i dir m others s)
    (hsetup : Setup s₀ dirs base) : dir.point s = dir.pointAt m := by
  rw [Dir.point, Dir.pointAt, (h.node hsetup).2]

/-- `dir_open` -/
theorem dirOpenCut_safe (hsetup : Setup s₀ dirs base) (h : At s₀ dirs base i {} others s)
    (hm : dirs m ≠ none) :
    OpenSafe s₀ dirs base i (fun o r => StandsIn s₀ dirs base i r.1 m o r.2) others
      (dirOpenCut {} s m) := by
  unfold dirOpenCut
  cases hblock : sysMalloc s with
  | mk block s₁ =>
  have hs₁ := sysMalloc_state hblock
  subst hs₁
  dsimp only
  cases block with
  | none => trivial
  | some block =>
      apply (inodeOpenCut_safe hsetup h.countMalloc rfl (hsetup.tree.knownDir m hm)).bind
      rintro o ⟨p, s'⟩ ⟨hat, hno⟩
      dsimp only at hat hno
      -- the new holder is the directory
      refine ⟨⟨?_, hat.cur⟩, fun hnone => absurd hnone (Option.some_ne_none block)⟩
      have hinv := hat.inv
      have hcounts := hinv.counts
      rw [holders_addRef, holders_noDir rfl] at hcounts
      obtain ⟨hok, hothers⟩ := Multiset.forall_mem_cons.1 hinv.calls
      obtain ⟨hfirst, hrest⟩ := pairwise_cons.1 hinv.apart
      refine ⟨hinv.same, ?_, ?_, hinv.distinct, hinv.node, hinv.root,
        Multiset.forall_mem_cons.2 ⟨⟨fun q m' hdir => ?_, hok.slot, hok.iNo, hok.got⟩, hothers⟩,
        pairwise_cons.2 ⟨fun y hy => ?_, hrest⟩⟩
      · rw [Multiset.card_cons]
        exact (Multiset.card_cons ({} : OpenPoint) o) ▸ hinv.few
      · rw [holders_dir (show (Dir.pointAt { inode := p, dirPos := 0, block := some block } m).dir
          = some (p, m) from rfl)]
        exact hcounts
      · cases hdir
        exact hno
      · exact ⟨(hfirst y hy).slot, (hfirst y hy).iNo, (hfirst y hy).got⟩

/-- `dir_close` gives the directory back. -/
theorem StandsIn.dirClose (h : StandsIn s₀ dirs base i dir m others s) {s' : FsState}
    (hcall : Fs.dirClose s dir = .ok s') : At s₀ dirs base i {} others s' := by
  unfold Fs.dirClose at hcall
  cases hblock : dir.block with
  | none =>
      rw [hblock] at hcall
      cases hcall
      have hpoint : dir.pointAt m = {} := by
        rw [Dir.pointAt, hblock]
        rfl
      rw [← hpoint]
      exact h.at_
  | some block =>
      rw [hblock] at hcall
      obtain ⟨_, -, hcall⟩ := Outcome.bind_eq_ok.1 hcall
      rw [← Except.ok.inj hcall]
      have hdir : (dir.pointAt m).dir = some (dir.inode, m) := by
        rw [Dir.pointAt, hblock]
        rfl
      refine ⟨h.at_.inv.inodeClose hdir rfl, ?_⟩
      have hcur : (Fs.inodeClose s dir.inode).cur = s.cur := by
        rw [(looks_inodeClose s dir.inode).same]
      rw [hcur]
      exact h.at_.cur

/-- `search_dir_entry` finds the first entry with the name. -/
theorem searchDirEntryCut_safe {name : List UInt8} (hsetup : Setup s₀ dirs base)
    (h : StandsIn s₀ dirs base i dir m others s) (hm : dirs m ≠ none) (hname : IsName name) :
    OpenSafe s₀ dirs base i (fun o r => StandsIn s₀ dirs base i dir m o r.2
        ∧ r.1.map DirEntry.entry = lookup (treeEntries s₀.disk dirs m) name) others
      (searchDirEntryCut (dir.point s) s dir.inode name) := by
  obtain ⟨ino, hino⟩ := dirs_some hm
  have hrep := hsetup.tree.rep m ino hino
  have hnode := h.node hsetup
  have hrec := h.at_.inv.node m ino hino dir.inode hnode.1 hnode.2
  rw [h.point_eq hsetup]
  unfold searchDirEntryCut
  cases hall : sysMalloc s with
  | mk allBlocksLba s₁ =>
  have hs₁ := sysMalloc_state hall
  subst hs₁
  dsimp only
  cases allBlocksLba with
  | none => trivial
  | some allBlocksLba =>
      apply (allBlocksCut_safe h.at_.countMalloc _).bind
      rintro o ⟨all, s'⟩ ⟨hread, hat⟩
      cases hbuf : sysMalloc s' with
      | mk buf s₂ =>
      have hs₂ := sysMalloc_state hbuf
      subst hs₂
      dsimp only at hread ⊢
      cases buf with
      | none => trivial
      | some buf =>
          apply (searchBlocksCut_safe hat.countMalloc).bind
          rintro o' ⟨dirE, s''⟩ ⟨hsearch, hat'⟩
          apply Cut.Safe.bind_lift
          rintro - -
          apply Cut.Safe.bind_lift
          rintro - -
          refine ⟨⟨hat', h.rootDir⟩, ?_⟩
          -- what was read is what the disk holds
          have hdisk : ∀ j, blockRef s₀.disk (s.inodes dir.inode) j ≤ maxLba := by
            intro j
            rw [hrec.blockRef_eq]
            exact hrep.onDisk j
          obtain ⟨all', hread', href, hle⟩ := allBlocks_eq hdisk
          have hread : allBlocks s₀ (s.inodes dir.inode) = .ok all := hread
          rw [hread] at hread'
          cases hread'
          have hclear : ∀ j, 0 ≤ j → j < 0 + 140 → all j ≠ 0 → ∀ i, i < slotsPerBlock →
              slotEntry s₀.disk (all j) i = none → ∀ a, a < dirEntryBytes →
                s₀.disk (all j * 512 + dirEntryBytes * i + a) = 0 := by
            intro j _ hj
            rw [href j (by omega), hrec.blockRef_eq]
            exact fun hne => hrep.clear j hne (by omega)
          obtain ⟨r, hr, hentry⟩ := searchBlocks_spec (s := s₀) (k := 0) hle hrep.perSec hname hclear
          dsimp only at hsearch
          rw [hsearch] at hr
          cases hr
          rw [hentry, entriesFrom_eq href, hrec.dirEntries_eq, treeEntries_some hino]
          rfl

/-! ## search_file -/

/-- What a search gives that went to what `found` says. -/
structure FoundIn (s₀ : FsState) (dirs : Nat → Option Inode) (base : Nat → Nat) (i : Nat)
    (found : Option Found) (others : Multiset OpenPoint)
    (r : Option Nat × PathSearchRecord × FsState) : Prop where
  iNo : r.1 = found.map Found.iNo
  fType : ∀ f, found = some f → r.2.1.fileType = f.fType
  stands : ∃ m, StandsIn s₀ dirs base i r.2.1.parentDir m others r.2.2

variable {f : Found} {dirE : Option DirEntry} {name searchedPath : List UInt8}
  {subPath : Option (List UInt8)}

/-- Where the loop of `search_file` stands. -/
structure SearchingIn (s₀ : FsState) (dirs : Nat → Option Inode) (base : Nat → Nat) (i : Nat)
    (dir : Dir) (f : Found) (dirE : Option DirEntry) (others : Multiset OpenPoint)
    (s : FsState) : Prop where
  stands : StandsIn s₀ dirs base i dir f.iNo others s
  directory : f.fType = .directory
  isDir : dirs f.iNo ≠ none
  parentIsDir : dirs f.parent ≠ none
  entry : ∀ de, dirE = some de → de.iNo = f.iNo

theorem SearchingIn.searchEnd (hsetup : Setup s₀ dirs base)
    (h : SearchingIn s₀ dirs base i dir f dirE others s) (hsome : dirE ≠ none) :
    OpenSafe s₀ dirs base i (FoundIn s₀ dirs base i (some f)) others
      (searchEndCut dir f.parent dirE searchedPath s) := by
  unfold searchEndCut
  apply Cut.Safe.bind_lift
  intro s₁ hclose
  apply (dirOpenCut_safe hsetup (h.stands.dirClose hclose) h.parentIsDir).bind
  rintro o ⟨parentDir, s₂⟩ hstands
  obtain ⟨de, rfl⟩ := Option.ne_none_iff_exists'.1 hsome
  refine ⟨?_, fun g hg => ?_, f.parent, hstands⟩
  · dsimp only
    rw [h.entry de rfl, inodeNoAsInt_of_lt (hsetup.tree.small _ h.isDir)]
    rfl
  · cases hg
    exact h.directory.symm

/-- An entry of a directory of the tree. -/
theorem TreeOnDisk.lookup_cases (h : TreeOnDisk s₀ dirs) {e : Entry}
    (hlookup : lookup (treeEntries s₀.disk dirs m) name = some e) :
    e.fType = FileType.directory.toWord ∧ dirs e.iNo ≠ none
      ∨ e.fType = FileType.regular.toWord ∧ e.iNo < 4096 := by
  have hmem := List.mem_of_find?_eq_some hlookup
  cases hm : dirs m with
  | none =>
      rw [treeEntries, hm] at hmem
      cases hmem
  | some ino =>
      rw [treeEntries_some hm] at hmem
      exact h.entry m ino e hm hmem

/-- The loop of `search_file` follows `reach`. -/
theorem searchLoopCut_safe (hsetup : Setup s₀ dirs base) {fuel : Nat}
    (h : SearchingIn s₀ dirs base i dir f dirE others s)
    (hsome : namesLeft name subPath = [] → dirE ≠ none)
    (hnames : ∀ n ∈ namesLeft name subPath, IsName n) :
    OpenSafe s₀ dirs base i (FoundIn s₀ dirs base i
        (reach (treeEntries s₀.disk dirs) f (namesLeft name subPath))) others
      (searchLoopCut fuel name subPath dir f.parent dirE searchedPath s) := by
  induction fuel generalizing name subPath dir f dirE searchedPath s others with
  | zero =>
      rw [searchLoopCut]
      split
      · have hnil : namesLeft name subPath = [] := if_pos ‹_›
        rw [hnil]
        exact h.searchEnd hsetup (hsome hnil)
      · trivial
  | succ fuel ih =>
      rw [searchLoopCut]
      by_cases hname : name = []
      · have hnil : namesLeft name subPath = [] := if_pos hname
        rw [if_pos hname, hnil]
        exact h.searchEnd hsetup (hsome hnil)
      rw [namesLeft_ne_nil hname] at hnames ⊢
      have hisName := hnames name List.mem_cons_self
      rw [if_neg hname]
      dsimp only
      apply Cut.Safe.bind_lift
      rintro - -
      apply Cut.Safe.bind_lift
      rintro path -
      apply (searchDirEntryCut_safe hsetup h.stands h.isDir hisName).bind
      rintro o ⟨found, s₁⟩ ⟨hstands, hfound⟩
      have hstep : nextFound (treeEntries s₀.disk dirs) f name
          = (found.map DirEntry.entry).map (Entry.found f.iNo) := by
        rw [nextFound, if_pos h.directory, hfound]
      rw [reach, hstep]
      dsimp only at hstands hfound ⊢
      cases found with
      | none => exact ⟨rfl, fun _ hg => (by cases hg), f.iNo, hstands⟩
      | some de =>
          apply Cut.Safe.bind_lift
          rintro ⟨name', subPath'⟩ hparse
          have hleft : namesLeft name' subPath' = (subPath.map (words slash)).getD [] := by
            have hmeets : Outcome.Meets True (parseNext subPath) fun r =>
                namesLeft r.1 r.2 = (subPath.map (words slash)).getD [] :=
              parseNext_meets fun n hn => (hnames n (List.mem_cons_of_mem _ hn)).length_lt
            exact hmeets.post _ hparse
          dsimp only
          rw [← hleft] at hnames ⊢
          rw [Option.map_some, Option.map_some, Option.bind_some]
          rcases hsetup.tree.lookup_cases hfound.symm with ⟨hdir, hisDir⟩ | ⟨hreg, hlt⟩
          · -- a directory: its parent is closed, and the search goes on in it
            have hdir : de.fType = FileType.directory.toWord := hdir
            have hisDir : dirs de.iNo ≠ none := hisDir
            have hfType : (de.entry.found f.iNo).fType = .directory := if_pos hdir
            rw [if_pos hdir, if_pos hfType, (hstands.node hsetup).2]
            apply Cut.Safe.bind_lift
            intro s₂ hclose
            apply (dirOpenCut_safe hsetup (hstands.dirClose hclose) hisDir).bind
            rintro o' ⟨dir', s₃⟩ hstands'
            refine ih (f := de.entry.found f.iNo) ⟨hstands', hfType, hisDir, h.isDir, ?_⟩
              (fun _ => Option.some_ne_none de) fun n hn => hnames n (List.mem_cons_of_mem _ hn)
            intro de' hde'
            cases hde'
            rfl
          · -- a regular file: the search ends here
            have hreg : de.fType = FileType.regular.toWord := hreg
            have hlt : de.iNo < 4096 := hlt
            have hnot : ¬ de.fType = FileType.directory.toWord := by
              rw [hreg]
              decide
            have hfType : (de.entry.found f.iNo).fType = .regular := if_neg hnot
            rw [if_neg hnot, if_pos hreg, if_neg (by rw [hfType]; decide)]
            refine ⟨?_, fun g hg => ?_, f.iNo, hstands⟩
            · dsimp only
              rw [inodeNoAsInt_of_lt hlt]
              rfl
            · cases hg
              exact hfType.symm

/-- What `search_file` finds: it does not look at the disk for the root. -/
def searchFound (tree : Nat → List Entry) (path : List UInt8) : Option Found :=
  if isRootPath path then some rootFound else reach tree rootFound (words slash path)

/-- `search_file` of a path that is the root's or has a name. -/
theorem searchFileCut_safe {path : List UInt8} (hsetup : Setup s₀ dirs base)
    (h : At s₀ dirs base i {} others s) (hpath : PathOk path) (hne : words slash path ≠ []) :
    OpenSafe s₀ dirs base i
      (FoundIn s₀ dirs base i (searchFound (treeEntries s₀.disk dirs) path)) others
      (searchFileCut s path) := by
  have hroot : s.rootDir.inode = s₀.rootInode := h.inv.same.rootInode
  have hstands : StandsIn s₀ dirs base i s.rootDir 0 others s := ⟨h, fun _ => ⟨hroot, rfl⟩⟩
  unfold searchFileCut searchFound
  split
  · exact ⟨rfl, fun f hf => Option.some.inj hf ▸ rfl, 0, hstands⟩
  apply Cut.Safe.bind_lift
  rintro - -
  apply Cut.Safe.bind_lift
  rintro ⟨name, subPath⟩ hparse
  have hleft : namesLeft name subPath = words slash path := by
    have hmeets : Outcome.Meets True (parseNext (some path))
        (fun r => namesLeft r.1 r.2 = words slash path) :=
      @parseNext_meets _ (some path) hpath.names
    exact hmeets.post _ hparse
  have hstart : SearchingIn s₀ dirs base i s.rootDir rootFound none others s :=
    ⟨hstands, rfl, hsetup.tree.root, hsetup.tree.root, fun _ hde => (by cases hde)⟩
  rw [← hleft] at hne ⊢
  refine searchLoopCut_safe hsetup hstart (fun hnil => absurd hnil hne) ?_
  rw [hleft]
  exact hpath.isName

/-! ## file_open -/

variable {k flag : Nat}

/-- The slot that the call has found is filled: no other call has found one, and
    no descriptor leads to it. -/
theorem OpenInv.fill (h : OpenInv s₀ dirs (addRef base p) (point ::ₘ others) s)
    (hslot : point.slot = some k) (hflag : flag ≠ pipeFlag)
    (hpoint' : point' = { point with slot := none }) :
    OpenInv s₀ dirs base (point' ::ₘ others)
        (s.setFd k { fdPos := 0, fdFlag := flag, fdInode := some p })
      ∧ ∀ y ∈ others, ∀ g, y.got = some g → slotOf s g ≠ k := by
  subst hpoint'
  let t := s.setFd k { fdPos := 0, fdFlag := flag, fdInode := some p }
  obtain ⟨hpoint, hothers⟩ := Multiset.forall_mem_cons.1 h.calls
  obtain ⟨hfirst, hrest⟩ := pairwise_cons.1 h.apart
  obtain ⟨-, hk, hfree⟩ := hpoint.slot k hslot
  have htable : ∀ j, j ≠ k → t.fileTable j = s.fileTable j := fun j hj =>
    Function.update_of_ne hj _ _
  have hgot : ∀ x, PointOk s x → ∀ g, x.got = some g → ∃ j q : Nat, slotOf t g = (j : Int)
      ∧ j < maxFileOpen ∧ (t.fileTable j).fdInode = some q ∧ isPipe t j = false
      ∧ (t.inodes q).iNo = g.2.2 := by
    intro x hx g hg
    obtain ⟨j, q, hj, hlt, hnode, hpipe, hn⟩ := hx.got g hg
    have hne : j ≠ k := by
      rintro rfl
      rw [hfree] at hnode
      cases hnode
    refine ⟨j, q, hj, hlt, ?_, ?_, hn⟩
    · rw [htable j hne]
      exact hnode
    · rw [isPipe, htable j hne]
      exact hpipe
  refine ⟨⟨h.same.setFd k _, ?_, ?_, h.distinct, h.node, h.root, ?_, ?_⟩,
    fun y hy g hg heq => ?_⟩
  · rw [Multiset.card_cons]
    exact (Multiset.card_cons point others) ▸ h.few
  · -- the new entry is the holder that the node has already
    have hholders : holders base ({ point with slot := none } ::ₘ others) t
        = holders (addRef base p) (point ::ₘ others) s := by
      rw [holders_addRef]
      have hrefs : ∀ q, fileRefs t q = addRef (fileRefs s) p q := by
        intro q
        have hcount := fileRefs_setFd hk (FsState.setFd_fileTable s k ⟨0, flag, some p⟩) q
        change fileRefs t q + _ = _ at hcount
        rw [if_neg (fun hand => by rw [hfree] at hand; cases hand.1)] at hcount
        have hpipe : (flag == pipeFlag) = false := beq_eq_false_iff_ne.2 hflag
        by_cases hq : q = p
        · rw [hq] at hcount ⊢
          rw [if_pos ⟨rfl, hpipe⟩] at hcount
          rw [addRef_self]
          exact hcount
        · rw [if_neg (fun hand => hq (Option.some.inj hand.1).symm)] at hcount
          rw [addRef_of_ne hq]
          exact hcount
      funext q
      by_cases hq : q = p
      · rw [hq, addRef_self, holders, holders, hrefs, addRef_self, Multiset.countP_cons,
          Multiset.countP_cons]
        change base p + (fileRefs s p + 1) + (_ + if point.holds p then 1 else 0) = _
        omega
      · rw [addRef_of_ne hq, holders, holders, hrefs, addRef_of_ne hq, Multiset.countP_cons,
          Multiset.countP_cons]
        rfl
    rw [hholders]
    exact h.counts.setFd k _
  · refine Multiset.forall_mem_cons.2 ⟨?_, fun x hx => ?_⟩
    · exact ⟨hpoint.dir, fun _ hnone => (by cases hnone), hpoint.iNo, hgot point hpoint⟩
    · have hok := hothers x hx
      refine ⟨hok.dir, fun j hj => ?_, hok.iNo, hgot x hok⟩
      rcases (hfirst x hx).slot with hnone | hnone
      · rw [hslot] at hnone
        cases hnone
      · rw [hnone] at hj
        cases hj
  · refine pairwise_cons.2 ⟨fun y hy => ?_, pairwise_mono hrest fun _ _ _ _ hxy => hxy.congr rfl⟩
    have hapart := (hfirst y hy).congr (t := t) rfl
    exact ⟨.inl rfl, hapart.iNo, hapart.got⟩
  · obtain ⟨j, q, hj, -, hnode, -⟩ := (hothers y hy).got g hg
    rw [hj] at heq
    obtain rfl : j = k := Int.ofNat_inj.1 heq
    rw [hfree] at hnode
    cases hnode

theorem sameRecord_setDeny (s : FsState) (p : Nat) (deny : Bool) (q : Nat) :
    SameRecord ((s.setInode p { s.inodes p with writeDeny := deny }).inodes q) (s.inodes q) := by
  rw [FsState.setInode_inodes]
  by_cases hq : q = p
  · rw [hq, Function.update_self]
    exact ⟨rfl, rfl, fun _ _ => rfl⟩
  · rw [Function.update_of_ne hq]
    exact .refl _

theorem OpenInv.setDeny (h : OpenInv s₀ dirs base others s) (p : Nat) (deny : Bool) :
    OpenInv s₀ dirs base others (s.setInode p { s.inodes p with writeDeny := deny }) :=
  h.mono ⟨rfl, rfl, rfl, rfl, rfl⟩ (h.counts.setDeny p deny) (fun _ hq => hq)
    (fun q => sameRecord_setDeny s p deny q) rfl rfl

/-- What is left of a call of process `i` that returned `fd` for inode `n`. -/
def gotOf (i : Nat) (fd : Int) (n : Nat) : Option (Nat × Nat × Nat) :=
  if 0 ≤ fd then some (i, fd.toNat, n) else none

/-- The descriptor leads to a slot that no other descriptor leads to. -/
theorem OpenInv.install (h : OpenInv s₀ dirs base (point ::ₘ others) s) (hgot : point.got = none)
    (hk : k < maxFileOpen) (hnode : (s.fileTable k).fdInode = some p) (hpipe : isPipe s k = false)
    (hno : (s.inodes p).iNo = n) (hfree : ∀ y ∈ others, ∀ g, y.got = some g → slotOf s g ≠ k) :
    OpenInv s₀ dirs base ({ point with got := gotOf s.cur (pcbFdInstall s k).1 n } ::ₘ others)
      (pcbFdInstall s k).2 := by
  unfold pcbFdInstall
  cases hfd : freeLocalFd s.task with
  | none =>
      have hpoint : ({ point with got := gotOf s.cur (-1) n } : OpenPoint) = point := by
        rw [gotOf, if_neg (by decide), ← hgot]
      dsimp only
      rw [hpoint]
      exact h
  | some j =>
      have hminus : (s.procs s.cur).fdTable j = -1 := by
        change s.task.fdTable j = -1
        simpa using List.find?_some
          (show (List.range' 3 (maxFileOpenPerProc - 3)).find? _ = some j from hfd)
      dsimp only
      let t := s.setTask { s.task with fdTable := Function.update s.task.fdTable j (k : Int) }
      have hslotOf : ∀ g, slotOf s g ≠ -1 → slotOf t g = slotOf s g := by
        intro g hg
        change (Function.update s.procs s.cur _ g.1).fdTable g.2.1 = (s.procs g.1).fdTable g.2.1
        by_cases hcur : g.1 = s.cur
        · have hne : g.2.1 ≠ j := by
            intro hj
            rw [slotOf, hcur, hj] at hg
            exact hg hminus
          rw [hcur, Function.update_self]
          exact Function.update_of_ne hne _ _
        · rw [Function.update_of_ne hcur]
      have hself : slotOf t (s.cur, j, n) = k := by
        change (Function.update s.procs s.cur _ s.cur).fdTable j = k
        rw [Function.update_self]
        exact Function.update_self ..
      have hvalid : ∀ x, PointOk s x → ∀ g, x.got = some g → slotOf s g ≠ -1 := by
        intro x hx g hg
        obtain ⟨k', -, hk', -⟩ := hx.got g hg
        rw [hk']
        omega
      obtain ⟨hpoint, hothers⟩ := Multiset.forall_mem_cons.1 h.calls
      obtain ⟨hfirst, hrest⟩ := pairwise_cons.1 h.apart
      refine ⟨h.same.setTask _, ?_, ?_, h.distinct, h.node, h.root, ?_, ?_⟩
      · rw [Multiset.card_cons]
        exact (Multiset.card_cons point others) ▸ h.few
      · have hholders : holders base ({ point with got := gotOf s.cur j n } ::ₘ others) t
            = holders base (point ::ₘ others) s := by
          funext q
          rw [holders_cons, holders_cons]
          rfl
        rw [hholders]
        exact h.counts.setTask _
      · refine Multiset.forall_mem_cons.2 ⟨⟨hpoint.dir, hpoint.slot, hpoint.iNo, fun g hg => ?_⟩,
          fun x hx => ?_⟩
        · rw [gotOf, if_pos (Int.natCast_nonneg j), Int.toNat_natCast] at hg
          cases hg
          exact ⟨k, p, hself, hk, hnode, hpipe, hno⟩
        · have hok := hothers x hx
          refine ⟨hok.dir, hok.slot, hok.iNo, fun g hg => ?_⟩
          obtain ⟨k', q, hk', hrest'⟩ := hok.got g hg
          exact ⟨k', q, (hslotOf g (hvalid x hok g hg)).trans hk', hrest'⟩
      · refine pairwise_cons.2 ⟨fun y hy => ⟨(hfirst y hy).slot, (hfirst y hy).iNo, ?_⟩, ?_⟩
        · intro g g' hg hg'
          rw [gotOf, if_pos (Int.natCast_nonneg j), Int.toNat_natCast] at hg
          cases hg
          rw [hself, hslotOf g' (hvalid y (hothers y hy) g' hg')]
          exact (hfree y hy g' hg').symm
        · refine pairwise_mono hrest fun x hx y hy hxy => ⟨hxy.slot, hxy.iNo, fun g g' hg hg' => ?_⟩
          rw [hslotOf g (hvalid x (hothers x hx) g hg), hslotOf g' (hvalid y (hothers y hy) g' hg')]
          exact hxy.got g g' hg hg'

/-- `file_open` -/
theorem fileOpenCut_safe (hsetup : Setup s₀ dirs base) (h : At s₀ dirs base i point others s)
    (hslot : point.slot = none) (hiNo : point.iNo = none) (hgot : point.got = none)
    (hknown : Known s₀ dirs n) (hflag : flag ≠ pipeFlag) :
    OpenSafe s₀ dirs base i (fun o r => At s₀ dirs base i { point with got := gotOf i r.1 n } o r.2)
      others (fileOpenCut point s n flag) := by
  have hfail : ∀ {o t}, At s₀ dirs base i point o t →
      At s₀ dirs base i { point with got := gotOf i (-1) n } o t := by
    intro o t hat
    have hpoint : ({ point with got := gotOf i (-1) n } : OpenPoint) = point := by
      rw [gotOf, if_neg (by decide), ← hgot]
    rw [hpoint]
    exact hat
  unfold fileOpenCut
  cases hfree : getFreeSlotInGlobal s with
  | none => exact hfail h
  | some k =>
      intro hpicks
      dsimp only
      obtain ⟨hthree, hk, hnone⟩ := getFreeSlotInGlobal_some hfree
      have hpicked : At s₀ dirs base i { point with slot := some k } others s := by
        refine ⟨h.inv.setPoint rfl ?_ fun y hy => ?_, h.cur⟩
        · have hok := h.inv.calls point (Multiset.mem_cons_self ..)
          refine ⟨hok.dir, fun k' hk' => ?_, hok.iNo, hok.got⟩
          cases hk'
          exact ⟨hthree, hk, hnone⟩
        · have hapart := (pairwise_cons.1 h.inv.apart).1 y hy
          exact ⟨.inr (hpicks y hy), hapart.iNo, hapart.got⟩
      apply (inodeOpenCut_safe hsetup hpicked hiNo hknown).bind
      rintro o ⟨p, s₁⟩ ⟨hat, hno⟩
      dsimp only at hat hno ⊢
      have hpoint : point = { ({ point with slot := some k } : OpenPoint) with slot := none } := by
        rw [← hslot]
      obtain ⟨hfill, hapart⟩ := hat.inv.fill rfl hflag hpoint
      have hpipe : (flag == pipeFlag) = false := beq_eq_false_iff_ne.2 hflag
      -- the descriptor is installed in a state with these entries
      have hinstall : ∀ t, OpenInv s₀ dirs base (point ::ₘ o) t → t.cur = i → t.procs = s₁.procs →
          (t.fileTable k).fdInode = some p → isPipe t k = false → (t.inodes p).iNo = n →
          At s₀ dirs base i { point with got := gotOf i (pcbFdInstall t k).1 n } o
            (pcbFdInstall t k).2 := by
        intro t hinv hcur hprocs hnode hpipe hno
        have hinst := hinv.install hgot hk hnode hpipe hno fun y hy g hg => by
          rw [slotOf, hprocs]
          exact hapart y hy g hg
        rw [hcur] at hinst
        obtain ⟨task, htask⟩ := pcbFdInstall_state t k
        refine ⟨hinst, ?_⟩
        rw [htask]
        exact hcur
      let s₂ := s₁.setFd k { fdPos := 0, fdFlag := flag, fdInode := some p }
      have htable : s₂.fileTable k = { fdPos := 0, fdFlag := flag, fdInode := some p } :=
        Function.update_self ..
      have hnode : (s₂.fileTable k).fdInode = some p := by rw [htable]
      have hpipe₂ : isPipe s₂ k = false := by
        rw [isPipe, htable]
        exact hpipe
      split
      · split
        · exact hfail ⟨hfill, hat.cur⟩
        · refine hinstall _ (hfill.setDeny p true) hat.cur rfl hnode hpipe₂ ?_
          rw [(sameRecord_setDeny _ p true p).iNo]
          exact hno
      · exact hinstall s₂ hfill hat.cur rfl hnode hpipe₂ hno

/-! ## sys_open -/

/-- What is left of a call of process `i`. -/
def Opened.left (i : Nat) (r : Opened) : OpenPoint where
  dir := r.dir
  got := gotOf i r.fd r.iNo

/-- The file that the path names. -/
structure Names (s₀ : FsState) (dirs : Nat → Option Inode) (path : List UInt8) (f : Found) :
    Prop where
  ok : PathOk path
  resolves : resolve (treeEntries s₀.disk dirs) path = some f
  regular : f.fType = .regular

/-- What a walk comes to can be read from the disk. -/
theorem TreeOnDisk.known_of_walk (h : TreeOnDisk s₀ dirs) {names : List (List UInt8)} {f g : Found}
    (hknown : Known s₀ dirs f.iNo) (hwalk : walk (treeEntries s₀.disk dirs) f names = some g) :
    Known s₀ dirs g.iNo := by
  induction names generalizing f with
  | nil =>
      cases hwalk
      exact hknown
  | cons name names ih =>
      rw [walk_cons] at hwalk
      obtain ⟨f', hnext, hwalk⟩ := Option.bind_eq_some_iff.1 hwalk
      refine ih ?_ hwalk
      unfold nextFound at hnext
      split at hnext
      · obtain ⟨e, he, rfl⟩ := Option.map_eq_some_iff.1 hnext
        have hmem := List.mem_of_find?_eq_some he
        cases hm : dirs f.iNo with
        | none =>
            rw [treeEntries, hm] at hmem
            cases hmem
        | some ino =>
            rw [treeEntries_some hm] at hmem
            exact h.known f.iNo ino e hm hmem
      · cases hnext

theorem refuseCut_safe {record : PathSearchRecord}
    (h : StandsIn s₀ dirs base i record.parentDir m others s) :
    OpenSafe s₀ dirs base i (Turns.EndsIn (OpenInv s₀ dirs base) Opened.left i) others
      (refuseCut s record) := by
  unfold refuseCut
  apply Cut.Safe.bind_lift
  intro s' hclose
  exact (h.dirClose hclose).inv

/-- One more call begins. -/
theorem OpenInv.begin (h : OpenInv s₀ dirs base others s) (hfew : others.card < maxCalls) :
    OpenInv s₀ dirs base ({} ::ₘ others) s where
  same := h.same
  few := by
    rw [Multiset.card_cons]
    exact hfew
  counts := by
    rw [holders_noDir rfl]
    exact h.counts
  distinct := h.distinct
  node := h.node
  root := h.root
  calls := Multiset.forall_mem_cons.2 ⟨⟨fun _ _ hnone => (by cases hnone),
    fun _ hnone => (by cases hnone), fun _ hnone => (by cases hnone),
    fun _ hnone => (by cases hnone)⟩, h.calls⟩
  apart := pairwise_cons.2 ⟨fun _ _ => ⟨.inl rfl, fun _ hnone => (by cases hnone),
    fun _ _ hnone => (by cases hnone)⟩, h.apart⟩

/-- `sys_open` on a file that exists. -/
theorem sysOpenCut_safe {path : List UInt8} {flags : Nat} (hsetup : Setup s₀ dirs base)
    (h : OpenInv s₀ dirs base others s) (hcur : s.cur = i) (hfew : others.card < maxCalls)
    (hnames : Names s₀ dirs path f) (hflags : flags < 256) :
    OpenSafe s₀ dirs base i (Turns.EndsIn (OpenInv s₀ dirs base) Opened.left i) others
      (sysOpenCut path flags s) := by
  have hbegin : At s₀ dirs base i {} others s := ⟨h.begin hfew, hcur⟩
  have hresolves := hnames.resolves
  have hne : words slash path ≠ [] := by
    intro hnil
    rw [resolve, hnil] at hresolves
    cases hresolves
    have hdir := hnames.regular
    cases hdir
  unfold sysOpenCut
  cases path.getLast? with
  | none => trivial
  | some c =>
      dsimp only
      split
      · apply Cut.Safe.bind_lift
        rintro - -
        exact hbegin.inv
      apply Cut.Safe.bind_lift
      rintro - -
      apply Cut.Safe.bind_lift
      rintro depth -
      apply (searchFileCut_safe hsetup hbegin hnames.ok hne).bind
      rintro o ⟨inodeNo, record, s₁⟩ hfound
      obtain ⟨m, hstands⟩ := hfound.stands
      dsimp only at hstands ⊢
      split
      · exact refuseCut_safe hstands
      rename_i hnotDir
      apply Cut.Safe.bind_lift
      rintro depth' -
      split
      · apply Cut.Safe.bind_lift
        rintro - -
        exact refuseCut_safe hstands
      -- the search found the file
      have hsearch : searchFound (treeEntries s₀.disk dirs) path = some f := by
        unfold searchFound
        split
        · rename_i hroot
          refine absurd (hfound.fType rootFound ?_) hnotDir
          exact if_pos hroot
        · have hreach := @reach_spec (treeEntries s₀.disk dirs) rootFound (words slash path) rfl
          rw [hreach.1]
          · exact hresolves
          · intro hthrough
            have hnone := (hreach.2 hthrough).2
            rw [resolve, hnone] at hresolves
            cases hresolves
      have hno := hfound.iNo
      rw [hsearch] at hno
      dsimp only at hno
      rw [hno, Option.map_some]
      unfold openSearchedCut
      dsimp only
      split
      · exact refuseCut_safe hstands
      have hknown : Known s₀ dirs f.iNo :=
        hsetup.tree.known_of_walk (f := rootFound) (hsetup.tree.knownDir 0 hsetup.tree.root) hresolves
      have hflag : flags ≠ pipeFlag := by
        simp only [pipeFlag]
        omega
      rw [hstands.point_eq hsetup]
      apply (fileOpenCut_safe hsetup hstands.at_ rfl rfl rfl hknown hflag).bind
      rintro o' ⟨fd, s₂⟩ hat
      exact hat.inv

/-! ## Runs -/

/-- Process `i` runs. -/
def FsState.runs (i : Nat) (s : FsState) : FsState := { s with cur := i }

/-- Processes that call `sys_open`, with a path and flags. -/
abbrev OpenTurns := Turns Nat OpenPoint OpenEvent FsState Opened

def openProg (call : List UInt8 × Nat) : FsState → OpenCut (Opened × FsState) :=
  sysOpenCut call.1 call.2

/-- The call opens a file that exists; `flags` is a `uint8_t`. -/
structure Admitted (s₀ : FsState) (dirs : Nat → Option Inode) (others : Multiset OpenPoint)
    (call : List UInt8 × Nat) : Prop where
  names : ∃ f, Names s₀ dirs call.1 f
  flags : call.2 < 256
  few : others.card < maxCalls

/-- Turns of calls that open files that exist, where `ok` is what they may do
    while others wait. -/
def openTurnsSystem (s₀ : FsState) (dirs : Nat → Option Inode)
    (ok : Multiset OpenPoint → OpenEvent → Prop) : System OpenTurns (Turn Nat (List UInt8 × Nat)) :=
  (Turns.system openProg FsState.runs s₀).restrict fun t turn =>
    t.Allowed openProg FsState.runs Opened.left (Admitted s₀ dirs) ok turn

/-- The calls that succeeded own different slots.  The slot leads to the node of
    the file, which is the only one of its number, and the count of each node is
    the number of its holders. -/
structure NoCollision (base : Nat → Nat) (t : OpenTurns) : Prop where
  slots : t.ended.Pairwise fun r r' => 0 ≤ r.2.fd → 0 ≤ r'.2.fd →
    (t.shared.procs r.1).fdTable r.2.fd.toNat ≠ (t.shared.procs r'.1).fdTable r'.2.fd.toNat
  opened : ∀ r ∈ t.ended, 0 ≤ r.2.fd → ∃ k p : Nat,
    (t.shared.procs r.1).fdTable r.2.fd.toNat = k ∧ (t.shared.fileTable k).fdInode = some p
      ∧ p ∈ t.shared.part.openInodes ∧ (t.shared.inodes p).iNo = r.2.iNo
  oneNode : ∀ p ∈ t.shared.part.openInodes, ∀ q ∈ t.shared.part.openInodes,
    (t.shared.inodes p).iNo = (t.shared.inodes q).iNo → p = q
  counts : ∀ p ∈ t.shared.part.openInodes,
    (t.shared.inodes p).iOpenCnt = holders base (t.points Opened.left) t.shared p

/-- The invariant says so. -/
theorem OpenInv.noCollision {t : OpenTurns} (h : OpenInv s₀ dirs base (t.points Opened.left) t.shared) :
    NoCollision base t where
  slots := by
    have hapart := h.apart
    rw [Turns.points, Multiset.coe_add, Multiset.pairwise_coe_iff_pairwise,
      List.pairwise_append, List.pairwise_map] at hapart
    have hended := List.pairwise_map.1 hapart.2.1
    refine hended.imp fun {r r'} hrr hr hr' => ?_
    exact hrr.got (r.1, r.2.fd.toNat, r.2.iNo) (r'.1, r'.2.fd.toNat, r'.2.iNo) (if_pos hr) (if_pos hr')
  opened r hr hfd := by
    have hmem : r.2.left r.1 ∈ t.points Opened.left :=
      Multiset.mem_add.2 (.inr (List.mem_map.2 ⟨r, hr, rfl⟩))
    obtain ⟨k, p, hk, hlt, hnode, hpipe, hno⟩ :=
      (h.calls _ hmem).got (r.1, r.2.fd.toNat, r.2.iNo) (if_pos hfd)
    exact ⟨k, p, hk, hnode, h.slot_mem hlt hnode hpipe, hno⟩
  oneNode := h.distinct
  counts := h.counts.count

/-- In every run in which nobody picks a slot while another call waits in
    `file_open`, and nobody misses an inode that another call is reading, the
    calls do not collide. -/
theorem openTurns_noCollision {t : OpenTurns} (hsetup : Setup s₀ dirs base)
    (hinit : OpenInv s₀ dirs base 0 s₀) (h : (openTurnsSystem s₀ dirs Undisturbed).Reachable t) :
    NoCollision base t := by
  have hsafe : Turns.Safe (OpenInv s₀ dirs base) (fun i s => s.cur = i) Undisturbed Opened.left t := by
    refine Turns.Safe.reachable h hinit (fun i others s hinv => ⟨?_, rfl⟩) ?_
    · exact hinv.mono ⟨rfl, rfl, rfl, rfl, rfl⟩
        (hinv.counts.congr rfl (Nat.le_refl _) fun _ _ => rfl) (fun _ hq => hq)
        (fun _ => .refl _) rfl rfl
    · intro i call others s hadmitted hinv hcur
      obtain ⟨f, hnames⟩ := hadmitted.names
      exact sysOpenCut_safe hsetup hinv hcur hadmitted.few hnames hadmitted.flags
  exact hsafe.holds.noCollision

/-! ## Two processes -/

/-- The small tree with the records of all its inodes on the disk. -/
def turnsFs : FsState :=
  { smallTreeFs with disk := smallTreeDisk.copy 2048 (oneBlockInode 0 96 612 0).bytes 0 76 }

theorem turnsFs_root : dirEntries turnsFs.disk (oneBlockInode 0 96 612 1)
    = [(shortEntry dot 0 2).entry, (shortEntry dotDot 0 2).entry, (shortEntry [97] 1 1).entry,
      (shortEntry [100] 2 2).entry] := by
  decide +kernel

theorem turnsFs_dir : dirEntries turnsFs.disk (oneBlockInode 2 72 613 0)
    = [(shortEntry dot 2 2).entry, (shortEntry dotDot 0 2).entry,
      (shortEntry [102] 3 1).entry] := by
  decide +kernel

theorem turnsFs_dirRep {ino : Inode} (h : smallTreeDirs m = some ino) : DirRep turnsFs ino := by
  rcases smallTreeDirs_some h with ⟨-, rfl⟩ | ⟨-, rfl⟩
  · refine dirRep_oneBlock (fun j _ => rfl) rfl ⟨0, by decide, rfl, by decide⟩ (by decide) ?_ ?_
    · rw [turnsFs_root]
      rfl
    · decide +kernel
  · refine dirRep_oneBlock (fun j _ => rfl) rfl ⟨1, by decide, rfl, by decide⟩ (by decide) ?_ ?_
    · rw [turnsFs_dir]
      rfl
    · decide +kernel

/-- A record that lies in one sector is known. -/
theorem Stored.known {ino : Inode} (hs : InodeTableOnDisk s) (h : Stored s n ino) (hlt : n < 4096)
    (hno : ino.iNo = n) (hdirs : ∀ ino₁, dirs n = some ino₁ → SameRecord ino ino₁) :
    Known s dirs n := by
  intro k ino' hload
  have hrec := h.loadsAs hs hlt k ino' hload
  exact ⟨hrec.iNo.trans hno, fun ino₁ hino₁ => hrec.trans (hdirs ino₁ hino₁)⟩

theorem turnsFs_known (hn : n < 4) : Known turnsFs smallTreeDirs n := by
  have hs : InodeTableOnDisk turnsFs := ⟨smallTreeFs_layout.table.onDisk,
    smallTreeFs_layout.table.inPartition⟩
  have hstored : ∀ ino : Inode, n < 4 → inodeSize * n % 512 ≤ 444 →
      SameRecord (Inode.ofBytes turnsFs.disk (slotAddr turnsFs n)) ino → ino.iNo = n →
      (∀ ino₁, smallTreeDirs n = some ino₁ → SameRecord ino ino₁) →
      Known turnsFs smallTreeDirs n := fun ino hn hsector hrec hno hdirs =>
    Stored.known hs ⟨hsector, hrec⟩ (by omega) hno hdirs
  obtain rfl | rfl | rfl | rfl : n = 0 ∨ n = 1 ∨ n = 2 ∨ n = 3 := by omega
  · refine hstored (oneBlockInode 0 96 612 1) hn (by decide)
      ⟨by decide +kernel, by decide +kernel, by decide +kernel⟩ rfl fun ino₁ h => ?_
    cases h
    exact .refl _
  · exact hstored (oneBlockInode 1 0 0 0) hn (by decide)
      ⟨by decide +kernel, by decide +kernel, by decide +kernel⟩ rfl fun ino₁ h => (by cases h)
  · refine hstored (oneBlockInode 2 72 613 0) hn (by decide)
      ⟨by decide +kernel, by decide +kernel, by decide +kernel⟩ rfl fun ino₁ h => ?_
    cases h
    exact .refl _
  · exact hstored (oneBlockInode 3 0 0 0) hn (by decide)
      ⟨by decide +kernel, by decide +kernel, by decide +kernel⟩ rfl fun ino₁ h => (by cases h)

theorem turnsFs_entry {ino : Inode} {e : Entry} (h : smallTreeDirs m = some ino)
    (he : e ∈ dirEntries turnsFs.disk ino) : e.iNo < 4
      ∧ (e.fType = FileType.directory.toWord ∧ smallTreeDirs e.iNo ≠ none
        ∨ e.fType = FileType.regular.toWord ∧ e.iNo < 4096) := by
  rcases smallTreeDirs_some h with ⟨-, rfl⟩ | ⟨-, rfl⟩
  · rw [turnsFs_root] at he
    simp only [List.mem_cons, List.not_mem_nil, or_false] at he
    rcases he with rfl | rfl | rfl | rfl <;> decide
  · rw [turnsFs_dir] at he
    simp only [List.mem_cons, List.not_mem_nil, or_false] at he
    rcases he with rfl | rfl | rfl <;> decide

theorem turnsFs_setup : Setup turnsFs smallTreeDirs smallTreeRefs where
  tree :=
    { root := by decide
      rep := fun _ _ h => turnsFs_dirRep h
      small := fun m h => by
        obtain ⟨ino, hino⟩ := dirs_some h
        rcases smallTreeDirs_some hino with ⟨rfl, -⟩ | ⟨rfl, -⟩ <;> decide
      entry := fun _ _ _ h he => (turnsFs_entry h he).2
      known := fun _ _ _ h he => turnsFs_known (turnsFs_entry h he).1
      knownDir := fun m h => by
        obtain ⟨ino, hino⟩ := dirs_some h
        rcases smallTreeDirs_some hino with ⟨rfl, -⟩ | ⟨rfl, -⟩ <;> exact turnsFs_known (by decide) }
  room p := by
    rw [smallTreeRefs]
    split_ifs <;> norm_num
  root := by decide

theorem turnsFs_inv : OpenInv turnsFs smallTreeDirs smallTreeRefs 0 turnsFs where
  same := ⟨rfl, rfl, rfl, rfl, rfl⟩
  few := Nat.zero_le _
  counts := by
    have hholders : holders smallTreeRefs 0 turnsFs = smallTreeRefs := by
      funext p
      have hfiles : fileRefs turnsFs p = 0 := by
        rw [fileRefs, List.countP_eq_zero]
        intro k _ hk
        cases (of_decide_eq_true hk).1
      rw [holders, hfiles]
      rfl
    rw [hholders]
    exact smallTree_tree.counts.congr rfl (Nat.le_refl _) fun _ _ => rfl
  distinct := smallTree_tree.distinct
  node := smallTree_tree.node
  root := rfl
  calls _ h := absurd h (Multiset.notMem_zero _)
  apart := Multiset.pairwise_zero _

/-- "/a" -/
theorem turnsFs_names : Names turnsFs smallTreeDirs [47, 97] ⟨1, .regular, 0⟩ :=
  ⟨⟨rfl, by decide, by decide, by decide⟩, by decide +kernel, rfl⟩

/-- The call opens "/a" for reading. -/
def opensA (others : Multiset OpenPoint) (call : List UInt8 × Nat) : Bool :=
  decide (call = ([47, 97], 0) ∧ others.card < 8)

theorem admitted_of_opensA {call : List UInt8 × Nat} (h : opensA others call = true) :
    Admitted turnsFs smallTreeDirs others call := by
  obtain ⟨rfl, hfew⟩ := of_decide_eq_true h
  exact ⟨⟨_, turnsFs_names⟩, by decide, hfew.trans (by norm_num)⟩

instance (others : Multiset OpenPoint) : DecidablePred (Undisturbed others)
  | .picksSlot => inferInstanceAs (Decidable (∀ y ∈ others, y.slot = none))
  | .misses inodeNo => inferInstanceAs (Decidable (∀ y ∈ others, y.iNo ≠ some inodeNo))

/-- Process 1 begins while process 0 reads the inode, and resumes after it. -/
theorem openTurns_noCollision_inTurn : ∃ t,
    Turns.run openProg FsState.runs Opened.left opensA (fun others ev => decide (Undisturbed others ev))
        [.start 0 ([47, 97], 0), .resume 0, .start 1 ([47, 97], 0), .resume 0, .resume 1]
        ⟨turnsFs, [], []⟩ = some t
      ∧ t.ended.length = 2 ∧ NoCollision smallTreeRefs t := by
  have hended : (Turns.run openProg FsState.runs Opened.left opensA
      (fun others ev => decide (Undisturbed others ev))
      [.start 0 ([47, 97], 0), .resume 0, .start 1 ([47, 97], 0), .resume 0, .resume 1]
      ⟨turnsFs, [], []⟩).map (fun t => t.ended.length) = some 2 := by
    decide +kernel
  obtain ⟨t, hrun, hlen⟩ := Option.map_eq_some_iff.1 hended
  refine ⟨t, hrun, hlen, openTurns_noCollision turnsFs_setup turnsFs_inv ?_⟩
  exact Turns.reachable_of_run _ _ _ _ _ (fun _ _ => admitted_of_opensA)
    (fun _ _ => of_decide_eq_true) (System.reachable_init rfl) hrun

/-- Both processes search, then both call `file_open`: they find the same slot
    and read the same inode. -/
theorem not_openTurns_noCollision :
    ¬ ∀ t, (openTurnsSystem turnsFs smallTreeDirs fun _ _ => True).Reachable t →
      NoCollision smallTreeRefs t := by
  intro h
  have hslots : (Turns.run openProg FsState.runs Opened.left opensA (fun _ _ => true)
      [.start 0 ([47, 97], 0), .start 1 ([47, 97], 0), .resume 0, .resume 1, .resume 0, .resume 1]
      ⟨turnsFs, [], []⟩).map (fun t =>
        t.ended.map fun r => (r.2.fd, (t.shared.procs r.1).fdTable r.2.fd.toNat))
      = some [(3, 3), (3, 3)] := by
    decide +kernel
  obtain ⟨t, hrun, hended⟩ := Option.map_eq_some_iff.1 hslots
  have hreach : (openTurnsSystem turnsFs smallTreeDirs fun _ _ => True).Reachable t :=
    Turns.reachable_of_run _ _ _ _ _ (fun _ _ => admitted_of_opensA) (fun _ _ _ => trivial)
      (System.reachable_init rfl) hrun
  obtain ⟨r, rest, hr, hfirst, hrest⟩ := List.map_eq_cons_iff.1 hended
  obtain ⟨r', rest', rfl, hsecond, -⟩ := List.map_eq_cons_iff.1 hrest
  have hpair := (h t hreach).slots
  rw [hr] at hpair
  have hne := (List.pairwise_cons.1 hpair).1 r' List.mem_cons_self
  obtain ⟨hfd, hslot⟩ := Prod.mk.inj hfirst
  obtain ⟨hfd', hslot'⟩ := Prod.mk.inj hsecond
  refine hne ?_ ?_ (hslot.trans hslot'.symm)
  · rw [hfd]
    decide
  · rw [hfd']
    decide

end Fs
end JackOS
