/-
  JackOS.Fs.WriteLock

  Who has a file open for writing.  `write_deny` of the node is meant to let one
  in: `file_open` sets it, but `file_create` does not, every `file_close` clears
  it, and a caller that is turned away leaves its entry in the file table.  So
  it is up to the callers: each inode has one writer as long as nobody opens a
  file for writing that already has one.
-/

import JackOS.Base.Transition
import JackOS.Fs.Descriptors

namespace JackOS
namespace Fs

open Base

variable {s s' : FsState}

/-- Entry `i` of the file table is in use for writing inode `n`. -/
def WriterOf (s : FsState) (i n : Nat) : Prop :=
  ∃ p, (s.fileTable i).fdInode = some p ∧ wantsWrite (s.fileTable i).fdFlag = true
    ∧ (s.inodes p).iNo = n

/-- Each inode has at most one entry in use for writing. -/
def SingleWriter (s : FsState) : Prop := ∀ n i j, WriterOf s i n → WriterOf s j n → i = j

/-! ## The system -/

/-- The calls, by any process `t`. -/
inductive OpenOp where
  | open (t : Nat) (pathname : List UInt8) (flags : Nat)
  | close (t : Nat) (fd : Int)

/-- What the call does. -/
def OpenOp.run (s : FsState) : OpenOp → Outcome FsState
  | .open t pathname flags => do
      let (_, s) ← sysOpen (s.runAs t) pathname flags
      .ok s
  | .close t fd => do
      let (_, s) ← sysClose (s.runAs t) fd
      .ok s

/-- Files are opened and closed from boot on. -/
def openSystem : System FsState OpenOp where
  init := Booted
  next s op s' := op.run s = .ok s'

/-- The call does not open a file for writing that has a writer. -/
def NoSecondWriter (s : FsState) : OpenOp → Prop
  | .open t pathname flags =>
      wantsWrite flags = true → getFreeSlotInGlobal s ≠ none →
        ∀ n, EntersNo (s.runAs t) pathname flags n → ∀ i, ¬ WriterOf s i n
  | .close _ _ => True

/-! ## Steps -/

/-- Writers that were there before. -/
theorem SingleWriter.mono (h : SingleWriter s) (hsub : ∀ i n, WriterOf s' i n → WriterOf s i n) :
    SingleWriter s' :=
  fun n i j hi hj => h n i j (hsub i n hi) (hsub j n hj)

theorem KeepsNodes.writerOf (h : KeepsNodes s s') (hs : NodesOk s) {i n : Nat}
    (hi : (s'.fileTable i).fdInode = (s.fileTable i).fdInode)
    (hf : (s'.fileTable i).fdFlag = (s.fileTable i).fdFlag) :
    WriterOf s' i n ↔ WriterOf s i n := by
  unfold WriterOf
  rw [hi, hf]
  constructor
  · rintro ⟨p, hp, hw, hn⟩
    exact ⟨p, hp, hw, by rwa [← h.iNo p (hs.table i p hp)]⟩
  · rintro ⟨p, hp, hw, hn⟩
    exact ⟨p, hp, hw, by rwa [h.iNo p (hs.table i p hp)]⟩

theorem Refuses.single (h : Refuses s s') (hs : NodesOk s) (hw : SingleWriter s) :
    SingleWriter s' := by
  refine hw.mono fun i n hi => ?_
  rcases h.table i with htable | ⟨-, hnone⟩
  · exact (h.toKeepsNodes.writerOf hs (by rw [htable]) (by rw [htable])).1 hi
  · obtain ⟨p, hp, -⟩ := hi
    rw [hnone] at hp
    cases hp

theorem Closes.single (h : Closes s s') (hs : NodesOk s) (hw : SingleWriter s) :
    SingleWriter s' := by
  refine hw.mono fun i n hi => ?_
  rcases h.table i with htable | hnone | ⟨hsame, hflag⟩
  · exact (h.toKeepsNodes.writerOf hs (by rw [htable]) (by rw [htable])).1 hi
  · obtain ⟨p, hp, -⟩ := hi
    rw [hnone] at hp
    cases hp
  · exact (h.toKeepsNodes.writerOf hs hsame hflag).1 hi

/-- A filled slot adds a writer of its inode if it is for writing. -/
theorem Enters.writerOf {fd : Int} {slot p flag i n : Nat} (h : Enters s s' fd slot p flag)
    (hs : NodesOk s) :
    WriterOf s' i n ↔
      if i = slot then wantsWrite flag = true ∧ (s'.inodes p).iNo = n else WriterOf s i n := by
  by_cases hi : i = slot
  · rw [if_pos hi, hi]
    unfold WriterOf
    rw [h.fileTable, Function.update_self]
    constructor
    · rintro ⟨q, hq, hw, hn⟩
      cases hq
      exact ⟨hw, hn⟩
    · rintro ⟨hw, hn⟩
      exact ⟨p, rfl, hw, hn⟩
  · rw [if_neg hi]
    have hsame : s'.fileTable i = s.fileTable i := by
      rw [h.fileTable, Function.update_of_ne hi]
    exact h.toKeepsNodes.writerOf hs (by rw [hsame]) (by rw [hsame])

theorem Enters.single_iff {fd : Int} {slot p flag : Nat} (h : Enters s s' fd slot p flag)
    (hs : NodesOk s) (hw : SingleWriter s) :
    SingleWriter s' ↔ (wantsWrite flag = true → ∀ i, ¬ WriterOf s i (s'.inodes p).iNo) := by
  have hfree : ∀ n, ¬ WriterOf s slot n := by
    rintro n ⟨q, hq, -⟩
    rw [(getFreeSlotInGlobal_some h.free).2.2] at hq
    cases hq
  constructor
  · intro hw' hflag i hi
    have hslot : WriterOf s' slot (s'.inodes p).iNo := by
      rw [h.writerOf hs, if_pos rfl]
      exact ⟨hflag, rfl⟩
    have hne : i ≠ slot := fun heq => hfree _ (heq ▸ hi)
    have hi' : WriterOf s' i (s'.inodes p).iNo := by
      rw [h.writerOf hs, if_neg hne]
      exact hi
    exact hne (hw' _ i slot hi' hslot)
  · intro hok n i j hi hj
    rw [h.writerOf hs] at hi hj
    by_cases his : i = slot
    · by_cases hjs : j = slot
      · rw [his, hjs]
      · rw [if_pos his] at hi
        rw [if_neg hjs] at hj
        exact absurd (hi.2 ▸ hj) (hok hi.1 j)
    · rw [if_neg his] at hi
      by_cases hjs : j = slot
      · rw [if_pos hjs] at hj
        exact absurd (hj.2 ▸ hi) (hok hj.1 i)
      · rw [if_neg hjs] at hj
        exact hw n i j hi hj

/-- Each call leaves the nodes in order, and one writer for each inode unless it
    opens a file for writing that has one. -/
theorem OpenOp.step {op : OpenOp} (hs : NodesOk s) (hw : SingleWriter s) (h : op.run s = .ok s') :
    NodesOk s' ∧ (NoSecondWriter s op → SingleWriter s') := by
  cases op with
  | «open» t pathname flags =>
      obtain ⟨⟨fd, s₁⟩, hcall, h⟩ := Outcome.bind_eq_ok.1 h
      cases h
      rcases sysOpen_table (hs.runAs t) hcall with ⟨-, href⟩ | ⟨n, slot, p, hno, henter, hn⟩
      · exact ⟨href.nodesOk (hs.runAs t), fun _ => href.single (hs.runAs t) hw⟩
      · refine ⟨henter.nodesOk (hs.runAs t), fun hok => ?_⟩
        refine (henter.single_iff (hs.runAs t) hw).2 fun hflag => ?_
        rw [hn]
        exact hok hflag (by rw [show getFreeSlotInGlobal s = some slot from henter.free]; nofun)
          n hno
  | close t fd =>
      obtain ⟨⟨r, s₁⟩, hcall, h⟩ := Outcome.bind_eq_ok.1 h
      cases h
      have hcloses := sysClose_closes hcall
      exact ⟨hcloses.nodesOk (hs.runAs t), fun _ => hcloses.single (hs.runAs t) hw⟩

/-- An existing file that has a writer gets a second one. -/
theorem noSecondWriter_of_single {t flags : Nat} {pathname : List UInt8} (hs : NodesOk s)
    (hw : SingleWriter s) (hcreat : flags.testBit 2 = false)
    (h : (OpenOp.open t pathname flags).run s = .ok s') (hw' : SingleWriter s') :
    NoSecondWriter s (.open t pathname flags) := by
  intro hflag hfree n hno
  rcases hno with ⟨inodeNo, record, s₁, hres, -, rfl⟩ | ⟨-, hset, -⟩
  · obtain ⟨⟨fd, s₂⟩, hcall, h⟩ := Outcome.bind_eq_ok.1 h
    cases h
    have hopen := hres.sysOpen hcreat hcall
    have hlook := searchFile_looks hres.search
    cases hslot : getFreeSlotInGlobal s₁ with
    | none =>
        refine absurd ?_ hfree
        rw [← hslot, getFreeSlotInGlobal, getFreeSlotInGlobal, hlook.fileTable]
        rfl
    | some slot =>
        obtain ⟨p, henter, hn⟩ := fileOpen_enters (hlook.nodes.opened_lt hs.opened) hslot hopen
        have henter := henter.of_looks hlook
        rw [← hn]
        exact (henter.single_iff (hs.runAs t) hw).1 hw' hflag
  · rw [hset] at hcreat
    cases hcreat

/-! ## Runs -/

/-- In every run whose calls meet the condition each inode has one writer; a
    call that opens an existing file keeps it so only if it meets the condition
    too. -/
theorem single_of_noSecondWriter (h : (openSystem.restrict NoSecondWriter).Reachable s) :
    SingleWriter s ∧ ∀ t pathname flags s', flags.testBit 2 = false →
      openSystem.next s (.open t pathname flags) s' →
        (SingleWriter s' ↔ NoSecondWriter s (.open t pathname flags)) := by
  have hboth : NodesOk s ∧ SingleWriter s := by
    apply h.invariant
    · rintro s ⟨⟨s₀, hinit⟩, -⟩
      obtain ⟨hnodes, htable⟩ := filesysInit_spec hinit
      refine ⟨hnodes, fun n i j hi => ?_⟩
      obtain ⟨p, hp, -⟩ := hi
      rw [htable] at hp
      cases hp
    · rintro s op s' ⟨hs, hw⟩ ⟨hok, hrun⟩
      obtain ⟨hs', hw'⟩ := OpenOp.step hs hw hrun
      exact ⟨hs', hw' hok⟩
  refine ⟨hboth.2, fun t pathname flags s' hcreat hrun => ⟨fun hw' => ?_, fun hok => ?_⟩⟩
  · exact noSecondWriter_of_single hboth.1 hboth.2 hcreat hrun hw'
  · exact (OpenOp.step hboth.1 hboth.2 hrun).2 hok

/-- Nothing behind the file table is in use. -/
def TableEnds (s : FsState) : Prop := ∀ i, maxFileOpen ≤ i → (s.fileTable i).fdInode = none

theorem OpenOp.tableEnds {op : OpenOp} (hs : NodesOk s) (hends : TableEnds s)
    (h : op.run s = .ok s') : TableEnds s' := by
  intro i hi
  have hnone := hends i hi
  cases op with
  | «open» t pathname flags =>
      obtain ⟨⟨fd, s₁⟩, hcall, h⟩ := Outcome.bind_eq_ok.1 h
      cases h
      rcases sysOpen_table (hs.runAs t) hcall with ⟨-, href⟩ | ⟨n, slot, p, -, henter, -⟩
      · rcases href.table i with hsame | ⟨-, hfree⟩
        · rw [hsame]
          exact hnone
        · exact hfree
      · have hlt := (getFreeSlotInGlobal_some henter.free).2.1
        rw [henter.fileTable, Function.update_of_ne (by omega)]
        exact hnone
  | close t fd =>
      obtain ⟨⟨r, s₁⟩, hcall, h⟩ := Outcome.bind_eq_ok.1 h
      cases h
      rcases (sysClose_closes hcall).table i with hsame | hfree | ⟨hsame, -⟩
      · rw [hsame]
        exact hnone
      · exact hfree
      · rw [hsame]
        exact hnone

/-- A call that needs no look at its path: it creates a file, with a number that
    no writer has, or there is no writer. -/
def CreatesOrAlone (s : FsState) : OpenOp → Prop
  | .open _ _ flags => ∀ i < maxFileOpen, wantsWrite (s.fileTable i).fdFlag = true →
      ∀ p ∈ (s.fileTable i).fdInode, flags.testBit 2 = true
        ∧ bitAt s.part.inodeBitmap.bits (s.inodes p).iNo = true
  | .close _ _ => True

instance (s : FsState) (op : OpenOp) : Decidable (CreatesOrAlone s op) := by
  cases op <;> unfold CreatesOrAlone <;> infer_instance

theorem noSecondWriter_of_creates {op : OpenOp} (hends : TableEnds s) (h : CreatesOrAlone s op) :
    NoSecondWriter s op := by
  cases op with
  | «open» t pathname flags =>
      rintro - - n hno i ⟨p, hp, hflag, hn⟩
      have hi : i < maxFileOpen := by
        by_contra hge
        rw [hends i (Nat.not_lt.1 hge)] at hp
        cases hp
      obtain ⟨hcreat, htaken⟩ := h i hi hflag p hp
      rcases hno with ⟨_, _, _, -, hopen, -⟩ | ⟨-, -, hfree⟩
      · rw [hopen] at hcreat
        cases hcreat
      · have hclear : bitAt s.part.inodeBitmap.bits n = false := hfree.clear
        rw [hn, hclear] at htaken
        cases htaken
  | close t fd => trivial

theorem reachable_of_creates (h : (openSystem.restrict CreatesOrAlone).Reachable s) :
    (openSystem.restrict NoSecondWriter).Reachable s := by
  have hall : (openSystem.restrict NoSecondWriter).Reachable s ∧ NodesOk s ∧ SingleWriter s
      ∧ TableEnds s := by
    apply h.invariant
    · intro s hboot
      obtain ⟨⟨s₀, hinit⟩, -⟩ := id hboot
      obtain ⟨hnodes, htable⟩ := filesysInit_spec hinit
      refine ⟨System.reachable_init hboot, hnodes, ?_, fun i _ => htable i⟩
      exact (single_of_noSecondWriter (System.reachable_init hboot)).1
    · rintro s op s' ⟨hreach, hs, hw, hends⟩ ⟨hcreates, hrun⟩
      have hok := noSecondWriter_of_creates hends hcreates
      obtain ⟨hs', hw'⟩ := OpenOp.step hs hw hrun
      exact ⟨hreach.next ⟨hok, hrun⟩, hs', hw' hok, OpenOp.tableEnds hs hends hrun⟩
  exact hall.1

/-- Process 1 creates "/a" for writing and closes it, process 2 opens it for
    writing, and process 1 creates "/b". -/
def writersRun : List OpenOp :=
  [.open 1 [47, 97] 5, .close 1 3, .open 2 [47, 97] 1, .open 1 [47, 98] 5]

theorem single_of_noSecondWriter_writers : ∃ s₀ s, filesysInit tinyFs = .ok s₀
    ∧ System.runSteps CreatesOrAlone OpenOp.run writersRun s₀ = .ok s
    ∧ WriterOf s 3 1 ∧ WriterOf s 4 2
    ∧ SingleWriter s ∧ ∀ t pathname flags s', flags.testBit 2 = false →
      openSystem.next s (.open t pathname flags) s' →
        (SingleWriter s' ↔ NoSecondWriter s (.open t pathname flags)) := by
  obtain ⟨s₀, hinit⟩ := tinyFs_boots
  have hend : (filesysInit tinyFs >>= System.runSteps CreatesOrAlone OpenOp.run
      writersRun).returns (fun s => decide (
        ((s.fileTable 3).fdInode.map fun p => (s.inodes p).iNo) = some 1
        ∧ wantsWrite (s.fileTable 3).fdFlag = true
        ∧ ((s.fileTable 4).fdInode.map fun p => (s.inodes p).iNo) = some 2
        ∧ wantsWrite (s.fileTable 4).fdFlag = true)) = true := by
    decide +kernel
  rw [hinit, Outcome.ok_bind] at hend
  obtain ⟨s, hrun, hfacts⟩ := Outcome.returns_iff.1 hend
  obtain ⟨h₃, hw₃, h₄, hw₄⟩ := of_decide_eq_true hfacts
  obtain ⟨p, hp, hpno⟩ := Option.map_eq_some_iff.1 h₃
  obtain ⟨q, hq, hqno⟩ := Option.map_eq_some_iff.1 h₄
  refine ⟨s₀, s, hinit, hrun, ⟨p, hp, hw₃, hpno⟩, ⟨q, hq, hw₄, hqno⟩,
    single_of_noSecondWriter (reachable_of_creates ?_)⟩
  exact System.Reachable.runSteps (M := openSystem.restrict CreatesOrAlone)
    (fun _ _ _ hlegal hstep => ⟨hlegal, hstep⟩)
    (System.reachable_init (booted_tinyFs hinit)) hrun

/-- Process 1 creates "/a" for writing; then process 2 opens it for writing. -/
def twoWritersRun : List OpenOp := [.open 1 [47, 97] 5, .open 2 [47, 97] 1]

theorem two_writers : ∃ s, openSystem.Reachable s ∧ ¬ SingleWriter s := by
  obtain ⟨s₀, hinit⟩ := tinyFs_boots
  have hend : (filesysInit tinyFs >>= System.runSteps (fun _ (_ : OpenOp) => True) OpenOp.run
      twoWritersRun).returns (fun s => decide (
        ((s.fileTable 3).fdInode = some 1 ∧ wantsWrite (s.fileTable 3).fdFlag = true)
        ∧ (s.fileTable 4).fdInode = some 1 ∧ wantsWrite (s.fileTable 4).fdFlag = true)) = true := by
    decide +kernel
  rw [hinit, Outcome.ok_bind] at hend
  obtain ⟨s, hrun, hboth⟩ := Outcome.returns_iff.1 hend
  obtain ⟨⟨h₃, hw₃⟩, h₄, hw₄⟩ := of_decide_eq_true hboth
  refine ⟨s, System.Reachable.runSteps (fun _ _ _ _ hstep => hstep)
    (System.reachable_init (booted_tinyFs hinit)) hrun, fun hsingle => ?_⟩
  have := hsingle _ 3 4 ⟨1, h₃, hw₃, rfl⟩ ⟨1, h₄, hw₄, rfl⟩
  cases this

end Fs
end JackOS
