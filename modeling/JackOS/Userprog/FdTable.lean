/-
  JackOS.Userprog.FdTable

  Descriptors of many processes.  `sys_pipe` of shell/pipe.c,
  `update_inode_open_cnts` of userprog/fork.c and the last loop of
  `release_prog_resource` of userprog/wait_exit.c over the file system's state,
  and the system in which processes open, fork, close and exit.

  The state remembers what every descriptor was opened on, which no code reads.
-/

import JackOS.Base.Transition
import JackOS.Fs.Descriptors

namespace JackOS
namespace Userprog

open Base Fs

/-! ## Pipes, fork and exit -/

/-- `sys_pipe`: `page` says whether `get_kernel_pages` has a page.  `none` is
    -1, and otherwise the pair is `pipefd`.  The page is a node of its own, of
    which only the address is used here. -/
def sysPipe (s : FsState) (page : Bool) : Outcome (Option (Int × Int) × FsState) :=
  match getFreeSlotInGlobal s with
  -- `file_table[-1]` is written
  | none => .error .undefined
  | some globalFd =>
      if page then
        let p := s.nextNode
        let s := (s.newNode ⟨0, 0, 0, false, fun _ => 0⟩).setFd globalFd
          { fdPos := 2, fdFlag := pipeFlag, fdInode := some p }
        let (fd₀, s) := pcbFdInstall s globalFd
        let (fd₁, s) := pcbFdInstall s globalFd
        .ok (some (fd₀, fd₁), s)
      else .ok (none, s)

/-- One more user of entry `globalFd`: a pipe counts its users in `fd_pos`, a
    file in its inode. -/
def addUser (s : FsState) (globalFd : Nat) : Outcome FsState :=
  let fd := s.fileTable globalFd
  if isPipe s globalFd then .ok (s.setFd globalFd { fd with fdPos := u32 (fd.fdPos + 1) })
  else
    match fd.fdInode with
    | none => .error .undefined
    | some p => .ok (s.setInode p { s.inodes p with iOpenCnt := u32 ((s.inodes p).iOpenCnt + 1) })

/-- One round of `update_inode_open_cnts`; `is_pipe` looks `localFd` up in the
    table of the running process. -/
def updateOpenCnt (tcb : Fs.Task) (localFd : Nat) (s : FsState) : Outcome FsState := do
  kassert s (tcb.fdTable localFd < maxFileOpen)
  if tcb.fdTable localFd = -1 then .ok s
  else
    let globalFd ← fdLocal2Global s localFd
    addUser s globalFd

def updateOpenCnts (tcb : Fs.Task) : List Nat → FsState → Outcome FsState
  | [], s => .ok s
  | localFd :: rest, s => do
      let s ← updateOpenCnt tcb localFd s
      updateOpenCnts tcb rest s

/-- The local descriptors that are not stdin, stdout and stderr. -/
def localFds : List Nat := List.range' 3 (maxFileOpenPerProc - 3)

/-- `update_inode_open_cnts` -/
def updateInodeOpenCnts (tcb : Fs.Task) (s : FsState) : Outcome FsState :=
  updateOpenCnts tcb localFds s

/-- `copy_process` of the running process to `child`, which gets the page
    directory `pgdir`. -/
def copyProcess (s : FsState) (child pgdir : Nat) : Outcome FsState :=
  let tcb := { s.task with pgdir := some pgdir }
  updateInodeOpenCnts tcb { s with procs := Function.update s.procs child tcb }

/-- One round of the last loop of `release_prog_resource`.  A pipe stays in
    `fd_table`. -/
def releaseFd (localFd : Nat) (s : FsState) : Outcome FsState :=
  if s.task.fdTable localFd = -1 then .ok s
  else do
    let globalFd ← fdLocal2Global s localFd
    if isPipe s globalFd then .ok (pipeClose s globalFd)
    else
      let (_, s) ← sysClose s localFd
      .ok s

def releaseFds : List Nat → FsState → Outcome FsState
  | [], s => .ok s
  | localFd :: rest, s => do
      let s ← releaseFd localFd s
      releaseFds rest s

/-- `release_prog_resource`, as far as it closes files. -/
def releaseProgResource (s : FsState) : Outcome FsState := releaseFds localFds s

/-! ## The system -/

/-- What a descriptor was opened on: the inode node or the page of the pipe. -/
structure Opened where
  node : Nat
  pipe : Bool
  iNo : Nat
deriving DecidableEq

/-- The state: the processes that have not exited are `live`. -/
structure FdState where
  fs : FsState
  live : List Nat
  openedOn : Nat → Nat → Option Opened

/-- What entry `globalFd` of the file table denotes now. -/
def denoted (s : FsState) (globalFd : Nat) : Option Opened :=
  (s.fileTable globalFd).fdInode.map fun p => ⟨p, isPipe s globalFd, (s.inodes p).iNo⟩

/-- Descriptor `fd` of `t`, if there is one, has just been opened. -/
def FdState.note (d : FdState) (t : Nat) (fd : Int) : FdState :=
  if fd < 0 then d
  else
    let opened := denoted d.fs ((d.fs.procs t).fdTable fd.toNat).toNat
    { d with
      openedOn := Function.update d.openedOn t (Function.update (d.openedOn t) fd.toNat opened) }

/-- The calls, by process `t`.  A `fork` without a child is one that fails. -/
inductive FdOp where
  | open (t : Nat) (pathname : List UInt8) (flags : UInt8)
  | pipe (t : Nat) (page : Bool)
  | fork (t : Nat) (child : Option Nat) (pgdir : Nat)
  | close (t : Nat) (fd : Int)
  | exit (t : Nat)

/-- A live process calls; a new process has a PCB of its own and a pid, of which
    there are 1024. -/
def FdOp.Legal (d : FdState) : FdOp → Prop
  | .open t _ _ | .pipe t _ | .close t _ | .exit t => t ∈ d.live
  | .fork t child _ => t ∈ d.live ∧ ∀ c ∈ child, c ∉ d.live ∧ d.live.length < 1024

instance FdOp.decidableLegal (d : FdState) (op : FdOp) : Decidable (op.Legal d) := by
  cases op <;> unfold FdOp.Legal <;> infer_instance

/-- What the call does. -/
def FdOp.run (d : FdState) : FdOp → Outcome FdState
  | .open t pathname flags => do
      let (fd, s) ← sysOpen (d.fs.runAs t) pathname flags.toNat
      .ok ({ d with fs := s }.note t fd)
  | .pipe t page => do
      let (pipefd, s) ← sysPipe (d.fs.runAs t) page
      match pipefd with
      | none => .ok { d with fs := s }
      | some (fd₀, fd₁) => .ok (({ d with fs := s }.note t fd₀).note t fd₁)
  | .fork t child pgdir =>
      match child with
      | none => .ok d
      | some child => do
          let s ← copyProcess (d.fs.runAs t) child pgdir
          .ok
            { fs := s
              live := child :: d.live
              openedOn := Function.update d.openedOn child (d.openedOn t) }
  | .close t fd => do
      let (_, s) ← sysClose (d.fs.runAs t) fd
      .ok { d with fs := s }
  | .exit t => do
      let s ← releaseProgResource (d.fs.runAs t)
      .ok { d with fs := s, live := d.live.erase t }

/-- Files and pipes are opened and closed from boot on, by processes that are
    new then and their children. -/
def fdSystem : System FdState FdOp where
  init d := Booted d.fs ∧ d.live.Nodup ∧ d.live.length ≤ 1024
  next d op d' := op.Legal d ∧ op.run d = .ok d'

/-! ## What is to hold -/

/-- The entries of the file table that a process's descriptors name, one for
    each descriptor. -/
def procFds (task : Fs.Task) (fds : List Nat) : List Nat :=
  fds.filterMap fun i => if task.fdTable i = -1 then none else some (task.fdTable i).toNat

/-- The entries that the descriptors of the live processes name. -/
def FdState.descs (d : FdState) : List Nat :=
  d.live.flatMap fun t => procFds (d.fs.procs t) localFds

/-- Entry `globalFd` is in use for what was opened. -/
structure Denotes (s : FsState) (globalFd : Nat) (o : Opened) : Prop where
  inode : (s.fileTable globalFd).fdInode = some o.node
  pipe : isPipe s globalFd = o.pipe
  /-- the node of a file is still an open one, and of the same inode -/
  file : o.pipe = false → o.node ∈ s.part.openInodes ∧ (s.inodes o.node).iNo = o.iNo

/-- Each descriptor of a live process denotes what it was opened on. -/
def Valid (d : FdState) : Prop :=
  ∀ t ∈ d.live, ∀ i, 3 ≤ i → i < maxFileOpenPerProc → (d.fs.procs t).fdTable i ≠ -1 →
    ∃ (globalFd : Nat) (o : Opened), (d.fs.procs t).fdTable i = globalFd ∧ globalFd < maxFileOpen
      ∧ d.openedOn t i = some o ∧ Denotes d.fs globalFd o

/-- From `d` to `d'` an entry that a descriptor names was released if and only
    if no descriptor names it any more. -/
def ReleasedWithLast (d d' : FdState) : Prop :=
  ∀ globalFd ∈ d.descs, (d'.fs.fileTable globalFd).fdInode = none ↔ globalFd ∉ d'.descs

/-! ## When it holds -/

/-- The entry that descriptor `i` of `t` names is a pipe or has no other
    descriptor. -/
def ClosesAlone (d : FdState) (t i : Nat) : Prop :=
  (d.fs.procs t).fdTable i ≠ -1 →
    isPipe d.fs ((d.fs.procs t).fdTable i).toNat = true
      ∨ d.descs.count ((d.fs.procs t).fdTable i).toNat = 1

/-- No open count is about to pass `2 ^ 32`. -/
def CountsLow (s : FsState) : Prop :=
  ∀ p ∈ s.part.openInodes, (s.inodes p).iOpenCnt + 8 < 2 ^ 32

/-- How many descriptors the process has left. -/
def freeFds (task : Fs.Task) : Nat := localFds.countP fun i => task.fdTable i = -1

/-- The condition on a call: it closes no descriptor of a file that is open in
    another process, makes no pipe with one descriptor left, and keeps the
    counts of inodes in range. -/
def FdOp.Ok (d : FdState) : FdOp → Prop
  | .open _ _ _ => CountsLow d.fs
  | .pipe t _ => freeFds (d.fs.procs t) ≠ 1
  | .fork _ _ _ => CountsLow d.fs
  | .close t fd => 3 ≤ fd → fd < maxFileOpenPerProc → ClosesAlone d t fd.toNat
  | .exit t => ∀ i ∈ localFds, ClosesAlone d t i

instance (s : FsState) : Decidable (CountsLow s) := by
  unfold CountsLow
  infer_instance

instance (d : FdState) (t i : Nat) : Decidable (ClosesAlone d t i) := by
  unfold ClosesAlone
  infer_instance

instance FdOp.decidableOk (d : FdState) (op : FdOp) : Decidable (op.Ok d) := by
  cases op <;> unfold FdOp.Ok <;> infer_instance

end Userprog
end JackOS
