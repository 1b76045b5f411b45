/-
  JackOS.Userprog.ProcTree

  Process families: pids, parents, zombies.  `sys_fork` of userprog/fork.c,
  `sys_wait` and `sys_exit` of userprog/wait_exit.c, and what they use of
  thread/thread.c, as far as pids, `parent_pid`, `status` and `exit_status`
  go; each call is one step up to where it blocks.  `thread_all_list` is the
  list of its threads, in order.

  The state carries a log of what happened, which no code reads.
-/

import JackOS.Base.Transition
import JackOS.Lib.Bitmap
import JackOS.Thread.Sched

namespace JackOS
namespace Userprog

open Base Thread

/-- The fields of `task_struct_t` that the family of a thread is about. -/
structure Task where
  pid : Nat
  parentPid : Int
  status : TaskStatus
  /-- An `int8_t`. -/
  exitStatus : BitVec 8
  /-- `pgdir != NULL`. -/
  isProcess : Bool
  /-- The thread is inside the loop of `sys_wait`. -/
  inWait : Bool

/-- What can happen to a pid. -/
inductive Event where
  /-- The pid `child` was handed out, to a child of `parent`. -/
  | forked (parent : Int) (child : Nat)
  /-- The process called `sys_exit(status)`. -/
  | exited (pid : Nat) (status : BitVec 32)
  /-- `sys_wait` of `parent` returned the child and stored `status`. -/
  | reaped (parent : Nat) (child : Nat) (status : BitVec 32)
  /-- A kernel thread ended. -/
  | ended (pid : Nat)
deriving DecidableEq

/-- The state: the latest event is the head of `log`. -/
structure Family where
  allList : List Pcb
  tcb : Pcb → Task
  pidBitmapBits : Mem
  log : List Event

namespace Family

def setTask (s : Family) (t : Pcb) (c : Task) : Family :=
  { s with tcb := Function.update s.tcb t c }

def record (s : Family) (e : Event) : Family := { s with log := e :: s.log }

end Family

/-- `pid_pool.pid_bitmap`. -/
def pidBitmap (s : Family) : Bitmap := ⟨128, s.pidBitmapBits⟩

/-- `allocate_pid`, with `pid_start` = 1. -/
def allocatePid (s : Family) : Outcome (Nat × Family) := do
  match ← bitmapScan false (pidBitmap s) 1 with
  -- `bitmap_set` of bit -1; `bitmap_scan` stops a debug build before this
  | none => .error .undefined
  | some bitIdx => .ok (1 + bitIdx, { s with pidBitmapBits := setBitAt s.pidBitmapBits bitIdx true })

/-- `release_pid`. -/
def releasePid (pid : Nat) (s : Family) : Family :=
  { s with pidBitmapBits := setBitAt s.pidBitmapBits (pid - 1) false }

/-- `pid2thread`. -/
def pid2thread (s : Family) (pid : Int) : Option Pcb :=
  s.allList.find? fun t => decide (((s.tcb t).pid : Int) = pid)

/-- `init_thread` and the insertion into `thread_all_list`, at boot. -/
def bootThread (t : Pcb) (isProcess : Bool) (s : Family) : Outcome Family := do
  let (pid, s) ← allocatePid s
  let s := s.setTask t ⟨pid, -1, .ready, 0, isProcess, false⟩
  .ok ({ s with allList := s.allList ++ [t] }.record (.forked (-1) pid))

/-- `thread_init`: pids 1, 2 and 3 go to init, the main thread and the idle
    thread. -/
def threadInit (init main idle : Pcb) (s : Family) : Outcome Family := do
  let s := { s with allList := [], pidBitmapBits := Mem.zero, log := [] }
  let s ← bootThread init true s
  let s ← bootThread main false s
  bootThread idle false s

/-- `thread_exit`, as far as the family goes.  The pid is read from the page of
    the PCB just given back, which still holds it. -/
def threadExit (t : Pcb) (s : Family) : Family :=
  let s := s.setTask t { s.tcb t with status := .died }
  releasePid (s.tcb t).pid { s with allList := s.allList.erase t }

/-! ## fork -/

/-- How far the allocations of `sys_fork` get: the PCB page or the kernel
    buffer is refused, the address bitmap or the page directory is, or there is
    the new PCB page `t`. -/
inductive ForkMem where
  | noPage
  | noCopy (t : Pcb)
  | copied (t : Pcb)

/-- The PCB fields `copy_pcb_vaddrbitmap_stack0` leaves in the child. -/
def childTask (parent : Task) (pid : Nat) : Task :=
  { parent with pid := pid, status := .ready, parentPid := parent.pid }

/-- `sys_fork`: -1 is `none`. -/
def sysFork (p : Pcb) (mem : ForkMem) (s : Family) : Outcome (Option Nat × Family) := do
  require ((s.tcb p).isProcess = true)
  match mem with
  | .noPage => .ok (none, s)
  | .noCopy t => do
      let (pid, s) ← allocatePid s
      -- the pid stays marked
      .ok (none, s.setTask t (childTask (s.tcb p) pid))
  | .copied t => do
      let (pid, s) ← allocatePid s
      let s := s.setTask t (childTask (s.tcb p) pid)
      let s := { s with allList := s.allList ++ [t] }
      .ok (some pid, s.record (.forked (s.tcb p).pid pid))

/-! ## wait -/

/-- `list_traversal(&thread_all_list, find_child, pid)`. -/
def findChild (s : Family) (pid : Int) : Option Pcb :=
  s.allList.find? fun t => decide ((s.tcb t).parentPid = pid)

/-- `list_traversal(&thread_all_list, find_hanging_child, pid)`. -/
def findHangingChild (s : Family) (pid : Int) : Option Pcb :=
  s.allList.find? fun t => decide ((s.tcb t).parentPid = pid ∧ (s.tcb t).status = .hanging)

/-- How a round of `sys_wait` ends. -/
inductive WaitResult where
  | reaped (childPid : Nat) (status : BitVec 32)
  | noChild
  | blocked

/-- `sys_wait`, up to its return or its `thread_block(TASK_WAITING)`; a woken
    thread goes through the loop again. -/
def sysWait (p : Pcb) (s : Family) : WaitResult × Family :=
  match findHangingChild s (s.tcb p).pid with
  | some child =>
      let status := (s.tcb child).exitStatus.signExtend 32
      let childPid := (s.tcb child).pid
      let s := threadExit child s
      let s := s.setTask p { s.tcb p with inWait := false }
      (.reaped childPid status, s.record (.reaped (s.tcb p).pid childPid status))
  | none =>
      match findChild s (s.tcb p).pid with
      | none => (.noChild, s.setTask p { s.tcb p with inWait := false })
      | some _ => (.blocked, s.setTask p { s.tcb p with inWait := true, status := .waiting })

/-! ## exit -/

/-- `list_traversal(&thread_all_list, init_adopt_a_child, pid)`, which never
    stops early. -/
def initAdoptChildren (pid : Nat) (s : Family) : Family :=
  { s with tcb := fun t =>
      if t ∈ s.allList ∧ (s.tcb t).parentPid = pid then { s.tcb t with parentPid := 1 }
      else s.tcb t }

/-- The wakeup of a waiting parent. -/
def wakeParent (parent : Pcb) (s : Family) : Family :=
  if (s.tcb parent).status = .waiting then s.setTask parent { s.tcb parent with status := .ready }
  else s

/-- `sys_exit(status)`, up to its `thread_block(TASK_HANGING)`. -/
def sysExit (p : Pcb) (status : BitVec 32) (s : Family) : Outcome Family := do
  let s := s.setTask p { s.tcb p with exitStatus := status.setWidth 8 }
  -- PANIC
  require ((s.tcb p).parentPid ≠ -1)
  let s := initAdoptChildren (s.tcb p).pid s
  match pid2thread s (s.tcb p).parentPid with
  -- `parent_tcb->status` of NULL
  | none => .error .undefined
  | some parent =>
      let s := wakeParent parent s
      let s := s.setTask p { s.tcb p with status := .hanging }
      .ok (s.record (.exited (s.tcb p).pid status))

/-! ## Runs -/

/-- The steps of the system. -/
inductive FamilyOp where
  | fork (p : Pcb) (mem : ForkMem)
  | exit (p : Pcb) (status : BitVec 32)
  | wait (p : Pcb)
  /-- `thread_exit` of the main thread, at the end of `main`. -/
  | endKernelThread (t : Pcb)

/-- The thread can run. -/
def Runnable (s : Family) (t : Pcb) : Prop :=
  t ∈ s.allList ∧ ((s.tcb t).status = .running ∨ (s.tcb t).status = .ready)

instance (s : Family) (t : Pcb) : Decidable (Runnable s t) := by
  unfold Runnable
  infer_instance

/-- The page of a new PCB is no thread's. -/
def ForkMem.Fresh (s : Family) : ForkMem → Prop
  | .noPage => True
  | .noCopy t => t ∉ s.allList
  | .copied t => t ∉ s.allList

instance (s : Family) (mem : ForkMem) : Decidable (mem.Fresh s) := by
  cases mem <;> unfold ForkMem.Fresh <;> infer_instance

/-- When a step can happen: the caller runs, and a thread woken inside
    `sys_wait` goes on there. -/
def FamilyOp.Legal (s : Family) : FamilyOp → Prop
  | .fork p mem => Runnable s p ∧ (s.tcb p).inWait = false ∧ mem.Fresh s
  | .exit p _ => Runnable s p ∧ (s.tcb p).inWait = false
  | .wait p => Runnable s p
  | .endKernelThread t => Runnable s t ∧ (s.tcb t).inWait = false ∧ (s.tcb t).isProcess = false

instance (s : Family) (op : FamilyOp) : Decidable (op.Legal s) := by
  cases op <;> unfold FamilyOp.Legal <;> infer_instance

/-- What the step does. -/
def FamilyOp.run (s : Family) : FamilyOp → Outcome Family
  | .fork p mem => do
      let (_, s) ← sysFork p mem s
      .ok s
  | .exit p status => sysExit p status s
  | .wait p => .ok (sysWait p s).2
  | .endKernelThread t => .ok ((threadExit t s).record (.ended (s.tcb t).pid))

/-- The process families from `thread_init` on. -/
def familySystem : System Family FamilyOp where
  init s := ∃ s₀ init main idle, [init, main, idle].Nodup ∧ threadInit init main idle s₀ = .ok s
  next s op s' := op.Legal s ∧ op.run s = .ok s'

/-! ## What the log says -/

/-- The life of a pid. -/
inductive Life where
  | free
  | alive
  | zombie (status : BitVec 32)
deriving DecidableEq

/-- The state of a pid after the events of a log. -/
def life (pid : Nat) : List Event → Life
  | [] => .free
  | .forked _ c :: log => if c = pid then .alive else life pid log
  | .exited c status :: log => if c = pid then .zombie status else life pid log
  | .reaped _ c _ :: log => if c = pid then .free else life pid log
  | .ended c :: log => if c = pid then .free else life pid log

/-- The parent of a pid after the events of a log: the children of a process
    that exits go to init. -/
def parentAt (pid : Nat) : List Event → Int
  | [] => -1
  | .forked p c :: log => if c = pid then p else parentAt pid log
  | .exited c _ :: log => if parentAt pid log = c then 1 else parentAt pid log
  | .reaped _ _ _ :: log => parentAt pid log
  | .ended _ :: log => parentAt pid log

/-- A log in which pids are handed out while free only, a zombie is reaped
    once, by the process that is its parent then, with the sign-extended low
    byte of its status, and stays a zombie until then. -/
def LogOk : List Event → Prop
  | [] => True
  | .forked _ c :: log => life c log = .free ∧ LogOk log
  | .exited c _ :: log => life c log = .alive ∧ LogOk log
  | .reaped p c status :: log =>
      (∃ st, life c log = .zombie st ∧ status = (st.setWidth 8).signExtend 32)
        ∧ parentAt c log = p ∧ LogOk log
  | .ended c :: log => life c log = .alive ∧ LogOk log

end Userprog
end JackOS
