/-
  JackOS.Thread.Sched

  The scheduler of thread/thread.c: blocking, unblocking, yielding, starting
  and ending threads, the timer tick, and the callers in sync.c, ioqueue.c and
  wait_exit.c that decide who is blocked and who is woken.  The lists are the
  kernel's intrusive lists: one `general_tag` of a thread serves the ready list
  and the waiters of every semaphore.

  Each operation runs with interrupts off and is one step; `switch_to` ends the
  step in the context of the next thread.
-/

import JackOS.Base.Transition
import JackOS.Lib.List

namespace JackOS
namespace Thread

open Base Lib

/-- `task_struct_t*`: a 32-bit pointer. -/
abbrev Pcb := Fin (2 ^ 32)

instance addrNeZero : NeZero (2 ^ 32 : Nat) := ⟨by decide⟩

/-- `task_status_t`. -/
inductive TaskStatus where
  | running
  | ready
  | blocked
  | waiting
  | hanging
  | died
deriving DecidableEq, Repr

/-- The lists of threads; `κ` names the semaphores. -/
inductive ListName (κ : Type) where
  | ready
  | all
  | waiters (sema : κ)
deriving DecidableEq

/-- The `list_elem_t` objects: sentinels, and the two tags of each thread. -/
inductive Node (κ : Type) where
  | null
  | head (l : ListName κ)
  | tail (l : ListName κ)
  | generalTag (t : Pcb)
  | allListTag (t : Pcb)
deriving DecidableEq

/-- The scheduler's part of `task_struct_t`, and `old_status`, which a thread
    that is switched out keeps on its kernel stack. -/
structure Tcb where
  status : TaskStatus
  timeSlice : Nat
  thisTick : Nat
  oldStatus : Bool

variable {κ ω : Type} [DecidableEq κ] [DecidableEq ω]

/-- Where the links of all lists live. -/
abbrev tags : LinkStore (Links (Node κ)) (Node κ) := Links.store .null

/-- `&thread_ready_list`, `&thread_all_list` and `&sema->waiters`. -/
def anchor (l : ListName κ) : ListT (Node κ) := ⟨.head l, .tail l⟩

/-- The state of the scheduler; `ω` names the `producer` and `consumer` fields
    of the io queues. -/
structure Sched (κ ω : Type) where
  links : Links (Node κ)
  tcb : Pcb → Tcb
  /-- `running_thread()`. -/
  cur : Pcb
  /-- `intr_get_status() == INTR_ON`. -/
  intrOn : Bool
  mainThread : Pcb
  idleThread : Pcb
  /-- The threads waiting on an io queue. -/
  waiter : ω → Option Pcb
  /-- A record, which no code reads, of the statuses in which `schedule` found
  the idle thread when it woke it. -/
  idleWakes : List TaskStatus

namespace Sched

def setTcb (s : Sched κ ω) (t : Pcb) (c : Tcb) : Sched κ ω :=
  { s with tcb := Function.update s.tcb t c }

def setStatus (s : Sched κ ω) (t : Pcb) (st : TaskStatus) : Sched κ ω :=
  s.setTcb t { s.tcb t with status := st }

def setLinks (s : Sched κ ω) (links : Links (Node κ)) : Sched κ ω := { s with links := links }

def setIntr (s : Sched κ ω) (b : Bool) : Sched κ ω := { s with intrOn := b }

def setWaiter (s : Sched κ ω) (w : ω) (t : Option Pcb) : Sched κ ω :=
  { s with waiter := Function.update s.waiter w t }

/-- `old_status = intr_disable()` by a thread about to be switched out. -/
def saveIntr (s : Sched κ ω) : Sched κ ω :=
  (s.setTcb s.cur { s.tcb s.cur with oldStatus := s.intrOn }).setIntr false

/-- `elem_find(&list, tag)`. -/
def find (s : Sched κ ω) (l : ListName κ) (tag : Node κ) : Outcome Bool :=
  elemFind tags s.links (anchor l) tag

/-- `list_append(&list, tag)`. -/
def append (s : Sched κ ω) (l : ListName κ) (tag : Node κ) : Sched κ ω :=
  s.setLinks (listAppend tags s.links (anchor l) tag)

/-- `list_remove(tag)`. -/
def remove (s : Sched κ ω) (tag : Node κ) : Sched κ ω :=
  s.setLinks (listRemove tags s.links tag)

end Sched

/-- `elem2entry(task_struct_t, general_tag, elem)`. -/
def entryOfGeneralTag : Node κ → Outcome Pcb
  | .generalTag t => .ok t
  | _ => .error .undefined

/-- The check that a tag is not on a list, as an ASSERT. -/
def assertAbsent (s : Sched κ ω) (l : ListName κ) (tag : Node κ) : Outcome Unit := do
  let found ← s.find l tag
  require (found = false)

/-- `thread_unblock(tcb)`, which leaves the interrupt status as it was. -/
def threadUnblock (t : Pcb) (s : Sched κ ω) : Outcome (Sched κ ω) := do
  require ((s.tcb t).status = .blocked ∨ (s.tcb t).status = .hanging
    ∨ (s.tcb t).status = .waiting)
  if (s.tcb t).status ≠ .ready then do
    assertAbsent s .ready (.generalTag t)
    .ok ((s.setLinks (listPush tags s.links (anchor .ready) (.generalTag t))).setStatus t .ready)
  else .ok s

/-- The part of `schedule` for a thread whose time slice is used up. -/
def requeueCurrent (s : Sched κ ω) : Outcome (Sched κ ω) :=
  if (s.tcb s.cur).status = .running then do
    assertAbsent s .ready (.generalTag s.cur)
    .ok ((s.append .ready (.generalTag s.cur)).setTcb s.cur
      { s.tcb s.cur with thisTick := (s.tcb s.cur).timeSlice, status := .ready })
  else .ok s

/-- The part of `schedule` that wakes the idle thread. -/
def wakeIdle (s : Sched κ ω) : Outcome (Sched κ ω) :=
  if listEmpty tags s.links (anchor .ready) then
    threadUnblock s.idleThread
      { s with idleWakes := (s.tcb s.idleThread).status :: s.idleWakes }
  else .ok s

/-- `next->status = TASK_RUNNING` and `switch_to`: the step ends where the next
    thread goes on, with the interrupt status it had saved. -/
def switchTo (next : Pcb) (s : Sched κ ω) : Sched κ ω :=
  { (s.setStatus next .running) with cur := next, intrOn := (s.tcb next).oldStatus }

/-- `schedule()`. -/
def schedule (s : Sched κ ω) : Outcome (Sched κ ω) := do
  require (s.intrOn = false)
  let s ← requeueCurrent s
  let s ← wakeIdle s
  require (listEmpty tags s.links (anchor .ready) = false)
  let popped := listPop tags s.links (anchor .ready)
  let next ← entryOfGeneralTag popped.1
  .ok (switchTo next (s.setLinks popped.2))

/-- `thread_block(status)`. -/
def threadBlock (st : TaskStatus) (s : Sched κ ω) : Outcome (Sched κ ω) := do
  require (st = .blocked ∨ st = .hanging ∨ st = .waiting)
  schedule (s.saveIntr.setStatus s.cur st)

/-- `thread_yield()`. -/
def threadYield (s : Sched κ ω) : Outcome (Sched κ ω) := do
  assertAbsent s.saveIntr .ready (.generalTag s.cur)
  schedule ((s.saveIntr.append .ready (.generalTag s.cur)).setStatus s.cur .ready)

/-- `intr_timer_handler`, entered by the timer interrupt. -/
def intrTimerHandler (s : Sched κ ω) : Outcome (Sched κ ω) :=
  if (s.tcb s.cur).thisTick = 0 then schedule s.saveIntr
  else .ok (s.setTcb s.cur { s.tcb s.cur with thisTick := (s.tcb s.cur).thisTick - 1 })

/-- The links a new PCB starts with: both tags are cleared. -/
def clearTags (s : Sched κ ω) (t : Pcb) : Sched κ ω :=
  let links := tags.setPrev (tags.setNext s.links (.generalTag t) .null) (.generalTag t) .null
  s.setLinks (tags.setPrev (tags.setNext links (.allListTag t) .null) (.allListTag t) .null)

/-- `init_thread`, and the interrupt status `kernel_thread` starts with. -/
def initThread (t : Pcb) (timeSlice : Nat) (s : Sched κ ω) : Sched κ ω :=
  (clearTags s t).setTcb t
    { status := if t = s.mainThread then .running else .ready
      -- both fields are a uint8_t
      timeSlice := timeSlice % 2 ^ 8
      thisTick := timeSlice % 2 ^ 8
      oldStatus := true }

/-- The child's PCB in `sys_fork`: a copy of the parent's, with these fields of
    its own. -/
def forkThread (t : Pcb) (s : Sched κ ω) : Sched κ ω :=
  (clearTags s t).setTcb t
    { s.tcb s.cur with
      status := .ready
      thisTick := (s.tcb s.cur).timeSlice
      oldStatus := true }

/-- Entering a new thread into both lists, as `thread_start`,
    `process_execute` and `sys_fork` do. -/
def enlist (t : Pcb) (s : Sched κ ω) : Outcome (Sched κ ω) := do
  assertAbsent s .ready (.generalTag t)
  let s := s.append .ready (.generalTag t)
  assertAbsent s .all (.allListTag t)
  .ok (s.append .all (.allListTag t))

/-- `thread_start`. -/
def threadStart (t : Pcb) (timeSlice : Nat) (s : Sched κ ω) : Outcome (Sched κ ω) :=
  enlist t (initThread t timeSlice s)

/-- `sys_fork`, as far as the scheduler sees it. -/
def sysFork (t : Pcb) (s : Sched κ ω) : Outcome (Sched κ ω) :=
  enlist t (forkThread t s)

/-- Taking a dead thread out of the ready list, where it may be. -/
def dropReady (t : Pcb) (s : Sched κ ω) : Outcome (Sched κ ω) := do
  let found ← s.find .ready (.generalTag t)
  .ok (if found then s.remove (.generalTag t) else s)

/-- `thread_exit(tcb, need_schedule)`. -/
def threadExit (t : Pcb) (needSchedule : Bool) (s : Sched κ ω) : Outcome (Sched κ ω) := do
  let s ← dropReady t ((s.setIntr false).setStatus t .died)
  let s := s.remove (.allListTag t)
  if needSchedule then schedule s else .ok s

/-! ## The callers -/

/-- One round of the loop of `sema_down` with `value == 0`. -/
def semaBlock (k : κ) (s : Sched κ ω) : Outcome (Sched κ ω) := do
  let s := s.setIntr false
  assertAbsent s (.waiters k) (.generalTag s.cur)
  threadBlock .blocked (s.append (.waiters k) (.generalTag s.cur))

/-- The wakeup of `sema_up`. -/
def semaWake (k : κ) (s : Sched κ ω) : Outcome (Sched κ ω) :=
  if listEmpty tags s.links (anchor (.waiters k)) then .ok s
  else do
    let popped := listPop tags s.links (anchor (.waiters k))
    let t ← entryOfGeneralTag popped.1
    threadUnblock t (s.setLinks popped.2)

/-- `ioq_wait(waiter)`. -/
def ioqWait (w : ω) (s : Sched κ ω) : Outcome (Sched κ ω) := do
  require (s.waiter w = none)
  threadBlock .blocked (s.setWaiter w (some s.cur))

/-- `ioq_wakeup(waiter)`. -/
def ioqWakeup (w : ω) (s : Sched κ ω) : Outcome (Sched κ ω) :=
  match s.waiter w with
  | none => .error .assertFailed
  | some t => do
      let s ← threadUnblock t s
      .ok (s.setWaiter w none)

/-- The wakeup of the parent in `sys_exit`. -/
def wakeParent (t : Pcb) (s : Sched κ ω) : Outcome (Sched κ ω) :=
  if (s.tcb t).status = .waiting then threadUnblock t s else .ok s

/-- `thread_init`: the first process, the main thread and the idle thread. -/
def threadInit (first idle : Pcb) (s : Sched κ ω) : Outcome (Sched κ ω) := do
  let s := s.setLinks (listInit tags s.links (anchor .all))
  let s := s.setLinks (listInit tags s.links (anchor .ready))
  let s ← threadStart first 31 s
  -- `make_main_thread`
  let s := initThread s.cur 31 { s with mainThread := s.cur }
  assertAbsent s .all (.allListTag s.mainThread)
  let s := s.append .all (.allListTag s.mainThread)
  let s ← threadStart idle 10 s
  .ok { s with idleThread := idle }

/-! ## Runs -/

/-- The steps of the system. -/
inductive SchedOp (κ ω : Type) where
  | tick
  | intr (on : Bool)
  | start (t : Pcb) (timeSlice : Nat)
  | fork (t : Pcb)
  | idleBlock
  | semaBlock (k : κ)
  | ioqWait (w : ω)
  | wait
  | hang
  | yield
  | semaWake (k : κ)
  | ioqWakeup (w : ω)
  | wakeParent (t : Pcb)
  | exit
  | exitChild (t : Pcb)

/-- The thread is on `thread_all_list`. -/
def Listed (s : Sched κ ω) (t : Pcb) : Prop :=
  ∃ xs, tags.Holds s.links (anchor .all) xs ∧ .allListTag t ∈ xs

/-- When a step can happen: a tick needs interrupts, a new PCB is a page that
    no thread has, the idle thread does nothing but block itself, and the
    callers check what they check. -/
def SchedOp.Legal (s : Sched κ ω) : SchedOp κ ω → Prop
  | .tick => s.intrOn = true
  | .intr _ => True
  | .start t _ => ¬ Listed s t ∧ t ≠ s.mainThread
  | .fork t => ¬ Listed s t ∧ t ≠ s.mainThread
  | .idleBlock => s.cur = s.idleThread
  | .semaBlock _ => s.cur ≠ s.idleThread
  | .ioqWait w => s.cur ≠ s.idleThread ∧ s.waiter w = none
  | .wait => s.cur ≠ s.idleThread
  | .hang => s.cur ≠ s.idleThread
  | .yield => s.cur ≠ s.idleThread
  | .semaWake _ => True
  | .ioqWakeup w => s.waiter w ≠ none
  | .wakeParent t => Listed s t
  | .exit => s.cur ≠ s.idleThread
  | .exitChild t => Listed s t ∧ (s.tcb t).status = .hanging

/-- What the step does. -/
def SchedOp.run (s : Sched κ ω) : SchedOp κ ω → Outcome (Sched κ ω)
  | .tick => intrTimerHandler s
  | .intr b => .ok (s.setIntr b)
  | .start t n => threadStart t n s
  | .fork t => sysFork t s
  | .idleBlock => threadBlock .blocked s
  | .semaBlock k => Thread.semaBlock k s
  | .ioqWait w => Thread.ioqWait w s
  | .wait => threadBlock .waiting s
  | .hang => threadBlock .hanging s
  | .yield => threadYield s
  | .semaWake k => Thread.semaWake k s
  | .ioqWakeup w => Thread.ioqWakeup w s
  | .wakeParent t => Thread.wakeParent t s
  | .exit => threadExit s.cur true s
  | .exitChild t => threadExit t false s

/-- The state `thread_init` starts from: `main_thread` is not set, the new PCBs
    are pages other than the one the code runs on, and the waiters lists are
    empty. -/
structure BootOk (s : Sched κ ω) (first idle : Pcb) : Prop where
  noMain : s.mainThread = 0
  firstNew : first ≠ 0 ∧ first ≠ s.cur
  idleNew : idle ≠ first ∧ idle ≠ s.cur
  waiters : ∀ k, tags.Holds s.links (anchor (.waiters k)) []
  waiter : ∀ w, s.waiter w = none
  idleWakes : s.idleWakes = []

/-- The scheduler from `thread_init` on. -/
def schedSystem (κ ω : Type) [DecidableEq κ] [DecidableEq ω] :
    System (Sched κ ω) (SchedOp κ ω) where
  init s := ∃ s₀ first idle, BootOk s₀ first idle ∧ threadInit first idle s₀ = .ok s
  next s op s' := op.Legal s ∧ op.run s = .ok s'

end Thread
end JackOS
