/-
  JackOS.Device.IoQueue

  The io queue of device/ioqueue.c used by any threads.  `ioq_getchar` and
  `ioq_putchar` run with interrupts off, so a thread runs until it blocks (in
  the mutex of the queue or in `ioq_wait`) or returns, and then any thread that
  is not blocked goes on: each such run is a step.

  The state records the bytes stored and taken, in order, which no code reads.
-/

import JackOS.Base.Outcome
import JackOS.Base.Ring
import JackOS.Base.Transition

namespace JackOS
namespace Device

open Base

/-! ## The buffer -/

/-- `buf`, `head` and `tail` of `ioqueue_t`. -/
structure IoBuf where
  buf : Nat → UInt8
  head : Nat
  tail : Nat

/-- `bufsize`. -/
def bufsize : Nat := 64

/-- `next_pos`. -/
def nextPos (curPos : Nat) : Nat := (curPos + 1) % bufsize

/-- `ioq_full`. -/
def ioqFull (ioq : IoBuf) : Bool := nextPos ioq.head == ioq.tail

/-- `ioq_empty`. -/
def ioqEmpty (ioq : IoBuf) : Bool := ioq.head == ioq.tail

/-- `ioq_length`. -/
def ioqLength (ioq : IoBuf) : Nat :=
  if ioq.tail ≤ ioq.head then ioq.head - ioq.tail else bufsize - (ioq.tail - ioq.head)

/-! ## The queue and its threads -/

/-- Where a thread is blocked, or will go on: in `sema_down` of the mutex or in
    `ioq_wait`; a thread that runs counts as outside. -/
inductive IoqPc where
  | outside
  | getAcquire
  | getWait
  | putAcquire (byte : UInt8)
  | putWait (byte : UInt8)
deriving DecidableEq, Repr

/-- A thread that uses the queue. -/
structure IoqThread where
  pc : IoqPc
  /-- Its status is `TASK_BLOCKED`. -/
  blocked : Bool

/-- The fields of `ioqueue_t` that hold a waiting thread. -/
inductive Side where
  | producer
  | consumer
deriving DecidableEq, Repr

/-- `ioqueue_t`, and the threads. -/
structure IoQueue (τ : Type) where
  holder : Option τ
  holderRepeatNr : Nat
  value : Nat
  waiters : List τ
  waiter : Side → Option τ
  ioBuf : IoBuf
  thread : τ → IoqThread
  stored : List UInt8
  taken : List UInt8

variable {τ : Type} [DecidableEq τ]

namespace IoQueue

def setPc (q : IoQueue τ) (t : τ) (pc : IoqPc) : IoQueue τ :=
  { q with thread := Function.update q.thread t { q.thread t with pc := pc } }

def setBlocked (q : IoQueue τ) (t : τ) (b : Bool) : IoQueue τ :=
  { q with thread := Function.update q.thread t { q.thread t with blocked := b } }

def setWaiter (q : IoQueue τ) (side : Side) (t : Option τ) : IoQueue τ :=
  { q with waiter := Function.update q.waiter side t }

end IoQueue

/-- `thread_unblock`. -/
def unblock (t : τ) (q : IoQueue τ) : Outcome (IoQueue τ) := do
  require ((q.thread t).blocked = true)
  .ok (q.setBlocked t false)

/-! ## The mutex -/

/-- A round of the loop of `sema_down`: whether it gets through. -/
def semaDown (t : τ) (q : IoQueue τ) : Outcome (Bool × IoQueue τ) :=
  if q.value = 0 then do
    require (t ∉ q.waiters)
    .ok (false, { q with waiters := q.waiters ++ [t] }.setBlocked t true)
  else do
    require (q.value - 1 = 0)
    .ok (true, { q with value := q.value - 1 })

/-- `mutex_acquire` from a round of `sema_down` on. -/
def mutexTake (t : τ) (q : IoQueue τ) : Outcome (Bool × IoQueue τ) := do
  let (got, q) ← semaDown t q
  if got then do
    require (q.holderRepeatNr = 0)
    .ok (true, { q with holder := some t, holderRepeatNr := 1 })
  else .ok (false, q)

/-- `mutex_acquire`. -/
def mutexAcquire (t : τ) (q : IoQueue τ) : Outcome (Bool × IoQueue τ) :=
  if q.holder ≠ some t then mutexTake t q
  else .ok (true, { q with holderRepeatNr := (q.holderRepeatNr + 1) % 2 ^ 32 })

/-- The wakeup in `sema_up`. -/
def wakeFirst (q : IoQueue τ) : Outcome (IoQueue τ) :=
  match q.waiters with
  | [] => .ok q
  | w :: ws => unblock w { q with waiters := ws }

/-- `sema_up`. -/
def semaUp (q : IoQueue τ) : Outcome (IoQueue τ) := do
  require (q.value = 0)
  let q ← wakeFirst q
  require (q.value + 1 = 1)
  .ok { q with value := q.value + 1 }

/-- `mutex_release`. -/
def mutexRelease (t : τ) (q : IoQueue τ) : Outcome (IoQueue τ) := do
  require (q.holder = some t)
  if 1 < q.holderRepeatNr then .ok { q with holderRepeatNr := q.holderRepeatNr - 1 }
  else do
    require (q.holderRepeatNr = 1)
    semaUp { q with holder := none, holderRepeatNr := 0 }

/-! ## The calls -/

/-- `ioq_wait(&ioq->side)`, up to where it blocks, at `pc`. -/
def ioqWait (side : Side) (pc : IoqPc) (t : τ) (q : IoQueue τ) : Outcome (IoQueue τ) := do
  require (q.waiter side = none)
  .ok (((q.setWaiter side (some t)).setBlocked t true).setPc t pc)

/-- `ioq_wakeup(&ioq->side)`, where the field is not NULL. -/
def ioqWakeup (side : Side) (q : IoQueue τ) : Outcome (IoQueue τ) :=
  match q.waiter side with
  | none => .ok q
  | some t => do
      let q ← unblock t q
      .ok (q.setWaiter side none)

/-- The end of `ioq_getchar`: it takes a byte, wakes the producer and
    returns. -/
def takeByte (t : τ) (q : IoQueue τ) : Outcome (IoQueue τ) :=
  let byte := q.ioBuf.buf q.ioBuf.tail
  let q := { q with
    ioBuf := { q.ioBuf with tail := nextPos q.ioBuf.tail }
    taken := q.taken ++ [byte] }
  ioqWakeup .producer (q.setPc t .outside)

/-- After `mutex_acquire` has returned, or has blocked at `acquirePc`. -/
def acquired (side : Side) (waitPc acquirePc : IoqPc) (t : τ) :
    Bool × IoQueue τ → Outcome (IoQueue τ)
  | (true, q) => ioqWait side waitPc t q
  | (false, q) => .ok (q.setPc t acquirePc)

/-- `ioq_wait(&ioq->consumer)` in `ioq_getchar`. -/
def getAcquired (t : τ) : Bool × IoQueue τ → Outcome (IoQueue τ) :=
  acquired .consumer .getWait .getAcquire t

/-- `ioq_getchar`. -/
def ioqGetchar (t : τ) (q : IoQueue τ) : Outcome (IoQueue τ) :=
  if ioqEmpty q.ioBuf then do
    let r ← mutexAcquire t q
    getAcquired t r
  else takeByte t q

/-- The end of `ioq_putchar`: it stores the byte, wakes the consumer and
    returns. -/
def storeByte (t : τ) (byte : UInt8) (q : IoQueue τ) : Outcome (IoQueue τ) :=
  let q := { q with
    ioBuf := { q.ioBuf with
      buf := Function.update q.ioBuf.buf q.ioBuf.head byte
      head := nextPos q.ioBuf.head }
    stored := q.stored ++ [byte] }
  ioqWakeup .consumer (q.setPc t .outside)

/-- `ioq_wait(&ioq->producer)` in `ioq_putchar`. -/
def putAcquired (t : τ) (byte : UInt8) : Bool × IoQueue τ → Outcome (IoQueue τ) :=
  acquired .producer (.putWait byte) (.putAcquire byte) t

/-- `ioq_putchar`, from the test of its loop on. -/
def ioqPutchar (t : τ) (byte : UInt8) (q : IoQueue τ) : Outcome (IoQueue τ) :=
  if ioqFull q.ioBuf then do
    let r ← mutexAcquire t q
    putAcquired t byte r
  else storeByte t byte q

/-- A thread that was blocked at `pc` goes on. -/
def resumeAt (t : τ) (q : IoQueue τ) : IoqPc → Outcome (IoQueue τ)
  | .outside => .ok q
  | .getAcquire => do
      let r ← mutexTake t q
      getAcquired t r
  | .getWait => do
      let q ← mutexRelease t q
      takeByte t q
  | .putAcquire byte => do
      let r ← mutexTake t q
      putAcquired t byte r
  | .putWait byte => do
      let q ← mutexRelease t q
      ioqPutchar t byte q

/-- A blocked thread is scheduled again. -/
def resume (t : τ) (q : IoQueue τ) : Outcome (IoQueue τ) :=
  resumeAt t (q.setPc t .outside) (q.thread t).pc

/-! ## Runs -/

/-- The steps of the system. -/
inductive IoqOp (τ : Type) where
  | getchar (t : τ)
  | putchar (t : τ) (byte : UInt8)
  | resume (t : τ)

/-- When a step can happen. -/
def IoqOp.Legal (q : IoQueue τ) : IoqOp τ → Prop
  | .getchar t => (q.thread t).pc = .outside ∧ (q.thread t).blocked = false
  | .putchar t _ => (q.thread t).pc = .outside ∧ (q.thread t).blocked = false
  | .resume t => (q.thread t).pc ≠ .outside ∧ (q.thread t).blocked = false

instance IoqOp.decidableLegal (q : IoQueue τ) (op : IoqOp τ) : Decidable (op.Legal q) := by
  cases op <;> unfold IoqOp.Legal <;> infer_instance

/-- What the step does. -/
def IoqOp.run (q : IoQueue τ) : IoqOp τ → Outcome (IoQueue τ)
  | .getchar t => ioqGetchar t q
  | .putchar t byte => ioqPutchar t byte q
  | .resume t => Device.resume t q

/-- `ioqueue_init`, with all threads outside; the buffer holds anything. -/
def ioqueueInit (buf : Nat → UInt8) : IoQueue τ where
  holder := none
  holderRepeatNr := 0
  value := 1
  waiters := []
  waiter _ := none
  ioBuf := ⟨buf, 0, 0⟩
  thread _ := ⟨.outside, false⟩
  stored := []
  taken := []

/-- The queue and its threads from `ioqueue_init` on. -/
def ioqSystem (τ : Type) [DecidableEq τ] : System (IoQueue τ) (IoqOp τ) where
  init q := ∃ buf, q = ioqueueInit buf
  next q op q' := op.Legal q ∧ op.run q = .ok q'

end Device
end JackOS
