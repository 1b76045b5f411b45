/-
  JackOS.Device.Ide

  One channel of device/ide.c: threads in `ide_read` and `ide_write`, and the
  interrupts of the disk, which arrive whenever the processor takes them.  Each
  statement is a step, but for `sema_down` and `sema_up`, which run with
  interrupts off.  The mutex of the channel is `Thread.Mutex`.

  The disk itself is not modelled: an interrupt may come at any time, also when
  no command was given, and `busy_wait` finds the disk ready or does not.
-/

import JackOS.Thread.Mutex

namespace JackOS
namespace Device

open Base Thread

/-- `max_lba` -/
def maxLba : Nat := 80 * 1024 * 1024 / 512 - 1

/-- `ide_read` or `ide_write`. -/
inductive IdeOp where
  | read
  | write
deriving DecidableEq, Repr

/-- Where a thread is in `ide_read` or `ide_write`. -/
inductive IdePc where
  /-- Outside both. -/
  | outside
  /-- In `mutex_acquire`. -/
  | acquiring
  /-- At `select_disk`. -/
  | selectDisk
  /-- At `while (secs_done < sec_cnt)`. -/
  | test
  /-- At `select_sector`. -/
  | selectSector
  /-- In `cmd_out`, at `expecting_intr = true` and at `outb`. -/
  | expect
  | command
  /-- At `sema_down(&disk_done)`, or woken inside it. -/
  | down
  /-- At `busy_wait`. -/
  | busyWait
  /-- At `read_from_sector` or `write_to_sector`. -/
  | transfer
  /-- At `secs_done += ..`. -/
  | count
  /-- In `mutex_release`. -/
  | releasing
deriving DecidableEq, Repr

/-- A thread's call, its local variables and whether it is blocked on
    `disk_done`. -/
structure IdeCall where
  pc : IdePc
  op : IdeOp
  lba : Nat
  secCnt : Nat
  secsDone : Nat
  /-- `secs_to_read` or `secs_to_write` -/
  secs : Nat
  blocked : Bool

/-- What the log of the channel records. -/
inductive DiskEvent (τ : Type) where
  /-- `cmd_out` by the thread. -/
  | command (t : τ)
  /-- `sema_up(&disk_done)` by the interrupt handler. -/
  | up
  /-- The thread returns from `sema_down(&disk_done)`. -/
  | down (t : τ)
deriving DecidableEq

/-- `ide_channel_t`, the threads, and a log that no code reads. -/
structure Channel (τ : Type) where
  mutex : Mutex τ
  expectingIntr : Bool
  /-- `disk_done.value`, a `uint8_t`. -/
  value : Nat
  /-- `disk_done.waiters` -/
  waiters : List τ
  call : τ → IdeCall
  log : List (DiskEvent τ)

variable {τ : Type} [DecidableEq τ]

namespace Channel

def setCall (s : Channel τ) (t : τ) (c : IdeCall) : Channel τ :=
  { s with call := Function.update s.call t c }

/-- The thread goes to `pc`. -/
def goto (s : Channel τ) (t : τ) (pc : IdePc) : Channel τ :=
  s.setCall t { s.call t with pc := pc }

def setBlocked (s : Channel τ) (t : τ) (b : Bool) : Channel τ :=
  s.setCall t { s.call t with blocked := b }

def record (s : Channel τ) (e : DiskEvent τ) : Channel τ :=
  { s with log := s.log ++ [e] }

end Channel

/-- The channel as `ide_init` leaves it. -/
def channelInit : Channel τ where
  mutex := mutexInit
  expectingIntr := false
  value := 0
  waiters := []
  call _ := ⟨.outside, .read, 0, 0, 0, 0, false⟩
  log := []

/-- `ide_read` or `ide_write` up to the branch of `mutex_acquire`. -/
def ideStart (t : τ) (op : IdeOp) (lba secCnt : Nat) (s : Channel τ) : Outcome (Channel τ) := do
  require (lba ≤ maxLba)
  require (0 < secCnt)
  .ok ({ s with mutex := Thread.mutexAcquire t s.mutex }.setCall t ⟨.acquiring, op, lba, secCnt, 0, 0, false⟩)

/-- `sema_down(&disk_done)` of thread `t`, up to its return or its
    `thread_block`; a woken thread tests the value again. -/
def diskDown (t : τ) (s : Channel τ) : Outcome (Channel τ) :=
  if s.value = 0 then do
    require (t ∉ s.waiters)
    .ok ({ s with waiters := s.waiters ++ [t] }.setBlocked t true)
  else do
    let s := { s with value := s.value - 1 }
    require (s.value = 0)
    .ok ((s.record (.down t)).goto t
      (match (s.call t).op with
        | .read => .busyWait
        | .write => .count))

/-- The wakeup in `sema_up`. -/
def wakeDisk (s : Channel τ) : Outcome (Channel τ) :=
  match s.waiters with
  | [] => .ok s
  | w :: ws => do
      require ((s.call w).blocked = true)
      .ok ({ s with waiters := ws }.setBlocked w false)

/-- `sema_up(&disk_done)` -/
def diskUp (s : Channel τ) : Outcome (Channel τ) := do
  require (s.value = 0)
  let s ← wakeDisk s
  let s := { s with value := (s.value + 1) % 2 ^ 8 }
  require (s.value = 1)
  .ok (s.record .up)

/-- `intr_hd_handler` -/
def intrHdHandler (s : Channel τ) : Outcome (Channel τ) :=
  if s.expectingIntr then diskUp { s with expectingIntr := false } else .ok s

/-- `(secs_done + 256) <= sec_cnt ? 256 : sec_cnt - secs_done` -/
def secsNext (secsDone secCnt : Nat) : Nat :=
  if (secsDone + 256) % 2 ^ 32 ≤ secCnt then 256 else secCnt - secsDone

/-- The next statement of a thread inside one of the two; `ready` is what
    `busy_wait` returns, where the thread is at it. -/
def ideAdvance (t : τ) (ready : Bool) (s : Channel τ) : Outcome (Channel τ) :=
  let c := s.call t
  match c.pc with
  | .outside => .ok s
  | .acquiring => do
      let m ← Thread.advance t s.mutex
      .ok ({ s with mutex := m }.goto t
        (if (m.client t).pc = MutexPc.outside then .selectDisk else .acquiring))
  | .selectDisk => .ok (s.goto t .test)
  | .test =>
      if c.secsDone < c.secCnt then
        .ok (s.setCall t { c with pc := .selectSector, secs := secsNext c.secsDone c.secCnt })
      else do
        let m ← Thread.mutexRelease t s.mutex
        .ok ({ s with mutex := m }.goto t .releasing)
  | .selectSector => do
      require ((c.lba + c.secsDone) % 2 ^ 32 ≤ maxLba)
      .ok (s.goto t .expect)
  | .expect => .ok (({ s with expectingIntr := true }.record (.command t)).goto t .command)
  | .command =>
      .ok (s.goto t
        (match c.op with
          | .read => .down
          | .write => .busyWait))
  | .down => diskDown t s
  | .busyWait => do
      -- PANIC
      require (ready = true)
      .ok (s.goto t .transfer)
  | .transfer =>
      .ok (s.goto t
        (match c.op with
          | .read => .count
          | .write => .down))
  | .count =>
      .ok (s.setCall t { c with pc := .test, secsDone := (c.secsDone + c.secs) % 2 ^ 32 })
  | .releasing => do
      let m ← Thread.advance t s.mutex
      .ok ({ s with mutex := m }.goto t
        (if (m.client t).pc = MutexPc.outside then .outside else .releasing))

/-! ## Runs -/

/-- The steps of the system. -/
inductive ChannelOp (τ : Type) where
  | start (t : τ) (op : IdeOp) (lba secCnt : Nat)
  | advance (t : τ) (ready : Bool)
  | interrupt

/-- When a step can happen: a thread that is not blocked, or an interrupt. -/
def ChannelOp.Legal (s : Channel τ) : ChannelOp τ → Prop
  | .start t _ _ _ => (s.call t).pc = .outside
  | .advance t _ => (s.call t).pc ≠ .outside ∧ (s.call t).blocked = false
      ∧ (s.mutex.client t).blocked = false
  | .interrupt => True

instance ChannelOp.decidableLegal (s : Channel τ) : (op : ChannelOp τ) → Decidable (op.Legal s)
  | .start .. => inferInstanceAs (Decidable (_ = _))
  | .advance .. => inferInstanceAs (Decidable (_ ∧ _))
  | .interrupt => .isTrue trivial

/-- What the step does. -/
def ChannelOp.run (s : Channel τ) : ChannelOp τ → Outcome (Channel τ)
  | .start t op lba secCnt => ideStart t op lba secCnt s
  | .advance t ready => ideAdvance t ready s
  | .interrupt => intrHdHandler s

/-- The channel and its threads from `ide_init` on. -/
def channelSystem (τ : Type) [DecidableEq τ] : System (Channel τ) (ChannelOp τ) where
  init s := s = channelInit
  next s op s' := op.Legal s ∧ op.run s = .ok s'

/-- The steps at which `ide_read` and `ide_write` stop the kernel themselves: an
    ASSERT about sector numbers, and the PANIC when the disk does not get ready. -/
def ChannelOp.Stops (s : Channel τ) : ChannelOp τ → Prop
  | .start _ _ lba secCnt => ¬ (lba ≤ maxLba ∧ 0 < secCnt)
  | .advance t ready =>
      (s.call t).pc = .selectSector ∧ ¬ ((s.call t).lba + (s.call t).secsDone) % 2 ^ 32 ≤ maxLba
        ∨ (s.call t).pc = .busyWait ∧ ready = false
  | .interrupt => False

end Device
end JackOS
