/-
  JackOS.Fs.FdCheck

  What `sys_close`, `sys_read`, `sys_write` and `sys_lseek` do with the
  descriptor they are given.  A descriptor that is no good for the call should
  be refused with -1; each call tests a part of it only, and every other bad
  descriptor goes through `fd_local2global`, which asserts, or to an entry of
  the file table that is free or of another kind.

  The io queues of the keyboard and of the pipes and the screen are no part of
  the file system's state.  What their functions do is a parameter (`Devices`),
  and a call is right if it is right whatever they do short of stopping the
  kernel themselves.
-/

import JackOS.Device.IoQueue
import JackOS.Fs.Descriptors

namespace JackOS
namespace Fs

open Base

variable {s : FsState} {fd : Int} {g count : Nat} {buf : Mem}

/-! ## The calls -/

/-- The functions of io queues and of the screen that the calls use.  A queue is
    given by the page it lies in. -/
structure Devices where
  /-- `kbd_buf` -/
  kbdBuf : Nat
  ioqLength : FsState → Nat → Nat
  ioqGetchar : FsState → Nat → Outcome (UInt8 × FsState)
  ioqPutchar : FsState → Nat → UInt8 → Outcome FsState
  consolePutStr : FsState → List UInt8 → Outcome FsState

namespace Devices

variable (dev : Devices)

/-- `left` bytes of a queue go to `buf[i]` and on. -/
def readBytes (queue : Nat) : (left i : Nat) → Mem → FsState → Outcome (Mem × FsState)
  | 0, _, buf, s => .ok (buf, s)
  | left + 1, i, buf, s => do
      let (byte, s) ← dev.ioqGetchar s queue
      readBytes queue left (i + 1) (Function.update buf i byte) s

/-- `left` bytes from `buf[i]` on go to a queue. -/
def writeBytes (queue : Nat) (buf : Mem) : (left i : Nat) → FsState → Outcome FsState
  | 0, _, s => .ok s
  | left + 1, i, s => do
      let s ← dev.ioqPutchar s queue (buf i)
      writeBytes queue buf left (i + 1) s

/-- The branch of `sys_read` for the keyboard. -/
def keyboard (s : FsState) (buf : Mem) (count : Nat) : Outcome (Int × Mem × FsState) := do
  let (buf, s) ← dev.readBytes dev.kbdBuf count 0 buf s
  .ok (if count = 0 then -1 else int32 count, buf, s)

/-- The branch of `sys_write` for the console: `count` bytes go into
    `char temp_buf[1024] = {0}`, and what stands in front of the first NUL is
    printed. -/
def console (s : FsState) (buf : Mem) (count : Nat) : Outcome (Int × FsState) :=
  if count ≤ 1024 then do
    let str ← Buf.string ((List.range count).map buf ++ List.replicate (1024 - count) 0)
    let s ← dev.consolePutStr s str
    .ok (count, s)
  else .error .undefined

/-- `pipe_read` -/
def pipeRead (s : FsState) (queue : Nat) (buf : Mem) (count : Nat) :
    Outcome (Int × Mem × FsState) := do
  let ioqLen := dev.ioqLength s queue
  let size := if count < ioqLen then count else ioqLen
  let (buf, s) ← dev.readBytes queue size 0 buf s
  .ok (int32 size, buf, s)

/-- `pipe_write` -/
def pipeWrite (s : FsState) (queue : Nat) (buf : Mem) (count : Nat) :
    Outcome (Int × FsState) := do
  let ioqLeft := subU32 Device.bufsize (dev.ioqLength s queue)
  let size := if count < ioqLeft then count else ioqLeft
  let s ← dev.writeBytes queue buf size 0 s
  .ok (int32 size, s)

end Devices

/-- The queue of `pipe_read` and `pipe_write`, from entry `globalFd`. -/
def pipeQueue (s : FsState) (globalFd : Nat) : Outcome Nat :=
  match (s.fileTable globalFd).fdInode with
  | none => .error .undefined
  | some queue => .ok queue

/-- The branches of `sys_read` that read no file. -/
def Devices.inp (dev : Devices) (s : FsState) (fd : Int) (buf : Mem) (count : Nat) :
    Outcome (Int × Mem × FsState) := do
  let globalFd ← fdLocal2Global s fd
  if isPipe s globalFd then
    let queue ← pipeQueue s globalFd
    dev.pipeRead s queue buf count
  else dev.keyboard s buf count

/-- The branches of `sys_write` that write no file. -/
def Devices.out (dev : Devices) (s : FsState) (fd : Int) (buf : Mem) (count : Nat) :
    Outcome (Int × FsState) := do
  let globalFd ← fdLocal2Global s fd
  if isPipe s globalFd then
    let queue ← pipeQueue s globalFd
    dev.pipeWrite s queue buf count
  else dev.console s buf count

/-- `whence_t` -/
inductive Whence where
  | set
  | cur
  | fromEnd
deriving DecidableEq, Repr

/-- The value of the enumeration constant. -/
def Whence.toWord : Whence → Nat
  | .set => 1
  | .cur => 2
  | .fromEnd => 3

/-- A call that takes a descriptor, with its other arguments. -/
inductive FdCall where
  | close
  | read (count : Nat)
  | write (count : Nat)
  | lseek (offset : Int) (whence : Whence)
deriving DecidableEq, Repr

/-- The result of a call that leaves the caller's buffer alone. -/
def withBuf (buf : Mem) (r : Outcome (Int × FsState)) : Outcome (Int × Mem × FsState) := do
  let (ret, s) ← r
  .ok (ret, buf, s)

/-- The system call itself: what it returns, the caller's buffer and the state
    afterwards. -/
def FdCall.run (dev : Devices) (s : FsState) (fd : Int) (buf : Mem) :
    FdCall → Outcome (Int × Mem × FsState)
  | .close => withBuf buf (sysClose s fd)
  | .read count => sysRead dev.inp s fd buf count
  | .write count => withBuf buf (sysWrite dev.out s fd buf count)
  | .lseek offset whence => withBuf buf (sysLseek s fd offset whence.toWord)

/-! ## What they should do -/

/-- Descriptor `fd` of the running process is open, on entry `globalFd`. -/
def IsFd (s : FsState) (fd : Int) (globalFd : Nat) : Prop :=
  (0 ≤ fd ∧ fd < maxFileOpenPerProc) ∧ s.task.fdTable fd.toNat = globalFd ∧ globalFd < maxFileOpen

/-- Entry `globalFd` is a pipe in use. -/
def UsedPipe (s : FsState) (globalFd : Nat) : Prop :=
  isPipe s globalFd = true ∧ (s.fileTable globalFd).fdInode ≠ none

/-- Entry `globalFd` is a file in use. -/
def UsedFile (s : FsState) (globalFd : Nat) : Prop :=
  isPipe s globalFd = false ∧ (s.fileTable globalFd).fdInode ≠ none

/-- stdin, on the entry kept for it -/
def Keyboard (s : FsState) (fd : Int) (globalFd : Nat) : Prop :=
  fd = 0 ∧ globalFd = 0 ∧ isPipe s globalFd = false

/-- stdout, on the entry kept for it -/
def Console (s : FsState) (fd : Int) (globalFd : Nat) : Prop :=
  fd = 1 ∧ globalFd = 1 ∧ isPipe s globalFd = false

/-- Not O_WRONLY. -/
def wantsRead (flag : Nat) : Bool := !flag.testBit 0 || flag.testBit 1

/-- Descriptor `fd`, on entry `globalFd`, is one the call can work on. -/
def FdCall.Serves (s : FsState) (fd : Int) (globalFd : Nat) : FdCall → Prop
  | .close => 2 < fd ∧ (UsedPipe s globalFd ∨ UsedFile s globalFd)
  | .read _ =>
      (fd ≠ 1 ∧ fd ≠ 2) ∧ (Keyboard s fd globalFd ∨ UsedPipe s globalFd ∨
        UsedFile s globalFd ∧ wantsRead (s.fileTable globalFd).fdFlag = true)
  | .write _ =>
      Console s fd globalFd ∨ UsedPipe s globalFd ∨
        UsedFile s globalFd ∧ wantsWrite (s.fileTable globalFd).fdFlag = true
  | .lseek _ _ => UsedFile s globalFd

/-- The call's work on entry `globalFd`. -/
def FdCall.operate (dev : Devices) (s : FsState) (fd : Int) (globalFd : Nat) (buf : Mem) :
    FdCall → Outcome (Int × Mem × FsState)
  | .close => do
      let s ← closeGlobal s globalFd
      .ok (0, buf,
        s.setTask { s.task with fdTable := Function.update s.task.fdTable fd.toNat (-1) })
  | .read count =>
      if isPipe s globalFd then do
        let queue ← pipeQueue s globalFd
        dev.pipeRead s queue buf count
      else if fd = 0 ∧ globalFd = 0 then dev.keyboard s buf count
      else fileRead s globalFd buf count
  | .write count =>
      withBuf buf
        (if isPipe s globalFd then do
          let queue ← pipeQueue s globalFd
          dev.pipeWrite s queue buf count
        else if fd = 1 ∧ globalFd = 1 then dev.console s buf count
        else fileWrite s globalFd buf count)
  | .lseek offset whence =>
      match (s.fileTable globalFd).fdInode with
      | none => .error .undefined
      | some p => withBuf buf (.ok (seekFile s globalFd p offset whence.toWord))

/-- No ASSERT fails and nothing is read outside the tables; the call works on the
    entry of its descriptor if it can, and otherwise returns -1 and changes
    nothing. -/
structure Checked (dev : Devices) (s : FsState) (fd : Int) (buf : Mem) (call : FdCall) : Prop where
  safe : (call.run dev s fd buf).Safe
  works : ∀ g, IsFd s fd g → call.Serves s fd g →
    call.run dev s fd buf = call.operate dev s fd g buf
  refused : (∀ g, IsFd s fd g → ¬ call.Serves s fd g) → call.run dev s fd buf = .ok (-1, buf, s)

/-- The queues and the screen do not stop the kernel. -/
structure Devices.Keep (dev : Devices) : Prop where
  ioqGetchar : ∀ s queue, (dev.ioqGetchar s queue).Safe
  ioqPutchar : ∀ s queue byte, (dev.ioqPutchar s queue byte).Safe
  consolePutStr : ∀ s str, (dev.consolePutStr s str).Safe

/-- The call checks its descriptor, whatever the devices do. -/
def DescriptorChecked (s : FsState) (fd : Int) (buf : Mem) (call : FdCall) : Prop :=
  ∀ dev : Devices, dev.Keep → Checked dev s fd buf call

/-- `file_read` on entry `globalFd` finds nothing left to read. -/
def AtEnd (s : FsState) (globalFd count : Nat) : Prop :=
  ∃ p, (s.fileTable globalFd).fdInode = some p ∧
    (s.inodes p).iSize < u32 ((s.fileTable globalFd).fdPos + count) ∧
    subU32 (s.inodes p).iSize (s.fileTable globalFd).fdPos = 0

/-- `temp_buf` of `sys_write` holds the bytes, and a NUL among or behind them. -/
def FitsTempBuf (buf : Mem) (count : Nat) : Prop :=
  count < 1024 ∨ count = 1024 ∧ ∃ i, i < 1024 ∧ buf i = 0

/-- The descriptors the call is right about: those its own test refuses, and
    the open ones on an entry of the kind it takes the descriptor for, where the
    work of `file_close`, `file_read` and `file_write` on that entry does not stop
    the kernel. -/
def FdCall.Sound (s : FsState) (fd : Int) (buf : Mem) : FdCall → Prop
  | .close => fd ≤ 2 ∨ ∃ g, IsFd s fd g ∧ (s.fileTable g).fdInode ≠ none ∧ (closeGlobal s g).Safe
  | .read count =>
      (fd < 0 ∨ fd = 1 ∨ fd = 2) ∨ ∃ g, IsFd s fd g ∧
        (UsedPipe s g ∨ Keyboard s fd g ∨
          (fd = 0 ∧ isPipe s g = false) ∧ count = 0 ∧
            ((s.fileTable g).fdInode ≠ none → wantsRead (s.fileTable g).fdFlag = true →
              AtEnd s g 0) ∨
          (fd ≠ 0 ∧ UsedFile s g) ∧
            (wantsRead (s.fileTable g).fdFlag = true ∧ (fileRead s g buf count).Safe
              ∨ AtEnd s g count))
  | .write count =>
      fd < 0 ∨ ∃ g, IsFd s fd g ∧
        (UsedPipe s g ∨ Console s fd g ∧ FitsTempBuf buf count ∨
          (fd ≠ 1 ∧ isPipe s g = false) ∧
            (wantsWrite (s.fileTable g).fdFlag = true →
              (s.fileTable g).fdInode ≠ none ∧ (fileWrite s g buf count).Safe))
  | .lseek _ _ => fd < 0 ∨ ∃ g, IsFd s fd g ∧ UsedFile s g

/-! ## From local to global -/

theorem IsFd.unique {g g' : Nat} (h : IsFd s fd g) (h' : IsFd s fd g') : g' = g :=
  Int.ofNat.inj (h'.2.1.symm.trans h.2.1)

theorem fdLocal2Global_of_isFd (h : IsFd s fd g) : fdLocal2Global s fd = .ok g := by
  obtain ⟨hfd, hg, hlt⟩ := h
  have hrange : 0 ≤ s.task.fdTable fd.toNat ∧ s.task.fdTable fd.toNat < maxFileOpen := by
    rw [hg]
    omega
  unfold fdLocal2Global
  rw [if_pos hfd]
  dsimp only
  rw [if_pos hrange, kassert_pos hrange, hg]
  rfl

theorem isFd_of_fdLocal2Global (h : fdLocal2Global s fd = .ok g) : IsFd s fd g := by
  obtain ⟨hnonneg, hfd, hname, hg⟩ := fdLocal2Global_ok h
  exact ⟨⟨hnonneg, hfd⟩, hname, hg⟩

/-- Outside the two tables `fd_local2global` does not return. -/
theorem fdLocal2Global_cases (s : FsState) (fd : Int) :
    (∃ g, IsFd s fd g ∧ fdLocal2Global s fd = .ok g) ∨
      (∀ g, ¬ IsFd s fd g) ∧ ∃ e, fdLocal2Global s fd = .error e := by
  cases hglobal : fdLocal2Global s fd with
  | ok g => exact .inl ⟨g, isFd_of_fdLocal2Global hglobal, rfl⟩
  | error e =>
      refine .inr ⟨fun g hg => ?_, e, rfl⟩
      rw [fdLocal2Global_of_isFd hg] at hglobal
      cases hglobal

/-! ## When a call is checked -/

variable {dev : Devices} {call : FdCall}

/-- A call on an open descriptor is judged by its entry. -/
theorem checked_iff (hg : IsFd s fd g) :
    Checked dev s fd buf call ↔ (call.run dev s fd buf).Safe ∧
      (call.Serves s fd g → call.run dev s fd buf = call.operate dev s fd g buf) ∧
      (¬ call.Serves s fd g → call.run dev s fd buf = .ok (-1, buf, s)) := by
  constructor
  · intro h
    refine ⟨h.safe, h.works g hg, fun hno => h.refused fun g' hg' => ?_⟩
    rw [hg.unique hg']
    exact hno
  · rintro ⟨hsafe, hworks, hrefused⟩
    refine ⟨hsafe, fun g' hg' => ?_, fun hno => hrefused (hno g hg)⟩
    rw [hg.unique hg']
    exact hworks

/-- Without an open descriptor the call is to be refused. -/
theorem checked_of_refused (hnone : ∀ g, IsFd s fd g → ¬ call.Serves s fd g)
    (hrun : call.run dev s fd buf = .ok (-1, buf, s)) : Checked dev s fd buf call where
  safe := by
    rw [hrun]
    exact Outcome.safe_ok _
  works g hg hserves := absurd hserves (hnone g hg)
  refused _ := hrun

theorem not_checked_of_error {e : Fault} (hnone : ∀ g, IsFd s fd g → ¬ call.Serves s fd g)
    (hrun : call.run dev s fd buf = .error e) : ¬ Checked dev s fd buf call := by
  intro h
  have href := h.refused hnone
  rw [hrun] at href
  cases href

theorem not_checked_of_entry {e : Fault} (hg : IsFd s fd g) (hno : ¬ call.Serves s fd g)
    (hrun : call.run dev s fd buf = .error e) : ¬ Checked dev s fd buf call := by
  apply not_checked_of_error _ hrun
  intro g' hg'
  rw [hg.unique hg']
  exact hno

theorem pipeQueue_none (h : (s.fileTable g).fdInode = none) : pipeQueue s g = .error .undefined := by
  unfold pipeQueue
  rw [h]

theorem withBuf_safe_iff {r : Outcome (Int × FsState)} : (withBuf buf r).Safe ↔ r.Safe := by
  unfold withBuf
  rw [Outcome.safe_bind_iff]
  exact ⟨And.left, fun h => ⟨h, fun _ _ => Outcome.safe_ok _⟩⟩

/-- A call that looks its descriptor up is right about the open descriptors on
    entries that are `good` for it. -/
theorem descriptorChecked_iff_entry {good : Nat → Prop} (hdev : dev.Keep)
    (herr : ∀ dev e, fdLocal2Global s fd = .error e → call.run dev s fd buf = .error e)
    (hentry : ∀ g, IsFd s fd g → fdLocal2Global s fd = .ok g →
      (DescriptorChecked s fd buf call ↔ good g)) :
    DescriptorChecked s fd buf call ↔ ∃ g, IsFd s fd g ∧ good g := by
  obtain ⟨g, hg, hglobal⟩ | ⟨hnone, e, he⟩ := fdLocal2Global_cases s fd
  · rw [hentry g hg hglobal]
    constructor
    · intro hgood
      exact ⟨g, hg, hgood⟩
    · rintro ⟨g', hg', hgood⟩
      rw [hg.unique hg'] at hgood
      exact hgood
  · constructor
    · intro h
      have hno : ¬ Checked dev s fd buf call :=
        not_checked_of_error (fun g hg => absurd hg (hnone g)) (herr _ e he)
      exact absurd (h dev hdev) hno
    · rintro ⟨g, hg, -⟩
      exact absurd hg (hnone g)

theorem countMalloc_ne (s : FsState) : s.countMalloc ≠ s := by
  intro h
  have hcnt := congrArg FsState.mallocCnt h
  rw [FsState.countMalloc_mallocCnt] at hcnt
  omega

/-! ### Devices -/

/-- Queues that hold zeros and a screen that shows nothing; `step` is what a byte
    or a string does to the state. -/
def tallyDevices (step : FsState → FsState) : Devices where
  kbdBuf := 0
  ioqLength _ _ := 0
  ioqGetchar s _ := .ok (0, step s)
  ioqPutchar s _ _ := .ok (step s)
  consolePutStr s _ := .ok (step s)

theorem tallyDevices_keep (step : FsState → FsState) : (tallyDevices step).Keep :=
  ⟨fun _ _ => Outcome.safe_ok _, fun _ _ _ => Outcome.safe_ok _, fun _ _ => Outcome.safe_ok _⟩

/-- Devices that leave the state alone, and devices that count. -/
def idleDevices : Devices := tallyDevices id

def countDevices : Devices := tallyDevices FsState.countMalloc

theorem idleDevices_keep : idleDevices.Keep := tallyDevices_keep id

theorem countDevices_keep : countDevices.Keep := tallyDevices_keep _

theorem idleDevices_readBytes (queue left i : Nat) (buf : Mem) (s : FsState) :
    ∃ buf', idleDevices.readBytes queue left i buf s = .ok (buf', s) := by
  induction left generalizing i buf with
  | zero => exact ⟨buf, rfl⟩
  | succ left ih => exact ih (i + 1) (Function.update buf i 0)

theorem countDevices_readBytes (queue left i : Nat) (buf : Mem) (s : FsState) :
    ∃ buf' s', countDevices.readBytes queue left i buf s = .ok (buf', s')
      ∧ s'.mallocCnt = s.mallocCnt + left := by
  induction left generalizing i buf s with
  | zero => exact ⟨buf, s, rfl, rfl⟩
  | succ left ih =>
      obtain ⟨buf', s', hrun, hcnt⟩ := ih (i + 1) (Function.update buf i 0) s.countMalloc
      refine ⟨buf', s', hrun, ?_⟩
      rw [hcnt, FsState.countMalloc_mallocCnt]
      omega

theorem Devices.Keep.readBytes (h : dev.Keep) (queue left i : Nat) (buf : Mem) (s : FsState) :
    (dev.readBytes queue left i buf s).Safe := by
  induction left generalizing i buf s with
  | zero => exact Outcome.safe_ok _
  | succ left ih =>
      exact Outcome.safe_bind_iff.2 ⟨h.ioqGetchar s queue, fun r _ => ih _ _ r.2⟩

theorem Devices.Keep.writeBytes (h : dev.Keep) (queue left i : Nat) (buf : Mem) (s : FsState) :
    (dev.writeBytes queue buf left i s).Safe := by
  induction left generalizing i s with
  | zero => exact Outcome.safe_ok _
  | succ left ih =>
      exact Outcome.safe_bind_iff.2 ⟨h.ioqPutchar s queue (buf i), fun s' _ => ih _ s'⟩

theorem Devices.Keep.keyboard (h : dev.Keep) : (dev.keyboard s buf count).Safe :=
  Outcome.safe_bind_iff.2 ⟨h.readBytes .., fun _ _ => Outcome.safe_ok _⟩

theorem Devices.Keep.pipeRead (h : dev.Keep) (queue : Nat) :
    (dev.pipeRead s queue buf count).Safe :=
  Outcome.safe_bind_iff.2 ⟨h.readBytes .., fun _ _ => Outcome.safe_ok _⟩

theorem Devices.Keep.pipeWrite (h : dev.Keep) (queue : Nat) :
    (dev.pipeWrite s queue buf count).Safe :=
  Outcome.safe_bind_iff.2 ⟨h.writeBytes .., fun _ _ => Outcome.safe_ok _⟩

/-- A NUL is in `temp_buf`. -/
theorem fitsTempBuf_iff (hcount : count ≤ 1024) : FitsTempBuf buf count
    ↔ (0 : UInt8) ∈ (List.range count).map buf ++ List.replicate (1024 - count) 0 := by
  rw [List.mem_append, List.mem_map, List.mem_replicate]
  simp only [List.mem_range]
  constructor
  · rintro (hlt | ⟨rfl, hzero⟩)
    · exact .inr ⟨by omega, trivial⟩
    · exact .inl hzero
  · rintro (⟨i, hi, hzero⟩ | ⟨hroom, -⟩)
    · rcases Nat.lt_or_eq_of_le hcount with hlt | rfl
      · exact .inl hlt
      · exact .inr ⟨rfl, i, hi, hzero⟩
    · exact .inl (by omega)

/-- What does not fit `temp_buf` runs over it. -/
theorem console_undefined (hno : ¬ FitsTempBuf buf count) :
    dev.console s buf count = .error .undefined := by
  unfold Devices.console
  split
  · rename_i hcount
    rw [Buf.string_undefined fun hmem => hno ((fitsTempBuf_iff hcount).2 hmem)]
    rfl
  · rfl

/-- What fits is printed, up to the first NUL. -/
theorem console_eq (h : FitsTempBuf buf count) : ∃ str, ∀ (dev : Devices) (s : FsState),
    dev.console s buf count = dev.consolePutStr s str >>= fun s => .ok ((count : Int), s) := by
  have hcount : count ≤ 1024 := by
    rcases h with hlt | ⟨rfl, -⟩
    · exact Nat.le_of_lt hlt
    · exact Nat.le_refl _
  -- what is printed depends on the buffer, not on the state
  obtain ⟨str, hstr⟩ := Buf.string_of_mem ((fitsTempBuf_iff hcount).1 h)
  refine ⟨str, fun dev s => ?_⟩
  rw [Devices.console, if_pos hcount, hstr]
  rfl

theorem Devices.Keep.console (hdev : dev.Keep) (h : FitsTempBuf buf count) :
    (dev.console s buf count).Safe := by
  obtain ⟨str, hconsole⟩ := console_eq h
  rw [hconsole]
  exact Outcome.safe_bind_iff.2 ⟨hdev.consolePutStr s str, fun _ _ => Outcome.safe_ok _⟩

/-! ### sys_close -/

theorem close_run (hfd : 2 < fd) (hg : fdLocal2Global s fd = .ok g) :
    FdCall.close.run dev s fd buf = FdCall.close.operate dev s fd g buf := by
  show withBuf buf (sysClose s fd) = _
  unfold sysClose
  rw [if_pos hfd, hg, Outcome.ok_bind]
  unfold FdCall.operate
  cases closeGlobal s g with
  | error e => rfl
  | ok s' => rfl

theorem close_operate_safe_iff :
    (FdCall.close.operate dev s fd g buf).Safe ↔ (closeGlobal s g).Safe := by
  unfold FdCall.operate
  rw [Outcome.safe_bind_iff]
  exact ⟨And.left, fun h => ⟨h, fun _ _ => Outcome.safe_ok _⟩⟩

/-- A file closed is never refused. -/
theorem close_ne_refused : FdCall.close.operate dev s fd g buf ≠ .ok (-1, buf, s) := by
  intro h
  obtain ⟨s', -, h⟩ := Outcome.bind_eq_ok.1 h
  cases h

theorem close_checked :
    DescriptorChecked s fd buf .close ↔ FdCall.close.Sound s fd buf := by
  by_cases hfd : 2 < fd
  · have hlow : ¬ fd ≤ 2 := by omega
    show _ ↔ fd ≤ 2 ∨ _
    rw [or_iff_right hlow]
    apply descriptorChecked_iff_entry idleDevices_keep
    · intro dev e he
      show withBuf buf (sysClose s fd) = _
      unfold sysClose
      rw [if_pos hfd, he]
      rfl
    · intro g hg hglobal
      have hserves : FdCall.close.Serves s fd g ↔ (s.fileTable g).fdInode ≠ none := by
        constructor
        · rintro ⟨-, hused | hused⟩
          · exact hused.2
          · exact hused.2
        · intro hused
          cases hpipe : isPipe s g with
          | true => exact ⟨hfd, .inl ⟨hpipe, hused⟩⟩
          | false => exact ⟨hfd, .inr ⟨hpipe, hused⟩⟩
      constructor
      · -- a free entry is closed all the same
        intro h
        obtain ⟨hsafe, -, href⟩ := (checked_iff hg).1 (h idleDevices idleDevices_keep)
        rw [close_run hfd hglobal] at hsafe href
        refine ⟨fun hfree => close_ne_refused (href fun hyes => hserves.1 hyes hfree), ?_⟩
        exact close_operate_safe_iff.1 hsafe
      · rintro ⟨hused, hsafe⟩ dev -
        rw [checked_iff hg, close_run hfd hglobal]
        exact ⟨close_operate_safe_iff.2 hsafe, fun _ => rfl,
          fun hno => absurd (hserves.2 hused) hno⟩
  · refine ⟨fun _ => .inl (by omega), fun _ dev _ => checked_of_refused ?_ ?_⟩
    · rintro g hg ⟨hlow, -⟩
      exact hfd hlow
    · show withBuf buf (sysClose s fd) = _
      unfold sysClose
      rw [if_neg hfd]
      rfl

/-! ### sys_lseek -/

theorem lseek_run {offset : Int} {whence : Whence} (hfd : ¬ fd < 0)
    (hg : fdLocal2Global s fd = .ok g) (hfile : isPipe s g = false) :
    (FdCall.lseek offset whence).run dev s fd buf =
      (FdCall.lseek offset whence).operate dev s fd g buf := by
  have hwhence : 0 < whence.toWord ∧ whence.toWord < 4 := by
    cases whence <;> decide
  show withBuf buf (sysLseek s fd offset whence.toWord) = _
  unfold sysLseek FdCall.operate
  rw [if_neg hfd, kassert_pos hwhence, Outcome.ok_bind, hg, Outcome.ok_bind]
  cases (s.fileTable g).fdInode with
  | none => rfl
  | some p =>
      dsimp only
      rw [hfile]
      rfl

theorem lseek_operate_safe {offset : Int} {whence : Whence} (hused : UsedFile s g) :
    ((FdCall.lseek offset whence).operate dev s fd g buf).Safe := by
  obtain ⟨p, hp⟩ := Option.ne_none_iff_exists'.1 hused.2
  unfold FdCall.operate
  dsimp only
  rw [hp]
  exact Outcome.safe_ok _

/-- Seeking on a free entry goes through a NULL pointer, and on a pipe through
    the queue. -/
theorem lseek_undefined {offset : Int} {whence : Whence} (hfd : ¬ fd < 0)
    (hg : fdLocal2Global s fd = .ok g) (hno : ¬ UsedFile s g) :
    (FdCall.lseek offset whence).run dev s fd buf = .error .undefined := by
  have hwhence : 0 < whence.toWord ∧ whence.toWord < 4 := by
    cases whence <;> decide
  show withBuf buf (sysLseek s fd offset whence.toWord) = _
  unfold sysLseek
  rw [if_neg hfd, kassert_pos hwhence, Outcome.ok_bind, hg, Outcome.ok_bind]
  cases hinode : (s.fileTable g).fdInode with
  | none => rfl
  | some p =>
      cases hpipe : isPipe s g with
      | true => rfl
      | false => exact absurd ⟨hpipe, by rw [hinode]; exact Option.some_ne_none p⟩ hno

theorem lseek_checked {offset : Int} {whence : Whence} :
    DescriptorChecked s fd buf (.lseek offset whence)
      ↔ (FdCall.lseek offset whence).Sound s fd buf := by
  by_cases hfd : fd < 0
  · refine ⟨fun _ => .inl hfd, fun _ dev _ => checked_of_refused ?_ ?_⟩
    · rintro g ⟨⟨hnonneg, -⟩, -⟩
      omega
    · show withBuf buf (sysLseek s fd offset whence.toWord) = _
      unfold sysLseek
      rw [if_pos hfd]
      rfl
  · show _ ↔ fd < 0 ∨ _
    rw [or_iff_right hfd]
    apply descriptorChecked_iff_entry idleDevices_keep
    · intro dev e he
      have hwhence : 0 < whence.toWord ∧ whence.toWord < 4 := by
        cases whence <;> decide
      show withBuf buf (sysLseek s fd offset whence.toWord) = _
      unfold sysLseek
      rw [if_neg hfd, kassert_pos hwhence, Outcome.ok_bind, he]
      rfl
    · intro g hg hglobal
      constructor
      · intro h
        apply Classical.byContradiction
        intro hno
        have hserves : ¬ (FdCall.lseek offset whence).Serves s fd g := hno
        exact not_checked_of_entry hg hserves (lseek_undefined hfd hglobal hno)
          (h idleDevices idleDevices_keep)
      · intro hused dev _
        rw [checked_iff hg, lseek_run hfd hglobal hused.1]
        exact ⟨lseek_operate_safe hused, fun _ => rfl, fun hno => absurd hused hno⟩

/-! ### sys_write -/

theorem write_run {buf : Mem} (hfd : ¬ fd < 0) (hg : fdLocal2Global s fd = .ok g) :
    (FdCall.write count).run dev s fd buf =
      withBuf buf
        (if isPipe s g = true then pipeQueue s g >>= fun queue => dev.pipeWrite s queue buf count
        else if fd = 1 then dev.console s buf count
        else if wantsWrite (s.fileTable g).fdFlag = true then fileWrite s g buf count
        else .ok (-1, s)) := by
  show withBuf buf (sysWrite dev.out s fd buf count) = _
  unfold sysWrite Devices.out
  rw [if_neg hfd, hg, Outcome.ok_bind, Outcome.ok_bind]
  by_cases hpipe : isPipe s g = true
  · rw [if_pos (.inr hpipe), if_pos hpipe, if_pos hpipe]
  · rw [if_neg hpipe, if_neg hpipe]
    by_cases hout : fd = 1
    · rw [if_pos (.inl hout), if_pos hout]
    · rw [if_neg (not_or.2 ⟨hout, hpipe⟩), if_neg hout]

/-- The work of `sys_write` on an entry that is no pipe. -/
theorem write_operate (hpipe : isPipe s g = false) :
    (FdCall.write count).operate dev s fd g buf =
      withBuf buf (if fd = 1 ∧ g = 1 then dev.console s buf count else fileWrite s g buf count) := by
  show withBuf buf (ite (isPipe s g = true) _ _) = _
  rw [hpipe]
  rfl

theorem write_pipe (hfd : ¬ fd < 0) (hg : IsFd s fd g) (hglobal : fdLocal2Global s fd = .ok g)
    (hpipe : isPipe s g = true) :
    DescriptorChecked s fd buf (.write count) ↔ (s.fileTable g).fdInode ≠ none := by
  constructor
  · intro h hfree
    have hno : ¬ (FdCall.write count).Serves s fd g := by
      rintro (hout | hused | ⟨hfile, -⟩)
      · rw [hout.2.2] at hpipe
        cases hpipe
      · exact hused.2 hfree
      · exact hfile.2 hfree
    apply not_checked_of_entry hg hno _ (h idleDevices idleDevices_keep)
    · exact .undefined
    · rw [write_run hfd hglobal, if_pos hpipe, pipeQueue_none hfree]
      rfl
  · intro hused dev hdev
    obtain ⟨queue, hqueue⟩ := Option.ne_none_iff_exists'.1 hused
    have hpage : pipeQueue s g = .ok queue := by
      unfold pipeQueue
      rw [hqueue]
    rw [checked_iff hg, write_run hfd hglobal, if_pos hpipe]
    refine ⟨?_, fun _ => ?_, fun hno => absurd (.inr (.inl ⟨hpipe, hused⟩)) hno⟩
    · rw [withBuf_safe_iff, hpage]
      exact hdev.pipeWrite queue
    · show _ = withBuf buf (ite (isPipe s g = true) _ _)
      rw [if_pos hpipe]

/-- Stdout goes to the console, on whatever entry it is. -/
theorem write_stdout (hg : IsFd s 1 g) (hglobal : fdLocal2Global s 1 = .ok g)
    (hpipe : isPipe s g = false) :
    DescriptorChecked s 1 buf (.write count) ↔ g = 1 ∧ FitsTempBuf buf count := by
  have hfd : ¬ (1 : Int) < 0 := by omega
  have hnot : ¬ isPipe s g = true := by
    rw [hpipe]
    exact Bool.false_ne_true
  have hrun : ∀ dev : Devices,
      (FdCall.write count).run dev s 1 buf = withBuf buf (dev.console s buf count) := by
    intro dev
    rw [write_run hfd hglobal, if_neg hnot, if_pos rfl]
  constructor
  · intro h
    -- two kinds of devices tell the console from a file: only one of them counts
    have hidle := (checked_iff hg).1 (h idleDevices idleDevices_keep)
    have hcount := (checked_iff hg).1 (h countDevices countDevices_keep)
    rw [hrun] at hidle hcount
    have hfits : FitsTempBuf buf count := by
      apply Classical.byContradiction
      intro hno
      rw [console_undefined hno] at hidle
      exact Outcome.not_safe_undefined (withBuf_safe_iff.1 hidle.1)
    obtain ⟨str, hconsole⟩ := console_eq hfits
    rw [hconsole] at hidle hcount
    refine ⟨Classical.byContradiction fun hone => ?_, hfits⟩
    -- what is printed would have to be written to the file, whatever printing does
    by_cases hserves : (FdCall.write count).Serves s 1 g
    · have hwork : ∀ dev : Devices, (FdCall.write count).operate dev s 1 g buf
          = withBuf buf (fileWrite s g buf count) := by
        intro dev
        rw [write_operate hpipe, if_neg fun hand => hone hand.2]
      have hsame := ((hcount.2.1 hserves).trans (hwork _)).trans
        ((hidle.2.1 hserves).trans (hwork _)).symm
      exact countMalloc_ne s (Prod.mk.inj (Prod.mk.inj (Except.ok.inj hsame)).2).2
    · have hminus := (Prod.mk.inj (Except.ok.inj (hidle.2.2 hserves))).1
      omega
  · rintro ⟨rfl, hfits⟩ dev hdev
    rw [checked_iff hg, hrun]
    refine ⟨withBuf_safe_iff.2 (hdev.console hfits), fun _ => ?_,
      fun hno => absurd (.inl ⟨rfl, rfl, hpipe⟩) hno⟩
    rw [write_operate hpipe, if_pos ⟨rfl, rfl⟩]

theorem write_file (hfd : ¬ fd < 0) (hout : fd ≠ 1) (hg : IsFd s fd g)
    (hglobal : fdLocal2Global s fd = .ok g) (hpipe : isPipe s g = false) :
    DescriptorChecked s fd buf (.write count) ↔
      (wantsWrite (s.fileTable g).fdFlag = true →
        (s.fileTable g).fdInode ≠ none ∧ (fileWrite s g buf count).Safe) := by
  have hnot : ¬ isPipe s g = true := by
    rw [hpipe]
    exact Bool.false_ne_true
  have hserves : (FdCall.write count).Serves s fd g ↔
      (s.fileTable g).fdInode ≠ none ∧ wantsWrite (s.fileTable g).fdFlag = true := by
    constructor
    · rintro (hcon | hused | ⟨hfile, hflag⟩)
      · exact absurd hcon.1 hout
      · exact absurd hused.1 hnot
      · exact ⟨hfile.2, hflag⟩
    · rintro ⟨hused, hflag⟩
      exact .inr (.inr ⟨⟨hpipe, hused⟩, hflag⟩)
  by_cases hflag : wantsWrite (s.fileTable g).fdFlag = true
  · have hrun : ∀ dev : Devices,
        (FdCall.write count).run dev s fd buf = withBuf buf (fileWrite s g buf count) := by
      intro dev
      rw [write_run hfd hglobal, if_neg hnot, if_neg hout, if_pos hflag]
    constructor
    · intro h _
      have hsafe := (h idleDevices idleDevices_keep).safe
      rw [hrun, withBuf_safe_iff] at hsafe
      refine ⟨fun hfree => ?_, hsafe⟩
      unfold fileWrite at hsafe
      rw [hfree] at hsafe
      exact Outcome.not_safe_undefined hsafe
    · intro h dev _
      obtain ⟨hused, hsafe⟩ := h hflag
      rw [checked_iff hg, hrun]
      refine ⟨withBuf_safe_iff.2 hsafe, fun _ => ?_,
        fun hno => absurd (hserves.2 ⟨hused, hflag⟩) hno⟩
      rw [write_operate hpipe, if_neg (fun hand => hout hand.1)]
  · constructor
    · intro _ hyes
      exact absurd hyes hflag
    · intro _ dev _
      have hrun : (FdCall.write count).run dev s fd buf = .ok (-1, buf, s) := by
        rw [write_run hfd hglobal, if_neg hnot, if_neg hout, if_neg hflag]
        rfl
      rw [checked_iff hg, hrun]
      exact ⟨Outcome.safe_ok _, fun hyes => absurd (hserves.1 hyes).2 hflag, fun _ => rfl⟩

theorem write_checked :
    DescriptorChecked s fd buf (.write count) ↔ (FdCall.write count).Sound s fd buf := by
  by_cases hfd : fd < 0
  · refine ⟨fun _ => .inl hfd, fun _ dev _ => checked_of_refused ?_ ?_⟩
    · rintro g ⟨⟨hnonneg, -⟩, -⟩
      omega
    · show withBuf buf (sysWrite dev.out s fd buf count) = _
      unfold sysWrite
      rw [if_pos hfd]
      rfl
  · show _ ↔ fd < 0 ∨ _
    rw [or_iff_right hfd]
    apply descriptorChecked_iff_entry idleDevices_keep
    · intro dev e he
      show withBuf buf (sysWrite dev.out s fd buf count) = _
      unfold sysWrite
      rw [if_neg hfd, he]
      rfl
    · intro g hg hglobal
      -- a pipe first, then stdout by its number, then the entry as a file
      unfold UsedPipe Console
      cases hpipe : isPipe s g with
      | true =>
          rw [write_pipe hfd hg hglobal hpipe]
          simp
      | false =>
          by_cases hout : fd = 1
          · subst hout
            rw [write_stdout hg hglobal hpipe]
            simp
          · rw [write_file hfd hout hg hglobal hpipe]
            simp [hout]

/-! ### sys_read -/

/-- `file_read` returns -1 and changes nothing at the end of the file only:
    anywhere else it goes to the heap first. -/
theorem fileRead_refused {p : Nat} (hp : (s.fileTable g).fdInode = some p) :
    fileRead s g buf count = .ok (-1, buf, s) ↔ AtEnd s g count := by
  have hsize : ∀ (hlt : (s.inodes p).iSize < u32 ((s.fileTable g).fdPos + count)),
      readSize (s.fileTable g).fdPos (s.inodes p).iSize count =
        subU32 (s.inodes p).iSize (s.fileTable g).fdPos := by
    intro hlt
    unfold readSize
    rw [if_pos hlt]
  constructor
  · intro h
    unfold fileRead at h
    rw [hp] at h
    dsimp only at h
    by_cases hend : u32 ((s.fileTable g).fdPos + count) > (s.inodes p).iSize ∧
        readSize (s.fileTable g).fdPos (s.inodes p).iSize count = 0
    · rw [hsize hend.1] at hend
      exact ⟨p, hp, hend⟩
    · rw [if_neg hend] at h
      cases h₁ : sysMalloc s with
      | mk ioBuf s₁ =>
      have hs₁ := sysMalloc_state h₁
      rw [h₁] at h
      cases ioBuf with
      | none =>
          -- the first request failed, but it was counted
          have hs : s₁ = s := (Prod.mk.inj (Prod.mk.inj (Except.ok.inj h)).2).2
          exact absurd (hs₁.symm.trans hs) (countMalloc_ne s)
      | some ioBuf =>
          dsimp only at h
          cases h₂ : sysMalloc s₁ with
          | mk allBlocksLba s₂ =>
          have hs₂ := sysMalloc_state h₂
          rw [h₂] at h
          cases allBlocksLba with
          | none =>
              -- so were both if the second one failed
              have hs : s₂ = s := (Prod.mk.inj (Prod.mk.inj (Except.ok.inj h)).2).2
              rw [hs₁] at hs₂
              rw [hs] at hs₂
              have hcnt := congrArg FsState.mallocCnt hs₂
              rw [FsState.countMalloc_mallocCnt, FsState.countMalloc_mallocCnt] at hcnt
              omega
          | some allBlocksLba =>
              obtain ⟨_, -, h⟩ := Outcome.bind_eq_ok.1 h
              obtain ⟨all, -, h⟩ := Outcome.bind_eq_ok.1 h
              obtain ⟨⟨dst, fdPos⟩, -, h⟩ := Outcome.bind_eq_ok.1 h
              obtain ⟨_, -, h⟩ := Outcome.bind_eq_ok.1 h
              obtain ⟨_, -, h⟩ := Outcome.bind_eq_ok.1 h
              -- a read that gets to its end returns a size, not -1
              have hret := (Prod.mk.inj (Except.ok.inj h)).1
              omega
  · rintro ⟨q, hq, hlt, hzero⟩
    rw [hp] at hq
    cases hq
    unfold fileRead
    rw [hp]
    dsimp only
    rw [if_pos ⟨hlt, (hsize hlt).trans hzero⟩]

theorem read_run (hfd : ¬ (fd < 0 ∨ fd = 1 ∨ fd = 2)) (hg : fdLocal2Global s fd = .ok g) :
    (FdCall.read count).run dev s fd buf =
      if isPipe s g = true then pipeQueue s g >>= fun queue => dev.pipeRead s queue buf count
      else if fd = 0 then dev.keyboard s buf count
      else fileRead s g buf count := by
  show sysRead dev.inp s fd buf count = _
  unfold sysRead Devices.inp
  rw [if_neg hfd, hg, Outcome.ok_bind, Outcome.ok_bind]
  by_cases hpipe : isPipe s g = true
  · rw [if_pos (.inr hpipe), if_pos hpipe, if_pos hpipe]
  · rw [if_neg hpipe, if_neg hpipe]
    by_cases hin : fd = 0
    · rw [if_pos (.inl hin), if_pos hin]
    · rw [if_neg (not_or.2 ⟨hin, hpipe⟩), if_neg hin]

/-- The work of `sys_read` on an entry that is no pipe. -/
theorem read_operate (hpipe : isPipe s g = false) :
    (FdCall.read count).operate dev s fd g buf =
      if fd = 0 ∧ g = 0 then dev.keyboard s buf count else fileRead s g buf count := by
  show ite (isPipe s g = true) _ _ = _
  rw [hpipe]
  rfl

theorem read_pipe (hfd : ¬ (fd < 0 ∨ fd = 1 ∨ fd = 2)) (hg : IsFd s fd g)
    (hglobal : fdLocal2Global s fd = .ok g) (hpipe : isPipe s g = true) :
    DescriptorChecked s fd buf (.read count) ↔ (s.fileTable g).fdInode ≠ none := by
  constructor
  · intro h hfree
    have hno : ¬ (FdCall.read count).Serves s fd g := by
      rintro ⟨-, hin | hused | ⟨hfile, -⟩⟩
      · rw [hin.2.2] at hpipe
        cases hpipe
      · exact hused.2 hfree
      · exact hfile.2 hfree
    apply not_checked_of_entry hg hno _ (h idleDevices idleDevices_keep)
    · exact .undefined
    · rw [read_run hfd hglobal, if_pos hpipe, pipeQueue_none hfree]
      rfl
  · intro hused dev hdev
    obtain ⟨queue, hqueue⟩ := Option.ne_none_iff_exists'.1 hused
    have hpage : pipeQueue s g = .ok queue := by
      unfold pipeQueue
      rw [hqueue]
    rw [checked_iff hg, read_run hfd hglobal, if_pos hpipe]
    refine ⟨?_, fun _ => ?_, fun hno => absurd ⟨⟨?_, ?_⟩, .inr (.inl ⟨hpipe, hused⟩)⟩ hno⟩
    · rw [hpage]
      exact hdev.pipeRead queue
    · show _ = ite (isPipe s g = true) _ _
      rw [if_pos hpipe]
    · exact fun h => hfd (.inr (.inl h))
    · exact fun h => hfd (.inr (.inr h))

/-- Stdin comes from the keyboard, on whatever entry it is; reading nothing from
    it gives -1. -/
theorem read_stdin (hg : IsFd s 0 g) (hglobal : fdLocal2Global s 0 = .ok g)
    (hpipe : isPipe s g = false) : DescriptorChecked s 0 buf (.read count) ↔ g = 0 ∨ count = 0
      ∧ ((s.fileTable g).fdInode ≠ none → wantsRead (s.fileTable g).fdFlag = true →
        AtEnd s g 0) := by
  have hfd : ¬ ((0 : Int) < 0 ∨ (0 : Int) = 1 ∨ (0 : Int) = 2) := by omega
  have hnot : ¬ isPipe s g = true := by
    rw [hpipe]
    exact Bool.false_ne_true
  have hrun : ∀ dev : Devices,
      (FdCall.read count).run dev s 0 buf = dev.keyboard s buf count := by
    intro dev
    rw [read_run hfd hglobal, if_neg hnot, if_pos rfl]
  have hserves : g ≠ 0 → ((FdCall.read count).Serves s 0 g ↔
      (s.fileTable g).fdInode ≠ none ∧ wantsRead (s.fileTable g).fdFlag = true) := by
    intro hzero
    constructor
    · rintro ⟨-, hkbd | hused | ⟨hfile, hflag⟩⟩
      · exact absurd hkbd.2.1 hzero
      · exact absurd hused.1 hnot
      · exact ⟨hfile.2, hflag⟩
    · rintro ⟨hused, hflag⟩
      exact ⟨⟨by omega, by omega⟩, .inr (.inr ⟨⟨hpipe, hused⟩, hflag⟩)⟩
  by_cases hzero : g = 0
  · subst hzero
    refine iff_of_true (fun dev hdev => ?_) (.inl rfl)
    have hkbd : (FdCall.read count).Serves s 0 0 :=
      ⟨⟨by omega, by omega⟩, .inl ⟨rfl, rfl, hpipe⟩⟩
    rw [checked_iff hg, hrun]
    refine ⟨hdev.keyboard, fun _ => ?_, fun hno => absurd hkbd hno⟩
    rw [read_operate hpipe, if_pos ⟨rfl, rfl⟩]
  · rw [or_iff_right hzero]
    have hwork : ∀ dev : Devices,
        (FdCall.read count).operate dev s 0 g buf = fileRead s g buf count := by
      intro dev
      rw [read_operate hpipe, if_neg (fun hand => hzero hand.2)]
    constructor
    · intro h
      obtain ⟨-, hyes, hno⟩ := (checked_iff hg).1 (h idleDevices idleDevices_keep)
      -- devices that count show that no byte was taken from the keyboard
      obtain ⟨-, hyes', hno'⟩ := (checked_iff hg).1 (h countDevices countDevices_keep)
      obtain ⟨buf₁, hread⟩ := idleDevices_readBytes idleDevices.kbdBuf count 0 buf s
      obtain ⟨buf₂, s₂, hread', hcnt⟩ :=
        countDevices_readBytes countDevices.kbdBuf count 0 buf s
      rw [hrun, Devices.keyboard, hread] at hyes hno
      rw [hrun, Devices.keyboard, hread'] at hyes' hno'
      have hcount : count = 0 := by
        have hstate : s₂ = s := by
          by_cases hserve : (FdCall.read count).Serves s 0 g
          · have hsame := ((hyes' hserve).trans (hwork _)).trans
              ((hyes hserve).trans (hwork _)).symm
            exact (Prod.mk.inj (Prod.mk.inj (Except.ok.inj hsame)).2).2
          · exact (Prod.mk.inj (Prod.mk.inj (Except.ok.inj (hno' hserve))).2).2
        rw [hstate] at hcnt
        omega
      subst hcount
      refine ⟨rfl, fun hused hflag => ?_⟩
      -- reading nothing from the keyboard gives -1
      obtain ⟨p, hp⟩ := Option.ne_none_iff_exists'.1 hused
      cases hread
      have hsame : .ok (-1, buf, s) = fileRead s g buf 0 :=
        (hyes ((hserves hzero).2 ⟨hused, hflag⟩)).trans (hwork _)
      exact (fileRead_refused hp).1 hsame.symm
    · rintro ⟨rfl, hend⟩ dev -
      have hrefused : (FdCall.read 0).run dev s 0 buf = .ok (-1, buf, s) := hrun dev
      rw [checked_iff hg, hrefused, hwork]
      refine ⟨Outcome.safe_ok _, fun hyes => ?_, fun _ => rfl⟩
      obtain ⟨hused, hflag⟩ := (hserves hzero).1 hyes
      obtain ⟨p, hp⟩ := Option.ne_none_iff_exists'.1 hused
      exact ((fileRead_refused hp).2 (hend hused hflag)).symm

theorem read_file (hfd : ¬ (fd < 0 ∨ fd = 1 ∨ fd = 2)) (hin : fd ≠ 0) (hg : IsFd s fd g)
    (hglobal : fdLocal2Global s fd = .ok g) (hpipe : isPipe s g = false) :
    DescriptorChecked s fd buf (.read count) ↔
      (s.fileTable g).fdInode ≠ none ∧
        (wantsRead (s.fileTable g).fdFlag = true ∧ (fileRead s g buf count).Safe
          ∨ AtEnd s g count) := by
  have hnot : ¬ isPipe s g = true := by
    rw [hpipe]
    exact Bool.false_ne_true
  have hrun : ∀ dev : Devices, (FdCall.read count).run dev s fd buf = fileRead s g buf count := by
    intro dev
    rw [read_run hfd hglobal, if_neg hnot, if_neg hin]
  have hserves : (FdCall.read count).Serves s fd g ↔
      (s.fileTable g).fdInode ≠ none ∧ wantsRead (s.fileTable g).fdFlag = true := by
    constructor
    · rintro ⟨-, hkbd | hused | ⟨hfile, hflag⟩⟩
      · exact absurd hkbd.1 hin
      · exact absurd hused.1 hnot
      · exact ⟨hfile.2, hflag⟩
    · rintro ⟨hused, hflag⟩
      have hone : fd ≠ 1 := fun h => hfd (.inr (.inl h))
      have htwo : fd ≠ 2 := fun h => hfd (.inr (.inr h))
      exact ⟨⟨hone, htwo⟩, .inr (.inr ⟨⟨hpipe, hused⟩, hflag⟩)⟩
  cases hinode : (s.fileTable g).fdInode with
  | none =>
      rw [hinode] at hserves
      have hno : ¬ (FdCall.read count).Serves s fd g := fun hyes => (hserves.1 hyes).1 rfl
      constructor
      · intro h
        exfalso
        apply not_checked_of_entry hg hno _ (h idleDevices idleDevices_keep)
        · exact .undefined
        · rw [hrun]
          unfold fileRead
          rw [hinode]
      · rintro ⟨hused, -⟩
        exact absurd rfl hused
  | some p =>
      rw [hinode] at hserves
      have hwork : ∀ dev : Devices,
          (FdCall.read count).operate dev s fd g buf = fileRead s g buf count := by
        intro dev
        rw [read_operate hpipe, if_neg (fun hand => hin hand.1)]
      constructor
      · intro h
        obtain ⟨hsafe, -, href⟩ := (checked_iff hg).1 (h idleDevices idleDevices_keep)
        rw [hrun] at hsafe href
        refine ⟨Option.some_ne_none p, ?_⟩
        by_cases hflag : wantsRead (s.fileTable g).fdFlag = true
        · exact .inl ⟨hflag, hsafe⟩
        · -- nothing stops a file opened O_WRONLY from being read
          right
          exact (fileRead_refused hinode).1 (href fun hyes => hflag (hserves.1 hyes).2)
      · rintro ⟨-, hgood⟩ dev -
        rw [checked_iff hg, hrun, hwork]
        refine ⟨?_, fun _ => rfl, fun hno => ?_⟩
        · rcases hgood with ⟨-, hsafe⟩ | hend
          · exact hsafe
          · rw [(fileRead_refused hinode).2 hend]
            exact Outcome.safe_ok _
        · rcases hgood with ⟨hflag, -⟩ | hend
          · exact absurd (hserves.2 ⟨Option.some_ne_none p, hflag⟩) hno
          · exact (fileRead_refused hinode).2 hend

theorem read_checked :
    DescriptorChecked s fd buf (.read count) ↔ (FdCall.read count).Sound s fd buf := by
  by_cases hfd : fd < 0 ∨ fd = 1 ∨ fd = 2
  · refine ⟨fun _ => .inl hfd, fun _ dev _ => checked_of_refused ?_ ?_⟩
    · rintro g ⟨⟨hnonneg, -⟩, -⟩ ⟨⟨hone, htwo⟩, -⟩
      omega
    · show sysRead dev.inp s fd buf count = _
      unfold sysRead
      rw [if_pos hfd]
  · show _ ↔ (fd < 0 ∨ fd = 1 ∨ fd = 2) ∨ _
    rw [or_iff_right hfd]
    apply descriptorChecked_iff_entry idleDevices_keep
    · intro dev e he
      show sysRead dev.inp s fd buf count = _
      unfold sysRead
      rw [if_neg hfd, he]
      rfl
    · intro g hg hglobal
      -- a pipe first, then stdin by its number, then the entry as a file
      unfold UsedPipe Keyboard UsedFile
      cases hpipe : isPipe s g with
      | true =>
          rw [read_pipe hfd hg hglobal hpipe]
          simp
      | false =>
          by_cases hin : fd = 0
          · subst hin
            rw [read_stdin hg hglobal hpipe]
            simp
          · rw [read_file hfd hin hg hglobal hpipe]
            simp [hin]

/-! ## All four calls -/

end Fs
end JackOS
