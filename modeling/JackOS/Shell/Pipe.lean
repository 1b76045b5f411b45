/-
  JackOS.Shell.Pipe

  `pipe_read` and `pipe_write` of shell/pipe.c on the io queue of a pipe.  A
  system call runs with interrupts off, so a thread goes on until it blocks in
  `ioq_getchar` or `ioq_putchar` or its call returns; the rest of a blocked
  call is kept for when its thread is scheduled again.

  `pipe_write` takes the free space to be `bufsize - ioq_length`, one byte more
  than a queue of `bufsize` cells takes.
-/

import JackOS.Device.IoQueueFifo

namespace JackOS
namespace Shell

open Base Device

/-! ## The calls -/

/-- What a thread is in the middle of: `size`, and `bytes_read` or
    `bytes_write`. -/
inductive PipeCall where
  | read (size bytesRead : Nat)
  | write (buf : Nat → UInt8) (size bytesWrite : Nat)

/-- The queue of a pipe, and the calls its threads are in. -/
structure Pipe (τ : Type) where
  ioq : IoQueue τ
  call : τ → PipeCall

variable {τ : Type} [DecidableEq τ]

/-- The loop of `pipe_read`, with `left` bytes to go: how many bytes were read
    when it ended or the thread blocked. -/
def readLoop (t : τ) : (left bytesRead : Nat) → IoQueue τ → Outcome (Nat × IoQueue τ)
  | 0, bytesRead, q => .ok (bytesRead, q)
  | left + 1, bytesRead, q => do
      let q ← ioqGetchar t q
      if (q.thread t).pc = .outside then readLoop t left (bytesRead + 1) q
      else .ok (bytesRead, q)

/-- The loop of `pipe_write`. -/
def writeLoop (t : τ) (buf : Nat → UInt8) :
    (left bytesWrite : Nat) → IoQueue τ → Outcome (Nat × IoQueue τ)
  | 0, bytesWrite, q => .ok (bytesWrite, q)
  | left + 1, bytesWrite, q => do
      let q ← ioqPutchar t (buf bytesWrite) q
      if (q.thread t).pc = .outside then writeLoop t buf left (bytesWrite + 1) q
      else .ok (bytesWrite, q)

/-- The call has come to `n` bytes: its result, or `none` when its thread has
    blocked. -/
def Pipe.after (p : Pipe τ) (t : τ) (call : Nat → PipeCall) :
    Nat × IoQueue τ → Option Nat × Pipe τ
  | (n, q) => (if (q.thread t).pc = .outside then some n else none,
      ⟨q, Function.update p.call t (call n)⟩)

/-- `pipe_read` -/
def pipeRead (t : τ) (count : Nat) (p : Pipe τ) : Outcome (Option Nat × Pipe τ) := do
  let ioqLen := ioqLength p.ioq.ioBuf
  let size := if count < ioqLen then count else ioqLen
  let r ← readLoop t size 0 p.ioq
  .ok (p.after t (.read size) r)

/-- `pipe_write` -/
def pipeWrite (t : τ) (buf : Nat → UInt8) (count : Nat) (p : Pipe τ) :
    Outcome (Option Nat × Pipe τ) := do
  let ioqLeft := bufsize - ioqLength p.ioq.ioBuf
  let size := if count < ioqLeft then count else ioqLeft
  let r ← writeLoop t buf size 0 p.ioq
  .ok (p.after t (.write buf size) r)

/-- A blocked thread is scheduled again and goes on with its call. -/
def Pipe.resume (t : τ) (p : Pipe τ) : Outcome (Option Nat × Pipe τ) := do
  let q ← Device.resume t p.ioq
  match p.call t with
  | .read size bytesRead =>
      if (q.thread t).pc = .outside then do
        let r ← readLoop t (size - (bytesRead + 1)) (bytesRead + 1) q
        .ok (p.after t (.read size) r)
      else .ok (p.after t (.read size) (bytesRead, q))
  | .write buf size bytesWrite =>
      if (q.thread t).pc = .outside then do
        let r ← writeLoop t buf (size - (bytesWrite + 1)) (bytesWrite + 1) q
        .ok (p.after t (.write buf size) r)
      else .ok (p.after t (.write buf size) (bytesWrite, q))

/-! ## Runs -/

/-- The steps of the threads of a pipe. -/
inductive PipeOp (τ : Type) where
  | read (t : τ) (count : Nat)
  | write (t : τ) (buf : Nat → UInt8) (count : Nat)
  | resume (t : τ)

/-- When a step can happen. -/
def PipeOp.Legal (p : Pipe τ) : PipeOp τ → Prop
  | .read t _ => Running p.ioq t
  | .write t _ _ => Running p.ioq t
  | .resume t => (p.ioq.thread t).pc ≠ .outside ∧ (p.ioq.thread t).blocked = false

/-- What the step does. -/
def PipeOp.run (p : Pipe τ) : PipeOp τ → Outcome (Option Nat × Pipe τ)
  | .read t count => pipeRead t count p
  | .write t buf count => pipeWrite t buf count p
  | .resume t => p.resume t

/-- A pipe from `sys_pipe` on. -/
def pipeSystem (τ : Type) [DecidableEq τ] : System (Pipe τ) (PipeOp τ) where
  init p := ∃ buf call, p = ⟨ioqueueInit buf, call⟩
  next p op p' := op.Legal p ∧ ∃ r, op.run p = .ok (r, p')

/-! ## Threads in between -/

/-- A thread of a pipe that is blocked is blocked in `ioq_putchar`. -/
def Writers (q : IoQueue τ) : Prop :=
  ∀ t, (q.thread t).pc = .outside
    ∨ ∃ byte, (q.thread t).pc = .putAcquire byte ∨ (q.thread t).pc = .putWait byte

/-- Thread `t` has gone on and runs; where the threads are is as before. -/
structure GoesOn (q q' : IoQueue τ) (t : τ) : Prop where
  running : Running q' t
  pc : ∀ u, (q'.thread u).pc = (q.thread u).pc

variable {q q' q'' : IoQueue τ} {t u : τ} {p p' : Pipe τ} {buf : Nat → UInt8} {n m left count : Nat}

omit [DecidableEq τ] in
theorem GoesOn.refl (ht : Running q t) : GoesOn q q t := ⟨ht, fun _ => rfl⟩

omit [DecidableEq τ] in
theorem GoesOn.trans (h : GoesOn q q' t) (h' : GoesOn q' q'' t) : GoesOn q q'' t :=
  ⟨h'.running, fun u => (h'.pc u).trans (h.pc u)⟩

omit [DecidableEq τ] in
theorem GoesOn.writers (h : GoesOn q q' t) (hw : Writers q) : Writers q' := by
  intro u
  rw [h.pc u]
  exact hw u

omit [DecidableEq τ] in
/-- Nobody waits for a byte. -/
theorem Writers.consumer (hw : Writers q) (h : IoqInv q) : q.waiter .consumer = none := by
  cases hside : q.waiter .consumer with
  | none => rfl
  | some u =>
      have hpc := (h.consumer u hside).1
      -- a consumer waits in `ioq_getchar`, where no thread of a pipe is
      rcases hw u with hu | ⟨byte, hu | hu⟩ <;> rw [hu] at hpc <;> cases hpc

/-- `ioq_wakeup` of a writer that waits for room, if there is one. -/
theorem ioqWakeup_returns (h : Waits q) (ht : Running q t) :
    ∃ q', ioqWakeup .producer q = .ok q' ∧ GoesOn q q' t := by
  cases hside : q.waiter .producer with
  | none =>
      refine ⟨q, ?_, .refl ht⟩
      rw [ioqWakeup, hside]
  | some w =>
      have hblocked := (h.producer w hside).2
      have hne : t ≠ w := by
        rintro rfl
        exact ht.not_waiter h .producer hside
      refine ⟨(q.setBlocked w false).setWaiter .producer none, ?_, ?_, fun u => ?_⟩
      · rw [ioqWakeup, hside]
        simp only [unblock, require_pos hblocked, Outcome.ok_bind]
      · rw [Running, setWaiter_thread, setBlocked_thread, if_neg hne]
        exact ht
      · rw [setWaiter_thread, setBlocked_thread]
        by_cases huw : u = w
        · rw [if_pos huw, huw]
        · rw [if_neg huw]

/-- `mutex_release` moves nobody. -/
theorem mutexRelease_pc (hcall : mutexRelease t q = .ok q') (u : τ) :
    (q'.thread u).pc = (q.thread u).pc := by
  obtain ⟨_, -, hcall⟩ := Outcome.bind_eq_ok.1 hcall
  split at hcall
  · cases hcall
    rfl
  · obtain ⟨_, -, hcall⟩ := Outcome.bind_eq_ok.1 hcall
    obtain ⟨_, -, hcall⟩ := Outcome.bind_eq_ok.1 hcall
    obtain ⟨q₁, hwake, hcall⟩ := Outcome.bind_eq_ok.1 hcall
    obtain ⟨_, -, hcall⟩ := Outcome.bind_eq_ok.1 hcall
    cases hcall
    rcases wakeFirst_cases hwake with ⟨-, rfl⟩ | ⟨w, ws, -, rfl⟩
    · rfl
    · rw [setBlocked_thread]
      by_cases huw : u = w
      · rw [if_pos huw, huw]
      · rw [if_neg huw]

/-! ## One byte -/

/-- `ioq_getchar` on a queue with a byte. -/
theorem getchar_spec (h : IoqInv q) (ht : Running q t) (hsome : 0 < ioqLength q.ioBuf) :
    ∃ q' byte, ioqGetchar t q = .ok q' ∧ IoqInv q' ∧ GoesOn q q' t
      ∧ q'.stored = q.stored ∧ q'.taken = q.taken ++ [byte] := by
  have hempty := h.notEmpty_iff.2 hsome
  let q₁ : IoQueue τ := { q with
    ioBuf := { q.ioBuf with tail := nextPos q.ioBuf.tail }
    taken := q.taken ++ [q.ioBuf.buf q.ioBuf.tail] }
  obtain ⟨q', hwake, hgo⟩ := ioqWakeup_returns (q := q₁) h.toWaits.congr ht
  have hcall : takeByte t q = .ok q' := by
    rw [← hwake]
    unfold takeByte
    dsimp only
    rw [setPc_of_pc (by exact ht.1)]
  obtain ⟨-, -, hstored, htaken⟩ := ioqWakeup_spec h.toWaits.congr hwake
  refine ⟨q', q.ioBuf.buf q.ioBuf.tail, ?_, (h.takeByte ht hcall).1 hempty,
    ⟨hgo.running, hgo.pc⟩, hstored, htaken⟩
  rw [ioqGetchar, if_neg (by rw [hempty]; exact Bool.false_ne_true)]
  exact hcall

/-- `ioq_putchar` on a queue with room. -/
theorem putchar_spec (h : IoqInv q) (hw : Writers q) (ht : Running q t)
    (hroom : ioqLength q.ioBuf < 63) (byte : UInt8) :
    ∃ q', ioqPutchar t byte q = .ok q' ∧ IoqInv q' ∧ GoesOn q q' t
      ∧ q'.stored = q.stored ++ [byte] ∧ q'.taken = q.taken := by
  have hfull := h.notFull_iff.2 hroom
  have hcall := storeByte_returns ht (hw.consumer h) byte
  refine ⟨_, ?_, h.storeByte ht hfull hcall, ⟨ht, fun _ => rfl⟩, rfl, rfl⟩
  rw [ioqPutchar, if_neg (by rw [hfull]; exact Bool.false_ne_true)]
  exact hcall

/-- Thread `t` has gone on until it blocked in `ioq_putchar` or left it; the
    others are where they were. -/
structure Writes (q q' : IoQueue τ) (t : τ) : Prop where
  others : ∀ u, u ≠ t → (q'.thread u).pc = (q.thread u).pc
  self : Running q' t
    ∨ ∃ byte, (q'.thread t).pc = .putAcquire byte ∨ (q'.thread t).pc = .putWait byte

omit [DecidableEq τ] in
theorem Writes.writers (h : Writes q q' t) (hw : Writers q) : Writers q' := by
  intro u
  by_cases hut : u = t
  · subst hut
    exact h.self.imp And.left id
  · rw [h.others u hut]
    exact hw u

omit [DecidableEq τ] in
theorem Writes.running (h : Writes q q' t) (hpc : (q'.thread t).pc = .outside) : Running q' t := by
  rcases h.self with hrun | ⟨byte, hb | hb⟩
  · exact hrun
  · rw [hpc] at hb
    cases hb
  · rw [hpc] at hb
    cases hb

omit [DecidableEq τ] in
theorem GoesOn.writes (h : GoesOn q q' t) : Writes q q' t :=
  ⟨fun u _ => h.pc u, .inl h.running⟩

omit [DecidableEq τ] in
theorem Writes.of_goesOn (h : GoesOn q q' t) (h' : Writes q' q'' t) : Writes q q'' t :=
  ⟨fun u hu => (h'.others u hu).trans (h.pc u), h'.self⟩

/-- Waiting for room: the thread is in the mutex or in `ioq_wait`. -/
theorem putAcquired_blocks {r : Bool × IoQueue τ} {byte : UInt8} (htake : mutexTake t q = .ok r)
    (hcall : putAcquired t byte r = .ok q') :
    Writes q q' t ∧ (q'.thread t).pc ≠ .outside := by
  rcases mutexTake_cases htake with ⟨-, -, rfl⟩ | ⟨-, rfl⟩
  · cases hcall
    refine ⟨⟨fun u hu => ?_, .inr ⟨byte, .inl ?_⟩⟩, ?_⟩
    · simp [hu]
    · simp
    · simp
  · obtain ⟨_, -, hcall⟩ := Outcome.bind_eq_ok.1 hcall
    cases hcall
    refine ⟨⟨fun u hu => ?_, .inr ⟨byte, .inr ?_⟩⟩, ?_⟩
    · simp [hu]
    · simp
    · simp

/-- `ioq_putchar` on a full queue blocks. -/
theorem putchar_full (h : IoqInv q) (ht : Running q t) (hfull : ioqLength q.ioBuf = 63)
    {byte : UInt8} (hcall : ioqPutchar t byte q = .ok q') :
    Writes q q' t ∧ (q'.thread t).pc ≠ .outside := by
  rw [ioqPutchar, if_pos (h.full_iff.2 hfull), h.mutexAcquire_eq ht] at hcall
  obtain ⟨r, htake, hcall⟩ := Outcome.bind_eq_ok.1 hcall
  exact putAcquired_blocks htake hcall

theorem putchar_writes (h : IoqInv q) (hw : Writers q) (ht : Running q t) {byte : UInt8}
    (hcall : ioqPutchar t byte q = .ok q') : Writes q q' t := by
  by_cases hroom : ioqLength q.ioBuf < 63
  · obtain ⟨q₁, hput, -, hgo, -⟩ := putchar_spec h hw ht hroom byte
    rw [hput] at hcall
    cases hcall
    exact hgo.writes
  · have hle := h.length_le
    exact (putchar_full h ht (by omega) hcall).1

/-! ## The loops -/

/-- The loop of `pipe_read` gets the bytes that are there. -/
theorem readLoop_returns (h : IoqInv q) (ht : Running q t) (hleft : left ≤ ioqLength q.ioBuf) :
    ∃ q' bytes, readLoop t left n q = .ok (n + left, q') ∧ IoqInv q' ∧ GoesOn q q' t
      ∧ bytes.length = left ∧ q'.stored = q.stored ∧ q'.taken = q.taken ++ bytes := by
  induction left generalizing n q with
  | zero => exact ⟨q, [], rfl, h, .refl ht, rfl, rfl, (List.append_nil _).symm⟩
  | succ left ih =>
      -- the byte is there, so the thread does not block
      obtain ⟨q₁, byte, hget, h₁, hgo₁, hstored₁, htaken₁⟩ := getchar_spec h ht (by omega)
      have hlen : left ≤ ioqLength q₁.ioBuf := by
        have := h.window.le
        rw [h.length_eq] at hleft
        rw [h₁.length_eq, hstored₁, htaken₁, List.length_append, List.length_singleton]
        omega
      obtain ⟨q', bytes, hloop, h', hgo', hbytes, hstored, htaken⟩ := ih (n := n + 1) h₁ hgo₁.running hlen
      refine ⟨q', byte :: bytes, ?_, h', hgo₁.trans hgo', congrArg (· + 1) hbytes,
        hstored.trans hstored₁, ?_⟩
      · rw [readLoop, hget, Outcome.ok_bind, if_pos hgo₁.running.1, hloop, Nat.add_right_comm,
          Nat.add_assoc]
      · rw [htaken, htaken₁, List.append_assoc]
        rfl

variable (buf) in
/-- The loop of `pipe_write` while there is room for its bytes. -/
theorem writeLoop_returns (h : IoqInv q) (hw : Writers q) (ht : Running q t)
    (hroom : ioqLength q.ioBuf + left ≤ 63) :
    ∃ q', writeLoop t buf left n q = .ok (n + left, q') ∧ IoqInv q' ∧ GoesOn q q' t
      ∧ q'.stored = q.stored ++ (List.range left).map (fun i => buf (n + i))
      ∧ q'.taken = q.taken := by
  induction left generalizing n q with
  | zero => exact ⟨q, rfl, h, .refl ht, (List.append_nil _).symm, rfl⟩
  | succ left ih =>
      obtain ⟨q₁, hput, h₁, hgo₁, hstored₁, htaken₁⟩ := putchar_spec h hw ht (by omega) (buf n)
      have hlen : ioqLength q₁.ioBuf + left ≤ 63 := by
        have := h.window.le
        rw [h.length_eq] at hroom
        rw [h₁.length_eq, hstored₁, htaken₁, List.length_append, List.length_singleton]
        omega
      obtain ⟨q', hloop, h', hgo', hstored, htaken⟩ := ih (n := n + 1) h₁ (hgo₁.writers hw) hgo₁.running hlen
      refine ⟨q', ?_, h', hgo₁.trans hgo', ?_, htaken.trans htaken₁⟩
      · rw [writeLoop, hput, Outcome.ok_bind, if_pos hgo₁.running.1, hloop, Nat.add_right_comm,
          Nat.add_assoc]
      · rw [hstored, hstored₁, List.append_assoc, List.range_succ_eq_map, List.map_cons, List.map_map]
        have hshift : ∀ i, n + 1 + i = n + (i + 1) := by omega
        simp [Function.comp_def, hshift]

/-- Whatever the loop of `pipe_write` comes to, the invariant holds; without
    room for its bytes it does not come to its end. -/
theorem writeLoop_spec (h : IoqInv q) (hw : Writers q) (ht : Running q t)
    (hcall : writeLoop t buf left n q = .ok (m, q')) :
    IoqInv q' ∧ Writes q q' t
      ∧ (63 < ioqLength q.ioBuf + left → (q'.thread t).pc ≠ .outside) := by
  induction left generalizing n q with
  | zero =>
      cases hcall
      refine ⟨h, (GoesOn.refl ht).writes, fun hlt => ?_⟩
      have := h.length_le
      omega
  | succ left ih =>
      obtain ⟨q₁, hput, hcall⟩ := Outcome.bind_eq_ok.1 hcall
      have h₁ := h.ioqPutchar ht hput
      have hwrites₁ := putchar_writes h hw ht hput
      by_cases hroom : ioqLength q.ioBuf < 63
      · obtain ⟨q₂, hput', -, hgo₁, hstored₁, htaken₁⟩ := putchar_spec h hw ht hroom (buf n)
        rw [hput'] at hput
        cases hput
        rw [if_pos hgo₁.running.1] at hcall
        obtain ⟨h', hwrites', hblocks⟩ := ih h₁ (hgo₁.writers hw) hgo₁.running hcall
        refine ⟨h', .of_goesOn hgo₁ hwrites', fun hlt => hblocks ?_⟩
        have := h.window.le
        rw [h.length_eq] at hlt
        rw [h₁.length_eq, hstored₁, htaken₁, List.length_append, List.length_singleton]
        omega
      · have hle := h.length_le
        have hblocked := (putchar_full h ht (by omega) hput).2
        rw [if_neg hblocked] at hcall
        cases hcall
        exact ⟨h₁, hwrites₁, fun _ => hblocked⟩

/-! ## The calls keep the invariant -/

/-- The invariant: no thread waits for a byte, and the blocked ones are in
    `pipe_write`. -/
structure PipeInv (p : Pipe τ) : Prop where
  ioq : IoqInv p.ioq
  writers : Writers p.ioq
  writing : ∀ t, (p.ioq.thread t).pc ≠ .outside →
    ∃ buf size bytesWrite, p.call t = .write buf size bytesWrite

theorem PipeInv.after {call : Nat → PipeCall} (h : PipeInv p) (hq : IoqInv q')
    (hwrites : Writes p.ioq q' t)
    (hcall : (q'.thread t).pc ≠ .outside → ∃ buf size m, call n = .write buf size m) :
    PipeInv (p.after t call (n, q')).2 := by
  refine ⟨hq, hwrites.writers h.writers, fun u hu => ?_⟩
  show ∃ buf size m, Function.update p.call t (call n) u = .write buf size m
  by_cases hut : u = t
  · subst hut
    rw [Function.update_self]
    exact hcall hu
  · rw [Function.update_of_ne hut]
    apply h.writing u
    rw [← hwrites.others u hut]
    exact hu

omit [DecidableEq τ] in
/-- The bytes that were read are no longer in the queue. -/
theorem contents_read (h : IoqInv q) (h' : IoqInv q') {bytes : List UInt8}
    (hstored : q'.stored = q.stored) (htaken : q'.taken = q.taken ++ bytes) :
    q.ioBuf.contents = bytes ++ q'.ioBuf.contents := by
  have hnew := h'.stored_eq
  rw [hstored, htaken, h.stored_eq, List.append_assoc] at hnew
  exact List.append_cancel_left hnew

omit [DecidableEq τ] in
theorem contents_written (h : IoqInv q) (h' : IoqInv q') {bytes : List UInt8}
    (hstored : q'.stored = q.stored ++ bytes) (htaken : q'.taken = q.taken) :
    q'.ioBuf.contents = q.ioBuf.contents ++ bytes := by
  have hnew := h'.stored_eq
  rw [hstored, htaken, h.stored_eq, List.append_assoc] at hnew
  exact (List.append_cancel_left hnew).symm

/-- `pipe_read` returns, and takes as many bytes off the queue as it says. -/
def ReadOk (p : Pipe τ) (t : τ) (count : Nat) : Prop :=
  ∃ bytes p', pipeRead t count p = .ok (some bytes.length, p') ∧ bytes.length ≤ count
    ∧ p.ioq.ioBuf.contents = bytes ++ p'.ioq.ioBuf.contents
    ∧ p'.ioq.taken = p.ioq.taken ++ bytes

/-- `pipe_write` returns, and adds as many bytes of `buf` to the queue as it
    says. -/
def WriteOk (p : Pipe τ) (t : τ) (buf : Nat → UInt8) (count : Nat) : Prop :=
  ∃ r p', pipeWrite t buf count p = .ok (some r, p') ∧ r ≤ count
    ∧ p'.ioq.ioBuf.contents = p.ioq.ioBuf.contents ++ (List.range r).map buf

theorem PipeInv.read (h : PipeInv p) (ht : Running p.ioq t) (count : Nat) :
    ReadOk p t count ∧ ∀ r p', pipeRead t count p = .ok (r, p') → PipeInv p' := by
  let size := if count < ioqLength p.ioq.ioBuf then count else ioqLength p.ioq.ioBuf
  have hsize : size ≤ ioqLength p.ioq.ioBuf ∧ size ≤ count := by
    simp only [size]
    split <;> omega
  obtain ⟨q', bytes, hloop, h', hgo, hbytes, hstored, htaken⟩ :=
    readLoop_returns (n := 0) h.ioq ht hsize.1
  rw [Nat.zero_add] at hloop
  have hcall : pipeRead t count p
      = .ok (some bytes.length, (p.after t (.read size) (size, q')).2) := by
    show (readLoop t size 0 p.ioq >>= fun r => .ok (p.after t (.read size) r)) = _
    rw [hloop, Outcome.ok_bind, Pipe.after, if_pos hgo.running.1, hbytes]
  refine ⟨⟨bytes, _, hcall, ?_, contents_read h.ioq h' hstored htaken, htaken⟩, fun r p' hp' => ?_⟩
  · exact hbytes ▸ hsize.2
  · rw [hcall] at hp'
    cases hp'
    exact h.after h' hgo.writes fun hpc => absurd hgo.running.1 hpc

/-- `pipe_write` does what it says exactly when the queue does not fill up on
    the way. -/
theorem PipeInv.write (h : PipeInv p) (ht : Running p.ioq t) (buf : Nat → UInt8) (count : Nat) :
    (WriteOk p t buf count ↔ ioqLength p.ioq.ioBuf + count ≤ 63)
      ∧ ∀ r p', pipeWrite t buf count p = .ok (r, p') → PipeInv p' := by
  have hle := h.ioq.length_le
  refine ⟨⟨?_, fun hroom => ?_⟩, fun r p' hp' => ?_⟩
  · rintro ⟨r, p', hcall, -, -⟩
    by_contra hlt
    obtain ⟨⟨n, q'⟩, hloop, hcall⟩ := Outcome.bind_eq_ok.1 hcall
    have hsize : 63 < ioqLength p.ioq.ioBuf + (if count < bufsize - ioqLength p.ioq.ioBuf then count
        else bufsize - ioqLength p.ioq.ioBuf) := by
      unfold bufsize
      split <;> omega
    -- the queue is full before the last byte: the loop blocks, and the call has no result
    have hpc := (writeLoop_spec h.ioq h.writers ht hloop).2.2 hsize
    rw [Pipe.after, if_neg hpc] at hcall
    cases hcall
  · have hsize : (if count < bufsize - ioqLength p.ioq.ioBuf then count
        else bufsize - ioqLength p.ioq.ioBuf) = count := by
      unfold bufsize
      split <;> omega
    obtain ⟨q', hloop, h', hgo, hstored, htaken⟩ :=
      writeLoop_returns buf (n := 0) h.ioq h.writers ht hroom
    refine ⟨count, (p.after t (.write buf count) (count, q')).2, ?_, Nat.le_refl _, ?_⟩
    · rw [pipeWrite, hsize, hloop, Outcome.ok_bind, Pipe.after, if_pos hgo.running.1, Nat.zero_add]
      rfl
    · simp only [Nat.zero_add] at hstored
      exact contents_written h.ioq h' hstored htaken
  · obtain ⟨⟨n, q'⟩, hloop, hcall⟩ := Outcome.bind_eq_ok.1 hp'
    obtain ⟨h', hwrites, -⟩ := writeLoop_spec h.ioq h.writers ht hloop
    cases hcall
    exact h.after h' hwrites fun _ => ⟨buf, _, n, rfl⟩

/-- A writer that is scheduled again. -/
theorem resume_writes (h : IoqInv q) (hw : Writers q) (hpc : (q.thread t).pc ≠ .outside)
    (hrun : (q.thread t).blocked = false) (hcall : Device.resume t q = .ok q') :
    IoqInv q' ∧ Writes q q' t := by
  have hfinds : FindsByte q (.resume t) := by
    intro hget
    rcases hw t with hb | ⟨byte, hb | hb⟩ <;> rw [hget] at hb <;> cases hb
  have hlegal : IoqOp.Legal q (.resume t) := ⟨hpc, hrun⟩
  refine ⟨(h.step hlegal hcall).1 hfinds, ?_⟩
  have hothers : ∀ u, u ≠ t → ((q.setPc t .outside).thread u).pc = (q.thread u).pc := by
    intro u hu
    rw [setPc_thread, if_neg hu]
  unfold Device.resume at hcall
  rcases hw t with hb | ⟨byte, hb | hb⟩
  · exact absurd hb hpc
  · -- it tries to get the mutex once more
    rw [hb] at hcall
    obtain ⟨r, htake, hcall⟩ := Outcome.bind_eq_ok.1 hcall
    have hwrites := (putAcquired_blocks htake hcall).1
    exact ⟨fun u hu => (hwrites.others u hu).trans (hothers u hu), hwrites.self⟩
  · -- it gives up the mutex and tests the queue again
    rw [hb] at hcall
    obtain ⟨q₁, hrel, hcall⟩ := Outcome.bind_eq_ok.1 hcall
    obtain ⟨h₁, ht, -, -, -⟩ := h.mutexRelease (.inr ⟨byte, hb⟩) hrun hrel
    have hpc₁ : ∀ u, u ≠ t → (q₁.thread u).pc = (q.thread u).pc := fun u hu =>
      (mutexRelease_pc hrel u).trans (hothers u hu)
    have hw₁ : Writers q₁ := by
      intro u
      by_cases hut : u = t
      · subst hut
        exact .inl ht.1
      · rw [hpc₁ u hut]
        exact hw u
    have hwrites := putchar_writes h₁ hw₁ ht hcall
    exact ⟨fun u hu => (hwrites.others u hu).trans (hpc₁ u hu), hwrites.self⟩

theorem PipeInv.resume (h : PipeInv p) (hpc : (p.ioq.thread t).pc ≠ .outside)
    (hrun : (p.ioq.thread t).blocked = false) {r : Option Nat} (hcall : p.resume t = .ok (r, p')) :
    PipeInv p' := by
  obtain ⟨q, hq, hcall⟩ := Outcome.bind_eq_ok.1 hcall
  obtain ⟨hinv, hwrites⟩ := resume_writes h.ioq h.writers hpc hrun hq
  obtain ⟨buf, size, m, hjob⟩ := h.writing t hpc
  rw [hjob] at hcall
  dsimp only at hcall
  by_cases hout : (q.thread t).pc = .outside
  · -- the byte is stored, and the loop goes on
    rw [if_pos hout] at hcall
    obtain ⟨⟨n, q'⟩, hloop, hcall⟩ := Outcome.bind_eq_ok.1 hcall
    obtain ⟨h', hwrites', -⟩ :=
      writeLoop_spec hinv (hwrites.writers h.writers) (hwrites.running hout) hloop
    cases hcall
    have hboth : Writes p.ioq q' t :=
      ⟨fun u hu => (hwrites'.others u hu).trans (hwrites.others u hu), hwrites'.self⟩
    exact h.after h' hboth fun _ => ⟨buf, size, n, rfl⟩
  · rw [if_neg hout] at hcall
    cases hcall
    exact h.after hinv hwrites fun _ => ⟨buf, size, m, rfl⟩

/-! ## Runs -/

theorem pipeInv_of_reachable (h : (pipeSystem τ).Reachable p) : PipeInv p := by
  apply h.invariant
  · rintro p ⟨buf, call, rfl⟩
    exact ⟨ioqInv_ioqueueInit buf, fun _ => .inl rfl, fun _ hpc => absurd rfl hpc⟩
  · rintro p op p' hinv ⟨hlegal, r, hcall⟩
    cases op with
    | read t count => exact (hinv.read hlegal count).2 r p' hcall
    | write t buf count => exact (hinv.write hlegal buf count).2 r p' hcall
    | resume t => exact hinv.resume hlegal.1 hlegal.2 hcall

/-- In every reachable state `pipe_write` does what it says exactly when its
    bytes leave the unused cell free, and `pipe_read` always does. -/
theorem pipeWrite_ok_iff (h : (pipeSystem τ).Reachable p) (ht : Running p.ioq t)
    (buf : Nat → UInt8) (count : Nat) :
    (WriteOk p t buf count ↔ ioqLength p.ioq.ioBuf + count ≤ 63) ∧ ReadOk p t count := by
  have hinv := pipeInv_of_reachable h
  exact ⟨(hinv.write ht buf count).1, (hinv.read ht count).1⟩

/-- A new pipe. -/
def newPipe : Pipe Nat := ⟨ioqueueInit fun _ => 0, fun _ => .read 0 0⟩

theorem newPipe_reachable : (pipeSystem Nat).Reachable newPipe :=
  System.reachable_init ⟨_, _, rfl⟩

theorem pipeWrite_ok_iff_newPipe : WriteOk newPipe 0 (fun _ => 65) 63 :=
  (pipeWrite_ok_iff newPipe_reachable ⟨rfl, rfl⟩ _ 63).1.2 (by decide)

/-- Of 64 bytes written to an empty pipe the last one blocks the writer. -/
theorem pipeWrite_blocks : ¬ ∀ (p : Pipe Nat) t buf count, (pipeSystem Nat).Reachable p →
    Running p.ioq t → WriteOk p t buf count := by
  intro hall
  obtain ⟨r, p', hcall, -⟩ := hall newPipe 0 (fun _ => 65) 64 newPipe_reachable ⟨rfl, rfl⟩
  have hblocked : (pipeWrite 0 (fun _ => 65) 64 newPipe).returns (fun r => r.1.isNone) = true := by
    decide +kernel
  rw [hcall] at hblocked
  cases hblocked

end Shell
end JackOS
