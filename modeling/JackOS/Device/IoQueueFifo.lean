/-
  JackOS.Device.IoQueueFifo

  The ring buffer as a queue of at most 63 bytes.  `contents` reads the queue
  off `buf`, `head` and `tail`; while nobody calls `ioq_putchar` on a full
  buffer or `ioq_getchar` on an empty one, no thread waits, and the calls are
  those of a bounded FIFO.
-/

import JackOS.Device.IoQueueRun

namespace JackOS
namespace Device

open Base

variable {τ : Type} {q q' : IoQueue τ} {t : τ} {byte : UInt8}

/-! ## What the buffer holds -/

/-- The bytes from `tail` up to `head`, around the end of the buffer. -/
def IoBuf.contents (ioq : IoBuf) : List UInt8 :=
  (List.range (ioqLength ioq)).map fun i => ioq.buf ((ioq.tail + i) % bufsize)

@[simp] theorem IoBuf.length_contents (ioq : IoBuf) : ioq.contents.length = ioqLength ioq := by
  rw [IoBuf.contents, List.length_map, List.length_range]

theorem Delivered.length_le (h : Delivered q) : ioqLength q.ioBuf ≤ 63 := by
  have hfits := h.window.fits
  rw [h.length_eq]
  unfold bufsize at hfits
  omega

theorem Delivered.full_iff (h : Delivered q) :
    ioqFull q.ioBuf = true ↔ ioqLength q.ioBuf = 63 := by
  have hle := h.window.le
  have hfits := h.window.fits
  rw [ioqFull, beq_iff_eq, nextPos, h.length_eq, h.head, h.tail]
  unfold bufsize at *
  omega

theorem Delivered.notFull_iff (h : Delivered q) :
    ioqFull q.ioBuf = false ↔ ioqLength q.ioBuf < 63 := by
  have hle := h.length_le
  rw [← Bool.not_eq_true, h.full_iff]
  omega

theorem Delivered.notEmpty_iff (h : Delivered q) :
    ioqEmpty q.ioBuf = false ↔ 0 < ioqLength q.ioBuf := by
  have hle := h.window.le
  rw [← Bool.not_eq_true, h.empty_iff, h.length_eq]
  omega

/-- The buffer holds the bytes stored and not yet taken, in order. -/
theorem Delivered.contents_eq (h : Delivered q) :
    q.ioBuf.contents = q.stored.drop q.taken.length := by
  apply List.ext_getElem
  · rw [IoBuf.length_contents, List.length_drop, h.length_eq]
  · intro i hi hi'
    rw [List.length_drop] at hi'
    have hcell := h.window.cell (q.taken.length + i) (by omega) (Nat.le_add_right _ _)
    rw [List.getElem_drop, ← hcell]
    simp only [IoBuf.contents, List.getElem_map, List.getElem_range]
    rw [h.tail, Nat.mod_add_mod]

theorem Delivered.stored_eq (h : Delivered q) : q.stored = q.taken ++ q.ioBuf.contents := by
  obtain ⟨rest, hrest⟩ := h.taken
  rw [h.contents_eq, ← hrest, List.drop_left]

/-! ## Calls that find what they look for -/

variable [DecidableEq τ]

/-- Nobody waits for a byte or for room. -/
def NoWaiter (q : IoQueue τ) : Prop := ∀ side, q.waiter side = none

/-- `ioq_putchar` returns when there is room. -/
theorem storeByte_returns (ht : Running q t) (hw : q.waiter .consumer = none) (byte : UInt8) :
    storeByte t byte q = .ok { q with
      ioBuf := { q.ioBuf with
        buf := Function.update q.ioBuf.buf q.ioBuf.head byte
        head := nextPos q.ioBuf.head }
      stored := q.stored ++ [byte] } := by
  unfold storeByte ioqWakeup
  dsimp only
  rw [setPc_of_pc (by exact ht.1), hw]

theorem takeByte_returns (ht : Running q t) (hw : q.waiter .producer = none) :
    takeByte t q = .ok { q with
      ioBuf := { q.ioBuf with tail := nextPos q.ioBuf.tail }
      taken := q.taken ++ [q.ioBuf.buf q.ioBuf.tail] } := by
  unfold takeByte ioqWakeup
  dsimp only
  rw [setPc_of_pc (by exact ht.1), hw]

/-- `ioq_putchar` made while `ioq_full` is false, and `ioq_getchar` made while
    `ioq_empty` is false. -/
def Guarded (q : IoQueue τ) : IoqOp τ → Prop
  | .putchar _ _ => ioqFull q.ioBuf = false
  | .getchar _ => ioqEmpty q.ioBuf = false
  | .resume _ => False

instance (q : IoQueue τ) : (op : IoqOp τ) → Decidable (Guarded q op)
  | .putchar _ _ => inferInstanceAs (Decidable (ioqFull q.ioBuf = false))
  | .getchar _ => inferInstanceAs (Decidable (ioqEmpty q.ioBuf = false))
  | .resume _ => instDecidableFalse

/-- What holds between such calls. -/
structure Flowing (q : IoQueue τ) : Prop extends Delivered q where
  waiter : NoWaiter q
  running : ∀ t, Running q t

/-- A step of the abstract queue. -/
def FifoStep (xs xs' : List UInt8) (taken taken' : List UInt8) : IoqOp τ → Prop
  | .putchar _ byte => xs' = xs ++ [byte] ∧ taken' = taken
  | .getchar _ => ∃ byte, xs = byte :: xs' ∧ taken' = taken ++ [byte]
  | .resume _ => False

/-- Such a call returns, and does what it does to the abstract queue. -/
theorem Flowing.step {op : IoqOp τ} (h : Flowing q) (hop : Guarded q op) :
    ∃ q', op.run q = .ok q' ∧ Flowing q'
      ∧ FifoStep q.ioBuf.contents q'.ioBuf.contents q.taken q'.taken op := by
  cases op with
  | putchar t byte =>
      have hroom : ioqFull q.ioBuf = false := hop
      have hput := h.toDelivered.put hroom byte
      refine ⟨_, ?_, ⟨hput, h.waiter, h.running⟩, ?_, rfl⟩
      · show ioqPutchar t byte q = _
        rw [ioqPutchar, if_neg (by rw [hroom]; exact Bool.false_ne_true)]
        exact storeByte_returns (h.running t) (h.waiter .consumer) byte
      · have hle := h.window.le
        rw [hput.contents_eq, h.contents_eq]
        exact List.drop_append_of_le_length hle
  | getchar t =>
      have hsome : ioqEmpty q.ioBuf = false := hop
      have hlt : q.taken.length < q.stored.length := by
        have hpos := h.notEmpty_iff.1 hsome
        rw [h.length_eq] at hpos
        omega
      have htake := h.toDelivered.take hlt
      refine ⟨_, ?_, ⟨htake, h.waiter, h.running⟩, q.ioBuf.buf q.ioBuf.tail, ?_, rfl⟩
      · show ioqGetchar t q = _
        rw [ioqGetchar, if_neg (by rw [hsome]; exact Bool.false_ne_true)]
        exact takeByte_returns (h.running t) (h.waiter .producer)
      · -- both sides are what is stored behind the bytes taken
        have hold := h.stored_eq
        have hnew := htake.stored_eq
        dsimp only at hnew
        rw [hold, List.append_assoc] at hnew
        exact List.append_cancel_left hnew
  | resume t => exact hop.elim

/-! ## Runs -/

/-- What the three tests of the source say about a bounded queue. -/
structure IsFifo (q : IoQueue τ) : Prop where
  order : q.stored = q.taken ++ q.ioBuf.contents
  head : q.ioBuf.head < bufsize
  tail : q.ioBuf.tail < bufsize
  length : ioqLength q.ioBuf + q.taken.length = q.stored.length
  empty : ioqEmpty q.ioBuf = true ↔ ioqLength q.ioBuf = 0
  full : ioqFull q.ioBuf = true ↔ ioqLength q.ioBuf = 63

omit [DecidableEq τ] in
theorem Delivered.isFifo (h : Delivered q) : IsFifo q := by
  have hle := h.window.le
  have hmod : ∀ n, n % bufsize < bufsize := fun n => Nat.mod_lt n (by decide)
  refine ⟨h.stored_eq, h.head ▸ hmod _, h.tail ▸ hmod _, ?_, ?_, h.full_iff⟩
  · rw [h.length_eq]
    omega
  · rw [h.empty_iff, h.length_eq]
    omega

omit [DecidableEq τ] in
theorem flowing_ioqueueInit (buf : Nat → UInt8) : Flowing (ioqueueInit buf : IoQueue τ) :=
  ⟨(ioqInv_ioqueueInit buf).toDelivered, fun _ => rfl, fun _ => ⟨rfl, rfl⟩⟩

theorem flowing_of_guarded (h : ((ioqSystem τ).restrict Guarded).Reachable q) : Flowing q := by
  apply h.invariant
  · rintro q ⟨buf, rfl⟩
    exact flowing_ioqueueInit buf
  · rintro q op q' hflow ⟨hop, -, hcall⟩
    obtain ⟨q₁, hrun, hflow₁, -⟩ := hflow.step hop
    rw [hrun] at hcall
    cases hcall
    exact hflow₁

/-- In every run of such calls the buffer is a FIFO, and each further call
    returns and acts on it as on the abstract queue. -/
theorem fifo_of_guarded (h : ((ioqSystem τ).restrict Guarded).Reachable q) :
    IsFifo q ∧ ∀ op, Guarded q op → ∃ q', op.run q = .ok q' ∧ IsFifo q'
      ∧ FifoStep q.ioBuf.contents q'.ioBuf.contents q.taken q'.taken op := by
  have hflow := flowing_of_guarded h
  refine ⟨hflow.isFifo, fun op hop => ?_⟩
  obtain ⟨q', hrun, hflow', hstep⟩ := hflow.step hop
  exact ⟨q', hrun, hflow'.isFifo, hstep⟩

/-- Two bytes are put and the first is got. -/
theorem fifo_of_guarded_two : ∃ q : IoQueue Nat, q.taken = [65] ∧ q.stored = [65, 66] ∧ IsFifo q := by
  have hend : (System.runSteps (fun q op => Guarded q op ∧ op.Legal q) IoqOp.run
      [.putchar 0 65, .putchar 0 66, .getchar 1] (ioqueueInit (fun _ => 0))).returns
        (fun q => decide (q.taken = [65] ∧ q.stored = [65, 66])) = true := by
    decide
  obtain ⟨q, hrun, hq⟩ := Outcome.returns_iff.1 hend
  obtain ⟨htaken, hstored⟩ := of_decide_eq_true hq
  have hreach : ((ioqSystem Nat).restrict Guarded).Reachable q := by
    refine System.Reachable.runSteps ?_ (System.reachable_init ⟨_, rfl⟩) hrun
    exact fun _ _ _ hlegal hstep => ⟨hlegal.1, hlegal.2, hstep⟩
  exact ⟨q, htaken, hstored, (fifo_of_guarded hreach).1⟩

end Device
end JackOS
