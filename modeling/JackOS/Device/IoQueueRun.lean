/-
  JackOS.Device.IoQueueRun

  What the io queue delivers.  The buffer is a window on the stored bytes, and
  the mutex keeps all but one thread out of `ioq_wait`.  `ioq_getchar` does not
  look at the queue again after `ioq_wait`, so what matters is whether a reader
  that was woken still finds a byte: it does unless another reader came in
  between and took the last one.
-/

import JackOS.Device.IoQueue

namespace JackOS
namespace Device

open Base

variable {τ : Type} [DecidableEq τ] {q q' : IoQueue τ} {t u : τ} {byte : UInt8}

/-! ## The invariant -/

/-- The thread is in `ioq_wait`, blocked or woken. -/
def InWait (q : IoQueue τ) (t : τ) : Prop :=
  (q.thread t).pc = .getWait ∨ ∃ byte, (q.thread t).pc = .putWait byte

/-- The thread is in `sema_down` of the mutex. -/
def InAcquire (q : IoQueue τ) (t : τ) : Prop :=
  (q.thread t).pc = .getAcquire ∨ ∃ byte, (q.thread t).pc = .putAcquire byte

/-- The bytes taken are the first ones stored, and the buffer holds the
    others. -/
structure Delivered (q : IoQueue τ) : Prop where
  taken : q.taken <+: q.stored
  window : Window bufsize q.ioBuf.buf q.stored q.taken.length
  head : q.ioBuf.head = q.stored.length % bufsize
  tail : q.ioBuf.tail = q.taken.length % bufsize

/-- The mutex and the two fields say who waits. -/
structure Waits (q : IoQueue τ) : Prop where
  holder : ∀ t, q.holder = some t ↔ InWait q t
  locked : ∀ t, InWait q t → q.value = 0
  nr : q.holderRepeatNr ≤ 1
  nodup : q.waiters.Nodup
  queued : ∀ t ∈ q.waiters, (q.thread t).blocked = true ∧ InAcquire q t
  consumer : ∀ t, q.waiter .consumer = some t →
    (q.thread t).pc = .getWait ∧ (q.thread t).blocked = true
  producer : ∀ t, q.waiter .producer = some t →
    (∃ byte, (q.thread t).pc = .putWait byte) ∧ (q.thread t).blocked = true

/-- The invariant. -/
structure IoqInv (q : IoQueue τ) : Prop extends Delivered q, Waits q

omit [DecidableEq τ] in
theorem Delivered.empty_iff (h : Delivered q) :
    ioqEmpty q.ioBuf = true ↔ q.stored.length = q.taken.length := by
  rw [ioqEmpty, beq_iff_eq, h.head, h.tail, h.window.mod_eq_iff]

omit [DecidableEq τ] in
theorem Delivered.length_eq (h : Delivered q) :
    ioqLength q.ioBuf = q.stored.length - q.taken.length := by
  have hle := h.window.le
  have hfits := h.window.fits
  rw [ioqLength, h.head, h.tail]
  unfold bufsize at *
  split <;> omega

omit [DecidableEq τ] in
theorem Delivered.room (h : Delivered q) (hfull : ioqFull q.ioBuf = false) :
    q.stored.length + 1 < q.taken.length + bufsize := by
  have hle := h.window.le
  have hfits := h.window.fits
  rw [ioqFull, beq_eq_false_iff_ne, nextPos, h.head, h.tail] at hfull
  unfold bufsize at *
  omega

omit [DecidableEq τ] in
/-- `Waits` does not look at the buffer. -/
theorem Waits.congr {ioBuf : IoBuf} {stored taken : List UInt8} (h : Waits q) :
    Waits { q with ioBuf := ioBuf, stored := stored, taken := taken } :=
  ⟨h.holder, h.locked, h.nr, h.nodup, h.queued, h.consumer, h.producer⟩

/-! ## Threads that change -/

@[simp] theorem setPc_thread (q : IoQueue τ) (t u : τ) (pc : IoqPc) :
    (q.setPc t pc).thread u
      = if u = t then { q.thread t with pc := pc } else q.thread u :=
  Function.update_apply ..

@[simp] theorem setBlocked_thread (q : IoQueue τ) (t u : τ) (b : Bool) :
    (q.setBlocked t b).thread u
      = if u = t then { q.thread t with blocked := b } else q.thread u :=
  Function.update_apply ..

omit [DecidableEq τ] in
@[simp] theorem setWaiter_thread (q : IoQueue τ) (side : Side) (o : Option τ) :
    (q.setWaiter side o).thread = q.thread := rfl

omit [DecidableEq τ] in
@[simp] theorem setWaiter_waiter (q : IoQueue τ) (side side' : Side) (o : Option τ) :
    (q.setWaiter side o).waiter side' = if side' = side then o else q.waiter side' :=
  Function.update_apply ..

/-- A thread that goes on counts as outside. -/
theorem setPc_outside_thread (hrun : (q.thread t).blocked = false) (u : τ) :
    (q.setPc t .outside).thread u = if u = t then ⟨.outside, false⟩ else q.thread u := by
  rw [setPc_thread, ← hrun]

/-- A running thread: it counts as outside and is not blocked. -/
def Running (q : IoQueue τ) (t : τ) : Prop :=
  (q.thread t).pc = .outside ∧ (q.thread t).blocked = false

omit [DecidableEq τ] in
theorem Running.not_inWait (h : Running q t) : ¬ InWait q t := by
  simp [InWait, h.1]

omit [DecidableEq τ] in
theorem Running.not_queued (h : Running q t) (hw : Waits q) : t ∉ q.waiters := by
  intro hmem
  have := (hw.queued t hmem).1
  rw [h.2] at this
  cases this

omit [DecidableEq τ] in
theorem Running.not_waiter (h : Running q t) (hw : Waits q) (side : Side) :
    q.waiter side ≠ some t := by
  intro hside
  cases side with
  | producer =>
      have := (hw.producer t hside).2
      rw [h.2] at this
      cases this
  | consumer =>
      have := (hw.consumer t hside).2
      rw [h.2] at this
      cases this

/-! ## The mutex -/

theorem mutexTake_cases {r : Bool × IoQueue τ} (hcall : mutexTake t q = .ok r) :
    (q.value = 0 ∧ t ∉ q.waiters
        ∧ r = (false, { q with waiters := q.waiters ++ [t] }.setBlocked t true))
      ∨ q.value = 1
        ∧ r = (true, { q with value := 0, holder := some t, holderRepeatNr := 1 }) := by
  obtain ⟨⟨got, q₁⟩, hdown, hcall⟩ := Outcome.bind_eq_ok.1 hcall
  unfold semaDown at hdown
  split at hdown
  · rename_i hv
    obtain ⟨_, hreq, hdown⟩ := Outcome.bind_eq_ok.1 hdown
    rw [require_eq_ok] at hreq
    cases hdown
    cases hcall
    exact .inl ⟨hv, hreq, rfl⟩
  · rename_i hv
    obtain ⟨_, hreq, hdown⟩ := Outcome.bind_eq_ok.1 hdown
    rw [require_eq_ok] at hreq
    cases hdown
    obtain ⟨_, -, hcall⟩ := Outcome.bind_eq_ok.1 hcall
    cases hcall
    refine .inr ⟨by omega, ?_⟩
    rw [hreq]

/-- Waiting for a byte or for room: the thread blocks in the mutex or in
    `ioq_wait`. -/
theorem IoqInv.acquired {side : Side} {waitPc acquirePc : IoqPc} {r : Bool × IoQueue τ}
    (h : IoqInv q) (ht : Running q t)
    (hwait : side = .consumer ∧ waitPc = .getWait ∨ side = .producer ∧ ∃ b, waitPc = .putWait b)
    (hacq : acquirePc = .getAcquire ∨ ∃ b, acquirePc = .putAcquire b)
    (htake : mutexTake t q = .ok r) (hcall : Device.acquired side waitPc acquirePc t r = .ok q') :
    IoqInv q' := by
  have hnotIn := ht.not_inWait
  have hnotW := ht.not_waiter h.toWaits
  rcases mutexTake_cases htake with ⟨hv, hnot, rfl⟩ | ⟨hv, rfl⟩
  · -- blocked in the mutex
    cases hcall
    have hthread : ∀ u, ((({ q with waiters := q.waiters ++ [t] }.setBlocked t true).setPc t
        acquirePc).thread u) = if u = t then ⟨acquirePc, true⟩ else q.thread u := by
      intro u
      by_cases hut : u = t <;> simp [hut]
    have hin : ∀ u, InWait (({ q with waiters := q.waiters ++ [t] }.setBlocked t true).setPc t
        acquirePc) u ↔ InWait q u := by
      intro u
      rw [InWait, hthread]
      by_cases hut : u = t
      · rw [if_pos hut, hut]
        refine iff_of_false ?_ hnotIn
        rcases hacq with rfl | ⟨b, rfl⟩ <;> simp
      · rw [if_neg hut]
        rfl
    refine ⟨⟨h.taken, h.window, h.head, h.tail⟩, ⟨fun u => ?_, fun u hu => ?_, h.nr, ?_,
      fun u hu => ?_, fun u hu => ?_, fun u hu => ?_⟩⟩
    · rw [hin]
      exact h.holder u
    · exact hv
    · show (q.waiters ++ [t]).Nodup
      rw [List.nodup_append]
      refine ⟨h.nodup, by simp, fun a ha b hb => ?_⟩
      rintro rfl
      exact hnot (List.mem_singleton.1 hb ▸ ha)
    · rw [InAcquire, hthread]
      have hu' : u ∈ q.waiters ++ [t] := hu
      rcases List.mem_append.1 hu' with hu' | hu'
      · have hut : u ≠ t := fun heq => hnot (heq ▸ hu')
        rw [if_neg hut]
        exact h.queued u hu'
      · rw [if_pos (List.mem_singleton.1 hu')]
        exact ⟨rfl, hacq⟩
    · have hut : u ≠ t := by
        rintro rfl
        exact hnotW .consumer hu
      rw [hthread, if_neg hut]
      exact h.consumer u hu
    · have hut : u ≠ t := by
        rintro rfl
        exact hnotW .producer hu
      rw [hthread, if_neg hut]
      exact h.producer u hu
  · -- blocked in `ioq_wait`
    obtain ⟨_, hnone, hcall⟩ := Outcome.bind_eq_ok.1 hcall
    rw [require_eq_ok] at hnone
    cases hcall
    have hnoWait : ∀ u, ¬ InWait q u := by
      intro u hu
      have := h.locked u hu
      omega
    have hwaitPc : waitPc = .getWait ∨ ∃ b, waitPc = .putWait b :=
      hwait.imp And.right And.right
    let q₁ : IoQueue τ := { q with value := 0, holder := some t, holderRepeatNr := 1 }
    let q₂ := ((q₁.setWaiter side (some t)).setBlocked t true).setPc t waitPc
    have hthread : ∀ u, q₂.thread u = if u = t then ⟨waitPc, true⟩ else q.thread u := by
      intro u
      by_cases hut : u = t <;> simp [q₂, q₁, hut]
    have hin : ∀ u, InWait q₂ u ↔ u = t := by
      intro u
      rw [InWait, hthread]
      by_cases hut : u = t
      · rw [if_pos hut]
        exact iff_of_true hwaitPc hut
      · rw [if_neg hut]
        exact iff_of_false (hnoWait u) hut
    have hw : ∀ side', q₂.waiter side' = if side' = side then some t else q.waiter side' :=
      fun side' => setWaiter_waiter q₁ side side' (some t)
    refine ⟨⟨h.taken, h.window, h.head, h.tail⟩, ⟨fun u => ?_, fun _ _ => rfl, Nat.le_refl 1,
      h.nodup, fun u hu => ?_, fun u hu => ?_, fun u hu => ?_⟩⟩
    · show some t = some u ↔ _
      rw [hin, Option.some_inj, eq_comm]
    · have hut : u ≠ t := by
        rintro rfl
        exact ht.not_queued h.toWaits hu
      show (q₂.thread u).blocked = true ∧ InAcquire q₂ u
      rw [InAcquire, hthread, if_neg hut]
      exact h.queued u hu
    · have hu' : q₂.waiter .consumer = some u := hu
      show (q₂.thread u).pc = _ ∧ _
      rw [hw] at hu'
      rw [hthread]
      rcases hwait with ⟨rfl, rfl⟩ | ⟨rfl, b, rfl⟩
      · rw [if_pos rfl, Option.some_inj] at hu'
        rw [if_pos hu'.symm]
        exact ⟨rfl, rfl⟩
      · rw [if_neg (by simp)] at hu'
        have hut : u ≠ t := by
          rintro rfl
          exact hnotW .consumer hu'
        rw [if_neg hut]
        exact h.consumer u hu'
    · have hu' : q₂.waiter .producer = some u := hu
      show (∃ byte, (q₂.thread u).pc = _) ∧ _
      rw [hw] at hu'
      rw [hthread]
      rcases hwait with ⟨rfl, rfl⟩ | ⟨rfl, b, rfl⟩
      · rw [if_neg (by simp)] at hu'
        have hut : u ≠ t := by
          rintro rfl
          exact hnotW .producer hu'
        rw [if_neg hut]
        exact h.producer u hu'
      · rw [if_pos rfl, Option.some_inj] at hu'
        rw [if_pos hu'.symm]
        exact ⟨⟨b, rfl⟩, rfl⟩

omit [DecidableEq τ] in
/-- Only one thread is in `ioq_wait`. -/
theorem Waits.inWait_unique (h : Waits q) (ht : InWait q t) (hu : InWait q u) : u = t := by
  have htu := ((h.holder t).2 ht).symm.trans ((h.holder u).2 hu)
  exact (Option.some.inj htu).symm

/-- The wakeup in `sema_up` lets a thread of the mutex go on, and nothing
    else. -/
theorem wakeFirst_cases (hcall : wakeFirst q = .ok q') :
    (q.waiters = [] ∧ q' = q)
      ∨ ∃ w ws, q.waiters = w :: ws ∧ q' = { q with waiters := ws }.setBlocked w false := by
  unfold wakeFirst at hcall
  cases hws : q.waiters with
  | nil =>
      rw [hws] at hcall
      cases hcall
      exact .inl ⟨rfl, rfl⟩
  | cons w ws =>
      rw [hws] at hcall
      obtain ⟨_, -, hcall⟩ := Outcome.bind_eq_ok.1 hcall
      cases hcall
      exact .inr ⟨w, ws, rfl, rfl⟩

/-- Giving up the mutex after `ioq_wait`: nobody is in `ioq_wait` now. -/
theorem IoqInv.mutexRelease (h : IoqInv q) (hin : InWait q t)
    (hrun : (q.thread t).blocked = false)
    (hcall : Device.mutexRelease t (q.setPc t .outside) = .ok q') :
    IoqInv q' ∧ Running q' t ∧ q'.ioBuf = q.ioBuf ∧ q'.stored = q.stored ∧ q'.taken = q.taken := by
  obtain ⟨_, -, hcall⟩ := Outcome.bind_eq_ok.1 hcall
  have hnr := h.nr
  rw [if_neg (show ¬ 1 < (q.setPc t .outside).holderRepeatNr from Nat.not_lt.2 hnr)] at hcall
  obtain ⟨_, -, hcall⟩ := Outcome.bind_eq_ok.1 hcall
  obtain ⟨_, -, hcall⟩ := Outcome.bind_eq_ok.1 hcall
  obtain ⟨q₁, hwake, hcall⟩ := Outcome.bind_eq_ok.1 hcall
  obtain ⟨_, -, hcall⟩ := Outcome.bind_eq_ok.1 hcall
  cases hcall
  let q₀ : IoQueue τ := { q.setPc t .outside with holder := none, holderRepeatNr := 0 }
  have hthread₀ : ∀ u, q₀.thread u = if u = t then ⟨.outside, false⟩ else q.thread u :=
    setPc_outside_thread hrun
  have hnoWait : ∀ u, ¬ InWait q₀ u := by
    intro u hu
    rw [InWait, hthread₀] at hu
    by_cases hut : u = t
    · simp [hut] at hu
    · rw [if_neg hut] at hu
      exact hut (h.inWait_unique hin hu)
  have hnotIn : t ∉ q.waiters := by
    intro hmem
    have := (h.queued t hmem).1
    rw [hrun] at this
    cases this
  have hqueued₀ : ∀ u ∈ q.waiters, (q₀.thread u).blocked = true ∧ InAcquire q₀ u := by
    intro u hu
    have hut : u ≠ t := fun heq => hnotIn (heq ▸ hu)
    rw [InAcquire, hthread₀, if_neg hut]
    exact h.queued u hu
  -- the two fields name nobody: their threads would be in `ioq_wait`
  have hfield : ∀ side u, q.waiter side ≠ some u := by
    intro side u hu
    have hiu : InWait q u ∧ (q.thread u).blocked = true := by
      cases side with
      | producer => exact ⟨.inr (h.producer u hu).1, (h.producer u hu).2⟩
      | consumer => exact ⟨.inl (h.consumer u hu).1, (h.consumer u hu).2⟩
    rw [h.inWait_unique hin hiu.1, hrun] at hiu
    cases hiu.2
  rcases wakeFirst_cases hwake with ⟨hws, rfl⟩ | ⟨w, ws, hws, rfl⟩
  · refine ⟨⟨⟨h.taken, h.window, h.head, h.tail⟩, ⟨fun u => ?_, fun u hu => ?_, Nat.zero_le 1,
      h.nodup, hqueued₀, fun u hu => ?_, fun u hu => ?_⟩⟩, ?_, rfl, rfl, rfl⟩
    · exact iff_of_false nofun (hnoWait u)
    · exact absurd hu (hnoWait u)
    · exact absurd hu (hfield _ u)
    · exact absurd hu (hfield _ u)
    · show (q₀.thread t).pc = _ ∧ (q₀.thread t).blocked = _
      rw [hthread₀, if_pos rfl]
      exact ⟨rfl, rfl⟩
  · have hws' : q.waiters = w :: ws := hws
    have hnodup := h.nodup
    rw [hws', List.nodup_cons] at hnodup
    have hwt : w ≠ t := by
      rintro rfl
      exact hnotIn (hws' ▸ List.mem_cons_self)
    have hthread : ∀ u, (q₀.setBlocked w false).thread u
        = if u = w then { q₀.thread w with blocked := false } else q₀.thread u :=
      (setBlocked_thread q₀ w · false)
    have hpc : ∀ u, ((q₀.setBlocked w false).thread u).pc = (q₀.thread u).pc := by
      intro u
      rw [hthread]
      by_cases huw : u = w
      · rw [if_pos huw, huw]
      · rw [if_neg huw]
    have hnoWait' : ∀ u, ¬ InWait (q₀.setBlocked w false) u := by
      intro u
      rw [InWait, hpc]
      exact hnoWait u
    refine ⟨⟨⟨h.taken, h.window, h.head, h.tail⟩, ⟨fun u => ?_, fun u hu => ?_, Nat.zero_le 1,
      hnodup.2, fun u hu => ?_, fun u hu => ?_, fun u hu => ?_⟩⟩, ?_, rfl, rfl, rfl⟩
    · exact iff_of_false nofun (hnoWait' u)
    · exact absurd hu (hnoWait' u)
    · have huw : u ≠ w := by
        rintro rfl
        exact hnodup.1 hu
      show ((q₀.setBlocked w false).thread u).blocked = true ∧ InAcquire (q₀.setBlocked w false) u
      rw [InAcquire, hthread, if_neg huw]
      exact hqueued₀ u (hws' ▸ List.mem_cons_of_mem w hu)
    · exact absurd hu (hfield _ u)
    · exact absurd hu (hfield _ u)
    · show ((q₀.setBlocked w false).thread t).pc = _ ∧ ((q₀.setBlocked w false).thread t).blocked = _
      rw [hthread, if_neg hwt.symm, hthread₀, if_pos rfl]
      exact ⟨rfl, rfl⟩

/-! ## The ends of the calls -/

theorem setPc_of_pc {pc : IoqPc} (hpc : (q.thread t).pc = pc) : q.setPc t pc = q := by
  subst hpc
  show ({ q with thread := Function.update q.thread t (q.thread t) } : IoQueue τ) = q
  rw [Function.update_eq_self]

/-- `ioq_wakeup` changes neither the buffer nor where anybody is. -/
theorem ioqWakeup_spec {side : Side} (h : Waits q) (hcall : ioqWakeup side q = .ok q') :
    Waits q' ∧ q'.ioBuf = q.ioBuf ∧ q'.stored = q.stored ∧ q'.taken = q.taken := by
  unfold ioqWakeup at hcall
  cases hside : q.waiter side with
  | none =>
      rw [hside] at hcall
      cases hcall
      exact ⟨h, rfl, rfl, rfl⟩
  | some w =>
      rw [hside] at hcall
      obtain ⟨q₁, hunblock, hcall⟩ := Outcome.bind_eq_ok.1 hcall
      obtain ⟨_, -, hunblock⟩ := Outcome.bind_eq_ok.1 hunblock
      cases hunblock
      cases hcall
      let q₂ := (q.setBlocked w false).setWaiter side none
      have hthread : ∀ u, q₂.thread u
          = if u = w then { q.thread w with blocked := false } else q.thread u :=
        (setBlocked_thread q w · false)
      have hpc : ∀ u, (q₂.thread u).pc = (q.thread u).pc := by
        intro u
        rw [hthread]
        by_cases huw : u = w
        · rw [if_pos huw, huw]
        · rw [if_neg huw]
      have hin : ∀ u, InWait q₂ u ↔ InWait q u := fun u => by rw [InWait, hpc, InWait]
      have hww : InWait q w := by
        cases side with
        | producer => exact .inr (h.producer w hside).1
        | consumer => exact .inl (h.consumer w hside).1
      have hw : ∀ side', q₂.waiter side' = if side' = side then none else q.waiter side' :=
        fun side' => setWaiter_waiter (q.setBlocked w false) side side' none
      -- a thread named by the other field is at the other place
      have hother : ∀ {side' u}, q₂.waiter side' = some u → q.waiter side' = some u ∧ u ≠ w := by
        intro side' u hu
        rw [hw] at hu
        by_cases hss : side' = side
        · rw [if_pos hss] at hu
          cases hu
        · rw [if_neg hss] at hu
          refine ⟨hu, ?_⟩
          rintro rfl
          cases side <;> cases side' <;> simp at hss
          · have := h.consumer u hu
            have := h.producer u hside
            simp_all
          · have := h.consumer u hside
            have := h.producer u hu
            simp_all
      refine ⟨⟨fun u => ?_, fun u hu => ?_, h.nr, h.nodup, fun u hu => ?_, fun u hu => ?_,
        fun u hu => ?_⟩, rfl, rfl, rfl⟩
      · rw [hin]
        exact h.holder u
      · exact h.locked u ((hin u).1 hu)
      · have hu' := h.queued u hu
        have huw : u ≠ w := by
          rintro rfl
          rcases hww with hpc | ⟨b, hpc⟩ <;> simp [InAcquire, hpc] at hu'
        show (q₂.thread u).blocked = true ∧ InAcquire q₂ u
        rw [InAcquire, hthread, if_neg huw]
        exact hu'
      · obtain ⟨hu', huw⟩ := hother hu
        show (q₂.thread u).pc = _ ∧ (q₂.thread u).blocked = _
        rw [hthread, if_neg huw]
        exact h.consumer u hu'
      · obtain ⟨hu', huw⟩ := hother hu
        show (∃ byte, (q₂.thread u).pc = _) ∧ (q₂.thread u).blocked = _
        rw [hthread, if_neg huw]
        exact h.producer u hu'

omit [DecidableEq τ] in
theorem Delivered.congr (h : Delivered q) (hbuf : q'.ioBuf = q.ioBuf) (hst : q'.stored = q.stored)
    (htk : q'.taken = q.taken) : Delivered q' := by
  constructor
  · rw [htk, hst]
    exact h.taken
  · rw [hbuf, htk, hst]
    exact h.window
  · rw [hbuf, hst]
    exact h.head
  · rw [hbuf, htk]
    exact h.tail

omit [DecidableEq τ] in
/-- A byte taken from a queue that is not empty is the next one stored. -/
theorem Delivered.take (h : Delivered q) (hne : q.taken.length < q.stored.length) :
    Delivered { q with
      ioBuf := { q.ioBuf with tail := nextPos q.ioBuf.tail }
      taken := q.taken ++ [q.ioBuf.buf q.ioBuf.tail] } := by
  obtain ⟨hcell, hwin⟩ := h.window.get hne
  have hbyte : q.ioBuf.buf q.ioBuf.tail = q.stored[q.taken.length] := by
    rw [h.tail]
    exact hcell
  refine ⟨?_, ?_, h.head, ?_⟩
  · show q.taken ++ [q.ioBuf.buf q.ioBuf.tail] <+: q.stored
    have htaken : q.taken = q.stored.take q.taken.length := List.prefix_iff_eq_take.1 h.taken
    have hnext : q.taken ++ [q.stored[q.taken.length]] = q.stored.take (q.taken.length + 1) := by
      rw [← List.take_append_getElem hne, ← htaken]
    rw [hbyte, hnext]
    exact List.take_prefix _ _
  · show Window bufsize q.ioBuf.buf q.stored (q.taken ++ [_]).length
    rw [List.length_append]
    exact hwin
  · show nextPos q.ioBuf.tail = (q.taken ++ [_]).length % bufsize
    rw [List.length_append, List.length_singleton, nextPos, h.tail, Nat.mod_add_mod]

omit [DecidableEq τ] in
/-- A byte stored in a queue that is not full. -/
theorem Delivered.put (h : Delivered q) (hfull : ioqFull q.ioBuf = false) (byte : UInt8) :
    Delivered { q with
      ioBuf := { q.ioBuf with
        buf := Function.update q.ioBuf.buf q.ioBuf.head byte
        head := nextPos q.ioBuf.head }
      stored := q.stored ++ [byte] } := by
  refine ⟨h.taken.trans (List.prefix_append _ _), ?_, ?_, h.tail⟩
  · show Window bufsize (Function.update q.ioBuf.buf q.ioBuf.head byte) (q.stored ++ [byte])
      q.taken.length
    rw [h.head]
    exact h.window.put (h.room hfull) byte
  · show nextPos q.ioBuf.head = (q.stored ++ [byte]).length % bufsize
    rw [List.length_append, List.length_singleton, nextPos, h.head, Nat.mod_add_mod]

/-- The end of `ioq_getchar` delivers the next byte exactly when there is
    one. -/
theorem IoqInv.takeByte (h : IoqInv q) (ht : Running q t)
    (hcall : Device.takeByte t q = .ok q') :
    (ioqEmpty q.ioBuf = false → IoqInv q') ∧ (Delivered q' → ioqEmpty q.ioBuf = false) := by
  unfold Device.takeByte at hcall
  dsimp only at hcall
  rw [setPc_of_pc (by exact ht.1)] at hcall
  obtain ⟨hw, hbuf, hst, htk⟩ := ioqWakeup_spec h.toWaits.congr hcall
  have hle := h.window.le
  rw [← Bool.not_eq_true, h.empty_iff]
  constructor
  · intro hne
    exact ⟨(h.toDelivered.take (by omega)).congr hbuf hst htk, hw⟩
  · intro hd heq
    have hle' := hd.window.le
    rw [htk, hst, List.length_append, List.length_singleton, heq] at hle'
    exact absurd hle' (Nat.not_succ_le_self _)

theorem IoqInv.storeByte (h : IoqInv q) (ht : Running q t) (hfull : ioqFull q.ioBuf = false)
    (hcall : Device.storeByte t byte q = .ok q') : IoqInv q' := by
  unfold Device.storeByte at hcall
  dsimp only at hcall
  rw [setPc_of_pc (by exact ht.1)] at hcall
  obtain ⟨hw, hbuf, hst, htk⟩ := ioqWakeup_spec h.toWaits.congr hcall
  exact ⟨(h.toDelivered.put hfull byte).congr hbuf hst htk, hw⟩

/-! ## The calls -/

theorem IoqInv.mutexAcquire_eq (h : IoqInv q) (ht : Running q t) :
    mutexAcquire t q = mutexTake t q := by
  unfold mutexAcquire
  rw [if_pos]
  exact fun hhold => ht.not_inWait ((h.holder t).1 hhold)

theorem IoqInv.getAcquired (h : IoqInv q) (ht : Running q t) {r : Bool × IoQueue τ}
    (htake : mutexTake t q = .ok r) (hcall : Device.getAcquired t r = .ok q') : IoqInv q' :=
  h.acquired ht (.inl ⟨rfl, rfl⟩) (.inl rfl) htake hcall

theorem IoqInv.putAcquired (h : IoqInv q) (ht : Running q t) {r : Bool × IoQueue τ}
    (htake : mutexTake t q = .ok r) (hcall : Device.putAcquired t byte r = .ok q') : IoqInv q' :=
  h.acquired ht (.inr ⟨rfl, byte, rfl⟩) (.inr ⟨byte, rfl⟩) htake hcall

theorem IoqInv.ioqGetchar (h : IoqInv q) (ht : Running q t)
    (hcall : Device.ioqGetchar t q = .ok q') : IoqInv q' := by
  unfold Device.ioqGetchar at hcall
  split at hcall
  · rw [h.mutexAcquire_eq ht] at hcall
    obtain ⟨r, htake, hcall⟩ := Outcome.bind_eq_ok.1 hcall
    exact h.getAcquired ht htake hcall
  · rename_i hempty
    exact (h.takeByte ht hcall).1 (Bool.not_eq_true _ ▸ hempty)

theorem IoqInv.ioqPutchar (h : IoqInv q) (ht : Running q t)
    (hcall : Device.ioqPutchar t byte q = .ok q') : IoqInv q' := by
  unfold Device.ioqPutchar at hcall
  split at hcall
  · rw [h.mutexAcquire_eq ht] at hcall
    obtain ⟨r, htake, hcall⟩ := Outcome.bind_eq_ok.1 hcall
    exact h.putAcquired ht htake hcall
  · rename_i hfull
    exact h.storeByte ht (Bool.not_eq_true _ ▸ hfull) hcall

/-- A thread that left `sema_down`: it runs, and nobody else changed. -/
theorem IoqInv.leaveAcquire (h : IoqInv q) (hin : InAcquire q t)
    (hrun : (q.thread t).blocked = false) :
    IoqInv (q.setPc t .outside) ∧ Running (q.setPc t .outside) t := by
  have hthread := setPc_outside_thread hrun
  have hnotIn : ¬ InWait q t := by
    rcases hin with hpc | ⟨b, hpc⟩ <;> simp [InWait, hpc]
  have hw : ∀ u, InWait (q.setPc t .outside) u ↔ InWait q u := by
    intro u
    rw [InWait, hthread]
    by_cases hut : u = t
    · rw [if_pos hut, hut]
      exact iff_of_false (by simp) hnotIn
    · rw [if_neg hut]
      rfl
  have hne : ∀ {u}, (q.thread u).blocked = true → u ≠ t := by
    rintro u hu rfl
    rw [hrun] at hu
    cases hu
  refine ⟨⟨⟨h.taken, h.window, h.head, h.tail⟩, ⟨fun u => ?_, fun u hu => ?_, h.nr, h.nodup,
    fun u hu => ?_, fun u hu => ?_, fun u hu => ?_⟩⟩, ?_⟩
  · rw [hw]
    exact h.holder u
  · exact h.locked u ((hw u).1 hu)
  · rw [InAcquire, hthread, if_neg (hne (h.queued u hu).1)]
    exact h.queued u hu
  · rw [hthread, if_neg (hne (h.consumer u hu).2)]
    exact h.consumer u hu
  · rw [hthread, if_neg (hne (h.producer u hu).2)]
    exact h.producer u hu
  · rw [Running, hthread, if_pos rfl]
    exact ⟨rfl, rfl⟩

/-! ## Runs -/

/-- A reader that goes on after `ioq_wait` finds a byte. -/
def FindsByte (q : IoQueue τ) : IoqOp τ → Prop
  | .resume t => (q.thread t).pc = .getWait → ioqEmpty q.ioBuf = false
  | _ => True

instance (q : IoQueue τ) : (op : IoqOp τ) → Decidable (FindsByte q op)
  | .resume t =>
      instDecidableForall (p := (q.thread t).pc = .getWait) (q := ioqEmpty q.ioBuf = false)
  | .getchar _ => instDecidableTrue
  | .putchar _ _ => instDecidableTrue

/-- Every step keeps the invariant, but for a reader that goes on and finds no
    byte. -/
theorem IoqInv.step {op : IoqOp τ} (h : IoqInv q) (hlegal : op.Legal q)
    (hcall : op.run q = .ok q') :
    (FindsByte q op → IoqInv q') ∧ (Delivered q' → FindsByte q op) := by
  cases op with
  | getchar t => exact ⟨fun _ => h.ioqGetchar hlegal hcall, fun _ => trivial⟩
  | putchar t byte => exact ⟨fun _ => h.ioqPutchar hlegal hcall, fun _ => trivial⟩
  | resume t =>
      have hcall : resumeAt t (q.setPc t .outside) (q.thread t).pc = .ok q' := hcall
      have hrun := hlegal.2
      cases hpc : (q.thread t).pc with
      | outside => exact absurd hpc hlegal.1
      | getAcquire =>
          rw [hpc] at hcall
          obtain ⟨h₁, ht⟩ := h.leaveAcquire (.inl hpc) hrun
          obtain ⟨r, htake, hcall⟩ := Outcome.bind_eq_ok.1 hcall
          exact ⟨fun _ => h₁.getAcquired ht htake hcall, fun _ hget => by simp [hpc] at hget⟩
      | putAcquire byte =>
          rw [hpc] at hcall
          obtain ⟨h₁, ht⟩ := h.leaveAcquire (.inr ⟨byte, hpc⟩) hrun
          obtain ⟨r, htake, hcall⟩ := Outcome.bind_eq_ok.1 hcall
          exact ⟨fun _ => h₁.putAcquired ht htake hcall, fun _ hget => by simp [hpc] at hget⟩
      | getWait =>
          rw [hpc] at hcall
          obtain ⟨q₁, hrel, hcall⟩ := Outcome.bind_eq_ok.1 hcall
          obtain ⟨h₁, ht, hbuf, -, -⟩ := h.mutexRelease (.inl hpc) hrun hrel
          obtain ⟨hok, hnot⟩ := h₁.takeByte ht hcall
          rw [hbuf] at hok hnot
          exact ⟨fun hbyte => hok (hbyte hpc), fun hd _ => hnot hd⟩
      | putWait byte =>
          rw [hpc] at hcall
          obtain ⟨q₁, hrel, hcall⟩ := Outcome.bind_eq_ok.1 hcall
          obtain ⟨h₁, ht, -, -, -⟩ := h.mutexRelease (.inr ⟨byte, hpc⟩) hrun hrel
          exact ⟨fun _ => h₁.ioqPutchar ht hcall, fun _ hget => by simp [hpc] at hget⟩

omit [DecidableEq τ] in
theorem ioqInv_ioqueueInit (buf : Nat → UInt8) : IoqInv (ioqueueInit buf : IoQueue τ) := by
  refine ⟨⟨List.nil_prefix, Window.empty (by decide) buf, rfl, rfl⟩, ⟨fun t => ?_, fun t ht => ?_,
    Nat.zero_le 1, List.nodup_nil, nofun, nofun, nofun⟩⟩
  · exact iff_of_false nofun (by simp [InWait, ioqueueInit])
  · simp [InWait, ioqueueInit] at ht

/-- In every run whose readers all find a byte after `ioq_wait`, the invariant
    holds. -/
theorem ioqInv_of_findsByte (h : ((ioqSystem τ).restrict FindsByte).Reachable q) : IoqInv q := by
  refine h.invariant (fun q hq => ?_) (fun q op q' hinv hstep => ?_)
  · obtain ⟨buf, rfl⟩ := hq
    exact ioqInv_ioqueueInit buf
  · obtain ⟨hbyte, hlegal, hcall⟩ := hstep
    exact (hinv.step hlegal hcall).1 hbyte

/-- In such a run the bytes taken are a prefix of the bytes stored and the tail
    does not pass the head; a reader that goes on and finds no byte ends
    this. -/
theorem delivered_iff_findsByte (h : ((ioqSystem τ).restrict FindsByte).Reachable q) :
    Delivered q ∧ ∀ op q', (ioqSystem τ).next q op q' → (Delivered q' ↔ FindsByte q op) := by
  have hinv := ioqInv_of_findsByte h
  refine ⟨hinv.toDelivered, fun op q' hnext => ?_⟩
  obtain ⟨hlegal, hcall⟩ := hnext
  obtain ⟨hok, hnot⟩ := hinv.step hlegal hcall
  exact ⟨hnot, fun hbyte => (hok hbyte).toDelivered⟩

/-- Reader 0 waits, writer 1 stores a byte and wakes it, and it takes the byte. -/
def wokenReaderRun : List (IoqOp Nat) := [.getchar 0, .putchar 1 65, .resume 0]

theorem delivered_iff_findsByte_woken : ∃ q,
    System.runSteps (fun q op => FindsByte q op ∧ op.Legal q) IoqOp.run wokenReaderRun
      (ioqueueInit (fun _ => 0)) = .ok q
    ∧ q.taken = [65] ∧ Delivered q
    ∧ ∀ op q', (ioqSystem Nat).next q op q' → (Delivered q' ↔ FindsByte q op) := by
  have hend : (System.runSteps (fun q op => FindsByte q op ∧ op.Legal q) IoqOp.run wokenReaderRun
      (ioqueueInit (fun _ => 0))).returns (fun q => decide (q.taken = [65])) = true := by
    decide
  obtain ⟨q, hrun, htaken⟩ := Outcome.returns_iff.1 hend
  refine ⟨q, hrun, of_decide_eq_true htaken, delivered_iff_findsByte ?_⟩
  exact System.Reachable.runSteps (M := (ioqSystem Nat).restrict FindsByte)
    (fun _ _ _ hok hstep => ⟨hok.1, hok.2, hstep⟩) (System.reachable_init ⟨_, rfl⟩) hrun

/-- Reader 0 waits, writer 1 stores a byte and wakes it, reader 2 takes the
    byte before reader 0 runs. -/
def lateReaderRun : List (IoqOp Nat) :=
  [.getchar 0, .putchar 1 65, .getchar 2, .resume 0]

/-- Reader 0 has taken a byte nobody stored. -/
theorem late_reader_takes : ∃ q, (ioqSystem Nat).Reachable q ∧ ¬ q.taken <+: q.stored := by
  have hend : (System.runSteps IoqOp.Legal IoqOp.run lateReaderRun
      (ioqueueInit (fun _ => 0))).returns (fun q => decide ¬ q.taken <+: q.stored) = true := by
    decide
  obtain ⟨q, hrun, hnot⟩ := Outcome.returns_iff.1 hend
  refine ⟨q, System.Reachable.runSteps ?_ (System.reachable_init ⟨_, rfl⟩) hrun,
    of_decide_eq_true hnot⟩
  exact fun _ _ _ hlegal hstep => ⟨hlegal, hstep⟩

end Device
end JackOS
