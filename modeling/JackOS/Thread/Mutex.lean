/-
  JackOS.Thread.Mutex

  The mutex of thread/sync.c under preemption.  Interrupts are off inside
  `sema_down` and `sema_up` only, so each statement of `mutex_acquire` and
  `mutex_release` is a step of its own, `holder_repeat_nr++` and `--` are a load
  and a store, and between any two steps another thread that is not blocked may
  run.  The threads are the elements of any type.
-/

import JackOS.Base.Transition
import JackOS.Base.Outcome

namespace JackOS
namespace Thread

open Base

/-- Where a thread is in `mutex_acquire` or `mutex_release`. -/
inductive MutexPc where
  /-- Outside both. -/
  | outside
  /-- At `sema_down`, or woken inside it. -/
  | acqDown
  /-- At `holder = running_thread()`. -/
  | acqSetHolder
  /-- At `ASSERT(holder_repeat_nr == 0)`. -/
  | acqAssert
  /-- At `holder_repeat_nr = 1`. -/
  | acqSetNr
  /-- At the load and the store of `holder_repeat_nr ++`. -/
  | acqLoad
  | acqStore (nr : Nat)
  /-- At `holder_repeat_nr > 1`. -/
  | relTest
  /-- At the load and the store of `holder_repeat_nr --`. -/
  | relLoad
  | relStore (nr : Nat)
  /-- At `ASSERT(holder_repeat_nr == 1)`. -/
  | relAssert
  /-- At `holder = NULL`. -/
  | relClearHolder
  /-- At `holder_repeat_nr = 0`. -/
  | relClearNr
  /-- At `sema_up`. -/
  | relUp
deriving DecidableEq, Repr

/-- A thread that uses the mutex. -/
structure Client where
  pc : MutexPc
  /-- How many `mutex_acquire` calls have returned without the matching
  `mutex_release` having returned. -/
  depth : Nat
  /-- Its status is `TASK_BLOCKED`. -/
  blocked : Bool

/-- `mutex_t`, and the threads. -/
structure Mutex (τ : Type) where
  holder : Option τ
  /-- A `uint32_t`. -/
  holderRepeatNr : Nat
  /-- `semaphore.value`, a `uint8_t`. -/
  value : Nat
  waiters : List τ
  client : τ → Client

variable {τ : Type} [DecidableEq τ]

namespace Mutex

def setClient (m : Mutex τ) (t : τ) (c : Client) : Mutex τ :=
  { m with client := Function.update m.client t c }

/-- The thread goes to `pc`. -/
def goto (m : Mutex τ) (t : τ) (pc : MutexPc) : Mutex τ :=
  m.setClient t { m.client t with pc := pc }

/-- The call returns, and leaves the thread `depth` times in. -/
def leave (m : Mutex τ) (t : τ) (depth : Nat) : Mutex τ :=
  m.setClient t { m.client t with pc := .outside, depth := depth }

def setBlocked (m : Mutex τ) (t : τ) (b : Bool) : Mutex τ :=
  m.setClient t { m.client t with blocked := b }

end Mutex

/-- `mutex_init`, with all threads outside. -/
def mutexInit : Mutex τ where
  holder := none
  holderRepeatNr := 0
  value := 1
  waiters := []
  client _ := ⟨.outside, 0, false⟩

/-- `sema_down` of thread `t`, up to its return or its `thread_block`; a woken
    thread tests the value again. -/
def semaDown (t : τ) (m : Mutex τ) : Outcome (Mutex τ) :=
  if m.value = 0 then do
    require (t ∉ m.waiters)
    .ok ({ m with waiters := m.waiters ++ [t] }.setBlocked t true)
  else do
    let m := { m with value := m.value - 1 }
    require (m.value = 0)
    .ok (m.goto t .acqSetHolder)

/-- The wakeup in `sema_up`: `thread_unblock` asserts that the thread is
    blocked. -/
def wakeWaiter (m : Mutex τ) : Outcome (Mutex τ) :=
  match m.waiters with
  | [] => .ok m
  | w :: ws => do
      require ((m.client w).blocked = true)
      .ok ({ m with waiters := ws }.setBlocked w false)

/-- `sema_up`. -/
def semaUp (m : Mutex τ) : Outcome (Mutex τ) := do
  require (m.value = 0)
  let m ← wakeWaiter m
  let m := { m with value := (m.value + 1) % 2 ^ 8 }
  require (m.value = 1)
  .ok m

/-- `mutex_acquire` up to its branch. -/
def mutexAcquire (t : τ) (m : Mutex τ) : Mutex τ :=
  if m.holder ≠ some t then m.goto t .acqDown else m.goto t .acqLoad

/-- `mutex_release` up to its branch. -/
def mutexRelease (t : τ) (m : Mutex τ) : Outcome (Mutex τ) := do
  require (m.holder = some t)
  .ok (m.goto t .relTest)

/-- The next statement of a thread inside one of the two. -/
def advance (t : τ) (m : Mutex τ) : Outcome (Mutex τ) :=
  match (m.client t).pc with
  | .outside => .ok m
  | .acqDown => semaDown t m
  | .acqSetHolder => .ok ({ m with holder := some t }.goto t .acqAssert)
  | .acqAssert => do
      require (m.holderRepeatNr = 0)
      .ok (m.goto t .acqSetNr)
  | .acqSetNr => .ok ({ m with holderRepeatNr := 1 }.leave t 1)
  | .acqLoad => .ok (m.goto t (.acqStore m.holderRepeatNr))
  | .acqStore nr =>
      .ok ({ m with holderRepeatNr := (nr + 1) % 2 ^ 32 }.leave t ((m.client t).depth + 1))
  | .relTest => .ok (m.goto t (if 1 < m.holderRepeatNr then .relLoad else .relAssert))
  | .relLoad => .ok (m.goto t (.relStore m.holderRepeatNr))
  | .relStore nr =>
      .ok ({ m with holderRepeatNr := (nr + 2 ^ 32 - 1) % 2 ^ 32 }.leave t ((m.client t).depth - 1))
  | .relAssert => do
      require (m.holderRepeatNr = 1)
      .ok (m.goto t .relClearHolder)
  | .relClearHolder => .ok ({ m with holder := none }.goto t .relClearNr)
  | .relClearNr => .ok ({ m with holderRepeatNr := 0 }.goto t .relUp)
  | .relUp => do
      let m ← semaUp m
      .ok (m.leave t ((m.client t).depth - 1))

/-! ## Runs -/

/-- The steps of the system. -/
inductive MutexOp (τ : Type) where
  | acquire (t : τ)
  | release (t : τ)
  | advance (t : τ)

/-- When a step can happen: the thread is not blocked, and releases what it has
    acquired. -/
def MutexOp.Legal (m : Mutex τ) : MutexOp τ → Prop
  | .acquire t => (m.client t).blocked = false ∧ (m.client t).pc = .outside
  | .release t => (m.client t).blocked = false ∧ (m.client t).pc = .outside ∧ 0 < (m.client t).depth
  | .advance t => (m.client t).blocked = false ∧ (m.client t).pc ≠ .outside

instance (m : Mutex τ) (op : MutexOp τ) : Decidable (op.Legal m) := by
  cases op <;> unfold MutexOp.Legal <;> infer_instance

/-- What the step does. -/
def MutexOp.run (m : Mutex τ) : MutexOp τ → Outcome (Mutex τ)
  | .acquire t => .ok (mutexAcquire t m)
  | .release t => mutexRelease t m
  | .advance t => Thread.advance t m

/-- The mutex and its threads from `mutex_init` on. -/
def mutexSystem (τ : Type) [DecidableEq τ] : System (Mutex τ) (MutexOp τ) where
  init m := m = mutexInit
  next m op m' := op.Legal m ∧ op.run m = .ok m'

/-- The mutex works: one thread at most is inside, the counter is its nesting
    depth (until a final release has cleared it), the value is 0 or 1, and the
    waiters are the blocked threads. -/
structure MutexOk (m : Mutex τ) : Prop where
  exclusion : ∀ t u, 0 < (m.client t).depth → 0 < (m.client u).depth → t = u
  counter : ∀ t, 0 < (m.client t).depth → (m.client t).pc ≠ .relUp →
    m.holderRepeatNr = (m.client t).depth
  value : m.value = 0 ∨ m.value = 1
  waiters : m.waiters.Nodup ∧ ∀ t, t ∈ m.waiters ↔ (m.client t).blocked = true

/-- The counter can hold one nesting more. -/
def NestingFits (m : Mutex τ) : MutexOp τ → Prop
  | .acquire t => (m.client t).depth + 1 < 2 ^ 32
  | _ => True

instance (m : Mutex τ) (op : MutexOp τ) : Decidable (NestingFits m op) := by
  cases op <;> unfold NestingFits <;> infer_instance

/-! ## The invariant -/

/-- The thread has taken the semaphore. -/
def Client.owns (c : Client) : Prop :=
  0 < c.depth ∨ c.pc = .acqSetHolder ∨ c.pc = .acqAssert ∨ c.pc = .acqSetNr

/-- What a thread at a given place relies on. -/
def AtPc (t : τ) (holder : Option τ) (nr : Nat) (c : Client) : Prop :=
  match c.pc with
  | .outside => c.depth = 0 ∧ holder ≠ some t ∨ 0 < c.depth ∧ holder = some t ∧ nr = c.depth
  | .acqDown => c.depth = 0 ∧ holder ≠ some t
  | .acqSetHolder => c.depth = 0 ∧ holder = none ∧ nr = 0
  | .acqAssert | .acqSetNr => c.depth = 0 ∧ holder = some t ∧ nr = 0
  | .acqLoad => 0 < c.depth ∧ holder = some t ∧ nr = c.depth ∧ c.depth + 1 < 2 ^ 32
  | .acqStore v => 0 < c.depth ∧ holder = some t ∧ nr = c.depth ∧ c.depth + 1 < 2 ^ 32 ∧ v = c.depth
  | .relTest => 0 < c.depth ∧ holder = some t ∧ nr = c.depth
  | .relLoad => 1 < c.depth ∧ holder = some t ∧ nr = c.depth
  | .relStore v => 1 < c.depth ∧ holder = some t ∧ nr = c.depth ∧ v = c.depth
  | .relAssert | .relClearHolder => c.depth = 1 ∧ holder = some t ∧ nr = 1
  | .relClearNr => c.depth = 1 ∧ holder = none ∧ nr = 1
  | .relUp => c.depth = 1 ∧ holder = none ∧ nr = 0

/-- The invariant. -/
structure MutexInv (m : Mutex τ) : Prop where
  excl : ∀ t u, (m.client t).owns → (m.client u).owns → t = u
  /-- The semaphore is up exactly when no thread has it. -/
  value : m.value = 1 ∧ (∀ t, ¬ (m.client t).owns) ∨ m.value = 0 ∧ ∃ t, (m.client t).owns
  free : (∀ t, ¬ (m.client t).owns) → m.holder = none ∧ m.holderRepeatNr = 0
  atPc : ∀ t, AtPc t m.holder m.holderRepeatNr (m.client t)
  nodup : m.waiters.Nodup
  blocked : ∀ t, t ∈ m.waiters ↔ (m.client t).blocked = true
  waiting : ∀ t, (m.client t).blocked = true → (m.client t).pc = .acqDown
  fits : m.holderRepeatNr < 2 ^ 32

section Steps

variable {m m' : Mutex τ} {t u : τ} {c : Client}

omit [DecidableEq τ] in
/-- A thread without the semaphore is outside or at `sema_down`. -/
theorem AtPc.of_not_owns {h : Option τ} {nr : Nat} (hat : AtPc t h nr c) (hno : ¬ c.owns) :
    (c.pc = .outside ∨ c.pc = .acqDown) ∧ c.depth = 0 ∧ h ≠ some t := by
  obtain ⟨pc, depth, blocked⟩ := c
  have hdepth : depth = 0 := by
    by_contra hd
    exact hno (.inl (Nat.pos_of_ne_zero hd))
  subst hdepth
  cases pc <;> simp [AtPc, Client.owns] at hat hno ⊢
  all_goals exact hat

omit [DecidableEq τ] in
theorem atPc_of_not_owns {h : Option τ} {nr : Nat} (hpc : c.pc = .outside ∨ c.pc = .acqDown)
    (hdepth : c.depth = 0) (hh : h ≠ some t) : AtPc t h nr c := by
  rcases hpc with hpc | hpc
  · simp only [AtPc, hpc]
    exact .inl ⟨hdepth, hh⟩
  · simp only [AtPc, hpc]
    exact ⟨hdepth, hh⟩

omit [DecidableEq τ] in
theorem not_owns_of (hpc : c.pc = .outside ∨ c.pc = .acqDown) (hdepth : c.depth = 0) :
    ¬ c.owns := by
  rcases hpc with hpc | hpc <;> simp [Client.owns, hpc, hdepth]

/-- A step of the thread that has the semaphore, which keeps it. -/
theorem MutexInv.owned (h : MutexInv m) (hown : (m.client t).owns)
    (hblk : (m.client t).blocked = false) (hclient : m'.client = Function.update m.client t c)
    (hvalue : m'.value = m.value) (hwaiters : m'.waiters = m.waiters)
    (hc : c.blocked = false) (hcown : c.owns)
    (hholder : m'.holder = none ∨ m'.holder = some t) (hfits : m'.holderRepeatNr < 2 ^ 32)
    (hat : AtPc t m'.holder m'.holderRepeatNr c) : MutexInv m' := by
  have hself : m'.client t = c := by rw [hclient, Function.update_self]
  have hother : ∀ u, u ≠ t → m'.client u = m.client u := by
    intro u hu
    rw [hclient, Function.update_of_ne hu]
  have howns : ∀ u, (m'.client u).owns → u = t := by
    intro u hu
    by_contra hut
    rw [hother u hut] at hu
    exact hut (h.excl u t hu hown)
  refine ⟨fun u v hu hv => (howns u hu).trans (howns v hv).symm, ?_, fun hno => ?_, fun u => ?_,
    hwaiters ▸ h.nodup, fun u => ?_, fun u hu => ?_, hfits⟩
  · rcases h.value with ⟨-, hno⟩ | ⟨hv, -⟩
    · exact absurd hown (hno t)
    · exact .inr ⟨hvalue ▸ hv, t, by rwa [hself]⟩
  · exact absurd (hself ▸ hcown) (hno t)
  · by_cases hut : u = t
    · subst hut
      rwa [hself]
    · have hno : ¬ (m.client u).owns := fun hu => hut (h.excl u t hu hown)
      obtain ⟨hpc, hdepth, -⟩ := (h.atPc u).of_not_owns hno
      rw [hother u hut]
      apply atPc_of_not_owns hpc hdepth
      rcases hholder with hh | hh <;> rw [hh]
      · simp
      · exact fun heq => hut (Option.some.inj heq).symm
  · rw [hwaiters, h.blocked]
    by_cases hut : u = t
    · subst hut
      rw [hself, hc, hblk]
    · rw [hother u hut]
  · by_cases hut : u = t
    · subst hut
      rw [hself, hc] at hu
      cases hu
    · rw [hother u hut] at hu ⊢
      exact h.waiting u hu

/-- A step of a thread that neither has nor gets the semaphore. -/
theorem MutexInv.unowned (h : MutexInv m) (hno : ¬ (m.client t).owns)
    (hclient : m'.client = Function.update m.client t c) (hvalue : m'.value = m.value)
    (hholder : m'.holder = m.holder) (hnr : m'.holderRepeatNr = m.holderRepeatNr)
    (hpc : c.pc = .outside ∨ c.pc = .acqDown) (hdepth : c.depth = 0)
    (hnodup : m'.waiters.Nodup)
    (hwaiters : ∀ u, u ∈ m'.waiters ↔ if u = t then c.blocked = true else u ∈ m.waiters)
    (hwait : c.blocked = true → c.pc = .acqDown) : MutexInv m' := by
  have hself : m'.client t = c := by rw [hclient, Function.update_self]
  have hother : ∀ u, u ≠ t → m'.client u = m.client u := by
    intro u hu
    rw [hclient, Function.update_of_ne hu]
  have howns : ∀ u, (m'.client u).owns ↔ (m.client u).owns := by
    intro u
    by_cases hut : u = t
    · rw [hut, hself]
      exact iff_of_false (not_owns_of hpc hdepth) hno
    · rw [hother u hut]
  refine ⟨?_, ?_, ?_, fun u => ?_, hnodup, fun u => ?_, fun u hu => ?_, hnr ▸ h.fits⟩
  · simpa only [howns] using h.excl
  · simpa only [howns, hvalue] using h.value
  · simpa only [howns, hholder, hnr] using h.free
  · rw [hholder, hnr]
    by_cases hut : u = t
    · subst hut
      rw [hself]
      exact atPc_of_not_owns hpc hdepth ((h.atPc u).of_not_owns hno).2.2
    · rw [hother u hut]
      exact h.atPc u
  · rw [hwaiters]
    by_cases hut : u = t
    · rw [hut, if_pos rfl, hself]
    · rw [if_neg hut, hother u hut]
      exact h.blocked u
  · by_cases hut : u = t
    · rw [hut, hself] at hu ⊢
      exact hwait hu
    · rw [hother u hut] at hu ⊢
      exact h.waiting u hu

/-! ## Each step -/

/-- The step returns, and keeps the invariant. -/
def MutexKeeps (call : Outcome (Mutex τ)) : Prop := ∃ m', call = .ok m' ∧ MutexInv m'

theorem mutexAcquire_keeps (h : MutexInv m) (hblk : (m.client t).blocked = false)
    (hpc : (m.client t).pc = .outside) (hfits : (m.client t).depth + 1 < 2 ^ 32) :
    MutexInv (mutexAcquire t m) := by
  have hat := h.atPc t
  simp only [AtPc, hpc] at hat
  rcases hat with ⟨hdepth, hholder⟩ | ⟨hdepth, hholder, hnr⟩
  · rw [mutexAcquire, if_pos hholder]
    have hno : ¬ (m.client t).owns := not_owns_of (.inl hpc) hdepth
    refine h.unowned (c := { m.client t with pc := .acqDown }) hno rfl rfl rfl rfl (.inr rfl) hdepth
      h.nodup (fun u => ?_) fun _ => rfl
    by_cases hut : u = t
    · subst hut
      rw [if_pos rfl]
      exact h.blocked u
    · rw [if_neg hut]
      rfl
  · rw [mutexAcquire, if_neg (not_not.2 hholder)]
    exact h.owned (c := { m.client t with pc := .acqLoad }) (.inl hdepth) hblk rfl rfl rfl hblk
      (.inl hdepth) (.inr hholder) h.fits ⟨hdepth, hholder, hnr, hfits⟩

theorem mutexRelease_keeps (h : MutexInv m) (hblk : (m.client t).blocked = false)
    (hpc : (m.client t).pc = .outside) (hdepth : 0 < (m.client t).depth) :
    MutexKeeps (mutexRelease t m) := by
  have hat := h.atPc t
  simp only [AtPc, hpc] at hat
  obtain ⟨-, hholder, hnr⟩ := hat.resolve_left fun hc => absurd hc.1 (by omega)
  refine ⟨m.goto t .relTest, ?_, ?_⟩
  · rw [mutexRelease, require_pos hholder]
    rfl
  · exact h.owned (c := { m.client t with pc := .relTest }) (.inl hdepth) hblk rfl rfl rfl hblk
      (.inl hdepth) (.inr hholder) h.fits ⟨hdepth, hholder, hnr⟩

theorem semaDown_keeps (h : MutexInv m) (hblk : (m.client t).blocked = false)
    (hpc : (m.client t).pc = .acqDown) : MutexKeeps (semaDown t m) := by
  have hat := h.atPc t
  simp only [AtPc, hpc] at hat
  obtain ⟨hdepth, hholder⟩ := hat
  have hno : ¬ (m.client t).owns := not_owns_of (.inr hpc) hdepth
  have hnot : t ∉ m.waiters := fun hmem => by
    rw [h.blocked, hblk] at hmem
    cases hmem
  rcases h.value with ⟨hv, hnone⟩ | ⟨hv, -⟩
  · -- the semaphore is up
    let m' : Mutex τ := { m with value := m.value - 1 }
    have hreq : require (m'.value = 0) = .ok () := require_pos (by show m.value - 1 = 0; omega)
    refine ⟨m'.goto t .acqSetHolder, ?_, ?_⟩
    · rw [semaDown, if_neg (by omega)]
      show (require (m'.value = 0) >>= _) = _
      rw [hreq]
      rfl
    · obtain ⟨hfree, hnr⟩ := h.free hnone
      have hself : (m'.goto t .acqSetHolder).client t = { m.client t with pc := .acqSetHolder } :=
        Function.update_self ..
      have hother : ∀ u, u ≠ t → (m'.goto t .acqSetHolder).client u = m.client u :=
        fun u hu => Function.update_of_ne hu _ _
      have howns : ∀ u, ((m'.goto t .acqSetHolder).client u).owns → u = t := by
        intro u hu
        by_contra hut
        rw [hother u hut] at hu
        exact hnone u hu
      have hget : ((m'.goto t .acqSetHolder).client t).owns := by
        rw [hself]
        exact .inr (.inl rfl)
      refine ⟨fun u v hu hv => (howns u hu).trans (howns v hv).symm, .inr ⟨?_, t, hget⟩,
        fun hno => absurd hget (hno t), fun u => ?_, h.nodup, fun u => ?_, fun u hu => ?_, h.fits⟩
      · show m.value - 1 = 0
        omega
      · by_cases hut : u = t
        · subst hut
          rw [hself]
          exact ⟨hdepth, hfree, hnr⟩
        · rw [hother u hut]
          exact h.atPc u
      · by_cases hut : u = t
        · subst hut
          rw [hself]
          exact h.blocked u
        · rw [hother u hut]
          exact h.blocked u
      · by_cases hut : u = t
        · rw [hut, hself, hblk] at hu
          cases hu
        · rw [hother u hut] at hu ⊢
          exact h.waiting u hu
  · refine ⟨{ m with waiters := m.waiters ++ [t] }.setBlocked t true, ?_, ?_⟩
    · rw [semaDown, if_pos hv, require_pos hnot]
      rfl
    · refine h.unowned (c := { m.client t with blocked := true }) hno rfl rfl rfl rfl (.inr hpc)
        hdepth ?_ (fun u => ?_) fun _ => hpc
      · show (m.waiters ++ [t]).Nodup
        rw [List.nodup_append]
        refine ⟨h.nodup, by simp, fun u hu v hv => ?_⟩
        rintro rfl
        exact hnot (List.mem_singleton.1 hv ▸ hu)
      · show u ∈ m.waiters ++ [t] ↔ _
        rw [List.mem_append, List.mem_singleton]
        by_cases hut : u = t <;> simp [hut]

/-- The wakeup of `sema_up` takes the first waiter and changes nothing else. -/
theorem wakeWaiter_spec (h : MutexInv m) : ∃ m₁, wakeWaiter m = .ok m₁ ∧ m₁.holder = m.holder
    ∧ m₁.holderRepeatNr = m.holderRepeatNr ∧ m₁.value = m.value ∧ m₁.waiters.Nodup
    ∧ (∀ u, u ∈ m₁.waiters ↔ (m₁.client u).blocked = true)
    ∧ ∀ u, (m₁.client u).pc = (m.client u).pc ∧ (m₁.client u).depth = (m.client u).depth
      ∧ ((m₁.client u).blocked = true → (m.client u).blocked = true) := by
  rcases hw : m.waiters with _ | ⟨w, ws⟩
  · refine ⟨m, ?_, rfl, rfl, rfl, h.nodup, h.blocked, fun u => ⟨rfl, rfl, id⟩⟩
    simp only [wakeWaiter, hw]
  · have hblk : (m.client w).blocked = true := (h.blocked w).1 (by simp [hw])
    have hnd := h.nodup
    rw [hw, List.nodup_cons] at hnd
    refine ⟨{ m with waiters := ws }.setBlocked w false, ?_, rfl, rfl, rfl, hnd.2, fun u => ?_,
      fun u => ?_⟩
    · simp only [wakeWaiter, hw, require_pos hblk]
      rfl
    · show u ∈ ws ↔ (Function.update m.client w { m.client w with blocked := false } u).blocked = true
      by_cases huw : u = w
      · subst huw
        rw [Function.update_self]
        simp [hnd.1]
      · rw [Function.update_of_ne huw, ← h.blocked, hw]
        simp [huw]
    · show (Function.update m.client w { m.client w with blocked := false } u).pc = _ ∧
        (Function.update m.client w { m.client w with blocked := false } u).depth = _ ∧
        ((Function.update m.client w { m.client w with blocked := false } u).blocked = true → _)
      by_cases huw : u = w
      · subst huw
        rw [Function.update_self]
        exact ⟨rfl, rfl, fun hc => (by cases hc)⟩
      · rw [Function.update_of_ne huw]
        exact ⟨rfl, rfl, id⟩

theorem relUp_keeps (h : MutexInv m) (hpc : (m.client t).pc = .relUp) :
    MutexKeeps (do
      let m ← semaUp m
      .ok (m.leave t ((m.client t).depth - 1))) := by
  have hat := h.atPc t
  simp only [AtPc, hpc] at hat
  obtain ⟨hdepth, hholder, hnr⟩ := hat
  have hown : (m.client t).owns := .inl (by omega)
  have hv : m.value = 0 := by
    rcases h.value with ⟨-, hno⟩ | ⟨hv, -⟩
    · exact absurd hown (hno t)
    · exact hv
  obtain ⟨m₁, hwake, hholder₁, hnr₁, hv₁, hnd₁, hblk₁, hsame⟩ := wakeWaiter_spec h
  let m₂ : Mutex τ := { m₁ with value := (m₁.value + 1) % 2 ^ 8 }
  have hv₂ : m₂.value = 1 := by
    show (m₁.value + 1) % 2 ^ 8 = 1
    omega
  have hup : semaUp m = .ok m₂ := by
    rw [semaUp, require_pos hv, Outcome.ok_bind, hwake]
    show (require (m₂.value = 1) >>= _) = _
    rw [require_pos hv₂]
    rfl
  let m₃ := m₂.leave t ((m₂.client t).depth - 1)
  have hself : m₃.client t = { m₁.client t with pc := .outside, depth := (m₁.client t).depth - 1 } :=
    Function.update_self ..
  have hother : ∀ u, u ≠ t → m₃.client u = m₁.client u := fun u hu => Function.update_of_ne hu _ _
  have hzero : (m₁.client t).depth - 1 = 0 := by
    rw [(hsame t).2.1, hdepth]
  -- nobody has the semaphore any more
  have hidle : ∀ u, ((m₃.client u).pc = .outside ∨ (m₃.client u).pc = .acqDown)
      ∧ (m₃.client u).depth = 0 := by
    intro u
    by_cases hut : u = t
    · rw [hut, hself]
      exact ⟨.inl rfl, hzero⟩
    · have hno : ¬ (m.client u).owns := fun hu => hut (h.excl u t hu hown)
      obtain ⟨hpcu, hdu, -⟩ := (h.atPc u).of_not_owns hno
      rw [hother u hut, (hsame u).1, (hsame u).2.1]
      exact ⟨hpcu, hdu⟩
  have hnone : ∀ u, ¬ (m₃.client u).owns := fun u => not_owns_of (hidle u).1 (hidle u).2
  refine ⟨m₃, ?_, ⟨fun u v hu => absurd hu (hnone u), .inl ⟨hv₂, hnone⟩, fun _ => ?_, fun u => ?_,
    hnd₁, fun u => ?_, fun u hu => ?_, hnr₁ ▸ h.fits⟩⟩
  · rw [hup]
    rfl
  · exact ⟨hholder₁.trans hholder, hnr₁.trans hnr⟩
  · apply atPc_of_not_owns (hidle u).1 (hidle u).2
    show m₁.holder ≠ some u
    rw [hholder₁, hholder]
    simp
  · show u ∈ m₁.waiters ↔ _
    rw [hblk₁]
    by_cases hut : u = t
    · rw [hut, hself]
    · rw [hother u hut]
  · have hblku : (m₁.client u).blocked = true := by
      by_cases hut : u = t
      · rw [hut, hself] at hu
        rw [hut]
        exact hu
      · rwa [hother u hut] at hu
    have hpcu := h.waiting u ((hsame u).2.2 hblku)
    by_cases hut : u = t
    · rw [hut, hpc] at hpcu
      cases hpcu
    · rw [hother u hut, (hsame u).1, hpcu]

/-- The thread that has the semaphore goes on to `pc`. -/
theorem MutexInv.goto {m₁ : Mutex τ} {pc : MutexPc} (h : MutexInv m) (hown : (m.client t).owns)
    (hblk : (m.client t).blocked = false) (hclient : m₁.client = m.client)
    (hvalue : m₁.value = m.value) (hwaiters : m₁.waiters = m.waiters)
    (hholder : m₁.holder = none ∨ m₁.holder = some t) (hfits : m₁.holderRepeatNr < 2 ^ 32)
    (hpc : Client.owns { m.client t with pc := pc })
    (hat : AtPc t m₁.holder m₁.holderRepeatNr { m.client t with pc := pc }) :
    MutexInv (m₁.goto t pc) := by
  refine h.owned (c := { m.client t with pc := pc }) hown hblk ?_ hvalue hwaiters hblk hpc hholder
    hfits hat
  simp only [Mutex.goto, Mutex.setClient, hclient]

/-- The thread that has the semaphore returns, still inside. -/
theorem MutexInv.leave {m₁ : Mutex τ} {depth : Nat} (h : MutexInv m) (hown : (m.client t).owns)
    (hblk : (m.client t).blocked = false) (hclient : m₁.client = m.client)
    (hvalue : m₁.value = m.value) (hwaiters : m₁.waiters = m.waiters)
    (hholder : m₁.holder = some t) (hdepth : 0 < depth) (hfits : depth < 2 ^ 32)
    (hnr : m₁.holderRepeatNr = depth) :
    MutexInv (m₁.leave t depth) := by
  refine h.owned (c := { m.client t with pc := .outside, depth := depth }) hown hblk ?_ hvalue
    hwaiters hblk (.inl hdepth) (.inr hholder) (hnr ▸ hfits) (.inr ⟨hdepth, hholder, hnr⟩)
  simp only [Mutex.leave, Mutex.setClient, hclient]

/-- Every statement inside the two functions returns, and keeps the
    invariant. -/
theorem advance_keeps (h : MutexInv m) (hblk : (m.client t).blocked = false) :
    MutexKeeps (advance t m) := by
  have hat := h.atPc t
  have hfits := h.fits
  cases hpc : (m.client t).pc with
  | outside => exact ⟨m, by simp only [advance, hpc], h⟩
  | acqDown =>
      have hcall : advance t m = semaDown t m := by simp only [advance, hpc]
      rw [hcall]
      exact semaDown_keeps h hblk hpc
  | acqSetHolder =>
      simp only [AtPc, hpc] at hat
      obtain ⟨hdepth, -, hnr⟩ := hat
      refine ⟨{ m with holder := some t }.goto t .acqAssert, by simp only [advance, hpc], ?_⟩
      exact h.goto (.inr (.inl hpc)) hblk rfl rfl rfl (.inr rfl) hfits (.inr (.inr (.inl rfl)))
        ⟨hdepth, rfl, hnr⟩
  | acqAssert =>
      simp only [AtPc, hpc] at hat
      obtain ⟨hdepth, hholder, hnr⟩ := hat
      refine ⟨m.goto t .acqSetNr, ?_, ?_⟩
      · simp only [advance, hpc, require_pos hnr, Outcome.ok_bind]
      · exact h.goto (.inr (.inr (.inl hpc))) hblk rfl rfl rfl (.inr hholder) hfits
          (.inr (.inr (.inr rfl))) ⟨hdepth, hholder, hnr⟩
  | acqSetNr =>
      simp only [AtPc, hpc] at hat
      obtain ⟨-, hholder, -⟩ := hat
      refine ⟨{ m with holderRepeatNr := 1 }.leave t 1, by simp only [advance, hpc], ?_⟩
      exact h.leave (.inr (.inr (.inr hpc))) hblk rfl rfl rfl hholder Nat.one_pos (by omega) rfl
  | acqLoad =>
      simp only [AtPc, hpc] at hat
      obtain ⟨hdepth, hholder, hnr, hroom⟩ := hat
      refine ⟨m.goto t (.acqStore m.holderRepeatNr), by simp only [advance, hpc], ?_⟩
      exact h.goto (.inl hdepth) hblk rfl rfl rfl (.inr hholder) hfits (.inl hdepth)
        ⟨hdepth, hholder, hnr, hroom, hnr⟩
  | acqStore nr =>
      simp only [AtPc, hpc] at hat
      obtain ⟨hdepth, hholder, -, hroom, hnr⟩ := hat
      refine ⟨{ m with holderRepeatNr := (nr + 1) % 2 ^ 32 }.leave t ((m.client t).depth + 1),
        by simp only [advance, hpc], ?_⟩
      refine h.leave (.inl hdepth) hblk rfl rfl rfl hholder (Nat.succ_pos _) hroom ?_
      show (nr + 1) % 2 ^ 32 = _
      rw [hnr, Nat.mod_eq_of_lt hroom]
  | relTest =>
      simp only [AtPc, hpc] at hat
      obtain ⟨hdepth, hholder, hnr⟩ := hat
      refine ⟨m.goto t (if 1 < m.holderRepeatNr then .relLoad else .relAssert),
        by simp only [advance, hpc], ?_⟩
      by_cases hone : 1 < m.holderRepeatNr
      · rw [if_pos hone]
        exact h.goto (.inl hdepth) hblk rfl rfl rfl (.inr hholder) hfits (.inl hdepth)
          ⟨hnr ▸ hone, hholder, hnr⟩
      · rw [if_neg hone]
        have hdepth' : (m.client t).depth = 1 := by omega
        exact h.goto (.inl hdepth) hblk rfl rfl rfl (.inr hholder) hfits (.inl hdepth)
          ⟨hdepth', hholder, hnr.trans hdepth'⟩
  | relLoad =>
      simp only [AtPc, hpc] at hat
      obtain ⟨hdepth, hholder, hnr⟩ := hat
      have hpos : 0 < (m.client t).depth := by omega
      refine ⟨m.goto t (.relStore m.holderRepeatNr), by simp only [advance, hpc], ?_⟩
      exact h.goto (.inl hpos) hblk rfl rfl rfl (.inr hholder) hfits (.inl hpos)
        ⟨hdepth, hholder, hnr, hnr⟩
  | relStore nr =>
      simp only [AtPc, hpc] at hat
      obtain ⟨hdepth, hholder, hnr, hload⟩ := hat
      refine ⟨{ m with holderRepeatNr := (nr + 2 ^ 32 - 1) % 2 ^ 32 }.leave t
        ((m.client t).depth - 1), by simp only [advance, hpc], ?_⟩
      refine h.leave (.inl (by omega)) hblk rfl rfl rfl hholder (by omega) (by omega) ?_
      show (nr + 2 ^ 32 - 1) % 2 ^ 32 = _
      omega
  | relAssert =>
      simp only [AtPc, hpc] at hat
      obtain ⟨hdepth, hholder, hnr⟩ := hat
      have hpos : 0 < (m.client t).depth := by omega
      refine ⟨m.goto t .relClearHolder, ?_, ?_⟩
      · simp only [advance, hpc, require_pos hnr, Outcome.ok_bind]
      · exact h.goto (.inl hpos) hblk rfl rfl rfl (.inr hholder) hfits (.inl hpos)
          ⟨hdepth, hholder, hnr⟩
  | relClearHolder =>
      simp only [AtPc, hpc] at hat
      obtain ⟨hdepth, -, hnr⟩ := hat
      have hpos : 0 < (m.client t).depth := by omega
      refine ⟨{ m with holder := none }.goto t .relClearNr, by simp only [advance, hpc], ?_⟩
      exact h.goto (.inl hpos) hblk rfl rfl rfl (.inl rfl) hfits (.inl hpos) ⟨hdepth, rfl, hnr⟩
  | relClearNr =>
      simp only [AtPc, hpc] at hat
      obtain ⟨hdepth, hholder, -⟩ := hat
      have hpos : 0 < (m.client t).depth := by omega
      refine ⟨{ m with holderRepeatNr := 0 }.goto t .relUp, by simp only [advance, hpc], ?_⟩
      exact h.goto (.inl hpos) hblk rfl rfl rfl (.inl hholder) (Nat.two_pow_pos 32) (.inl hpos)
        ⟨hdepth, hholder, rfl⟩
  | relUp =>
      have hcall : advance t m = (do
          let m ← semaUp m
          .ok (m.leave t ((m.client t).depth - 1))) := by simp only [advance, hpc]
      rw [hcall]
      exact relUp_keeps h hpc

/-! ## A thread among the others -/

/-- Inside `mutex_acquire` of a thread that does not have the mutex. -/
def MutexPc.acquires (pc : MutexPc) : Prop :=
  pc = .acqDown ∨ pc = .acqSetHolder ∨ pc = .acqAssert ∨ pc = .acqSetNr

/-- Inside the `mutex_release` that gives the mutex up. -/
def MutexPc.releases (pc : MutexPc) : Prop :=
  pc = .relTest ∨ pc = .relAssert ∨ pc = .relClearHolder ∨ pc = .relClearNr ∨ pc = .relUp

omit [DecidableEq τ] in
theorem acquires_ne_outside {pc : MutexPc} (h : pc.acquires) : pc ≠ .outside := by
  rcases h with h | h | h | h <;> simp [h]

omit [DecidableEq τ] in
theorem releases_ne_outside {pc : MutexPc} (h : pc.releases) : pc ≠ .outside := by
  rcases h with h | h | h | h | h <;> simp [h]

theorem goto_other (m : Mutex τ) (pc : MutexPc) (hu : u ≠ t) :
    (m.goto t pc).client u = m.client u :=
  Function.update_of_ne hu _ _

theorem leave_other (m : Mutex τ) (depth : Nat) (hu : u ≠ t) :
    (m.leave t depth).client u = m.client u :=
  Function.update_of_ne hu _ _

theorem goto_self (m : Mutex τ) (t : τ) (pc : MutexPc) :
    (m.goto t pc).client t = { m.client t with pc := pc } :=
  Function.update_self ..

theorem leave_self (m : Mutex τ) (t : τ) (depth : Nat) :
    (m.leave t depth).client t = { m.client t with pc := .outside, depth := depth } :=
  Function.update_self ..

/-- A wakeup moves no thread. -/
theorem semaUp_places (hcall : semaUp m = .ok m') :
    ∀ u, (m'.client u).pc = (m.client u).pc ∧ (m'.client u).depth = (m.client u).depth := by
  obtain ⟨_, -, hcall⟩ := Outcome.bind_eq_ok.1 hcall
  obtain ⟨m₁, hwake, hcall⟩ := Outcome.bind_eq_ok.1 hcall
  obtain ⟨_, -, hcall⟩ := Outcome.bind_eq_ok.1 hcall
  cases hcall
  intro u
  rw [wakeWaiter] at hwake
  split at hwake
  · cases hwake
    exact ⟨rfl, rfl⟩
  · rename_i w ws _
    obtain ⟨_, -, hwake⟩ := Outcome.bind_eq_ok.1 hwake
    cases hwake
    by_cases huw : u = w
    · subst huw
      simp only [Mutex.setBlocked, Mutex.setClient, Function.update_self]
      exact ⟨trivial, trivial⟩
    · simp only [Mutex.setBlocked, Mutex.setClient, Function.update_of_ne huw]
      exact ⟨trivial, trivial⟩

/-- A step of one thread moves no other. -/
theorem advance_other (hcall : advance t m = .ok m') (hu : u ≠ t) :
    (m'.client u).pc = (m.client u).pc ∧ (m'.client u).depth = (m.client u).depth := by
  unfold advance at hcall
  split at hcall
  case h_2 =>
    unfold semaDown at hcall
    split at hcall
    · obtain ⟨_, -, hcall⟩ := Outcome.bind_eq_ok.1 hcall
      cases hcall
      simp only [Mutex.setBlocked, Mutex.setClient, Function.update_of_ne hu, and_self]
    · obtain ⟨_, -, hcall⟩ := Outcome.bind_eq_ok.1 hcall
      cases hcall
      simp only [goto_other _ _ hu, and_self]
  case h_4 =>
    obtain ⟨_, -, hcall⟩ := Outcome.bind_eq_ok.1 hcall
    cases hcall
    simp only [goto_other _ _ hu, and_self]
  case h_11 =>
    obtain ⟨_, -, hcall⟩ := Outcome.bind_eq_ok.1 hcall
    cases hcall
    simp only [goto_other _ _ hu, and_self]
  case h_14 =>
    obtain ⟨m₁, hup, hcall⟩ := Outcome.bind_eq_ok.1 hcall
    cases hcall
    rw [leave_other _ _ hu]
    exact semaUp_places hup u
  all_goals
    cases hcall
    first
      | exact ⟨rfl, rfl⟩
      | simp only [goto_other _ _ hu, and_self]
      | simp only [leave_other _ _ hu, and_self]

/-- A thread in `mutex_acquire` stays there or returns with the mutex. -/
theorem advance_acquires (hcall : advance t m = .ok m') (hpc : (m.client t).pc.acquires) :
    (m'.client t).pc.acquires ∧ (m'.client t).depth = (m.client t).depth
      ∨ (m'.client t).pc = .outside ∧ (m'.client t).depth = 1 := by
  unfold advance at hcall
  rcases hpc with hpc | hpc | hpc | hpc
  · rw [hpc] at hcall
    simp only [semaDown] at hcall
    split at hcall
    · obtain ⟨_, -, hcall⟩ := Outcome.bind_eq_ok.1 hcall
      cases hcall
      simp only [Mutex.setBlocked, Mutex.setClient, Function.update_self]
      exact .inl ⟨.inl hpc, trivial⟩
    · obtain ⟨_, -, hcall⟩ := Outcome.bind_eq_ok.1 hcall
      cases hcall
      rw [goto_self]
      exact .inl ⟨.inr (.inl rfl), rfl⟩
  · rw [hpc] at hcall
    cases hcall
    rw [goto_self]
    exact .inl ⟨.inr (.inr (.inl rfl)), rfl⟩
  · rw [hpc] at hcall
    obtain ⟨_, -, hcall⟩ := Outcome.bind_eq_ok.1 hcall
    cases hcall
    rw [goto_self]
    exact .inl ⟨.inr (.inr (.inr rfl)), rfl⟩
  · rw [hpc] at hcall
    cases hcall
    rw [leave_self]
    exact .inr ⟨rfl, rfl⟩

/-- A thread that gives the mutex up stays in `mutex_release` or returns
    without it. -/
theorem advance_releases (h : MutexInv m) (hcall : advance t m = .ok m')
    (hpc : (m.client t).pc.releases) (hdepth : (m.client t).depth = 1) :
    (m'.client t).pc.releases ∧ (m'.client t).depth = 1
      ∨ (m'.client t).pc = .outside ∧ (m'.client t).depth = 0 := by
  have hat := h.atPc t
  unfold advance at hcall
  rcases hpc with hpc | hpc | hpc | hpc | hpc
  · rw [hpc] at hcall
    cases hcall
    simp only [AtPc, hpc] at hat
    rw [goto_self, if_neg (by omega)]
    exact .inl ⟨.inr (.inl rfl), hdepth⟩
  · rw [hpc] at hcall
    obtain ⟨_, -, hcall⟩ := Outcome.bind_eq_ok.1 hcall
    cases hcall
    rw [goto_self]
    exact .inl ⟨.inr (.inr (.inl rfl)), hdepth⟩
  · rw [hpc] at hcall
    cases hcall
    rw [goto_self]
    exact .inl ⟨.inr (.inr (.inr (.inl rfl))), hdepth⟩
  · rw [hpc] at hcall
    cases hcall
    rw [goto_self]
    exact .inl ⟨.inr (.inr (.inr (.inr rfl))), hdepth⟩
  · rw [hpc] at hcall
    obtain ⟨m₁, hup, hcall⟩ := Outcome.bind_eq_ok.1 hcall
    cases hcall
    rw [leave_self, (semaUp_places hup t).2, hdepth]
    exact .inr ⟨rfl, rfl⟩

/-! ## Every reachable state -/

omit [DecidableEq τ] in
theorem mutexInv_init : MutexInv (mutexInit : Mutex τ) := by
  have hno : ∀ t, ¬ ((mutexInit : Mutex τ).client t).owns := fun t => not_owns_of (.inl rfl) rfl
  refine ⟨fun t _ ht => absurd ht (hno t), .inl ⟨rfl, hno⟩, fun _ => ⟨rfl, rfl⟩, fun t => ?_,
    List.nodup_nil, fun t => ?_, fun t ht => ?_, Nat.two_pow_pos 32⟩
  · exact atPc_of_not_owns (.inl rfl) rfl (by simp [mutexInit])
  · simp [mutexInit]
  · cases ht

theorem MutexInv.step {op : MutexOp τ} (h : MutexInv m) (hop : op.Legal m)
    (hfits : NestingFits m op) : MutexKeeps (op.run m) := by
  cases op with
  | acquire t => exact ⟨_, rfl, mutexAcquire_keeps h hop.1 hop.2 hfits⟩
  | release t => exact mutexRelease_keeps h hop.1 hop.2.1 hop.2.2
  | advance t => exact advance_keeps h hop.1

omit [DecidableEq τ] in
theorem MutexInv.mutexOk (h : MutexInv m) : MutexOk m := by
  refine ⟨fun t u ht hu => h.excl t u (.inl ht) (.inl hu), fun t ht hpc => ?_, ?_, h.nodup,
    h.blocked⟩
  · have hat := h.atPc t
    cases hpc' : (m.client t).pc <;> simp only [AtPc, hpc'] at hat <;> grind
  · rcases h.value with ⟨hv, -⟩ | ⟨hv, -⟩
    · exact .inr hv
    · exact .inl hv

end Steps

theorem mutexInv_reachable {m : Mutex τ}
    (h : ((mutexSystem τ).restrict NestingFits).Reachable m) : MutexInv m := by
  apply h.invariant
  · rintro m rfl
    exact mutexInv_init
  · rintro m op m' hm ⟨hfits, hlegal, hrun⟩
    obtain ⟨m₁, hcall, hm₁⟩ := hm.step hlegal hfits
    rw [hcall] at hrun
    exact Except.ok.inj hrun ▸ hm₁

/-- While no thread nests 2^32 deep the mutex works and no ASSERT fails. -/
theorem mutex_safe {m : Mutex τ} (h : ((mutexSystem τ).restrict NestingFits).Reachable m) :
    MutexOk m ∧ ∀ op : MutexOp τ, op.Legal m → ∃ m', op.run m = .ok m' := by
  have hinv := mutexInv_reachable h
  refine ⟨hinv.mutexOk, fun op hop => ?_⟩
  cases op with
  | acquire t => exact ⟨_, rfl⟩
  | release t =>
      obtain ⟨m', hcall, -⟩ := hinv.step (show (MutexOp.release t).Legal m from hop) trivial
      exact ⟨m', hcall⟩
  | advance t =>
      obtain ⟨m', hcall, -⟩ := hinv.step (show (MutexOp.advance t).Legal m from hop) trivial
      exact ⟨m', hcall⟩

/-- One thread takes the mutex twice, and the other one waits for it. -/
def nestedRun : List (MutexOp Bool) :=
  [.acquire false, .advance false, .advance false, .advance false, .advance false,
    .acquire false, .advance false, .advance false, .acquire true, .advance true]

theorem mutex_safe_nested : ∃ m : Mutex Bool,
    System.runSteps (fun m op => NestingFits m op ∧ op.Legal m) MutexOp.run nestedRun mutexInit
      = .ok m
    ∧ (m.client false).depth = 2 ∧ m.holderRepeatNr = 2 ∧ (m.client true).blocked = true
    ∧ m.waiters = [true]
    ∧ MutexOk m ∧ ∀ op : MutexOp Bool, op.Legal m → ∃ m', op.run m = .ok m' := by
  have hend : (System.runSteps (fun m op => NestingFits m op ∧ op.Legal m) MutexOp.run nestedRun
      (mutexInit : Mutex Bool)).returns (fun m => decide ((m.client false).depth = 2
        ∧ m.holderRepeatNr = 2 ∧ (m.client true).blocked = true ∧ m.waiters = [true])) = true := by
    decide
  obtain ⟨m, hrun, hfacts⟩ := Outcome.returns_iff.1 hend
  obtain ⟨hdepth, hnr, hblocked, hwaiters⟩ := of_decide_eq_true hfacts
  refine ⟨m, hrun, hdepth, hnr, hblocked, hwaiters, mutex_safe ?_⟩
  exact System.Reachable.runSteps (M := (mutexSystem Bool).restrict NestingFits)
    (fun _ _ _ hok hstep => ⟨hok.1, hok.2, hstep⟩) (System.reachable_init rfl) hrun

/-! ## The counter wraps -/

/-- A mutex with a single thread. -/
def single (holder : Option Unit) (nr value : Nat) (pc : MutexPc) (depth : Nat) : Mutex Unit :=
  ⟨holder, nr, value, [], fun _ => ⟨pc, depth, false⟩⟩

theorem single_setClient (h : Option Unit) (nr v : Nat) (pc : MutexPc) (d : Nat) (c : Client) :
    (single h nr v pc d).setClient () c = ⟨h, nr, v, [], fun _ => c⟩ := by
  simp only [single, Mutex.setClient, Mutex.mk.injEq, true_and]
  funext u
  exact Function.update_self ..

/-- A step of the single thread inside one of the two functions. -/
theorem single_advance {h h' : Option Unit} {nr nr' v v' : Nat} {pc pc' : MutexPc} {d d' : Nat}
    (hs : (mutexSystem Unit).Reachable (single h nr v pc d)) (hpc : pc ≠ .outside)
    (hrun : advance () (single h nr v pc d) = .ok (single h' nr' v' pc' d')) :
    (mutexSystem Unit).Reachable (single h' nr' v' pc' d') :=
  hs.next (i := .advance ()) ⟨⟨rfl, hpc⟩, hrun⟩

theorem single_acquire {h h' : Option Unit} {nr v : Nat} {pc' : MutexPc} {d : Nat}
    (hs : (mutexSystem Unit).Reachable (single h nr v .outside d))
    (hrun : mutexAcquire () (single h nr v .outside d) = single h' nr v pc' d) :
    (mutexSystem Unit).Reachable (single h' nr v pc' d) :=
  hs.next (i := .acquire ()) ⟨⟨rfl, rfl⟩, congrArg Except.ok hrun⟩

/-- A thread can take the mutex any number of times. -/
theorem nested_reachable (n : Nat) : (mutexSystem Unit).Reachable
    (single (some ()) ((n + 1) % 2 ^ 32) 0 .outside (n + 1)) := by
  induction n with
  | zero =>
      have h₀ : (mutexSystem Unit).Reachable (single none 0 1 .outside 0) :=
        System.reachable_init rfl
      have h₁ : (mutexSystem Unit).Reachable (single none 0 1 .acqDown 0) :=
        single_acquire h₀ (single_setClient ..)
      have h₂ : (mutexSystem Unit).Reachable (single none 0 0 .acqSetHolder 0) :=
        single_advance h₁ (by simp) (congrArg Except.ok (single_setClient none 0 0 .acqDown 0 _))
      have h₃ : (mutexSystem Unit).Reachable (single (some ()) 0 0 .acqAssert 0) :=
        single_advance h₂ (by simp)
          (congrArg Except.ok (single_setClient (some ()) 0 0 .acqSetHolder 0 _))
      have h₄ : (mutexSystem Unit).Reachable (single (some ()) 0 0 .acqSetNr 0) :=
        single_advance h₃ (by simp)
          (congrArg Except.ok (single_setClient (some ()) 0 0 .acqAssert 0 _))
      exact single_advance h₄ (by simp)
        (congrArg Except.ok (single_setClient (some ()) 1 0 .acqSetNr 0 _))
  | succ n ih =>
      let nr := (n + 1) % 2 ^ 32
      have h₁ : (mutexSystem Unit).Reachable (single (some ()) nr 0 .acqLoad (n + 1)) :=
        single_acquire ih (single_setClient ..)
      have h₂ : (mutexSystem Unit).Reachable (single (some ()) nr 0 (.acqStore nr) (n + 1)) :=
        single_advance h₁ (by simp)
          (congrArg Except.ok (single_setClient (some ()) _ 0 .acqLoad (n + 1) _))
      refine single_advance h₂ (by simp) ?_
      have hnr : ((n + 1) % 2 ^ 32 + 1) % 2 ^ 32 = (n + 1 + 1) % 2 ^ 32 := Nat.mod_add_mod ..
      rw [← hnr]
      exact congrArg Except.ok (single_setClient (some ()) _ 0 (.acqStore _) (n + 1) _)

/-- After 2^32 calls of `mutex_acquire` the counter is 0 again. -/
theorem mutex_counter_wraps : ∃ m : Mutex Unit, (mutexSystem Unit).Reachable m ∧ ¬ MutexOk m := by
  refine ⟨_, nested_reachable (2 ^ 32 - 1), fun h => ?_⟩
  have hcounter := h.counter () (by simp [single]) (by simp [single])
  simp [single] at hcounter

end Thread
end JackOS
