/-
  JackOS.Device.BusyWait

  `busy_wait` of device/ide.c, and `mtime_sleep` and `ticks_to_sleep` of
  device/timer.c, which it calls between two looks at the status register.

  The loop is written `time_limit -= 10 > 0`, so that a round takes 1 off the
  limit and not 10, and `mtime_sleep` sleeps as many ticks as the counter has
  now, not as many as it was asked for.  A run is within its budget (`OnBudget`)
  exactly when neither shows: the disk is not busy for long, and in no sleep is
  the difference to be seen (`Timely`).

  The environment gives what `inb` reads, one byte after the other, and what
  each call of `mtime_sleep` finds in `ticks`.
-/

import JackOS.Base.Transition
import Mathlib.Data.UInt

namespace JackOS
namespace Device

open Base

/-! ## The code -/

/-- What a call of `mtime_sleep` finds in `ticks`: where it calls
    `ticks_to_sleep`, where that takes `start_tick`, and at each test. -/
structure TickReads where
  uptime : UInt32
  start : UInt32
  test : Nat → UInt32

/-- `IRQ0_FREQUENCY` -/
def irq0Frequency : UInt32 := 100

/-- `msec_per_tick` -/
def msecPerTick : UInt32 := 1000 / irq0Frequency

/-- `DIV_CEILING` -/
def divCeiling (x step : UInt32) : UInt32 := (x + step - 1) / step

/-- `ticks - start_tick` at the test -/
def TickReads.elapsed (r : TickReads) (i : Nat) : UInt32 := r.test i - r.start

/-- `mtime_sleep`, up to its call of `ticks_to_sleep`: the argument. -/
def mtimeSleep (r : TickReads) (mSeconds : UInt32) : Outcome UInt32 := do
  let sleepTicks := divCeiling mSeconds msecPerTick
  require (sleepTicks > 0)
  .ok r.uptime

/-- `BIT_STAT_BSY` -/
def bitStatBsy : UInt8 := 0x80

/-- `BIT_STAT_DRQ` -/
def bitStatDrq : UInt8 := 0x08

/-- Where `busy_wait` is. -/
inductive WaitPc where
  /-- At the `while`. -/
  | loop
  /-- In `ticks_to_sleep(sleepTicks)`, at the `i`-th test. -/
  | sleeping (sleepTicks : UInt32) (i : Nat)
  | returned (r : Bool)
deriving DecidableEq, Repr

/-- A run of `busy_wait`.  No code reads `polls`, the looks at the register so
    far, and `slept`, the test at which each sleep was over. -/
structure Wait where
  pc : WaitPc
  timeLimit : UInt16
  polls : Nat
  slept : List Nat
deriving DecidableEq, Repr

variable (status : Nat → UInt8) (ticks : Nat → TickReads)

/-- The next step, `none` behind the `return`. -/
def waitStep (s : Wait) : Outcome (Option Wait) :=
  match s.pc with
  | .loop =>
      -- `time_limit -= 10 > 0`
      let timeLimit := s.timeLimit - (if (10 : Nat) > 0 then 1 else 0)
      if timeLimit ≠ 0 then
        if status s.polls &&& bitStatBsy = 0 then
          let drq := status (s.polls + 1) &&& bitStatDrq
          .ok (some ⟨.returned (drq != 0), timeLimit, s.polls + 1, s.slept⟩)
        else do
          let sleepTicks ← mtimeSleep (ticks s.polls) 10
          .ok (some ⟨.sleeping sleepTicks 0, timeLimit, s.polls + 1, s.slept⟩)
      else .ok (some ⟨.returned false, timeLimit, s.polls, s.slept⟩)
  | .sleeping sleepTicks i =>
      if (ticks s.slept.length).elapsed i < sleepTicks then
        .ok (some { s with pc := .sleeping sleepTicks (i + 1) })
      else .ok (some { s with pc := .loop, slept := s.slept ++ [i] })
  | .returned _ => .ok none

/-- The run of `busy_wait`. -/
def busyWait : System Wait Unit where
  init s := s = ⟨.loop, 30 * 1000, 0, []⟩
  next s _ s' := waitStep status ticks s = .ok (some s')

/-! ## The budget -/

/-- The counter went on by as many ticks as 10 milliseconds have, modulo its
    size. -/
def TickReads.Advanced (r : TickReads) (i : Nat) : Prop := divCeiling 10 msecPerTick ≤ r.elapsed i

/-- The first test that finds the counter gone on. -/
def TickReads.FirstAdvance (r : TickReads) (i : Nat) : Prop :=
  r.Advanced i ∧ ∀ j < i, ¬ r.Advanced j

/-- The polls are 3000 at most, each sleep was over at the first test that found
    the counter gone on, and the sleep that is on has found it nowhere so. -/
structure OnBudget (s : Wait) : Prop where
  polls : s.polls ≤ 30000 / 10
  slept : ∀ k i, s.slept[k]? = some i → (ticks k).FirstAdvance i
  asleep : ∀ sleepTicks i, s.pc = .sleeping sleepTicks i →
    ∀ j < i, ¬ (ticks s.slept.length).Advanced j

/-- The disk is busy at the poll. -/
def Busy (k : Nat) : Prop := status k &&& bitStatBsy ≠ 0

/-- The counter goes on at all. -/
def TickReads.Advances (r : TickReads) : Prop := ∃ i, r.Advanced i

/-- Sleeping as long as the uptime is the same here as sleeping for a tick: the
    first test that finds the counter gone on finds it gone on by the uptime,
    and is the first test of all if that is zero. -/
structure TickReads.Exact (r : TickReads) : Prop where
  zero : r.uptime = 0 → r.Advanced 0
  first : ∀ i, r.FirstAdvance i → r.uptime ≤ r.elapsed i

/-- One of the first 3000 polls finds the disk ready, unless the counter stops
    before, and the sleeps until then are exact. -/
structure Timely : Prop where
  ready : ¬ ∀ k < 3000, Busy status k ∧ (ticks k).Advances
  exact : ∀ k < 3000, (∀ j ≤ k, Busy status j) → (∀ j < k, (ticks j).Advances) → (ticks k).Exact

/-! ## Steps -/

variable {status : Nat → UInt8} {ticks : Nat → TickReads} {s s' : Wait} {r : TickReads} {k i : Nat}

theorem mtimeSleep_eq (r : TickReads) : mtimeSleep r 10 = .ok r.uptime := by
  rw [mtimeSleep, require_pos (by decide), Outcome.ok_bind]

/-- A poll, of a disk that is ready or busy, or the end of the limit. -/
theorem waitStep_loop (hpc : s.pc = .loop) :
    (s.timeLimit - 1 = 0 → waitStep status ticks s
      = .ok (some ⟨.returned false, s.timeLimit - 1, s.polls, s.slept⟩))
    ∧ (s.timeLimit - 1 ≠ 0 → ¬ Busy status s.polls → waitStep status ticks s
      = .ok (some ⟨.returned (status (s.polls + 1) &&& bitStatDrq != 0), s.timeLimit - 1,
          s.polls + 1, s.slept⟩))
    ∧ (s.timeLimit - 1 ≠ 0 → Busy status s.polls → waitStep status ticks s
      = .ok (some ⟨.sleeping (ticks s.polls).uptime 0, s.timeLimit - 1, s.polls + 1, s.slept⟩)) := by
  have hdec : (if (10 : Nat) > 0 then (1 : UInt16) else 0) = 1 := rfl
  simp only [waitStep, hpc, hdec]
  refine ⟨fun hzero => ?_, fun hlimit hready => ?_, fun hlimit hbusy => ?_⟩
  · rw [if_neg (not_not.2 hzero)]
  · rw [if_pos hlimit, if_pos (not_not.1 hready)]
  · rw [if_pos hlimit, if_neg hbusy, mtimeSleep_eq, Outcome.ok_bind]

theorem waitStep_sleeping {sleepTicks : UInt32} (hpc : s.pc = .sleeping sleepTicks i) :
    waitStep status ticks s
      = if (ticks s.slept.length).elapsed i < sleepTicks then
          .ok (some { s with pc := .sleeping sleepTicks (i + 1) })
        else .ok (some { s with pc := .loop, slept := s.slept ++ [i] }) := by
  simp only [waitStep, hpc]

/-- What a step does. -/
theorem waitStep_cases (h : waitStep status ticks s = .ok (some s')) :
    (s.pc = .loop ∧ s.timeLimit - 1 = 0
      ∧ s' = ⟨.returned false, s.timeLimit - 1, s.polls, s.slept⟩)
    ∨ (s.pc = .loop ∧ s.timeLimit - 1 ≠ 0 ∧ ¬ Busy status s.polls
      ∧ ∃ r, s' = ⟨.returned r, s.timeLimit - 1, s.polls + 1, s.slept⟩)
    ∨ (s.pc = .loop ∧ s.timeLimit - 1 ≠ 0 ∧ Busy status s.polls
      ∧ s' = ⟨.sleeping (ticks s.polls).uptime 0, s.timeLimit - 1, s.polls + 1, s.slept⟩)
    ∨ (∃ sleepTicks i, s.pc = .sleeping sleepTicks i
      ∧ (ticks s.slept.length).elapsed i < sleepTicks
      ∧ s' = { s with pc := .sleeping sleepTicks (i + 1) })
    ∨ ∃ sleepTicks i, s.pc = .sleeping sleepTicks i
      ∧ ¬ (ticks s.slept.length).elapsed i < sleepTicks
      ∧ s' = { s with pc := .loop, slept := s.slept ++ [i] } := by
  cases hpc : s.pc with
  | loop =>
      obtain ⟨hend, hready, hbusy⟩ := @waitStep_loop status ticks s hpc
      by_cases hlimit : s.timeLimit - 1 = 0
      · rw [hend hlimit] at h
        cases h
        exact .inl ⟨rfl, hlimit, rfl⟩
      · by_cases hdisk : Busy status s.polls
        · rw [hbusy hlimit hdisk] at h
          cases h
          exact .inr (.inr (.inl ⟨rfl, hlimit, hdisk, rfl⟩))
        · rw [hready hlimit hdisk] at h
          cases h
          exact .inr (.inl ⟨rfl, hlimit, hdisk, _, rfl⟩)
  | sleeping sleepTicks i =>
      rw [waitStep_sleeping hpc] at h
      split at h
      · cases h
        exact .inr (.inr (.inr (.inl ⟨_, _, rfl, ‹_›, rfl⟩)))
      · cases h
        exact .inr (.inr (.inr (.inr ⟨_, _, rfl, ‹_›, rfl⟩)))
  | returned r =>
      rw [waitStep, hpc] at h
      cases h

/-! ## What a run keeps count of -/

/-- Where the limit and the polls stand. -/
def Counted (status : Nat → UInt8) (ticks : Nat → TickReads) (s : Wait) : Prop :=
  match s.pc with
  | .loop => s.slept.length = s.polls ∧ s.timeLimit.toNat + s.polls = 30000 ∧ 0 < s.timeLimit.toNat
      ∧ ∀ j < s.polls, Busy status j
  | .sleeping sleepTicks _ => s.slept.length + 1 = s.polls ∧ s.timeLimit.toNat + s.polls = 30000
      ∧ 0 < s.timeLimit.toNat ∧ (∀ j < s.polls, Busy status j)
      ∧ sleepTicks = (ticks s.slept.length).uptime
  | .returned _ => s.polls < 30000

theorem sub_one_toNat {t : UInt16} (h : 0 < t.toNat) : (t - 1).toNat = t.toNat - 1 := by
  have hle : (1 : UInt16) ≤ t := UInt16.le_iff_toNat_le.2 h
  exact UInt16.toNat_sub_of_le _ _ hle

theorem sub_one_pos {t : UInt16} (h : t - 1 ≠ 0) : 0 < (t - 1).toNat := by
  apply Nat.pos_of_ne_zero
  intro hzero
  exact h (UInt16.toNat_inj.1 hzero)

theorem counted_step (h : Counted status ticks s) (hstep : waitStep status ticks s = .ok (some s')) :
    Counted status ticks s' := by
  unfold Counted at h
  rcases waitStep_cases hstep with ⟨hpc, -, rfl⟩ | ⟨hpc, hlimit, -, r, rfl⟩
    | ⟨hpc, hlimit, hbusy, rfl⟩ | ⟨sleepTicks, i, hpc, -, rfl⟩ | ⟨sleepTicks, i, hpc, -, rfl⟩
  · rw [hpc] at h
    obtain ⟨-, hsum, hpos, -⟩ := h
    change s.polls < 30000
    omega
  · rw [hpc] at h
    obtain ⟨-, hsum, hpos, -⟩ := h
    have hsub := sub_one_pos hlimit
    rw [sub_one_toNat hpos] at hsub
    change s.polls + 1 < 30000
    omega
  · rw [hpc] at h
    obtain ⟨hlen, hsum, hpos, hall⟩ := h
    have hsub := sub_one_pos hlimit
    have heq := sub_one_toNat hpos
    refine ⟨by dsimp only; omega, by dsimp only; omega, hsub, ?_, by dsimp only; rw [hlen]⟩
    intro j hj
    rcases Nat.lt_succ_iff_lt_or_eq.1 hj with hj | rfl
    · exact hall j hj
    · exact hbusy
  · rw [hpc] at h
    exact h
  · rw [hpc] at h
    obtain ⟨hlen, hsum, hpos, hall, -⟩ := h
    exact ⟨by rw [List.length_append]; exact hlen, hsum, hpos, hall⟩

theorem counted_of_reachable (h : (busyWait status ticks).Reachable s) : Counted status ticks s := by
  apply h.invariant
  · rintro s rfl
    exact ⟨rfl, by decide, by decide, fun j hj => absurd hj (Nat.not_lt_zero j)⟩
  · intro s _ s' hs hstep
    exact counted_step hs hstep

/-- The polls are nearly ten times as many as they should be, and no more. -/
theorem polls_lt (h : (busyWait status ticks).Reachable s) : s.polls < 30000 := by
  have hcounted := counted_of_reachable h
  unfold Counted at hcounted
  split at hcounted
  · omega
  · omega
  · exact hcounted

/-! ## Timely runs are on budget -/

theorem advanced_iff : r.Advanced i ↔ 0 < (r.elapsed i).toNat := by
  have htick : divCeiling 10 msecPerTick = 1 := by decide
  rw [TickReads.Advanced, htick]
  exact UInt32.le_iff_toNat_le

/-- In an exact sleep a test that finds the counter where it was is not the
    last one, and the first that finds it gone on is. -/
theorem TickReads.Exact.goesOn (h : r.Exact) (hbefore : ∀ j < i, ¬ r.Advanced j) :
    r.elapsed i < r.uptime ↔ ¬ r.Advanced i := by
  constructor
  · intro hlt hadvanced
    have hle := h.first i ⟨hadvanced, hbefore⟩
    rw [UInt32.le_iff_toNat_le] at hle
    rw [UInt32.lt_iff_toNat_lt] at hlt
    omega
  · intro hnot
    have hzero : (r.elapsed i).toNat = 0 := Nat.eq_zero_of_not_pos (mt advanced_iff.2 hnot)
    rw [UInt32.lt_iff_toNat_lt, hzero]
    by_contra huptime
    have hadvanced := h.zero (UInt32.toNat_inj.1 (Nat.eq_zero_of_not_pos huptime))
    rcases Nat.eq_zero_or_pos i with rfl | hpos
    · exact hnot hadvanced
    · exact hbefore 0 hpos hadvanced

/-- The sleeps that are over went on by a tick. -/
theorem OnBudget.advances (h : OnBudget ticks s) (hk : k < s.slept.length) : (ticks k).Advances :=
  ⟨_, (h.slept k _ (List.getElem?_eq_getElem hk)).1⟩

theorem onBudget_step (htimely : Timely status ticks) (hcounted : Counted status ticks s)
    (h : OnBudget ticks s) (hstep : waitStep status ticks s = .ok (some s')) : OnBudget ticks s' := by
  unfold Counted at hcounted
  have hroom : s.pc = .loop → s.polls < 3000 := by
    intro hpc
    rw [hpc] at hcounted
    by_contra hfull
    refine htimely.ready fun k hk => ⟨hcounted.2.2.2 k (by omega), h.advances ?_⟩
    rw [hcounted.1]
    omega
  rcases waitStep_cases hstep with ⟨hpc, -, rfl⟩ | ⟨hpc, -, -, r, rfl⟩ | ⟨hpc, -, -, rfl⟩
    | ⟨sleepTicks, i, hpc, htest, rfl⟩ | ⟨sleepTicks, i, hpc, htest, rfl⟩
  · exact ⟨h.polls, h.slept, fun _ _ hsleep => by cases hsleep⟩
  · exact ⟨Nat.succ_le_of_lt (hroom hpc), h.slept, fun _ _ hsleep => by cases hsleep⟩
  · refine ⟨Nat.succ_le_of_lt (hroom hpc), h.slept, fun _ _ hsleep j hj => ?_⟩
    cases hsleep
    exact absurd hj (Nat.not_lt_zero j)
  all_goals
    rw [hpc] at hcounted
    obtain ⟨hlen, -, -, hall, rfl⟩ := hcounted
    have hpolls : s.polls ≤ 3000 := h.polls
    have hexact := htimely.exact s.slept.length (by omega) (fun j hj => hall j (by omega))
      (fun j hj => h.advances hj)
    have hbefore := h.asleep _ _ hpc
    rw [hexact.goesOn hbefore] at htest
  · refine ⟨h.polls, h.slept, fun _ _ hsleep j hj => ?_⟩
    cases hsleep
    rcases Nat.lt_succ_iff_lt_or_eq.1 hj with hj | rfl
    · exact hbefore j hj
    · exact htest
  · refine ⟨h.polls, fun k l hkl => ?_, fun _ _ hsleep => by cases hsleep⟩
    dsimp only at hkl
    rw [List.getElem?_append] at hkl
    split at hkl
    · exact h.slept k l hkl
    · obtain ⟨hk, hl⟩ := List.getElem?_eq_some_iff.1 hkl
      rw [List.length_singleton] at hk
      rw [List.getElem_singleton] at hl
      subst hl
      have hk : k = s.slept.length := by omega
      rw [hk]
      exact ⟨not_not.1 htest, hbefore⟩

theorem onBudget_of_timely (htimely : Timely status ticks)
    (h : (busyWait status ticks).Reachable s) : OnBudget ticks s := by
  have hboth : Counted status ticks s ∧ OnBudget ticks s := by
    apply h.invariant
    · rintro s rfl
      exact ⟨counted_of_reachable (System.reachable_init rfl), ⟨by decide,
        fun _ _ hsome => (by cases hsome), fun _ _ hsleep => (by cases hsleep)⟩⟩
    · rintro s _ s' ⟨hcounted, hbudget⟩ hstep
      exact ⟨counted_step hcounted hstep, onBudget_step htimely hcounted hbudget hstep⟩
  exact hboth.2

/-! ## Runs on budget are timely -/

/-- The limit is not used up by 3000 polls. -/
theorem limit_left (h : (busyWait status ticks).Reachable s) (hpc : s.pc = .loop)
    (hpolls : s.polls ≤ 3000) : s.timeLimit - 1 ≠ 0 := by
  have hcounted := counted_of_reachable h
  unfold Counted at hcounted
  rw [hpc] at hcounted
  obtain ⟨-, hsum, hpos, -⟩ := hcounted
  intro hzero
  have hsub := sub_one_toNat hpos
  rw [hzero] at hsub
  change 0 = _ at hsub
  omega

/-- The poll of a busy disk. -/
theorem reach_sleep (h : (busyWait status ticks).Reachable s) (hpc : s.pc = .loop)
    (hpolls : s.polls ≤ 3000) (hbusy : Busy status s.polls) :
    (busyWait status ticks).Reachable
      ⟨.sleeping (ticks s.polls).uptime 0, s.timeLimit - 1, s.polls + 1, s.slept⟩ := by
  obtain ⟨-, -, hstep⟩ := @waitStep_loop status ticks s hpc
  exact h.next (i := ()) (hstep (limit_left h hpc hpolls) hbusy)

section Budget

variable {sleepTicks : UInt32} {t : UInt16} {n : Nat} {slept : List Nat}
variable (hbudget : ∀ s, (busyWait status ticks).Reachable s → OnBudget ticks s)
include hbudget

/-- A sleep lasts as long as the counter was not found gone on. -/
theorem reach_test (h : (busyWait status ticks).Reachable ⟨.sleeping sleepTicks 0, t, n, slept⟩)
    (hbefore : ∀ j < i, ¬ (ticks slept.length).Advanced j) :
    (busyWait status ticks).Reachable ⟨.sleeping sleepTicks i, t, n, slept⟩ := by
  induction i with
  | zero => exact h
  | succ i ih =>
      have hreach := ih fun j hj => hbefore j (Nat.lt_succ_of_lt hj)
      have hstep := @waitStep_sleeping status ticks ⟨.sleeping sleepTicks i, t, n, slept⟩ i _ rfl
      by_cases htest : (ticks slept.length).elapsed i < sleepTicks
      · rw [if_pos htest] at hstep
        exact hreach.next (i := ()) hstep
      · rw [if_neg htest] at hstep
        have hover := hbudget _ (hreach.next (i := ()) hstep)
        have hfirst := hover.slept slept.length i List.getElem?_concat_length
        exact absurd hfirst.1 (hbefore i (Nat.lt_succ_self i))

/-- The test that finds it gone on is the last. -/
theorem last_test (h : (busyWait status ticks).Reachable ⟨.sleeping sleepTicks i, t, n, slept⟩)
    (hadvanced : (ticks slept.length).Advanced i) :
    ¬ (ticks slept.length).elapsed i < sleepTicks := by
  intro htest
  have hstep := @waitStep_sleeping status ticks ⟨.sleeping sleepTicks i, t, n, slept⟩ i _ rfl
  rw [if_pos htest] at hstep
  have hnext := hbudget _ (h.next (i := ()) hstep)
  exact hnext.asleep _ _ rfl i (Nat.lt_succ_self i) hadvanced

/-- A sleep in which the counter goes on is over. -/
theorem reach_wake (h : (busyWait status ticks).Reachable ⟨.sleeping sleepTicks 0, t, n, slept⟩)
    (hadvances : (ticks slept.length).Advances) :
    ∃ i, (busyWait status ticks).Reachable ⟨.loop, t, n, slept ++ [i]⟩ := by
  classical
  let i := Nat.find hadvances
  have hreach := reach_test hbudget h (fun j hj => Nat.find_min hadvances hj)
  have hlast := last_test hbudget hreach (Nat.find_spec hadvances)
  have hstep := @waitStep_sleeping status ticks ⟨.sleeping sleepTicks i, t, n, slept⟩ i _ rfl
  rw [if_neg hlast] at hstep
  exact ⟨i, hreach.next (i := ()) hstep⟩

/-- While the disk is busy and the counter goes on, poll follows poll. -/
theorem reach_poll (hn : n ≤ 3000)
    (hbusy : ∀ k < n, Busy status k ∧ (ticks k).Advances) :
    ∃ s, (busyWait status ticks).Reachable s ∧ s.pc = .loop ∧ s.polls = n
      ∧ s.slept.length = n := by
  induction n with
  | zero => exact ⟨_, System.reachable_init rfl, rfl, rfl, rfl⟩
  | succ n ih =>
      obtain ⟨s, hreach, hpc, rfl, hlen⟩ := ih (by omega) fun k hk => hbusy k (Nat.lt_succ_of_lt hk)
      obtain ⟨hdisk, hadvances⟩ := hbusy s.polls (Nat.lt_succ_self _)
      rw [← hlen] at hadvances
      obtain ⟨i, hwake⟩ := reach_wake hbudget
        (reach_sleep hreach hpc (by omega) hdisk) hadvances
      refine ⟨_, hwake, rfl, rfl, ?_⟩
      rw [List.length_append, hlen, List.length_singleton]

theorem timely_of_onBudget : Timely status ticks := by
  constructor
  · -- the poll that is one too many
    intro hall
    obtain ⟨s, hreach, hpc, hpolls, -⟩ := reach_poll hbudget (Nat.le_refl 3000) hall
    obtain ⟨-, hready, hbusy⟩ := @waitStep_loop status ticks s hpc
    have hlimit := limit_left hreach hpc (Nat.le_of_eq hpolls)
    by_cases hdisk : Busy status s.polls
    · have hover := (hbudget _ (hreach.next (i := ()) (hbusy hlimit hdisk))).polls
      dsimp only at hover
      omega
    · have hover := (hbudget _ (hreach.next (i := ()) (hready hlimit hdisk))).polls
      dsimp only at hover
      omega
  · intro k hk hbusy hadvances
    obtain ⟨s, hreach, hpc, rfl, hlen⟩ := reach_poll hbudget (Nat.le_of_lt hk)
      fun j hj => ⟨hbusy j (Nat.le_of_lt hj), hadvances j hj⟩
    have hsleep := reach_sleep hreach hpc (Nat.le_of_lt hk) (hbusy _ (Nat.le_refl _))
    rw [← hlen] at hsleep ⊢
    constructor
    · intro hzero
      have hstep := @waitStep_sleeping status ticks
        ⟨.sleeping (ticks s.slept.length).uptime 0, s.timeLimit - 1, s.slept.length + 1, s.slept⟩
        0 _ rfl
      have hnot : ¬ (ticks s.slept.length).elapsed 0 < (ticks s.slept.length).uptime := by
        rw [hzero]
        exact UInt32.not_lt_zero
      rw [if_neg hnot] at hstep
      have hover := hbudget _ (hsleep.next (i := ()) hstep)
      exact (hover.slept s.slept.length 0 List.getElem?_concat_length).1
    · intro i hfirst
      have htest := last_test hbudget (reach_test hbudget hsleep hfirst.2) hfirst.1
      rw [UInt32.le_iff_toNat_le]
      rw [UInt32.lt_iff_toNat_lt] at htest
      omega

end Budget

/-- Every state of the run of `busy_wait` is on budget exactly if the run is
    timely. -/
theorem busyWait_onBudget_iff (status : Nat → UInt8) (ticks : Nat → TickReads) :
    (∀ s, (busyWait status ticks).Reachable s → OnBudget ticks s) ↔ Timely status ticks :=
  ⟨timely_of_onBudget, fun htimely _ h => onBudget_of_timely htimely h⟩

/-- A disk that is busy, and a counter that is at 1000 where the first sleep
    starts and goes on by a tick between two tests. -/
def lateTicks : Nat → TickReads := fun _ => ⟨1000, 1000, fun i => 1000 + UInt32.ofNat i⟩

/-- The sleep goes on behind the first tick. -/
theorem not_busyWait_onBudget :
    ¬ ∀ s, (busyWait (fun _ => 0x80) lateTicks).Reachable s → OnBudget lateTicks s := by
  intro hbudget
  have hstart : (busyWait (fun _ => 0x80) lateTicks).Reachable ⟨.loop, 30 * 1000, 0, []⟩ :=
    System.reachable_init rfl
  have hpoll : waitStep (fun _ => 0x80) lateTicks ⟨.loop, 30 * 1000, 0, []⟩
      = .ok (some ⟨.sleeping 1000 0, 29999, 1, []⟩) := by decide
  have htest : ∀ i < 2, waitStep (fun _ => 0x80) lateTicks ⟨.sleeping 1000 i, 29999, 1, []⟩
      = .ok (some ⟨.sleeping 1000 (i + 1), 29999, 1, []⟩) := by decide
  have hreach := ((hstart.next (i := ()) hpoll).next (i := ()) (htest 0 (by decide))).next
    (i := ()) (htest 1 (by decide))
  exact (hbudget _ hreach).asleep _ _ rfl 1 (by decide) (by unfold TickReads.Advanced; decide)

end Device
end JackOS
