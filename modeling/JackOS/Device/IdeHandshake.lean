/-
  JackOS.Device.IdeHandshake

  The handshake of threads, interrupt handler and disk.  The log of the channel
  is made of rounds: a command, one `sema_up`, and the return of the thread
  that gave the command from `sema_down`.  A thread is inside a round only
  while it has the mutex, so between two holders `disk_done` is 0 and no
  interrupt is expected (`ide_safe`).
-/

import JackOS.Device.Ide

namespace JackOS
namespace Device

open Base Thread

/-! ## Rounds -/

/-- How far the last round has come. -/
inductive DiskPhase (τ : Type) where
  /-- No command is outstanding. -/
  | idle
  /-- The thread's command is outstanding. -/
  | issued (t : τ)
  /-- The handler has made its `sema_up`. -/
  | raised (t : τ)

variable {τ : Type} [DecidableEq τ]

/-- What may follow in a round. -/
def DiskPhase.next : DiskPhase τ → DiskEvent τ → Option (DiskPhase τ)
  | .idle, .command t => some (.issued t)
  | .issued t, .up => some (.raised t)
  | .raised t, .down u => if u = t then some .idle else none
  | _, _ => none

/-- The phase after a log, if the log is made of rounds. -/
def phaseOf (log : List (DiskEvent τ)) : Option (DiskPhase τ) :=
  log.foldl (fun ph e => ph.bind fun ph => ph.next e) (some .idle)

theorem phaseOf_append (log : List (DiskEvent τ)) (e : DiskEvent τ) :
    phaseOf (log ++ [e]) = (phaseOf log).bind fun ph => ph.next e := by
  rw [phaseOf, List.foldl_append]
  rfl

/-- The handshake works: the log is made of rounds (at most one `sema_up` after
    each command, and each return from `sema_down` after the `sema_up` of the
    thread's own command), the value is 0 or 1, a round belongs to the holder of
    the mutex, and while nobody holds it nothing is pending. -/
structure ChannelOk (s : Channel τ) : Prop where
  value : s.value = 0 ∨ s.value = 1
  rounds : ∃ ph, phaseOf s.log = some ph ∧
    ∀ t, ph = .issued t ∨ ph = .raised t → s.mutex.holder = some t
  free : s.mutex.holder = none →
    s.value = 0 ∧ s.expectingIntr = false ∧ phaseOf s.log = some .idle

/-! ## The invariant -/

/-- The thread's command is outstanding. -/
def IdeCall.commanded (c : IdeCall) : Prop :=
  c.pc = .command ∨ c.pc = .down ∨ c.op = .write ∧ (c.pc = .busyWait ∨ c.pc = .transfer)

/-- Where a thread is in the mutex's functions, by its place in the call. -/
def AtPlace (c : IdeCall) (pc : MutexPc) (depth : Nat) : Prop :=
  match c.pc with
  | .outside => pc = .outside ∧ depth = 0
  | .acquiring => pc.acquires ∧ depth = 0
  | .releasing => pc.releases ∧ depth = 1
  | _ => pc = .outside ∧ depth = 1

/-- The state of a round of thread `t`. -/
def Round (s : Channel τ) (t : τ) (blocked : Bool) : Prop :=
  s.expectingIntr = true ∧ s.value = 0 ∧ phaseOf s.log = some (.issued t)
      ∧ s.waiters = (if blocked then [t] else [])
    ∨ s.expectingIntr = false ∧ s.value = 1 ∧ phaseOf s.log = some (.raised t) ∧ s.waiters = []
      ∧ blocked = false

/-- Nothing is pending. -/
structure Quiet (s : Channel τ) : Prop where
  expecting : s.expectingIntr = false
  value : s.value = 0
  waiters : s.waiters = []
  phase : phaseOf s.log = some .idle

/-- The invariant. -/
structure ChannelInv (s : Channel τ) : Prop where
  mutex : MutexInv s.mutex
  place : ∀ t, AtPlace (s.call t) (s.mutex.client t).pc (s.mutex.client t).depth
  blocked : ∀ t, (s.call t).blocked = true → (s.call t).pc = .down
  quiet : (∀ t, ¬ (s.call t).commanded) → Quiet s
  round : ∀ t, (s.call t).commanded → Round s t (s.call t).blocked

section Steps

variable {s s' : Channel τ} {t u : τ} {c : IdeCall}

omit [DecidableEq τ] in
theorem IdeCall.commanded.inside {c : IdeCall} {pc : MutexPc} {depth : Nat} (h : c.commanded)
    (hat : AtPlace c pc depth) : pc = .outside ∧ depth = 1 := by
  rcases h with h | h | ⟨-, h | h⟩ <;> simpa only [AtPlace, h] using hat

/-- A thread with a command has the mutex. -/
theorem ChannelInv.owns (h : ChannelInv s) (hc : (s.call t).commanded) :
    (s.mutex.client t).owns := by
  obtain ⟨-, hdepth⟩ := hc.inside (h.place t)
  exact .inl (by omega)

theorem ChannelInv.holder (h : ChannelInv s) (hc : (s.call t).commanded) :
    s.mutex.holder = some t := by
  obtain ⟨hpc, hdepth⟩ := hc.inside (h.place t)
  have hat := h.mutex.atPc t
  simp only [AtPc, hpc] at hat
  rcases hat with ⟨hzero, -⟩ | ⟨-, hholder, -⟩
  · omega
  · exact hholder

/-- One thread at most has a command outstanding. -/
theorem ChannelInv.unique (h : ChannelInv s) (ht : (s.mutex.client t).owns)
    (hu : (s.call u).commanded) : u = t :=
  h.mutex.excl u t (h.owns hu) ht

theorem ChannelInv.channelOk (h : ChannelInv s) : ChannelOk s := by
  by_cases hcmd : ∃ t, (s.call t).commanded
  · obtain ⟨t, ht⟩ := hcmd
    have hholder := h.holder ht
    have hfree : s.mutex.holder ≠ none := by
      rw [hholder]
      simp
    rcases h.round t ht with ⟨-, hv, hph, -⟩ | ⟨-, hv, hph, -, -⟩
    · refine ⟨.inl hv, ⟨_, hph, fun u hu => ?_⟩, fun hnone => absurd hnone hfree⟩
      rcases hu with hu | hu
      · cases hu
        exact hholder
      · cases hu
    · refine ⟨.inr hv, ⟨_, hph, fun u hu => ?_⟩, fun hnone => absurd hnone hfree⟩
      rcases hu with hu | hu
      · cases hu
      · cases hu
        exact hholder
  · have hquiet := h.quiet fun t ht => hcmd ⟨t, ht⟩
    refine ⟨.inl hquiet.value, ⟨_, hquiet.phase, fun t ht => ?_⟩,
      fun _ => ⟨hquiet.value, hquiet.expecting, hquiet.phase⟩⟩
    rcases ht with ht | ht <;> cases ht

/-- A step outside the rounds: one thread moves, and the mutex with it. -/
theorem ChannelInv.move {m : Mutex τ} (h : ChannelInv s) (hm : MutexInv m)
    (hother : ∀ u, u ≠ t → (m.client u).pc = (s.mutex.client u).pc
      ∧ (m.client u).depth = (s.mutex.client u).depth)
    (hno : ¬ (s.call t).commanded) (hc : ¬ c.commanded) (hblk : c.blocked = false)
    (hat : AtPlace c (m.client t).pc (m.client t).depth) :
    ChannelInv ({ s with mutex := m }.setCall t c) := by
  have hself : ({ s with mutex := m }.setCall t c).call t = c := Function.update_self ..
  have hcall : ∀ u, u ≠ t → ({ s with mutex := m }.setCall t c).call u = s.call u :=
    fun u hu => Function.update_of_ne hu _ _
  have hcmd : ∀ u, (({ s with mutex := m }.setCall t c).call u).commanded ↔
      (s.call u).commanded := by
    intro u
    by_cases hut : u = t
    · subst hut
      rw [hself]
      exact iff_of_false hc hno
    · rw [hcall u hut]
  refine ⟨hm, fun u => ?_, fun u hu => ?_, fun hnone => ?_, fun u hu => ?_⟩
  · by_cases hut : u = t
    · subst hut
      rw [hself]
      exact hat
    · rw [hcall u hut]
      obtain ⟨hpc, hdepth⟩ := hother u hut
      show AtPlace (s.call u) (m.client u).pc (m.client u).depth
      rw [hpc, hdepth]
      exact h.place u
  · by_cases hut : u = t
    · subst hut
      rw [hself, hblk] at hu
      cases hu
    · rw [hcall u hut] at hu ⊢
      exact h.blocked u hu
  · -- the move gives no command, so what was quiet stays quiet
    have hquiet := h.quiet fun u hu => hnone u ((hcmd u).2 hu)
    exact ⟨hquiet.expecting, hquiet.value, hquiet.waiters, hquiet.phase⟩
  · -- a round in progress belongs to another thread, and nothing of it moved
    have hut : u ≠ t := by
      rintro rfl
      rw [hself] at hu
      exact hc hu
    rw [hcmd] at hu
    rw [hcall u hut]
    exact h.round u hu

/-- A step of the thread whose round it is, which stays in its round or ends
    it. -/
theorem ChannelInv.inRound (h : ChannelInv s) (hown : (s.mutex.client t).owns)
    (hmutex : s'.mutex = s.mutex) (hcall : s'.call = Function.update s.call t c)
    (hat : AtPlace c (s.mutex.client t).pc (s.mutex.client t).depth)
    (hblk : c.blocked = true → c.pc = .down)
    (hquiet : ¬ c.commanded → Quiet s') (hround : c.commanded → Round s' t c.blocked) :
    ChannelInv s' := by
  have hself : s'.call t = c := by rw [hcall, Function.update_self]
  have hother : ∀ u, u ≠ t → s'.call u = s.call u := by
    intro u hu
    rw [hcall, Function.update_of_ne hu]
  refine ⟨hmutex ▸ h.mutex, fun u => ?_, fun u hu => ?_, fun hnone => ?_, fun u hu => ?_⟩
  · rw [hmutex]
    by_cases hut : u = t
    · subst hut
      rw [hself]
      exact hat
    · rw [hother u hut]
      exact h.place u
  · by_cases hut : u = t
    · subst hut
      rw [hself] at hu ⊢
      exact hblk hu
    · rw [hother u hut] at hu ⊢
      exact h.blocked u hu
  · -- only the thread whose round it is can have left it
    exact hquiet (hself ▸ hnone t)
  · by_cases hut : u = t
    · subst hut
      rw [hself] at hu ⊢
      exact hround hu
    · rw [hother u hut] at hu
      -- no other thread has a command while this one owns the mutex
      exact absurd (h.unique hown hu) hut

/-- A step of a thread that stays in its round. -/
theorem ChannelInv.stay (h : ChannelInv s) (hcmd : (s.call t).commanded)
    (hblk : (s.call t).blocked = false) (hc : c.commanded) (hcblk : c.blocked = false)
    (hat : AtPlace c (s.mutex.client t).pc (s.mutex.client t).depth) :
    ChannelInv (s.setCall t c) := by
  have hround := h.round t hcmd
  rw [hblk] at hround
  refine h.inRound (h.owns hcmd) rfl rfl hat ?_ ?_ ?_
  · rw [hcblk]
    intro hfalse
    cases hfalse
  · exact fun hno => absurd hc hno
  · rw [hcblk]
    exact fun _ => hround

/-- A step of a thread outside the rounds, which leaves the mutex alone. -/
theorem ChannelInv.moveLocal (h : ChannelInv s) (hno : ¬ (s.call t).commanded)
    (hc : ¬ c.commanded) (hblk : c.blocked = false)
    (hat : AtPlace c (s.mutex.client t).pc (s.mutex.client t).depth) :
    ChannelInv (s.setCall t c) :=
  h.move h.mutex (fun _ _ => ⟨rfl, rfl⟩) hno hc hblk hat

/-! ## Each step -/

/-- The step returns, and keeps the invariant. -/
def ChannelKeeps (call : Outcome (Channel τ)) : Prop := ∃ s', call = .ok s' ∧ ChannelInv s'

/-- An interrupt that is expected falls into a round that waits for it. -/
theorem ChannelInv.expecting (h : ChannelInv s) (hexp : s.expectingIntr = true) :
    ∃ t, (s.call t).commanded ∧ s.value = 0 ∧ phaseOf s.log = some (.issued t)
      ∧ s.waiters = (if (s.call t).blocked then [t] else []) := by
  -- else all is quiet, and no interrupt is expected
  have hcmd : ∃ t, (s.call t).commanded := by
    by_contra hnone
    have hquiet := h.quiet fun t ht => hnone ⟨t, ht⟩
    cases hexp.symm.trans hquiet.expecting
  obtain ⟨t, ht⟩ := hcmd
  rcases h.round t ht with ⟨-, hv, hph, hw⟩ | ⟨hno, -⟩
  · exact ⟨t, ht, hv, hph, hw⟩
  · rw [hexp] at hno
    cases hno

theorem intrHdHandler_keeps (h : ChannelInv s) : ChannelKeeps (intrHdHandler s) := by
  by_cases hexp : s.expectingIntr = true
  · obtain ⟨t, hcmd, hv, hph, hw⟩ := h.expecting hexp
    have hat := h.place t
    have hblocked := h.blocked t
    rw [intrHdHandler, if_pos hexp]
    have hreq : require (s.value = 0) = .ok () := require_pos hv
    have hone : (s.value + 1) % 2 ^ 8 = 1 := by omega
    have hphase : phaseOf (s.log ++ [DiskEvent.up]) = some (.raised t) := by
      rw [phaseOf_append, hph]
      rfl
    by_cases hblk : (s.call t).blocked = true
    · -- the thread waits in `sema_down`
      rw [hblk, if_pos rfl] at hw
      refine ⟨{ mutex := s.mutex, expectingIntr := false, value := (s.value + 1) % 2 ^ 8,
                waiters := [],
                call := Function.update s.call t { s.call t with blocked := false },
                log := s.log ++ [.up] }, ?_, ?_⟩
      · simp only [diskUp, hreq, Outcome.ok_bind, wakeDisk, hw, require_pos hblk,
          Channel.setBlocked, Channel.setCall, require_pos hone, Channel.record]
      · refine h.inRound (c := { s.call t with blocked := false }) (h.owns hcmd) rfl rfl hat ?_ ?_ ?_
        · intro hfalse
          cases hfalse
        · exact fun hno => absurd hcmd hno
        · exact fun _ => .inr ⟨rfl, hone, hphase, rfl, rfl⟩
    · -- the thread has not come to `sema_down` yet
      have hblk : (s.call t).blocked = false := by simpa using hblk
      rw [hblk, if_neg Bool.false_ne_true] at hw
      refine ⟨{ mutex := s.mutex, expectingIntr := false, value := (s.value + 1) % 2 ^ 8,
                waiters := s.waiters, call := s.call, log := s.log ++ [.up] }, ?_, ?_⟩
      · simp only [diskUp, hreq, Outcome.ok_bind, wakeDisk, hw, require_pos hone, Channel.record]
      · refine h.inRound (c := s.call t) (h.owns hcmd) rfl (Function.update_eq_self ..).symm hat
          hblocked ?_ ?_
        · exact fun hno => absurd hcmd hno
        · exact fun _ => .inr ⟨rfl, hone, hphase, hw, hblk⟩
  · -- nothing is expected: the interrupt is dropped
    refine ⟨s, ?_, h⟩
    rw [intrHdHandler, if_neg hexp]

theorem diskDown_keeps (h : ChannelInv s) (hpc : (s.call t).pc = .down)
    (hblk : (s.call t).blocked = false) : ChannelKeeps (diskDown t s) := by
  have hcmd : (s.call t).commanded := .inr (.inl hpc)
  have hat := h.place t
  obtain ⟨hin, hdepth⟩ := hcmd.inside hat
  rcases h.round t hcmd with ⟨hexp, hv, hph, hw⟩ | ⟨hexp, hv, hph, hw, -⟩
  · -- the interrupt has not come yet
    rw [hblk, if_neg Bool.false_ne_true] at hw
    refine ⟨{ s with waiters := s.waiters ++ [t] }.setBlocked t true, ?_, ?_⟩
    · rw [diskDown, if_pos hv, require_pos (by rw [hw]; exact List.not_mem_nil)]
      rfl
    · refine h.inRound (c := { s.call t with blocked := true }) (h.owns hcmd) rfl rfl hat ?_ ?_ ?_
      · exact fun _ => hpc
      · exact fun hno => absurd hcmd hno
      · refine fun _ => .inl ⟨hexp, hv, hph, ?_⟩
        show s.waiters ++ [t] = _
        rw [hw]
        rfl
  · -- it came before
    have hzero : s.value - 1 = 0 := by omega
    have hphase : phaseOf (s.log ++ [DiskEvent.down t]) = some .idle := by
      rw [phaseOf_append, hph]
      simp [DiskPhase.next]
    obtain ⟨pc, hnext, hcall⟩ : ∃ pc : IdePc,
        ((s.call t).op = .read ∧ pc = .busyWait ∨ (s.call t).op = .write ∧ pc = .count)
        ∧ diskDown t s = .ok (({ s with value := s.value - 1 }.record (.down t)).goto t pc) := by
      rw [diskDown, if_neg (by omega)]
      simp only [require_pos hzero, Outcome.ok_bind]
      cases (s.call t).op with
      | read => exact ⟨.busyWait, .inl ⟨rfl, rfl⟩, rfl⟩
      | write => exact ⟨.count, .inr ⟨rfl, rfl⟩, rfl⟩
    refine ⟨_, hcall, ?_⟩
    · have hno : ¬ ({ s.call t with pc := pc } : IdeCall).commanded := by
        rcases hnext with ⟨hop, rfl⟩ | ⟨hop, rfl⟩ <;> simp [IdeCall.commanded, hop]
      have hplace : AtPlace { s.call t with pc := pc } (s.mutex.client t).pc
          (s.mutex.client t).depth := by
        rcases hnext with ⟨-, rfl⟩ | ⟨-, rfl⟩ <;> simp [AtPlace, hin, hdepth]
      refine h.inRound (c := { s.call t with pc := pc }) (h.owns hcmd) rfl rfl hplace ?_ ?_ ?_
      · intro hcb
        exact absurd (hblk.symm.trans hcb) Bool.false_ne_true
      · exact fun _ => ⟨hexp, hzero, hw, hphase⟩
      · exact fun hc => absurd hc hno

/-- A thread outside the mutex's functions is not blocked on the mutex. -/
theorem ChannelInv.mutexFree (h : ChannelInv s) (hpc : (s.mutex.client t).pc = .outside) :
    (s.mutex.client t).blocked = false := by
  by_contra hblk
  have hdown := h.mutex.waiting t (by simpa using hblk)
  rw [hpc] at hdown
  cases hdown

theorem ideStart_keeps {op : IdeOp} {lba secCnt : Nat} (h : ChannelInv s)
    (hpc : (s.call t).pc = .outside) (hargs : lba ≤ maxLba ∧ 0 < secCnt) :
    ChannelKeeps (ideStart t op lba secCnt s) := by
  have hat := h.place t
  simp only [AtPlace, hpc] at hat
  obtain ⟨hout, hdepth⟩ := hat
  have hm := mutexAcquire_keeps h.mutex (h.mutexFree hout) hout (by omega)
  have hholder : s.mutex.holder ≠ some t := by
    have hat := h.mutex.atPc t
    simp only [AtPc, hout] at hat
    rcases hat with ⟨-, hholder⟩ | ⟨hpos, -⟩
    · exact hholder
    · omega
  have hacq : Thread.mutexAcquire t s.mutex = s.mutex.goto t .acqDown := by
    rw [Thread.mutexAcquire, if_pos hholder]
  refine ⟨_, by rw [ideStart, require_pos hargs.1, Outcome.ok_bind, require_pos hargs.2,
    Outcome.ok_bind], ?_⟩
  refine h.move hm (fun u hu => ?_) ?_ ?_ rfl ?_
  · rw [hacq, goto_other _ _ hu]
    exact ⟨rfl, rfl⟩
  · simp [IdeCall.commanded, hpc]
  · simp [IdeCall.commanded]
  · rw [hacq, goto_self]
    exact ⟨.inl rfl, hdepth⟩

/-- A thread in one of the mutex's functions goes on there. -/
theorem ideMutex_keeps (inside after : IdePc) (h : ChannelInv s)
    (hfree : (s.mutex.client t).blocked = false) (hblk : (s.call t).blocked = false)
    (hno : ¬ (s.call t).commanded)
    (hinside : ¬ ({ s.call t with pc := inside } : IdeCall).commanded)
    (hafter : ¬ ({ s.call t with pc := after } : IdeCall).commanded)
    (hplace : ∀ m, Thread.advance t s.mutex = .ok m →
      (m.client t).pc ≠ .outside
          ∧ AtPlace { s.call t with pc := inside } (m.client t).pc (m.client t).depth
        ∨ (m.client t).pc = .outside
          ∧ AtPlace { s.call t with pc := after } (m.client t).pc (m.client t).depth) :
    ChannelKeeps (do
      let m ← Thread.advance t s.mutex
      .ok ({ s with mutex := m }.goto t
        (if (m.client t).pc = MutexPc.outside then after else inside))) := by
  obtain ⟨m, hadv, hm⟩ := advance_keeps h.mutex hfree
  have hother := fun u (hu : u ≠ t) => advance_other hadv hu
  refine ⟨_, by rw [hadv, Outcome.ok_bind], ?_⟩
  rcases hplace m hadv with ⟨hpc, hat⟩ | ⟨hpc, hat⟩
  · rw [if_neg hpc]
    exact h.move (c := { s.call t with pc := inside }) hm hother hno hinside hblk hat
  · rw [if_pos hpc]
    exact h.move (c := { s.call t with pc := after }) hm hother hno hafter hblk hat

/-- `cmd_out` begins a round. -/
theorem expect_keeps (h : ChannelInv s) (hpc : (s.call t).pc = .expect)
    (hblk : (s.call t).blocked = false) :
    ChannelInv (({ s with expectingIntr := true }.record (.command t)).goto t .command) := by
  have hat := h.place t
  have hno : ¬ (s.call t).commanded := by simp [IdeCall.commanded, hpc]
  simp only [AtPlace, hpc] at hat
  have hown : (s.mutex.client t).owns := .inl (by omega)
  -- the thread owns the mutex, so no other has a command outstanding
  have hquiet : Quiet s := by
    apply h.quiet
    intro u hu
    exact hno (h.unique hown hu ▸ hu)
  refine h.inRound (c := { s.call t with pc := .command }) hown rfl rfl hat ?_ ?_ ?_
  · intro hcb
    exact absurd (hblk.symm.trans hcb) Bool.false_ne_true
  · exact fun hc => absurd (.inl rfl) hc
  · refine fun _ => .inl ⟨rfl, hquiet.value, ?_, ?_⟩
    · show phaseOf (s.log ++ [DiskEvent.command t]) = _
      rw [phaseOf_append, hquiet.phase]
      rfl
    · rw [hblk]
      exact hquiet.waiters

theorem ideAdvance_keeps {ready : Bool} (h : ChannelInv s)
    (hop : (ChannelOp.advance t ready).Legal s)
    (hgo : ¬ (ChannelOp.advance t ready).Stops s) : ChannelKeeps (ideAdvance t ready s) := by
  -- one case for each place of the call, in the order of the source
  obtain ⟨hcalled, hblk, hfree⟩ := hop
  have hat := h.place t
  rw [ChannelKeeps]
  cases hpc : (s.call t).pc with
  | outside => exact absurd hpc hcalled
  | acquiring =>
      simp only [AtPlace, hpc] at hat
      simp only [ideAdvance, hpc]
      refine ideMutex_keeps .acquiring .selectDisk h hfree hblk
        (by simp [IdeCall.commanded, hpc]) (by simp [IdeCall.commanded])
        (by simp [IdeCall.commanded]) fun m hadv => ?_
      rcases advance_acquires hadv hat.1 with ⟨hin, hdepth⟩ | ⟨hout, hdepth⟩
      · exact .inl ⟨acquires_ne_outside hin, hin, hdepth.trans hat.2⟩
      · exact .inr ⟨hout, hout, hdepth⟩
  | selectDisk =>
      simp only [AtPlace, hpc] at hat
      simp only [ideAdvance, hpc]
      refine ⟨_, rfl, ?_⟩
      exact h.moveLocal (c := { s.call t with pc := .test }) (by simp [IdeCall.commanded, hpc])
        (by simp [IdeCall.commanded]) hblk hat
  | test =>
      simp only [AtPlace, hpc] at hat
      simp only [ideAdvance, hpc]
      have hno : ¬ (s.call t).commanded := by simp [IdeCall.commanded, hpc]
      split
      · exact ⟨_, rfl, h.moveLocal hno (by simp [IdeCall.commanded]) hblk hat⟩
      · -- all chunks are done
        obtain ⟨m, hrel, hm⟩ := mutexRelease_keeps h.mutex hfree hat.1 (by omega)
        refine ⟨_, by rw [hrel, Outcome.ok_bind], ?_⟩
        obtain ⟨_, -, hrel⟩ := Outcome.bind_eq_ok.1 hrel
        cases hrel
        refine h.move (c := { s.call t with pc := .releasing }) hm (fun u hu => ?_) hno
          (by simp [IdeCall.commanded]) hblk ?_
        · rw [goto_other _ _ hu]
          exact ⟨rfl, rfl⟩
        · rw [goto_self]
          exact ⟨.inl rfl, hat.2⟩
  | selectSector =>
      simp only [AtPlace, hpc] at hat
      simp only [ideAdvance, hpc]
      -- the ASSERT of `select_sector`
      have hlba : ((s.call t).lba + (s.call t).secsDone) % 2 ^ 32 ≤ maxLba := by
        by_contra hover
        exact hgo (.inl ⟨hpc, hover⟩)
      simp only [require_pos hlba, Outcome.ok_bind]
      refine ⟨_, rfl, ?_⟩
      exact h.moveLocal (c := { s.call t with pc := .expect }) (by simp [IdeCall.commanded, hpc])
        (by simp [IdeCall.commanded]) hblk hat
  | expect =>
      simp only [ideAdvance, hpc]
      exact ⟨_, rfl, expect_keeps h hpc hblk⟩
  | command =>
      -- `ide_read` waits for the interrupt now, `ide_write` after the data
      have hcmd : (s.call t).commanded := .inl hpc
      simp only [AtPlace, hpc] at hat
      simp only [ideAdvance, hpc]
      cases hop : (s.call t).op with
      | read =>
          refine ⟨_, rfl, ?_⟩
          exact h.stay (c := { s.call t with pc := .down }) hcmd hblk (.inr (.inl rfl)) hblk hat
      | write =>
          refine ⟨_, rfl, ?_⟩
          exact h.stay (c := { s.call t with pc := .busyWait }) hcmd hblk
            (.inr (.inr ⟨hop, .inl rfl⟩)) hblk hat
  | down =>
      simp only [ideAdvance, hpc]
      exact diskDown_keeps h hpc hblk
  | busyWait =>
      simp only [AtPlace, hpc] at hat
      simp only [ideAdvance, hpc]
      -- a disk that never gets ready stops the kernel, which is not this step
      have hready : ready = true := by
        cases hr : ready with
        | true => rfl
        | false => exact absurd (.inr ⟨hpc, hr⟩) hgo
      simp only [require_pos hready, Outcome.ok_bind]
      refine ⟨_, rfl, ?_⟩
      cases hop : (s.call t).op with
      | read =>
          exact h.moveLocal (c := { s.call t with pc := .transfer })
            (by simp [IdeCall.commanded, hpc, hop]) (by simp [IdeCall.commanded, hop]) hblk hat
      | write =>
          exact h.stay (c := { s.call t with pc := .transfer }) (.inr (.inr ⟨hop, .inl hpc⟩)) hblk
            (.inr (.inr ⟨hop, .inr rfl⟩)) hblk hat
  | transfer =>
      simp only [AtPlace, hpc] at hat
      simp only [ideAdvance, hpc]
      cases hop : (s.call t).op with
      | read =>
          refine ⟨_, rfl, ?_⟩
          exact h.moveLocal (c := { s.call t with pc := .count })
            (by simp [IdeCall.commanded, hpc, hop]) (by simp [IdeCall.commanded]) hblk hat
      | write =>
          refine ⟨_, rfl, ?_⟩
          exact h.stay (c := { s.call t with pc := .down }) (.inr (.inr ⟨hop, .inr hpc⟩)) hblk
            (.inr (.inl rfl)) hblk hat
  | count =>
      simp only [AtPlace, hpc] at hat
      simp only [ideAdvance, hpc]
      refine ⟨_, rfl, ?_⟩
      exact h.moveLocal (by simp [IdeCall.commanded, hpc]) (by simp [IdeCall.commanded]) hblk hat
  | releasing =>
      simp only [AtPlace, hpc] at hat
      simp only [ideAdvance, hpc]
      refine ideMutex_keeps .releasing .outside h hfree hblk
        (by simp [IdeCall.commanded, hpc]) (by simp [IdeCall.commanded])
        (by simp [IdeCall.commanded]) fun m hadv => ?_
      rcases advance_releases h.mutex hadv hat.1 hat.2 with ⟨hin, hdepth⟩ | ⟨hout, hdepth⟩
      · exact .inl ⟨releases_ne_outside hin, hin, hdepth⟩
      · exact .inr ⟨hout, hout, hdepth⟩

/-! ## Every reachable state -/

theorem channelInv_init : ChannelInv (channelInit : Channel τ) := by
  refine ⟨mutexInv_init, fun t => ⟨rfl, rfl⟩, fun t ht => ?_, fun _ => ⟨rfl, rfl, rfl, rfl⟩,
    fun t ht => ?_⟩
  · cases ht
  · rcases ht with ht | ht | ⟨-, ht | ht⟩ <;> cases ht

theorem ChannelInv.step {op : ChannelOp τ} (h : ChannelInv s) (hop : op.Legal s)
    (hgo : ¬ op.Stops s) : ChannelKeeps (op.run s) := by
  cases op with
  | start t op lba secCnt => exact ideStart_keeps h hop (not_not.1 hgo)
  | advance t ready => exact ideAdvance_keeps h hop hgo
  | interrupt => exact intrHdHandler_keeps h

/-- A step that stops the kernel leads nowhere. -/
theorem not_stops_of_run {op : ChannelOp τ} (hop : op.Legal s) (hrun : op.run s = .ok s') :
    ¬ op.Stops s := by
  intro hstop
  cases op with
  | start t op lba secCnt =>
      obtain ⟨_, hlba, hrun⟩ := Outcome.bind_eq_ok.1 hrun
      obtain ⟨_, hcnt, -⟩ := Outcome.bind_eq_ok.1 hrun
      rw [require_eq_ok] at hlba hcnt
      exact hstop ⟨hlba, hcnt⟩
  | advance t ready =>
      simp only [ChannelOp.run, ideAdvance] at hrun
      rcases hstop with ⟨hpc, hover⟩ | ⟨hpc, hready⟩
      · simp only [hpc] at hrun
        obtain ⟨_, hlba, -⟩ := Outcome.bind_eq_ok.1 hrun
        rw [require_eq_ok] at hlba
        exact hover hlba
      · simp only [hpc] at hrun
        obtain ⟨_, hok, -⟩ := Outcome.bind_eq_ok.1 hrun
        rw [require_eq_ok, hready] at hok
        cases hok
  | interrupt => exact hstop

end Steps

theorem channelInv_reachable {s : Channel τ} (h : (channelSystem τ).Reachable s) :
    ChannelInv s := by
  apply h.invariant
  · rintro s rfl
    exact channelInv_init
  · rintro s op s' hs ⟨hlegal, hrun⟩
    obtain ⟨s₁, hcall, hs₁⟩ := hs.step hlegal (not_stops_of_run hlegal hrun)
    rw [hcall] at hrun
    exact Except.ok.inj hrun ▸ hs₁

/-- In every reachable state the handshake works, and no ASSERT of `sema_down`,
    `sema_up` or the mutex fails: each step that can happen returns, but for those
    at which `ide_read` and `ide_write` stop the kernel themselves. -/
theorem ide_safe {s : Channel τ} (h : (channelSystem τ).Reachable s) :
    ChannelOk s ∧ ∀ op : ChannelOp τ, op.Legal s → ¬ op.Stops s → ∃ s', op.run s = .ok s' := by
  have hinv := channelInv_reachable h
  refine ⟨hinv.channelOk, fun op hop hgo => ?_⟩
  obtain ⟨s', hrun, -⟩ := hinv.step hop hgo
  exact ⟨s', hrun⟩

/-- Thread `false` gives a command, thread `true` waits for the channel, and the
    interrupt comes before `sema_down`, which then does not block. -/
def earlyInterruptRun : List (ChannelOp Bool) :=
  .start false .read 7 1 :: List.replicate 4 (.advance false true)
    ++ [.start true .write 9 1, .advance true true]
    ++ List.replicate 5 (.advance false true) ++ [.interrupt, .advance false true]

theorem ide_safe_earlyInterrupt : ∃ s : Channel Bool,
    System.runSteps (fun s op => op.Legal s) ChannelOp.run earlyInterruptRun channelInit = .ok s
    ∧ s.log = [.command false, .up, .down false] ∧ s.value = 0
    ∧ (s.call false).pc = .busyWait ∧ (s.mutex.client true).blocked = true
    ∧ ChannelOk s
    ∧ ∀ op : ChannelOp Bool, op.Legal s → ¬ op.Stops s → ∃ s', op.run s = .ok s' := by
  have hend : (System.runSteps (fun s op => op.Legal s) ChannelOp.run earlyInterruptRun
      (channelInit : Channel Bool)).returns (fun s => decide (
        s.log = [.command false, .up, .down false] ∧ s.value = 0
        ∧ (s.call false).pc = .busyWait ∧ (s.mutex.client true).blocked = true)) = true := by
    decide +kernel
  obtain ⟨s, hrun, hfacts⟩ := Outcome.returns_iff.1 hend
  obtain ⟨hlog, hvalue, hpc, hblocked⟩ := of_decide_eq_true hfacts
  refine ⟨s, hrun, hlog, hvalue, hpc, hblocked, ide_safe ?_⟩
  exact System.Reachable.runSteps (M := channelSystem Bool)
    (fun _ _ _ hlegal hstep => ⟨hlegal, hstep⟩) (System.reachable_init rfl) hrun

end Device
end JackOS
