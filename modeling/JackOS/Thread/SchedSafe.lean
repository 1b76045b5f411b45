/-
  JackOS.Thread.SchedSafe

  Every operation of the scheduler keeps the invariant and meets its ASSERTs,
  and `thread_init` establishes it; with the invariant rule this holds in every
  reachable state.
-/

import JackOS.Thread.SchedInv

set_option linter.unusedSectionVars false

namespace JackOS
namespace Thread

open Base Base.LinkStore Lib

variable {κ ω : Type} [DecidableEq κ] [DecidableEq ω]
variable {s : Sched κ ω} {ls : ListName κ → List Pcb} {l : ListName κ} {t : Pcb} {ts : List Pcb}

/-- The call returns in a state that meets the invariant. -/
def Keeps (call : Outcome (Sched κ ω)) : Prop := ∃ s' ls', call = .ok s' ∧ SchedInv s' ls'

theorem SchedInv.keeps {call : Outcome (Sched κ ω)} {s' : Sched κ ω} (h : SchedInv s' ls)
    (hcall : call = .ok s') : Keeps call :=
  ⟨s', ls, hcall, h⟩

theorem SchedInv.cur_mem (h : SchedInv s ls) : s.cur ∈ ls .all := h.current h.runs

/-- Membership in `thread_all_list` does not depend on how the list is read. -/
theorem listed_iff (h : Lists s.links ls) : Listed s t ↔ t ∈ ls .all := by
  constructor
  · rintro ⟨xs, hxs, hmem⟩
    rw [hxs.unique (h.holds .all)] at hmem
    exact mem_nodes.1 hmem
  · exact fun hmem => ⟨nodes ls .all, h.holds .all, mem_nodes.2 hmem⟩

/-- A thread outside `thread_all_list` is on no list. -/
theorem Core.not_mem (h : Core s ls) (ht : t ∉ ls .all) (l : ListName κ) : t ∉ ls l := by
  intro hmem
  cases l with
  | ready => exact ht ((h.ready t).1 hmem).1
  | all => exact ht hmem
  | waiters k => exact ht (h.waiters k t hmem).1

/-! ## Ticks and interrupts -/

theorem intrTimerHandler_keeps (h : SchedInv s ls) : Keeps (intrTimerHandler s) := by
  by_cases htick : (s.tcb s.cur).thisTick = 0
  · rw [intrTimerHandler, if_pos htick]
    exact schedule_spec h.saveIntr rfl
  · rw [intrTimerHandler, if_neg htick]
    let s' := s.setTcb s.cur { s.tcb s.cur with thisTick := (s.tcb s.cur).thisTick - 1 }
    have hst : ∀ u, s'.status u = s.status u := fun u => status_setTcb_same s s.cur u rfl
    have hcore : Core s' ls := h.toCore.congr rfl hst rfl rfl rfl rfl
    exact SchedInv.keeps ⟨hcore, (hst s.cur).trans h.runs⟩ rfl

theorem setIntr_keeps (h : SchedInv s ls) (b : Bool) :
    Keeps (.ok (s.setIntr b) : Outcome (Sched κ ω)) :=
  SchedInv.keeps ⟨h.toCore.setIntr b, h.runs⟩ rfl

/-! ## Blocking -/

/-- The running thread gives up the CPU with the status `st`, after entering
    itself where it will be woken from. -/
theorem SchedInv.leave {s' : Sched κ ω} {ls' : ListName κ → List Pcb} {st : TaskStatus}
    (h : SchedInv s ls) (hst : st = .blocked ∨ st = .hanging ∨ st = .waiting)
    (hidle : s.cur = s.idleThread → st = .blocked) (hlists : Lists s'.links ls')
    (hall : ls' .all = ls .all) (hready : ls' .ready = ls .ready) (hcur : s'.cur = s.cur)
    (hidl : s'.idleThread = s.idleThread) (hlog : s'.idleWakes = s.idleWakes)
    (hs : ∀ u, s'.status u = if u = s.cur then st else s.status u)
    (hwait : ∀ k u, u ∈ ls' (.waiters k) →
      u ∈ ls (.waiters k) ∨ u = s.cur ∧ st = .blocked ∧ s.cur ≠ s.idleThread)
    (hslot : ∀ w u, s'.waiter w = some u → s.waiter w = some u
      ∨ u = s.cur ∧ st = .blocked ∧ s.cur ≠ s.idleThread ∧ ∀ k, s.cur ∉ ls' (.waiters k))
    (hinj : ∀ w w' u, s'.waiter w = some u → s'.waiter w' = some u → w = w') :
    Core s' ls' := by
  obtain ⟨hr, hk, hw⟩ := h.toCore.running_free h.runs
  have hne : st ≠ .running ∧ st ≠ .ready := by
    rcases hst with rfl | rfl | rfl <;> simp
  refine h.move h.cur_mem hlists hall hidl hs (fun u => ?_) (fun u hu hru => ?_)
    (fun k u hu => ?_) (fun w u hwu => ?_) hinj (fun heq => .inr (.inr (hidle heq))) (fun hru => ?_)
    (hlog ▸ h.wakes)
  · rw [hready]
    by_cases hu : u = s.cur
    · simp [hu, hr, hne.2]
    · simp [hu]
  · rw [hs] at hru
    split at hru
    · exact absurd hru hne.1
    · exact hcur ▸ h.running u hu hru
  · rcases hwait k u hu with hold | hnew
    · exact .inl ⟨fun heq => hk k (heq ▸ hold), hold⟩
    · exact .inr hnew
  · rcases hslot w u hwu with hold | hnew
    · exact .inl ⟨fun heq => hw w (heq ▸ hold), hold⟩
    · exact .inr hnew
  · rw [hs, hcur, if_pos rfl] at hru
    exact absurd hru hne.1

/-- `thread_block` comes back in a state that meets the invariant when its
    caller left the lists in order. -/
theorem threadBlock_keeps {st : TaskStatus} (hst : st = .blocked ∨ st = .hanging ∨ st = .waiting)
    (h : Core (s.saveIntr.setStatus s.cur st) ls) : Keeps (threadBlock st s) := by
  rw [threadBlock, require_pos hst]
  exact schedule_spec h rfl

theorem status_blocked (s : Sched κ ω) (st : TaskStatus) (u : Pcb) :
    (s.saveIntr.setStatus s.cur st).status u = if u = s.cur then st else s.status u := by
  rw [status_setStatus, status_saveIntr]

/-- Blocking on no list: `idle`, `sys_wait` and `sys_exit`. -/
theorem threadBlock_plain {st : TaskStatus} (h : SchedInv s ls)
    (hst : st = .blocked ∨ st = .hanging ∨ st = .waiting)
    (hidle : s.cur = s.idleThread → st = .blocked) : Keeps (threadBlock st s) := by
  apply threadBlock_keeps hst
  exact h.leave hst hidle h.lists rfl rfl rfl rfl rfl (status_blocked s st)
    (fun _ _ hu => .inl hu) (fun _ _ hw => .inl hw) h.slotInj

theorem semaBlock_keeps (h : SchedInv s ls) (hidle : s.cur ≠ s.idleThread) (k : κ) :
    Keeps (semaBlock k s) := by
  obtain ⟨hr, hk, hw⟩ := h.toCore.running_free h.runs
  let s₁ := (s.setIntr false).append (.waiters k) (node (.waiters k) s.cur)
  have habs : assertAbsent (s.setIntr false) (.waiters k) (.generalTag s.cur) = .ok () :=
    (h.toCore.setIntr false).lists.assertAbsent (hk k)
  have hcall : semaBlock k s = threadBlock .blocked s₁ := by
    show (assertAbsent (s.setIntr false) (.waiters k) (.generalTag s.cur) >>= _) = _
    rw [habs]
    rfl
  have hlists : Lists s₁.links (Function.update ls (.waiters k) (ls (.waiters k) ++ [s.cur])) := by
    refine Lists.append (s := s.setIntr false) h.lists fun l' hl' => ?_
    cases l' with
    | ready => exact hr
    | all => exact absurd (hl'.1 rfl) (by simp)
    | waiters k' => exact hk k'
  rw [hcall]
  apply threadBlock_keeps (.inl rfl)
  refine h.leave (.inl rfl) (fun _ => rfl) hlists (update_all (by simp)) (update_ready (by simp))
    rfl rfl rfl (status_blocked s₁ .blocked) (fun k' u hu => ?_) (fun _ _ hwu => .inl hwu) h.slotInj
  by_cases hkk : k' = k
  · subst hkk
    rw [Function.update_self, List.mem_append, List.mem_singleton] at hu
    exact hu.imp id fun heq => ⟨heq, rfl, hidle⟩
  · rw [Function.update_of_ne (by simpa using hkk)] at hu
    exact .inl hu

theorem ioqWait_keeps {w : ω} (h : SchedInv s ls) (hidle : s.cur ≠ s.idleThread)
    (hfree : s.waiter w = none) : Keeps (ioqWait w s) := by
  obtain ⟨-, hk, hslots⟩ := h.toCore.running_free h.runs
  have hget : ∀ w' u, (s.setWaiter w (some s.cur)).waiter w' = some u →
      w' = w ∧ u = s.cur ∨ w' ≠ w ∧ s.waiter w' = some u := by
    intro w' u hwu
    rw [waiter_setWaiter] at hwu
    split at hwu
    · exact .inl ⟨‹_›, (Option.some.inj hwu).symm⟩
    · exact .inr ⟨‹_›, hwu⟩
  rw [ioqWait, require_pos hfree]
  apply threadBlock_keeps (.inl rfl)
  refine h.leave (.inl rfl) (fun _ => rfl) h.lists rfl rfl rfl rfl rfl
    (status_blocked (s.setWaiter w (some s.cur)) .blocked) (fun _ _ hu => .inl hu)
    (fun w' u hwu => ?_) (fun w₁ w₂ u h₁ h₂ => ?_)
  · rcases hget w' u hwu with ⟨-, rfl⟩ | ⟨-, hold⟩
    · exact .inr ⟨rfl, rfl, hidle, hk⟩
    · exact .inl hold
  · -- the current thread is in no other field
    rcases hget w₁ u h₁ with ⟨hw₁, hu₁⟩ | ⟨-, h₁⟩ <;> rcases hget w₂ u h₂ with ⟨hw₂, hu₂⟩ | ⟨-, h₂⟩
    · rw [hw₁, hw₂]
    · exact absurd (hu₁ ▸ h₂) (hslots w₂)
    · exact absurd (hu₂ ▸ h₁) (hslots w₁)
    · exact h.slotInj w₁ w₂ u h₁ h₂

theorem threadYield_keeps (h : SchedInv s ls) : Keeps (threadYield s) := by
  have habs : assertAbsent s.saveIntr .ready (.generalTag s.cur) = .ok () :=
    h.saveIntr.lists.assertAbsent (h.toCore.running_free h.runs).1
  let s₁ := (s.saveIntr.append .ready (.generalTag s.cur)).setStatus s.cur .ready
  have hst : ∀ u, s₁.status u = if u = s.cur then .ready else s.status u := by
    intro u
    rw [status_setStatus, status_append, status_saveIntr]
  have hcore : Core s₁ _ := h.toCore.requeue h.runs rfl rfl rfl rfl rfl hst
  rw [threadYield, habs]
  exact schedule_spec hcore rfl

/-! ## Waking -/

theorem SchedInv.woken (h : SchedInv s ls) (ht : Wakeable s ls t) :
    SchedInv (woken s t) (Function.update ls .ready (t :: ls .ready)) := by
  refine ⟨h.toCore.woken ht, ?_⟩
  have hne : s.cur ≠ t := by
    rintro rfl
    rcases ht.status with hst | hst | hst <;> rw [h.runs] at hst <;> cases hst
  show (Thread.woken s t).status s.cur = .running
  rw [Thread.woken, status_setStatus, if_neg hne]
  exact h.runs

theorem threadUnblock_keeps (h : SchedInv s ls) (ht : Wakeable s ls t) :
    Keeps (threadUnblock t s) :=
  (h.woken ht).keeps (threadUnblock_eq h.lists ht.status (ht.not_ready h.toCore))

/-- Taking the first waiter off a semaphore's list. -/
theorem SchedInv.popWaiter {k : κ} (h : SchedInv s ls) (hl : ls (.waiters k) = t :: ts) :
    SchedInv (s.setLinks (listPop tags s.links (anchor (.waiters k))).2)
        (Function.update ls (.waiters k) ts)
      ∧ Wakeable (s.setLinks (listPop tags s.links (anchor (.waiters k))).2)
        (Function.update ls (.waiters k) ts) t := by
  have hmem : t ∈ ls (.waiters k) := by simp [hl]
  obtain ⟨hall, hblk, hidle⟩ := h.waiters k t hmem
  have hnd := h.lists.nodup (.waiters k)
  rw [hl, List.nodup_cons] at hnd
  have hget : ∀ k' u, u ∈ Function.update ls (.waiters k) ts (.waiters k') →
      u ≠ t ∧ u ∈ ls (.waiters k') := by
    intro k' u hu
    by_cases hkk : k' = k
    · subst hkk
      rw [Function.update_self] at hu
      exact ⟨fun heq => hnd.1 (heq ▸ hu), by simp [hl, hu]⟩
    · have hne : ListName.waiters k' ≠ .waiters k := by simpa using hkk
      rw [Function.update_of_ne hne] at hu
      refine ⟨?_, hu⟩
      rintro rfl
      exact h.lists.not_mem_other hne (by simp) (by simp) hu hmem
  have hslot : ∀ w, s.waiter w ≠ some t := fun w hw => (h.slots w t hw).2.2.2 k hmem
  have hcore : Core (s.setLinks (listPop tags s.links (anchor (.waiters k))).2)
      (Function.update ls (.waiters k) ts) := by
    have hst : ∀ u, s.status u = if u = t then .blocked else s.status u := by
      intro u
      split
      · rename_i heq
        rw [heq]
        exact hblk
      · rfl
    refine h.move hall (h.lists.pop hl).2 (update_all (by simp)) rfl hst (fun u => ?_) h.running (fun k' u hu => .inl (hget k' u hu))
      (fun w u hw => .inl ⟨fun heq => hslot w (heq ▸ hw), hw⟩) h.slotInj
      (fun _ => .inr (.inr rfl)) h.current h.wakes
    rw [update_ready (by simp)]
    split
    · rename_i heq
      rw [heq]
      simpa using h.toCore.not_ready (t := t) (by simp [hblk])
    · rfl
  refine ⟨⟨hcore, h.runs⟩, ?_, .inl hblk, fun k' hu => (hget k' t hu).1 rfl, hslot⟩
  rwa [update_all (by simp)]

theorem semaWake_keeps (h : SchedInv s ls) (k : κ) : Keeps (semaWake k s) := by
  rcases hl : ls (.waiters k) with _ | ⟨t, ts⟩
  · apply h.keeps
    rw [semaWake, h.lists.listEmpty, if_pos (decide_eq_true hl)]
  · obtain ⟨hinv, hwake⟩ := h.popWaiter hl
    have hpop := (h.lists.pop hl).1
    have hcall : semaWake k s = threadUnblock t
        (s.setLinks (listPop tags s.links (anchor (.waiters k))).2) := by
      rw [semaWake, h.lists.listEmpty, if_neg (by simp [hl])]
      simp only [hpop]
      rfl
    rw [hcall]
    exact threadUnblock_keeps hinv hwake

theorem ioqWakeup_keeps {w : ω} (h : SchedInv s ls) (hw : s.waiter w ≠ none) :
    Keeps (ioqWakeup w s) := by
  obtain ⟨t, ht⟩ := Option.ne_none_iff_exists'.1 hw
  obtain ⟨hall, hblk, hidle, hk⟩ := h.slots w t ht
  have hget : ∀ w' u, (s.setWaiter w none).waiter w' = some u → u ≠ t ∧ s.waiter w' = some u := by
    intro w' u hwu
    rw [waiter_setWaiter] at hwu
    split at hwu
    · cases hwu
    · refine ⟨?_, hwu⟩
      rintro rfl
      exact ‹¬ w' = w› (h.slotInj w' w u hwu ht)
  -- clearing the field first gives the same state
  have hcore : Core (s.setWaiter w none) ls :=
    { h with
      slots := fun w' u hwu => h.slots w' u (hget w' u hwu).2
      slotInj := fun w₁ w₂ u h₁ h₂ => h.slotInj w₁ w₂ u (hget w₁ u h₁).2 (hget w₂ u h₂).2 }
  have hinv : SchedInv (s.setWaiter w none) ls := ⟨hcore, h.runs⟩
  have hwake : Wakeable (s.setWaiter w none) ls t :=
    ⟨hall, .inl hblk, hk, fun w' hwu => (hget w' t hwu).1 rfl⟩
  apply (hinv.woken hwake).keeps
  have hcall := threadUnblock_eq h.lists (.inl hblk) (h.toCore.not_ready (t := t) (by simp [hblk]))
  simp only [ioqWakeup, ht, hcall, Outcome.ok_bind]
  rfl

theorem wakeParent_keeps (h : SchedInv s ls) (ht : t ∈ ls .all) : Keeps (wakeParent t s) := by
  by_cases hst : (s.tcb t).status = .waiting
  · rw [wakeParent, if_pos hst]
    have hst' : s.status t = .waiting := hst
    refine threadUnblock_keeps h ⟨ht, .inr (.inr hst), ?_, fun w hw => ?_⟩
    · exact h.toCore.not_waiting (by simp [hst'])
    · have hblk := (h.slots w t hw).2.1
      rw [hst'] at hblk
      cases hblk
  · rw [wakeParent, if_neg hst]
    exact h.keeps rfl

/-! ## Starting threads -/

/-- The lists with a new thread. -/
def enlisted (ls : ListName κ → List Pcb) (t : Pcb) : ListName κ → List Pcb :=
  Function.update (Function.update ls .ready (ls .ready ++ [t])) .all (ls .all ++ [t])

theorem enlist_eq (h : Lists s.links ls) (ht : ∀ l, t ∉ ls l) :
    ∃ links, enlist t s = .ok (s.setLinks links) ∧ Lists links (enlisted ls t) := by
  let s₁ := s.append .ready (node .ready t)
  have h₁ : Lists s₁.links (Function.update ls .ready (ls .ready ++ [t])) :=
    h.append fun l' _ => ht l'
  have hall : Function.update ls .ready (ls .ready ++ [t]) .all = ls .all := update_all (by simp)
  have habs₁ : assertAbsent s .ready (.generalTag t) = .ok () := h.assertAbsent (ht .ready)
  have habs₂ : assertAbsent s₁ .all (.allListTag t) = .ok () :=
    h₁.assertAbsent (l := .all) (by rw [hall]; exact ht .all)
  refine ⟨(s₁.append .all (node .all t)).links, ?_, ?_⟩
  · rw [enlist, habs₁]
    show (assertAbsent s₁ .all (.allListTag t) >>= _) = _
    rw [habs₂]
    rfl
  · rw [enlisted, ← hall]
    refine h₁.append fun l' hl' => ?_
    rw [hl'.2 rfl, hall]
    exact ht .all

theorem mem_enlisted_waiters {k : κ} {u : Pcb} :
    u ∈ enlisted ls t (.waiters k) ↔ u ∈ ls (.waiters k) := by
  rw [enlisted, Function.update_of_ne (by simp), Function.update_of_ne (by simp)]

theorem mem_enlisted_ready {u : Pcb} : u ∈ enlisted ls t .ready ↔ u ∈ ls .ready ∨ u = t := by
  rw [enlisted, Function.update_of_ne (by simp), Function.update_self, List.mem_append,
    List.mem_singleton]

theorem mem_enlisted_all {u : Pcb} : u ∈ enlisted ls t .all ↔ u ∈ ls .all ∨ u = t := by
  rw [enlisted, Function.update_self, List.mem_append, List.mem_singleton]

/-- A new PCB enters the lists as a ready thread. -/
theorem enlist_keeps {c : Tcb} (h : SchedInv s ls) (ht : t ∉ ls .all)
    (hc : c.status = .ready) : Keeps (enlist t ((clearTags s t).setTcb t c)) := by
  have hnew := h.toCore.not_mem ht
  obtain ⟨links, hcall, hlists⟩ := enlist_eq (s := (clearTags s t).setTcb t c)
    (h.lists.clearTags hnew) hnew
  let s' := ((clearTags s t).setTcb t c).setLinks links
  have hst : ∀ u, s'.status u = if u = t then .ready else s.status u := by
    intro u
    rw [status_setLinks, status_setTcb, hc]
    rfl
  have hold : ∀ u ∈ ls .all, s'.status u = s.status u := by
    intro u hu
    rw [hst, if_neg]
    rintro rfl
    exact ht hu
  refine ⟨s', enlisted ls t, hcall, ⟨hlists, fun u => ?_, fun u hu hru => ?_, fun k u hu => ?_,
    fun w u hw => ?_, h.slotInj, ?_, ?_, fun hru => ?_, h.wakes⟩, ?_⟩
  · rw [mem_enlisted_ready, mem_enlisted_all, hst]
    by_cases hu : u = t
    · simp [hu]
    · simp only [hu, or_false, if_false]
      exact h.ready u
  · rcases mem_enlisted_all.1 hu with hu | rfl
    · exact h.running u hu (hold u hu ▸ hru)
    · rw [hst, if_pos rfl] at hru
      cases hru
  · obtain ⟨h₁, h₂, h₃⟩ := h.waiters k u (mem_enlisted_waiters.1 hu)
    exact ⟨mem_enlisted_all.2 (.inl h₁), (hold u h₁).trans h₂, h₃⟩
  · obtain ⟨h₁, h₂, h₃, h₄⟩ := h.slots w u hw
    exact ⟨mem_enlisted_all.2 (.inl h₁), (hold u h₁).trans h₂, h₃,
      fun k hk => h₄ k (mem_enlisted_waiters.1 hk)⟩
  · exact mem_enlisted_all.2 (.inl h.idleListed)
  · have hidle := hold s.idleThread h.idleListed
    show s'.status s.idleThread = _ ∨ s'.status s.idleThread = _ ∨ s'.status s.idleThread = _
    rw [hidle]
    exact h.idleStatus
  · exact mem_enlisted_all.2 (.inl h.cur_mem)
  · exact (hold s.cur h.cur_mem).trans h.runs

theorem threadStart_keeps (h : SchedInv s ls) (ht : t ∉ ls .all) (hmain : t ≠ s.mainThread)
    (n : Nat) : Keeps (threadStart t n s) :=
  enlist_keeps h ht (if_neg hmain)

theorem sysFork_keeps (h : SchedInv s ls) (ht : t ∉ ls .all) : Keeps (sysFork t s) :=
  enlist_keeps h ht rfl

/-! ## Ending threads -/

/-- A running or hanging thread leaves the system. -/
theorem Core.gone {s' : Sched κ ω} {ts₁ ts₂ : List Pcb} (h : Core s ls)
    (hl : ls .all = ts₁ ++ t :: ts₂) (hst : s.status t = .running ∨ s.status t = .hanging)
    (hidle : t ≠ s.idleThread) (hlinks : s'.links = (s.remove (node .all t)).links)
    (hcur : s'.cur = s.cur) (hidl : s'.idleThread = s.idleThread) (hw : s'.waiter = s.waiter)
    (hlog : s'.idleWakes = s.idleWakes)
    (hs : ∀ u, s'.status u = if u = t then .died else s.status u) :
    Core s' (Function.update ls .all (ts₁ ++ ts₂)) := by
  have hnd := h.lists.nodup .all
  rw [hl, List.nodup_append, List.nodup_cons] at hnd
  have hmem : ∀ u, u ∈ ts₁ ++ ts₂ ↔ u ∈ ls .all ∧ u ≠ t := by
    intro u
    rw [hl]
    simp only [List.mem_append, List.mem_cons]
    constructor
    · rintro (hu | hu)
      · exact ⟨.inl hu, hnd.2.2 u hu t (by simp)⟩
      · exact ⟨.inr (.inr hu), fun heq => hnd.2.1.1 (heq ▸ hu)⟩
    · rintro ⟨hu | hu | hu, hne⟩
      · exact .inl hu
      · exact absurd hu hne
      · exact .inr hu
  have hne : ∀ u, s.status u = .ready ∨ s.status u = .blocked → u ≠ t := by
    rintro u hu rfl
    rcases hst with hst | hst <;> rw [hst] at hu <;> simp at hu
  have hother : ∀ l, l ≠ .all → Function.update ls .all (ts₁ ++ ts₂) l = ls l :=
    fun l hl => Function.update_of_ne hl _ _
  refine ⟨hlinks ▸ h.lists.remove hl, fun u => ?_, fun u hu hru => ?_, fun k u hu => ?_,
    fun w u hwu => ?_, hw ▸ h.slotInj, ?_, ?_, fun hru => ?_, hlog ▸ h.wakes⟩
  · rw [hother _ (by simp), Function.update_self, hmem, hs]
    by_cases hut : u = t
    · subst hut
      simpa using h.not_ready (by rcases hst with hst | hst <;> simp [hst])
    · simp only [hut, if_false, ne_eq, not_false_eq_true, and_true]
      exact h.ready u
  · rw [Function.update_self, hmem] at hu
    rw [hs, if_neg hu.2] at hru
    exact hcur ▸ h.running u hu.1 hru
  · rw [hother _ (by simp)] at hu
    obtain ⟨h₁, h₂, h₃⟩ := h.waiters k u hu
    rw [Function.update_self, hmem, hs, if_neg (hne u (.inr h₂)), hidl]
    exact ⟨⟨h₁, hne u (.inr h₂)⟩, h₂, h₃⟩
  · rw [hw] at hwu
    obtain ⟨h₁, h₂, h₃, h₄⟩ := h.slots w u hwu
    rw [Function.update_self, hmem, hs, if_neg (hne u (.inr h₂)), hidl]
    refine ⟨⟨h₁, hne u (.inr h₂)⟩, h₂, h₃, fun k hk => h₄ k ?_⟩
    rwa [hother _ (by simp)] at hk
  · rw [Function.update_self, hmem, hidl]
    exact ⟨h.idleListed, hidle.symm⟩
  · rw [hidl, hs, if_neg hidle.symm]
    exact h.idleStatus
  · rw [hs, hcur] at hru
    rw [Function.update_self, hmem, hcur]
    split at hru
    · cases hru
    · exact ⟨h.current hru, ‹_›⟩

/-- `thread_exit` up to the call of `schedule`. -/
theorem threadExit_core {b : Bool} (h : Core s ls) (ht : t ∈ ls .all)
    (hst : s.status t = .running ∨ s.status t = .hanging) (hidle : t ≠ s.idleThread) :
    ∃ s' ls', threadExit t b s = (if b then schedule s' else .ok s') ∧ Core s' ls'
      ∧ s'.intrOn = false ∧ s'.cur = s.cur
      ∧ ∀ u, s'.status u = if u = t then .died else s.status u := by
  obtain ⟨ts₁, ts₂, hl⟩ := List.append_of_mem ht
  let s₁ := (s.setIntr false).setStatus t .died
  have hs : ∀ u, s₁.status u = if u = t then .died else s.status u :=
    fun u => status_setStatus _ _ _ _
  have hfind : s₁.find .ready (.generalTag t) = .ok false := by
    have := Lists.find (s := s₁) h.lists .ready t
    rwa [decide_eq_false (h.not_ready (by rcases hst with hst | hst <;> simp [hst]))] at this
  have hdrop : dropReady t s₁ = .ok s₁ := by
    rw [dropReady, hfind]
    rfl
  refine ⟨s₁.remove (.allListTag t), _, ?_,
    h.gone hl hst hidle rfl rfl rfl rfl rfl hs, rfl, rfl, hs⟩
  show (dropReady t s₁ >>= _) = _
  rw [hdrop]
  rfl

theorem exit_keeps (h : SchedInv s ls) (hidle : s.cur ≠ s.idleThread) :
    Keeps (threadExit s.cur true s) := by
  obtain ⟨s', ls', hcall, hcore, hintr, -, -⟩ :=
    threadExit_core (b := true) h.toCore h.cur_mem (.inl h.runs) hidle
  rw [hcall]
  exact schedule_spec hcore hintr

theorem exitChild_keeps (h : SchedInv s ls) (ht : t ∈ ls .all) (hst : s.status t = .hanging) :
    Keeps (threadExit t false s) := by
  have hidle : t ≠ s.idleThread := by
    rintro rfl
    have := h.idleStatus
    simp [hst] at this
  obtain ⟨s', ls', hcall, hcore, -, hcur, hs⟩ :=
    threadExit_core (b := false) h.toCore ht (.inr hst) hidle
  refine SchedInv.keeps ⟨hcore, ?_⟩ hcall
  have hne : s.cur ≠ t := by
    rintro rfl
    rw [h.runs] at hst
    cases hst
  rw [hs, hcur, if_neg hne]
  exact h.runs

/-! ## Every step -/

theorem SchedInv.step (h : SchedInv s ls) {op : SchedOp κ ω} (hop : op.Legal s) :
    Keeps (op.run s) := by
  cases op with
  | tick => exact intrTimerHandler_keeps h
  | intr b => exact setIntr_keeps h b
  | start t n => exact threadStart_keeps h (fun ht => hop.1 ((listed_iff h.lists).2 ht)) hop.2 n
  | fork t => exact sysFork_keeps h fun ht => hop.1 ((listed_iff h.lists).2 ht)
  | idleBlock => exact threadBlock_plain h (.inl rfl) fun _ => rfl
  | semaBlock k => exact semaBlock_keeps h hop k
  | ioqWait w => exact ioqWait_keeps h hop.1 hop.2
  | wait => exact threadBlock_plain h (.inr (.inr rfl)) fun heq => absurd heq hop
  | hang => exact threadBlock_plain h (.inr (.inl rfl)) fun heq => absurd heq hop
  | yield => exact threadYield_keeps h
  | semaWake k => exact semaWake_keeps h k
  | ioqWakeup w => exact ioqWakeup_keeps h hop
  | wakeParent t => exact wakeParent_keeps h ((listed_iff h.lists).1 hop)
  | exit => exact exit_keeps h hop
  | exitChild t => exact exitChild_keeps h ((listed_iff h.lists).1 hop.1) hop.2

/-! ## thread_init -/

/-- Initialising the two lists leaves all lists empty. -/
theorem lists_init {first idle : Pcb} (h : BootOk s first idle) :
    Lists (listInit tags (listInit tags s.links (anchor .all)) (anchor .ready))
      (fun _ : ListName κ => []) := by
  have hinit : ∀ (L : Links (Node κ)) (l : ListName κ), tags.Holds (listInit tags L (anchor l))
      (anchor l) [] ∧ Edits tags {.head l, .tail l} L (listInit tags L (anchor l)) := by
    intro L l
    apply listInit_spec
    · exact fun heq => (by cases heq)
    · exact ⟨trivial, fun heq => (by cases heq)⟩
    · exact ⟨trivial, fun heq => (by cases heq)⟩
  have hsep : ∀ {l l' : ListName κ}, l ≠ l' → ∀ x ∈ ({.head l, .tail l} : Set (Node κ)),
      ∀ z ∈ (anchor l').nodes [], x ≠ z := by
    rintro l l' hne x (rfl | rfl) z hz rfl
    all_goals simp [anchor, hne] at hz
  refine ⟨fun l => ?_, fun l l' hne x hx y hy => ?_⟩
  · have hready := hinit (listInit tags s.links (anchor .all)) .ready
    cases l with
    | ready => exact hready.1
    | all => exact (hinit s.links .all).1.edits hready.2 (hsep (by simp))
    | waiters k =>
        have hall := (h.waiters k).edits (hinit s.links .all).2 (hsep (by simp))
        exact hall.edits hready.2 (hsep (by simp))
  · refine hsep hne x ?_ y hy
    simpa [nodes, anchor] using hx

theorem status_initThread (s : Sched κ ω) (t u : Pcb) (n : Nat) :
    (initThread t n s).status u
      = if u = t then (if t = s.mainThread then .running else .ready) else s.status u :=
  status_setTcb _ _ _ _

/-- The lists `thread_init` leaves. -/
def bootLists (first main idle : Pcb) : ListName κ → List Pcb
  | .ready => [first, idle]
  | .all => [first, main, idle]
  | .waiters _ => []

theorem enlisted_bootLists (first main idle : Pcb) :
    enlisted (Function.update (enlisted (fun _ : ListName κ => []) first) .all [first, main]) idle
      = bootLists first main idle := by
  funext l
  cases l <;> rfl

theorem threadInit_run {first idle : Pcb} (h : BootOk s first idle) :
    ∃ s', threadInit first idle s = .ok s' ∧ Lists s'.links (bootLists first s.cur idle)
      ∧ s'.cur = s.cur ∧ s'.idleThread = idle ∧ s'.waiter = s.waiter
      ∧ s'.idleWakes = s.idleWakes
      ∧ ∀ u, s'.status u = if u = idle then .ready else if u = s.cur then .running
        else if u = first then .ready else s.status u := by
  obtain ⟨hnoMain, ⟨hfirst₀, hfirst⟩, ⟨hidleFirst, hidle⟩, -, -, -⟩ := id h
  -- the first process
  let s₁ := (s.setLinks (listInit tags s.links (anchor .all))).setLinks
    (listInit tags (listInit tags s.links (anchor .all)) (anchor .ready))
  let ls₁ : ListName κ → List Pcb := enlisted (fun _ => []) first
  obtain ⟨links₁, hcall₁, hlists₁⟩ := enlist_eq (s := initThread first 31 s₁) (t := first)
    (Lists.clearTags (s := s₁) (lists_init h) (by simp)) (by simp)
  have hmem₁ : ∀ l u, u ∈ ls₁ l → u = first := by
    intro l u hu
    cases l with
    | ready => simpa using mem_enlisted_ready.1 hu
    | all => simpa using mem_enlisted_all.1 hu
    | waiters k => simpa using mem_enlisted_waiters.1 hu
  -- the main thread, which enters the list of all threads only
  let s₂ := (initThread first 31 s₁).setLinks links₁
  let s₃ := initThread s₂.cur 31 { s₂ with mainThread := s₂.cur }
  have hcur : ∀ l, s.cur ∉ ls₁ l := fun l hu => hfirst (hmem₁ l _ hu).symm
  have hlists₃ : Lists s₃.links ls₁ :=
    Lists.clearTags (s := { s₂ with mainThread := s₂.cur }) hlists₁ hcur
  have habs : assertAbsent s₃ .all (.allListTag s.cur) = .ok () :=
    hlists₃.assertAbsent (hcur .all)
  let s₄ := s₃.append .all (node .all s.cur)
  let ls₄ := Function.update ls₁ .all (ls₁ .all ++ [s.cur])
  have hlists₄ : Lists s₄.links ls₄ := hlists₃.append fun l _ => hcur l
  have hmem₄ : ∀ l u, u ∈ ls₄ l → u = first ∨ u = s.cur := by
    intro l u hu
    by_cases hl : l = .all
    · have hls : ls₄ .all = ls₁ .all ++ [s.cur] := Function.update_self ..
      rw [hl, hls, List.mem_append, List.mem_singleton] at hu
      exact hu.imp (hmem₁ _ _) id
    · have hls : ls₄ l = ls₁ l := Function.update_of_ne hl _ _
      exact .inl (hmem₁ _ _ (hls ▸ hu))
  -- the idle thread
  have hidle₄ : ∀ l, idle ∉ ls₄ l := fun l hu => (hmem₄ l _ hu).elim hidleFirst hidle
  obtain ⟨links₅, hcall₅, hlists₅⟩ := enlist_eq (s := initThread idle 10 s₄) (t := idle)
    (Lists.clearTags hlists₄ hidle₄) hidle₄
  let s₆ : Sched κ ω := { (initThread idle 10 s₄).setLinks links₅ with idleThread := idle }
  refine ⟨s₆, ?_, ?_, rfl, rfl, rfl, rfl, fun u => ?_⟩
  · have h₁ : threadStart first 31 s₁ = .ok s₂ := hcall₁
    have h₅ : threadStart idle 10 s₄ = .ok ((initThread idle 10 s₄).setLinks links₅) := hcall₅
    show (threadStart first 31 s₁ >>= _) = _
    rw [h₁]
    show (assertAbsent s₃ .all (.allListTag s.cur) >>= _) = _
    rw [habs]
    show (threadStart idle 10 s₄ >>= _) = _
    rw [h₅]
    rfl
  · rw [← enlisted_bootLists]
    exact hlists₅
  · have h₆ : s₆.status u = if u = idle then (if idle = s.cur then .running else .ready)
        else s₃.status u := status_initThread s₄ idle u 10
    have h₃ : s₃.status u = if u = s.cur then (if s.cur = s.cur then .running else .ready)
        else s₂.status u := status_initThread _ _ u 31
    have h₂ : s₂.status u = if u = first then (if first = s.mainThread then .running else .ready)
        else s.status u := status_initThread _ first u 31
    rw [h₆, h₃, h₂, if_neg hidle, if_pos rfl, hnoMain, if_neg hfirst₀]

theorem threadInit_keeps {first idle : Pcb} (h : BootOk s first idle) :
    Keeps (threadInit first idle s) := by
  obtain ⟨-, ⟨-, hfirst⟩, ⟨hidleFirst, hidle⟩, -, hwaiter, hwakes⟩ := id h
  obtain ⟨s', hcall, hlists, hcur, hidl, hw, hlog, hst⟩ := threadInit_run h
  have hfree : ∀ w t, s'.waiter w ≠ some t := by
    intro w t
    rw [hw, hwaiter w]
    simp
  have hfirstSt : s'.status first = .ready := by
    rw [hst, if_neg hidleFirst.symm, if_neg hfirst, if_pos rfl]
  have hcurSt : s'.status s.cur = .running := by
    rw [hst, if_neg hidle.symm, if_pos rfl]
  have hidleSt : s'.status idle = .ready := (hst idle).trans (if_pos rfl)
  refine SchedInv.keeps ⟨⟨hlists, fun u => ?_, fun u hu hru => ?_, fun k u hu => ?_,
    fun w u hwu => absurd hwu (hfree w u), fun w _ u hwu => absurd hwu (hfree w u), ?_, ?_,
    fun _ => ?_, ?_⟩, ?_⟩ hcall
  · simp only [bootLists, List.mem_cons, List.not_mem_nil, or_false]
    constructor
    · rintro (rfl | rfl)
      · exact ⟨.inl rfl, hfirstSt⟩
      · exact ⟨.inr (.inr rfl), hidleSt⟩
    · rintro ⟨rfl | rfl | rfl, hru⟩
      · exact .inl rfl
      · rw [hcurSt] at hru
        cases hru
      · exact .inr rfl
  · simp only [bootLists, List.mem_cons, List.not_mem_nil, or_false] at hu
    rcases hu with rfl | rfl | rfl
    · rw [hfirstSt] at hru
      cases hru
    · exact hcur.symm
    · rw [hidleSt] at hru
      cases hru
  · cases hu
  · simp [bootLists, hidl]
  · exact .inr (.inl (hidl ▸ hidleSt))
  · simp [bootLists, hcur]
  · rw [hlog, hwakes]
    simp
  · exact hcur ▸ hcurSt

/-! ## Every reachable state -/

theorem reachable_inv {s : Sched κ ω} (h : (schedSystem κ ω).Reachable s) :
    ∃ ls, SchedInv s ls := by
  apply h.invariant
  · rintro s ⟨s₀, first, idle, hboot, hinit⟩
    obtain ⟨s', ls, hcall, hinv⟩ := threadInit_keeps hboot
    rw [hcall] at hinit
    exact Except.ok.inj hinit ▸ ⟨ls, hinv⟩
  · rintro s op s' ⟨ls, hinv⟩ ⟨hlegal, hrun⟩
    obtain ⟨s₁, ls₁, hcall, hinv₁⟩ := hinv.step hlegal
    rw [hcall] at hrun
    exact Except.ok.inj hrun ▸ ⟨ls₁, hinv₁⟩

/-- What the scheduler promises between operations. -/
structure SchedOk (s : Sched κ ω) : Prop where
  /-- Exactly the current thread of the system is running. -/
  running : Listed s s.cur ∧ ∀ t, Listed s t → (s.status t = .running ↔ t = s.cur)
  /-- The ready list has each ready thread once and no other. -/
  ready : ∃ rl : List Pcb, tags.Holds s.links (anchor .ready) (rl.map .generalTag) ∧ rl.Nodup
    ∧ s.cur ∉ rl ∧ ∀ t, t ∈ rl ↔ Listed s t ∧ s.status t = .ready
  /-- The list of all threads is in order and has the waiting threads too,
  each on one list. -/
  all : ∃ al : List Pcb, tags.Holds s.links (anchor .all) (al.map .allListTag) ∧ al.Nodup
  waiters : ∀ k, ∃ wl : List Pcb, tags.Holds s.links (anchor (.waiters k)) (wl.map .generalTag)
    ∧ wl.Nodup ∧ ∀ t ∈ wl, Listed s t ∧ s.status t = .blocked
  /-- The idle thread is there, and every wakeup by `schedule` found it
  blocked. -/
  idle : Listed s s.idleThread ∧ ∀ st ∈ s.idleWakes, st = .blocked

theorem SchedInv.schedOk (h : SchedInv s ls) : SchedOk s := by
  have hlisted : ∀ t, Listed s t ↔ t ∈ ls .all := fun t => listed_iff h.lists
  refine ⟨⟨(hlisted _).2 h.cur_mem, fun t ht => ⟨fun hrun => ?_, fun heq => ?_⟩⟩,
    ⟨ls .ready, h.lists.holds .ready, h.lists.nodup .ready, ?_, fun t => ?_⟩,
    ⟨ls .all, h.lists.holds .all, h.lists.nodup .all⟩,
    fun k => ⟨ls (.waiters k), h.lists.holds (.waiters k), h.lists.nodup (.waiters k), ?_⟩,
    (hlisted _).2 h.idleListed, h.wakes⟩
  · exact h.running t ((hlisted t).1 ht) hrun
  · rw [heq]
    exact h.runs
  · exact (h.toCore.running_free h.runs).1
  · rw [hlisted]
    exact h.ready t
  · intro t ht
    obtain ⟨hmem, hblk, -⟩ := h.waiters k t ht
    exact ⟨(hlisted t).2 hmem, hblk⟩

/-- In every reachable state the scheduler is in order, and every step that can
    be taken returns: no ASSERT fails and `schedule` finds a thread. -/
theorem sched_safe {s : Sched κ ω} (h : (schedSystem κ ω).Reachable s) :
    SchedOk s ∧ ∀ op : SchedOp κ ω, op.Legal s → ∃ s', op.run s = .ok s' := by
  obtain ⟨ls, hinv⟩ := reachable_inv h
  refine ⟨hinv.schedOk, fun op hop => ?_⟩
  obtain ⟨s', -, hcall, -⟩ := hinv.step hop
  exact ⟨s', hcall⟩

/-- A machine before `thread_init`, with one semaphore and no io queue. -/
def bootSched : Sched Unit Empty where
  links := listInit tags ⟨fun _ => .null, fun _ => .null⟩ (anchor (.waiters ()))
  tcb _ := ⟨.ready, 0, 0, false⟩
  cur := 1
  intrOn := false
  mainThread := 0
  idleThread := 0
  waiter := nofun
  idleWakes := []

theorem bootSched_bootOk : BootOk bootSched 2 3 where
  noMain := rfl
  firstNew := by decide
  idleNew := by decide
  waiters _ := (listInit_spec (l := anchor (.waiters ())) (by simp [tags, anchor, Links.store])
    (by simp [tags, anchor, Links.store]) (by simp [tags, anchor, Links.store])).1
  waiter := nofun
  idleWakes := rfl

/-- Whether a step that names no thread can be taken. -/
def SchedOp.unnamed (s : Sched κ ω) : SchedOp κ ω → Bool
  | .tick => s.intrOn
  | .intr _ | .semaWake _ => true
  | .semaBlock _ | .wait | .yield => s.cur ≠ s.idleThread
  | _ => false

theorem SchedOp.legal_of_unnamed {s : Sched κ ω} {op : SchedOp κ ω} (h : op.unnamed s = true) :
    op.Legal s := by
  cases op with
  | tick => exact h
  | intr b => trivial
  | semaWake k => trivial
  | semaBlock k => simpa [unnamed, Legal] using h
  | wait => simpa [unnamed, Legal] using h
  | yield => simpa [unnamed, Legal] using h
  | _ => exact absurd h Bool.false_ne_true

/-- The main thread waits for the semaphore, the first process wakes it and runs
    on until its time slice is used up. -/
def wokenRun : List (SchedOp Unit Empty) :=
  [.semaBlock (), .semaWake ()] ++ List.replicate 32 .tick

theorem sched_safe_woken : ∃ s₀ s, threadInit 2 3 bootSched = .ok s₀
    ∧ System.runSteps (fun s op => op.unnamed s = true) SchedOp.run wokenRun s₀ = .ok s
    ∧ s.cur = 1 ∧ (s.tcb 2).status = .ready
    ∧ SchedOk s ∧ ∀ op : SchedOp Unit Empty, op.Legal s → ∃ s', op.run s = .ok s' := by
  have hend : (threadInit 2 3 bootSched >>= System.runSteps (fun s op => op.unnamed s = true)
      SchedOp.run wokenRun).returns (fun s => decide (s.cur = 1 ∧ (s.tcb 2).status = .ready)) = true := by
    decide +kernel
  obtain ⟨s, hrun, hfacts⟩ := Outcome.returns_iff.1 hend
  obtain ⟨s₀, hinit, hrun⟩ := Outcome.bind_eq_ok.1 hrun
  obtain ⟨hcur, hready⟩ := of_decide_eq_true hfacts
  refine ⟨s₀, s, hinit, hrun, hcur, hready, sched_safe ?_⟩
  exact System.Reachable.runSteps (M := schedSystem Unit Empty)
    (fun _ _ _ hok hstep => ⟨SchedOp.legal_of_unnamed hok, hstep⟩)
    (System.reachable_init ⟨bootSched, 2, 3, bootSched_bootOk, hinit⟩) hrun

end Thread
end JackOS
