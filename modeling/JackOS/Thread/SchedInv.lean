/-
  JackOS.Thread.SchedInv

  The scheduler's invariant.  `Lists` reads the intrusive lists as lists of
  threads; `Core` is what holds between operations and inside `schedule`, where
  the running thread may already have left the CPU, and `SchedInv` adds that
  it runs.  Every operation is taken apart into list edits and status changes
  that keep `Core`, and `schedule` turns `Core` into `SchedInv` again.
-/

import JackOS.Thread.Sched
import Mathlib.Data.Fintype.Card
import Mathlib.Data.List.Perm.Subperm

set_option linter.unusedSectionVars false

namespace JackOS
namespace Thread

open Base Base.LinkStore Lib

variable {κ ω : Type} [DecidableEq κ] [DecidableEq ω]

/-! ## Lists of threads -/

/-- The tag by which a thread is on a list. -/
def node : ListName κ → Pcb → Node κ
  | .ready, t => .generalTag t
  | .all, t => .allListTag t
  | .waiters _, t => .generalTag t

theorem node_injective (l : ListName κ) : Function.Injective (node l) := by
  intro t t' h
  cases l
  all_goals
    cases h
    rfl

/-- The nodes of lists of threads. -/
def nodes (ls : ListName κ → List Pcb) (l : ListName κ) : List (Node κ) := (ls l).map (node l)

/-- The intrusive lists hold the threads `ls`. -/
def Lists (links : Links (Node κ)) (ls : ListName κ → List Pcb) : Prop :=
  tags.Family links anchor (nodes ls)

theorem nodes_update (ls : ListName κ → List Pcb) (l : ListName κ) (ts : List Pcb) :
    nodes (Function.update ls l ts) = Function.update (nodes ls) l (ts.map (node l)) := by
  funext l'
  by_cases h : l' = l
  · subst h
    simp [nodes]
  · simp [nodes, Function.update_of_ne h]

variable {links : Links (Node κ)} {ls : ListName κ → List Pcb} {l : ListName κ} {t : Pcb}
  {ts : List Pcb}

theorem mem_nodes : node l t ∈ nodes ls l ↔ t ∈ ls l := by
  rw [nodes, List.mem_map]
  constructor
  · rintro ⟨t', ht', heq⟩
    exact node_injective l heq ▸ ht'
  · exact fun h => ⟨t, h, rfl⟩

theorem Lists.nodup (h : Lists links ls) (l : ListName κ) : (ls l).Nodup :=
  List.Nodup.of_map _ (h.holds l).nodup_elems

theorem Lists.length_lt (h : Lists links ls) (l : ListName κ) :
    (nodes ls l).length < listFuel := by
  have hle := (h.nodup l).length_le_card
  rw [Fintype.card_fin] at hle
  rw [nodes, List.length_map]
  exact Nat.lt_succ_of_le hle

/-- `elem_find` finds the threads of the list. -/
theorem Lists.find {s : Sched κ ω} (h : Lists s.links ls) (l : ListName κ) (t : Pcb) :
    s.find l (node l t) = .ok (decide (t ∈ ls l)) := by
  rw [Sched.find, elemFind_eq (h.holds l) (h.length_lt l)]
  exact congrArg Except.ok (decide_eq_decide.2 mem_nodes)

theorem Lists.assertAbsent {s : Sched κ ω} (h : Lists s.links ls) (ht : t ∉ ls l) :
    assertAbsent s l (node l t) = .ok () := by
  rw [Thread.assertAbsent, h.find l t, Outcome.ok_bind]
  exact require_pos (decide_eq_false ht)

theorem Lists.listEmpty (h : Lists links ls) (l : ListName κ) :
    listEmpty tags links (anchor l) = decide (ls l = []) := by
  rw [listEmpty_eq (h.holds l)]
  exact decide_eq_decide.2 (by rw [nodes, List.map_eq_nil_iff])

/-- A thread is on at most one of the lists that use its general tag. -/
theorem Lists.not_mem_other (h : Lists links ls) {l l' : ListName κ} (hne : l ≠ l')
    (hl : l ≠ .all) (hl' : l' ≠ .all) (ht : t ∈ ls l) : t ∉ ls l' := by
  intro ht'
  -- both lists use the general tag, and the nodes of two lists are apart
  have hnode : node l t = node l' t := by
    cases l <;> cases l' <;> first | rfl | exact absurd rfl hl | exact absurd rfl hl'
  have h₁ : node l t ∈ (anchor l).nodes (nodes ls l) :=
    Anchor.mem_nodes.2 (.inr (.inl (mem_nodes.2 ht)))
  have h₂ : node l' t ∈ (anchor l').nodes (nodes ls l') :=
    Anchor.mem_nodes.2 (.inr (.inl (mem_nodes.2 ht')))
  exact Family.apart h l l' hne _ h₁ _ h₂ hnode

/-- The tag of a thread that is on none of the lists using it. -/
theorem outside_node (ls : ListName κ → List Pcb)
    (ht : ∀ l', (l' = .all ↔ l = .all) → t ∉ ls l') :
    Outside tags anchor (nodes ls) (node l t) := by
  refine ⟨trivial, ?_, fun l' z hz heq => ?_⟩
  · cases l <;> exact fun h => (by cases h)
  · rcases Anchor.mem_nodes.1 hz with hz | hz | hz
    · rw [hz] at heq
      cases l <;> cases heq
    · obtain ⟨t', ht', rfl⟩ := List.mem_map.1 hz
      cases l <;> cases l' <;> cases heq <;> exact ht _ (by simp) ht'
    · rw [hz] at heq
      cases l <;> cases heq

theorem Lists.append {s : Sched κ ω} (h : Lists s.links ls)
    (ht : ∀ l', (l' = .all ↔ l = .all) → t ∉ ls l') :
    Lists (s.append l (node l t)).links (Function.update ls l (ls l ++ [t])) := by
  rw [Lists, nodes_update, List.map_append]
  exact Family.listAppend h (outside_node ls ht)

theorem Lists.push (h : Lists links ls) (ht : ∀ l', (l' = .all ↔ l = .all) → t ∉ ls l') :
    Lists (listPush tags links (anchor l) (node l t)) (Function.update ls l (t :: ls l)) := by
  rw [Lists, nodes_update, List.map_cons]
  exact Family.listPush h (outside_node ls ht)

theorem Lists.pop (h : Lists links ls) (hl : ls l = t :: ts) :
    (listPop tags links (anchor l)).1 = node l t
      ∧ Lists (listPop tags links (anchor l)).2 (Function.update ls l ts) := by
  have hn : nodes ls l = node l t :: ts.map (node l) := by rw [nodes, hl, List.map_cons]
  rw [Lists, nodes_update]
  exact Family.listPop h hn

theorem Lists.remove {s : Sched κ ω} {ts₁ ts₂ : List Pcb} (h : Lists s.links ls)
    (hl : ls l = ts₁ ++ t :: ts₂) :
    Lists (s.remove (node l t)).links (Function.update ls l (ts₁ ++ ts₂)) := by
  have hn : nodes ls l = ts₁.map (node l) ++ node l t :: ts₂.map (node l) := by
    rw [nodes, hl, List.map_append, List.map_cons]
  rw [Lists, nodes_update, List.map_append]
  exact Family.listRemove h hn

/-- Clearing the tags of a thread on no list. -/
theorem Lists.clearTags {s : Sched κ ω} (h : Lists s.links ls) (ht : ∀ l, t ∉ ls l) :
    Lists (clearTags s t).links ls := by
  refine Family.frame h fun l z hz => ?_
  have hg : z ≠ .generalTag t ∧ z ≠ .allListTag t := by
    rcases Anchor.mem_nodes.1 hz with rfl | hz | rfl
    · refine ⟨fun h => ?_, fun h => ?_⟩ <;> cases h
    · obtain ⟨t', ht', rfl⟩ := List.mem_map.1 hz
      have hne : t' ≠ t := fun heq => ht l (heq ▸ ht')
      refine ⟨fun h => hne ?_, fun h => hne ?_⟩
      · cases l <;> cases h <;> rfl
      · cases l <;> cases h
        rfl
    · refine ⟨fun h => ?_, fun h => ?_⟩ <;> cases h
  simp only [Thread.clearTags, Sched.setLinks, Links.store, Function.update_of_ne hg.1,
    Function.update_of_ne hg.2, and_self]

/-! ## The invariant -/

/-- The status of a thread. -/
def Sched.status (s : Sched κ ω) (t : Pcb) : TaskStatus := (s.tcb t).status

/-- What holds at every point outside the list operations. -/
structure Core (s : Sched κ ω) (ls : ListName κ → List Pcb) : Prop where
  lists : Lists s.links ls
  ready : ∀ t, t ∈ ls .ready ↔ t ∈ ls .all ∧ s.status t = .ready
  running : ∀ t ∈ ls .all, s.status t = .running → t = s.cur
  waiters : ∀ k t, t ∈ ls (.waiters k) → t ∈ ls .all ∧ s.status t = .blocked
    ∧ t ≠ s.idleThread
  slots : ∀ w t, s.waiter w = some t → t ∈ ls .all ∧ s.status t = .blocked
    ∧ t ≠ s.idleThread ∧ ∀ k, t ∉ ls (.waiters k)
  slotInj : ∀ w w' t, s.waiter w = some t → s.waiter w' = some t → w = w'
  idleListed : s.idleThread ∈ ls .all
  idleStatus : s.status s.idleThread = .running ∨ s.status s.idleThread = .ready
    ∨ s.status s.idleThread = .blocked
  current : s.status s.cur = .running → s.cur ∈ ls .all
  wakes : ∀ st ∈ s.idleWakes, st = .blocked

/-- Between operations the current thread is a running thread of the system. -/
structure SchedInv (s : Sched κ ω) (ls : ListName κ → List Pcb) : Prop extends Core s ls where
  runs : s.status s.cur = .running

@[simp] theorem status_setTcb (s : Sched κ ω) (t t' : Pcb) (c : Tcb) :
    (s.setTcb t c).status t' = if t' = t then c.status else s.status t' := by
  simp only [Sched.status, Sched.setTcb, Function.update_apply]
  split <;> rfl

@[simp] theorem status_setStatus (s : Sched κ ω) (t t' : Pcb) (st : TaskStatus) :
    (s.setStatus t st).status t' = if t' = t then st else s.status t' :=
  status_setTcb s t t' _

@[simp] theorem status_setLinks (s : Sched κ ω) (links : Links (Node κ)) (t : Pcb) :
    (s.setLinks links).status t = s.status t := rfl

@[simp] theorem status_setWaiter (s : Sched κ ω) (w : ω) (o : Option Pcb) (t : Pcb) :
    (s.setWaiter w o).status t = s.status t := rfl

@[simp] theorem status_setIntr (s : Sched κ ω) (b : Bool) (t : Pcb) :
    (s.setIntr b).status t = s.status t := rfl

@[simp] theorem status_append (s : Sched κ ω) (l : ListName κ) (tag : Node κ) (t : Pcb) :
    (s.append l tag).status t = s.status t := rfl

@[simp] theorem status_remove (s : Sched κ ω) (tag : Node κ) (t : Pcb) :
    (s.remove tag).status t = s.status t := rfl

theorem waiter_setWaiter (s : Sched κ ω) (w w' : ω) (o : Option Pcb) :
    (s.setWaiter w o).waiter w' = if w' = w then o else s.waiter w' :=
  Function.update_apply ..

/-- Changing fields of a thread other than its status. -/
theorem status_setTcb_same (s : Sched κ ω) (t u : Pcb) {c : Tcb} (hc : c.status = s.status t) :
    (s.setTcb t c).status u = s.status u := by
  rw [status_setTcb, hc]
  split
  · rename_i h
    rw [h]
  · rfl

@[simp] theorem status_saveIntr (s : Sched κ ω) (t : Pcb) :
    s.saveIntr.status t = s.status t := by
  rw [Sched.saveIntr, status_setIntr]
  exact status_setTcb_same s s.cur t rfl

variable {s : Sched κ ω}

/-- `Core` looks at statuses, links, the current thread and the waiters only. -/
theorem Core.congr {s' : Sched κ ω} (h : Core s ls) (hlinks : s'.links = s.links)
    (hst : ∀ t, s'.status t = s.status t) (hcur : s'.cur = s.cur)
    (hidle : s'.idleThread = s.idleThread) (hw : s'.waiter = s.waiter)
    (hlog : s'.idleWakes = s.idleWakes) : Core s' ls := by
  obtain ⟨h₁, h₂, h₃, h₄, h₅, h₆, h₇, h₈, h₉, h₁₀⟩ := h
  refine ⟨by rwa [hlinks], ?_, ?_, ?_, ?_, by rwa [hw], by rwa [hidle], ?_, ?_, by rwa [hlog]⟩
  · simpa only [hst] using h₂
  · simpa only [hst, hcur] using h₃
  · simpa only [hst, hidle] using h₄
  · simpa only [hst, hidle, hw] using h₅
  · simpa only [hst, hidle] using h₈
  · simpa only [hst, hcur] using h₉

theorem Core.saveIntr (h : Core s ls) : Core s.saveIntr ls :=
  h.congr rfl (status_saveIntr s) rfl rfl rfl rfl

theorem Core.setIntr (h : Core s ls) (b : Bool) : Core (s.setIntr b) ls :=
  h.congr rfl (fun _ => rfl) rfl rfl rfl rfl

/-- A thread that is not ready is on the ready list under no name. -/
theorem Core.not_ready (h : Core s ls) (ht : s.status t ≠ .ready) : t ∉ ls .ready :=
  fun hmem => ht ((h.ready t).1 hmem).2

theorem Core.not_waiting (h : Core s ls) (ht : s.status t ≠ .blocked) (k : κ) :
    t ∉ ls (.waiters k) :=
  fun hmem => ht (h.waiters k t hmem).2.1

/-- The effect of one thread changing its status to `st`, with the lists and
    waiter fields it moves between. -/
theorem Core.move {s' : Sched κ ω} {ls' : ListName κ → List Pcb} {st : TaskStatus}
    (h : Core s ls) (ht : t ∈ ls .all) (hlists : Lists s'.links ls')
    (hall : ls' .all = ls .all) (hidle : s'.idleThread = s.idleThread)
    (hst : ∀ u, s'.status u = if u = t then st else s.status u)
    (hready : ∀ u, u ∈ ls' .ready ↔ if u = t then st = .ready else u ∈ ls .ready)
    (hrun : ∀ u ∈ ls .all, s'.status u = .running → u = s'.cur)
    (hwait : ∀ k u, u ∈ ls' (.waiters k) →
      u ≠ t ∧ u ∈ ls (.waiters k) ∨ u = t ∧ st = .blocked ∧ t ≠ s.idleThread)
    (hslot : ∀ w u, s'.waiter w = some u → u ≠ t ∧ s.waiter w = some u
      ∨ u = t ∧ st = .blocked ∧ t ≠ s.idleThread ∧ ∀ k, t ∉ ls' (.waiters k))
    (hinj : ∀ w w' u, s'.waiter w = some u → s'.waiter w' = some u → w = w')
    (hidleSt : t = s.idleThread → st = .running ∨ st = .ready ∨ st = .blocked)
    (hcur : s'.status s'.cur = .running → s'.cur ∈ ls .all)
    (hlog : ∀ st ∈ s'.idleWakes, st = .blocked) : Core s' ls' := by
  refine ⟨hlists, fun u => ?_, fun u hu => ?_, fun k u hu => ?_, fun w u hw => ?_, hinj, ?_, ?_,
    fun hr => ?_, hlog⟩
  · rw [hready, hall, hst]
    -- thread `t` by its new status, the others as before
    by_cases hut : u = t
    · simp [hut, ht]
    · simp only [hut, if_false]
      exact h.ready u
  · rw [hall] at hu
    exact hrun u hu
  · rw [hall, hst, hidle]
    rcases hwait k u hu with ⟨hne, hold⟩ | ⟨rfl, hb, hi⟩
    · rw [if_neg hne]
      exact h.waiters k u hold
    · rw [if_pos rfl]
      exact ⟨ht, hb, hi⟩
  · rw [hall, hst, hidle]
    rcases hslot w u hw with ⟨hne, hold⟩ | ⟨rfl, hb, hi, hk⟩
    · obtain ⟨h₁, h₂, h₃, h₄⟩ := h.slots w u hold
      rw [if_neg hne]
      refine ⟨h₁, h₂, h₃, fun k hk => ?_⟩
      rcases hwait k u hk with ⟨-, hk⟩ | ⟨rfl, -⟩
      · exact h₄ k hk
      · exact hne rfl
    · rw [if_pos rfl]
      exact ⟨ht, hb, hi, hk⟩
  · rw [hall, hidle]
    exact h.idleListed
  · rw [hidle, hst]
    split
    · rename_i heq
      exact hidleSt heq.symm
    · exact h.idleStatus
  · rw [hall]
    exact hcur hr

theorem update_all {ts : List Pcb} {l : ListName κ} (hl : l ≠ .all) :
    Function.update ls l ts .all = ls .all := Function.update_of_ne (Ne.symm hl) _ _

theorem update_ready {ts : List Pcb} {l : ListName κ} (hl : l ≠ .ready) :
    Function.update ls l ts .ready = ls .ready := Function.update_of_ne (Ne.symm hl) _ _

theorem update_waiters {ts : List Pcb} {l : ListName κ} (hl : ∀ k, l ≠ .waiters k) (k : κ) :
    Function.update ls l ts (.waiters k) = ls (.waiters k) :=
  Function.update_of_ne (Ne.symm (hl k)) _ _

/-! ## Waking -/

/-- What `thread_unblock` leaves. -/
def woken (s : Sched κ ω) (t : Pcb) : Sched κ ω :=
  (s.setLinks (listPush tags s.links (anchor .ready) (.generalTag t))).setStatus t .ready

/-- A thread that can be woken. -/
structure Wakeable (s : Sched κ ω) (ls : ListName κ → List Pcb) (t : Pcb) : Prop where
  listed : t ∈ ls .all
  status : s.status t = .blocked ∨ s.status t = .hanging ∨ s.status t = .waiting
  free : ∀ k, t ∉ ls (.waiters k)
  slot : ∀ w, s.waiter w ≠ some t

theorem Wakeable.not_ready (h : Core s ls) (ht : Wakeable s ls t) : t ∉ ls .ready := by
  refine h.not_ready fun heq => ?_
  rcases ht.status with hst | hst | hst <;> rw [heq] at hst <;> cases hst

/-- `thread_unblock` meets none of its ASSERTs badly. -/
theorem threadUnblock_eq (h : Lists s.links ls)
    (hst : s.status t = .blocked ∨ s.status t = .hanging ∨ s.status t = .waiting)
    (ht : t ∉ ls .ready) : threadUnblock t s = .ok (woken s t) := by
  have hne : (s.tcb t).status ≠ .ready := by
    intro heq
    rcases hst with hst | hst | hst <;> rw [Sched.status, heq] at hst <;> cases hst
  have hreq : require ((s.tcb t).status = .blocked ∨ (s.tcb t).status = .hanging
      ∨ (s.tcb t).status = .waiting) = .ok () := require_pos hst
  have habs : assertAbsent s .ready (.generalTag t) = .ok () := h.assertAbsent ht
  rw [threadUnblock, hreq, Outcome.ok_bind, if_pos hne, habs]
  rfl

theorem Core.woken (h : Core s ls) (ht : Wakeable s ls t) :
    Core (woken s t) (Function.update ls .ready (t :: ls .ready)) := by
  have hrdy := ht.not_ready h
  have hst : ∀ u, (Thread.woken s t).status u = if u = t then .ready else s.status u :=
    fun u => status_setStatus _ _ _ _
  have hwait : ∀ k, Function.update ls .ready (t :: ls .ready) (.waiters k) = ls (.waiters k) :=
    update_waiters (by simp)
  refine h.move ht.listed (h.lists.push fun l' hl' => ?_) (update_all (by simp)) rfl hst
    (fun u => ?_) (fun u hu hr => ?_) (fun k u hu => .inl ?_) (fun w u hw => .inl ?_) h.slotInj
    (fun _ => .inr (.inl rfl)) (fun hr => ?_) h.wakes
  · cases l' with
    | ready => exact hrdy
    | all => exact absurd (hl'.1 rfl) (by simp)
    | waiters k => exact ht.free k
  · rw [Function.update_self, List.mem_cons]
    by_cases hut : u = t <;> simp [hut]
  · rw [hst] at hr
    split at hr
    · cases hr
    · exact h.running u hu hr
  · rw [hwait] at hu
    exact ⟨fun heq => ht.free k (heq ▸ hu), hu⟩
  · exact ⟨fun heq => ht.slot w (heq ▸ hw), hw⟩
  · rw [hst] at hr
    split at hr
    · cases hr
    · exact h.current hr

/-! ## schedule -/

/-- A running thread is on no list but that of all threads. -/
theorem Core.running_free (h : Core s ls) (hrun : s.status t = .running) :
    t ∉ ls .ready ∧ (∀ k, t ∉ ls (.waiters k)) ∧ ∀ w, s.waiter w ≠ some t := by
  refine ⟨h.not_ready ?_, h.not_waiting ?_, fun w hw => ?_⟩
  · rw [hrun]
    simp
  · rw [hrun]
    simp
  · have := (h.slots w t hw).2.1
    rw [hrun] at this
    cases this

/-- The running thread goes to the end of the ready list. -/
theorem Core.requeue {s' : Sched κ ω} (h : Core s ls) (hrun : s.status s.cur = .running)
    (hlinks : s'.links = (s.append .ready (node .ready s.cur)).links) (hcur : s'.cur = s.cur)
    (hidle : s'.idleThread = s.idleThread) (hw : s'.waiter = s.waiter)
    (hlog : s'.idleWakes = s.idleWakes)
    (hst : ∀ u, s'.status u = if u = s.cur then .ready else s.status u) :
    Core s' (Function.update ls .ready (ls .ready ++ [s.cur])) := by
  obtain ⟨hr, hk, hslot⟩ := h.running_free hrun
  have hwait : ∀ k, Function.update ls .ready (ls .ready ++ [s.cur]) (.waiters k)
      = ls (.waiters k) := update_waiters (by simp)
  refine h.move (h.current hrun) (hlinks ▸ h.lists.append fun l' hl' => ?_)
    (update_all (by simp)) hidle hst (fun u => ?_) (fun u hu hru => ?_) (fun k u hu => .inl ?_)
    (fun w u hwu => .inl ?_) (hw ▸ h.slotInj) (fun _ => .inr (.inl rfl)) (fun hru => ?_)
    (hlog ▸ h.wakes)
  · cases l' with
    | ready => exact hr
    | all => exact absurd (hl'.1 rfl) (by simp)
    | waiters k => exact hk k
  · rw [Function.update_self, List.mem_append, List.mem_singleton]
    by_cases hu : u = s.cur <;> simp [hu]
  · rw [hst] at hru
    split at hru
    · cases hru
    · exact hcur ▸ h.running u hu hru
  · rw [hwait] at hu
    exact ⟨fun heq => hk k (heq ▸ hu), hu⟩
  · rw [hw] at hwu
    exact ⟨fun heq => hslot w (heq ▸ hwu), hwu⟩
  · rw [hst, hcur, if_pos rfl] at hru
    cases hru

theorem requeueCurrent_spec (h : Core s ls) :
    ∃ s₁ ls₁, requeueCurrent s = .ok s₁ ∧ Core s₁ ls₁ ∧ s₁.status s₁.cur ≠ .running := by
  by_cases hrun : (s.tcb s.cur).status = .running
  · have habs : assertAbsent s .ready (.generalTag s.cur) = .ok () :=
      h.lists.assertAbsent (h.running_free hrun).1
    let s₁ := (s.append .ready (.generalTag s.cur)).setTcb s.cur
      { s.tcb s.cur with thisTick := (s.tcb s.cur).timeSlice, status := .ready }
    have hst : ∀ u, s₁.status u = if u = s.cur then .ready else s.status u :=
      fun u => status_setTcb _ _ _ _
    refine ⟨s₁, _, ?_, h.requeue hrun rfl rfl rfl rfl rfl hst, ?_⟩
    · rw [requeueCurrent, if_pos hrun, habs]
      rfl
    · have hready : s₁.status s.cur = .ready := (hst s.cur).trans (if_pos rfl)
      show s₁.status s.cur ≠ .running
      rw [hready]
      simp
  · exact ⟨s, ls, by rw [requeueCurrent, if_neg hrun], h, hrun⟩

/-- When nobody is ready, the idle thread is blocked and is woken. -/
theorem wakeIdle_spec (h : Core s ls) (hcur : s.status s.cur ≠ .running) :
    ∃ s₁ ls₁, wakeIdle s = .ok s₁ ∧ Core s₁ ls₁ ∧ s₁.status s₁.cur ≠ .running
      ∧ ls₁ .ready ≠ [] := by
  by_cases hnil : ls .ready = []
  · have hblocked : s.status s.idleThread = .blocked := by
      rcases h.idleStatus with hst | hst | hst
      · -- a running idle thread would be the current one
        exact absurd (h.running _ h.idleListed hst ▸ hst) hcur
      · have hmem := (h.ready _).2 ⟨h.idleListed, hst⟩
        rw [hnil] at hmem
        cases hmem
      · exact hst
    have hwake : Wakeable s ls s.idleThread :=
      ⟨h.idleListed, .inl hblocked, fun k hmem => (h.waiters k _ hmem).2.2 rfl,
        fun w hw => (h.slots w _ hw).2.2.1 rfl⟩
    let s₀ := { s with idleWakes := (s.tcb s.idleThread).status :: s.idleWakes }
    have h₀ : Core s₀ ls := { h with wakes := List.forall_mem_cons.2 ⟨hblocked, h.wakes⟩ }
    have hwake₀ : Wakeable s₀ ls s.idleThread := ⟨hwake.1, hwake.2, hwake.3, hwake.4⟩
    have hcall := threadUnblock_eq h₀.lists hwake₀.status (hwake₀.not_ready h₀)
    refine ⟨_, _, ?_, h₀.woken hwake₀, fun hst => ?_, ?_⟩
    · rw [wakeIdle, h.lists.listEmpty, if_pos (decide_eq_true hnil)]
      exact hcall
    · rw [woken, status_setStatus] at hst
      split at hst
      · cases hst
      · exact hcur hst
    · rw [Function.update_self]
      simp
  · refine ⟨s, ls, ?_, h, hcur, hnil⟩
    rw [wakeIdle, h.lists.listEmpty, if_neg (by simp [hnil])]

/-- Switching to the first ready thread. -/
theorem Core.switchTo (h : Core s ls) (hcur : s.status s.cur ≠ .running)
    (hl : ls .ready = t :: ts) :
    SchedInv (switchTo t (s.setLinks (listPop tags s.links (anchor .ready)).2))
      (Function.update ls .ready ts) := by
  obtain ⟨hmem, hrdy⟩ := (h.ready t).1 (by simp [hl])
  have hnd := h.lists.nodup .ready
  rw [hl, List.nodup_cons] at hnd
  have hst : ∀ u, (Thread.switchTo t (s.setLinks (listPop tags s.links (anchor .ready)).2)).status u
      = if u = t then .running else s.status u := fun u => status_setStatus _ t u _
  -- the thread that runs next was ready, so it is on no other list
  have hblk : ∀ u, s.status u = .blocked → u ≠ t := by
    rintro u hu rfl
    rw [hrdy] at hu
    cases hu
  have hwait : ∀ k, Function.update ls .ready ts (.waiters k) = ls (.waiters k) :=
    update_waiters (by simp)
  refine ⟨h.move hmem (h.lists.pop hl).2 (update_all (by simp)) rfl hst (fun u => ?_)
    (fun u hu hr => ?_) (fun k u hu => .inl ?_) (fun w u hw => .inl ?_) h.slotInj
    (fun _ => .inl rfl) (fun _ => hmem) h.wakes, ?_⟩
  · rw [Function.update_self, hl, List.mem_cons]
    by_cases hut : u = t
    · simp [hut, hnd.1]
    · simp [hut]
  · rw [hst] at hr
    by_cases hut : u = t
    · exact hut
    · rw [if_neg hut] at hr
      exact absurd (h.running u hu hr ▸ hr) hcur
  · rw [hwait] at hu
    exact ⟨hblk u (h.waiters k u hu).2.1, hu⟩
  · exact ⟨hblk u (h.slots w u hw).2.1, hw⟩
  · rw [hst]
    exact if_pos rfl

/-- `schedule` finds a thread and runs it. -/
theorem schedule_spec (h : Core s ls) (hintr : s.intrOn = false) :
    ∃ s' ls', schedule s = .ok s' ∧ SchedInv s' ls' := by
  obtain ⟨s₁, ls₁, hreq, h₁, hcur₁⟩ := requeueCurrent_spec h
  obtain ⟨s₂, ls₂, hwake, h₂, hcur₂, hne⟩ := wakeIdle_spec h₁ hcur₁
  rcases hl : ls₂ .ready with _ | ⟨t, ts⟩
  · exact absurd hl hne
  · refine ⟨_, _, ?_, h₂.switchTo hcur₂ hl⟩
    have hsome : listEmpty tags s₂.links (anchor .ready) = false := by
      rw [h₂.lists.listEmpty]
      simp [hl]
    have hpop := (h₂.lists.pop hl).1
    simp only [schedule, require_pos hintr, hreq, hwake, require_pos hsome, Outcome.ok_bind, hpop]
    rfl

end Thread
end JackOS
