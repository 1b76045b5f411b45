/-
  JackOS.Userprog.ProcTreeInv

  The invariant of the process tree.  A thread is added by `allocate_pid` and
  an insertion, and leaves by `thread_exit`; these two and `sys_exit` are the
  only ways the tree changes, and each keeps `Tree`.
-/

import JackOS.Userprog.ProcTree

namespace JackOS
namespace Userprog

open Base Thread

/-! ## The invariant -/

/-- Pids, parents and the log fit together. -/
structure Tree (s : Family) : Prop where
  nodup : s.allList.Nodup
  pidInj : ∀ t ∈ s.allList, ∀ u ∈ s.allList, (s.tcb t).pid = (s.tcb u).pid → t = u
  pidUsed : ∀ t ∈ s.allList, 1 ≤ (s.tcb t).pid ∧ (s.tcb t).pid ≤ 1024
    ∧ bitAt s.pidBitmapBits ((s.tcb t).pid - 1) = true
  parent : ∀ t ∈ s.allList, (s.tcb t).parentPid ≠ -1 → ∃ u ∈ s.allList,
    ((s.tcb u).pid : Int) = (s.tcb t).parentPid ∧ (s.tcb u).status ≠ .hanging
      ∧ (s.tcb u).isProcess = true
  notSelf : ∀ t ∈ s.allList, (s.tcb t).parentPid ≠ (s.tcb t).pid
  zombie : ∀ t ∈ s.allList, (s.tcb t).status = .hanging → ∃ st : BitVec 32,
    life (s.tcb t).pid s.log = .zombie st ∧ (s.tcb t).exitStatus = st.setWidth 8
  living : ∀ t ∈ s.allList, (s.tcb t).status ≠ .hanging → life (s.tcb t).pid s.log = .alive
  born : ∀ pid, life pid s.log ≠ .free → ∃ t ∈ s.allList, (s.tcb t).pid = pid
  parentOf : ∀ t ∈ s.allList, parentAt (s.tcb t).pid s.log = (s.tcb t).parentPid
  log : LogOk s.log

/-- The first process, which adopts orphans. -/
def HasInit (s : Family) : Prop :=
  ∃ i ∈ s.allList, (s.tcb i).pid = 1 ∧ (s.tcb i).parentPid = -1 ∧ (s.tcb i).status ≠ .hanging
    ∧ (s.tcb i).isProcess = true

structure TreeInv (s : Family) : Prop extends Tree s where
  init : HasInit s

variable {s s' : Family} {t p : Pcb}

/-- The tree is about these fields only; a status may change as long as it does
    not become or cease to be `hanging`. -/
structure SameKin (s s' : Family) : Prop where
  allList : s'.allList = s.allList
  bits : ∀ i, bitAt s.pidBitmapBits i = true → bitAt s'.pidBitmapBits i = true
  log : s'.log = s.log
  pid : ∀ t ∈ s.allList, (s'.tcb t).pid = (s.tcb t).pid
  parentPid : ∀ t ∈ s.allList, (s'.tcb t).parentPid = (s.tcb t).parentPid
  exitStatus : ∀ t ∈ s.allList, (s'.tcb t).exitStatus = (s.tcb t).exitStatus
  isProcess : ∀ t ∈ s.allList, (s'.tcb t).isProcess = (s.tcb t).isProcess
  hanging : ∀ t ∈ s.allList, (s'.tcb t).status = .hanging ↔ (s.tcb t).status = .hanging

theorem Tree.congr (h : Tree s) (hk : SameKin s s') : Tree s' := by
  refine ⟨hk.allList ▸ h.nodup, ?_, ?_, ?_, ?_, ?_, ?_, ?_, ?_, hk.log ▸ h.log⟩ <;>
    simp only [hk.allList]
  · intro t ht u hu heq
    rw [hk.pid t ht, hk.pid u hu] at heq
    exact h.pidInj t ht u hu heq
  · intro t ht
    obtain ⟨h₁, h₂, h₃⟩ := h.pidUsed t ht
    rw [hk.pid t ht]
    exact ⟨h₁, h₂, hk.bits _ h₃⟩
  · intro t ht hp
    rw [hk.parentPid t ht] at hp ⊢
    obtain ⟨u, hu, h₁, h₂, h₃⟩ := h.parent t ht hp
    refine ⟨u, hu, ?_, ?_, ?_⟩
    · rw [hk.pid u hu, h₁]
    · rwa [ne_eq, hk.hanging u hu]
    · rw [hk.isProcess u hu, h₃]
  · intro t ht
    rw [hk.pid t ht, hk.parentPid t ht]
    exact h.notSelf t ht
  · intro t ht hst
    rw [hk.pid t ht, hk.exitStatus t ht, hk.log]
    exact h.zombie t ht ((hk.hanging t ht).1 hst)
  · intro t ht hst
    rw [hk.pid t ht, hk.log]
    exact h.living t ht fun heq => hst ((hk.hanging t ht).2 heq)
  · intro pid hl
    rw [hk.log] at hl
    obtain ⟨t, ht, heq⟩ := h.born pid hl
    exact ⟨t, ht, by rw [hk.pid t ht, heq]⟩
  · intro t ht
    rw [hk.pid t ht, hk.parentPid t ht, hk.log]
    exact h.parentOf t ht

theorem HasInit.congr (h : HasInit s) (hk : SameKin s s') : HasInit s' := by
  obtain ⟨i, hi, h₁, h₂, h₃, h₄⟩ := h
  refine ⟨i, hk.allList ▸ hi, ?_, ?_, ?_, ?_⟩
  · rw [hk.pid i hi, h₁]
  · rw [hk.parentPid i hi, h₂]
  · rwa [ne_eq, hk.hanging i hi]
  · rw [hk.isProcess i hi, h₄]

theorem TreeInv.congr (h : TreeInv s) (hk : SameKin s s') : TreeInv s' :=
  ⟨h.toTree.congr hk, h.init.congr hk⟩

/-! ## allocate_pid -/

/-- A pid that is handed out was not in use. -/
theorem allocatePid_spec {pid : Nat} (hcall : allocatePid s = .ok (pid, s')) :
    1 ≤ pid ∧ pid ≤ 1024 ∧ bitAt s.pidBitmapBits (pid - 1) = false
      ∧ s' = { s with pidBitmapBits := setBitAt s.pidBitmapBits (pid - 1) true } := by
  rw [allocatePid] at hcall
  obtain ⟨r, hscan, hcall⟩ := Outcome.bind_eq_ok.1 hcall
  cases r with
  | none => cases hcall
  | some bitIdx =>
      cases hcall
      have hfirst := firstClear_of_bitmapScan hscan
      have hlt : bitIdx < 8 * 128 := hfirst.lt
      have hidx : 1 + bitIdx - 1 = bitIdx := by omega
      rw [hidx]
      exact ⟨by omega, by omega, hfirst.clear, rfl⟩

theorem Tree.pid_ne (h : Tree s) {pid : Nat} (hpid : 1 ≤ pid)
    (hfree : bitAt s.pidBitmapBits (pid - 1) = false) (ht : t ∈ s.allList) :
    (s.tcb t).pid ≠ pid := by
  rintro rfl
  rw [(h.pidUsed t ht).2.2] at hfree
  cases hfree

/-- A pid that no thread has is free. -/
theorem Tree.life_free (h : Tree s) {pid : Nat} (hpid : ∀ t ∈ s.allList, (s.tcb t).pid ≠ pid) :
    life pid s.log = .free := by
  by_contra hl
  obtain ⟨t, ht, heq⟩ := h.born pid hl
  exact hpid t ht heq

/-! ## A new thread -/

/-- The state with a new thread. -/
def enlist (s : Family) (t : Pcb) (c : Task) : Family :=
  { (s.setTask t c) with
    allList := s.allList ++ [t]
    pidBitmapBits := setBitAt s.pidBitmapBits (c.pid - 1) true
    log := .forked c.parentPid c.pid :: s.log }

theorem enlist_tcb_of_mem {c : Task} (hnew : t ∉ s.allList) {u : Pcb} (hu : u ∈ s.allList) :
    (enlist s t c).tcb u = s.tcb u := by
  apply Function.update_of_ne
  rintro rfl
  exact hnew hu

theorem enlist_tcb_self {c : Task} : (enlist s t c).tcb t = c := Function.update_self ..

/-- A thread with a fresh pid and a living parent joins the tree. -/
theorem Tree.enlist {c : Task} (h : Tree s) (hnew : t ∉ s.allList) (hpid : 1 ≤ c.pid ∧ c.pid ≤ 1024)
    (hfree : bitAt s.pidBitmapBits (c.pid - 1) = false) (hst : c.status ≠ .hanging)
    (hpar : c.parentPid ≠ -1 → ∃ u ∈ s.allList, ((s.tcb u).pid : Int) = c.parentPid
      ∧ (s.tcb u).status ≠ .hanging ∧ (s.tcb u).isProcess = true) :
    Tree (enlist s t c) := by
  have hmem : ∀ u, u ∈ (Userprog.enlist s t c).allList ↔ u ∈ s.allList ∨ u = t := by
    intro u
    show u ∈ s.allList ++ [t] ↔ _
    rw [List.mem_append, List.mem_singleton]
  have hold : ∀ u ∈ s.allList, (Userprog.enlist s t c).tcb u = s.tcb u :=
    fun u hu => enlist_tcb_of_mem hnew hu
  have hself : (Userprog.enlist s t c).tcb t = c := enlist_tcb_self
  have hne : ∀ u ∈ s.allList, (s.tcb u).pid ≠ c.pid := fun u hu => h.pid_ne hpid.1 hfree hu
  have hlife : ∀ pid, life pid (Userprog.enlist s t c).log
      = if c.pid = pid then .alive else life pid s.log := fun _ => rfl
  have hparent : ∀ pid, parentAt pid (Userprog.enlist s t c).log
      = if c.pid = pid then c.parentPid else parentAt pid s.log := fun _ => rfl
  refine ⟨?_, fun u hu v hv heq => ?_, fun u hu => ?_, fun u hu hp => ?_, fun u hu => ?_,
    fun u hu hs => ?_, fun u hu hs => ?_, fun pid hl => ?_, fun u hu => ?_, ?_, h.log⟩
  · show (s.allList ++ [t]).Nodup
    rw [List.nodup_append]
    refine ⟨h.nodup, by simp, ?_⟩
    rintro u hu v hv rfl
    exact hnew (List.mem_singleton.1 hv ▸ hu)
  · rcases (hmem u).1 hu with hu' | hu' <;> rcases (hmem v).1 hv with hv' | hv'
    · rw [hold u hu', hold v hv'] at heq
      exact h.pidInj u hu' v hv' heq
    · rw [hold u hu', hv', hself] at heq
      exact absurd heq (hne u hu')
    · rw [hold v hv', hu', hself] at heq
      exact absurd heq.symm (hne v hv')
    · rw [hu', hv']
  · rcases (hmem u).1 hu with hu | rfl
    · obtain ⟨h₁, h₂, h₃⟩ := h.pidUsed u hu
      rw [hold u hu]
      refine ⟨h₁, h₂, ?_⟩
      show bitAt (setBitAt s.pidBitmapBits (c.pid - 1) true) _ = true
      rw [bitAt_setBitAt]
      split
      · rfl
      · exact h₃
    · rw [hself]
      exact ⟨hpid.1, hpid.2, bitAt_setBitAt_same _ _ _⟩
  · have hpar' : ∀ q : Int, (∃ v ∈ s.allList, ((s.tcb v).pid : Int) = q
        ∧ (s.tcb v).status ≠ .hanging ∧ (s.tcb v).isProcess = true) →
        ∃ v ∈ (Userprog.enlist s t c).allList, (((Userprog.enlist s t c).tcb v).pid : Int) = q
          ∧ ((Userprog.enlist s t c).tcb v).status ≠ .hanging
          ∧ ((Userprog.enlist s t c).tcb v).isProcess = true := by
      rintro q ⟨v, hv, hq⟩
      exact ⟨v, (hmem v).2 (.inl hv), by rwa [hold v hv]⟩
    rcases (hmem u).1 hu with hu | rfl
    · rw [hold u hu] at hp ⊢
      exact hpar' _ (h.parent u hu hp)
    · rw [hself] at hp ⊢
      exact hpar' _ (hpar hp)
  · rcases (hmem u).1 hu with hu | rfl
    · rw [hold u hu]
      exact h.notSelf u hu
    · rw [hself]
      intro heq
      obtain ⟨v, hv, hpv, -⟩ := hpar (by omega)
      exact hne v hv (by omega)
  · rcases (hmem u).1 hu with hu | rfl
    · rw [hold u hu] at hs ⊢
      rw [hlife, if_neg (Ne.symm (hne u hu))]
      exact h.zombie u hu hs
    · rw [hself] at hs
      exact absurd hs hst
  · rcases (hmem u).1 hu with hu | rfl
    · rw [hold u hu] at hs ⊢
      rw [hlife, if_neg (Ne.symm (hne u hu))]
      exact h.living u hu hs
    · rw [hself, hlife, if_pos rfl]
  · rw [hlife] at hl
    split at hl
    · exact ⟨t, (hmem t).2 (.inr rfl), by rwa [hself]⟩
    · obtain ⟨u, hu, heq⟩ := h.born pid hl
      exact ⟨u, (hmem u).2 (.inl hu), by rwa [hold u hu]⟩
  · rcases (hmem u).1 hu with hu | rfl
    · rw [hold u hu, hparent, if_neg (Ne.symm (hne u hu))]
      exact h.parentOf u hu
    · rw [hself, hparent, if_pos rfl]
  · exact h.life_free hne

/-! ## A thread that leaves -/

/-- What `thread_exit` and an event that frees the pid leave. -/
theorem Tree.drop {e : Event} (h : Tree s) (ht : t ∈ s.allList)
    (hleaf : ∀ u ∈ s.allList, (s.tcb u).parentPid ≠ (s.tcb t).pid)
    (hlife : ∀ pid, life pid (e :: s.log) = if (s.tcb t).pid = pid then .free else life pid s.log)
    (hparent : ∀ pid, parentAt pid (e :: s.log) = parentAt pid s.log) (hlog : LogOk (e :: s.log)) :
    Tree ((threadExit t s).record e) := by
  have hmem : ∀ u, u ∈ ((threadExit t s).record e).allList ↔ u ∈ s.allList ∧ u ≠ t := by
    intro u
    show u ∈ s.allList.erase t ↔ _
    rw [h.nodup.mem_erase_iff, and_comm]
  have htcb : ∀ u, u ≠ t → ((threadExit t s).record e).tcb u = s.tcb u :=
    fun u hu => Function.update_of_ne hu _ _
  have hne : ∀ u ∈ s.allList, u ≠ t → (s.tcb t).pid ≠ (s.tcb u).pid :=
    fun u hu hut heq => hut (h.pidInj t ht u hu heq).symm
  have hlog' : ((threadExit t s).record e).log = e :: s.log := rfl
  have hpidt : (((s.setTask t { s.tcb t with status := .died }).tcb t).pid) = (s.tcb t).pid := by
    simp [Family.setTask]
  refine ⟨h.nodup.erase t, fun u hu v hv heq => ?_, fun u hu => ?_, fun u hu hp => ?_,
    fun u hu => ?_, fun u hu hs => ?_, fun u hu hs => ?_, fun pid hl => ?_, fun u hu => ?_, hlog⟩
  · obtain ⟨hu, hut⟩ := (hmem u).1 hu
    obtain ⟨hv, hvt⟩ := (hmem v).1 hv
    rw [htcb u hut, htcb v hvt] at heq
    exact h.pidInj u hu v hv heq
  · obtain ⟨hu, hut⟩ := (hmem u).1 hu
    obtain ⟨h₁, h₂, h₃⟩ := h.pidUsed u hu
    have h₄ := (h.pidUsed t ht).1
    have h₅ := hne u hu hut
    rw [htcb u hut]
    refine ⟨h₁, h₂, ?_⟩
    show bitAt (setBitAt s.pidBitmapBits (((s.setTask t _).tcb t).pid - 1) false) _ = true
    rw [hpidt, bitAt_setBitAt_ne (by omega)]
    exact h₃
  · obtain ⟨hu, hut⟩ := (hmem u).1 hu
    rw [htcb u hut] at hp ⊢
    obtain ⟨v, hv, h₁, h₂, h₃⟩ := h.parent u hu hp
    have hvt : v ≠ t := fun heq => hleaf u hu (by rw [← h₁, heq])
    exact ⟨v, (hmem v).2 ⟨hv, hvt⟩, by rw [htcb v hvt]; exact ⟨h₁, h₂, h₃⟩⟩
  · obtain ⟨hu, hut⟩ := (hmem u).1 hu
    rw [htcb u hut]
    exact h.notSelf u hu
  · obtain ⟨hu, hut⟩ := (hmem u).1 hu
    rw [htcb u hut] at hs ⊢
    rw [hlog', hlife, if_neg (hne u hu hut)]
    exact h.zombie u hu hs
  · obtain ⟨hu, hut⟩ := (hmem u).1 hu
    rw [htcb u hut] at hs ⊢
    rw [hlog', hlife, if_neg (hne u hu hut)]
    exact h.living u hu hs
  · rw [hlog', hlife] at hl
    split at hl
    · exact absurd rfl hl
    · rename_i hpid
      obtain ⟨u, hu, rfl⟩ := h.born pid hl
      have hut : u ≠ t := by
        rintro rfl
        exact hpid rfl
      exact ⟨u, (hmem u).2 ⟨hu, hut⟩, by rw [htcb u hut]⟩
  · obtain ⟨hu, hut⟩ := (hmem u).1 hu
    rw [htcb u hut, hlog', hparent]
    exact h.parentOf u hu

theorem HasInit.drop {e : Event} (h : HasInit s) (hnd : s.allList.Nodup)
    (ht : (s.tcb t).status = .hanging ∨ (s.tcb t).isProcess = false) :
    HasInit ((threadExit t s).record e) := by
  obtain ⟨i, hi, h₁, h₂, h₃, h₄⟩ := h
  have hit : i ≠ t := by
    rintro rfl
    rcases ht with ht | ht
    · exact h₃ ht
    · rw [ht] at h₄
      cases h₄
  have htcb : ((threadExit t s).record e).tcb i = s.tcb i := Function.update_of_ne hit _ _
  refine ⟨i, ?_, by rw [htcb]; exact ⟨h₁, h₂, h₃, h₄⟩⟩
  show i ∈ s.allList.erase t
  rw [hnd.mem_erase_iff]
  exact ⟨hit, hi⟩

/-! ## sys_exit -/

/-- What `sys_exit` does to a PCB: `q` is the parent of the process that
    exits. -/
def exitTask (s : Family) (p q : Pcb) (status : BitVec 32) (t : Pcb) : Task :=
  { s.tcb t with
    parentPid := if (s.tcb t).parentPid = (s.tcb p).pid then 1 else (s.tcb t).parentPid
    exitStatus := if t = p then status.setWidth 8 else (s.tcb t).exitStatus
    status := if t = p then .hanging
      else if t = q ∧ (s.tcb q).status = .waiting then .ready else (s.tcb t).status }

/-- `pid2thread` finds the thread with a pid. -/
theorem pid2thread_eq (hinj : ∀ t ∈ s.allList, ∀ u ∈ s.allList, (s.tcb t).pid = (s.tcb u).pid → t = u)
    (ht : t ∈ s.allList) : pid2thread s (s.tcb t).pid = some t := by
  rcases hfind : pid2thread s (s.tcb t).pid with _ | u
  · have hnone := List.find?_eq_none.1 hfind t ht
    simp at hnone
  · have hu := List.mem_of_find?_eq_some hfind
    have hpid := List.find?_some hfind
    simp only [decide_eq_true_eq] at hpid
    rw [hinj u hu t ht (by exact_mod_cast hpid)]

theorem initAdoptChildren_tcb {pid : Nat} (ht : t ∈ s.allList) :
    (initAdoptChildren pid s).tcb t = { s.tcb t with
      parentPid := if (s.tcb t).parentPid = pid then 1 else (s.tcb t).parentPid } := by
  show (if t ∈ s.allList ∧ (s.tcb t).parentPid = pid then _ else _) = _
  by_cases hch : (s.tcb t).parentPid = pid
  · rw [if_pos ⟨ht, hch⟩, if_pos hch]
  · rw [if_neg fun hc => hch hc.2, if_neg hch]

theorem wakeParent_tcb (s : Family) (q t : Pcb) :
    (wakeParent q s).tcb t = if t = q ∧ (s.tcb q).status = .waiting then
      { s.tcb t with status := .ready } else s.tcb t := by
  unfold wakeParent
  by_cases hw : (s.tcb q).status = .waiting
  · by_cases htq : t = q
    · simp [hw, htq, Family.setTask]
    · simp [hw, htq, Family.setTask]
  · simp [hw]

theorem wakeParent_eq (s : Family) (q : Pcb) :
    (wakeParent q s).allList = s.allList ∧ (wakeParent q s).pidBitmapBits = s.pidBitmapBits
      ∧ (wakeParent q s).log = s.log := by
  unfold wakeParent
  split <;> exact ⟨rfl, rfl, rfl⟩

/-- The state after `sys_exit` of `p`, whose parent is `q`. -/
structure Exited (s s' : Family) (p q : Pcb) (status : BitVec 32) : Prop where
  mem : p ∈ s.allList ∧ q ∈ s.allList
  ne : q ≠ p
  isParent : ((s.tcb q).pid : Int) = (s.tcb p).parentPid
  allList : s'.allList = s.allList
  bits : s'.pidBitmapBits = s.pidBitmapBits
  log : s'.log = .exited (s.tcb p).pid status :: s.log
  tcb : ∀ t ∈ s.allList, s'.tcb t = exitTask s p q status t

theorem sysExit_eq (h : Tree s) (hp : p ∈ s.allList) (hpar : (s.tcb p).parentPid ≠ -1)
    (status : BitVec 32) : ∃ q s', sysExit p status s = .ok s' ∧ Exited s s' p q status := by
  obtain ⟨q, hq, hpid, -, -⟩ := h.parent p hp hpar
  have hqp : q ≠ p := by
    rintro rfl
    exact h.notSelf q hp hpid.symm
  -- the exit status, and the children that go to init
  let s₁ := s.setTask p { s.tcb p with exitStatus := status.setWidth 8 }
  have hself : s₁.tcb p = { s.tcb p with exitStatus := status.setWidth 8 } :=
    Function.update_self ..
  have hother : ∀ t, t ≠ p → s₁.tcb t = s.tcb t := fun t ht => Function.update_of_ne ht _ _
  have h₁ : ∀ t, s₁.tcb t = { s.tcb t with
      exitStatus := if t = p then status.setWidth 8 else (s.tcb t).exitStatus } := by
    intro t
    by_cases htp : t = p
    · subst htp
      rw [hself, if_pos rfl]
    · rw [hother t htp, if_neg htp]
  let s₂ := initAdoptChildren (s.tcb p).pid s₁
  have h₂ : ∀ t ∈ s.allList, s₂.tcb t = { s.tcb t with
      parentPid := if (s.tcb t).parentPid = (s.tcb p).pid then 1 else (s.tcb t).parentPid
      exitStatus := if t = p then status.setWidth 8 else (s.tcb t).exitStatus } := by
    intro t ht
    rw [initAdoptChildren_tcb (s := s₁) ht, h₁ t]
  -- the parent is found
  have hfind : pid2thread s₂ (s₂.tcb p).parentPid = some q := by
    have hpp : (s₂.tcb p).parentPid = (s₂.tcb q).pid := by
      rw [h₂ p hp, h₂ q hq, if_neg (h.notSelf p hp)]
      exact hpid.symm
    rw [hpp]
    refine pid2thread_eq (fun t ht u hu heq => ?_) hq
    rw [h₂ t ht, h₂ u hu] at heq
    exact h.pidInj t ht u hu heq
  let s₃ := wakeParent q s₂
  have h₃ : ∀ t ∈ s.allList, s₃.tcb t = if t = q ∧ (s.tcb q).status = .waiting then
      { s₂.tcb t with status := .ready } else s₂.tcb t := by
    intro t _
    rw [wakeParent_tcb, h₂ q hq]
  obtain ⟨hlist, hbits, hlog⟩ := wakeParent_eq s₂ q
  let s₄ := s₃.setTask p { s₃.tcb p with status := .hanging }
  have h₄ : ∀ t ∈ s.allList, s₄.tcb t = exitTask s p q status t := by
    intro t ht
    by_cases htp : t = p
    · subst htp
      rw [show s₄.tcb t = { s₃.tcb t with status := .hanging } from Function.update_self ..,
        h₃ t ht, if_neg fun hc => hqp hc.1.symm, h₂ t ht, exitTask, if_pos rfl, if_pos rfl]
    · rw [show s₄.tcb t = s₃.tcb t from Function.update_of_ne htp _ _, h₃ t ht, h₂ t ht, exitTask,
        if_neg htp, if_neg htp]
      by_cases hw : t = q ∧ (s.tcb q).status = .waiting
      · rw [if_pos hw, if_pos hw]
      · rw [if_neg hw, if_neg hw]
  refine ⟨q, s₄.record (.exited (s₄.tcb p).pid status), ?_,
    ⟨⟨hp, hq⟩, hqp, hpid, hlist, hbits, ?_, h₄⟩⟩
  · have hreq : require ((s₁.tcb p).parentPid ≠ -1) = .ok () := by
      apply require_pos
      rw [hself]
      exact hpar
    show (require ((s₁.tcb p).parentPid ≠ -1) >>= _) = _
    rw [hreq, Outcome.ok_bind, show (s₁.tcb p).pid = (s.tcb p).pid by rw [hself]]
    simp only
    split
    · rename_i hnone
      cases hnone.symm.trans hfind
    · rename_i parent hparent
      cases hparent.symm.trans hfind
      rfl
  · show Event.exited (s₄.tcb p).pid status :: s₃.log = _
    rw [h₄ p hp, hlog]
    rfl

theorem Exited.hanging {q : Pcb} {status : BitVec 32} (hx : Exited s s' p q status)
    (ht : t ∈ s.allList) :
    (s'.tcb t).status = .hanging ↔ t = p ∨ (s.tcb t).status = .hanging := by
  rw [hx.tcb t ht, exitTask]
  by_cases htp : t = p
  · simp [htp]
  · by_cases hw : t = q ∧ (s.tcb q).status = .waiting
    · simp [hw.1, hw.2, hx.ne]
    · simp [htp, hw]

/-- `sys_exit` keeps the tree: the children of the process that exits, dead or
    alive, are children of init now. -/
theorem Tree.exit {q : Pcb} {status : BitVec 32} (h : Tree s) (hi : HasInit s)
    (hst : (s.tcb p).status ≠ .hanging) (hpar : (s.tcb p).parentPid ≠ -1)
    (hx : Exited s s' p q status) : Tree s' := by
  obtain ⟨hp, -⟩ := hx.mem
  obtain ⟨i, himem, hipid, hipar, hist, hiproc⟩ := hi
  have hip : i ≠ p := by
    rintro rfl
    exact hpar hipar
  have hpid : ∀ t ∈ s.allList, (s'.tcb t).pid = (s.tcb t).pid := by
    intro t ht
    rw [hx.tcb t ht]
    rfl
  have hproc : ∀ t ∈ s.allList, (s'.tcb t).isProcess = (s.tcb t).isProcess := by
    intro t ht
    rw [hx.tcb t ht]
    rfl
  have hppar : ∀ t ∈ s.allList, (s'.tcb t).parentPid
      = if (s.tcb t).parentPid = (s.tcb p).pid then 1 else (s.tcb t).parentPid := by
    intro t ht
    rw [hx.tcb t ht]
    rfl
  have hlife : ∀ pid, life pid s'.log
      = if (s.tcb p).pid = pid then .zombie status else life pid s.log := by
    intro pid
    rw [hx.log]
    rfl
  have hne : ∀ t ∈ s.allList, t ≠ p → (s.tcb p).pid ≠ (s.tcb t).pid :=
    fun t ht htp heq => htp (h.pidInj p hp t ht heq).symm
  have hliving : ∀ u ∈ s.allList, u ≠ p → (s.tcb u).status ≠ .hanging →
      (s'.tcb u).status ≠ .hanging := by
    intro u hu hup hs heq
    rcases (hx.hanging hu).1 heq with heq | heq
    · exact hup heq
    · exact hs heq
  have hlog : LogOk s'.log := by
    rw [hx.log]
    exact ⟨h.living p hp hst, h.log⟩
  refine ⟨?_, ?_, ?_, ?_, ?_, ?_, ?_, ?_, ?_, hlog⟩ <;> simp only [hx.allList]
  · exact h.nodup
  · intro t ht u hu heq
    rw [hpid t ht, hpid u hu] at heq
    exact h.pidInj t ht u hu heq
  · intro t ht
    rw [hpid t ht, hx.bits]
    exact h.pidUsed t ht
  · intro t ht hp'
    rw [hppar t ht] at hp' ⊢
    by_cases hch : (s.tcb t).parentPid = (s.tcb p).pid
    · -- an orphan
      rw [if_pos hch]
      refine ⟨i, himem, ?_, hliving i himem hip hist, ?_⟩
      · rw [hpid i himem, hipid]
        rfl
      · rw [hproc i himem, hiproc]
    · rw [if_neg hch] at hp' ⊢
      obtain ⟨u, hu, h₁, h₂, h₃⟩ := h.parent t ht hp'
      have hup : u ≠ p := by
        rintro rfl
        exact hch h₁.symm
      refine ⟨u, hu, ?_, hliving u hu hup h₂, ?_⟩
      · rw [hpid u hu, h₁]
      · rw [hproc u hu, h₃]
  · intro t ht
    rw [hppar t ht, hpid t ht]
    split
    · -- init has no parent
      intro heq
      have hti : t = i := h.pidInj t ht i himem (by rw [hipid]; exact_mod_cast heq.symm)
      rename_i hch
      rw [hti, hipar] at hch
      omega
    · exact h.notSelf t ht
  · intro t ht hs
    rw [hpid t ht, hlife]
    by_cases htp : t = p
    · subst htp
      refine ⟨status, if_pos rfl, ?_⟩
      rw [hx.tcb t ht, exitTask]
      exact if_pos rfl
    · obtain ⟨st, h₁, h₂⟩ := h.zombie t ht (((hx.hanging ht).1 hs).resolve_left htp)
      refine ⟨st, ?_, ?_⟩
      · rw [if_neg (hne t ht htp), h₁]
      · rw [hx.tcb t ht, exitTask]
        exact (if_neg htp).trans h₂
  · intro t ht hs
    have hs' : t ≠ p ∧ (s.tcb t).status ≠ .hanging := by
      rw [ne_eq, hx.hanging ht, not_or] at hs
      exact hs
    rw [hpid t ht, hlife, if_neg (hne t ht hs'.1)]
    exact h.living t ht hs'.2
  · intro pid hl
    rw [hlife] at hl
    split at hl
    · exact ⟨p, hp, by rwa [hpid p hp]⟩
    · obtain ⟨t, ht, heq⟩ := h.born pid hl
      exact ⟨t, ht, by rwa [hpid t ht]⟩
  · intro t ht
    rw [hpid t ht, hppar t ht, hx.log]
    show (if parentAt _ s.log = _ then 1 else parentAt _ s.log) = _
    rw [h.parentOf t ht]

theorem HasInit.exit {q : Pcb} {status : BitVec 32} (hi : HasInit s)
    (hpar : (s.tcb p).parentPid ≠ -1) (hx : Exited s s' p q status) : HasInit s' := by
  obtain ⟨i, himem, hipid, hipar, hist, hiproc⟩ := hi
  have hip : i ≠ p := by
    rintro rfl
    exact hpar hipar
  refine ⟨i, hx.allList ▸ himem, ?_, ?_, ?_, ?_⟩
  · rw [hx.tcb i himem]
    exact hipid
  · rw [hx.tcb i himem]
    show (if (s.tcb i).parentPid = _ then _ else (s.tcb i).parentPid) = _
    rw [hipar]
    exact if_neg (by omega)
  · rw [ne_eq, hx.hanging himem, not_or]
    exact ⟨hip, hist⟩
  · rw [hx.tcb i himem]
    exact hiproc

end Userprog
end JackOS
