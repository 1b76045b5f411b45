/-
  JackOS.Userprog.ProcTreeSafe

  The process tree over whole runs.  The invariant holds from `thread_init` on,
  which gives the properties of pids, parents and reaping; no waiting process
  is left with a zombie child exactly as long as no process exits that has a
  zombie child while init waits and is not woken for another reason.
-/

import JackOS.Userprog.ProcTreeInv

namespace JackOS
namespace Userprog

open Base Thread

variable {s s' : Family} {t p : Pcb}

/-! ## Steps -/

/-- How `sys_fork` can end. -/
theorem sysFork_cases {mem : ForkMem} {r : Option Nat} (hp : p ∈ s.allList) (hmem : mem.Fresh s)
    (hcall : sysFork p mem s = .ok (r, s')) :
    s' = s ∨ (∃ t pid, t ∉ s.allList ∧ s' = { s with
        tcb := Function.update s.tcb t (childTask (s.tcb p) pid)
        pidBitmapBits := setBitAt s.pidBitmapBits (pid - 1) true })
      ∨ ∃ t pid, t ∉ s.allList ∧ (1 ≤ pid ∧ pid ≤ 1024) ∧ bitAt s.pidBitmapBits (pid - 1) = false
        ∧ (s.tcb p).isProcess = true ∧ s' = enlist s t (childTask (s.tcb p) pid) := by
  unfold sysFork at hcall
  obtain ⟨_, hproc, hcall⟩ := Outcome.bind_eq_ok.1 hcall
  rw [require_eq_ok] at hproc
  cases mem with
  | noPage =>
      cases hcall
      exact .inl rfl
  | noCopy t =>
      obtain ⟨⟨pid, s₁⟩, halloc, hcall⟩ := Outcome.bind_eq_ok.1 hcall
      obtain ⟨-, -, -, rfl⟩ := allocatePid_spec halloc
      cases hcall
      exact .inr (.inl ⟨t, pid, hmem, rfl⟩)
  | copied t =>
      obtain ⟨⟨pid, s₁⟩, halloc, hcall⟩ := Outcome.bind_eq_ok.1 hcall
      obtain ⟨h₁, h₂, hfree, rfl⟩ := allocatePid_spec halloc
      cases hcall
      refine .inr (.inr ⟨t, pid, hmem, ⟨h₁, h₂⟩, hfree, hproc, ?_⟩)
      have hpt : p ≠ t := by
        rintro rfl
        exact hmem hp
      have hparent : (Function.update s.tcb t (childTask (s.tcb p) pid) p) = s.tcb p :=
        Function.update_of_ne hpt _ _
      simp only [Family.record, Family.setTask, enlist, hparent]
      rfl

/-- How a round of `sys_wait` can end. -/
theorem sysWait_cases (p : Pcb) (s : Family) :
    (∃ c ∈ s.allList, (s.tcb c).parentPid = (s.tcb p).pid ∧ (s.tcb c).status = .hanging
      ∧ (sysWait p s).2 = (((threadExit c s).setTask p
          { (threadExit c s).tcb p with inWait := false }).record
            (.reaped ((threadExit c s).tcb p).pid (s.tcb c).pid
              ((s.tcb c).exitStatus.signExtend 32))))
      ∨ (∀ c ∈ s.allList, (s.tcb c).parentPid = (s.tcb p).pid → (s.tcb c).status ≠ .hanging)
        ∧ ((sysWait p s).2 = s.setTask p { s.tcb p with inWait := false }
          ∨ (sysWait p s).2 = s.setTask p { s.tcb p with inWait := true, status := .waiting }) := by
  rcases hfind : findHangingChild s (s.tcb p).pid with _ | c
  · right
    refine ⟨fun c hc hpar hst => ?_, ?_⟩
    · have hnone := List.find?_eq_none.1 hfind c hc
      simp [hpar, hst] at hnone
    · rcases hchild : findChild s (s.tcb p).pid with _ | c
      · left
        simp only [sysWait, hfind, hchild]
      · right
        simp only [sysWait, hfind, hchild]
  · left
    have hmem := List.mem_of_find?_eq_some hfind
    have hc := List.find?_some hfind
    simp only [decide_eq_true_eq] at hc
    refine ⟨c, hmem, hc.1, hc.2, ?_⟩
    simp only [sysWait, hfind]
    congr 2
    simp [Family.setTask]

/-- Setting fields other than those of the tree. -/
theorem sameKin_setTask {c : Task} (hpid : c.pid = (s.tcb t).pid)
    (hpar : c.parentPid = (s.tcb t).parentPid) (hex : c.exitStatus = (s.tcb t).exitStatus)
    (hproc : c.isProcess = (s.tcb t).isProcess)
    (hst : c.status = .hanging ↔ (s.tcb t).status = .hanging) : SameKin s (s.setTask t c) := by
  refine ⟨rfl, fun _ h => h, rfl, ?_, ?_, ?_, ?_, ?_⟩ <;>
  · intro u _
    by_cases hut : u = t
    · subst hut
      simp [Family.setTask, *]
    · simp [Family.setTask, hut]

theorem TreeInv.fork {mem : ForkMem} {r : Option Nat} (h : TreeInv s) (hp : Runnable s p)
    (hmem : mem.Fresh s) (hcall : sysFork p mem s = .ok (r, s')) : TreeInv s' := by
  obtain ⟨hpmem, hpst⟩ := hp
  rcases sysFork_cases hpmem hmem hcall with rfl | ⟨t, pid, hnew, rfl⟩
    | ⟨t, pid, hnew, hpid, hfree, hproc, rfl⟩
  · exact h
  · -- the pid is lost, and the page belongs to no thread
    have hold : ∀ u ∈ s.allList, Function.update s.tcb t (childTask (s.tcb p) pid) u = s.tcb u := by
      intro u hu
      apply Function.update_of_ne
      rintro rfl
      exact hnew hu
    refine h.congr ⟨rfl, fun i hi => ?_, rfl, ?_, ?_, ?_, ?_, ?_⟩
    · show bitAt (setBitAt _ _ _) i = true
      rw [bitAt_setBitAt]
      split
      · rfl
      · exact hi
    all_goals
      intro u hu
      simp only [hold u hu]
  · have hst : (s.tcb p).status ≠ .hanging := by
      rcases hpst with hpst | hpst <;> simp [hpst]
    refine ⟨h.toTree.enlist hnew hpid hfree (by simp [childTask]) fun _ =>
      ⟨p, hpmem, rfl, hst, hproc⟩, ?_⟩
    obtain ⟨i, hi, hrest⟩ := h.init
    refine ⟨i, List.mem_append.2 (.inl hi), ?_⟩
    rwa [enlist_tcb_of_mem hnew hi]

theorem TreeInv.wait (h : TreeInv s) (hp : Runnable s p) : TreeInv (sysWait p s).2 := by
  obtain ⟨hpmem, hpst⟩ := hp
  have hst : (s.tcb p).status ≠ .hanging := by
    rcases hpst with hpst | hpst <;> simp [hpst]
  rcases sysWait_cases p s with ⟨c, hc, hpar, hhang, heq⟩ | ⟨-, heq | heq⟩
  · have hpc : p ≠ c := by
      rintro rfl
      exact hst hhang
    have htcb : (threadExit c s).tcb p = s.tcb p := Function.update_of_ne hpc _ _
    obtain ⟨st, hlife, hex⟩ := h.zombie c hc hhang
    -- a zombie has no children
    have hleaf : ∀ u ∈ s.allList, (s.tcb u).parentPid ≠ (s.tcb c).pid := by
      intro u hu hup
      obtain ⟨v, hv, hvp, hvst, -⟩ := h.parent u hu (by omega)
      rw [h.pidInj v hv c hc (by omega)] at hvst
      exact hvst hhang
    have hlog : LogOk (.reaped (s.tcb p).pid (s.tcb c).pid ((s.tcb c).exitStatus.signExtend 32)
        :: s.log) :=
      ⟨⟨st, hlife, by rw [hex]⟩, (h.parentOf c hc).trans hpar, h.log⟩
    have hdrop : TreeInv ((threadExit c s).record
        (.reaped (s.tcb p).pid (s.tcb c).pid ((s.tcb c).exitStatus.signExtend 32))) :=
      ⟨h.toTree.drop hc hleaf (fun _ => rfl) (fun _ => rfl) hlog, h.init.drop h.nodup (.inl hhang)⟩
    rw [heq, htcb]
    refine hdrop.congr (sameKin_setTask (t := p) ?_ ?_ ?_ ?_ ?_) <;> simp [Family.record, htcb]
  · rw [heq]
    exact h.congr (sameKin_setTask rfl rfl rfl rfl Iff.rfl)
  · rw [heq]
    exact h.congr (sameKin_setTask rfl rfl rfl rfl (by simp [hst]))

theorem TreeInv.endKernelThread (h : TreeInv s) (ht : Runnable s t)
    (hproc : (s.tcb t).isProcess = false) :
    TreeInv ((threadExit t s).record (.ended (s.tcb t).pid)) := by
  obtain ⟨htmem, htst⟩ := ht
  have hst : (s.tcb t).status ≠ .hanging := by
    rcases htst with htst | htst <;> simp [htst]
  refine ⟨h.toTree.drop htmem (fun u hu hup => ?_) (fun _ => rfl) (fun _ => rfl)
    ⟨h.living t htmem hst, h.log⟩, h.init.drop h.nodup (.inr hproc)⟩
  obtain ⟨v, hv, hvp, -, hvproc⟩ := h.parent u hu (by omega)
  rw [h.pidInj v hv t htmem (by omega), hproc] at hvproc
  cases hvproc

/-- The tree is kept by every step. -/
theorem TreeInv.step {op : FamilyOp} (h : TreeInv s) (hop : op.Legal s)
    (hrun : op.run s = .ok s') : TreeInv s' := by
  cases op with
  | fork p mem =>
      obtain ⟨⟨r, s₁⟩, hcall, hrun⟩ := Outcome.bind_eq_ok.1 hrun
      cases hrun
      exact h.fork hop.1 hop.2.2 hcall
  | exit p status =>
      obtain ⟨⟨hpmem, hpst⟩, -⟩ := hop
      have hst : (s.tcb p).status ≠ .hanging := by
        rcases hpst with hpst | hpst <;> simp [hpst]
      have hpar : (s.tcb p).parentPid ≠ -1 := by
        obtain ⟨_, hreq, -⟩ := Outcome.bind_eq_ok.1 hrun
        rw [require_eq_ok] at hreq
        simpa [Family.setTask] using hreq
      obtain ⟨q, s₁, hcall, hx⟩ := sysExit_eq h.toTree hpmem hpar status
      cases hcall.symm.trans hrun
      exact ⟨h.toTree.exit h.init hst hpar hx, h.init.exit hpar hx⟩
  | wait p =>
      cases hrun
      exact h.wait hop
  | endKernelThread t =>
      cases hrun
      exact h.endKernelThread hop.1 hop.2.2

/-! ## thread_init -/

/-- A booted thread is enlisted under the first free pid. -/
theorem bootThread_spec {b : Bool} (hcall : bootThread t b s = .ok s') :
    ∃ pid, FirstClear (pidBitmap s) (pid - 1) ∧ 1 ≤ pid
      ∧ s' = enlist s t ⟨pid, -1, .ready, 0, b, false⟩ := by
  rw [bootThread] at hcall
  obtain ⟨⟨pid, s₁⟩, halloc, hcall⟩ := Outcome.bind_eq_ok.1 hcall
  rw [allocatePid] at halloc
  obtain ⟨r, hscan, halloc⟩ := Outcome.bind_eq_ok.1 halloc
  cases r with
  | none => cases halloc
  | some bitIdx =>
      cases halloc
      cases hcall
      refine ⟨1 + bitIdx, ?_, by omega, ?_⟩
      · rw [Nat.add_sub_cancel_left]
        exact firstClear_of_bitmapScan hscan
      · simp only [enlist, Nat.add_sub_cancel_left]
        rfl

theorem Tree.boot {b : Bool} (h : Tree s) (hnew : t ∉ s.allList)
    (hcall : bootThread t b s = .ok s') : Tree s' := by
  obtain ⟨pid, hfirst, hpid, rfl⟩ := bootThread_spec hcall
  have hlt : pid - 1 < 8 * 128 := hfirst.lt
  exact h.enlist hnew ⟨hpid, by show pid ≤ 1024; omega⟩ hfirst.clear (by simp)
    fun hp => absurd rfl hp

theorem threadInit_inv {s₀ : Family} {init main idle : Pcb} (hnd : [init, main, idle].Nodup)
    (hcall : threadInit init main idle s₀ = .ok s) : TreeInv s := by
  simp only [List.nodup_cons, List.mem_cons, List.not_mem_nil, or_false, not_or] at hnd
  obtain ⟨⟨him, hii⟩, hmi, -⟩ := hnd
  rw [threadInit] at hcall
  obtain ⟨s₁, h₁, hcall⟩ := Outcome.bind_eq_ok.1 hcall
  obtain ⟨s₂, h₂, h₃⟩ := Outcome.bind_eq_ok.1 hcall
  have hempty : Tree { s₀ with allList := [], pidBitmapBits := Mem.zero, log := [] } := by
    refine ⟨List.nodup_nil, ?_, ?_, ?_, ?_, ?_, ?_, fun pid hl => absurd rfl hl, ?_, trivial⟩ <;>
    · intro t ht
      cases ht
  have hT₁ := hempty.boot (by simp) h₁
  obtain ⟨pid₁, hfirst, hpid₁, rfl⟩ := bootThread_spec h₁
  -- the map is empty, so init gets pid 1
  have hone : pid₁ = 1 := by
    by_contra hne
    have hset : bitAt Mem.zero 0 = true := hfirst.set_below 0 (by omega)
    have hzero : bitAt Mem.zero 0 = false := by decide
    rw [hzero] at hset
    cases hset
  subst hone
  have hnew₂ : main ∉ (enlist { s₀ with allList := [], pidBitmapBits := Mem.zero, log := [] } init
      ⟨1, -1, .ready, 0, true, false⟩).allList := by
    simpa [enlist] using Ne.symm him
  have hT₂ := hT₁.boot hnew₂ h₂
  obtain ⟨pid₂, -, -, rfl⟩ := bootThread_spec h₂
  have hnew₃ : idle ∉ (enlist (enlist { s₀ with allList := [], pidBitmapBits := Mem.zero, log := [] }
      init ⟨1, -1, .ready, 0, true, false⟩) main ⟨pid₂, -1, .ready, 0, false, false⟩).allList := by
    simpa [enlist] using ⟨Ne.symm hii, Ne.symm hmi⟩
  have hT₃ := hT₂.boot hnew₃ h₃
  obtain ⟨pid₃, -, -, rfl⟩ := bootThread_spec h₃
  refine ⟨hT₃, init, by simp [enlist], ?_⟩
  rw [enlist_tcb_of_mem hnew₃ (by simp [enlist]), enlist_tcb_of_mem hnew₂ (by simp [enlist]),
    enlist_tcb_self]
  exact ⟨rfl, rfl, by simp, rfl⟩

theorem treeInv_reachable (h : familySystem.Reachable s) : TreeInv s := by
  apply h.invariant
  · rintro s ⟨s₀, init, main, idle, hnd, hcall⟩
    exact threadInit_inv hnd hcall
  · rintro s op s' hs ⟨hlegal, hrun⟩
    exact hs.step hlegal hrun

/-! ## Pids, parents and reaping -/

/-- Pids are distinct and marked, parents are there and have not exited, and
    the log tells a life of each pid that ends with one `sys_wait` of its
    parent. -/
structure FamilyOk (s : Family) : Prop where
  distinct : ∀ t ∈ s.allList, ∀ u ∈ s.allList, (s.tcb t).pid = (s.tcb u).pid → t = u
  marked : ∀ t ∈ s.allList, bitmapScanTest (pidBitmap s) ((s.tcb t).pid - 1) = true
  parent : ∀ t ∈ s.allList, (s.tcb t).parentPid ≠ -1 → ∃ u ∈ s.allList,
    pid2thread s (s.tcb t).parentPid = some u ∧ ((s.tcb u).pid : Int) = (s.tcb t).parentPid
      ∧ life (s.tcb u).pid s.log = .alive
  hanging : ∀ t ∈ s.allList, (s.tcb t).status = .hanging ↔
    ∃ st, life (s.tcb t).pid s.log = .zombie st
  log : LogOk s.log

theorem TreeInv.familyOk (h : TreeInv s) : FamilyOk s := by
  refine ⟨h.pidInj, fun t ht => (h.pidUsed t ht).2.2, fun t ht hp => ?_, fun t ht => ?_, h.log⟩
  · obtain ⟨u, hu, hpid, hst, -⟩ := h.parent t ht hp
    exact ⟨u, hu, by rw [← hpid]; exact pid2thread_eq h.pidInj hu, hpid, h.living u hu hst⟩
  · constructor
    · intro hst
      obtain ⟨st, hlife, -⟩ := h.zombie t ht hst
      exact ⟨st, hlife⟩
    · rintro ⟨st, hlife⟩
      by_contra hst
      rw [h.living t ht hst] at hlife
      cases hlife

/-- In every reachable state the families are in order, and a process with a
    parent can exit. -/
theorem family_ok (h : familySystem.Reachable s) :
    FamilyOk s ∧ ∀ p status, (FamilyOp.exit p status).Legal s → (s.tcb p).parentPid ≠ -1 →
      ∃ s', sysExit p status s = .ok s' := by
  have hinv := treeInv_reachable h
  refine ⟨hinv.familyOk, fun p status hlegal hpar => ?_⟩
  obtain ⟨q, s', hcall, -⟩ := sysExit_eq hinv.toTree hlegal.1.1 hpar status
  exact ⟨s', hcall⟩

/-- Some steps in a row, from `thread_init` on. -/
def runOps (s : Family) : List FamilyOp → Outcome Family
  | [] => .ok s
  | op :: ops => do
      require (op.Legal s)
      let s ← op.run s
      runOps s ops

theorem runOps_reachable {ops : List FamilyOp} (h : familySystem.Reachable s)
    (hrun : runOps s ops = .ok s') : familySystem.Reachable s' := by
  induction ops generalizing s with
  | nil =>
      cases hrun
      exact h
  | cons op ops ih =>
      obtain ⟨_, hlegal, hrun⟩ := Outcome.bind_eq_ok.1 hrun
      obtain ⟨s₁, hop, hrun⟩ := Outcome.bind_eq_ok.1 hrun
      rw [require_eq_ok] at hlegal
      exact ih (h.next ⟨hlegal, hop⟩) hrun

/-- A machine before `thread_init`. -/
def blankFamily : Family where
  allList := []
  tcb _ := ⟨0, -1, .ready, 0, false, false⟩
  pidBitmapBits := Mem.zero
  log := []

/-- init in page 1, the main thread in page 2, idle in page 3; then `ops`. -/
def bootRun (ops : List FamilyOp) : Outcome Family := do
  let s ← threadInit 1 2 3 blankFamily
  runOps s ops

theorem bootRun_reachable {ops : List FamilyOp} (hrun : bootRun ops = .ok s) :
    familySystem.Reachable s := by
  obtain ⟨s₀, hinit, hrun⟩ := Outcome.bind_eq_ok.1 hrun
  exact runOps_reachable (System.reachable_init ⟨blankFamily, 1, 2, 3, by decide, hinit⟩) hrun

/-- The run returns in a state that passes the test. -/
def endsIn (r : Outcome Family) (test : Family → Bool) : Bool :=
  match r with
  | .ok s => test s
  | .error _ => false

theorem endsIn_iff {r : Outcome Family} {test : Family → Bool} :
    endsIn r test = true ↔ ∃ s, r = .ok s ∧ test s = true := by
  cases r with
  | error e => simp [endsIn]
  | ok s => simp [endsIn]

/-- init has a child, which calls `exit(300)` and is waited for. -/
def reapRun : List FamilyOp := [.fork 1 (.copied 4), .exit 4 300, .wait 1]

theorem family_ok_reapRun : ∃ s, bootRun reapRun = .ok s
    ∧ s.log.head? = some (.reaped 1 4 44) ∧ FamilyOk s := by
  have hend : endsIn (bootRun reapRun)
      (fun s => decide (s.log.head? = some (.reaped 1 4 44))) = true := by decide
  obtain ⟨s, hrun, hhead⟩ := endsIn_iff.1 hend
  exact ⟨s, hrun, of_decide_eq_true hhead, (family_ok (bootRun_reachable hrun)).1⟩

/-! ## Reaping is not missed -/

/-- No waiting process has a zombie child. -/
def NoMissed (s : Family) : Prop :=
  ∀ t ∈ s.allList, (s.tcb t).status = .waiting →
    ∀ z ∈ s.allList, (s.tcb z).parentPid = (s.tcb t).pid → (s.tcb z).status ≠ .hanging

/-- A process that exits while init waits, and is not init's child, has no
    zombie child. -/
def WakesAdopter (s : Family) : FamilyOp → Prop
  | .exit p _ => (s.tcb p).parentPid = 1 ∨ ∀ i ∈ s.allList, (s.tcb i).pid = 1 →
      (s.tcb i).status = .waiting → ∀ z ∈ s.allList, (s.tcb z).parentPid = (s.tcb p).pid →
        (s.tcb z).status ≠ .hanging
  | _ => True

instance (s : Family) : (op : FamilyOp) → Decidable (WakesAdopter s op)
  | .exit p _ => inferInstanceAs (Decidable ((s.tcb p).parentPid = 1 ∨ ∀ i ∈ s.allList,
      (s.tcb i).pid = 1 → (s.tcb i).status = .waiting → ∀ z ∈ s.allList,
        (s.tcb z).parentPid = (s.tcb p).pid → (s.tcb z).status ≠ .hanging))
  | .fork .. | .wait .. | .endKernelThread .. => .isTrue trivial

/-- Steps that make no thread wait and no zombie. -/
theorem NoMissed.mono (h : NoMissed s) (hlist : ∀ t ∈ s'.allList, t ∈ s.allList)
    (hpid : ∀ t ∈ s'.allList, (s'.tcb t).pid = (s.tcb t).pid)
    (hpar : ∀ t ∈ s'.allList, (s'.tcb t).parentPid = (s.tcb t).parentPid)
    (hwait : ∀ t ∈ s'.allList, (s'.tcb t).status = .waiting → (s.tcb t).status = .waiting)
    (hhang : ∀ t ∈ s'.allList, (s'.tcb t).status = .hanging → (s.tcb t).status = .hanging) :
    NoMissed s' := by
  intro t ht hst z hz hzp hzst
  rw [hpar z hz, hpid t ht] at hzp
  exact h t (hlist t ht) (hwait t ht hst) z (hlist z hz) hzp (hhang z hz hzst)

theorem NoMissed.enlist {c : Task} (h : NoMissed s) (hnew : t ∉ s.allList)
    (hst : c.status = .ready) : NoMissed (enlist s t c) := by
  have hold : ∀ u ∈ (Userprog.enlist s t c).allList, u ∈ s.allList
      ∧ (Userprog.enlist s t c).tcb u = s.tcb u
      ∨ ((Userprog.enlist s t c).tcb u).status = .ready := by
    intro u hu
    rcases List.mem_append.1 hu with hu | hu
    · exact .inl ⟨hu, enlist_tcb_of_mem hnew hu⟩
    · rw [List.mem_singleton.1 hu, enlist_tcb_self]
      exact .inr hst
  intro u hu hust z hz hzp hzst
  rcases hold u hu with ⟨hu', hueq⟩ | hready
  · rcases hold z hz with ⟨hz', hzeq⟩ | hready
    · rw [hueq] at hust hzp
      rw [hzeq] at hzp hzst
      exact h u hu' hust z hz' hzp hzst
    · rw [hready] at hzst
      cases hzst
  · rw [hready] at hust
    cases hust

theorem NoMissed.fork {mem : ForkMem} {r : Option Nat} (h : NoMissed s) (hp : p ∈ s.allList)
    (hmem : mem.Fresh s) (hcall : sysFork p mem s = .ok (r, s')) : NoMissed s' := by
  rcases sysFork_cases hp hmem hcall with rfl | ⟨t, pid, hnew, rfl⟩ | ⟨t, pid, hnew, -, -, -, rfl⟩
  · exact h
  · have hold : ∀ u ∈ s.allList, Function.update s.tcb t (childTask (s.tcb p) pid) u = s.tcb u := by
      intro u hu
      apply Function.update_of_ne
      rintro rfl
      exact hnew hu
    refine h.mono (fun _ hu => hu) ?_ ?_ ?_ ?_ <;>
    · intro u hu
      simp only [hold u hu]
      try exact id
  · exact h.enlist hnew rfl

theorem NoMissed.drop {e : Event} (h : NoMissed s) (hnd : s.allList.Nodup) :
    NoMissed ((threadExit t s).record e) := by
  have hmem : ∀ u ∈ ((threadExit t s).record e).allList, u ∈ s.allList ∧ u ≠ t := by
    intro u hu
    have hu' : u ∈ s.allList.erase t := hu
    rw [hnd.mem_erase_iff] at hu'
    exact hu'.symm
  have htcb : ∀ u ∈ ((threadExit t s).record e).allList,
      ((threadExit t s).record e).tcb u = s.tcb u :=
    fun u hu => Function.update_of_ne (hmem u hu).2 _ _
  refine h.mono (fun u hu => (hmem u hu).1) ?_ ?_ ?_ ?_ <;>
  · intro u hu
    rw [htcb u hu]
    try exact id

theorem NoMissed.wait (h : NoMissed s) (hnd : s.allList.Nodup) (hp : Runnable s p) :
    NoMissed (sysWait p s).2 := by
  obtain ⟨hpmem, hpst⟩ := hp
  rcases sysWait_cases p s with ⟨c, hc, hpar, hhang, heq⟩ | ⟨hnone, heq | heq⟩
  · rw [heq]
    refine (h.drop hnd (t := c) (e := .reaped ((threadExit c s).tcb p).pid (s.tcb c).pid
      ((s.tcb c).exitStatus.signExtend 32))).mono (fun _ hu => hu) ?_ ?_ ?_ ?_ <;>
    · intro u _
      by_cases hup : u = p
      · subst hup
        simp [Family.setTask, Family.record]
      · simp [Family.setTask, Family.record, hup]
  · rw [heq]
    refine h.mono (fun _ hu => hu) ?_ ?_ ?_ ?_ <;>
    · intro u _
      by_cases hup : u = p
      · subst hup
        simp [Family.setTask]
      · simp [Family.setTask, hup]
  · -- the caller blocks, having seen no zombie of its own
    have hother : ∀ u, u ≠ p → ((sysWait p s).2.tcb u) = s.tcb u := by
      intro u hu
      rw [heq]
      exact Function.update_of_ne hu _ _
    have hself : (sysWait p s).2.tcb p = { s.tcb p with inWait := true, status := .waiting } := by
      rw [heq]
      exact Function.update_self ..
    have hzombie : ∀ z, ((sysWait p s).2.tcb z).status = .hanging →
        (s.tcb z).status = .hanging ∧ ((sysWait p s).2.tcb z).parentPid = (s.tcb z).parentPid := by
      intro z hz
      by_cases hzp : z = p
      · rw [hzp, hself] at hz
        cases hz
      · rw [hother z hzp] at hz ⊢
        exact ⟨hz, rfl⟩
    have hlist : (sysWait p s).2.allList = s.allList := by
      rw [heq]
      rfl
    intro t ht hst z hz hzp hzst
    rw [hlist] at ht hz
    obtain ⟨hzst', hzpar⟩ := hzombie z hzst
    rw [hzpar] at hzp
    by_cases htp : t = p
    · rw [htp, hself] at hzp
      exact hnone z hz hzp hzst'
    · rw [hother t htp] at hst hzp
      exact h t ht hst z hz hzp hzst'

/-- An exit keeps the waiting processes free of zombies exactly when it meets
    the condition. -/
theorem noMissed_exit_iff {q : Pcb} {status : BitVec 32} (hT : Tree s) (h : NoMissed s)
    (hp : Runnable s p) (hx : Exited s s' p q status) :
    NoMissed s' ↔ WakesAdopter s (.exit p status) := by
  obtain ⟨hpmem, hpst⟩ := hp
  have hqmem := hx.mem.2
  have hpid : ∀ t ∈ s.allList, (s'.tcb t).pid = (s.tcb t).pid := by
    intro t ht
    rw [hx.tcb t ht]
    rfl
  have hpar : ∀ t ∈ s.allList, (s'.tcb t).parentPid
      = if (s.tcb t).parentPid = (s.tcb p).pid then 1 else (s.tcb t).parentPid := by
    intro t ht
    rw [hx.tcb t ht]
    rfl
  have hwait : ∀ t ∈ s.allList, (s'.tcb t).status = .waiting ↔
      (s.tcb t).status = .waiting ∧ t ≠ q := by
    intro t ht
    rw [hx.tcb t ht, exitTask]
    by_cases htp : t = p
    · subst htp
      rcases hpst with hpst | hpst <;> simp [hpst]
    · by_cases htq : t = q
      · subst htq
        by_cases hw : (s.tcb t).status = .waiting <;> simp [hw, htp]
      · simp [htp, htq]
  constructor
  · intro h'
    by_cases hone : (s.tcb p).parentPid = 1
    · exact .inl hone
    · refine .inr fun i hi hipid hist z hz hzp hzst => ?_
      have hiq : i ≠ q := by
        rintro rfl
        rw [← hx.isParent, hipid] at hone
        exact hone rfl
      refine h' i (hx.allList ▸ hi) ((hwait i hi).2 ⟨hist, hiq⟩) z (hx.allList ▸ hz) ?_
        ((hx.hanging hz).2 (.inr hzst))
      rw [hpar z hz, if_pos hzp, hpid i hi, hipid]
      rfl
  · intro hok t ht hst z hz hzp hzst
    rw [hx.allList] at ht hz
    obtain ⟨hst, htq⟩ := (hwait t ht).1 hst
    rw [hpar z hz, hpid t ht] at hzp
    -- the parent of the process that exits has been woken
    have hnotq : ((s.tcb t).pid : Int) ≠ (s.tcb p).parentPid := by
      intro heq
      exact htq (hT.pidInj t ht q hqmem (by have := hx.isParent; omega))
    rcases (hx.hanging hz).1 hzst with rfl | hzst
    · rw [if_neg (hT.notSelf z hz)] at hzp
      exact hnotq hzp.symm
    · by_cases hch : (s.tcb z).parentPid = (s.tcb p).pid
      · rw [if_pos hch] at hzp
        rcases hok with hone | hok
        · exact hnotq (by rw [hone, ← hzp])
        · exact hok t ht (by exact_mod_cast hzp.symm) hst z hz hch hzst
      · rw [if_neg hch] at hzp
        exact h t ht hst z hz hzp hzst

theorem noMissed_step_iff {op : FamilyOp} (hT : TreeInv s) (h : NoMissed s) (hop : op.Legal s)
    (hrun : op.run s = .ok s') : NoMissed s' ↔ WakesAdopter s op := by
  cases op with
  | fork p mem =>
      obtain ⟨⟨r, s₁⟩, hcall, hrun⟩ := Outcome.bind_eq_ok.1 hrun
      cases hrun
      exact iff_of_true (h.fork hop.1.1 hop.2.2 hcall) trivial
  | exit p status =>
      have hpar : (s.tcb p).parentPid ≠ -1 := by
        obtain ⟨_, hreq, -⟩ := Outcome.bind_eq_ok.1 hrun
        rw [require_eq_ok] at hreq
        simpa [Family.setTask] using hreq
      obtain ⟨q, s₁, hcall, hx⟩ := sysExit_eq hT.toTree hop.1.1 hpar status
      cases hcall.symm.trans hrun
      exact noMissed_exit_iff hT.toTree h hop.1 hx
  | wait p =>
      cases hrun
      exact iff_of_true (h.wait hT.nodup hop) trivial
  | endKernelThread t =>
      cases hrun
      exact iff_of_true (h.drop hT.nodup) trivial

theorem threadInit_noMissed {s₀ : Family} {init main idle : Pcb}
    (hnd : [init, main, idle].Nodup) (hcall : threadInit init main idle s₀ = .ok s) :
    NoMissed s := by
  simp only [List.nodup_cons, List.mem_cons, List.not_mem_nil, or_false, not_or] at hnd
  obtain ⟨⟨him, hii⟩, hmi, -⟩ := hnd
  obtain ⟨s₁, h₁, hcall⟩ := Outcome.bind_eq_ok.1 hcall
  obtain ⟨s₂, h₂, h₃⟩ := Outcome.bind_eq_ok.1 hcall
  obtain ⟨pid₁, -, -, rfl⟩ := bootThread_spec h₁
  obtain ⟨pid₂, -, -, rfl⟩ := bootThread_spec h₂
  obtain ⟨pid₃, -, -, rfl⟩ := bootThread_spec h₃
  have hempty : NoMissed { s₀ with allList := [], pidBitmapBits := Mem.zero, log := [] } := by
    intro t ht
    cases ht
  refine ((hempty.enlist (by simp) rfl).enlist ?_ rfl).enlist ?_ rfl
  · simpa [enlist] using Ne.symm him
  · simpa [enlist] using ⟨Ne.symm hii, Ne.symm hmi⟩

/-- In every run whose exits meet the condition no reaping is missed; the next
    step keeps it so exactly when it meets the condition too. -/
theorem noMissed_of_wakesAdopter (h : (familySystem.restrict WakesAdopter).Reachable s) :
    NoMissed s ∧ ∀ op s', familySystem.next s op s' → (NoMissed s' ↔ WakesAdopter s op) := by
  have hboth : TreeInv s ∧ NoMissed s := by
    apply h.invariant
    · rintro s ⟨s₀, init, main, idle, hnd, hcall⟩
      exact ⟨threadInit_inv hnd hcall, threadInit_noMissed hnd hcall⟩
    · rintro s op s' ⟨hT, hs⟩ ⟨hok, hlegal, hrun⟩
      exact ⟨hT.step hlegal hrun, (noMissed_step_iff hT hs hlegal hrun).2 hok⟩
  exact ⟨hboth.2, fun op s' hstep => noMissed_step_iff hboth.1 hboth.2 hstep.1 hstep.2⟩

/-- init's child 4 has a child 5.  init waits, 4 exits and hands 5 to init, which
    reaps 4 and waits again; then 5 exits and wakes it. -/
def wokenRun : List FamilyOp :=
  [.fork 1 (.copied 4), .fork 4 (.copied 5), .wait 1, .exit 4 3, .wait 1, .wait 1, .exit 5 7]

theorem noMissed_of_wakesAdopter_woken : ∃ s₀ s, threadInit 1 2 3 blankFamily = .ok s₀
    ∧ System.runSteps (fun s op => WakesAdopter s op ∧ op.Legal s) FamilyOp.run wokenRun s₀ = .ok s
    ∧ (s.tcb 1).status = .ready ∧ (s.tcb 1).inWait = true ∧ (s.tcb 5).status = .hanging
    ∧ s.log.head? = some (.exited 5 7)
    ∧ NoMissed s ∧ ∀ op s', familySystem.next s op s' → (NoMissed s' ↔ WakesAdopter s op) := by
  have hend : (threadInit 1 2 3 blankFamily >>= fun s₀ =>
      System.runSteps (fun s op => WakesAdopter s op ∧ op.Legal s) FamilyOp.run wokenRun s₀).returns
        (fun s => decide ((s.tcb 1).status = .ready ∧ (s.tcb 1).inWait = true
          ∧ (s.tcb 5).status = .hanging ∧ s.log.head? = some (.exited 5 7))) = true := by
    decide +kernel
  obtain ⟨s, hrun, hfacts⟩ := Outcome.returns_iff.1 hend
  obtain ⟨s₀, hinit, hrun⟩ := Outcome.bind_eq_ok.1 hrun
  obtain ⟨hready, hwait, hzombie, hlog⟩ := of_decide_eq_true hfacts
  refine ⟨s₀, s, hinit, hrun, hready, hwait, hzombie, hlog, noMissed_of_wakesAdopter ?_⟩
  exact System.Reachable.runSteps (M := familySystem.restrict WakesAdopter)
    (fun _ _ _ hok hstep => ⟨hok.1, hok.2, hstep⟩)
    (System.reachable_init ⟨blankFamily, 1, 2, 3, by decide, hinit⟩) hrun

/-- init's child 4 has a child 5, which has a child 6: 6 exits, init waits, 5
    exits and hands the zombie 6 to init. -/
def missedRun : List FamilyOp :=
  [.fork 1 (.copied 4), .fork 4 (.copied 5), .fork 5 (.copied 6), .exit 6 0, .wait 1, .exit 5 0]

theorem missed_reaping : ∃ s, familySystem.Reachable s ∧ ¬ NoMissed s := by
  have hend : endsIn (bootRun missedRun) (fun s => decide (1 ∈ s.allList ∧ 6 ∈ s.allList
      ∧ (s.tcb 1).status = .waiting ∧ (s.tcb 6).status = .hanging
      ∧ (s.tcb 6).parentPid = (s.tcb 1).pid)) = true := by
    decide +kernel
  obtain ⟨s, hrun, hmissed⟩ := endsIn_iff.1 hend
  obtain ⟨hinit, hzombie, hwait, hhang, hpar⟩ := of_decide_eq_true hmissed
  exact ⟨s, bootRun_reachable hrun, fun h => h 1 hinit hwait 6 hzombie hpar hhang⟩

end Userprog
end JackOS
