/-
  JackOS.Userprog.FdTableSafe

  Descriptors over whole runs.  A pipe counts its descriptors, so pipes are
  closed with the last one.  A file counts its users in the inode but
  `file_close` empties the entry that all of them name, so a file that is
  shared by fork must not be closed by anyone as long as it is.
-/

import JackOS.Userprog.FdTableInv

namespace JackOS
namespace Userprog

open Base Fs

variable {d d' : FdState} {refs refs' : Nat → Nat} {ds : List Nat} {t : Nat}

/-! ## The descriptors of the live processes -/

theorem mem_localFds {i : Nat} : i ∈ localFds ↔ 3 ≤ i ∧ i < maxFileOpenPerProc := by
  rw [localFds, List.mem_range'_1]
  exact Iff.rfl

theorem localFds_nodup : localFds.Nodup := List.nodup_range'

/-- The entry that a descriptor names. -/
def fdEntry (task : Fs.Task) (i : Nat) : Option Nat :=
  if task.fdTable i = -1 then none else some (task.fdTable i).toNat

theorem fdEntry_of_eq {task : Fs.Task} {i g : Nat} (h : task.fdTable i = g) :
    fdEntry task i = some g := by
  rw [fdEntry, if_neg (by omega), h]
  rfl

theorem mem_descs {g : Nat} :
    g ∈ d.descs ↔ ∃ t ∈ d.live, ∃ i ∈ localFds, fdEntry (d.fs.procs t) i = some g := by
  rw [FdState.descs, List.mem_flatMap]
  refine exists_congr fun t => and_congr_right fun _ => ?_
  rw [procFds, List.mem_filterMap]
  rfl

/-- The descriptors of the other processes. -/
def otherDescs (d : FdState) (t : Nat) : List Nat :=
  (d.live.erase t).flatMap fun u => procFds (d.fs.procs u) localFds

theorem descs_perm (ht : t ∈ d.live) :
    d.descs.Perm (procFds (d.fs.procs t) localFds ++ otherDescs d t) :=
  flatMap_perm_erase _ ht

/-- The same with one descriptor of `t` set apart. -/
theorem descs_perm_fd {i : Nat} (ht : t ∈ d.live) (hi : i ∈ localFds) :
    d.descs.Perm ((fdEntry (d.fs.procs t) i).toList
      ++ (procFds (d.fs.procs t) (localFds.erase i) ++ otherDescs d t)) := by
  refine (descs_perm ht).trans ?_
  rw [← List.append_assoc]
  exact (filterMap_perm_erase _ hi).append_right _

/-- A state that differs in descriptor `i` of `t` only. -/
theorem descs_update {i : Nat} (ht : t ∈ d.live) (hi : i ∈ localFds) (hnodup : d.live.Nodup)
    (hlive : d'.live = d.live)
    (hother : ∀ u, u ≠ t → (d'.fs.procs u).fdTable = (d.fs.procs u).fdTable)
    (hrest : ∀ j, j ≠ i → (d'.fs.procs t).fdTable j = (d.fs.procs t).fdTable j) :
    d'.descs.Perm ((fdEntry (d'.fs.procs t) i).toList
      ++ (procFds (d.fs.procs t) (localFds.erase i) ++ otherDescs d t)) := by
  have hothers : otherDescs d' t = otherDescs d t := by
    rw [otherDescs, otherDescs, hlive]
    refine flatMap_erase_congr hnodup fun u hu => ?_
    exact procFds_congr fun j _ => by rw [hother u hu]
  have hfds : procFds (d'.fs.procs t) (localFds.erase i)
      = procFds (d.fs.procs t) (localFds.erase i) := by
    refine procFds_congr fun j hj => hrest j ?_
    exact (localFds_nodup.mem_erase_iff.1 hj).1
  rw [← hothers, ← hfds]
  exact descs_perm_fd (hlive ▸ ht) hi

/-- The same descriptors. -/
theorem descs_congr (hlive : d'.live = d.live)
    (hsame : ∀ u ∈ d.live, (d'.fs.procs u).fdTable = (d.fs.procs u).fdTable) :
    d'.descs = d.descs := by
  rw [FdState.descs, FdState.descs, hlive]
  exact List.flatMap_congr fun u hu => procFds_congr fun j _ => by rw [hsame u hu]

theorem length_descs : d.descs.length ≤ 5 * d.live.length := by
  rw [FdState.descs]
  generalize d.live = live
  induction live with
  | nil => exact Nat.le_refl _
  | cons t live ih =>
      rw [List.flatMap_cons, List.length_append, List.length_cons]
      have hfew := length_procFds (d.fs.procs t) localFds
      have hfive : localFds.length = 5 := rfl
      omega

/-! ## The invariant -/

/-- What holds in every state of a run that meets the condition. -/
structure Good (d : FdState) : Prop where
  holds : ∃ refs, Holds d.fs refs d.descs
  nodup : d.live.Nodup
  few : d.live.length ≤ 1024
  valid : Valid d

theorem Good.length (h : Good d) : d.descs.length ≤ 5120 := by
  have := length_descs (d := d)
  have := h.few
  omega

/-- A descriptor names an entry of the file table. -/
theorem Valid.entry {i : Nat} (h : Valid d) (ht : t ∈ d.live) (hi : i ∈ localFds)
    (hfd : (d.fs.procs t).fdTable i ≠ -1) :
    ∃ g : Nat, (d.fs.procs t).fdTable i = g ∧ g ∈ d.descs := by
  obtain ⟨hthree, hmax⟩ := mem_localFds.1 hi
  obtain ⟨g, o, hg, -⟩ := h t ht i hthree hmax hfd
  exact ⟨g, hg, mem_descs.2 ⟨t, ht, i, hi, fdEntry_of_eq hg⟩⟩

/-- Each descriptor is one from before, whose entry was kept, or a new one. -/
theorem Valid.step {ds₀ : List Nat} (h : Valid d) (hs : Holds d.fs refs ds₀)
    (hsub : ∀ g ∈ d.descs, g ∈ ds₀) (hs' : Counted d'.fs refs') (hkept : Kept d.fs d'.fs ds)
    (hfds : ∀ u ∈ d'.live, ∀ i ∈ localFds, (d'.fs.procs u).fdTable i ≠ -1 →
      (∃ v ∈ d.live, (d'.fs.procs u).fdTable i = (d.fs.procs v).fdTable i
          ∧ d'.openedOn u i = d.openedOn v i ∧ ((d'.fs.procs u).fdTable i).toNat ∈ ds)
        ∨ ∃ (g : Nat) (o : Opened), (d'.fs.procs u).fdTable i = g ∧ g < maxFileOpen
          ∧ d'.openedOn u i = some o ∧ Denotes d'.fs g o) :
    Valid d' := by
  intro u hu i hthree hmax hfd
  have hi := mem_localFds.2 ⟨hthree, hmax⟩
  rcases hfds u hu i hi hfd with ⟨v, hv, hsame, hop, hmem⟩ | hnew
  · rw [hsame] at hfd hmem
    obtain ⟨g, o, hg, hlt, ho, hden⟩ := h v hv i hthree hmax hfd
    rw [hg] at hmem
    refine ⟨g, o, hsame.trans hg, hlt, hop.trans ho, hden.kept hs (hsub g ?_) hkept hmem hs'⟩
    exact mem_descs.2 ⟨v, hv, i, hi, fdEntry_of_eq hg⟩
  · exact hnew

/-- Nothing was closed. -/
theorem released_of_sub (hs' : Holds d'.fs refs' d'.descs) (hsub : ∀ g ∈ d.descs, g ∈ d'.descs) :
    ReleasedWithLast d d' := by
  intro g hg
  obtain ⟨p, hp⟩ := hs'.used g (hsub g hg)
  rw [hp]
  exact iff_of_false (fun heq => (by cases heq)) (not_not.2 (hsub g hg))

theorem room_of_countsLow {s : FsState} (h : RefCounts s refs) (hlow : CountsLow s) :
    Room refs 8 := by
  intro p
  by_cases hp : p ∈ s.part.openInodes
  · have := hlow p hp
    rw [h.count p hp] at this
    exact this
  · have hzero : refs p = 0 := by
      have := mt (h.held p).2 hp
      omega
    rw [hzero]
    norm_num

theorem note_neg (d : FdState) (t : Nat) {fd : Int} (h : fd < 0) : d.note t fd = d := if_pos h

theorem note_fs (d : FdState) (t : Nat) (fd : Int) :
    (d.note t fd).fs = d.fs ∧ (d.note t fd).live = d.live := by
  unfold FdState.note
  split
  · exact ⟨rfl, rfl⟩
  · exact ⟨rfl, rfl⟩

theorem note_openedOn (d : FdState) (t i : Nat) :
    (d.note t i).openedOn = Function.update d.openedOn t (Function.update (d.openedOn t) i
      (denoted d.fs ((d.fs.procs t).fdTable i).toNat)) := by
  unfold FdState.note
  rw [if_neg (by omega)]
  rfl

/-! ## Steps -/

/-- Another process runs on the same tables. -/
theorem Holds.runAs {s : FsState} (h : Holds s refs ds) (t : Nat) : Holds (s.runAs t) refs ds :=
  ⟨⟨⟨h.nodup, h.lt, h.count, h.held, h.small⟩, h.entries⟩, h.nodes, h.range, h.used, h.users⟩

theorem freeLocalFd_some {task : Fs.Task} {i : Nat} (h : freeLocalFd task = some i) :
    i ∈ localFds ∧ task.fdTable i = -1 :=
  ⟨List.mem_of_find?_eq_some h, by simpa using List.find?_some h⟩

/-- A call that leaves all descriptors as they are. -/
theorem Good.same (h : Good d) (hlive : d'.live = d.live) (hop : d'.openedOn = d.openedOn)
    (hsame : ∀ u, (d'.fs.procs u).fdTable = (d.fs.procs u).fdTable)
    (hs' : Holds d'.fs refs' d.descs) (hkept : Kept d.fs d'.fs d.descs) :
    Good d' ∧ ReleasedWithLast d d' := by
  obtain ⟨refs, hs⟩ := h.holds
  have hdescs : d'.descs = d.descs := descs_congr hlive fun u _ => hsame u
  have hs'' : Holds d'.fs refs' d'.descs := by
    rw [hdescs]
    exact hs'
  refine ⟨⟨⟨refs', hs''⟩, hlive ▸ h.nodup, hlive ▸ h.few,
    h.valid.step hs (fun _ hg => hg) hs'.toCounted hkept fun u hu i hi hfd => .inl ?_⟩,
    released_of_sub hs'' fun g hg => by rw [hdescs]; exact hg⟩
  rw [hlive] at hu
  rw [hsame u] at hfd ⊢
  obtain ⟨g, hg, hmem⟩ := h.valid.entry hu hi hfd
  refine ⟨u, hu, rfl, by rw [hop], ?_⟩
  rw [hg]
  exact hmem

/-- Descriptor `i` of `t` is new and names the entry `slot`. -/
structure NewFd (d d' : FdState) (t i slot : Nat) : Prop where
  mem : t ∈ d.live
  free : freeLocalFd (d.fs.procs t) = some i
  live : d'.live = d.live
  fds : ∀ u, (d'.fs.procs u).fdTable
    = if u = t then Function.update (d.fs.procs t).fdTable i slot else (d.fs.procs u).fdTable
  openedOn : d'.openedOn = Function.update d.openedOn t (Function.update (d.openedOn t) i
    (denoted d'.fs slot))

theorem NewFd.other {i slot u : Nat} (h : NewFd d d' t i slot) (hu : u ≠ t) :
    (d'.fs.procs u).fdTable = (d.fs.procs u).fdTable := by
  rw [h.fds, if_neg hu]

theorem NewFd.rest {i slot j : Nat} (h : NewFd d d' t i slot) (hj : j ≠ i) :
    (d'.fs.procs t).fdTable j = (d.fs.procs t).fdTable j := by
  rw [h.fds, if_pos rfl, Function.update_of_ne hj]

theorem NewFd.self {i slot : Nat} (h : NewFd d d' t i slot) :
    (d'.fs.procs t).fdTable i = slot := by
  rw [h.fds, if_pos rfl, Function.update_self]

theorem NewFd.descs {i slot : Nat} (h : NewFd d d' t i slot) (hnodup : d.live.Nodup) :
    d'.descs.Perm (slot :: d.descs) := by
  obtain ⟨hi, hnone⟩ := freeLocalFd_some h.free
  refine (descs_update h.mem hi hnodup h.live (fun _ hu => h.other hu)
    (fun _ hj => h.rest hj)).trans ?_
  rw [fdEntry_of_eq h.self]
  refine List.Perm.cons slot ?_
  have hold := descs_perm_fd h.mem hi
  rw [fdEntry, if_pos hnone] at hold
  exact hold.symm

theorem NewFd.valid {i slot : Nat} {ds' : List Nat} (h : NewFd d d' t i slot) (hv : Valid d)
    (hs : Holds d.fs refs ds) (hsub : ∀ g ∈ d.descs, g ∈ ds) (hs' : Holds d'.fs refs' ds')
    (hslot : slot ∈ ds') (hkept : Kept d.fs d'.fs ds) : Valid d' := by
  refine hv.step hs hsub hs'.toCounted hkept fun u hu j hj hfd => ?_
  rw [h.live] at hu
  by_cases hnew : u = t ∧ j = i
  · obtain ⟨rfl, rfl⟩ := hnew
    obtain ⟨p, hp⟩ := hs'.used slot hslot
    refine .inr ⟨slot, ⟨p, isPipe d'.fs slot, (d'.fs.inodes p).iNo⟩, h.self,
      hs'.range slot hslot, ?_, hp, rfl, fun hfile => ⟨?_, rfl⟩⟩
    · rw [h.openedOn, Function.update_self, Function.update_self, denoted, hp]
      rfl
    · exact hs'.mem_open (hs'.range slot hslot) hp hfile
  · have hsame : (d'.fs.procs u).fdTable j = (d.fs.procs u).fdTable j ∧
        d'.openedOn u j = d.openedOn u j := by
      by_cases hut : u = t
      · have hji : j ≠ i := fun hji => hnew ⟨hut, hji⟩
        rw [hut, h.openedOn, Function.update_self, Function.update_of_ne hji]
        exact ⟨h.rest hji, rfl⟩
      · rw [h.other hut, h.openedOn, Function.update_of_ne hut]
        exact ⟨rfl, rfl⟩
    rw [hsame.1] at hfd
    obtain ⟨g, hg, hmem⟩ := hv.entry hu hj hfd
    refine .inl ⟨u, hu, hsame.1, hsame.2, ?_⟩
    rw [hsame.1, hg]
    exact hsub g hmem

theorem Good.open {s' : FsState} {pathname : List UInt8} {flags : UInt8} {fd : Int} (h : Good d)
    (ht : t ∈ d.live) (hlow : CountsLow d.fs)
    (hcall : sysOpen (d.fs.runAs t) pathname flags.toNat = .ok (fd, s')) :
    Good ({ d with fs := s' }.note t fd) ∧ ReleasedWithLast d ({ d with fs := s' }.note t fd) := by
  obtain ⟨refs, hs⟩ := h.holds
  have hrun := hs.runAs t
  have hroom := room_of_countsLow hs.toRefCounts hlow
  obtain ⟨refs', hs'⟩ := hrun.toCounted.sysOpen (hroom.mono (by norm_num)) hcall
  rcases sysOpen_table ⟨hrun.lt, hrun.nodes⟩ hcall with
    ⟨rfl, href⟩ | ⟨n, slot, p, -, henter, -⟩
  · obtain ⟨hholds, hkept⟩ := hrun.refuses href hs'
    rw [note_neg _ _ (by norm_num)]
    exact h.same rfl rfl href.fds.fdTable hholds ⟨⟨hkept.nextNode, hkept.iNo, hkept.opened⟩,
      hkept.inode, hkept.flag⟩
  · have hflag : flags.toNat ≠ pipeFlag := Nat.ne_of_lt (Nat.lt_trans flags.toNat_lt (by norm_num))
    obtain ⟨hholds, hkept, hnot⟩ := hrun.enters henter hflag hs'
    have hkept : Kept d.fs s' d.descs :=
      ⟨⟨hkept.nextNode, hkept.iNo, hkept.opened⟩, hkept.inode, hkept.flag⟩
    rcases henter.installs.fdTable with ⟨rfl, htables⟩ | ⟨i, hfree, rfl, htables⟩
    · rw [note_neg _ _ (by norm_num)]
      have hlist : Holds s' refs' ([slot] ++ d.descs) := hholds
      have hdrop : ∀ g ∈ [slot], g ∉ d.descs := by simpa using hnot
      exact h.same rfl rfl htables (hlist.of_append hdrop) hkept
    · obtain ⟨hfs, hlive⟩ := note_fs { d with fs := s' } t i
      have htables : ∀ u, (s'.procs u).fdTable = if u = t then
          Function.update (d.fs.procs t).fdTable i slot else (d.fs.procs u).fdTable := htables
      have hself : (s'.procs t).fdTable i = slot := by
        rw [htables, if_pos rfl, Function.update_self]
      have hnew : NewFd d ({ d with fs := s' }.note t i) t i slot := by
        refine ⟨ht, hfree, hlive, ?_, ?_⟩
        · rw [hfs]
          exact htables
        · rw [note_openedOn, hfs]
          show Function.update d.openedOn t (Function.update (d.openedOn t) i
            (denoted s' ((s'.procs t).fdTable i).toNat)) = _
          rw [hself]
          rfl
      have hperm := hnew.descs h.nodup
      have hholds' : Holds ({ d with fs := s' }.note t i).fs refs' (slot :: d.descs) := by
        rw [hfs]
        exact hholds
      have hkept' : Kept d.fs ({ d with fs := s' }.note t i).fs d.descs := by
        rw [hfs]
        exact hkept
      have hend := hholds'.perm hperm.symm
      refine ⟨⟨⟨refs', hend⟩, hlive ▸ h.nodup, hlive ▸ h.few,
        hnew.valid h.valid hs (fun _ hg => hg) hholds' List.mem_cons_self hkept'⟩,
        released_of_sub hend fun g hg => hperm.mem_iff.2 (List.mem_cons_of_mem _ hg)⟩

/-- The last descriptor of a process is taken. -/
theorem freeFds_install {task task' : Fs.Task} {i slot : Nat} (hfree : freeLocalFd task = some i)
    (htask : task'.fdTable = Function.update task.fdTable i slot)
    (hnone : freeLocalFd task' = none) : freeFds task = 1 := by
  obtain ⟨hi, hfd⟩ := freeLocalFd_some hfree
  have hrest : (localFds.erase i).countP (fun j => task.fdTable j = -1)
      = (localFds.erase i).countP (fun j => task'.fdTable j = -1) := by
    refine countP_erase_congr localFds_nodup fun j hj => ?_
    rw [htask, Function.update_of_ne hj]
  have hzero : (localFds.erase i).countP (fun j => task'.fdTable j = -1) = 0 := by
    rw [List.countP_eq_zero]
    intro j hj
    exact List.find?_eq_none.1 hnone j (List.mem_of_mem_erase hj)
  rw [freeFds, countP_eq_erase _ hi, hrest, hzero, if_pos (decide_eq_true hfd)]

theorem pcbFdInstall_none {s : FsState} {slot : Nat} (h : freeLocalFd s.task = none) :
    pcbFdInstall s slot = (-1, s) := by
  rw [pcbFdInstall, h]

theorem pcbFdInstall_some {s : FsState} {slot i : Nat} (h : freeLocalFd s.task = some i) :
    pcbFdInstall s slot = ((i : Int), s.setTask
      { s.task with fdTable := Function.update s.task.fdTable i slot }) := by
  rw [pcbFdInstall, h]

/-- `pcb_fd_install` of entry `slot` by `t`. -/
theorem newFd_install {i slot : Nat} (ht : t ∈ d.live) (hcur : d.fs.cur = t)
    (hfree : freeLocalFd (d.fs.procs t) = some i) (hlive : d'.live = d.live)
    (hfs : d'.fs = d.fs.setTask
      { d.fs.task with fdTable := Function.update d.fs.task.fdTable i slot })
    (hop : d'.openedOn = Function.update d.openedOn t (Function.update (d.openedOn t) i
      (denoted d'.fs slot))) : NewFd d d' t i slot := by
  refine ⟨ht, hfree, hlive, fun u => ?_, hop⟩
  rw [hfs, FsState.setTask_procs, hcur]
  by_cases hu : u = t
  · rw [hu, Function.update_self, if_pos rfl, FsState.task, hcur]
  · rw [Function.update_of_ne hu, if_neg hu]

theorem Holds.setTask {s : FsState} (h : Holds s refs ds) (task : Fs.Task) :
    Holds (s.setTask task) refs ds :=
  ⟨⟨h.toRefCounts.setTask task, h.entries⟩, h.nodes, h.range, h.used, h.users⟩

theorem Kept.setTask {s : FsState} (task : Fs.Task) : Kept s (s.setTask task) ds :=
  .of_eq ((KeepsNodes.refl s).setTask task) fun _ _ => rfl

/-- Two descriptors of a new pipe, whose entry `slot` no other descriptor
    names. -/
theorem Good.pipeFds {base : FsState} {i j slot : Nat} (h : Good d) (ht : t ∈ d.live)
    (hs : Holds base refs (slot :: slot :: d.descs)) (hkept : Kept d.fs base d.descs)
    (hcur : base.cur = t) (hprocs : base.procs = d.fs.procs) {s₃ s₄ : FsState}
    (hs₃ : s₃ = base.setTask
      { base.task with fdTable := Function.update base.task.fdTable i slot })
    (hs₄ : s₄ = s₃.setTask { s₃.task with fdTable := Function.update s₃.task.fdTable j slot })
    (hfree : freeLocalFd base.task = some i) (hfree' : freeLocalFd s₃.task = some j) :
    Good (({ d with fs := s₄ }.note t i).note t j)
      ∧ ReleasedWithLast d (({ d with fs := s₄ }.note t i).note t j) := by
  obtain ⟨refs₀, hold⟩ := h.holds
  have htask : base.task = d.fs.procs t := by rw [FsState.task, hprocs, hcur]
  have hcur₃ : s₃.cur = t := by rw [hs₃]; exact hcur
  have htask₃ : s₃.procs t = s₃.task := by rw [FsState.task, hcur₃]
  -- the entry without descriptors, with the first one and with both
  let d₂ : FdState := { d with fs := base }
  let d₃ : FdState := ⟨s₃, d.live, Function.update d.openedOn t
    (Function.update (d.openedOn t) i (denoted s₃ slot))⟩
  obtain ⟨hfs, hlive⟩ := note_fs ({ d with fs := s₄ }.note t i) t j
  obtain ⟨hfs₁, hlive₁⟩ := note_fs { d with fs := s₄ } t i
  have hnew₁ : NewFd d₂ d₃ t i slot := by
    refine newFd_install ht hcur ?_ rfl hs₃ rfl
    show freeLocalFd (base.procs t) = _
    rw [hprocs, ← htask]
    exact hfree
  have hself₃ : (s₃.procs t).fdTable i = slot := hnew₁.self
  obtain ⟨hj, hjnone⟩ := freeLocalFd_some hfree'
  have hij : j ≠ i := by
    rintro rfl
    rw [← htask₃, hself₃] at hjnone
    omega
  have hself₄ : (s₄.procs t).fdTable i = slot ∧ (s₄.procs t).fdTable j = slot := by
    rw [hs₄, FsState.setTask_procs, hcur₃, Function.update_self, ← htask₃]
    show Function.update (s₃.procs t).fdTable j slot i = slot
      ∧ Function.update (s₃.procs t).fdTable j slot j = slot
    rw [Function.update_of_ne (Ne.symm hij), Function.update_self]
    exact ⟨hself₃, rfl⟩
  have hden : denoted s₄ slot = denoted s₃ slot := by rw [hs₄]; rfl
  have hnew₂ : NewFd d₃ (({ d with fs := s₄ }.note t i).note t j) t j slot := by
    refine newFd_install ht hcur₃ ?_ (hlive.trans hlive₁) ?_ ?_
    · show freeLocalFd (s₃.procs t) = _
      rw [htask₃]
      exact hfree'
    · rw [hfs, hfs₁]
      exact hs₄
    · rw [note_openedOn, note_openedOn, hfs, hfs₁]
      show Function.update (Function.update d.openedOn t (Function.update (d.openedOn t) i
          (denoted s₄ ((s₄.procs t).fdTable i).toNat))) t _ = _
      rw [hself₄.1, hself₄.2, Int.toNat_natCast, hden]
  have hs₃' : Holds s₃ refs (slot :: slot :: d.descs) := by
    rw [hs₃]
    exact hs.setTask _
  have hkept₃ : Kept base s₃ (slot :: slot :: d.descs) := by
    rw [hs₃]
    exact Kept.setTask _
  have hs₄' : Holds (({ d with fs := s₄ }.note t i).note t j).fs refs
      (slot :: slot :: d.descs) := by
    rw [hfs, hfs₁, hs₄]
    exact hs₃'.setTask _
  have hvalid₂ : Valid d₂ := by
    refine h.valid.step hold (fun _ hg => hg) hs.toCounted hkept fun u hu k hk hfd => .inl ?_
    have hfds : (d₂.fs.procs u).fdTable k = (d.fs.procs u).fdTable k := by
      show (base.procs u).fdTable k = _
      rw [hprocs]
    rw [hfds] at hfd
    obtain ⟨g, hg, hmem⟩ := h.valid.entry hu hk hfd
    refine ⟨u, hu, hfds, rfl, ?_⟩
    rw [hfds, hg]
    exact hmem
  have hdescs₂ : d₂.descs = d.descs := descs_congr rfl fun u _ => by
    show (base.procs u).fdTable = _
    rw [hprocs]
  have hperm₁ := hnew₁.descs h.nodup
  rw [hdescs₂] at hperm₁
  have hvalid₃ : Valid d₃ := hnew₁.valid hvalid₂ hs
    (fun g hg => List.mem_cons_of_mem _ (List.mem_cons_of_mem _ (hdescs₂ ▸ hg))) hs₃'
    List.mem_cons_self hkept₃
  have hvalid₄ := hnew₂.valid hvalid₃ hs₃'
    (fun g hg => List.mem_cons_of_mem _ (hperm₁.mem_iff.1 hg)) hs₄' List.mem_cons_self (by
      rw [hfs, hfs₁, hs₄]
      exact Kept.setTask _)
  have hperm := (hnew₂.descs h.nodup).trans (hperm₁.cons slot)
  have hend := hs₄'.perm hperm.symm
  have hliveEq := hlive.trans hlive₁
  exact ⟨⟨⟨refs, hend⟩, hliveEq ▸ h.nodup, hliveEq ▸ h.few, hvalid₄⟩,
    released_of_sub hend fun g hg =>
      hperm.mem_iff.2 (List.mem_cons_of_mem _ (List.mem_cons_of_mem _ hg))⟩

theorem Good.pipe {page : Bool} (h : Good d) (ht : t ∈ d.live)
    (hfds : freeFds (d.fs.procs t) ≠ 1) (hcall : (FdOp.pipe t page).run d = .ok d') :
    Good d' ∧ ReleasedWithLast d d' := by
  obtain ⟨⟨pipefd, s'⟩, hcall, hd'⟩ := Outcome.bind_eq_ok.1 hcall
  obtain ⟨refs, hs⟩ := h.holds
  have hrun := hs.runAs t
  unfold sysPipe at hcall
  cases hslot : getFreeSlotInGlobal (d.fs.runAs t) with
  | none =>
      rw [hslot] at hcall
      cases hcall
  | some slot =>
    rw [hslot] at hcall
    cases page with
    | false =>
        cases hcall
        cases hd'
        exact h.same rfl rfl (fun _ => rfl) hrun ⟨⟨Nat.le_refl _, fun _ _ => rfl, fun _ hp => .inl hp⟩,
          fun _ _ => rfl, fun _ _ => rfl⟩
    | true =>
      obtain ⟨hpipe, hkept, hnot⟩ := hrun.newPipe hslot
      let base := ((d.fs.runAs t).newNode ⟨0, 0, 0, false, fun _ => 0⟩).setFd slot
        ⟨2, pipeFlag, some (d.fs.runAs t).nextNode⟩
      have hkept : Kept d.fs base d.descs :=
        ⟨⟨hkept.nextNode, hkept.iNo, hkept.opened⟩, hkept.inode, hkept.flag⟩
      have hpipe : Holds base refs ([slot, slot] ++ d.descs) := hpipe
      have hcall : Except.ok (some ((pcbFdInstall base slot).1,
          (pcbFdInstall (pcbFdInstall base slot).2 slot).1),
          (pcbFdInstall (pcbFdInstall base slot).2 slot).2) = (.ok (pipefd, s') : Outcome _) := hcall
      obtain ⟨hpipefd, hs'⟩ := Prod.mk.inj (Except.ok.inj hcall)
      rw [← hpipefd, ← hs'] at hd'
      cases hfree : freeLocalFd base.task with
      | none =>
          -- no descriptor is left: the page stays in the table for good
          have hdrop : ∀ g ∈ [slot, slot], g ∉ d.descs := by simpa using hnot
          rw [pcbFdInstall_none hfree] at hd'
          simp only at hd'
          rw [pcbFdInstall_none hfree] at hd'
          simp only at hd'
          rw [note_neg _ _ (by norm_num), note_neg _ _ (by norm_num)] at hd'
          rw [← Except.ok.inj hd']
          exact h.same rfl rfl (fun _ => rfl) (hpipe.of_append hdrop) hkept
      | some i =>
          rw [pcbFdInstall_some hfree] at hd'
          simp only at hd'
          cases hfree' : freeLocalFd (base.setTask { base.task with
              fdTable := Function.update base.task.fdTable i slot }).task with
          | none =>
              have htask : (base.setTask { base.task with
                  fdTable := Function.update base.task.fdTable i slot }).task.fdTable
                  = Function.update base.task.fdTable i slot := by
                rw [FsState.setTask_task]
              exact absurd (freeFds_install hfree htask hfree') hfds
          | some j =>
              rw [pcbFdInstall_some hfree'] at hd'
              simp only at hd'
              rw [← Except.ok.inj hd']
              exact h.pipeFds ht hpipe hkept rfl rfl rfl rfl hfree hfree'

/-- The child has the parent's descriptors. -/
theorem Good.fork {child pgdir : Nat} (h : Good d) (ht : t ∈ d.live) (hchild : child ∉ d.live)
    (hfew : d.live.length < 1024) (hlow : CountsLow d.fs)
    (hcall : (FdOp.fork t (some child) pgdir).run d = .ok d') :
    Good d' ∧ ReleasedWithLast d d' := by
  obtain ⟨s', hcopy, hd'⟩ := Outcome.bind_eq_ok.1 hcall
  cases hd'
  obtain ⟨refs, hs⟩ := h.holds
  have hlen := h.length
  have hne : t ≠ child := fun heq => hchild (heq ▸ ht)
  -- the copied PCB
  let tcb : Fs.Task := { d.fs.procs t with pgdir := some pgdir }
  let s := { d.fs.runAs t with procs := Function.update d.fs.procs child tcb }
  have hcopy : updateOpenCnts tcb localFds s = .ok s' := hcopy
  have hrun : Holds s refs d.descs :=
    ⟨⟨⟨hs.nodup, hs.lt, hs.count, hs.held, hs.small⟩, hs.entries⟩, hs.nodes, hs.range, hs.used,
      hs.users⟩
  have htask : s.task = d.fs.procs t := Function.update_of_ne hne _ _
  obtain ⟨⟨refs', hs'⟩, hkept, hprocs, hcur⟩ := hrun.updateOpenCnts
    ((room_of_countsLow hs.toRefCounts hlow).mono (by decide))
    (by rw [show localFds.length = 5 from rfl]; omega) (fun i _ => by rw [htask])
    (fun g hg => (descs_perm ht).mem_iff.2 (List.mem_append_left _ hg)) hcopy
  have hfds : ∀ u, (s'.procs u).fdTable
      = if u = child then (d.fs.procs t).fdTable else (d.fs.procs u).fdTable := by
    intro u
    rw [hprocs]
    show (Function.update d.fs.procs child tcb u).fdTable = _
    by_cases hu : u = child
    · rw [hu, Function.update_self, if_pos rfl]
    · rw [Function.update_of_ne hu, if_neg hu]
  have hdescs : FdState.descs ⟨s', child :: d.live, Function.update d.openedOn child (d.openedOn t)⟩
      = procFds (d.fs.procs t) localFds ++ d.descs := by
    rw [FdState.descs, List.flatMap_cons]
    congr 1
    · exact procFds_congr fun i _ => by rw [hfds, if_pos rfl]
    · refine List.flatMap_congr fun u hu => procFds_congr fun i _ => ?_
      have huc : u ≠ child := fun heq => hchild (heq ▸ hu)
      rw [hfds, if_neg huc]
  have hkept : Kept d.fs s' d.descs :=
    ⟨⟨hkept.nextNode, hkept.iNo, hkept.opened⟩, hkept.inode, hkept.flag⟩
  rw [← hdescs] at hs'
  refine ⟨⟨⟨refs', hs'⟩, List.nodup_cons.2 ⟨hchild, h.nodup⟩, hfew,
    h.valid.step hs (fun _ hg => hg) hs'.toCounted hkept fun u hu i hi hfd => .inl ?_⟩,
    released_of_sub hs' fun g hg => ?_⟩
  · show ∃ v ∈ d.live, (s'.procs u).fdTable i = _
        ∧ Function.update d.openedOn child (d.openedOn t) u i = _
        ∧ ((s'.procs u).fdTable i).toNat ∈ d.descs
    replace hfd : (s'.procs u).fdTable i ≠ -1 := hfd
    rw [hfds] at hfd ⊢
    by_cases huc : u = child
    · rw [if_pos huc] at hfd ⊢
      obtain ⟨g, hg, hmem⟩ := h.valid.entry ht hi hfd
      rw [huc, Function.update_self, hg]
      exact ⟨t, ht, hg.symm, rfl, hmem⟩
    · rw [if_neg huc] at hfd ⊢
      have hu : u ∈ d.live := (List.mem_cons.1 hu).resolve_left huc
      obtain ⟨g, hg, hmem⟩ := h.valid.entry hu hi hfd
      rw [Function.update_of_ne huc, hg]
      exact ⟨u, hu, hg.symm, rfl, hmem⟩
  · rw [hdescs]
    exact List.mem_append_right _ hg

/-- From `d` to `d'` the descriptors `ds` are left of those that there were. -/
theorem Good.drop {s' : FsState} {live : List Nat} (h : Good d)
    (hlive : ∀ u ∈ live, u ∈ d.live) (hnodup : live.Nodup) (hfew : live.length ≤ d.live.length)
    (hfds : ∀ u ∈ live, ∀ i ∈ localFds, (s'.procs u).fdTable i ≠ -1 →
      (s'.procs u).fdTable i = (d.fs.procs u).fdTable i)
    (hs' : Holds s' refs' ds) (hkept : Kept d.fs s' ds)
    (hperm : (FdState.descs { d with fs := s', live := live }).Perm ds) :
    Good { d with fs := s', live := live } := by
  obtain ⟨refs, hs⟩ := h.holds
  refine ⟨⟨refs', hs'.perm hperm.symm⟩, hnodup, Nat.le_trans hfew h.few,
    h.valid.step hs (fun _ hg => hg) hs'.toCounted hkept fun u hu i hi hfd => .inl ?_⟩
  have hsame := hfds u hu i hi hfd
  have hfd' : (d.fs.procs u).fdTable i ≠ -1 := hsame ▸ hfd
  obtain ⟨g, hg, -⟩ := h.valid.entry (hlive u hu) hi hfd'
  refine ⟨u, hlive u hu, hsame, rfl, hperm.mem_iff.1 (mem_descs.2 ⟨u, hu, i, hi, ?_⟩)⟩
  show fdEntry (s'.procs u) i = _
  rw [hsame, hg]
  exact fdEntry_of_eq (hsame.trans hg)

/-- `sys_close` sets the descriptor to -1 whatever it does to the entry. -/
theorem sysClose_ok {s s' : FsState} {fd r : Int} (hthree : 2 < fd)
    (h : sysClose s fd = .ok (r, s')) :
    fd < maxFileOpenPerProc ∧ ∃ (g : Nat) (s₁ : FsState), s.task.fdTable fd.toNat = g
      ∧ closeGlobal s g = .ok s₁ ∧ s' = s₁.setTask
        { s₁.task with fdTable := Function.update s₁.task.fdTable fd.toNat (-1) } := by
  unfold sysClose at h
  rw [if_pos hthree] at h
  obtain ⟨g, hg, h⟩ := Outcome.bind_eq_ok.1 h
  obtain ⟨s₁, hclose, h⟩ := Outcome.bind_eq_ok.1 h
  obtain ⟨-, hlt, hname, -⟩ := fdLocal2Global_ok hg
  exact ⟨hlt, g, s₁, hname, hclose, ((Prod.mk.inj (Except.ok.inj h)).2).symm⟩

theorem Good.close {fd : Int} (h : Good d) (ht : t ∈ d.live)
    (hok : (FdOp.close t fd).Ok d) (hcall : (FdOp.close t fd).run d = .ok d') :
    Good d' ∧ ReleasedWithLast d d' := by
  obtain ⟨⟨r, s'⟩, hclose, hd'⟩ := Outcome.bind_eq_ok.1 hcall
  cases hd'
  obtain ⟨refs, hs⟩ := h.holds
  by_cases hthree : 2 < fd
  · obtain ⟨hmax, g, s₁, hname, hglobal, rfl⟩ := sysClose_ok hthree hclose
    have hi : fd.toNat ∈ localFds := mem_localFds.2 ⟨by omega, by omega⟩
    have hname : (d.fs.procs t).fdTable fd.toNat = g := hname
    obtain ⟨hprocs, hcur⟩ := closeGlobal_procs hglobal
    have htask : s₁.task = d.fs.procs t := by rw [FsState.task, hprocs, hcur]; rfl
    let rest := procFds (d.fs.procs t) (localFds.erase fd.toNat) ++ otherDescs d t
    have hperm : d.descs.Perm (g :: rest) := by
      have hperm := descs_perm_fd ht hi
      rw [fdEntry_of_eq hname] at hperm
      exact hperm
    have halone : isPipe d.fs g = true ∨ g ∉ rest := by
      have hne : (d.fs.procs t).fdTable fd.toNat ≠ -1 := by omega
      have halone := hok (by omega) hmax hne
      rw [hname, Int.toNat_natCast, hperm.count_eq, List.count_cons_self] at halone
      exact halone.imp_right fun hone => List.count_eq_zero.1 (by omega)
    have hrun := (hs.perm hperm).runAs t
    have hlen := hperm.length_eq
    have hfew := h.length
    rw [List.length_cons] at hlen
    obtain ⟨⟨refs', hs'⟩, hkept, hfree, hother⟩ :=
      hrun.closeGlobal (by omega) halone hglobal
    have hfds : ∀ u, ((s₁.setTask { s₁.task with
        fdTable := Function.update s₁.task.fdTable fd.toNat (-1) }).procs u).fdTable
        = if u = t then Function.update (d.fs.procs t).fdTable fd.toNat (-1)
          else (d.fs.procs u).fdTable := by
      intro u
      rw [FsState.setTask_procs, hcur, htask]
      show (Function.update s₁.procs t _ u).fdTable = _
      by_cases hu : u = t
      · rw [hu, Function.update_self, if_pos rfl]
      · rw [Function.update_of_ne hu, if_neg hu, hprocs]
        rfl
    let s' := s₁.setTask { s₁.task with
      fdTable := Function.update s₁.task.fdTable fd.toNat (-1) }
    have hperm' : (FdState.descs { d with fs := s' }).Perm rest := by
      have hupdate : (FdState.descs { d with fs := s' }).Perm
          ((fdEntry (s'.procs t) fd.toNat).toList ++ rest) := by
        refine descs_update ht hi h.nodup rfl (fun u hu => ?_) fun j hj => ?_
        · exact (hfds u).trans (if_neg hu)
        · show (s'.procs t).fdTable j = _
          rw [hfds, if_pos rfl, Function.update_of_ne hj]
      have hnone : (s'.procs t).fdTable fd.toNat = -1 := by
        rw [hfds, if_pos rfl, Function.update_self]
      rw [fdEntry, if_pos hnone] at hupdate
      exact hupdate
    refine ⟨h.drop (fun _ hu => hu) h.nodup (Nat.le_refl _) (fun u hu i hi' hfd => ?_)
      (hs'.setTask _) ⟨⟨hkept.nextNode, hkept.iNo, hkept.opened⟩, hkept.inode, hkept.flag⟩ hperm',
      fun j hj => ?_⟩
    · rw [hfds] at hfd ⊢
      by_cases hu' : u = t
      · rw [if_pos hu'] at hfd ⊢
        have hne : i ≠ fd.toNat := by
          intro heq
          rw [heq, Function.update_self] at hfd
          exact hfd rfl
        rw [hu', Function.update_of_ne hne]
      · rw [if_neg hu']
    · rw [hperm'.mem_iff]
      show (s₁.fileTable j).fdInode = none ↔ _
      by_cases hjg : j = g
      · rw [hjg]
        exact hfree
      · have hmem : j ∈ rest := List.mem_of_ne_of_mem hjg (hperm.mem_iff.1 hj)
        obtain ⟨p, hp⟩ := hs.used j hj
        rw [hother j hjg]
        show (d.fs.fileTable j).fdInode = none ↔ _
        rw [hp]
        exact iff_of_false (fun heq => (by cases heq)) (not_not.2 hmem)
  · unfold sysClose at hclose
    rw [if_neg hthree] at hclose
    cases hclose
    exact h.same rfl rfl (fun _ => rfl) (hs.runAs t)
      ⟨⟨Nat.le_refl _, fun _ _ => rfl, fun _ hp => .inl hp⟩, fun _ _ => rfl, fun _ _ => rfl⟩

theorem Good.exit (h : Good d) (ht : t ∈ d.live) (hok : (FdOp.exit t).Ok d)
    (hcall : (FdOp.exit t).run d = .ok d') : Good d' ∧ ReleasedWithLast d d' := by
  obtain ⟨s', hrelease, hd'⟩ := Outcome.bind_eq_ok.1 hcall
  cases hd'
  obtain ⟨refs, hs⟩ := h.holds
  have hperm := descs_perm ht
  have hfew := h.length
  have hrun : Holds (d.fs.runAs t) refs
      (procFds (d.fs.runAs t).task localFds ++ otherDescs d t) := (hs.perm hperm).runAs t
  have hlen := hperm.length_eq
  rw [List.length_append] at hlen
  obtain ⟨⟨refs', hs'⟩, hkept, hfree, -, hcur, hprocs⟩ := hrun.releaseFds localFds_nodup
    (fun i hi => (mem_localFds.1 hi).1) (by rw [show localFds.length = 5 from rfl]; omega)
    (fun g hg => by
      obtain ⟨i, hi, hentry⟩ := List.mem_filterMap.1 hg
      by_cases hnone : (d.fs.procs t).fdTable i = -1
      · rw [show (d.fs.runAs t).task = d.fs.procs t from rfl, if_pos hnone] at hentry
        cases hentry
      · rw [show (d.fs.runAs t).task = d.fs.procs t from rfl, if_neg hnone] at hentry
        have halone := hok i hi hnone
        rw [Option.some.inj hentry, hperm.count_eq] at halone
        exact halone) hrelease
  have hsame : ∀ u ∈ d.live.erase t, s'.procs u = d.fs.procs u := fun u hu =>
    hprocs u (h.nodup.mem_erase_iff.1 hu).1
  have hperm' : (FdState.descs { d with fs := s', live := d.live.erase t }).Perm
      (otherDescs d t) := by
    refine List.Perm.of_eq (List.flatMap_congr fun u hu => ?_)
    show procFds (s'.procs u) localFds = _
    rw [hsame u hu]
  refine ⟨h.drop (fun u hu => List.mem_of_mem_erase hu) (h.nodup.erase t)
    (List.length_erase_le) (fun u hu i _ _ => by rw [hsame u hu]) hs'
    ⟨⟨hkept.nextNode, hkept.iNo, hkept.opened⟩, hkept.inode, hkept.flag⟩ hperm', fun j hj => ?_⟩
  rw [hperm'.mem_iff]
  exact hfree j (hperm.mem_iff.1 hj)

/-! ## Runs -/

theorem Good.step {op : FdOp} (h : Good d) (hok : op.Ok d) (hnext : fdSystem.next d op d') :
    Good d' ∧ ReleasedWithLast d d' := by
  obtain ⟨hlegal, hrun⟩ := hnext
  cases op with
  | «open» t pathname flags =>
      obtain ⟨⟨fd, s'⟩, hcall, hd'⟩ := Outcome.bind_eq_ok.1 hrun
      rw [← Except.ok.inj hd']
      exact h.open hlegal hok hcall
  | pipe t page => exact h.pipe hlegal hok hrun
  | fork t child pgdir =>
      cases child with
      | none =>
          cases hrun
          obtain ⟨refs, hs⟩ := h.holds
          exact ⟨h, released_of_sub hs fun _ hg => hg⟩
      | some child =>
          obtain ⟨hchild, hfew⟩ := hlegal.2 child rfl
          exact h.fork hlegal.1 hchild hfew hok hrun
  | close t fd => exact h.close hlegal hok hrun
  | exit t => exact h.exit hlegal hok hrun

theorem good_init (h : fdSystem.init d) : Good d := by
  obtain ⟨⟨⟨s₀, hinit⟩, hnew⟩, hnodup, hfew⟩ := h
  obtain ⟨refs, hcounted⟩ := filesysInit_counted hinit
  have hfds : ∀ t, ∀ i ∈ localFds, (d.fs.procs t).fdTable i = -1 := by
    intro t i hi
    rw [hnew, newFdTable, if_neg (Nat.not_lt.2 (mem_localFds.1 hi).1)]
  have hnone : ∀ g, g ∉ d.descs := by
    intro g hg
    obtain ⟨t, -, i, hi, hentry⟩ := mem_descs.1 hg
    rw [fdEntry, if_pos (hfds t i hi)] at hentry
    cases hentry
  refine ⟨⟨refs, hcounted, (filesysInit_spec hinit).1.table, fun g hg => absurd hg (hnone g),
    fun g hg => absurd hg (hnone g), fun g hg => absurd hg (hnone g)⟩, hnodup, hfew,
    fun t _ i hthree hmax hfd => ?_⟩
  exact absurd (hfds t i (mem_localFds.2 ⟨hthree, hmax⟩)) hfd

/-- A `sys_close` after which the descriptors denote what they were opened on
    closed a pipe or the only descriptor of its entry. -/
theorem Good.closesAlone {fd : Int} (h : Good d) (hnext : fdSystem.next d (.close t fd) d')
    (hvalid : Valid d') : (FdOp.close t fd).Ok d := by
  obtain ⟨ht, hrun⟩ := hnext
  intro hthree hmax hfd
  obtain ⟨⟨r, s'⟩, hclose, hd'⟩ := Outcome.bind_eq_ok.1 hrun
  cases hd'
  obtain ⟨-, g, s₁, hname, hglobal, rfl⟩ := sysClose_ok (by omega) hclose
  have hname : (d.fs.procs t).fdTable fd.toNat = g := hname
  have hi : fd.toNat ∈ localFds := mem_localFds.2 ⟨by omega, by omega⟩
  obtain ⟨hprocs, hcur⟩ := closeGlobal_procs hglobal
  rw [hname, Int.toNat_natCast]
  by_contra hnot
  obtain ⟨hfile, hmany⟩ := not_or.1 hnot
  -- another descriptor names the entry
  have hperm := descs_perm_fd ht hi
  rw [fdEntry_of_eq hname] at hperm
  have hmore : g ∈ procFds (d.fs.procs t) (localFds.erase fd.toNat) ++ otherDescs d t := by
    rw [hperm.count_eq, Option.toList_some, List.singleton_append, List.count_cons_self] at hmany
    exact List.count_pos_iff.1 (by omega)
  have hother : ∃ u ∈ d.live, ∃ i ∈ localFds, (u ≠ t ∨ i ≠ fd.toNat)
      ∧ (d.fs.procs u).fdTable i = g := by
    have hentry : ∀ u ∈ d.live, ∀ i ∈ localFds, fdEntry (d.fs.procs u) i = some g →
        (d.fs.procs u).fdTable i = g := by
      intro u hu i hi hentry
      have hne : (d.fs.procs u).fdTable i ≠ -1 := by
        intro heq
        rw [fdEntry, if_pos heq] at hentry
        cases hentry
      obtain ⟨g', hg', -⟩ := h.valid.entry hu hi hne
      rw [fdEntry_of_eq hg'] at hentry
      rw [hg', Option.some.inj hentry]
    rcases List.mem_append.1 hmore with hmem | hmem
    · obtain ⟨i, hi', hi⟩ := List.mem_filterMap.1 hmem
      have hmem := localFds_nodup.mem_erase_iff.1 hi'
      exact ⟨t, ht, i, hmem.2, .inr hmem.1, hentry t ht i hmem.2 hi⟩
    · obtain ⟨u, hu, hmem⟩ := List.mem_flatMap.1 hmem
      obtain ⟨i, hi', hi⟩ := List.mem_filterMap.1 hmem
      have hu := h.nodup.mem_erase_iff.1 hu
      exact ⟨u, hu.2, i, hi', .inl hu.1, hentry u hu.2 i hi' hi⟩
  obtain ⟨u, hu, i, hi, hne, hfd'⟩ := hother
  let s' := s₁.setTask { s₁.task with
    fdTable := Function.update s₁.task.fdTable fd.toNat (-1) }
  have hkeeps : (s'.procs u).fdTable i = g := by
    show (Function.update s₁.procs s₁.cur _ u).fdTable i = g
    rw [hcur, hprocs]
    by_cases hut : u = t
    · have hine : i ≠ fd.toNat := hne.resolve_left (not_not.2 hut)
      rw [hut]
      show (Function.update d.fs.procs t _ t).fdTable i = g
      rw [Function.update_self]
      show Function.update s₁.task.fdTable fd.toNat (-1) i = g
      rw [Function.update_of_ne hine, FsState.task, hcur, hprocs, ← hfd', hut]
      rfl
    · show (Function.update d.fs.procs t _ u).fdTable i = g
      rw [Function.update_of_ne hut]
      exact hfd'
  obtain ⟨hthree', hmax'⟩ := mem_localFds.1 hi
  obtain ⟨g', o, hg', -, -, hden⟩ := hvalid u hu i hthree' hmax' (by
    show (s'.procs u).fdTable i ≠ -1
    omega)
  have hg' : (s'.procs u).fdTable i = g' := hg'
  have hgg : g' = g := by omega
  -- but it is empty now
  have hfile : ¬ isPipe (d.fs.runAs t) g = true := hfile
  rw [closeGlobal, if_neg hfile] at hglobal
  have hempty : (s₁.fileTable g).fdInode = none := by
    rw [(fileClose_spec hglobal).2, Function.update_self]
  have hused : (s₁.fileTable g').fdInode = some o.node := hden.inode
  rw [hgg, hempty] at hused
  cases hused

/-- In every run whose calls meet the condition the descriptors stay valid and
    entries are released with their last descriptor.  A `sys_close` that does
    not meet it makes a descriptor invalid. -/
theorem valid_of_ok (h : (fdSystem.restrict FdOp.Ok).Reachable d) :
    Valid d
      ∧ (∀ op d', op.Ok d → fdSystem.next d op d' → ReleasedWithLast d d')
      ∧ ∀ t fd d', fdSystem.next d (.close t fd) d' → (Valid d' ↔ (FdOp.close t fd).Ok d) := by
  have hgood : Good d := by
    apply h.invariant
    · exact fun d hinit => good_init hinit
    · exact fun d op d' hd hnext => (hd.step hnext.1 hnext.2).1
  refine ⟨hgood.valid, fun op d' hok hnext => (hgood.step hok hnext).2, fun t fd d' hnext => ?_⟩
  exact ⟨fun hvalid => hgood.closesAlone hnext hvalid, fun hok => (hgood.step hok hnext).1.valid⟩

/-- A machine with one process. -/
def bootFds (s : FsState) : FdState := ⟨s, [1], fun _ _ => none⟩

theorem init_bootFds {s : FsState} (h : filesysInit tinyFs = .ok s) : fdSystem.init (bootFds s) :=
  ⟨booted_tinyFs h, List.nodup_singleton 1, by norm_num [bootFds]⟩

/-- Process 1 creates "/a" and "/b", closes "/b", makes a pipe and forks; the child
    closes its end of the pipe. -/
def sharingRun : List FdOp :=
  [.open 1 [47, 97] 6, .open 1 [47, 98] 6, .close 1 4, .pipe 1 true, .fork 1 (some 2) 9,
    .close 2 4]

theorem valid_of_ok_sharing : ∃ s d, filesysInit tinyFs = .ok s
    ∧ System.runSteps (fun d op => op.Ok d ∧ op.Legal d) FdOp.run sharingRun (bootFds s) = .ok d
    ∧ 2 ∈ d.live ∧ (d.fs.procs 2).fdTable 3 = 3 ∧ isPipe d.fs 4 = true
    ∧ Valid d
    ∧ (∀ op d', op.Ok d → fdSystem.next d op d' → ReleasedWithLast d d')
    ∧ ∀ t fd d', fdSystem.next d (.close t fd) d' → (Valid d' ↔ (FdOp.close t fd).Ok d) := by
  obtain ⟨s, hinit⟩ := tinyFs_boots
  have hend : (filesysInit tinyFs >>= fun s => System.runSteps (fun d op => op.Ok d ∧ op.Legal d)
      FdOp.run sharingRun (bootFds s)).returns (fun d => decide (2 ∈ d.live
        ∧ (d.fs.procs 2).fdTable 3 = 3 ∧ isPipe d.fs 4 = true)) = true := by
    decide +kernel
  rw [hinit, Outcome.ok_bind] at hend
  obtain ⟨d, hrun, hfacts⟩ := Outcome.returns_iff.1 hend
  obtain ⟨hlive, hfile, hpipe⟩ := of_decide_eq_true hfacts
  refine ⟨s, d, hinit, hrun, hlive, hfile, hpipe, valid_of_ok ?_⟩
  exact System.Reachable.runSteps (M := fdSystem.restrict FdOp.Ok)
    (fun _ _ _ hok hstep => ⟨hok.1, hok.2, hstep⟩) (System.reachable_init (init_bootFds hinit)) hrun

/-- Process 1 creates "/a" and forks; the child exits. -/
def childExitsRun : List FdOp := [.open 1 [47, 97] 6, .fork 1 (some 2) 9, .exit 2]

theorem child_exit_closes : ∃ d, fdSystem.Reachable d ∧ ¬ Valid d := by
  obtain ⟨s, hinit⟩ := tinyFs_boots
  have hend : (filesysInit tinyFs >>= fun s => System.runSteps FdOp.Legal FdOp.run childExitsRun
      (bootFds s)).returns (fun d => decide (1 ∈ d.live ∧ (d.fs.procs 1).fdTable 3 = 3
        ∧ (d.fs.fileTable 3).fdInode = none)) = true := by
    decide +kernel
  rw [hinit, Outcome.ok_bind] at hend
  obtain ⟨d, hrun, hfacts⟩ := Outcome.returns_iff.1 hend
  obtain ⟨hlive, hfd, hempty⟩ := of_decide_eq_true hfacts
  have hreach : fdSystem.Reachable d := System.Reachable.runSteps (M := fdSystem)
    (fun _ _ _ hlegal hstep => ⟨hlegal, hstep⟩) (System.reachable_init (init_bootFds hinit)) hrun
  refine ⟨d, hreach, fun hvalid => ?_⟩
  obtain ⟨g, o, hg, -, -, hden⟩ := hvalid 1 hlive 3 (Nat.le_refl _) (by decide) (by rw [hfd]; decide)
  have hthree : g = 3 := by omega
  have hused := hden.inode
  rw [hthree, hempty] at hused
  cases hused

end Userprog
end JackOS
