/-
  JackOS.Userprog.FdTableInv

  The users of the file table's entries.  `Holds s refs ds` says that the
  descriptors there are name the entries `ds`, one element for each descriptor:
  the entries are in use, a pipe counts its descriptors in `fd_pos`, and the
  node of a file is held at least once for each entry.  Adding a user and
  closing are done one descriptor at a time, and the loops of fork and exit
  follow by induction on the descriptors they walk over.
-/

import JackOS.Fs.OpenCount
import JackOS.Userprog.FdTable

namespace JackOS
namespace Userprog

open Base Fs

variable {s s' s'' : FsState} {refs refs' : Nat → Nat} {ds ds' : List Nat} {g : Nat}

/-- The descriptors name the entries `ds`. -/
structure Holds (s : FsState) (refs : Nat → Nat) (ds : List Nat) : Prop
    extends Counted s refs where
  nodes : ∀ i p, (s.fileTable i).fdInode = some p → p < s.nextNode
  range : ∀ g ∈ ds, g < maxFileOpen
  used : ∀ g ∈ ds, ∃ p, (s.fileTable g).fdInode = some p
  users : ∀ g ∈ ds, isPipe s g = true → (s.fileTable g).fdPos = ds.count g

/-- From `s` to `s'` the entries `ds` kept their inodes and flags, and no node
    got another number. -/
structure Kept (s s' : FsState) (ds : List Nat) : Prop extends KeepsNodes s s' where
  inode : ∀ g ∈ ds, (s'.fileTable g).fdInode = (s.fileTable g).fdInode
  flag : ∀ g ∈ ds, (s'.fileTable g).fdFlag = (s.fileTable g).fdFlag

theorem Kept.refl (s : FsState) (ds : List Nat) : Kept s s ds :=
  ⟨.refl s, fun _ _ => rfl, fun _ _ => rfl⟩

theorem Kept.trans (h : Kept s s' ds) (h' : Kept s' s'' ds) : Kept s s'' ds :=
  ⟨h.toKeepsNodes.trans h'.toKeepsNodes, fun g hg => (h'.inode g hg).trans (h.inode g hg),
    fun g hg => (h'.flag g hg).trans (h.flag g hg)⟩

theorem Kept.mono (h : Kept s s' ds) (hsub : ∀ g ∈ ds', g ∈ ds) : Kept s s' ds' :=
  ⟨h.toKeepsNodes, fun g hg => h.inode g (hsub g hg), fun g hg => h.flag g (hsub g hg)⟩

theorem Kept.of_eq (h : KeepsNodes s s') (htable : ∀ g ∈ ds, s'.fileTable g = s.fileTable g) :
    Kept s s' ds :=
  ⟨h, fun g hg => by rw [htable g hg], fun g hg => by rw [htable g hg]⟩

theorem Kept.isPipe (h : Kept s s' ds) (hg : g ∈ ds) : isPipe s' g = isPipe s g := by
  rw [Fs.isPipe, Fs.isPipe, h.flag g hg]

theorem Holds.perm (h : Holds s refs ds) (hperm : ds.Perm ds') : Holds s refs ds' := by
  refine ⟨h.toCounted, h.nodes, fun g hg => h.range g (hperm.mem_iff.2 hg),
    fun g hg => h.used g (hperm.mem_iff.2 hg), fun g hg hpipe => ?_⟩
  rw [← hperm.count_eq]
  exact h.users g (hperm.mem_iff.2 hg) hpipe

/-- What was opened is denoted as long as its entry is kept. -/
theorem Denotes.kept {o : Opened} (h : Denotes s g o) (hs : Holds s refs ds) (hg : g ∈ ds)
    (hkept : Kept s s' ds') (hg' : g ∈ ds') (hs' : Counted s' refs') : Denotes s' g o := by
  have hinode : (s'.fileTable g).fdInode = some o.node := (hkept.inode g hg').trans h.inode
  refine ⟨hinode, (hkept.isPipe hg').trans h.pipe, fun hfile => ⟨?_, ?_⟩⟩
  · exact hs'.mem_open (hs.range g hg) hinode ((hkept.isPipe hg').trans (h.pipe.trans hfile))
  · rw [hkept.iNo _ (hs.nodes g _ h.inode)]
    exact (h.file hfile).2

/-! ## One more user -/

theorem Holds.addPipeUser (h : Holds s refs ds) (hlen : ds.length + 1 < 2 ^ 32) (hg : g ∈ ds)
    (hpipe : isPipe s g = true) :
    Holds (s.setFd g { s.fileTable g with fdPos := u32 ((s.fileTable g).fdPos + 1) }) refs
      (g :: ds) := by
  have hcount : ds.count g ≤ ds.length := List.count_le_length
  obtain ⟨p, hp⟩ := h.used g hg
  have hpos := h.users g hg hpipe
  refine ⟨⟨h.toRefCounts.setFd _ _, fun q => ?_⟩, fun i q hq => ?_, fun i hi => ?_, fun i hi => ?_,
    fun i hi hpipe' => ?_⟩
  · exact Nat.le_trans (Nat.le_of_eq (fileRefs_setFd_pipe (h.range g hg) hpipe _ q)) (h.entries q)
  · rw [FsState.setFd_fileTable] at hq
    by_cases hi : i = g
    · rw [hi, Function.update_self] at hq
      exact h.nodes g q hq
    · rw [Function.update_of_ne hi] at hq
      exact h.nodes i q hq
  · rcases List.mem_cons.1 hi with rfl | hi
    · exact h.range i hg
    · exact h.range i hi
  · rw [FsState.setFd_fileTable]
    by_cases hig : i = g
    · rw [hig, Function.update_self]
      exact ⟨p, hp⟩
    · rw [Function.update_of_ne hig]
      exact h.used i (List.mem_of_ne_of_mem hig hi)
  · by_cases hig : i = g
    · rw [hig, FsState.setFd_fileTable, Function.update_self, List.count_cons_self]
      show u32 ((s.fileTable g).fdPos + 1) = _
      rw [hpos, u32_of_lt (by omega)]
    · rw [Fs.isPipe, FsState.setFd_fileTable, Function.update_of_ne hig] at hpipe'
      rw [FsState.setFd_fileTable, Function.update_of_ne hig,
        List.count_cons_of_ne (Ne.symm hig)]
      exact h.users i (List.mem_of_ne_of_mem hig hi) hpipe'

theorem Holds.addFileUser {p : Nat} (h : Holds s refs ds) (hroom : Room refs 1) (hg : g ∈ ds)
    (hpipe : isPipe s g = false) (hp : (s.fileTable g).fdInode = some p) :
    Holds (s.setInode p { s.inodes p with iOpenCnt := u32 ((s.inodes p).iOpenCnt + 1) })
      (addRef refs p) (g :: ds) := by
  have hopen := h.mem_open (h.range g hg) hp hpipe
  refine ⟨⟨h.toRefCounts.increment hroom hopen, fun q => ?_⟩, h.nodes, fun i hi => ?_,
    fun i hi => ?_, fun i hi hpipe' => ?_⟩
  · exact Nat.le_trans (h.entries q) (le_addRef refs p q)
  · rcases List.mem_cons.1 hi with rfl | hi
    · exact h.range i hg
    · exact h.range i hi
  · rcases List.mem_cons.1 hi with rfl | hi
    · exact h.used i hg
    · exact h.used i hi
  · have hpipe' : isPipe s i = true := hpipe'
    have hig : i ≠ g := by
      intro heq
      rw [heq, hpipe] at hpipe'
      cases hpipe'
    rw [List.count_cons_of_ne (Ne.symm hig)]
    exact h.users i (List.mem_of_ne_of_mem hig hi) hpipe'

theorem Holds.addUser {k : Nat} (h : Holds s refs ds) (hroom : Room refs (k + 1))
    (hlen : ds.length + 1 < 2 ^ 32) (hg : g ∈ ds) (hcall : Userprog.addUser s g = .ok s') :
    (∃ refs', Holds s' refs' (g :: ds) ∧ Room refs' k) ∧ Kept s s' ds ∧ s'.procs = s.procs
      ∧ s'.cur = s.cur := by
  unfold Userprog.addUser at hcall
  simp only at hcall
  cases hpipe : isPipe s g with
  | true =>
      rw [if_pos hpipe] at hcall
      rw [← Except.ok.inj hcall]
      refine ⟨⟨refs, h.addPipeUser hlen hg hpipe, hroom.mono (Nat.le_succ k)⟩,
        ⟨(KeepsNodes.refl s).setFd _ _, fun i _ => ?_, fun i _ => ?_⟩, rfl, rfl⟩
      · rw [FsState.setFd_fileTable]
        by_cases hi : i = g
        · rw [hi, Function.update_self]
        · rw [Function.update_of_ne hi]
      · rw [FsState.setFd_fileTable]
        by_cases hi : i = g
        · rw [hi, Function.update_self]
        · rw [Function.update_of_ne hi]
  | false =>
      rw [if_neg (by rw [hpipe]; simp)] at hcall
      obtain ⟨p, hp⟩ := h.used g hg
      rw [hp] at hcall
      rw [← Except.ok.inj hcall]
      exact ⟨⟨addRef refs p, h.addFileUser (hroom.mono (Nat.le_add_left 1 k)) hg hpipe hp,
        hroom.addRef p⟩, ⟨(looks_setOpenCnt s p _).nodes, fun _ _ => rfl, fun _ _ => rfl⟩, rfl, rfl⟩

/-! ## One user less -/

theorem Holds.pipeClose (h : Holds s refs (g :: ds)) (hlen : ds.length + 1 < 2 ^ 32)
    (hpipe : isPipe s g = true) :
    Holds (Fs.pipeClose s g) refs ds ∧ Kept s (Fs.pipeClose s g) ds
      ∧ (((Fs.pipeClose s g).fileTable g).fdInode = none ↔ g ∉ ds)
      ∧ ∀ i, i ≠ g → (Fs.pipeClose s g).fileTable i = s.fileTable i := by
  have hcount : ds.count g ≤ ds.length := List.count_le_length
  have hpos := h.users g List.mem_cons_self hpipe
  rw [List.count_cons_self] at hpos
  have hless : subU32 (s.fileTable g).fdPos 1 = ds.count g := by
    rw [hpos, subU32_of_le (Nat.le_add_left 1 _) (by omega)]
    rfl
  have hgrange := h.range g List.mem_cons_self
  have hnodes : ∀ {t : FsState} {fd : FileDesc}, t = s.setFd g fd →
      (∀ q, fd.fdInode = some q → (s.fileTable g).fdInode = some q) →
      ∀ i p, (t.fileTable i).fdInode = some p → p < t.nextNode := by
    intro t fd ht hfd i p hp
    rw [ht, FsState.setFd_fileTable] at hp
    rw [ht]
    by_cases hi : i = g
    · rw [hi, Function.update_self] at hp
      exact h.nodes g p (hfd p hp)
    · rw [Function.update_of_ne hi] at hp
      exact h.nodes i p hp
  unfold Fs.pipeClose
  simp only [hless]
  by_cases hzero : ds.count g = 0
  · have hnot : g ∉ ds := List.count_eq_zero.1 hzero
    have hother : ∀ i ∈ ds, i ≠ g := fun i hi heq => hnot (heq ▸ hi)
    rw [if_pos hzero]
    have htable : ∀ i, i ≠ g → (s.setFd g { s.fileTable g with
        fdPos := 0, fdInode := none }).fileTable i = s.fileTable i :=
      fun i hi => Function.update_of_ne hi _ _
    refine ⟨⟨⟨h.toRefCounts.setFd _ _, fun q => ?_⟩, hnodes rfl (fun q hq => (by cases hq)),
      fun i hi => h.range i (List.mem_cons_of_mem _ hi), fun i hi => ?_, fun i hi hpipe' => ?_⟩,
      .of_eq ((KeepsNodes.refl s).setFd _ _) fun i hi => htable i (hother i hi), ?_, htable⟩
    · exact Nat.le_trans (fileRefs_clear hgrange rfl rfl q) (h.entries q)
    · rw [htable i (hother i hi)]
      exact h.used i (List.mem_cons_of_mem _ hi)
    · rw [Fs.isPipe, htable i (hother i hi)] at hpipe'
      rw [htable i (hother i hi), h.users i (List.mem_cons_of_mem _ hi) hpipe',
        List.count_cons_of_ne (Ne.symm (hother i hi))]
    · rw [FsState.setFd_fileTable, Function.update_self]
      exact iff_of_true rfl hnot
  · have hmem : g ∈ ds := List.count_pos_iff.1 (Nat.pos_of_ne_zero hzero)
    obtain ⟨p, hp⟩ := h.used g List.mem_cons_self
    rw [if_neg hzero]
    have htable : ∀ i, i ≠ g → (s.setFd g { s.fileTable g with
        fdPos := ds.count g }).fileTable i = s.fileTable i :=
      fun i hi => Function.update_of_ne hi _ _
    refine ⟨⟨⟨h.toRefCounts.setFd _ _, fun q => ?_⟩, hnodes rfl (fun q hq => hq),
      fun i hi => h.range i (List.mem_cons_of_mem _ hi), fun i hi => ?_, fun i hi hpipe' => ?_⟩,
      ⟨(KeepsNodes.refl s).setFd _ _, fun i _ => ?_, fun i _ => ?_⟩, ?_, htable⟩
    · exact Nat.le_trans (Nat.le_of_eq (fileRefs_setFd_pipe hgrange hpipe _ q)) (h.entries q)
    · by_cases hi' : i = g
      · rw [hi', FsState.setFd_fileTable, Function.update_self]
        exact ⟨p, hp⟩
      · rw [htable i hi']
        exact h.used i (List.mem_cons_of_mem _ hi)
    · by_cases hi' : i = g
      · rw [hi', FsState.setFd_fileTable, Function.update_self]
      · rw [Fs.isPipe, htable i hi'] at hpipe'
        rw [htable i hi', h.users i (List.mem_cons_of_mem _ hi) hpipe',
          List.count_cons_of_ne (Ne.symm hi')]
    · by_cases hi' : i = g
      · rw [hi', FsState.setFd_fileTable, Function.update_self]
      · rw [htable i hi']
    · by_cases hi' : i = g
      · rw [hi', FsState.setFd_fileTable, Function.update_self]
      · rw [htable i hi']
    · rw [FsState.setFd_fileTable, Function.update_self]
      refine iff_of_false ?_ (not_not.2 hmem)
      rw [hp]
      exact fun heq => (by cases heq)

/-- The last user of an entry that is not a pipe's. -/
theorem Holds.fileClose (h : Holds s refs (g :: ds)) (hpipe : isPipe s g = false) (hnot : g ∉ ds)
    (hcall : Fs.fileClose s g = .ok s') :
    (∃ refs', Holds s' refs' ds) ∧ Kept s s' ds ∧ ((s'.fileTable g).fdInode = none ↔ g ∉ ds)
      ∧ ∀ i, i ≠ g → s'.fileTable i = s.fileTable i := by
  obtain ⟨hkeep, hclosed⟩ := fileClose_spec hcall
  have hother : ∀ i ∈ ds, i ≠ g := fun i hi heq => hnot (heq ▸ hi)
  have htable : ∀ i, i ≠ g → s'.fileTable i = s.fileTable i := by
    intro i hi
    rw [hclosed, Function.update_of_ne hi]
  obtain ⟨refs', hcounted⟩ := h.toCounted.fileClose (h.range g List.mem_cons_self) hpipe hcall
  refine ⟨⟨refs', hcounted, fun i p hp => ?_, fun i hi => h.range i (List.mem_cons_of_mem _ hi),
    fun i hi => ?_, fun i hi hpipe' => ?_⟩,
    .of_eq hkeep fun i hi => htable i (hother i hi), ?_, htable⟩
  · rw [hclosed] at hp
    by_cases hi : i = g
    · rw [hi, Function.update_self] at hp
      cases hp
    · rw [Function.update_of_ne hi] at hp
      exact Nat.lt_of_lt_of_le (h.nodes i p hp) hkeep.nextNode
  · rw [htable i (hother i hi)]
    exact h.used i (List.mem_cons_of_mem _ hi)
  · rw [Fs.isPipe, htable i (hother i hi)] at hpipe'
    rw [htable i (hother i hi), h.users i (List.mem_cons_of_mem _ hi) hpipe',
      List.count_cons_of_ne (Ne.symm (hother i hi))]
  · rw [hclosed, Function.update_self]
    exact iff_of_true rfl hnot

theorem Holds.closeGlobal (h : Holds s refs (g :: ds)) (hlen : ds.length + 1 < 2 ^ 32)
    (halone : isPipe s g = true ∨ g ∉ ds) (hcall : Fs.closeGlobal s g = .ok s') :
    (∃ refs', Holds s' refs' ds) ∧ Kept s s' ds ∧ ((s'.fileTable g).fdInode = none ↔ g ∉ ds)
      ∧ ∀ i, i ≠ g → s'.fileTable i = s.fileTable i := by
  unfold Fs.closeGlobal at hcall
  cases hpipe : isPipe s g with
  | true =>
      rw [if_pos hpipe] at hcall
      rw [← Except.ok.inj hcall]
      obtain ⟨hholds, hrest⟩ := h.pipeClose hlen hpipe
      exact ⟨⟨refs, hholds⟩, hrest⟩
  | false =>
      rw [if_neg (by rw [hpipe]; simp)] at hcall
      rw [hpipe] at halone
      exact h.fileClose hpipe (halone.resolve_left nofun) hcall

/-! ## Opening -/

theorem Holds.not_mem_free (h : Holds s refs ds) (hfree : (s.fileTable g).fdInode = none) :
    g ∉ ds := by
  intro hg
  obtain ⟨p, hp⟩ := h.used g hg
  rw [hfree] at hp
  cases hp

/-- Entries without descriptors. -/
theorem Holds.of_append {es : List Nat} (h : Holds s refs (es ++ ds)) (hnot : ∀ g ∈ es, g ∉ ds) :
    Holds s refs ds := by
  refine ⟨h.toCounted, h.nodes, fun g hg => h.range g (List.mem_append_right es hg),
    fun g hg => h.used g (List.mem_append_right es hg), fun g hg hpipe => ?_⟩
  have hzero : es.count g = 0 := List.count_eq_zero.2 fun hmem => hnot g hmem hg
  rw [h.users g (List.mem_append_right es hg) hpipe, List.count_append, hzero, Nat.zero_add]

theorem Holds.refuses (h : Holds s refs ds) (href : Refuses s s') (hs' : Counted s' refs') :
    Holds s' refs' ds ∧ Kept s s' ds := by
  have htable : ∀ g ∈ ds, s'.fileTable g = s.fileTable g := by
    intro g hg
    obtain ⟨p, hp⟩ := h.used g hg
    refine (href.table g).resolve_right fun hand => ?_
    rw [hand.1] at hp
    cases hp
  refine ⟨⟨hs', fun i p hp => ?_, h.range, fun g hg => ?_, fun g hg hpipe => ?_⟩,
    .of_eq href.toKeepsNodes htable⟩
  · rcases href.table i with hi | ⟨-, hi⟩
    · rw [hi] at hp
      exact Nat.lt_of_lt_of_le (h.nodes i p hp) href.nextNode
    · rw [hi] at hp
      cases hp
  · rw [htable g hg]
    exact h.used g hg
  · rw [Fs.isPipe, htable g hg] at hpipe
    rw [htable g hg]
    exact h.users g hg hpipe

theorem Holds.enters {fd : Int} {slot p flag : Nat} (h : Holds s refs ds)
    (henter : Enters s s' fd slot p flag) (hflag : flag ≠ pipeFlag) (hs' : Counted s' refs') :
    Holds s' refs' (slot :: ds) ∧ Kept s s' ds ∧ slot ∉ ds := by
  obtain ⟨-, hrange, hfree⟩ := getFreeSlotInGlobal_some henter.free
  have hnot := h.not_mem_free hfree
  have hother : ∀ g ∈ ds, g ≠ slot := fun g hg heq => hnot (heq ▸ hg)
  have htable : ∀ g ∈ ds, s'.fileTable g = s.fileTable g := by
    intro g hg
    rw [henter.fileTable, Function.update_of_ne (hother g hg)]
  have hslot : s'.fileTable slot = ⟨0, flag, some p⟩ := by
    rw [henter.fileTable, Function.update_self]
  refine ⟨⟨hs', fun i q hq => ?_, fun g hg => ?_, fun g hg => ?_, fun g hg hpipe => ?_⟩,
    .of_eq henter.toKeepsNodes htable, hnot⟩
  · rw [henter.fileTable] at hq
    by_cases hi : i = slot
    · rw [hi, Function.update_self] at hq
      cases hq
      exact henter.lt
    · rw [Function.update_of_ne hi] at hq
      exact Nat.lt_of_lt_of_le (h.nodes i q hq) henter.nextNode
  · rcases List.mem_cons.1 hg with rfl | hg
    · exact hrange
    · exact h.range g hg
  · rcases List.mem_cons.1 hg with rfl | hg
    · rw [hslot]
      exact ⟨p, rfl⟩
    · rw [htable g hg]
      exact h.used g hg
  · rcases List.mem_cons.1 hg with rfl | hg
    · rw [Fs.isPipe, hslot] at hpipe
      exact absurd (beq_iff_eq.1 hpipe) hflag
    · rw [Fs.isPipe, htable g hg] at hpipe
      rw [htable g hg, h.users g hg hpipe, List.count_cons_of_ne (Ne.symm (hother g hg))]

/-- `sys_pipe` fills a free entry for a page of its own, with two users. -/
theorem Holds.newPipe {slot : Nat} (h : Holds s refs ds)
    (hslot : getFreeSlotInGlobal s = some slot) :
    Holds ((s.newNode ⟨0, 0, 0, false, fun _ => 0⟩).setFd slot ⟨2, pipeFlag, some s.nextNode⟩) refs
        (slot :: slot :: ds)
      ∧ Kept s ((s.newNode ⟨0, 0, 0, false, fun _ => 0⟩).setFd slot
        ⟨2, pipeFlag, some s.nextNode⟩) ds
      ∧ slot ∉ ds := by
  obtain ⟨-, hrange, hfree⟩ := getFreeSlotInGlobal_some hslot
  have hnot := h.not_mem_free hfree
  let s' := (s.newNode ⟨0, 0, 0, false, fun _ => 0⟩).setFd slot ⟨2, pipeFlag, some s.nextNode⟩
  have hkeep : KeepsNodes s s' := ((looks_newNode s _).nodes).setFd _ _
  have hfill : s'.fileTable = Function.update s.fileTable slot ⟨2, pipeFlag, some s.nextNode⟩ := rfl
  have hother : ∀ g ∈ ds, g ≠ slot := fun g hg heq => hnot (heq ▸ hg)
  have htable : ∀ g ∈ ds, s'.fileTable g = s.fileTable g := by
    intro g hg
    rw [hfill, Function.update_of_ne (hother g hg)]
  have hself : s'.fileTable slot = ⟨2, pipeFlag, some s.nextNode⟩ := by
    rw [hfill, Function.update_self]
  have hcounts : RefCounts s' refs := by
    refine h.toRefCounts.congr rfl (Nat.le_succ _) fun q hq => ?_
    show (Function.update s.inodes s.nextNode _ q).iOpenCnt = _
    rw [Function.update_of_ne (Nat.ne_of_lt (h.lt q hq))]
  refine ⟨⟨⟨hcounts, fun q => ?_⟩, fun i q hq => ?_, fun g hg => ?_, fun g hg => ?_,
    fun g hg hpipe => ?_⟩, .of_eq hkeep htable, hnot⟩
  · have hcount := fileRefs_setFd hrange hfill q
    have hle := h.entries q
    rw [hfree, if_neg (show ¬ (none = some q ∧ _) from fun hand => (by cases hand.1)),
      if_neg (by simp)] at hcount
    show fileRefs s' q ≤ _
    omega
  · change (s'.fileTable i).fdInode = some q at hq
    rw [hfill] at hq
    show q < s.nextNode + 1
    by_cases hi : i = slot
    · rw [hi, Function.update_self] at hq
      cases hq
      exact Nat.lt_succ_self _
    · rw [Function.update_of_ne hi] at hq
      exact Nat.lt_succ_of_lt (h.nodes i q hq)
  · by_cases hgs : g = slot
    · rw [hgs]
      exact hrange
    · exact h.range g (List.mem_of_ne_of_mem hgs (List.mem_of_ne_of_mem hgs hg))
  · show ∃ p, (s'.fileTable g).fdInode = some p
    by_cases hgs : g = slot
    · rw [hgs, hself]
      exact ⟨s.nextNode, rfl⟩
    · have hg' := List.mem_of_ne_of_mem hgs (List.mem_of_ne_of_mem hgs hg)
      rw [htable g hg']
      exact h.used g hg'
  · change (s'.fileTable g).fdPos = _
    by_cases hgs : g = slot
    · rw [hgs, hself, List.count_cons_self, List.count_cons_self, List.count_eq_zero.2 hnot]
    · have hg' := List.mem_of_ne_of_mem hgs (List.mem_of_ne_of_mem hgs hg)
      change (s'.fileTable g).fdFlag == pipeFlag at hpipe
      rw [htable g hg'] at hpipe
      rw [htable g hg', h.users g hg' hpipe, List.count_cons_of_ne (Ne.symm hgs),
        List.count_cons_of_ne (Ne.symm hgs)]

/-! ## Loops over descriptors -/

theorem procFds_cons {task : Fs.Task} {i : Nat} {rest : List Nat} (h : task.fdTable i = g) :
    procFds task (i :: rest) = g :: procFds task rest := by
  have hne : task.fdTable i ≠ -1 := by omega
  rw [procFds, List.filterMap_cons_some (b := g), procFds]
  rw [if_neg hne, h]
  rfl

theorem procFds_skip {task : Fs.Task} {i : Nat} {rest : List Nat} (h : task.fdTable i = -1) :
    procFds task (i :: rest) = procFds task rest := by
  rw [procFds, List.filterMap_cons_none (by simp [h]), procFds]

theorem procFds_congr {task task' : Fs.Task} {fds : List Nat}
    (h : ∀ i ∈ fds, task'.fdTable i = task.fdTable i) : procFds task' fds = procFds task fds := by
  refine List.filterMap_congr fun i hi => ?_
  rw [h i hi]

theorem length_procFds (task : Fs.Task) (fds : List Nat) :
    (procFds task fds).length ≤ fds.length := List.length_filterMap_le _ _

/-- fork: the descriptors of the child are new users of what the parent has
    open. -/
theorem Holds.updateOpenCnts {tcb : Fs.Task} {fds : List Nat} (h : Holds s refs ds)
    (hroom : Room refs fds.length) (hlen : ds.length + fds.length < 2 ^ 32)
    (hfds : ∀ i ∈ fds, tcb.fdTable i = s.task.fdTable i)
    (hmem : ∀ g ∈ procFds tcb fds, g ∈ ds)
    (hcall : Userprog.updateOpenCnts tcb fds s = .ok s') :
    (∃ refs', Holds s' refs' (procFds tcb fds ++ ds)) ∧ Kept s s' ds ∧ s'.procs = s.procs
      ∧ s'.cur = s.cur := by
  induction fds generalizing s refs ds with
  | nil =>
      cases hcall
      exact ⟨⟨refs, h⟩, .refl _ ds, rfl, rfl⟩
  | cons i fds ih =>
      obtain ⟨s₁, hround, hcall⟩ := Outcome.bind_eq_ok.1 hcall
      obtain ⟨_, -, hround⟩ := Outcome.bind_eq_ok.1 hround
      rw [List.length_cons] at hroom hlen
      have hi := hfds i List.mem_cons_self
      by_cases hnone : tcb.fdTable i = -1
      · rw [if_pos hnone] at hround
        cases hround
        rw [procFds_skip hnone] at hmem ⊢
        exact ih h (hroom.mono (Nat.le_succ _)) (by omega)
          (fun j hj => hfds j (List.mem_cons_of_mem _ hj)) hmem hcall
      · rw [if_neg hnone] at hround
        obtain ⟨g, hg, hround⟩ := Outcome.bind_eq_ok.1 hround
        obtain ⟨-, -, hglobal, -⟩ := fdLocal2Global_ok hg
        have hname : tcb.fdTable i = g := hi.trans hglobal
        rw [procFds_cons hname] at hmem ⊢
        obtain ⟨⟨refs₁, h₁, hroom₁⟩, hkept, hprocs, hcur⟩ :=
          h.addUser hroom (by omega) (hmem g List.mem_cons_self) hround
        have htask : s₁.task = s.task := by rw [FsState.task, FsState.task, hprocs, hcur]
        obtain ⟨⟨refs', h'⟩, hkept', hprocs', hcur'⟩ := ih h₁ hroom₁
          (by rw [List.length_cons]; omega)
          (fun j hj => by rw [htask]; exact hfds j (List.mem_cons_of_mem _ hj))
          (fun j hj => List.mem_cons_of_mem _ (hmem j (List.mem_cons_of_mem _ hj))) hcall
        exact ⟨⟨refs', h'.perm List.perm_middle⟩,
          hkept.trans (hkept'.mono fun j hj => List.mem_cons_of_mem _ hj),
          hprocs'.trans hprocs, hcur'.trans hcur⟩

/-- One descriptor is closed, by `sys_close` or on exit. -/
theorem releaseFd_ok {i : Nat} (hi : 3 ≤ i) (hcall : releaseFd i s = .ok s') :
    (s.task.fdTable i = -1 ∧ s' = s)
      ∨ ∃ (g : Nat) (s₁ : FsState), s.task.fdTable i = g ∧ closeGlobal s g = .ok s₁
        ∧ (s' = s₁ ∨ s' = s₁.setTask
          { s₁.task with fdTable := Function.update s₁.task.fdTable i (-1) }) := by
  unfold releaseFd at hcall
  by_cases hnone : s.task.fdTable i = -1
  · rw [if_pos hnone] at hcall
    cases hcall
    exact .inl ⟨hnone, rfl⟩
  · rw [if_neg hnone] at hcall
    obtain ⟨g, hg, hcall⟩ := Outcome.bind_eq_ok.1 hcall
    obtain ⟨-, -, hname, -⟩ := fdLocal2Global_ok hg
    refine .inr ⟨g, ?_⟩
    cases hpipe : isPipe s g with
    | true =>
        rw [if_pos hpipe] at hcall
        refine ⟨s', hname, ?_, .inl rfl⟩
        rw [closeGlobal, if_pos hpipe]
        exact hcall
    | false =>
        rw [if_neg (by rw [hpipe]; simp)] at hcall
        obtain ⟨⟨r, s₂⟩, hclose, hcall⟩ := Outcome.bind_eq_ok.1 hcall
        unfold sysClose at hclose
        rw [if_pos (by omega), hg, Outcome.ok_bind] at hclose
        obtain ⟨s₁, hclose, hset⟩ := Outcome.bind_eq_ok.1 hclose
        refine ⟨s₁, hname, hclose, .inr ?_⟩
        rw [← Except.ok.inj hcall, ← (Prod.mk.inj (Except.ok.inj hset)).2]
        rfl

/-- Only the entry of the pipe changes. -/
theorem pipeClose_eq (s : FsState) (g : Nat) : ∃ fd, pipeClose s g = s.setFd g fd := by
  unfold pipeClose
  simp only
  split
  · exact ⟨_, rfl⟩
  · exact ⟨_, rfl⟩

theorem closeGlobal_procs (h : closeGlobal s g = .ok s') : s'.procs = s.procs ∧ s'.cur = s.cur := by
  unfold closeGlobal at h
  split at h
  · rw [← Except.ok.inj h]
    obtain ⟨fd, heq⟩ := pipeClose_eq s g
    rw [heq]
    exact ⟨rfl, rfl⟩
  · obtain ⟨p, hp⟩ := fileClose_ne_none h
    obtain ⟨s₁, hs₁, heq⟩ := fileClose_eq hp
    have hclose := (looks_inodeClose s₁ p).keepsFds
    rw [heq] at h
    rw [← Except.ok.inj h, FsState.setFd_procs, FsState.setFd_cur, hclose.procs, hclose.cur, hs₁]
    exact ⟨rfl, rfl⟩

/-- exit: the descriptors are closed one after the other.  Those that are no
    pipes have no other user. -/
theorem Holds.releaseFds {fds : List Nat} (hnodup : fds.Nodup) (hthree : ∀ i ∈ fds, 3 ≤ i)
    (h : Holds s refs (procFds s.task fds ++ ds))
    (hlen : ds.length + fds.length < 2 ^ 32)
    (halone : ∀ g ∈ procFds s.task fds,
      isPipe s g = true ∨ (procFds s.task fds ++ ds).count g = 1)
    (hcall : Userprog.releaseFds fds s = .ok s') :
    (∃ refs', Holds s' refs' ds) ∧ Kept s s' ds
      ∧ (∀ g ∈ procFds s.task fds ++ ds, (s'.fileTable g).fdInode = none ↔ g ∉ ds)
      ∧ (∀ g, g ∉ procFds s.task fds ++ ds → s'.fileTable g = s.fileTable g)
      ∧ s'.cur = s.cur ∧ ∀ t, t ≠ s.cur → s'.procs t = s.procs t := by
  induction fds generalizing s refs with
  | nil =>
      cases hcall
      refine ⟨⟨refs, h⟩, .refl _ ds, fun g hg => ?_, fun _ _ => rfl, rfl, fun _ _ => rfl⟩
      obtain ⟨p, hp⟩ := h.used g hg
      rw [hp]
      exact iff_of_false (fun heq => (by cases heq)) (not_not.2 hg)
  | cons i fds ih =>
      obtain ⟨s₁, hround, hrest⟩ := Outcome.bind_eq_ok.1 hcall
      obtain ⟨hi, hnodup⟩ := List.nodup_cons.1 hnodup
      rw [List.length_cons] at hlen
      have hthree' : ∀ j ∈ fds, 3 ≤ j := fun j hj => hthree j (List.mem_cons_of_mem _ hj)
      rcases releaseFd_ok (hthree i List.mem_cons_self) hround with
        ⟨hnone, rfl⟩ | ⟨g, s₂, hname, hclose, hs₁⟩
      · rw [procFds_skip hnone] at h halone ⊢
        exact ih hnodup hthree' h (by omega) halone hrest
      · rw [procFds_cons hname] at h halone ⊢
        rw [List.cons_append] at h
        -- closing this descriptor
        have hfew := length_procFds s.task fds
        have hnot : isPipe s g = true ∨ g ∉ procFds s.task fds ++ ds := by
          refine (halone g List.mem_cons_self).imp_right fun hone => ?_
          rw [List.cons_append, List.count_cons_self] at hone
          exact List.count_eq_zero.1 (by omega)
        obtain ⟨⟨refs₂, h₂⟩, hkept₂, hfree₂, hsame₂⟩ :=
          h.closeGlobal (by rw [List.length_append]; omega) hnot hclose
        obtain ⟨hprocs₂, hcur₂⟩ := closeGlobal_procs hclose
        have htask₂ : s₂.task = s.task := by rw [FsState.task, FsState.task, hprocs₂, hcur₂]
        -- what the round did besides
        have hs₁' : (∀ j ∈ fds, s₁.task.fdTable j = s.task.fdTable j) ∧ s₁.cur = s.cur
            ∧ (∀ t, t ≠ s.cur → s₁.procs t = s.procs t) ∧ s₁.fileTable = s₂.fileTable
            ∧ Holds s₁ refs₂ (procFds s.task fds ++ ds)
            ∧ Kept s s₁ (procFds s.task fds ++ ds) := by
          rcases hs₁ with rfl | rfl
          · exact ⟨fun j _ => by rw [htask₂], hcur₂, fun t _ => by rw [hprocs₂], rfl, h₂, hkept₂⟩
          · refine ⟨fun j hj => ?_, hcur₂, fun t ht => ?_, rfl,
              ⟨⟨h₂.toRefCounts.setTask _, h₂.entries⟩, h₂.nodes, h₂.range, h₂.used, h₂.users⟩,
              ⟨hkept₂.toKeepsNodes.setTask _, hkept₂.inode, hkept₂.flag⟩⟩
            · have hne : j ≠ i := fun heq => hi (heq ▸ hj)
              rw [FsState.setTask_task, htask₂]
              exact Function.update_of_ne hne _ _
            · rw [FsState.setTask_procs, hcur₂, Function.update_of_ne ht, hprocs₂]
        obtain ⟨hfds₁, hcur₁, hprocs₁, htable₁, h₁, hkept₁⟩ := hs₁'
        have hlist : procFds s₁.task fds = procFds s.task fds := procFds_congr hfds₁
        rw [← hlist] at h₁
        have halone₁ : ∀ j ∈ procFds s₁.task fds,
            isPipe s₁ j = true ∨ (procFds s₁.task fds ++ ds).count j = 1 := by
          intro j hj
          rw [hlist] at hj ⊢
          have hmem := List.mem_append_left ds hj
          rw [hkept₁.isPipe hmem]
          refine (halone j (List.mem_cons_of_mem _ hj)).imp_right fun hone => ?_
          have hpos := List.count_pos_iff.2 hmem
          rw [List.cons_append, List.count_cons] at hone
          omega
        obtain ⟨hholds, hkept, hfree, hsame, hcur, hprocs⟩ :=
          ih hnodup hthree' h₁ (by omega) halone₁ hrest
        rw [hlist] at hfree hsame
        refine ⟨hholds, (hkept₁.mono fun j hj => List.mem_append_right _ hj).trans hkept,
          fun j hj => ?_, fun j hj => ?_, hcur.trans hcur₁, fun t ht => ?_⟩
        · by_cases hmem : j ∈ procFds s.task fds ++ ds
          · exact hfree j hmem
          · rw [List.cons_append] at hj
            have hjg : j = g := (List.mem_cons.1 hj).resolve_right hmem
            rw [hsame j hmem, htable₁, hjg]
            rw [hjg] at hmem
            exact iff_of_true (hfree₂.2 hmem) fun hds => hmem (List.mem_append_right _ hds)
        · rw [List.cons_append] at hj
          have hmem := fun hmem => hj (List.mem_cons_of_mem g hmem)
          have hjg : j ≠ g := fun heq => hj (heq ▸ List.mem_cons_self)
          rw [hsame j hmem, htable₁, hsame₂ j hjg]
        · rw [hprocs t (by rw [hcur₁]; exact ht), hprocs₁ t ht]

end Userprog
end JackOS
