/-
  JackOS.Userprog.ForkRelease

  The exit of a forked child and the wait of its parent.  The page tables, the
  pages, the page directory and the PCB of the child go back to their pools;
  of the 23 pages of its address bitmap `release_prog_resource` gives back 22,
  since it divides the length of the bitmap where `fork` rounds up
  (`exitAndWait_leaks`).
-/

import JackOS.Userprog.ForkCopy

namespace JackOS
namespace Userprog

open Base Base.Mem Kernel

/-! ## Giving back the pages of user space -/

section Tables

variable {L : Layout} {m m' : Machine} {dir : Nat}

/-- Frames become free, all else stays. -/
structure Frees (L : Layout) (m m' : Machine) (freed : Nat → Prop) : Prop where
  layout : L.Of m'
  same : SamePages m m'
  free : ∀ pf g, FreeIn L m' pf g → FreeIn L m pf g ∨ freed g

theorem Frees.refl (hL : L.Of m) (freed : Nat → Prop) : Frees L m m freed :=
  ⟨hL, ⟨rfl, rfl, rfl, rfl, rfl⟩, fun _ _ hg => .inl hg⟩

theorem Frees.trans {m'' : Machine} {freed : Nat → Prop} (h : Frees L m m' freed)
    (h' : Frees L m' m'' freed) : Frees L m m'' freed := by
  have hs := h.same
  have hs' := h'.same
  refine ⟨h'.layout, ⟨hs'.kernelVaddr.trans hs.kernelVaddr, hs'.kernelPte.trans hs.kernelPte,
    hs'.phys.trans hs.phys, hs'.tcb.trans hs.tcb, hs'.cr3.trans hs.cr3⟩, fun pf g hg => ?_⟩
  rcases h'.free pf g hg with hg | hg
  · exact h.free pf g hg
  · exact .inr hg

theorem Frees.of_pfree {freed : Nat → Prop} {f : Nat} (hL : L.Of m) (hf : freed f)
    (hbase : L.kernelBase ≤ f) : Frees L m (m.pfree (f * pgSize)) freed := by
  obtain ⟨hL', hsame, hfree⟩ := pfree_spec hL hbase
  refine ⟨hL', hsame, fun pf g hg => ?_⟩
  rcases hfree pf g hg with hg | rfl
  · exact .inl hg
  · exact .inr hf

/-- The inner loop of `release_prog_resource`. -/
theorem freeTablePages_frees {freed : Nat → Prop} {t left i : Nat} (hL : L.Of m)
    (hfreed : ∀ j f, j < i + left → m.entryFrame t j = some f → freed f ∧ L.kernelBase ≤ f) :
    Frees L m (freeTablePages t left i m) freed := by
  induction left generalizing i m with
  | zero => exact Frees.refl hL freed
  | succ left ih =>
      rw [freeTablePages]
      have hstep : Frees L m (if Machine.present (m.word t i) then
          m.pfree (Machine.frameOf (m.word t i) * pgSize) else m) freed := by
        split
        · rename_i hpresent
          obtain ⟨hf, hbase⟩ := hfreed i _ (by omega) (if_pos hpresent)
          exact Frees.of_pfree hL hf hbase
        · exact Frees.refl hL freed
      refine hstep.trans (ih hstep.layout fun j f hj hjf => hfreed j f (by omega) ?_)
      rw [← hjf]
      exact (entryFrame_congr (by rw [hstep.same.phys]) j).symm

/-- The outer loop. -/
theorem freeTables_frees {freed : Nat → Prop} {left i : Nat} (hL : L.Of m)
    (htable : ∀ d t, d < i + left → m.tableFrame dir d = some t → freed t ∧ L.kernelBase ≤ t)
    (hpage : ∀ d t j f, d < i + left → j < 1024 → m.tableFrame dir d = some t →
      m.entryFrame t j = some f → freed f ∧ L.kernelBase ≤ f) :
    Frees L m (freeTables dir left i m) freed := by
  induction left generalizing i m with
  | zero => exact Frees.refl hL freed
  | succ left ih =>
      rw [freeTables]
      have hstep : Frees L m (if Machine.present (m.word dir i) then
          (freeTablePages (Machine.frameOf (m.word dir i)) 1024 0 m).pfree
            (Machine.frameOf (m.word dir i) * pgSize) else m) freed := by
        split
        · rename_i hpresent
          have ht : m.tableFrame dir i = some (Machine.frameOf (m.word dir i)) := if_pos hpresent
          obtain ⟨hf, hbase⟩ := htable i _ (by omega) ht
          have hpages : Frees L m (freeTablePages (Machine.frameOf (m.word dir i)) 1024 0 m) freed :=
            freeTablePages_frees hL fun j f hj hjf => hpage i _ j f (by omega) (by omega) ht hjf
          exact hpages.trans (Frees.of_pfree hpages.layout hf hbase)
        · exact Frees.refl hL freed
      have hphys := hstep.same.phys
      refine hstep.trans (ih hstep.layout (fun d t hd ht => htable d t (by omega) ?_)
        fun d t j f hd hj ht hf => hpage d t j f (by omega) hj ?_ ?_)
      · rw [← ht]
        exact (tableFrame_congr (by rw [hphys]) d).symm
      · rw [← ht]
        exact (tableFrame_congr (by rw [hphys]) d).symm
      · rw [← hf]
        exact (entryFrame_congr (by rw [hphys]) j).symm

end Tables

/-! ## The exit succeeds -/

section Exit

variable {L : Layout} {m m₁ m₂ m' : Machine} {p cnt : Nat}

/-- Pages with frames of the kernel's pool can be freed. -/
theorem freePages_ok (hL : L.Of m) (hlow : 0xC0000 ≤ p)
    (hframe : ∀ k, k < cnt → L.kernelBase ≤ Machine.frameOf (m.kernelPte (p + k))
      ∧ Machine.frameOf (m.kernelPte (p + k)) < L.userBase) :
    ∃ m', Machine.freePages .kernel cnt (p * pgSize) m = .ok m' := by
  induction cnt generalizing p m with
  | zero => exact ⟨m, rfl⟩
  | succ cnt ih =>
      have hfirst := hframe 0 (by omega)
      rw [Nat.add_zero] at hfirst
      have hkernel := hL.start .kernel
      have huser := hL.start .user
      simp only [Machine.pool, Layout.base] at hkernel huser
      have hin : m.inPool .kernel (Machine.frameOf (m.kernelPte p) * pgSize) := by
        simp only [Machine.inPool, hkernel, huser, pgSize]
        omega
      obtain ⟨hL₁, hsame, -⟩ := pfree_spec hL hfirst.1
      have hpage : p * pgSize / pgSize = p := Nat.mul_div_cancel p (by norm_num [pgSize])
      have hnext : p * pgSize + pgSize = (p + 1) * pgSize := by rw [Nat.add_mul, Nat.one_mul]
      rw [Machine.freePages, addrV2p_kernel hlow, Outcome.ok_bind, require_pos hin, Outcome.ok_bind,
        hnext]
      refine ih ⟨hL₁.start, hL₁.byteLen, hL₁.vaddrStart, hL₁.vaddrLen⟩ (by omega) fun k hk => ?_
      have hrest := hframe (k + 1) (by omega)
      have hpte : ((m.pfree (Machine.frameOf (m.kernelPte p) * pgSize)).pageTablePteRemove
          (p * pgSize)).kernelPte (p + 1 + k) = m.kernelPte (p + (k + 1)) := by
        rw [Machine.pageTablePteRemove, hpage, Machine.setKernelPte_kernelPte,
          Function.update_of_ne (by omega), hsame.kernelPte]
        exact congrArg m.kernelPte (by omega)
      rw [hpte]
      exact hrest

theorem mfreePage_ok (hL : L.Of m) (hlow : 0xC0000 ≤ p) (hcnt : 0 < cnt)
    (hframe : ∀ k, k < cnt → L.kernelBase ≤ Machine.frameOf (m.kernelPte (p + k))
      ∧ Machine.frameOf (m.kernelPte (p + k)) < L.userBase) :
    ∃ m', m.mfreePage (p * pgSize) cnt = .ok m' := by
  obtain ⟨m', hfree⟩ := freePages_ok hL hlow hframe
  have hfirst := hframe 0 hcnt
  rw [Nat.add_zero] at hfirst
  have hlayout := L.low
  have huser := hL.start .user
  simp only [Machine.pool, Layout.base] at huser
  have halign : p * pgSize % pgSize = 0 := Nat.mul_mod_left p pgSize
  have haddr : 0x102000 ≤ Machine.frameOf (m.kernelPte p) * pgSize := by
    rw [pgSize]
    omega
  have hpool : ¬ m.userPool.phyAddrStart ≤ Machine.frameOf (m.kernelPte p) * pgSize := by
    rw [huser, pgSize]
    omega
  rw [Machine.mfreePage, require_pos ⟨hcnt, halign⟩, Outcome.ok_bind, addrV2p_kernel hlow,
    Outcome.ok_bind, require_pos haddr, Outcome.ok_bind, if_neg hpool]
  simp only [hfree, Outcome.ok_bind]
  exact ⟨_, rfl⟩

/-- A run of pages with frames of the kernel's pool is given back. -/
theorem mfreePage_gives (fr : Nat → Nat) (hL : L.Of m) (hlow : 0xC0000 ≤ p) (hcnt : 0 < cnt)
    (hmaps : ∀ k, k < cnt → KernelMaps m (p + k) (fr k))
    (hframe : ∀ k, k < cnt → L.kernelBase ≤ fr k ∧ fr k < L.userBase) :
    ∃ m', m.mfreePage (p * pgSize) cnt = .ok m' ∧ Gives L m m' p cnt
      ∧ ∀ pf g, FreeIn L m' pf g → FreeIn L m pf g ∨ ∃ k, k < cnt ∧ g = fr k := by
  obtain ⟨m', hfree⟩ := mfreePage_ok hL hlow hcnt fun k hk => by
    rw [(hmaps k hk).frame]
    exact hframe k hk
  have hgives := mfreePage_spec hL hlow hfree
  refine ⟨m', hfree, hgives, fun pf g hg => ?_⟩
  rcases hgives.free pf g hg with hg | ⟨k, hk, rfl⟩
  · exact .inl hg
  · exact .inr ⟨k, hk, (hmaps k hk).frame⟩

end Exit

/-! ## The leak -/

section Leak

variable {L : Layout} {m m₁ m₂ m' : Machine} {parent : Nat} {c : ChildPages}

/-- The loops over the child's page directory give back its page tables and
    pages, all of them frames that were free before `copy_body_stack3`. -/
theorem Forked.freeTables_frees (h : Forked L m m₁ m₂ m' parent c) {m₃ : Machine} (hL : L.Of m₃)
    (hphys : m₃.phys = m'.phys) :
    Frees L m₃ (freeTables c.dirFrame 768 0 m₃) (Free L m₁) := by
  have hphys₂ : m₃.phys = m₂.phys := hphys.trans h.gives.phys
  have htable : ∀ d, m₃.tableFrame c.dirFrame d = m₂.tableFrame c.dirFrame d :=
    tableFrame_congr (by rw [hphys₂])
  have hbase := L.kernelEnd
  refine Userprog.freeTables_frees hL (fun d t hd ht => ?_) fun d t j f hd hj ht hf => ?_
  · rw [htable] at ht
    have hfree := (h.copying.space.table d t (by omega) ht).1
    exact ⟨⟨_, hfree⟩, hfree.kernel_lt.1⟩
  · rw [htable] at ht
    rw [entryFrame_congr (m := m₂) (by rw [hphys₂])] at hf
    have hdiv : (d * 1024 + j) / 1024 = d := by omega
    have hmod : (d * 1024 + j) % 1024 = j := by omega
    have hpage : m₂.userFrame c.dirFrame (d * 1024 + j) = some f :=
      userFrame_eq_some.2 ⟨t, by rw [hdiv, ht], by rw [hmod, hf]⟩
    have hfree := (h.copying.space.page _ f (by rw [userPages]; omega) hpage).1
    have huser := hfree.user_le
    exact ⟨⟨_, hfree⟩, by omega⟩

/-- The exit of the child and its reaping succeed, and the last page of the
    child's address bitmap stays allocated. -/
theorem Forked.exitAndWait (hrun : Running L m parent) (h : Forked L m m₁ m₂ m' parent c) :
    ∃ m'', Userprog.exitAndWait m' (c.pcb * pgSize) parent = .ok m''
      ∧ ¬ Free L m'' (c.bitsFrame 22) := by
  have hcnt : bitmapPgCnt = 23 := by decide
  have hpages := h.prep.pages
  have hlow : 0xC0000 ≤ c.bits := (hpages.bits 0 (by omega)).low
  have hchild : m'.tcb (c.pcb * pgSize)
      = { m.tcb parent with vaddrBits := c.bits * pgSize, pgdir := c.dir * pgSize } := by
    rw [h.tcb, h.prep.child]
  have hparent : m'.tcb parent = m.tcb parent := by
    rw [h.tcb, h.prep.tcb _ (h.prep.parent_ne hrun)]
  have hbits : ∀ k, k < bitmapPgCnt → KernelMaps m' (c.bits + k) (c.bitsFrame k) :=
    fun k hk => h.maps (hpages.bits k hk).maps (hpages.bitsApart k hk).2.1
  have hdir : KernelMaps m' c.dir c.dirFrame := h.maps hpages.dir.maps hpages.bufApart.2.symm
  have hpcb : KernelMaps m' c.pcb c.pcbFrame := h.maps hpages.pcb.maps hpages.bufApart.1.symm
  -- the child runs
  have hact := pageDirActivate_eq (m := m') (t := c.pcb * pgSize) hpages.dir.low (by rw [hchild])
  generalize hm₃ : { m' with cr3 := Machine.frameOf (m'.kernelPte c.dir) * pgSize } = m₃ at hact
  have hL₃ : L.Of m₃ := by
    have hL := h.takes.layout
    rw [← hm₃]
    exact ⟨hL.start, hL.byteLen, hL.vaddrStart, hL.vaddrLen⟩
  have hframe : m₃.frameAt (m₃.tcb (c.pcb * pgSize)).pgdir = .ok c.dirFrame := by
    have hpgdir : (m₃.tcb (c.pcb * pgSize)).pgdir = c.dir * pgSize := by
      rw [← hm₃]
      exact congrArg Tcb.pgdir hchild
    have hdir₃ : KernelMaps m₃ c.dir c.dirFrame := by
      rw [← hm₃]
      exact ⟨hdir.present, hdir.frame⟩
    rw [hpgdir, frameAt_page hpages.dir.low hdir₃]
  -- its pages and page tables go back
  obtain ⟨m₄, hm₄, hfrees⟩ : ∃ m₄, freeTables c.dirFrame 768 0 m₃ = m₄
      ∧ Frees L m₃ m₄ (Free L m₁) := ⟨_, rfl, h.freeTables_frees hL₃ (by rw [← hm₃])⟩
  have hpte₄ : m₄.kernelPte = m'.kernelPte := by
    rw [hfrees.same.kernelPte, ← hm₃]
  have htcb₄ : m₄.tcb = m'.tcb := by
    rw [hfrees.same.tcb, ← hm₃]
  -- 22 pages of its bitmap
  obtain ⟨m₅, hfree₅, hgives₅, hback₅⟩ := mfreePage_gives c.bitsFrame hfrees.layout hlow
    (show 0 < 22 by omega)
    (fun k hk => by
      have hk := hbits k (by omega)
      exact ⟨by rw [hpte₄]; exact hk.present, by rw [hpte₄]; exact hk.frame⟩)
    fun k hk => (hpages.bits k (by omega)).free.kernel_lt
  have hmaps₅ : ∀ q f, KernelMaps m' q f → (∀ k, k < 22 → f ≠ c.bitsFrame k) →
      KernelMaps m₅ q f := by
    intro q f hq hne
    refine hgives₅.maps ⟨by rw [hpte₄]; exact hq.present, by rw [hpte₄]; exact hq.frame⟩ ?_
    exact fun k hk => hq.page_ne (hbits k (by omega)) (hne k hk)
  have hdir₅ := hmaps₅ _ _ hdir fun k hk => (hpages.bitsApart k (by omega)).2.2.symm
  have hpcb₅ := hmaps₅ _ _ hpcb fun k hk => (hpages.bitsApart k (by omega)).1.symm
  have htcb₅ : m₅.tcb = m'.tcb := by rw [hgives₅.tcb, htcb₄]
  -- the parent runs again
  obtain ⟨pp, hpp, hppPgdir, -⟩ := hrun.process.pgdir
  have hact' := pageDirActivate_eq (m := m₅) (t := parent) hpp (by rw [htcb₅, hparent, hppPgdir])
  generalize hm₆ : { m₅ with cr3 := Machine.frameOf (m₅.kernelPte pp) * pgSize } = m₆ at hact'
  have hL₆ : L.Of m₆ := by
    have hL := hgives₅.layout
    rw [← hm₆]
    exact ⟨hL.start, hL.byteLen, hL.vaddrStart, hL.vaddrLen⟩
  have hpgdir₆ : (m₆.tcb (c.pcb * pgSize)).pgdir = c.dir * pgSize := by
    rw [← hm₆]
    exact (congrArg (fun tcb => (tcb (c.pcb * pgSize)).pgdir) htcb₅).trans
      (congrArg Tcb.pgdir hchild)
  -- the page directory and the PCB
  obtain ⟨m₇, hfree₇, hgives₇, hback₇⟩ := mfreePage_gives (fun _ => c.dirFrame) hL₆
    hpages.dir.low (show 0 < 1 by omega)
    (fun k hk => by
      have hk0 : k = 0 := by omega
      rw [hk0, Nat.add_zero, ← hm₆]
      exact ⟨hdir₅.present, hdir₅.frame⟩)
    fun k hk => hpages.dir.free.kernel_lt
  obtain ⟨m₈, hfree₈, hgives₈, hback₈⟩ := mfreePage_gives (fun _ => c.pcbFrame)
    hgives₇.layout hpages.pcb.low (show 0 < 1 by omega)
    (fun k hk => by
      have hk0 : k = 0 := by omega
      rw [hk0, Nat.add_zero]
      refine hgives₇.maps (f := c.pcbFrame) ?_ fun l hl => ?_
      · rw [← hm₆]
        exact ⟨hpcb₅.present, hpcb₅.frame⟩
      · have hl0 : l = 0 := by omega
        rw [hl0, Nat.add_zero]
        exact hpcb.page_ne hdir hpages.pcbApart)
    fun k hk => hpages.pcb.free.kernel_lt
  refine ⟨m₈, ?_, ?_⟩
  · have hlen : (m₄.tcb (c.pcb * pgSize)).vaddrByteLen / pgSize = 22 := by
      rw [htcb₄, hchild, hrun.byteLen]
      decide
    have hvaddr : (m₄.tcb (c.pcb * pgSize)).vaddrBits = c.bits * pgSize := by
      rw [htcb₄, hchild]
    have hne : c.dir * pgSize ≠ 0 := by
      have := hpages.dir.low
      rw [pgSize]
      omega
    rw [Userprog.exitAndWait, hact, Outcome.ok_bind, releaseProgMem, hframe, Outcome.ok_bind]
    simp only [hm₄, hlen, hvaddr, hfree₅, Outcome.ok_bind, hact', threadExitMem, if_pos hne, hpgdir₆,
      hfree₇, hfree₈]
  · obtain ⟨hnp, -, hnd⟩ := hpages.bitsApart 22 (by omega)
    rintro ⟨pf, hg⟩
    rcases hback₈ pf _ hg with hg | ⟨-, -, heq⟩
    · rcases hback₇ pf _ hg with hg | ⟨-, -, heq⟩
      · rw [← hm₆] at hg
        rcases hback₅ pf _ hg with hg | ⟨k, hk, heq⟩
        · rcases hfrees.free pf _ hg with hg | hg
          · rw [← hm₃] at hg
            have hbuf := hpages.bitsApart 22 (by omega)
            have hused := hpages.bits 22 (by omega)
            rcases h.gives.free pf _ hg with hg | ⟨k, hk, heq⟩
            · exact hused.used ⟨pf, h.copying.later pf _ hg⟩
            · have hk0 : k = 0 := by omega
              rw [hk0, Nat.add_zero, h.copying.kernelPte, hpages.buf.maps.frame] at heq
              exact hbuf.2.1 heq
          · exact (hpages.bits 22 (by omega)).used hg
        · have := hpages.bitsInj 22 k (by omega) (by omega) heq
          omega
      · exact hnd heq
    · exact hnp heq

end Leak

/-- The bitmaps of the pools and of the kernel's addresses are as they were. -/
structure Conserved (m m' : Machine) : Prop where
  pool : ∀ pf i, i < 8 * (m.pool pf).poolBitmap.btmpByteLen →
    bitAt (m'.pool pf).poolBitmap.bits i = bitAt (m.pool pf).poolBitmap.bits i
  vaddr : ∀ i, i < 8 * m.kernelVaddr.vaddrBitmap.btmpByteLen →
    bitAt m'.kernelVaddr.vaddrBitmap.bits i = bitAt m.kernelVaddr.vaddrBitmap.bits i

theorem Conserved.free {L : Layout} {m m' : Machine} {f : Nat} (h : Conserved m m') (hL : L.Of m)
    (hf : Free L m f) : Free L m' f := by
  obtain ⟨pf, i, hi, hfi, hclear⟩ := hf
  refine ⟨pf, i, hi, hfi, ?_⟩
  rw [h.pool pf i (by rw [hL.byteLen]; exact hi), hclear]

/-- Whatever the address space of the parent, a fork followed by the exit of the
    child and the wait of the parent leaves a page of the kernel allocated. -/
theorem exitAndWait_leaks {L : Layout} {m m' m'' : Machine} {parent child : Nat} (hL : L.Of m)
    (hkernel : KernelUsed L m) (hrun : Running L m parent)
    (hfork : sysForkMem m parent = .ok (some child, m'))
    (hexit : exitAndWait m' child parent = .ok m'') : ¬ Conserved m m'' := by
  obtain ⟨c, m₁, m₂, rfl, h⟩ := sysForkMem_spec hL hkernel hrun hfork
  obtain ⟨m₃, hexit', hused⟩ := h.exitAndWait hrun
  rw [hexit] at hexit'
  cases hexit'
  intro hcons
  exact hused (hcons.free hL ⟨_, (h.prep.pages.bits 22 (by decide)).free⟩)

/-- The process of `oneProc` forks, and its child exits. -/
theorem oneProc_exits : ∃ child m' m'', sysForkMem oneProc oneProcPcb = .ok (some child, m')
    ∧ exitAndWait m' child oneProcPcb = .ok m'' := by
  obtain ⟨child, m', hfork⟩ := oneProc_forks
  obtain ⟨c, m₁, m₂, rfl, h⟩ := sysForkMem_spec oneProc_of oneProc_kernelUsed oneProc_running hfork
  obtain ⟨m'', hexit, -⟩ := h.exitAndWait oneProc_running
  exact ⟨_, m', m'', hfork, hexit⟩

theorem exitAndWait_leaks_oneProc :
    ∃ child m' m'', sysForkMem oneProc oneProcPcb = .ok (some child, m')
      ∧ exitAndWait m' child oneProcPcb = .ok m'' ∧ ¬ Conserved oneProc m'' := by
  obtain ⟨child, m', m'', hfork, hexit⟩ := oneProc_exits
  exact ⟨child, m', m'', hfork, hexit,
    exitAndWait_leaks oneProc_of oneProc_kernelUsed oneProc_running hfork hexit⟩

/-- A fork of `oneProc` is not undone by the exit and the wait. -/
theorem not_conserved_oneProc :
    ¬ ∀ child m' m'', sysForkMem oneProc oneProcPcb = .ok (some child, m') →
      exitAndWait m' child oneProcPcb = .ok m'' → Conserved oneProc m'' := by
  intro hall
  obtain ⟨child, m', m'', hfork, hexit⟩ := oneProc_exits
  obtain ⟨c, m₁, m₂, rfl, h⟩ := sysForkMem_spec oneProc_of oneProc_kernelUsed oneProc_running hfork
  obtain ⟨m₃, hexit', hused⟩ := h.exitAndWait oneProc_running
  cases hexit.symm.trans hexit'
  exact hused ((hall _ m' m'' hfork hexit).free oneProc_of
    ⟨_, (h.prep.pages.bits 22 (by decide)).free⟩)

end Userprog
end JackOS
