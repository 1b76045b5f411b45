/-
  JackOS.Userprog.ForkCopy

  `copy_body_stack3`: page by page in the order of the bitmap, the child gets
  the pages of the parent.  Between two pages the address space of the child
  has the pages below the next one, each with a frame of its own and the bytes
  of the parent's page (`Copying`).  `sys_fork` thus duplicates the address
  space of the parent (`sysFork_duplicates`).
-/

import JackOS.Userprog.ForkStart

namespace JackOS
namespace Userprog

open Base Base.Mem Kernel

/-! ## The state of the loop -/

/-- Before page `n` is looked at: `m₀` is the machine at the call, `m₁` the one
    at the start of the loop. -/
structure Copying (L : Layout) (m₀ m₁ m : Machine) (parent : Nat) (c : ChildPages) (n : Nat) :
    Prop where
  takes : Takes L m₀ m
  later : ∀ pf g, FreeIn L m pf g → FreeIn L m₁ pf g
  space : Space L m₁ m c.dirFrame
  kernelPte : m.kernelPte = m₁.kernelPte
  tcb : m.tcb = m₁.tcb
  cr3 : m.cr3 = m₀.cr3
  phys : ∀ g, ¬ Free L m₁ g → g ≠ c.dirFrame → g ≠ c.bufFrame → m.phys g = m₁.phys g
  mapped : ∀ v, v < userPages →
    ((m.userFrame c.dirFrame v).isSome ↔ v < n ∧ (pageFrame m₀ parent v).isSome)
  copied : ∀ v f g, v < userPages → m.userFrame c.dirFrame v = some f →
    pageFrame m₀ parent v = some g → ∀ a, a < pgSize → m.phys f a = m₀.phys g a

section Loop

variable {L : Layout} {m₀ m₁ m m' : Machine} {parent n : Nat} {c : ChildPages}

theorem Copying.init (h : Prepared L m₀ m₁ parent c) (hrun : Running L m₀ parent) :
    Copying L m₀ m₁ m₁ parent c (userVaddrStart / pgSize) := by
  have hnone : ∀ v, v < userPages → m₁.userFrame c.dirFrame v = none := by
    intro v hv
    rw [userPages] at hv
    rw [Machine.userFrame, h.dirEmpty _ (by omega), Option.bind_none]
  refine ⟨h.takes, fun _ _ hg => hg, Space.empty h.pages.dir.used h.dirEmpty, rfl, rfl, h.cr3,
    fun _ _ _ _ => rfl, fun v hv => ?_, fun v f g hv hf => ?_⟩
  · rw [hnone v hv]
    constructor
    · intro hsome
      cases hsome
    · rintro ⟨hlt, hsome⟩
      have := ((hrun.marks v hv).1 hsome).1
      omega
  · rw [hnone v hv] at hf
    cases hf

/-- Pages that the parent does not have are passed over. -/
theorem Copying.skip {n' : Nat} (h : Copying L m₀ m₁ m parent c n) (hle : n ≤ n')
    (hnone : ∀ v, n ≤ v → v < n' → pageFrame m₀ parent v = none) :
    Copying L m₀ m₁ m parent c n' := by
  refine ⟨h.takes, h.later, h.space, h.kernelPte, h.tcb, h.cr3, h.phys, fun v hv => ?_, h.copied⟩
  rw [h.mapped v hv]
  constructor
  · rintro ⟨hlt, hsome⟩
    exact ⟨by omega, hsome⟩
  · rintro ⟨hlt, hsome⟩
    refine ⟨?_, hsome⟩
    by_contra hge
    rw [hnone v (by omega) hlt] at hsome
    cases hsome

/-! ## One page -/

/-- One page is copied through the kernel's view of two frames. -/
theorem copyPage_frames {dst src : Nat}
    (hcall : Machine.copyPages 1 dst src m = .ok m') :
    ∃ f g, m.frameAt dst = .ok f ∧ m.frameAt src = .ok g
      ∧ m' = m.setFrame f (copy (m.phys f) 0 (m.phys g) 0 pgSize) := by
  obtain ⟨f, hf, hcall⟩ := Outcome.bind_eq_ok.1 hcall
  obtain ⟨g, hg, hcall⟩ := Outcome.bind_eq_ok.1 hcall
  cases hcall
  exact ⟨f, g, hf, hg, rfl⟩

theorem pageDirActivate_eq {t p : Nat} (hp : 0xC0000 ≤ p)
    (hpgdir : (m.tcb t).pgdir = p * pgSize) :
    m.pageDirActivate t = .ok { m with cr3 := Machine.frameOf (m.kernelPte p) * pgSize } := by
  have hne : (m.tcb t).pgdir ≠ 0 := by
    rw [hpgdir, pgSize]
    omega
  rw [Machine.pageDirActivate, if_neg hne, hpgdir, addrV2p_kernel hp, Outcome.ok_bind]

theorem pageDirActivate_spec {t p : Nat} (hp : 0xC0000 ≤ p) (hpgdir : (m.tcb t).pgdir = p * pgSize)
    (hcall : m.pageDirActivate t = .ok m') :
    m' = { m with cr3 := Machine.frameOf (m.kernelPte p) * pgSize } := by
  rw [pageDirActivate_eq hp hpgdir] at hcall
  exact (Except.ok.inj hcall).symm

theorem frameOf_mul (f : Nat) : Machine.frameOf (f * pgSize) = f :=
  Nat.mul_div_cancel f (by norm_num [pgSize])

/-- The page goes into the address space of the child. -/
theorem getAPage_spec {dir v : Nat} (hL : L.Of m) (hspace : Space L m₁ m dir)
    (hlater : ∀ pf g, FreeIn L m pf g → FreeIn L m₁ pf g) (hcr3 : m.cr3 = dir * pgSize)
    (hv : v < userPages) (hcall : m.getAPageWithoutOpvaddrbitmap (v * pgSize) = .ok m') :
    ∃ f, FreeIn L m .user f ∧ Grows L m₁ m m' dir ∧ Space L m₁ m' dir
      ∧ ∀ v', v' < userPages →
          m'.userFrame dir v' = if v' = v then some f else m.userFrame dir v' := by
  obtain ⟨⟨r, m₂⟩, hpalloc, hcall⟩ := Outcome.bind_eq_ok.1 hcall
  obtain ⟨f, rfl, hf, hused, hgrows, hspace₂, -, hpage⟩ := hspace.of_palloc hL hpalloc
  have hlow : ¬ kernelStart ≤ v * pgSize := by
    rw [userPages] at hv
    rw [kernelStart, pgSize]
    omega
  have hfresh : ∀ v', v' < userPages → m₂.userFrame dir v' ≠ some f := by
    intro v' hv' hsome
    rw [hpage] at hsome
    exact (hspace.page v' f hv' hsome).2 ⟨_, hf⟩
  have hadd : m₂.addUserPage dir (v * pgSize) (f * pgSize) = .ok m' := by
    rw [← hcall]
    simp only [Machine.pageTableAdd, if_neg hlow, hgrows.cr3, hcr3, frameOf_mul]
  obtain ⟨hgrows₂, hspace', hpage'⟩ := addUserPage_spec hgrows.layout hspace₂
    (fun pf g hg => hlater pf g (hgrows.free pf g hg)) hv (hlater _ _ hf) hused hfresh hadd
  refine ⟨f, hf, hgrows.trans hgrows₂, hspace', fun v' hv' => ?_⟩
  rw [hpage' v' hv', hpage]

theorem Prepared.parent_ne (h : Prepared L m₀ m₁ parent c) (hrun : Running L m₀ parent) :
    parent ≠ c.pcb * pgSize := by
  obtain ⟨p, -, rfl, hpresent⟩ := hrun.process.pcb
  intro heq
  have hp : p = c.pcb := Nat.eq_of_mul_eq_mul_right (by norm_num [pgSize]) heq
  exact h.pages.pcb.absent (hp ▸ hpresent)

/-- Page `n` of the child got the frame `f` with the bytes of the frame `g`. -/
structure PageCopied (L : Layout) (m₁ m m' : Machine) (c : ChildPages) (n g f : Nat) : Prop where
  fresh : FreeIn L m .user f
  layout : L.Of m'
  free : ∀ pf g', FreeIn L m' pf g' → FreeIn L m pf g'
  space : Space L m₁ m' c.dirFrame
  page : ∀ v, v < userPages →
    m'.userFrame c.dirFrame v = if v = n then some f else m.userFrame c.dirFrame v
  bytes : ∀ a, a < pgSize → m'.phys f a = m.phys g a
  phys : ∀ g', g' ≠ f → g' ≠ c.bufFrame → g' ≠ c.dirFrame → ¬ FreeIn L m₁ .kernel g' →
    m'.phys g' = m.phys g'
  kernelPte : m'.kernelPte = m.kernelPte
  tcb : m'.tcb = m.tcb
  cr3 : m'.cr3 = m.cr3

/-- What the calls in the loop do for one page. -/
theorem copyPage_spec {g : Nat} (hprep : Prepared L m₀ m₁ parent c) (hrun : Running L m₀ parent)
    (hkernel : KernelUsed L m₀) (h : Copying L m₀ m₁ m parent c n) (hn : n < userPages)
    (hg : pageFrame m₀ parent n = some g)
    (hcall : copyPage (c.pcb * pgSize) parent (c.buf * pgSize) (n * pgSize) m = .ok m') :
    ∃ f, PageCopied L m₁ m m' c n g f := by
  have hbuf : KernelMaps m c.buf c.bufFrame := by
    have hmaps := hprep.pages.buf.maps
    exact ⟨by rw [h.kernelPte]; exact hmaps.present, by rw [h.kernelPte]; exact hmaps.frame⟩
  have hbufUsed := hprep.pages.buf.used
  have hdirUsed := hprep.pages.dir.used
  have hbufDir : c.bufFrame ≠ c.dirFrame := hprep.pages.bufApart.2
  have hparentUsed := hrun.process.dirUsed hkernel
  have hgUsed : ¬ Free L m₀ g := hrun.process.page n g hn hg
  obtain ⟨ma, hcopy₁, hcall⟩ := Outcome.bind_eq_ok.1 hcall
  obtain ⟨mb, hact₁, hcall⟩ := Outcome.bind_eq_ok.1 hcall
  obtain ⟨mc, hget, hcall⟩ := Outcome.bind_eq_ok.1 hcall
  obtain ⟨md, hcopy₂, hact₂⟩ := Outcome.bind_eq_ok.1 hcall
  -- the parent's page goes into the buffer
  obtain ⟨f₁, g₁, hf₁, hg₁, hma⟩ := copyPage_frames hcopy₁
  have hframe := frameAt_page hprep.pages.buf.low hbuf
  rw [hf₁] at hframe
  cases hframe
  rw [frameAt_user hn, h.cr3, hrun.cr3, frameOf_mul,
    h.takes.userFrame hparentUsed hrun.process.table hn] at hg₁
  cases hg₁.symm.trans hg
  -- the child's page directory
  have hpgdir : (ma.tcb (c.pcb * pgSize)).pgdir = c.dir * pgSize := by
    have htcb : ma.tcb = m₁.tcb := by
      rw [hma]
      exact h.tcb
    rw [htcb, hprep.child]
  have hmb := pageDirActivate_spec hprep.pages.dir.low hpgdir hact₁
  have hdirFrame : Machine.frameOf (ma.kernelPte c.dir) = c.dirFrame := by
    have hpte : ma.kernelPte = m₁.kernelPte := by
      rw [hma]
      exact h.kernelPte
    rw [hpte]
    exact hprep.pages.dir.maps.frame
  rw [hdirFrame] at hmb
  have hphysb : ∀ f, f ≠ c.bufFrame → mb.phys f = m.phys f := by
    intro f hf
    rw [hmb, hma]
    exact Function.update_of_ne hf _ _
  have hfreeb : ∀ pf f, FreeIn L mb pf f ↔ FreeIn L m pf f := by
    intro pf f
    rw [hmb, hma]
    exact Iff.rfl
  have htableb : ∀ d t, d < 768 → m.tableFrame c.dirFrame d = some t → mb.phys t = m.phys t := by
    intro d t hd ht
    refine hphysb t ?_
    rintro rfl
    exact hbufUsed ⟨_, (h.space.table d _ hd ht).1⟩
  have husedb : ∀ f, ¬ Free L m f → ¬ Free L mb f := by
    rintro f hf ⟨pf, hfree⟩
    exact hf ⟨pf, (hfreeb pf f).1 hfree⟩
  have hspaceb : Space L m₁ mb c.dirFrame := h.space.of_same (hphysb _ hbufDir.symm) htableb husedb
  have hpageb : ∀ v, v < userPages → mb.userFrame c.dirFrame v = m.userFrame c.dirFrame v := by
    intro v hv
    rw [userPages] at hv
    exact userFrame_congr (hphysb _ hbufDir.symm) (htableb _ · (by omega))
  have hLb : L.Of mb := by
    rw [hmb, hma]
    have hL := h.takes.layout
    exact ⟨hL.start, hL.byteLen, hL.vaddrStart, hL.vaddrLen⟩
  -- a new page of the child
  obtain ⟨f, hf, hgrows, hspacec, hpagec⟩ := getAPage_spec hLb hspaceb
    (fun pf f hf => h.later pf f ((hfreeb pf f).1 hf)) (by rw [hmb]) hn hget
  have hfm : FreeIn L m .user f := (hfreeb _ _).1 hf
  have hfm₁ : FreeIn L m₁ .user f := h.later _ _ hfm
  -- the buffer goes into the child's page
  obtain ⟨f₂, g₂, hf₂, hg₂, hmd⟩ := copyPage_frames hcopy₂
  rw [frameAt_user hn, hgrows.cr3, hmb, frameOf_mul, hpagec n hn, if_pos rfl] at hf₂
  cases hf₂
  have hbufc : KernelMaps mc c.buf c.bufFrame := by
    have hpte : mc.kernelPte = m.kernelPte := by
      rw [hgrows.kernelPte, hmb, hma]
      rfl
    exact ⟨by rw [hpte]; exact hbuf.present, by rw [hpte]; exact hbuf.frame⟩
  have hframe := frameAt_page hprep.pages.buf.low hbufc
  rw [hg₂] at hframe
  cases hframe
  -- back to the parent's page directory
  obtain ⟨pp, hpp, hppPgdir, hppPresent⟩ := hrun.process.pgdir
  have hpgdird : (md.tcb parent).pgdir = pp * pgSize := by
    have htcb : md.tcb = m₁.tcb := by
      rw [hmd, ← h.tcb]
      exact hgrows.tcb.trans (by rw [hmb, hma]; rfl)
    rw [htcb, hprep.tcb _ (hprep.parent_ne hrun), hppPgdir]
  have hm' := pageDirActivate_spec hpp hpgdird hact₂
  have hpted : md.kernelPte = m.kernelPte := by
    rw [hmd]
    exact hgrows.kernelPte.trans (by rw [hmb, hma]; rfl)
  have hcr3 : Machine.frameOf (md.kernelPte pp) * pgSize = m.cr3 := by
    have hdir : dirFrame m₀ parent = Machine.frameOf (m₀.kernelPte pp) := by
      rw [dirFrame, hppPgdir]
      exact congrArg (fun q => Machine.frameOf (m₀.kernelPte q))
        (Nat.mul_div_cancel pp (by norm_num [pgSize]))
    rw [h.cr3, hrun.cr3, hdir, hpted, h.takes.kernelPte pp hppPresent]
  have hphys : ∀ g', g' ≠ f → m'.phys g' = mc.phys g' := by
    intro g' hne
    rw [hm', hmd]
    exact Function.update_of_ne hne _ _
  have hfdir : c.dirFrame ≠ f := by
    rintro heq
    exact hdirUsed ⟨_, heq ▸ hfm₁⟩
  have htablec : ∀ d t, d < 768 → mc.tableFrame c.dirFrame d = some t → m'.phys t = mc.phys t := by
    intro d t hd ht
    refine hphys t ?_
    rintro rfl
    cases (hspacec.table d _ hd ht).1.pool_eq hfm₁
  have hfreec : ∀ pf g', FreeIn L m' pf g' ↔ FreeIn L mc pf g' := by
    intro pf g'
    rw [hm', hmd]
    exact Iff.rfl
  refine ⟨f, hfm, ?_, fun pf g' hg' => ?_, ?_, fun v hv => ?_, fun a ha => ?_, fun g' h₁ h₂ h₃ h₄ => ?_,
    ?_, ?_, ?_⟩
  · rw [hm', hmd]
    have hL := hgrows.layout
    exact ⟨hL.start, hL.byteLen, hL.vaddrStart, hL.vaddrLen⟩
  · exact (hfreeb pf g').1 (hgrows.free pf g' ((hfreec pf g').1 hg'))
  · refine hspacec.of_same (hphys _ hfdir) htablec fun g' hg' => ?_
    rintro ⟨pf, hfree⟩
    exact hg' ⟨pf, (hfreec pf g').1 hfree⟩
  · have hlt : v / 1024 < 768 := by
      rw [userPages] at hv
      omega
    rw [userFrame_congr (hphys _ hfdir) (htablec _ · hlt), hpagec v hv, hpageb v hv]
  · have hcopied : m'.phys f = copy (mc.phys f) 0 (mc.phys c.bufFrame) 0 pgSize := by
      rw [hm', hmd]
      exact Function.update_self _ _ _
    have hbuffer : mb.phys c.bufFrame = copy (m.phys c.bufFrame) 0 (m.phys g) 0 pgSize := by
      rw [hmb, hma]
      exact Function.update_self _ _ _
    rw [hcopied, copy_inside (Nat.zero_le _) (by omega),
      hgrows.phys _ hbufDir fun hfree => hbufUsed ⟨_, hfree⟩, hbuffer,
      copy_inside (Nat.zero_le _) (by omega)]
    exact congrArg _ (by omega)
  · rw [hphys g' h₁, hgrows.phys g' h₃ h₄, hphysb g' h₂]
  · rw [hm']
    exact hpted
  · rw [hm', hmd]
    exact hgrows.tcb.trans (by rw [hmb, hma]; rfl)
  · rw [hm']
    exact hcr3

/-- One page of the parent is copied. -/
theorem Copying.add {g f : Nat} (hprep : Prepared L m₀ m₁ parent c) (hrun : Running L m₀ parent)
    (h : Copying L m₀ m₁ m parent c n) (hn : n < userPages) (hg : pageFrame m₀ parent n = some g)
    (hpage : PageCopied L m₁ m m' c n g f) : Copying L m₀ m₁ m' parent c (n + 1) := by
  have hfm₁ : FreeIn L m₁ .user f := h.later _ _ hpage.fresh
  have hout : ∀ g', ¬ Free L m₁ g' → g' ≠ c.dirFrame → g' ≠ c.bufFrame → m'.phys g' = m.phys g' := by
    intro g' hused hdir hbuf
    refine hpage.phys g' ?_ hbuf hdir fun hfree => hused ⟨_, hfree⟩
    rintro rfl
    exact hused ⟨_, hfm₁⟩
  refine ⟨h.takes.of_kernelPte hpage.layout hpage.free hpage.kernelPte fun g' hused => ?_,
    fun pf g' hfree => h.later pf g' (hpage.free pf g' hfree), hpage.space,
    hpage.kernelPte.trans h.kernelPte, hpage.tcb.trans h.tcb, hpage.cr3.trans h.cr3,
    fun g' hused hdir hbuf => ?_, fun v hv => ?_, fun v f' g' hv hf' hg' a ha => ?_⟩
  · refine hout g' (hprep.takes.used hused) ?_ ?_
    · rintro rfl
      exact hused ⟨_, hprep.pages.dir.free⟩
    · rintro rfl
      exact hused ⟨_, hprep.pages.buf.free⟩
  · rw [hout g' hused hdir hbuf, h.phys g' hused hdir hbuf]
  · rw [hpage.page v hv]
    by_cases hvn : v = n
    · subst hvn
      rw [if_pos rfl, hg]
      simp
    · rw [if_neg hvn, h.mapped v hv]
      have hlt : v < n ↔ v < n + 1 := by omega
      rw [hlt]
  · rw [hpage.page v hv] at hf'
    by_cases hvn : v = n
    · subst hvn
      rw [if_pos rfl] at hf'
      cases hf'
      cases hg.symm.trans hg'
      rw [hpage.bytes a ha, h.takes.phys g (hrun.process.page v g hv hg)]
    · rw [if_neg hvn] at hf'
      obtain ⟨hfree', hused'⟩ := h.space.page v f' hv hf'
      rw [hpage.phys f' ?_ ?_ ?_ ?_]
      · exact h.copied v f' g' hv hf' hg' a ha
      · rintro rfl
        exact hused' ⟨_, hpage.fresh⟩
      · rintro rfl
        exact hprep.pages.buf.used ⟨_, hfree'⟩
      · rintro rfl
        exact hprep.pages.dir.used ⟨_, hfree'⟩
      · intro hkernel
        cases hkernel.pool_eq hfree'

/-! ## The bitmap -/

/-- A byte of the parent's bitmap is read. -/
theorem bitmapByte_spec {t b i : Nat} (hb : 0xC0000 ≤ b) (hbits : (m.tcb t).vaddrBits = b * pgSize)
    (hpresent : Machine.present (m.kernelPte (b + i / pgSize))) :
    bitmapByte m (m.tcb t).vaddrBits i = .ok (vaddrBitmap m t i) := by
  have haddr : b * pgSize + i = (b + i / pgSize) * pgSize + i % pgSize := by
    rw [pgSize]
    omega
  have hoff : (b * pgSize + i) % pgSize = i % pgSize := by
    rw [pgSize]
    omega
  rw [vaddrBitmap_eq hbits, bitmapByte, hbits, haddr,
    frameAt_kernel (le_trans hb (Nat.le_add_right _ _)) (Nat.mod_lt _ (by norm_num [pgSize])) ⟨hpresent, rfl⟩,
    Outcome.ok_bind, ← haddr, hoff]

/-- The parent's bitmap stays as it was. -/
theorem vaddrBitmap_takes {t b i : Nat} (htakes : Takes L m₀ m) (htcb : m.tcb t = m₀.tcb t)
    (hkernel : KernelUsed L m₀) (hbits : (m₀.tcb t).vaddrBits = b * pgSize)
    (hpresent : Machine.present (m₀.kernelPte (b + i / pgSize))) :
    vaddrBitmap m t i = vaddrBitmap m₀ t i := by
  rw [vaddrBitmap_eq hbits, vaddrBitmap_eq (htcb ▸ hbits), htakes.kernelPte _ hpresent,
    htakes.phys _ (hkernel _ hpresent)]

/-- In the loop, a byte of the parent's bitmap. -/
theorem Copying.bitmapByte {i : Nat} (hprep : Prepared L m₀ m₁ parent c)
    (hrun : Running L m₀ parent) (hkernel : KernelUsed L m₀) (h : Copying L m₀ m₁ m parent c n)
    (hi : i < userBitmapLen) :
    Userprog.bitmapByte m (m.tcb parent).vaddrBits i = .ok (vaddrBitmap m₀ parent i) := by
  obtain ⟨b, hb, hbits, hpresent⟩ := hrun.bits
  have htcb : m.tcb parent = m₀.tcb parent := by
    rw [h.tcb, hprep.tcb _ (hprep.parent_ne hrun)]
  have hdiv : i / pgSize < bitmapPgCnt := by
    have hlen : userBitmapLen = 94199 := by decide
    have hcnt : bitmapPgCnt = 23 := by decide
    rw [hcnt, pgSize]
    omega
  have hpte := h.takes.kernelPte _ (hpresent _ hdiv)
  rw [bitmapByte_spec hb (htcb ▸ hbits) (by rw [hpte]; exact hpresent _ hdiv),
    vaddrBitmap_takes h.takes htcb hkernel hbits (hpresent _ hdiv)]

/-- Bit `i` of the parent's bitmap says whether page `0x8048 + i` is there. -/
theorem Running.bit (hrun : Running L m₀ parent) {i : Nat} (hi : i < 8 * userBitmapLen) :
    bitAt (vaddrBitmap m₀ parent) i = true ↔
      (pageFrame m₀ parent (userVaddrStart / pgSize + i)).isSome := by
  have hstart : userVaddrStart / pgSize = 0x8048 := by decide
  have hlen : userBitmapLen = 94199 := by decide
  have hmarks := hrun.marks (userVaddrStart / pgSize + i) (by rw [userPages]; omega)
  rw [hmarks, Nat.add_sub_cancel_left]
  exact ⟨fun h => ⟨Nat.le_add_right _ _, h⟩, And.right⟩

/-! ## The loops -/

/-- The bits of one byte. -/
theorem copyByte_spec {idxByte left idxBit : Nat} (hprep : Prepared L m₀ m₁ parent c)
    (hrun : Running L m₀ parent) (hkernel : KernelUsed L m₀) (hbyte : idxByte < userBitmapLen)
    (hleft : idxBit + left = 8)
    (h : Copying L m₀ m₁ m parent c (userVaddrStart / pgSize + (idxByte * 8 + idxBit)))
    (hcall : copyByte (c.pcb * pgSize) parent (c.buf * pgSize) idxByte left idxBit m = .ok m') :
    Copying L m₀ m₁ m' parent c (userVaddrStart / pgSize + (idxByte + 1) * 8) := by
  induction left generalizing idxBit m with
  | zero =>
      cases hcall
      have hend : userVaddrStart / pgSize + (idxByte * 8 + idxBit)
          = userVaddrStart / pgSize + (idxByte + 1) * 8 := by omega
      exact hend ▸ h
  | succ left ih =>
      obtain ⟨byte, hread, hcall⟩ := Outcome.bind_eq_ok.1 hcall
      rw [h.bitmapByte hprep hrun hkernel hbyte] at hread
      cases hread
      obtain ⟨m₂, hstep, hcall⟩ := Outcome.bind_eq_ok.1 hcall
      have hstart : userVaddrStart / pgSize = 0x8048 := by decide
      have hlen : userBitmapLen = 94199 := by decide
      have hbit := hrun.bit (i := idxByte * 8 + idxBit) (by omega)
      have hdiv : (idxByte * 8 + idxBit) / 8 = idxByte := by omega
      have hmod : (idxByte * 8 + idxBit) % 8 = idxBit := by omega
      have hnext : userVaddrStart / pgSize + (idxByte * 8 + (idxBit + 1))
          = userVaddrStart / pgSize + (idxByte * 8 + idxBit) + 1 := by omega
      rw [bitAt, hdiv, hmod] at hbit
      refine ih (by omega) ?_ hcall
      rw [hnext]
      by_cases hset : (vaddrBitmap m₀ parent idxByte).toBitVec.getLsbD idxBit = true
      · rw [if_pos hset] at hstep
        have htcb : m.tcb parent = m₀.tcb parent := by
          rw [h.tcb, hprep.tcb _ (hprep.parent_ne hrun)]
        have haddr : ((idxByte * 8 + idxBit) * pgSize + (m.tcb parent).vaddrStart) % 2 ^ 32
            = (userVaddrStart / pgSize + (idxByte * 8 + idxBit)) * pgSize := by
          rw [htcb, hrun.vaddrStart, hstart, userVaddrStart, pgSize]
          omega
        rw [haddr] at hstep
        obtain ⟨g, hg⟩ := Option.isSome_iff_exists.1 (hbit.1 hset)
        have hlt : userVaddrStart / pgSize + (idxByte * 8 + idxBit) < userPages := by
          rw [userPages]
          omega
        obtain ⟨f, hpage⟩ := copyPage_spec hprep hrun hkernel h hlt hg hstep
        exact h.add hprep hrun hlt hg hpage
      · rw [if_neg hset] at hstep
        cases hstep
        refine h.skip (Nat.le_succ _) fun v hv hv' => ?_
        have hv : v = userVaddrStart / pgSize + (idxByte * 8 + idxBit) := by omega
        rw [hv]
        exact Option.not_isSome_iff_eq_none.1 fun hsome => hset (hbit.2 hsome)

/-- The bytes of the bitmap. -/
theorem copyBytes_spec {left idxByte : Nat} (hprep : Prepared L m₀ m₁ parent c)
    (hrun : Running L m₀ parent) (hkernel : KernelUsed L m₀)
    (hleft : idxByte + left ≤ userBitmapLen)
    (h : Copying L m₀ m₁ m parent c (userVaddrStart / pgSize + idxByte * 8))
    (hcall : copyBytes (c.pcb * pgSize) parent (c.buf * pgSize) left idxByte m = .ok m') :
    Copying L m₀ m₁ m' parent c (userVaddrStart / pgSize + (idxByte + left) * 8) := by
  induction left generalizing idxByte m with
  | zero =>
      cases hcall
      exact h
  | succ left ih =>
      obtain ⟨byte, hread, hcall⟩ := Outcome.bind_eq_ok.1 hcall
      rw [h.bitmapByte hprep hrun hkernel (by omega)] at hread
      cases hread
      obtain ⟨m₂, hstep, hcall⟩ := Outcome.bind_eq_ok.1 hcall
      rw [show idxByte + (left + 1) = idxByte + 1 + left by omega]
      refine ih (by omega) ?_ hcall
      by_cases hzero : vaddrBitmap m₀ parent idxByte = 0
      · -- no page of this byte is there
        rw [if_neg (not_not_intro hzero)] at hstep
        cases hstep
        refine h.skip (by omega) fun v hv hv' => ?_
        obtain ⟨i, rfl⟩ : ∃ i, v = userVaddrStart / pgSize + i := ⟨_, (Nat.add_sub_of_le (by omega)).symm⟩
        have hdiv : i / 8 = idxByte := by omega
        have hbit := hrun.bit (i := i) (by omega)
        rw [bitAt, hdiv, hzero] at hbit
        refine Option.not_isSome_iff_eq_none.1 fun hsome => ?_
        have hset := hbit.2 hsome
        simp at hset
      · rw [if_pos hzero] at hstep
        exact copyByte_spec hprep hrun hkernel (by omega) rfl h hstep

end Loop

/-! ## The fork -/

/-- The address space of `child` in `m'` is a copy of that of `parent` in `m`,
    in frames that nobody else has. -/
structure Duplicates (L : Layout) (m m' : Machine) (parent child : Nat) : Prop where
  bitmap : ∀ i, i < userBitmapLen → vaddrBitmap m' child i = vaddrBitmap m parent i
  bitmapLen : (m'.tcb child).vaddrByteLen = (m.tcb parent).vaddrByteLen
  vaddrStart : (m'.tcb child).vaddrStart = (m.tcb parent).vaddrStart
  copied : ∀ i, i < 8 * userBitmapLen → bitAt (vaddrBitmap m parent) i = true →
    ∃ f g, pageFrame m' child (userVaddrStart / pgSize + i) = some f
      ∧ pageFrame m parent (userVaddrStart / pgSize + i) = some g
      ∧ ∀ a, a < pgSize → m'.phys f a = m.phys g a
  fresh : ∀ v f, v < userPages → pageFrame m' child v = some f → FreeIn L m .user f
  distinct : ∀ v v' f, v < userPages → v' < userPages → pageFrame m' child v = some f →
    pageFrame m' child v' = some f → v = v'
  unsharedPage : ∀ t v v' f, Process L m t → v < userPages → v' < userPages →
    pageFrame m' child v = some f → pageFrame m' t v' ≠ some f
  unsharedKernel : ∀ v p f, v < userPages → pageFrame m' child v = some f →
    Machine.present (m'.kernelPte p) → Machine.frameOf (m'.kernelPte p) ≠ f
  parentTcb : m'.tcb parent = m.tcb parent
  parentBitmap : ∀ i, i < userBitmapLen → vaddrBitmap m' parent i = vaddrBitmap m parent i
  parentMapped : ∀ v, v < userPages → pageFrame m' parent v = pageFrame m parent v
  parentBytes : ∀ v g, v < userPages → pageFrame m parent v = some g → m'.phys g = m.phys g

section Fork

variable {L : Layout} {m m₁ m₂ m' : Machine} {parent : Nat} {c : ChildPages}

/-- The machine of the child before the buffer page is given back. -/
structure Forked (L : Layout) (m m₁ m₂ m' : Machine) (parent : Nat) (c : ChildPages) : Prop where
  prep : Prepared L m m₁ parent c
  copying : Copying L m m₁ m₂ parent c userPages
  gives : Gives L m₂ m' c.buf 1

theorem sysForkMem_spec {child : Nat} (hL : L.Of m) (hkernel : KernelUsed L m)
    (hrun : Running L m parent) (hcall : sysForkMem m parent = .ok (some child, m')) :
    ∃ c m₁ m₂, child = c.pcb * pgSize ∧ Forked L m m₁ m₂ m' parent c := by
  obtain ⟨⟨r, m₀⟩, hget, hcall⟩ := Outcome.bind_eq_ok.1 hcall
  cases r with
  | none => cases hcall
  | some vaddr =>
      obtain ⟨pc, fc, rfl, hpc, htakes, htcb, hcr3, -, -, -⟩ := getKernelPage_spec hL hget
      obtain ⟨_, -, hcall⟩ := Outcome.bind_eq_ok.1 hcall
      obtain ⟨⟨copied, m₃⟩, hcopy, hcall⟩ := Outcome.bind_eq_ok.1 hcall
      cases copied with
      | false => cases hcall
      | true =>
          cases hcall
          obtain ⟨⟨r, m₁⟩, hstart, hcopy⟩ := Outcome.bind_eq_ok.1 hcopy
          cases r with
          | none => cases hcopy
          | some bufPage =>
              obtain ⟨b, hb, hbits, hpresent⟩ := hrun.bits
              obtain ⟨c, rfl, rfl, hprep⟩ :=
                copyProcessStart_spec htakes hpc htcb hcr3 hb hbits hkernel hpresent hstart
              obtain ⟨m₂, hbody, hcopy⟩ := Outcome.bind_eq_ok.1 hcopy
              obtain ⟨m₃, hfree, hcopy⟩ := Outcome.bind_eq_ok.1 hcopy
              cases hcopy
              have hlen : (m₁.tcb parent).vaddrByteLen = userBitmapLen := by
                rw [hprep.tcb _ (hprep.parent_ne hrun), hrun.byteLen]
              have hend : userVaddrStart / pgSize + userBitmapLen * 8 = userPages := by decide
              rw [copyBodyStack3, hlen] at hbody
              have hcopying := copyBytes_spec hprep hrun hkernel (Nat.zero_add _).le
                (Copying.init hprep hrun) hbody
              rw [Nat.zero_add, hend] at hcopying
              exact ⟨c, m₁, m₂, rfl, hprep, hcopying,
                mfreePage_spec hcopying.takes.layout hprep.pages.buf.low hfree⟩

/-- Giving back the buffer page leaves the other pages of the kernel mapped. -/
theorem Forked.maps {p f : Nat} (h : Forked L m m₁ m₂ m' parent c) (hp : KernelMaps m₁ p f)
    (hne : f ≠ c.bufFrame) : KernelMaps m' p f := by
  have hpb : p ≠ c.buf := by
    rintro rfl
    exact hne (hp.frame.symm.trans h.prep.pages.buf.maps.frame)
  have hpte : m'.kernelPte p = m₁.kernelPte p := by
    rw [h.gives.other p fun k hk => by
      have hk0 : k = 0 := by omega
      rw [hk0]
      exact hpb, h.copying.kernelPte]
  exact ⟨by rw [hpte]; exact hp.present, by rw [hpte]; exact hp.frame⟩

theorem Forked.takes (h : Forked L m m₁ m₂ m' parent c) : Takes L m m' := by
  have hbuf : ∀ k, k < 1 → c.buf + k = c.buf := by omega
  refine h.gives.takes h.copying.takes (fun k hk => ?_) fun k hk => ?_
  · rw [hbuf k hk]
    exact h.prep.pages.buf.absent
  · rw [hbuf k hk, h.copying.kernelPte, h.prep.pages.buf.maps.frame]
    exact h.prep.pages.buf.free

theorem Forked.tcb (h : Forked L m m₁ m₂ m' parent c) : m'.tcb = m₁.tcb :=
  h.gives.tcb.trans h.copying.tcb

theorem Forked.dirFrame_eq (h : Forked L m m₁ m₂ m' parent c) :
    dirFrame m' (c.pcb * pgSize) = c.dirFrame := by
  have hpgdir : (m'.tcb (c.pcb * pgSize)).pgdir = c.dir * pgSize := by
    rw [h.tcb, h.prep.child]
  have hmaps := h.maps h.prep.pages.dir.maps h.prep.pages.bufApart.2.symm
  rw [dirFrame, hpgdir, Nat.mul_div_cancel c.dir (by norm_num [pgSize])]
  exact hmaps.frame

theorem Forked.pageFrame_eq (h : Forked L m m₁ m₂ m' parent c) (v : Nat) :
    pageFrame m' (c.pcb * pgSize) v = m₂.userFrame c.dirFrame v := by
  rw [pageFrame, h.dirFrame_eq]
  exact userFrame_congr (by rw [h.gives.phys]) fun t _ => by rw [h.gives.phys]

theorem Forked.vaddrBitmap_eq (h : Forked L m m₁ m₂ m' parent c) {i : Nat}
    (hi : i < userBitmapLen) :
    vaddrBitmap m' (c.pcb * pgSize) i = vaddrBitmap m parent i := by
  have hlen : userBitmapLen = 94199 := by decide
  have hcnt : bitmapPgCnt = 23 := by decide
  have hdiv : i / pgSize < bitmapPgCnt := by
    rw [hcnt, pgSize]
    omega
  have hbits₁ : (m₁.tcb (c.pcb * pgSize)).vaddrBits = c.bits * pgSize := by rw [h.prep.child]
  have hbits : (m'.tcb (c.pcb * pgSize)).vaddrBits = c.bits * pgSize := by rw [h.tcb, hbits₁]
  have htaken := h.prep.pages.bits _ hdiv
  obtain ⟨-, hnb, hnd⟩ := h.prep.pages.bitsApart _ hdiv
  rw [Userprog.vaddrBitmap_eq hbits, (h.maps htaken.maps hnb).frame, h.gives.phys,
    h.copying.phys _ htaken.used hnd hnb,
    ← h.prep.bitmap i (by rw [hcnt, pgSize]; omega), Userprog.vaddrBitmap_eq hbits₁,
    htaken.maps.frame]

end Fork

/-- `sys_fork` duplicates the address space of its caller. -/
theorem sysFork_duplicates {L : Layout} {m m' : Machine} {parent child : Nat}
    (hL : L.Of m) (hkernel : KernelUsed L m) (hrun : Running L m parent)
    (hcall : sysForkMem m parent = .ok (some child, m')) : Duplicates L m m' parent child := by
  obtain ⟨c, m₁, m₂, rfl, h⟩ := sysForkMem_spec hL hkernel hrun hcall
  have htcb : ∀ t, Process L m t → m'.tcb t = m.tcb t := by
    intro t ht
    obtain ⟨p, -, rfl, hpresent⟩ := ht.pcb
    rw [h.tcb, h.prep.tcb]
    intro heq
    have hp : p = c.pcb := Nat.eq_of_mul_eq_mul_right (by norm_num [pgSize]) heq
    exact h.prep.pages.pcb.absent (hp ▸ hpresent)
  have hfresh : ∀ v f, v < userPages → pageFrame m' (c.pcb * pgSize) v = some f →
      FreeIn L m .user f := by
    intro v f hv hf
    rw [h.pageFrame_eq] at hf
    exact h.prep.takes.free _ _ (h.copying.space.page v f hv hf).1
  have hstart : userVaddrStart / pgSize = 0x8048 := by decide
  have hlen : userBitmapLen = 94199 := by decide
  refine ⟨fun i hi => h.vaddrBitmap_eq hi, ?_, ?_, fun i hi hbit => ?_, hfresh,
    fun v v' f hv hv' hf hf' => ?_, fun t v v' f ht hv hv' hf hf' => ?_,
    fun v p f hv hf hp heq => ?_, htcb parent hrun.process, fun i hi => ?_, fun v hv => ?_,
    fun v g hv hg => ?_⟩
  · rw [h.tcb, h.prep.child]
  · rw [h.tcb, h.prep.child]
  · have hv : userVaddrStart / pgSize + i < userPages := by
      rw [userPages]
      omega
    have hmarked := (hrun.bit hi).1 hbit
    obtain ⟨g, hg⟩ := Option.isSome_iff_exists.1 hmarked
    obtain ⟨f, hf⟩ := Option.isSome_iff_exists.1 ((h.copying.mapped _ hv).2 ⟨hv, hmarked⟩)
    refine ⟨f, g, by rw [h.pageFrame_eq, hf], hg, fun a ha => ?_⟩
    rw [h.gives.phys]
    exact h.copying.copied _ f g hv hf hg a ha
  · rw [h.pageFrame_eq] at hf hf'
    exact h.copying.space.pageInj v v' f hv hv' hf hf'
  · rw [ht.pageFrame_eq hkernel h.takes (htcb t ht) hv'] at hf'
    exact ht.page v' f hv' hf' ⟨_, hfresh v f hv hf⟩
  · have hfree := hfresh v f hv hf
    rcases h.takes.mapped p hp with hsame | hnew
    · rw [hsame] at hp heq
      exact hkernel p hp ⟨_, heq ▸ hfree⟩
    · rw [heq] at hnew
      cases hnew.pool_eq hfree
  · obtain ⟨b, -, hbits, hpresent⟩ := hrun.bits
    refine vaddrBitmap_takes h.takes (htcb parent hrun.process) hkernel hbits (hpresent _ ?_)
    have hcnt : bitmapPgCnt = 23 := by decide
    rw [hcnt, pgSize]
    omega
  · exact hrun.process.pageFrame_eq hkernel h.takes (htcb parent hrun.process) hv
  · exact h.takes.phys g (hrun.process.page v g hv hg)

/-! ## A fork that succeeds -/

/-- Where the rest of the bitmap is zero, the loop has nothing to do. -/
theorem copyBytes_zeros {L : Layout} {m₀ m₁ m : Machine} {parent n left idxByte : Nat}
    {c : ChildPages} (hprep : Prepared L m₀ m₁ parent c) (hrun : Running L m₀ parent)
    (hkernel : KernelUsed L m₀) (h : Copying L m₀ m₁ m parent c n)
    (hleft : idxByte + left = userBitmapLen)
    (hzero : ∀ i, idxByte ≤ i → i < userBitmapLen → vaddrBitmap m₀ parent i = 0) :
    copyBytes (c.pcb * pgSize) parent (c.buf * pgSize) left idxByte m = .ok m := by
  induction left generalizing idxByte with
  | zero => rfl
  | succ left ih =>
      rw [copyBytes, h.bitmapByte hprep hrun hkernel (by omega), Outcome.ok_bind,
        hzero idxByte (Nat.le_refl _) (by omega), if_neg (not_not_intro rfl), Outcome.ok_bind]
      exact ih (by omega) fun i hi hi' => hzero i (by omega) hi'

theorem copyBytes_add (child parent buf n left idxByte : Nat) (m : Machine) :
    copyBytes child parent buf (n + left) idxByte m
      = (copyBytes child parent buf n idxByte m >>= fun m =>
        copyBytes child parent buf left (idxByte + n) m) := by
  induction n generalizing idxByte m with
  | zero =>
      rw [Nat.zero_add]
      rfl
  | succ n ih =>
      rw [show n + 1 + left = n + left + 1 by omega, copyBytes, copyBytes]
      simp only [bind_assoc, ih, Nat.add_assoc, Nat.add_comm 1 n]

/-- The first bytes of the bitmap and the zeros behind them. -/
theorem copyBodyStack3_of_front {L : Layout} {m₀ m₁ m₂ : Machine} {parent n left : Nat}
    {c : ChildPages} (hprep : Prepared L m₀ m₁ parent c) (hrun : Running L m₀ parent)
    (hkernel : KernelUsed L m₀) (hn : n + left = userBitmapLen)
    (hzero : ∀ i, n ≤ i → i < userBitmapLen → vaddrBitmap m₀ parent i = 0)
    (hfront : copyBytes (c.pcb * pgSize) parent (c.buf * pgSize) n 0 m₁ = .ok m₂) :
    copyBodyStack3 (c.pcb * pgSize) parent (c.buf * pgSize) m₁ = .ok m₂ := by
  have hlen : (m₁.tcb parent).vaddrByteLen = n + left := by
    rw [hprep.tcb _ (hprep.parent_ne hrun), hrun.byteLen, hn]
  have hcopying := copyBytes_spec hprep hrun hkernel (by omega) (Copying.init hprep hrun) hfront
  rw [copyBodyStack3, hlen, copyBytes_add, hfront, Outcome.ok_bind, Nat.zero_add]
  exact copyBytes_zeros hprep hrun hkernel hcopying hn hzero

def oneProcLayout : Layout where
  kernelBase := 0x200
  kernelLen := 8
  userBase := 0x240
  userLen := 1
  vaddrBase := 0xC0100
  vaddrLen := 8
  low := by decide
  kernelEnd := by decide
  userEnd := by decide
  vaddrLow := by decide
  vaddrEnd := by decide

/-- The PCB of `oneProc`'s process. -/
def oneProcPcb : Nat := 0xC0100 * pgSize

/-- Pages of the kernel are mapped in the order of their frames; frame 0x202 is
    the first one of the process's bitmap, frames 0x240 and 0x241 are its pages. -/
def oneProcBlank : Machine where
  kernelPool := ⟨⟨8, fill zero 0 0xFF 4⟩, 0x200 * pgSize⟩
  userPool := ⟨⟨1, store8 zero 0 3⟩, 0x240 * pgSize⟩
  kernelVaddr := ⟨⟨8, fill zero 0 0xFF 4⟩, 0xC0100 * pgSize⟩
  kernelPte p :=
    if 0xC0100 ≤ p ∧ p < 0xC0120 then Machine.entryOf ((p - 0xC0100 + 0x200) * pgSize) else 0
  phys f :=
    if f = 0x202 then store8 (store8 zero 0 1) 119 1
    else if f = 0x240 then fun a => UInt8.ofNat a
    else if f = 0x241 then fun a => UInt8.ofNat (a + 1)
    else zero
  tcb _ := ⟨0xC0101 * pgSize, 0xC0102 * pgSize, userBitmapLen, userVaddrStart⟩
  cr3 := 0x201 * pgSize

/-- The page directory of the process, with two page tables. -/
def oneProcDir : Machine :=
  (oneProcBlank.setWord 0x201 32 (Machine.entryOf (0x219 * pgSize))).setWord 0x201 33
    (Machine.entryOf (0x21A * pgSize))

/-- A machine with one process, which has the pages 0x8048 and 0x8400. -/
def oneProc : Machine :=
  (oneProcDir.setWord 0x219 72 (Machine.entryOf (0x240 * pgSize))).setWord 0x21A 0
    (Machine.entryOf (0x241 * pgSize))

theorem oneProc_of : oneProcLayout.Of oneProc :=
  ⟨fun pf => by cases pf <;> rfl, fun pf => by cases pf <;> rfl, rfl, rfl⟩

theorem oneProc_kernelPte {p : Nat} (h : Machine.present (oneProc.kernelPte p)) :
    0xC0100 ≤ p ∧ p < 0xC0120 ∧ Machine.frameOf (oneProc.kernelPte p) = p - 0xC0100 + 0x200 := by
  have hpte : oneProc.kernelPte p = if 0xC0100 ≤ p ∧ p < 0xC0120 then
      Machine.entryOf ((p - 0xC0100 + 0x200) * pgSize) else 0 := rfl
  rw [hpte] at h ⊢
  split at h
  · rename_i hrange
    rw [if_pos hrange, frameOf_entryOf]
    exact ⟨hrange.1, hrange.2, rfl⟩
  · exact absurd h (by decide)

/-- The first 32 frames of the kernel's pool are in use. -/
theorem oneProc_used {f : Nat} (hlow : 0x200 ≤ f) (hhigh : f < 0x220) :
    ¬ Free oneProcLayout oneProc f := by
  rintro ⟨pf, i, hi, hf, hclear⟩
  cases pf with
  | kernel =>
      have hlt : i < 32 := by
        simp only [oneProcLayout, Layout.base] at hf
        omega
      revert hclear
      clear hf hi
      interval_cases i <;> decide
  | user =>
      simp only [oneProcLayout, Layout.base] at hf
      omega

theorem oneProc_kernelUsed : KernelUsed oneProcLayout oneProc := by
  intro p hp
  obtain ⟨hlow, hhigh, hframe⟩ := oneProc_kernelPte hp
  rw [hframe]
  exact oneProc_used (by omega) (by omega)

theorem oneProc_tableFrame (d : Nat) : oneProc.tableFrame 0x201 d
    = if d = 33 then some 0x21A else if d = 32 then some 0x219 else none := by
  have hdir : oneProc.tableFrame 0x201 d = oneProcDir.tableFrame 0x201 d := by
    refine tableFrame_congr ?_ d
    rw [oneProc, Machine.setWord, Machine.setFrame_phys, Function.update_of_ne (by decide),
      Machine.setWord, Machine.setFrame_phys, Function.update_of_ne (by decide)]
  rw [hdir, oneProcDir, tableFrame_setWord (by decide), tableFrame_setWord (by decide)]
  rfl

theorem oneProc_pageFrame (v : Nat) : pageFrame oneProc oneProcPcb v
    = if v = 0x8048 then some 0x240 else if v = 0x8400 then some 0x241 else none := by
  have hdir : dirFrame oneProc oneProcPcb = 0x201 := by decide
  have hfirst : ∀ i, oneProc.entryFrame 0x219 i = if i = 72 then some 0x240 else none := by
    intro i
    have hsame : oneProc.entryFrame 0x219 i
        = (oneProcDir.setWord 0x219 72 (Machine.entryOf (0x240 * pgSize))).entryFrame 0x219 i := by
      refine entryFrame_congr ?_ i
      rw [oneProc, Machine.setWord, Machine.setFrame_phys, Function.update_of_ne (by decide)]
    rw [hsame, entryFrame_setWord (by decide)]
    rfl
  have hsecond : ∀ i, oneProc.entryFrame 0x21A i = if i = 0 then some 0x241 else none := by
    intro i
    rw [oneProc, entryFrame_setWord (by decide)]
    rfl
  rw [pageFrame, hdir, Machine.userFrame, oneProc_tableFrame]
  by_cases hlow : v / 1024 = 32
  · rw [if_neg (by omega), if_pos hlow, Option.bind_some, hfirst]
    by_cases hv : v = 0x8048
    · rw [if_pos (by omega), if_pos hv]
    · rw [if_neg (by omega), if_neg hv, if_neg (by omega)]
  · by_cases hhigh : v / 1024 = 33
    · rw [if_pos hhigh, Option.bind_some, hsecond, if_neg (show ¬ v = 0x8048 by omega)]
      by_cases hv : v = 0x8400
      · rw [if_pos (by omega), if_pos hv]
      · rw [if_neg (by omega), if_neg hv]
    · rw [if_neg hhigh, if_neg hlow, Option.bind_none, if_neg (by omega), if_neg (by omega)]

theorem oneProc_bitmapPte {k : Nat} (hk : k < 23) :
    oneProc.kernelPte (0xC0102 + k) = Machine.entryOf ((0x202 + k) * pgSize) := by
  have hpte : ∀ p, oneProc.kernelPte p = if 0xC0100 ≤ p ∧ p < 0xC0120 then
      Machine.entryOf ((p - 0xC0100 + 0x200) * pgSize) else 0 := fun _ => rfl
  have hpage : 0xC0102 + k - 0xC0100 + 0x200 = 0x202 + k := by omega
  rw [hpte, if_pos (by omega), hpage]

/-- The frames of the bitmap are zero but for two bytes of the first one. -/
theorem oneProc_bitmapPhys {k : Nat} (hk : k < 23) :
    oneProc.phys (0x202 + k) = if k = 0 then store8 (store8 zero 0 1) 119 1 else zero := by
  have hphys : ∀ f, f < 0x240 → oneProcBlank.phys f
      = if f = 0x202 then store8 (store8 zero 0 1) 119 1 else zero := by
    intro f hf
    rw [oneProcBlank]
    dsimp only
    rw [if_neg (show ¬ f = 0x240 by omega), if_neg (show ¬ f = 0x241 by omega)]
  have hblank : oneProc.phys (0x202 + k) = oneProcBlank.phys (0x202 + k) := by
    simp only [oneProc, oneProcDir, Machine.setWord, Machine.setFrame_phys]
    rw [Function.update_of_ne (by omega), Function.update_of_ne (by omega),
      Function.update_of_ne (by omega), Function.update_of_ne (by omega)]
  rw [hblank, hphys _ (by omega)]
  by_cases hk0 : k = 0
  · rw [if_pos hk0, if_pos (by omega)]
  · rw [if_neg hk0, if_neg (by omega)]

theorem oneProc_vaddrBitmap {i : Nat} (hi : i < userBitmapLen) :
    vaddrBitmap oneProc oneProcPcb i = if i = 0 ∨ i = 119 then 1 else 0 := by
  have hlen : userBitmapLen = 94199 := by decide
  have hdiv : i / pgSize < 23 := by
    rw [pgSize]
    omega
  rw [vaddrBitmap_eq (b := 0xC0102) rfl, oneProc_bitmapPte hdiv, frameOf_entryOf,
    oneProc_bitmapPhys hdiv]
  by_cases hz : i / pgSize = 0
  · have hmod : i % pgSize = i := by
      rw [pgSize] at hz ⊢
      omega
    rw [if_pos hz, hmod]
    by_cases hlast : i = 119
    · rw [if_pos (.inr hlast), hlast, store8_self]
    · rw [store8_outside hlast]
      by_cases h0 : i = 0
      · rw [if_pos (.inl h0), h0, store8_self]
      · rw [if_neg (by omega), store8_outside h0, zero_apply]
  · have hne : ¬ (i = 0 ∨ i = 119) := by
      rintro (rfl | rfl)
      · exact hz rfl
      · exact hz rfl
    rw [if_neg hz, if_neg hne, zero_apply]

/-- The pages of the process lie in frames that are in use. -/
theorem oneProc_pageUsed {v f : Nat} (hf : pageFrame oneProc oneProcPcb v = some f) :
    0x240 ≤ f ∧ f < 0x242 ∧ ¬ Free oneProcLayout oneProc f := by
  have hframe : f = 0x240 ∨ f = 0x241 := by
    rw [oneProc_pageFrame] at hf
    split at hf
    · exact .inl (Option.some.inj hf).symm
    · split at hf
      · exact .inr (Option.some.inj hf).symm
      · cases hf
  refine ⟨by omega, by omega, ?_⟩
  rintro ⟨pf, i, hi, hfi, hclear⟩
  cases pf with
  | kernel =>
      simp only [oneProcLayout, Layout.base, Layout.len] at hfi hi
      omega
  | user =>
      simp only [oneProcLayout, Layout.base] at hfi
      have hcases : i = 0 ∨ i = 1 := by omega
      revert hclear
      rcases hcases with rfl | rfl <;> decide

theorem oneProc_process : Process oneProcLayout oneProc oneProcPcb := by
  have hdir : dirFrame oneProc oneProcPcb = 0x201 := by decide
  refine ⟨⟨0xC0100, by decide, rfl, by decide⟩, ⟨0xC0101, by decide, rfl, by decide⟩,
    fun d t _ ht => ?_, fun v f _ hf => (oneProc_pageUsed hf).2.2⟩
  rw [hdir, oneProc_tableFrame] at ht
  split at ht
  · cases ht
    exact oneProc_used (by decide) (by decide)
  · split at ht
    · cases ht
      exact oneProc_used (by decide) (by decide)
    · cases ht

/-- Just the bits of the two pages are set. -/
theorem oneProc_bit {i : Nat} (hi : i < 8 * userBitmapLen) :
    bitAt (vaddrBitmap oneProc oneProcPcb) i = true ↔ i = 0 ∨ i = 952 := by
  rw [bitAt, oneProc_vaddrBitmap (by omega)]
  by_cases hbyte : i / 8 = 0 ∨ i / 8 = 119
  · rw [if_pos hbyte]
    have hlt : i % 8 < 8 := Nat.mod_lt _ (by decide)
    have hbit : ∀ k, k < 8 → ((1 : UInt8).toBitVec.getLsbD k = true ↔ k = 0) := by decide
    rw [hbit _ hlt]
    omega
  · rw [if_neg hbyte]
    refine iff_of_false (by simp) ?_
    omega

theorem oneProc_running : Running oneProcLayout oneProc oneProcPcb := by
  have hlen : userBitmapLen = 94199 := by decide
  have hstart : userVaddrStart / pgSize = 0x8048 := by decide
  refine ⟨oneProc_process, by decide, rfl, rfl, ⟨0xC0102, by decide, rfl, by decide⟩,
    fun v hv => ?_⟩
  rw [oneProc_pageFrame, hstart]
  rw [userPages] at hv
  by_cases hlow : 0x8048 ≤ v
  · rw [oneProc_bit (by omega), and_iff_right hlow]
    by_cases hfirst : v = 0x8048
    · rw [if_pos hfirst]
      exact iff_of_true rfl (by omega)
    · rw [if_neg hfirst]
      by_cases hsecond : v = 0x8400
      · rw [if_pos hsecond]
        exact iff_of_true rfl (by omega)
      · rw [if_neg hsecond]
        exact iff_of_false (by simp) (by omega)
  · rw [if_neg (by omega), if_neg (by omega)]
    exact iff_of_false (by simp) fun hle => hlow hle.1

/-- The fork up to its result, with the first 120 bytes of the bitmap only. -/
theorem oneProc_forkFront : Outcome.returns (do
    let (child, m) ← oneProc.getKernelPages 1
    let (bufPage, m) ← copyProcessStart m (child.getD 0) oneProcPcb
    let m ← copyBytes (child.getD 0) oneProcPcb (bufPage.getD 0) 120 0 m
    let m ← m.mfreePage (bufPage.getD 0) 1
    .ok (child, bufPage, m)) (fun r => r.1.isSome && r.2.1.isSome) = true := by
  decide +kernel

theorem oneProc_forks : ∃ child m', sysForkMem oneProc oneProcPcb = .ok (some child, m') := by
  obtain ⟨⟨child, bufPage, m'⟩, hcall, hsome⟩ := Outcome.returns_iff.1 oneProc_forkFront
  obtain ⟨⟨r, m₀⟩, hget, hcall⟩ := Outcome.bind_eq_ok.1 hcall
  obtain ⟨⟨r', m₁⟩, hstart, hcall⟩ := Outcome.bind_eq_ok.1 hcall
  obtain ⟨m₂, hfront, hcall⟩ := Outcome.bind_eq_ok.1 hcall
  obtain ⟨m₃, hfree, hcall⟩ := Outcome.bind_eq_ok.1 hcall
  cases hcall
  cases child with
  | none => cases hsome
  | some child =>
      cases bufPage with
      | none => cases hsome
      | some bufPage =>
          obtain ⟨pc, fc, rfl, hpc, htakes, htcb, hcr3, -, -, -⟩ :=
            getKernelPage_spec oneProc_of hget
          obtain ⟨b, hb, hbits, hpresent⟩ := oneProc_running.bits
          obtain ⟨c, rfl, rfl, hprep⟩ := copyProcessStart_spec htakes hpc htcb hcr3 hb hbits
            oneProc_kernelUsed hpresent hstart
          have hbody := copyBodyStack3_of_front hprep oneProc_running
            oneProc_kernelUsed (show 120 + 94079 = userBitmapLen by decide)
            (fun i hi hi' => by rw [oneProc_vaddrBitmap hi', if_neg (by omega)]) hfront
          have hpgdir : (m₀.tcb oneProcPcb).pgdir ≠ 0 := by
            rw [htcb]
            decide
          refine ⟨c.pcb * pgSize, m', ?_⟩
          simp only [Option.getD_some] at hstart hfront hfree
          rw [sysForkMem, hget, Outcome.ok_bind]
          simp only [require_pos hpgdir, Outcome.ok_bind, copyProcessMem, hstart, hbody, hfree,
            if_true]

theorem sysFork_duplicates_oneProc :
    ∃ child m', sysForkMem oneProc oneProcPcb = .ok (some child, m')
      ∧ Duplicates oneProcLayout oneProc m' oneProcPcb child := by
  obtain ⟨child, m', hcall⟩ := oneProc_forks
  exact ⟨child, m', hcall,
    sysFork_duplicates oneProc_of oneProc_kernelUsed oneProc_running hcall⟩

end Userprog
end JackOS
