/-
  JackOS.Userprog.ForkStart

  Processes and their memory, and `copy_process` up to `copy_body_stack3`: the
  PCB, the buffer page, the bitmap's pages and the page directory of the child
  are pages of the kernel that nobody had, the bitmap is copied and the page
  directory is empty below the kernel (`copyProcessStart_spec`).
-/

import JackOS.Kernel.PageTable
import JackOS.Userprog.Fork

namespace JackOS
namespace Userprog

open Base Base.Mem Kernel

/-! ## Processes -/

/-- The frame of the page directory of `t`. -/
def dirFrame (m : Machine) (t : Nat) : Nat :=
  Machine.frameOf (m.kernelPte ((m.tcb t).pgdir / pgSize))

/-- The frame of page `v` of `t`. -/
def pageFrame (m : Machine) (t v : Nat) : Option Nat := m.userFrame (dirFrame m t) v

/-- The address bitmap of `t`, as the kernel sees it. -/
def vaddrBitmap (m : Machine) (t : Nat) : Mem := fun i =>
  m.phys (Machine.frameOf (m.kernelPte (((m.tcb t).vaddrBits + i) / pgSize)))
    (((m.tcb t).vaddrBits + i) % pgSize)

/-- The memory of the process `t` is its own: its PCB and page directory are
    pages of the kernel, and its page tables and pages are frames in use. -/
structure Process (L : Layout) (m : Machine) (t : Nat) : Prop where
  pcb : ∃ p, 0xC0000 ≤ p ∧ t = p * pgSize ∧ Machine.present (m.kernelPte p)
  pgdir : ∃ p, 0xC0000 ≤ p ∧ (m.tcb t).pgdir = p * pgSize ∧ Machine.present (m.kernelPte p)
  table : ∀ d t', d < 768 → m.tableFrame (dirFrame m t) d = some t' → ¬ Free L m t'
  page : ∀ v f, v < userPages → pageFrame m t v = some f → ¬ Free L m f

/-- The frames of the kernel's pages are in use. -/
def KernelUsed (L : Layout) (m : Machine) : Prop :=
  ∀ p, Machine.present (m.kernelPte p) → ¬ Free L m (Machine.frameOf (m.kernelPte p))

/-- The pages of a process's address bitmap. -/
def bitmapPgCnt : Nat := divCeiling userBitmapLen pgSize

/-- The process `t` runs, and its address bitmap marks exactly its pages. -/
structure Running (L : Layout) (m : Machine) (t : Nat) : Prop where
  process : Process L m t
  cr3 : m.cr3 = dirFrame m t * pgSize
  vaddrStart : (m.tcb t).vaddrStart = userVaddrStart
  byteLen : (m.tcb t).vaddrByteLen = userBitmapLen
  bits : ∃ b, 0xC0000 ≤ b ∧ (m.tcb t).vaddrBits = b * pgSize ∧
    ∀ k, k < bitmapPgCnt → Machine.present (m.kernelPte (b + k))
  marks : ∀ v, v < userPages → ((pageFrame m t v).isSome ↔
    userVaddrStart / pgSize ≤ v ∧ bitAt (vaddrBitmap m t) (v - userVaddrStart / pgSize) = true)

variable {L : Layout} {m m' m'' : Machine} {t p f : Nat}

theorem Process.dirUsed (h : Process L m t) (hkernel : KernelUsed L m) :
    ¬ Free L m (dirFrame m t) := by
  obtain ⟨p, -, hpgdir, hpresent⟩ := h.pgdir
  rw [dirFrame, hpgdir, Nat.mul_div_cancel p (by norm_num [pgSize])]
  exact hkernel p hpresent

/-- Taking memory leaves the page directory where it was. -/
theorem Process.dirFrame_eq (h : Process L m t) (htakes : Takes L m m') (htcb : m'.tcb t = m.tcb t) :
    dirFrame m' t = dirFrame m t := by
  obtain ⟨p, -, hpgdir, hpresent⟩ := h.pgdir
  have hpage : (m.tcb t).pgdir / pgSize = p := by
    rw [hpgdir, Nat.mul_div_cancel p (by norm_num [pgSize])]
  rw [dirFrame, dirFrame, htcb, hpage, htakes.kernelPte p hpresent]

/-- Taking memory leaves the mappings as they were. -/
theorem Process.pageFrame_eq (h : Process L m t) (hkernel : KernelUsed L m) (htakes : Takes L m m')
    (htcb : m'.tcb t = m.tcb t) {v : Nat} (hv : v < userPages) :
    pageFrame m' t v = pageFrame m t v := by
  rw [pageFrame, h.dirFrame_eq htakes htcb]
  exact htakes.userFrame (h.dirUsed hkernel) h.table hv

/-! ## PCBs -/

theorem setTcb_self (m : Machine) (t : Nat) (tcb : Tcb) : (setTcb m t tcb).tcb t = tcb :=
  Function.update_self _ _ _

theorem setTcb_of_ne (m : Machine) {t u : Nat} (tcb : Tcb) (h : u ≠ t) :
    (setTcb m t tcb).tcb u = m.tcb u :=
  Function.update_of_ne h _ _

theorem takes_setTcb (h : Takes L m m') (t : Nat) (tcb : Tcb) : Takes L m (setTcb m' t tcb) :=
  ⟨⟨h.layout.start, h.layout.byteLen, h.layout.vaddrStart, h.layout.vaddrLen⟩, h.free, h.phys,
    h.kernelPte, h.mapped⟩

theorem takes_of_setTcb {tcb : Tcb} (h : Takes L (setTcb m t tcb) m') : Takes L m m' :=
  ⟨h.layout, h.free, h.phys, h.kernelPte, h.mapped⟩

/-! ## Pages taken on the way -/

/-- Since `m` the kernel took the frame `f` and mapped the page `p` to it. -/
structure Taken (L : Layout) (m m' : Machine) (p f : Nat) : Prop where
  low : 0xC0000 ≤ p
  absent : ¬ Machine.present (m.kernelPte p)
  free : FreeIn L m .kernel f
  used : ¬ Free L m' f
  maps : KernelMaps m' p f

theorem Taken.of_pages {cnt k : Nat} {fr : Nat → Nat} (h : KernelPages L m m' p cnt fr)
    (hk : k < cnt) : Taken L m m' (p + k) (fr k) where
  low := le_trans h.low (Nat.le_add_right _ _)
  absent := h.absent k hk
  free := h.free k hk
  used := h.used k hk
  maps := h.maps hk

theorem Taken.later (h : Taken L m m' p f) (htakes : Takes L m' m'') : Taken L m m'' p f where
  low := h.low
  absent := h.absent
  free := h.free
  used := htakes.used h.used
  maps := htakes.maps h.maps

theorem Taken.sooner (h : Taken L m' m'' p f) (htakes : Takes L m m') : Taken L m m'' p f where
  low := h.low
  absent hp := h.absent (by rw [htakes.kernelPte p hp]; exact hp)
  free := htakes.free _ _ h.free
  used := h.used
  maps := h.maps

theorem Taken.setTcb (h : Taken L m m' p f) (t : Nat) (tcb : Tcb) :
    Taken L m (setTcb m' t tcb) p f :=
  ⟨h.low, h.absent, h.free, h.used, ⟨h.maps.present, h.maps.frame⟩⟩

/-- Frames taken one after the other differ. -/
theorem Taken.ne {q g : Nat} (h : Taken L m m' p f) (h' : Taken L m' m'' q g) : f ≠ g := by
  rintro rfl
  exact h.used ⟨_, h'.free⟩

/-- The pages of the kernel that a fork takes, with their frames. -/
structure ChildPages where
  pcb : Nat
  pcbFrame : Nat
  buf : Nat
  bufFrame : Nat
  bits : Nat
  bitsFrame : Nat → Nat
  dir : Nat
  dirFrame : Nat

/-- The pages were taken since `m`, each with a frame of its own. -/
structure ChildPages.Taken (c : ChildPages) (L : Layout) (m m' : Machine) : Prop where
  pcb : Userprog.Taken L m m' c.pcb c.pcbFrame
  buf : Userprog.Taken L m m' c.buf c.bufFrame
  bits : ∀ k, k < bitmapPgCnt → Userprog.Taken L m m' (c.bits + k) (c.bitsFrame k)
  dir : Userprog.Taken L m m' c.dir c.dirFrame
  bitsInj : ∀ k l, k < bitmapPgCnt → l < bitmapPgCnt → c.bitsFrame k = c.bitsFrame l → k = l
  bitsApart : ∀ k, k < bitmapPgCnt →
    c.bitsFrame k ≠ c.pcbFrame ∧ c.bitsFrame k ≠ c.bufFrame ∧ c.bitsFrame k ≠ c.dirFrame
  bufApart : c.bufFrame ≠ c.pcbFrame ∧ c.bufFrame ≠ c.dirFrame
  pcbApart : c.pcbFrame ≠ c.dirFrame

/-- What `copy_process` has made before `copy_body_stack3`. -/
structure Prepared (L : Layout) (m m' : Machine) (parent : Nat) (c : ChildPages) : Prop where
  takes : Takes L m m'
  cr3 : m'.cr3 = m.cr3
  tcb : ∀ t, t ≠ c.pcb * pgSize → m'.tcb t = m.tcb t
  child : m'.tcb (c.pcb * pgSize)
    = { m.tcb parent with vaddrBits := c.bits * pgSize, pgdir := c.dir * pgSize }
  pages : c.Taken L m m'
  bitmap : ∀ i, i < bitmapPgCnt * pgSize →
    vaddrBitmap m' (c.pcb * pgSize) i = vaddrBitmap m parent i
  dirEmpty : ∀ d, d < 768 → m'.tableFrame c.dirFrame d = none

/-! ## The phases -/

theorem vaddrBitmap_eq {b i : Nat} (hbits : (m.tcb t).vaddrBits = b * pgSize) :
    vaddrBitmap m t i = m.phys (Machine.frameOf (m.kernelPte (b + i / pgSize))) (i % pgSize) := by
  have hpage : (b * pgSize + i) / pgSize = b + i / pgSize := by
    rw [pgSize]
    omega
  have hoff : (b * pgSize + i) % pgSize = i % pgSize := by
    rw [pgSize]
    omega
  rw [vaddrBitmap, hbits, hpage, hoff]

/-- One page of the kernel. -/
theorem getKernelPage_spec {vaddr : Nat} (hL : L.Of m)
    (hcall : m.getKernelPages 1 = .ok (some vaddr, m')) :
    ∃ p f, vaddr = p * pgSize ∧ Taken L m m' p f ∧ Takes L m m' ∧ m'.tcb = m.tcb
      ∧ m'.cr3 = m.cr3 ∧ (∀ q, q ≠ p → m'.kernelPte q = m.kernelPte q)
      ∧ (∀ g, g ≠ f → m'.phys g = m.phys g) ∧ ∀ a, a < pgSize → m'.phys f a = 0 := by
  obtain ⟨p, fr, rfl, hpages, hzero⟩ := (getKernelPages_spec hL hcall).2 vaddr rfl
  refine ⟨p, fr 0, rfl, Taken.of_pages (k := 0) hpages (by omega), hpages.takes, hpages.tcb, hpages.cr3,
    fun q hq => hpages.other q fun k hk => ?_, fun g hg => hpages.phys g fun k hk => ?_,
    hzero 0 (by omega)⟩
  · have hk0 : k = 0 := by omega
    rw [hk0]
    exact hq
  · have hk0 : k = 0 := by omega
    rw [hk0]
    exact hg

/-- `create_page_dir`: below the kernel the page directory is empty. -/
theorem createPageDir_spec {vaddr : Nat} (hL : L.Of m)
    (hcall : m.createPageDir = .ok (some vaddr, m')) :
    ∃ p f, vaddr = p * pgSize ∧ Taken L m m' p f ∧ Takes L m m' ∧ m'.tcb = m.tcb
      ∧ m'.cr3 = m.cr3 ∧ (∀ g, g ≠ f → m'.phys g = m.phys g)
      ∧ ∀ d, d < 768 → m'.tableFrame f d = none := by
  obtain ⟨⟨r, m₁⟩, hget, hcall⟩ := Outcome.bind_eq_ok.1 hcall
  cases r with
  | none => cases hcall
  | some vaddr' =>
      obtain ⟨p, f, rfl, htaken, htakes, htcb, hcr3, -, hphys, hzero⟩ := getKernelPage_spec hL hget
      obtain ⟨dir, hframe, hcall⟩ := Outcome.bind_eq_ok.1 hcall
      have hdir := frameAt_page htaken.low htaken.maps
      rw [hframe] at hdir
      cases hdir
      cases hcall
      refine ⟨p, f, rfl, ⟨htaken.low, htaken.absent, htaken.free, htaken.used,
        ⟨htaken.maps.present, htaken.maps.frame⟩⟩,
        (htakes.setFrame ⟨_, htaken.free⟩ _).setFrame ⟨_, htaken.free⟩ _, htcb, hcr3,
        fun g hg => ?_, fun d hd => ?_⟩
      · rw [Machine.setWord, Machine.setFrame_phys, Function.update_of_ne hg, Machine.setFrame_phys,
          Function.update_of_ne hg, hphys g hg]
      · rw [Machine.tableFrame, Machine.word_setWord_idx _ _ _ (show d ≠ 1023 by omega), Machine.word,
          Machine.setFrame_phys, Function.update_self]
        have hword : le32 (copy (m₁.phys f) 0xC00 (m₁.phys (Machine.frameOf m₁.cr3)) 0xC00 1024)
            (4 * d) = 0 := by
          rw [← le32_zero 0]
          apply le32_congr
          intro j hj
          rw [copy_outside (by omega), hzero _ (by rw [pgSize]; omega), zero_apply]
        rw [hword, if_neg (by decide)]

/-- `copy_pcb_vaddrbitmap_stack0` -/
theorem copyPcbVaddrbitmapStack0_spec {child parent b : Nat} (hL : L.Of m) (hb : 0xC0000 ≤ b)
    (hbits : (m.tcb parent).vaddrBits = b * pgSize)
    (hpresent : ∀ k, k < bitmapPgCnt → Machine.present (m.kernelPte (b + k)))
    (hused : ∀ k, k < bitmapPgCnt → ¬ Free L m (Machine.frameOf (m.kernelPte (b + k))))
    (hcall : copyPcbVaddrbitmapStack0 m child parent = .ok (true, m')) :
    ∃ (p : Nat) (fr : Nat → Nat), (∀ k, k < bitmapPgCnt → Taken L m m' (p + k) (fr k))
      ∧ (∀ k l, k < bitmapPgCnt → l < bitmapPgCnt → fr k = fr l → k = l) ∧ Takes L m m'
      ∧ (∀ t, t ≠ child → m'.tcb t = m.tcb t)
      ∧ m'.tcb child = { m.tcb parent with vaddrBits := p * pgSize } ∧ m'.cr3 = m.cr3
      ∧ ∀ k, k < bitmapPgCnt → ∀ a, a < pgSize →
          m'.phys (fr k) a = m.phys (Machine.frameOf (m.kernelPte (b + k))) a := by
  obtain ⟨⟨r, m₁⟩, hget, hcall⟩ := Outcome.bind_eq_ok.1 hcall
  cases r with
  | none => cases hcall
  | some vaddrBtmp =>
      have hL₀ : L.Of (setTcb m child (m.tcb parent)) :=
        ⟨hL.start, hL.byteLen, hL.vaddrStart, hL.vaddrLen⟩
      obtain ⟨p, fr, rfl, hpages, -⟩ := (getKernelPages_spec hL₀ hget).2 vaddrBtmp rfl
      obtain ⟨m₂, hcopy, hcall⟩ := Outcome.bind_eq_ok.1 hcall
      cases hcall
      have hchild : (m₁.tcb child) = m.tcb parent := by
        rw [hpages.tcb, setTcb_self]
      have htakes : Takes L m m₁ := takes_of_setTcb hpages.takes
      rw [hchild, hbits] at hcopy
      obtain ⟨hm₂, hout, hcopied⟩ := copyPages_spec hpages.low hb
        (fun k hk => hpages.maps hk)
        (fun k hk => htakes.maps (p := b + k) ⟨hpresent k hk, rfl⟩)
        hpages.inj
        (fun k l hk hl heq => hused k hk ⟨_, heq ▸ hpages.free l hl⟩) hcopy
      have hpages₂ : KernelPages L (setTcb m child (m.tcb parent)) m₂ p bitmapPgCnt fr :=
        hpages.of_phys hm₂ hout
      have htcb₂ : m₂.tcb = m₁.tcb := by rw [hm₂]
      refine ⟨p, fr, fun k hk => ?_, hpages.inj, takes_setTcb (takes_of_setTcb hpages₂.takes) _ _,
        fun t ht => ?_, ?_, hpages₂.cr3, fun k hk a ha => ?_⟩
      · have htaken := Taken.of_pages hpages₂ hk
        exact ⟨htaken.low, htaken.absent, htaken.free, htaken.used, htaken.maps.present,
          htaken.maps.frame⟩
      · rw [setTcb_of_ne _ _ ht, htcb₂, hpages.tcb, setTcb_of_ne _ _ ht]
      · rw [setTcb_self, htcb₂, hchild]
      · rw [← htakes.phys _ (hused k hk)]
        exact hcopied k hk a ha

/-- `copy_process` up to `copy_body_stack3`, after `sys_fork` has taken the
    child's PCB. -/
theorem copyProcessStart_spec {m₀ : Machine} {parent buf pc fc b : Nat} (htakes₀ : Takes L m₀ m)
    (hpc : Taken L m₀ m pc fc) (htcb₀ : m.tcb = m₀.tcb) (hcr3₀ : m.cr3 = m₀.cr3)
    (hb : 0xC0000 ≤ b)
    (hbits : (m₀.tcb parent).vaddrBits = b * pgSize) (hkernel : KernelUsed L m₀)
    (hpresent : ∀ k, k < bitmapPgCnt → Machine.present (m₀.kernelPte (b + k)))
    (hcall : copyProcessStart m (pc * pgSize) parent = .ok (some buf, m')) :
    ∃ c : ChildPages, c.pcb = pc ∧ buf = c.buf * pgSize ∧ Prepared L m₀ m' parent c := by
  obtain ⟨⟨r, m₁⟩, hget, hcall⟩ := Outcome.bind_eq_ok.1 hcall
  cases r with
  | none => cases hcall
  | some bufPage =>
      obtain ⟨pb, fb, rfl, hpb, htakes₁, htcb₁, hcr3₁, -, -, -⟩ :=
        getKernelPage_spec htakes₀.layout hget
      have htakes₀₁ := htakes₀.trans htakes₁
      obtain ⟨⟨copied, m₂⟩, hcopy, hcall⟩ := Outcome.bind_eq_ok.1 hcall
      cases copied with
      | false => cases hcall
      | true =>
          have hpresent₁ : ∀ k, k < bitmapPgCnt → KernelMaps m₁ (b + k)
              (Machine.frameOf (m₀.kernelPte (b + k))) :=
            fun k hk => htakes₀₁.maps ⟨hpresent k hk, rfl⟩
          obtain ⟨pv, fv, hpv, hfvInj, htakes₂, htcb₂, hchild₂, hcr3₂, hcopied⟩ :=
            copyPcbVaddrbitmapStack0_spec htakes₀₁.layout hb
              (by rw [htcb₁, htcb₀, hbits]) (fun k hk => (hpresent₁ k hk).present)
              (fun k hk => by
                rw [(hpresent₁ k hk).frame]
                exact htakes₀₁.used (hkernel _ (hpresent k hk))) hcopy
          obtain ⟨⟨r, m₃⟩, hdir, hcall⟩ := Outcome.bind_eq_ok.1 hcall
          cases r with
          | none => cases hcall
          | some pgdir =>
              cases hcall
              obtain ⟨pd, fd, rfl, hpd, htakes₃, htcb₃, hcr3₃, hphys₃, hempty⟩ :=
                createPageDir_spec htakes₂.layout hdir
              have htakes₀₂ := htakes₀₁.trans htakes₂
              have htakes₁₃ := htakes₂.trans htakes₃
              refine ⟨⟨pc, fc, pb, fb, pv, fv, pd, fd⟩, rfl, rfl, ?_⟩
              refine ⟨takes_setTcb (htakes₀₂.trans htakes₃) _ _, ?_, fun t ht => ?_, ?_, ?_,
                fun i hi => ?_, hempty⟩
              · exact hcr3₃.trans (hcr3₂.trans (hcr3₁.trans hcr3₀))
              · rw [setTcb_of_ne _ _ ht, htcb₃, htcb₂ t ht, htcb₁, htcb₀]
              · rw [setTcb_self, htcb₃, hchild₂, htcb₁, htcb₀]
                rfl
              · have hpv₃ : ∀ k, k < bitmapPgCnt → Taken L m₁ m₃ (pv + k) (fv k) :=
                  fun k hk => (hpv k hk).later htakes₃
                exact {
                  pcb := (hpc.later (htakes₁.trans htakes₁₃)).setTcb _ _
                  buf := ((hpb.later htakes₁₃).sooner htakes₀).setTcb _ _
                  bits := fun k hk => ((hpv₃ k hk).sooner htakes₀₁).setTcb _ _
                  dir := (hpd.sooner htakes₀₂).setTcb _ _
                  bitsInj := hfvInj
                  bitsApart := fun k hk => ⟨((hpc.later htakes₁).ne (hpv k hk)).symm,
                    (hpb.ne (hpv k hk)).symm, (hpv k hk).ne hpd⟩
                  bufApart := ⟨(hpc.ne hpb).symm, (hpb.later htakes₂).ne hpd⟩
                  pcbApart := ((hpc.later htakes₁).later htakes₂).ne hpd }
              · have hdiv : i / pgSize < bitmapPgCnt := Nat.div_lt_of_lt_mul (by rwa [Nat.mul_comm])
                have hmod : i % pgSize < pgSize := Nat.mod_lt _ (by norm_num [pgSize])
                have hframe : Machine.frameOf ((setTcb m₃ (pc * pgSize)
                    { m₃.tcb (pc * pgSize) with pgdir := pd * pgSize }).kernelPte (pv + i / pgSize))
                    = fv (i / pgSize) := ((hpv _ hdiv).later htakes₃).maps.frame
                have hbitsChild : ((setTcb m₃ (pc * pgSize)
                    { m₃.tcb (pc * pgSize) with pgdir := pd * pgSize }).tcb
                      (pc * pgSize)).vaddrBits = pv * pgSize := by
                  rw [setTcb_self, htcb₃, hchild₂]
                rw [vaddrBitmap_eq hbits]
                refine (vaddrBitmap_eq hbitsChild).trans ?_
                rw [hframe]
                have hphys : (setTcb m₃ (pc * pgSize)
                    { m₃.tcb (pc * pgSize) with pgdir := pd * pgSize }).phys (fv (i / pgSize))
                    = m₂.phys (fv (i / pgSize)) := hphys₃ _ ((hpv _ hdiv).ne hpd)
                rw [hphys, hcopied _ hdiv _ hmod, (hpresent₁ _ hdiv).frame,
                  htakes₀₁.phys _ (hkernel _ (hpresent _ hdiv))]

end Userprog
end JackOS
