/-
  JackOS.Kernel.KernelPages

  `get_kernel_pages` hands out a run of pages that were not mapped, with frames
  of the kernel pool that were free, all of them zeroed; `mfree_page` undoes it
  for one page.  `memcpy` of pages is a copy of their frames.
-/

import JackOS.Kernel.PagingSpec

namespace JackOS
namespace Kernel

open Base Base.Mem

variable {L : Layout} {m m' m'' : Machine} {p cnt : Nat} {fr : Nat → Nat}

/-! ## The pages of a call -/

/-- From `m` to `m'` the pages `p, …, p + cnt - 1` of the kernel were mapped to
    the frames `fr 0, …, fr (cnt - 1)`, which were free. -/
structure KernelPages (L : Layout) (m m' : Machine) (p cnt : Nat) (fr : Nat → Nat) : Prop where
  takes : Takes L m m'
  low : 0xC0000 ≤ p
  high : p + cnt ≤ 2 ^ 20
  free : ∀ k, k < cnt → FreeIn L m .kernel (fr k)
  used : ∀ k, k < cnt → ¬ Free L m' (fr k)
  inj : ∀ k l, k < cnt → l < cnt → fr k = fr l → k = l
  absent : ∀ k, k < cnt → ¬ Machine.present (m.kernelPte (p + k))
  pte : ∀ k, k < cnt → m'.kernelPte (p + k) = Machine.entryOf (fr k * pgSize)
  other : ∀ q, (∀ k, k < cnt → q ≠ p + k) → m'.kernelPte q = m.kernelPte q
  phys : ∀ f, (∀ k, k < cnt → f ≠ fr k) → m'.phys f = m.phys f
  tcb : m'.tcb = m.tcb
  cr3 : m'.cr3 = m.cr3

theorem KernelPages.nil (hL : L.Of m) (hlow : 0xC0000 ≤ p) (hhigh : p ≤ 2 ^ 20) (fr : Nat → Nat) :
    KernelPages L m m p 0 fr where
  takes := Takes.refl hL
  low := hlow
  high := hhigh
  free := by omega
  used := by omega
  inj := by omega
  absent := by omega
  pte := by omega
  other _ _ := rfl
  phys _ _ := rfl
  tcb := rfl
  cr3 := rfl

@[simp] theorem Machine.setKernelPte_kernelPte (m : Machine) (p e : Nat) :
    (m.setKernelPte p e).kernelPte = Function.update m.kernelPte p e := rfl

/-- Mapping a free frame. -/
theorem Takes.setKernelPte {f : Nat} (h : Takes L m m') (hf : FreeIn L m .kernel f)
    (hp : ¬ Machine.present (m.kernelPte p)) :
    Takes L m (m'.setKernelPte p (Machine.entryOf (f * pgSize))) := by
  refine ⟨⟨h.layout.start, h.layout.byteLen, h.layout.vaddrStart, h.layout.vaddrLen⟩, h.free,
    h.phys, fun q hq => ?_, fun q hq => ?_⟩
  · have hne : q ≠ p := fun heq => hp (heq ▸ hq)
    rw [Machine.setKernelPte_kernelPte, Function.update_of_ne hne]
    exact h.kernelPte q hq
  · by_cases hqp : q = p
    · subst hqp
      right
      rw [Machine.setKernelPte_kernelPte, Function.update_self, frameOf_entryOf]
      exact hf
    · rw [Machine.setKernelPte_kernelPte, Function.update_of_ne hqp] at hq ⊢
      exact h.mapped q hq

/-- One more page in front. -/
theorem KernelPages.cons {m₁ : Machine} {f : Nat} (hf : FreeIn L m .kernel f) (hL : L.Of m₁)
    (hsame : SamePages m m₁) (hfree : ∀ pf g, FreeIn L m₁ pf g ↔ FreeIn L m pf g ∧ g ≠ f)
    (hlow : 0xC0000 ≤ p) (hp : ¬ Machine.present (m.kernelPte p))
    (h : KernelPages L (m₁.setKernelPte p (Machine.entryOf (f * pgSize))) m' (p + 1) cnt fr) :
    KernelPages L m m' p (cnt + 1) (fun k => if k = 0 then f else fr (k - 1)) := by
  have htakes : Takes L m (m₁.setKernelPte p (Machine.entryOf (f * pgSize))) :=
    (Takes.of_palloc hL hsame hfree).setKernelPte hf hp
  have hne : ∀ k, k < cnt → fr k ≠ f := fun k hk => ((hfree _ _).1 (h.free k hk)).2
  have hpte : ∀ q, q ≠ p →
      (m₁.setKernelPte p (Machine.entryOf (f * pgSize))).kernelPte q = m.kernelPte q := by
    intro q hq
    rw [Machine.setKernelPte_kernelPte, Function.update_of_ne hq, hsame.kernelPte]
  have hpresent : Machine.present
      ((m₁.setKernelPte p (Machine.entryOf (f * pgSize))).kernelPte p) := by
    rw [Machine.setKernelPte_kernelPte, Function.update_self]
    exact present_entryOf f
  refine ⟨htakes.trans h.takes, hlow, by have := h.high; omega, ?_, ?_, ?_, ?_, ?_, ?_, ?_, ?_, ?_⟩
  · intro k hk
    cases k with
    | zero => exact hf
    | succ k => exact htakes.free _ _ (h.free k (by omega))
  · intro k hk
    cases k with
    | zero =>
        refine h.takes.used ?_
        rintro ⟨pf, hg⟩
        exact ((hfree pf f).1 hg).2 rfl
    | succ k => exact h.used k (by omega)
  · intro k l hk hl heq
    cases k with
    | zero =>
        cases l with
        | zero => rfl
        | succ l => exact absurd heq.symm (hne l (by omega))
    | succ k =>
        cases l with
        | zero => exact absurd heq (hne k (by omega))
        | succ l => exact congrArg (· + 1) (h.inj k l (by omega) (by omega) heq)
  · intro k hk
    cases k with
    | zero => exact hp
    | succ k =>
        have habs := h.absent k (by omega)
        rw [hpte _ (by omega)] at habs
        rw [← Nat.add_assoc, Nat.add_right_comm]
        exact habs
  · intro k hk
    cases k with
    | zero =>
        rw [Nat.add_zero, h.takes.kernelPte p hpresent, Machine.setKernelPte_kernelPte, Function.update_self,
          if_pos rfl]
    | succ k =>
        rw [← Nat.add_assoc, Nat.add_right_comm]
        exact h.pte k (by omega)
  · intro q hq
    rw [h.other q fun k hk => by have := hq (k + 1) (by omega); omega]
    exact hpte q (by have := hq 0 (by omega); omega)
  · intro g hg
    rw [h.phys g fun k hk => hg (k + 1) (by omega)]
    exact congrFun hsame.phys g
  · rw [h.tcb]
    exact hsame.tcb
  · rw [h.cr3]
    exact hsame.cr3

/-! ## Allocating -/

theorem setRun_btmpByteLen (v : Bool) (cnt i : Nat) (btmp : Bitmap) :
    (Machine.setRun v cnt i btmp).btmpByteLen = btmp.btmpByteLen := by
  induction cnt generalizing i btmp with
  | zero => rfl
  | succ cnt ih =>
      rw [Machine.setRun, ih]
      rfl

/-- The run that the scan finds ends at most one bit past the map. -/
theorem scanRun_le {bits : Mem} {bitLeft next count r : Nat} (hcount : count ≤ next)
    (h : scanRun bits cnt bitLeft next count = some r) : r + cnt ≤ next + bitLeft := by
  induction bitLeft generalizing next count with
  | zero => cases h
  | succ bitLeft ih =>
      rw [scanRun] at h
      have hle : (if bitAt bits next then 0 else count + 1) ≤ next + 1 := by
        split <;> omega
      generalize (if bitAt bits next then 0 else count + 1) = count' at h hle
      by_cases heq : count' = cnt
      · rw [if_pos heq] at h
        cases h
        omega
      · rw [if_neg heq] at h
        have := ih hle h
        omega

theorem bitmapScan_le {btmp : Bitmap} {r : Nat} (hcnt : 0 < cnt)
    (h : bitmapScan false btmp cnt = .ok (some r)) : r + cnt ≤ 8 * btmp.btmpByteLen + 1 := by
  by_cases hone : cnt = 1
  · subst hone
    have := (firstClear_of_bitmapScan h).lt
    omega
  · obtain ⟨_, hreq, h⟩ := Outcome.bind_eq_ok.1 h
    rw [require_eq_ok] at hreq
    have hlt := hreq.resolve_right (by simp)
    rw [if_neg (Nat.ne_of_lt hlt), if_neg hone] at h
    have hfirst := (firstClear_scan hlt).lt
    have hle := scanRun_le (by omega) (Except.ok.inj h)
    omega

/-- `vaddr_get` finds room for the pages and marks it. -/
theorem vaddrGet_spec {r : Option Nat} (hL : L.Of m) (hcnt : 0 < cnt)
    (hcall : m.vaddrGet cnt = .ok (r, m')) :
    L.Of m' ∧ Takes L m m' ∧ m'.kernelPte = m.kernelPte ∧ m'.phys = m.phys ∧ m'.tcb = m.tcb
      ∧ m'.cr3 = m.cr3
      ∧ ∀ vaddr, r = some vaddr → ∃ p, vaddr = p * pgSize ∧ 0xC0000 ≤ p ∧ p + cnt ≤ 2 ^ 20 := by
  obtain ⟨bitIdxStart, hscan, hcall⟩ := Outcome.bind_eq_ok.1 hcall
  cases bitIdxStart with
  | none =>
      cases hcall
      exact ⟨hL, Takes.refl hL, rfl, rfl, rfl, rfl, fun _ h => by cases h⟩
  | some i =>
      cases hcall
      have hL' : L.Of { m with kernelVaddr := { m.kernelVaddr with
          vaddrBitmap := Machine.setRun true cnt i m.kernelVaddr.vaddrBitmap } } :=
        ⟨hL.start, hL.byteLen, hL.vaddrStart, (setRun_btmpByteLen ..).trans hL.vaddrLen⟩
      refine ⟨hL', ⟨hL', fun _ _ hf => hf, fun _ _ => rfl, fun _ _ => rfl, fun _ _ => .inl rfl⟩,
        rfl, rfl, rfl, rfl, fun vaddr hvaddr => ?_⟩
      cases hvaddr
      have hle := bitmapScan_le hcnt hscan
      rw [hL.vaddrLen] at hle
      have hlow := L.vaddrLow
      have hend := L.vaddrEnd
      refine ⟨L.vaddrBase + i, ?_, by omega, by omega⟩
      rw [hL.vaddrStart, pgSize]
      omega

/-- The loop of `malloc_page`. -/
theorem mapPages_spec {b : Bool} (hL : L.Of m) (hlow : 0xC0000 ≤ p) (hhigh : p + cnt ≤ 2 ^ 20)
    (hcall : Machine.mapPages cnt (p * pgSize % 2 ^ 32) m = .ok (b, m')) :
    b = true ∧ ∃ fr, KernelPages L m m' p cnt fr := by
  induction cnt generalizing p m with
  | zero =>
      cases hcall
      exact ⟨rfl, id, KernelPages.nil hL hlow hhigh id⟩
  | succ cnt ih =>
      obtain ⟨⟨r, m₁⟩, hpalloc, hcall⟩ := Outcome.bind_eq_ok.1 hcall
      obtain ⟨f, rfl, hf, hL₁, hsame, hfree⟩ := palloc_spec hL hpalloc
      obtain ⟨m₂, hadd, hcall⟩ := Outcome.bind_eq_ok.1 hcall
      have hmod : p * pgSize % 2 ^ 32 = p * pgSize := by
        rw [pgSize]
        omega
      have hstart : kernelStart ≤ p * pgSize := by
        rw [kernelStart, pgSize]
        omega
      have hpage : p * pgSize / pgSize = p := Nat.mul_div_cancel p (by norm_num [pgSize])
      have hnext : (p * pgSize + pgSize) % 2 ^ 32 = (p + 1) * pgSize % 2 ^ 32 := by
        rw [Nat.add_mul, Nat.one_mul]
      rw [hmod, Machine.pageTableAdd, if_pos hstart, hpage] at hadd
      obtain ⟨_, hreq, hadd⟩ := Outcome.bind_eq_ok.1 hadd
      rw [require_eq_ok, hsame.kernelPte] at hreq
      cases hadd
      rw [hmod, hnext] at hcall
      have hL₂ := ((Takes.of_palloc hL₁ hsame hfree).setKernelPte hf hreq).layout
      obtain ⟨rfl, fr, hrest⟩ := ih hL₂ (by omega) (by omega) hcall
      exact ⟨rfl, _, hrest.cons hf hL₁ hsame hfree hlow hreq⟩

/-! ## Frames behind kernel addresses -/

/-- The page `p` of the kernel is mapped to the frame `f`. -/
structure KernelMaps (m : Machine) (p f : Nat) : Prop where
  present : Machine.present (m.kernelPte p)
  frame : Machine.frameOf (m.kernelPte p) = f

theorem KernelPages.maps {k : Nat} (h : KernelPages L m m' p cnt fr) (hk : k < cnt) :
    KernelMaps m' (p + k) (fr k) := by
  constructor
  · rw [h.pte k hk]
    exact present_entryOf _
  · rw [h.pte k hk]
    exact frameOf_entryOf _

theorem Takes.maps {f : Nat} (h : Takes L m m') (hp : KernelMaps m p f) : KernelMaps m' p f := by
  have heq := h.kernelPte p hp.present
  exact ⟨by rw [heq]; exact hp.present, by rw [heq]; exact hp.frame⟩

theorem frameAt_kernel {f off : Nat} (hlow : 0xC0000 ≤ p) (hoff : off < pgSize)
    (hpte : KernelMaps m p f) : m.frameAt (p * pgSize + off) = .ok f := by
  have hstart : kernelStart ≤ p * pgSize + off := by
    rw [kernelStart, pgSize]
    omega
  have hpage : (p * pgSize + off) / pgSize = p := by
    rw [pgSize] at hoff ⊢
    omega
  rw [Machine.frameAt, Machine.pteAt, if_pos hstart, hpage, Outcome.ok_bind, if_pos hpte.present,
    hpte.frame]

theorem frameAt_page {f : Nat} (hlow : 0xC0000 ≤ p) (hpte : KernelMaps m p f) :
    m.frameAt (p * pgSize) = .ok f := by
  have hframe := frameAt_kernel hlow (show 0 < pgSize by norm_num [pgSize]) hpte
  rwa [Nat.add_zero] at hframe

theorem addrV2p_kernel (hlow : 0xC0000 ≤ p) :
    m.addrV2p (p * pgSize) = .ok (Machine.frameOf (m.kernelPte p) * pgSize) := by
  have hstart : kernelStart ≤ p * pgSize := by
    rw [kernelStart, pgSize]
    omega
  have hpage : p * pgSize / pgSize = p := Nat.mul_div_cancel p (by norm_num [pgSize])
  rw [Machine.addrV2p, Machine.pteAt, if_pos hstart, hpage, Outcome.ok_bind]

/-- `memset` of kernel pages writes their frames. -/
theorem zeroPages_spec (hlow : 0xC0000 ≤ p)
    (hpte : ∀ k, k < cnt → KernelMaps m (p + k) (fr k))
    (hinj : ∀ k l, k < cnt → l < cnt → fr k = fr l → k = l)
    (hcall : Machine.zeroPages cnt (p * pgSize) m = .ok m') :
    m' = { m with phys := m'.phys } ∧ (∀ f, (∀ k, k < cnt → f ≠ fr k) → m'.phys f = m.phys f)
      ∧ ∀ k, k < cnt → ∀ a, a < pgSize → m'.phys (fr k) a = 0 := by
  induction cnt generalizing p m fr with
  | zero =>
      cases hcall
      exact ⟨rfl, fun _ _ => rfl, by omega⟩
  | succ cnt ih =>
      have hframe := frameAt_page (p := p) hlow (hpte 0 (by omega))
      obtain ⟨f, hf, hcall⟩ := Outcome.bind_eq_ok.1 hcall
      rw [hframe] at hf
      cases hf
      have hnext : p * pgSize + pgSize = (p + 1) * pgSize := by rw [Nat.add_mul, Nat.one_mul]
      rw [hnext] at hcall
      have hother : ∀ k, k < cnt → fr (k + 1) ≠ fr 0 := by
        intro k hk heq
        have := hinj (k + 1) 0 (by omega) (by omega) heq
        omega
      obtain ⟨hm', hout, hzero⟩ := ih (p := p + 1) (by omega)
        (fun k hk => by
          have hmaps := hpte (k + 1) (by omega)
          rw [← Nat.add_assoc, Nat.add_right_comm] at hmaps
          exact ⟨hmaps.present, hmaps.frame⟩)
        (fun k l hk hl heq => by
          have := hinj (k + 1) (l + 1) (by omega) (by omega) heq
          omega) hcall
      have hfirst : m'.phys (fr 0) = fill (m.phys (fr 0)) 0 0 pgSize := by
        rw [hout (fr 0) fun k hk => (hother k hk).symm, Machine.setFrame_phys, Function.update_self]
      refine ⟨hm', fun f hf => ?_, fun k hk a ha => ?_⟩
      · rw [hout f fun k hk => hf (k + 1) (by omega), Machine.setFrame_phys,
          Function.update_of_ne (hf 0 (by omega))]
      · cases k with
        | zero =>
            rw [hfirst]
            exact fill_inside (Nat.zero_le _) (by omega)
        | succ k => exact hzero k (by omega) a ha

/-- Writing frames that were free. -/
theorem Takes.of_phys (h : Takes L m m') (hm : m'' = { m' with phys := m''.phys })
    (hphys : ∀ f, ¬ Free L m f → m''.phys f = m'.phys f) : Takes L m m'' := by
  rw [hm]
  refine ⟨⟨h.layout.start, h.layout.byteLen, h.layout.vaddrStart, h.layout.vaddrLen⟩, h.free,
    fun f hf => ?_, h.kernelPte, h.mapped⟩
  rw [← h.phys f hf]
  exact hphys f hf

theorem KernelPages.of_phys (h : KernelPages L m m' p cnt fr)
    (hm : m'' = { m' with phys := m''.phys })
    (hphys : ∀ f, (∀ k, k < cnt → f ≠ fr k) → m''.phys f = m'.phys f) :
    KernelPages L m m'' p cnt fr := by
  have htakes : Takes L m m'' := by
    refine h.takes.of_phys hm fun f hf => hphys f fun k hk => ?_
    rintro rfl
    exact hf ⟨_, h.free k hk⟩
  refine ⟨htakes, h.low, h.high, h.free, fun k hk => ?_, h.inj, h.absent, fun k hk => ?_,
    fun q hq => ?_, fun f hf => ?_, ?_, ?_⟩
  · rw [hm]
    exact h.used k hk
  · rw [hm]
    exact h.pte k hk
  · rw [hm]
    exact h.other q hq
  · rw [hphys f hf]
    exact h.phys f hf
  · rw [hm]
    exact h.tcb
  · rw [hm]
    exact h.cr3

/-- `get_kernel_pages` -/
theorem getKernelPages_spec {r : Option Nat} (hL : L.Of m)
    (hcall : m.getKernelPages cnt = .ok (r, m')) :
    (r = none → Takes L m m')
      ∧ ∀ vaddr, r = some vaddr → ∃ p fr, vaddr = p * pgSize ∧ KernelPages L m m' p cnt fr
        ∧ ∀ k, k < cnt → ∀ a, a < pgSize → m'.phys (fr k) a = 0 := by
  obtain ⟨⟨vaddr, m₁⟩, hmalloc, hcall⟩ := Outcome.bind_eq_ok.1 hcall
  obtain ⟨_, hreq, hmalloc⟩ := Outcome.bind_eq_ok.1 hmalloc
  rw [require_eq_ok] at hreq
  obtain ⟨⟨start, m₀⟩, hget, hmalloc⟩ := Outcome.bind_eq_ok.1 hmalloc
  obtain ⟨hL₀, htakes, hpte, hphys, htcb, hcr3, hstart⟩ := vaddrGet_spec hL hreq.1 hget
  cases start with
  | none =>
      cases hmalloc
      cases hcall
      exact ⟨fun _ => htakes, fun _ h => by cases h⟩
  | some start =>
      obtain ⟨p, rfl, hlow, hhigh⟩ := hstart start rfl
      obtain ⟨⟨b, m₂⟩, hmap, hmalloc⟩ := Outcome.bind_eq_ok.1 hmalloc
      have hmod : p * pgSize = p * pgSize % 2 ^ 32 := by
        rw [pgSize]
        omega
      rw [hmod] at hmap
      obtain ⟨rfl, fr, hpages⟩ := mapPages_spec hL₀ hlow hhigh hmap
      cases hmalloc
      obtain ⟨m₃, hzero, hcall⟩ := Outcome.bind_eq_ok.1 hcall
      cases hcall
      obtain ⟨hm', hout, hzeroed⟩ := zeroPages_spec hlow (fun _ => hpages.maps) hpages.inj hzero
      have hpages' := hpages.of_phys hm' hout
      refine ⟨fun h => (by cases h), fun vaddr hvaddr => ?_⟩
      cases hvaddr
      refine ⟨p, fr, rfl, ⟨htakes.trans hpages'.takes, hlow, hhigh,
        fun k hk => htakes.free _ _ (hpages'.free k hk), hpages'.used,
        hpages'.inj, ?_, hpages'.pte, ?_, ?_, ?_, ?_⟩, hzeroed⟩
      · rw [← hpte]
        exact hpages'.absent
      · rw [← hpte]
        exact hpages'.other
      · rw [← hphys]
        exact hpages'.phys
      · rw [← htcb]
        exact hpages'.tcb
      · rw [← hcr3]
        exact hpages'.cr3

/-! ## Copying -/

/-- `memcpy` of kernel pages, to frames that are not read. -/
theorem copyPages_spec {d s : Nat} {gr : Nat → Nat} (hd : 0xC0000 ≤ d) (hs : 0xC0000 ≤ s)
    (hdst : ∀ k, k < cnt → KernelMaps m (d + k) (fr k))
    (hsrc : ∀ k, k < cnt → KernelMaps m (s + k) (gr k))
    (hinj : ∀ k l, k < cnt → l < cnt → fr k = fr l → k = l)
    (hne : ∀ k l, k < cnt → l < cnt → gr k ≠ fr l)
    (hcall : Machine.copyPages cnt (d * pgSize) (s * pgSize) m = .ok m') :
    m' = { m with phys := m'.phys } ∧ (∀ f, (∀ k, k < cnt → f ≠ fr k) → m'.phys f = m.phys f)
      ∧ ∀ k, k < cnt → ∀ a, a < pgSize → m'.phys (fr k) a = m.phys (gr k) a := by
  induction cnt generalizing d s m fr gr with
  | zero =>
      cases hcall
      exact ⟨rfl, fun _ _ => rfl, by omega⟩
  | succ cnt ih =>
      have hdstFrame := frameAt_page (p := d) hd (hdst 0 (by omega))
      have hsrcFrame := frameAt_page (p := s) hs (hsrc 0 (by omega))
      obtain ⟨f, hf, hcall⟩ := Outcome.bind_eq_ok.1 hcall
      rw [hdstFrame] at hf
      cases hf
      obtain ⟨g, hg, hcall⟩ := Outcome.bind_eq_ok.1 hcall
      rw [hsrcFrame] at hg
      cases hg
      have hnext : ∀ q : Nat, q * pgSize + pgSize = (q + 1) * pgSize := by
        intro q
        rw [Nat.add_mul, Nat.one_mul]
      have hshift : ∀ q k : Nat, q + 1 + k = q + (k + 1) := by omega
      rw [hnext, hnext] at hcall
      have hother : ∀ k, k < cnt → fr (k + 1) ≠ fr 0 := by
        intro k hk heq
        have := hinj (k + 1) 0 (by omega) (by omega) heq
        omega
      obtain ⟨hm', hout, hcopied⟩ := ih (d := d + 1) (s := s + 1) (by omega) (by omega)
        (fun k hk => by
          rw [hshift]
          exact ⟨(hdst (k + 1) (by omega)).present, (hdst (k + 1) (by omega)).frame⟩)
        (fun k hk => by
          rw [hshift]
          exact ⟨(hsrc (k + 1) (by omega)).present, (hsrc (k + 1) (by omega)).frame⟩)
        (fun k l hk hl heq => by
          have := hinj (k + 1) (l + 1) (by omega) (by omega) heq
          omega)
        (fun k l hk hl => hne (k + 1) (l + 1) (by omega) (by omega)) hcall
      refine ⟨hm', fun f hf => ?_, fun k hk a ha => ?_⟩
      · rw [hout f fun k hk => hf (k + 1) (by omega), Machine.setFrame_phys,
          Function.update_of_ne (hf 0 (by omega))]
      · cases k with
        | zero =>
            rw [hout (fr 0) fun k hk => (hother k hk).symm, Machine.setFrame_phys,
              Function.update_self, copy_inside (Nat.zero_le _) (by omega)]
            exact congrArg _ (by omega)
        | succ k =>
            rw [hcopied k (by omega) a ha, Machine.setFrame_phys,
              Function.update_of_ne (hne (k + 1) 0 hk (by omega))]

/-! ## Freeing -/

/-- `pfree` makes no other frame free. -/
theorem pfree_spec {f : Nat} (hL : L.Of m) (hf : L.kernelBase ≤ f) :
    L.Of (m.pfree (f * pgSize)) ∧ SamePages m (m.pfree (f * pgSize))
      ∧ ∀ pf g, FreeIn L (m.pfree (f * pgSize)) pf g → FreeIn L m pf g ∨ g = f := by
  -- the bit is that of `f`, whichever pool the frame is of
  have hclear : ∀ pf i, L.base pf + i = f →
      ∀ pf' g, FreeIn L (m.setPoolBitmap pf (bitmapSet (m.pool pf).poolBitmap i false)) pf' g →
        FreeIn L m pf' g ∨ g = f := by
    rintro pf i hi pf' g ⟨j, hj, rfl, hbit⟩
    by_cases hpf : pf' = pf
    · subst hpf
      by_cases hji : j = i
      · right
        rw [hji, hi]
      · refine .inl ⟨j, hj, rfl, ?_⟩
        rw [← hbit]
        have hset : ((m.setPoolBitmap pf' (bitmapSet (m.pool pf').poolBitmap i false)).pool
            pf').poolBitmap.bits = setBitAt (m.pool pf').poolBitmap.bits i false := by
          cases pf' <;> rfl
        rw [hset, bitAt_setBitAt_ne hji]
    · refine .inl ⟨j, hj, rfl, ?_⟩
      rw [← hbit]
      cases pf <;> cases pf' <;> first | rfl | exact absurd rfl hpf
  have hof : ∀ pf i, L.Of (m.setPoolBitmap pf (bitmapSet (m.pool pf).poolBitmap i false))
      ∧ SamePages m (m.setPoolBitmap pf (bitmapSet (m.pool pf).poolBitmap i false)) := by
    intro pf i
    refine ⟨⟨fun pf' => ?_, fun pf' => ?_, ?_, ?_⟩, ?_⟩
    · rw [← hL.start]
      cases pf <;> cases pf' <;> rfl
    · rw [← hL.byteLen]
      cases pf <;> cases pf' <;> rfl
    · rw [← hL.vaddrStart]
      cases pf <;> rfl
    · rw [← hL.vaddrLen]
      cases pf <;> rfl
    · cases pf <;> exact ⟨rfl, rfl, rfl, rfl, rfl⟩
  have huser := hL.start .user
  have hkernel := hL.start .kernel
  simp only [Machine.pool, Layout.base] at huser hkernel
  rw [Machine.pfree, huser, hkernel]
  by_cases hle : L.userBase * pgSize ≤ f * pgSize
  · rw [if_pos hle]
    have hidx : L.userBase + (f * pgSize - L.userBase * pgSize) / pgSize = f := by
      rw [pgSize] at hle ⊢
      omega
    exact ⟨(hof .user _).1, (hof .user _).2, hclear .user _ hidx⟩
  · rw [if_neg hle]
    have hidx : L.kernelBase
        + (f * pgSize + 2 ^ 32 - L.kernelBase * pgSize) % 2 ^ 32 / pgSize = f := by
      have := L.userEnd
      rw [pgSize] at hle ⊢
      omega
    exact ⟨(hof .kernel _).1, (hof .kernel _).2, hclear .kernel _ hidx⟩

/-- From `m` to `m'` the kernel gave back the pages `p, …, p + cnt - 1`. -/
structure Gives (L : Layout) (m m' : Machine) (p cnt : Nat) : Prop where
  layout : L.Of m'
  free : ∀ pf g, FreeIn L m' pf g →
    FreeIn L m pf g ∨ ∃ k, k < cnt ∧ g = Machine.frameOf (m.kernelPte (p + k))
  absent : ∀ k, k < cnt → ¬ Machine.present (m'.kernelPte (p + k))
  other : ∀ q, (∀ k, k < cnt → q ≠ p + k) → m'.kernelPte q = m.kernelPte q
  phys : m'.phys = m.phys
  tcb : m'.tcb = m.tcb
  cr3 : m'.cr3 = m.cr3

theorem KernelMaps.page_ne {q f g : Nat} (hp : KernelMaps m p f) (hq : KernelMaps m q g)
    (h : f ≠ g) : p ≠ q := by
  rintro rfl
  exact h (hp.frame.symm.trans hq.frame)

/-- Pages that are not given back stay mapped. -/
theorem Gives.maps {q f : Nat} (h : Gives L m m' p cnt) (hq : KernelMaps m q f)
    (hne : ∀ k, k < cnt → q ≠ p + k) : KernelMaps m' q f := by
  have hpte := h.other q hne
  exact ⟨by rw [hpte]; exact hq.present, by rw [hpte]; exact hq.frame⟩

/-- The loops of `mfree_page`. -/
theorem freePages_spec {pf : PoolFlags} (hL : L.Of m) (hlow : 0xC0000 ≤ p)
    (hcall : Machine.freePages pf cnt (p * pgSize) m = .ok m') : Gives L m m' p cnt := by
  induction cnt generalizing p m with
  | zero =>
      cases hcall
      exact ⟨hL, fun _ _ hg => .inl hg, by omega, fun _ _ => rfl, rfl, rfl, rfl⟩
  | succ cnt ih =>
      obtain ⟨pgPhyAddr, hv2p, hcall⟩ := Outcome.bind_eq_ok.1 hcall
      rw [addrV2p_kernel hlow] at hv2p
      cases hv2p
      obtain ⟨_, hreq, hcall⟩ := Outcome.bind_eq_ok.1 hcall
      rw [require_eq_ok] at hreq
      have hstart := hL.start pf
      have hbase : L.kernelBase ≤ Machine.frameOf (m.kernelPte p) := by
        have hkernel := hL.start .kernel
        have huser := hL.start .user
        have := L.kernelEnd
        simp only [Machine.pool, Layout.base] at hkernel huser
        cases pf <;> simp only [Machine.inPool, hkernel, huser, pgSize] at hreq <;> omega
      obtain ⟨hL₁, hsame, hfree⟩ := pfree_spec hL hbase
      have hpage : p * pgSize / pgSize = p := Nat.mul_div_cancel p (by norm_num [pgSize])
      have hnext : p * pgSize + pgSize = (p + 1) * pgSize := by rw [Nat.add_mul, Nat.one_mul]
      have hL₂ : L.Of ((m.pfree (Machine.frameOf (m.kernelPte p) * pgSize)).pageTablePteRemove
          (p * pgSize)) :=
        ⟨hL₁.start, hL₁.byteLen, hL₁.vaddrStart, hL₁.vaddrLen⟩
      rw [hnext] at hcall
      have hrest := ih hL₂ (by omega) hcall
      rw [Machine.pageTablePteRemove, hpage, hsame.kernelPte] at hrest
      refine ⟨hrest.layout, fun pf g hg => ?_, fun k hk => ?_, fun q hq => ?_, ?_, ?_, ?_⟩
      · rcases hrest.free pf g hg with hg | ⟨k, hk, rfl⟩
        · rcases hfree pf g hg with hg | rfl
          · exact .inl hg
          · exact .inr ⟨0, by omega, rfl⟩
        · refine .inr ⟨k + 1, by omega, ?_⟩
          rw [Machine.setKernelPte_kernelPte, Function.update_of_ne (by omega),
            hsame.kernelPte]
          exact congrArg (fun q => Machine.frameOf (m.kernelPte q)) (by omega)
      · cases k with
        | zero =>
            rw [Nat.add_zero, hrest.other p (by omega), Machine.setKernelPte_kernelPte,
              Function.update_self, Machine.present]
            omega
        | succ k =>
            have habs := hrest.absent k (by omega)
            rw [Nat.add_right_comm, Nat.add_assoc] at habs
            exact habs
      · rw [hrest.other q fun k hk => by have := hq (k + 1) (by omega); omega,
          Machine.setKernelPte_kernelPte,
          Function.update_of_ne (by have := hq 0 (by omega); omega), hsame.kernelPte]
      · rw [hrest.phys]
        exact hsame.phys
      · rw [hrest.tcb]
        exact hsame.tcb
      · rw [hrest.cr3]
        exact hsame.cr3

/-- `mfree_page` of kernel pages. -/
theorem mfreePage_spec (hL : L.Of m) (hlow : 0xC0000 ≤ p)
    (hcall : m.mfreePage (p * pgSize) cnt = .ok m') : Gives L m m' p cnt := by
  obtain ⟨_, -, hcall⟩ := Outcome.bind_eq_ok.1 hcall
  obtain ⟨_, -, hcall⟩ := Outcome.bind_eq_ok.1 hcall
  obtain ⟨_, -, hcall⟩ := Outcome.bind_eq_ok.1 hcall
  obtain ⟨m₁, hfree, hcall⟩ := Outcome.bind_eq_ok.1 hcall
  cases hcall
  have hgives := freePages_spec hL hlow hfree
  have hL₁ := hgives.layout
  exact ⟨⟨hL₁.start, hL₁.byteLen, hL₁.vaddrStart, (setRun_btmpByteLen ..).trans hL₁.vaddrLen⟩,
    hgives.free, hgives.absent, hgives.other, hgives.phys, hgives.tcb, hgives.cr3⟩

/-- Giving back pages taken since `m`. -/
theorem Gives.takes (hgive : Gives L m' m'' p cnt) (h : Takes L m m')
    (habsent : ∀ k, k < cnt → ¬ Machine.present (m.kernelPte (p + k)))
    (hfree : ∀ k, k < cnt → FreeIn L m .kernel (Machine.frameOf (m'.kernelPte (p + k)))) :
    Takes L m m'' := by
  have hout : ∀ q, Machine.present (m.kernelPte q) ∨ Machine.present (m''.kernelPte q) →
      m''.kernelPte q = m'.kernelPte q := by
    intro q hq
    refine hgive.other q ?_
    rintro k hk rfl
    rcases hq with hq | hq
    · exact habsent k hk hq
    · exact hgive.absent k hk hq
  refine ⟨hgive.layout, fun pf g hg => ?_, fun f hf => ?_, fun q hq => ?_, fun q hq => ?_⟩
  · rcases hgive.free pf g hg with hold | ⟨k, hk, rfl⟩
    · exact h.free pf g hold
    · have hk := hfree k hk
      rw [hg.pool_eq hk]
      exact hk
  · rw [hgive.phys]
    exact h.phys f hf
  · rw [hout q (.inl hq)]
    exact h.kernelPte q hq
  · have hsame := hout q (.inr hq)
    rw [hsame] at hq ⊢
    exact h.mapped q hq

end Kernel
end JackOS
