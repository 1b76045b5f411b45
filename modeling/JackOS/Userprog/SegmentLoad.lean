/-
  JackOS.Userprog.SegmentLoad

  `segment_load` of userprog/exec.c up to `sys_lseek`: the pages that a segment
  lies on are mapped before the segment is read.  Pages that are there stay; for
  each other one `get_a_page` takes a frame, and a page table where there is
  none.  But `get_a_page` asserts that the page is not the first one of user
  space, so a segment on that page is mapped only if the page is mapped already.
-/

import JackOS.Userprog.Exhaustion
import JackOS.Userprog.ForkCopy
import Mathlib.Order.Interval.Finset.Nat

namespace JackOS
namespace Userprog

open Base Base.Mem Kernel

/-! ## segment_load -/

/-- `occupy_pages` -/
def occupyPages (filesz vaddr : Nat) : Nat :=
  let sizeInFirstPage := pgSize - vaddr % pgSize
  if sizeInFirstPage < filesz then divCeiling (filesz - sizeInFirstPage) pgSize + 1 else 1

/-- `!(*pde & 0x00000001) || !(*pte & 0x00000001)` -/
def pageMissing (m : Machine) (vaddrPage : Nat) : Prop :=
  let pde := m.pdeIn (Machine.frameOf m.cr3) vaddrPage
  ¬ Machine.present pde
    ∨ ¬ Machine.present (m.word (Machine.frameOf pde) (Machine.pteIdx vaddrPage))

instance (m : Machine) (vaddrPage : Nat) : Decidable (pageMissing m vaddrPage) :=
  inferInstanceAs (Decidable (_ ∨ _))

/-- `while (page_idx < occupy_pages)`, with `left` pages to go: whether all pages
    were there or could be had. -/
def segmentPages (t : Nat) : (left vaddrPage : Nat) → Machine → Outcome (Bool × Machine)
  | 0, _, m => .ok (true, m)
  | left + 1, vaddrPage, m =>
      if pageMissing m vaddrPage then do
        let (page, m) ← getAPage m t .user vaddrPage
        if page.getD 0 = 0 then .ok (false, m)
        else segmentPages t left ((vaddrPage + pgSize) % 2 ^ 32) m
      else segmentPages t left ((vaddrPage + pgSize) % 2 ^ 32) m

/-- `segment_load` by the process `t` up to `sys_lseek`: false if it returns
    before. -/
def segmentMap (t filesz vaddr : Nat) (m : Machine) : Outcome (Bool × Machine) :=
  segmentPages t (occupyPages filesz vaddr) (vaddr / pgSize * pgSize) m

/-! ## The pages of a segment -/

/-- Page `v` overlaps the addresses from `vaddr` to `vaddr + filesz`. -/
def Overlaps (vaddr filesz v : Nat) : Prop :=
  v * pgSize < vaddr + filesz ∧ vaddr < (v + 1) * pgSize

instance (vaddr filesz v : Nat) : Decidable (Overlaps vaddr filesz v) :=
  inferInstanceAs (Decidable (_ ∧ _))

/-- `USER_STACK3_VADDR` -/
def userStack3Vaddr : Nat := kernelStart - pgSize

/-- `segment_load` counts the pages that the segment overlaps. -/
theorem overlaps_iff {vaddr filesz v : Nat} (hsize : 1 ≤ filesz)
    (hend : vaddr + filesz ≤ userStack3Vaddr) :
    Overlaps vaddr filesz v
      ↔ vaddr / pgSize ≤ v ∧ v < vaddr / pgSize + occupyPages filesz vaddr := by
  rw [userStack3Vaddr, kernelStart] at hend
  unfold Overlaps occupyPages divCeiling
  by_cases hfirst : pgSize - vaddr % pgSize < filesz
  · simp only [if_pos hfirst]
    rw [pgSize] at hend hfirst ⊢
    omega
  · simp only [if_neg hfirst]
    rw [pgSize] at hend hfirst ⊢
    omega

/-! ## Address spaces -/

/-- Frame `f` is of the pool. -/
def InPool (L : Layout) (pf : PoolFlags) (f : Nat) : Prop :=
  ∃ i, i < 8 * L.len pf ∧ f = L.base pf + i

/-- The frame of page `k` of the address bitmap of `t`. -/
def bitmapFrame (m : Machine) (t k : Nat) : Nat :=
  Machine.frameOf (m.kernelPte ((m.tcb t).vaddrBits / pgSize + k))

/-- The process `t` runs in an address space of its own: its page directory, the
    pages of its address bitmap, its page tables and its pages are frames in
    use, and no frame is two of these. -/
structure AddressSpace (L : Layout) (m : Machine) (t : Nat) : Prop where
  pgdir : (m.tcb t).pgdir ≠ 0
  cr3 : m.cr3 = dirFrame m t * pgSize
  vaddrStart : (m.tcb t).vaddrStart = userVaddrStart
  bits : ∃ b, 0xC0000 ≤ b ∧ (m.tcb t).vaddrBits = b * pgSize
    ∧ ∀ k, k < bitmapPgCnt → Machine.present (m.kernelPte (b + k))
  dir : InPool L .kernel (dirFrame m t) ∧ ¬ Free L m (dirFrame m t)
  bitmap : ∀ k, k < bitmapPgCnt → InPool L .kernel (bitmapFrame m t k)
    ∧ ¬ Free L m (bitmapFrame m t k) ∧ bitmapFrame m t k ≠ dirFrame m t
  bitmapInj : ∀ k l, k < bitmapPgCnt → l < bitmapPgCnt → bitmapFrame m t k = bitmapFrame m t l →
    k = l
  table : ∀ d f, d < 768 → m.tableFrame (dirFrame m t) d = some f → InPool L .kernel f
    ∧ ¬ Free L m f ∧ f ≠ dirFrame m t ∧ ∀ k, k < bitmapPgCnt → f ≠ bitmapFrame m t k
  tableInj : ∀ d d' f, d < 768 → d' < 768 → m.tableFrame (dirFrame m t) d = some f →
    m.tableFrame (dirFrame m t) d' = some f → d = d'
  page : ∀ v f, v < userPages → pageFrame m t v = some f → InPool L .user f ∧ ¬ Free L m f
  pageInj : ∀ v v' f, v < userPages → v' < userPages → pageFrame m t v = some f →
    pageFrame m t v' = some f → v = v'

/-- From `m` to `m'` the missing ones of the pages in `S` were mapped to different
    frames that were free, and marked; all other pages are as they were. -/
structure PagesMapped (L : Layout) (m m' : Machine) (t : Nat) (S : Finset Nat) : Prop where
  mapped : ∀ v, v ∈ S → pageFrame m' t v ≠ none
  kept : ∀ v f, v < userPages → pageFrame m t v = some f →
    pageFrame m' t v = some f ∧ m'.phys f = m.phys f
  outside : ∀ v, v < userPages → v ∉ S → pageFrame m' t v = pageFrame m t v
  fresh : ∀ v f, v ∈ S → pageFrame m t v = none → pageFrame m' t v = some f →
    FreeIn L m .user f ∧ ¬ Free L m' f
  distinct : ∀ v v' f, v < userPages → v' < userPages → pageFrame m' t v = some f →
    pageFrame m' t v' = some f → v = v'
  /-- no other frame of the user pool is taken -/
  taken : ∀ f, FreeIn L m .user f → FreeIn L m' .user f
    ∨ ∃ v, v ∈ S ∧ pageFrame m t v = none ∧ pageFrame m' t v = some f
  marks : ∀ v, userVaddrStart / pgSize ≤ v → v < userPages →
    (bitAt (vaddrBitmap m' t) (v - userVaddrStart / pgSize) = true
      ↔ bitAt (vaddrBitmap m t) (v - userVaddrStart / pgSize) = true
        ∨ v ∈ S ∧ pageFrame m t v = none)
  kernelPte : m'.kernelPte = m.kernelPte
  tcb : m'.tcb = m.tcb
  cr3 : m'.cr3 = m.cr3

/-- The pages that overlap the segment. -/
def segmentPageSet (vaddr filesz : Nat) : Finset Nat :=
  (Finset.range userPages).filter (Overlaps vaddr filesz)

/-- The pages in `S` that are not mapped. -/
def missingPages (m : Machine) (t : Nat) (S : Finset Nat) : Finset Nat :=
  S.filter fun v => pageFrame m t v = none

/-- The page tables that those pages need and that are not there. -/
def missingTables (m : Machine) (t : Nat) (S : Finset Nat) : Finset Nat :=
  ((missingPages m t S).image (· / 1024)).filter fun d => m.tableFrame (dirFrame m t) d = none

/-! ## A state before the process had pages -/

variable {L : Layout} {m₁ m m' : Machine} {t dir b v f : Nat}

theorem exists_bits (p : Nat → Prop) : ∃ bits : Mem, ∀ i, bitAt bits i = true ↔ p i := by
  classical
  refine ⟨fun a => UInt8.ofBitVec (BitVec.cast (by simp)
    (BitVec.ofBoolListLE ((List.range 8).map fun j => decide (p (8 * a + j))))), fun i => ?_⟩
  have hlt : i % 8 < 8 := Nat.mod_lt _ (by norm_num)
  have hi : 8 * (i / 8) + i % 8 = i := by omega
  rw [bitAt]
  dsimp only
  rw [BitVec.getLsbD_cast, BitVec.getLsbD_ofBoolListLE, List.getD_eq_getElem?_getD,
    List.getElem?_map, List.getElem?_range hlt, Option.map_some, Option.getD_some, hi,
    decide_eq_true_eq]

/-- For any set of frames there is a machine in which just these are free. -/
theorem exists_freeIn (L : Layout) (m : Machine) (p : Nat → Prop) :
    ∃ m₁ : Machine, ∀ pf f, FreeIn L m₁ pf f ↔ InPool L pf f ∧ p f := by
  obtain ⟨kernelBits, hkernel⟩ := exists_bits fun i => ¬ p (L.kernelBase + i)
  obtain ⟨userBits, huser⟩ := exists_bits fun i => ¬ p (L.userBase + i)
  refine ⟨{ m with
    kernelPool := { m.kernelPool with poolBitmap := ⟨L.kernelLen, kernelBits⟩ }
    userPool := { m.userPool with poolBitmap := ⟨L.userLen, userBits⟩ } }, fun pf f => ?_⟩
  have hbit : ∀ i, bitAt ((Machine.pool { m with
      kernelPool := { m.kernelPool with poolBitmap := ⟨L.kernelLen, kernelBits⟩ }
      userPool := { m.userPool with poolBitmap := ⟨L.userLen, userBits⟩ } } pf).poolBitmap.bits) i
        = false ↔ p (L.base pf + i) := by
    intro i
    rw [← Bool.not_eq_true]
    cases pf with
    | kernel => exact (not_congr (hkernel i)).trans not_not
    | user => exact (not_congr (huser i)).trans not_not
  unfold FreeIn InPool
  constructor
  · rintro ⟨i, hi, rfl, hclear⟩
    exact ⟨⟨i, hi, rfl⟩, (hbit i).1 hclear⟩
  · rintro ⟨⟨i, hi, rfl⟩, hp⟩
    exact ⟨i, hi, rfl, (hbit i).2 hp⟩

theorem InPool.pool_eq {pf pf' : PoolFlags} (h : InPool L pf f) (h' : InPool L pf' f) :
    pf = pf' := by
  obtain ⟨i, hi, rfl⟩ := h
  obtain ⟨j, hj, heq⟩ := h'
  have := L.kernelEnd
  cases pf <;> cases pf' <;> simp only [Layout.base, Layout.len] at hi hj heq
  · rfl
  · omega
  · omega
  · rfl

theorem inPool_of_free {pf : PoolFlags} (h : FreeIn L m pf f) : InPool L pf f := by
  obtain ⟨i, hi, hf, -⟩ := h
  exact ⟨i, hi, hf⟩

/-- While a segment is loaded: the tables and pages of the process lie in frames
    that were free in `m₁`, its page directory and address bitmap do not. -/
structure Loading (L : Layout) (m₁ m : Machine) (t dir b : Nat) : Prop where
  layout : L.Of m
  space : Space L m₁ m dir
  later : ∀ pf g, FreeIn L m pf g → FreeIn L m₁ pf g
  pgdir : (m.tcb t).pgdir ≠ 0
  dirFrame_eq : dirFrame m t = dir
  cr3 : m.cr3 = dir * pgSize
  vaddrStart : (m.tcb t).vaddrStart = userVaddrStart
  bits : 0xC0000 ≤ b ∧ (m.tcb t).vaddrBits = b * pgSize
  present : ∀ k, k < bitmapPgCnt → Machine.present (m.kernelPte (b + k))
  bitmap : ∀ k, k < bitmapPgCnt → ¬ Free L m₁ (bitmapFrame m t k) ∧ bitmapFrame m t k ≠ dir
  bitmapInj : ∀ k l, k < bitmapPgCnt → l < bitmapPgCnt → bitmapFrame m t k = bitmapFrame m t l →
    k = l

theorem AddressSpace.loading (h : AddressSpace L m t) (hL : L.Of m) :
    ∃ m₁ b, Loading L m₁ m t (dirFrame m t) b := by
  obtain ⟨b, hb, hbits, hpresent⟩ := h.bits
  obtain ⟨m₁, hm₁⟩ := exists_freeIn L m fun f =>
    f ≠ dirFrame m t ∧ ∀ k, k < bitmapPgCnt → f ≠ bitmapFrame m t k
  refine ⟨m₁, b, hL, ⟨?_, fun d f hd hf => ?_, h.tableInj, fun v f hv hf => ?_, h.pageInj⟩,
    fun pf g hg => (hm₁ pf g).2 ⟨inPool_of_free hg, ?_, fun k hk => ?_⟩, h.pgdir, rfl, h.cr3,
    h.vaddrStart, ⟨hb, hbits⟩, hpresent, fun k hk => ⟨?_, (h.bitmap k hk).2.2⟩, h.bitmapInj⟩
  · rintro ⟨pf, hfree⟩
    exact ((hm₁ pf _).1 hfree).2.1 rfl
  · obtain ⟨hpool, hused, hdir, hbitmap⟩ := h.table d f hd hf
    exact ⟨(hm₁ _ _).2 ⟨hpool, hdir, hbitmap⟩, hused⟩
  · obtain ⟨hpool, hused⟩ := h.page v f hv hf
    refine ⟨(hm₁ _ _).2 ⟨hpool, ?_, fun k hk => ?_⟩, hused⟩
    · rintro rfl
      exact absurd (hpool.pool_eq h.dir.1) (by decide)
    · rintro rfl
      exact absurd (hpool.pool_eq (h.bitmap k hk).1) (by decide)
  · rintro rfl
    exact h.dir.2 ⟨pf, hg⟩
  · rintro rfl
    exact (h.bitmap k hk).2.1 ⟨pf, hg⟩
  · rintro ⟨pf, hfree⟩
    exact ((hm₁ pf _).1 hfree).2.2 k hk rfl

theorem Loading.pageFrame_eq (h : Loading L m₁ m t dir b) (v : Nat) :
    pageFrame m t v = m.userFrame dir v := by
  rw [pageFrame, h.dirFrame_eq]

theorem Loading.pageMissing_iff (h : Loading L m₁ m t dir b) :
    pageMissing m (v * pgSize) ↔ pageFrame m t v = none := by
  unfold pageMissing
  rw [h.pageFrame_eq, h.cr3, frameOf_mul, Machine.pdeIn, pdeIdx_page, pteIdx_page,
    Machine.userFrame, Machine.tableFrame]
  by_cases hpde : Machine.present (m.word dir (v / 1024))
  · rw [if_pos hpde, Option.bind_some, Machine.entryFrame]
    simp [hpde]
  · simp [hpde]

/-! ## Marking a page -/

theorem vaddrBits_page {i : Nat} (hi : i < 8 * userBitmapLen) : i / 8 / pgSize < bitmapPgCnt := by
  have hcnt : bitmapPgCnt = 23 := by decide
  have hlen : userBitmapLen = 94199 := by decide
  rw [hlen] at hi
  rw [hcnt, pgSize]
  omega

/-- Writing a frame that is neither the page directory nor a page table. -/
theorem Loading.setFrame (h : Loading L m₁ m t dir b) (hf : ¬ Free L m₁ f) (hne : f ≠ dir)
    (c : Mem) : Loading L m₁ (m.setFrame f c) t dir b where
  layout := ⟨h.layout.start, h.layout.byteLen, h.layout.vaddrStart, h.layout.vaddrLen⟩
  space := by
    refine h.space.of_same ?_ (fun d g hd hg => ?_) fun _ hg => hg
    · rw [Machine.setFrame_phys, Function.update_of_ne hne.symm]
    · have hgf : g ≠ f := by
        rintro rfl
        exact hf ⟨_, (h.space.table d g hd hg).1⟩
      rw [Machine.setFrame_phys, Function.update_of_ne hgf]
  later := h.later
  pgdir := h.pgdir
  dirFrame_eq := h.dirFrame_eq
  cr3 := h.cr3
  vaddrStart := h.vaddrStart
  bits := h.bits
  present := h.present
  bitmap := h.bitmap
  bitmapInj := h.bitmapInj

/-- The bitmap's byte, by the frame that it lies in. -/
theorem Loading.vaddrBitmap_eq (h : Loading L m₁ m t dir b) (a : Nat) :
    vaddrBitmap m t a = m.phys (bitmapFrame m t (a / pgSize)) (a % pgSize) := by
  rw [Userprog.vaddrBitmap_eq h.bits.2, bitmapFrame, h.bits.2,
    Nat.mul_div_cancel b (by norm_num [pgSize])]

/-- `bitmap_set` in the address bitmap writes one of its frames. -/
theorem Loading.setVaddrBit {i : Nat} (h : Loading L m₁ m t dir b) (hi : i < 8 * userBitmapLen) :
    ∃ c, setVaddrBit m t i = .ok (m.setFrame (bitmapFrame m t (i / 8 / pgSize)) c)
      ∧ Loading L m₁ (m.setFrame (bitmapFrame m t (i / 8 / pgSize)) c) t dir b
      ∧ ∀ j, j < 8 * userBitmapLen →
        bitAt (vaddrBitmap (m.setFrame (bitmapFrame m t (i / 8 / pgSize)) c) t) j
          = if j = i then true else bitAt (vaddrBitmap m t) j := by
  have hk := vaddrBits_page hi
  obtain ⟨hb, hbits⟩ := h.bits
  have haddr : b * pgSize + i / 8 = (b + i / 8 / pgSize) * pgSize + i / 8 % pgSize := by
    rw [pgSize]
    omega
  have hoff : (b * pgSize + i / 8) % pgSize = i / 8 % pgSize := by
    rw [pgSize]
    omega
  have hframe : m.frameAt ((m.tcb t).vaddrBits + i / 8)
      = .ok (bitmapFrame m t (i / 8 / pgSize)) := by
    rw [bitmapFrame, hbits, Nat.mul_div_cancel b (by norm_num [pgSize]), haddr]
    exact frameAt_kernel (le_trans hb (Nat.le_add_right _ _)) (Nat.mod_lt _ (by norm_num [pgSize]))
      ⟨h.present _ hk, rfl⟩
  have hload := h.setFrame (h.bitmap _ hk).1 (h.bitmap _ hk).2
    (Function.update (m.phys (bitmapFrame m t (i / 8 / pgSize))) (i / 8 % pgSize)
      (setBitAt (vaddrBitmap m t) i true (i / 8)))
  refine ⟨_, ?_, hload, fun j hj => ?_⟩
  · rw [Userprog.setVaddrBit, hframe, Outcome.ok_bind, hbits, hoff]
  · -- the byte of bit `j` is that of a bitmap in which bit `i` is set
    rw [← bitAt_setBitAt]
    refine bitAt_congr rfl ?_
    have hj := vaddrBits_page hj
    rw [hload.vaddrBitmap_eq]
    have hsame : bitmapFrame (m.setFrame (bitmapFrame m t (i / 8 / pgSize))
        (Function.update (m.phys (bitmapFrame m t (i / 8 / pgSize))) (i / 8 % pgSize)
          (setBitAt (vaddrBitmap m t) i true (i / 8)))) t (j / 8 / pgSize)
        = bitmapFrame m t (j / 8 / pgSize) := rfl
    rw [hsame, Machine.setFrame_phys]
    by_cases hpage : j / 8 / pgSize = i / 8 / pgSize
    · rw [hpage, Function.update_self]
      by_cases hbyte : j / 8 = i / 8
      · rw [hbyte, Function.update_self]
      · have hoff' : j / 8 % pgSize ≠ i / 8 % pgSize := by
          rw [pgSize] at hpage ⊢
          omega
        rw [Function.update_of_ne hoff', setBitAt_outside hbyte, h.vaddrBitmap_eq, hpage]
    · have hne : bitmapFrame m t (j / 8 / pgSize) ≠ bitmapFrame m t (i / 8 / pgSize) :=
        fun heq => hpage (h.bitmapInj _ _ hj hk heq)
      have hbyte : j / 8 ≠ i / 8 := fun heq => hpage (by rw [heq])
      rw [Function.update_of_ne hne, setBitAt_outside hbyte, h.vaddrBitmap_eq]

/-! ## Mapping a page -/

theorem Loading.grows (h : Loading L m₁ m t dir b) (hgrows : Grows L m₁ m m' dir)
    (hspace : Space L m₁ m' dir) : Loading L m₁ m' t dir b where
  layout := hgrows.layout
  space := hspace
  later pf g hg := h.later pf g (hgrows.free pf g hg)
  pgdir := by
    rw [hgrows.tcb]
    exact h.pgdir
  dirFrame_eq := by
    rw [dirFrame, hgrows.tcb, hgrows.kernelPte]
    exact h.dirFrame_eq
  cr3 := by
    rw [hgrows.cr3]
    exact h.cr3
  vaddrStart := by
    rw [hgrows.tcb]
    exact h.vaddrStart
  bits := by
    rw [hgrows.tcb]
    exact h.bits
  present := by
    rw [hgrows.kernelPte]
    exact h.present
  bitmap := by
    simp only [bitmapFrame, hgrows.tcb, hgrows.kernelPte]
    exact h.bitmap
  bitmapInj := by
    simp only [bitmapFrame, hgrows.tcb, hgrows.kernelPte]
    exact h.bitmapInj

/-- Mapping pages leaves the address bitmap alone. -/
theorem Loading.vaddrBitmap_grows (h : Loading L m₁ m t dir b) (hgrows : Grows L m₁ m m' dir)
    {a : Nat} (ha : a / pgSize < bitmapPgCnt) : vaddrBitmap m' t a = vaddrBitmap m t a := by
  have hbits' : (m'.tcb t).vaddrBits = b * pgSize := by
    rw [hgrows.tcb]
    exact h.bits.2
  obtain ⟨hused, hne⟩ := h.bitmap _ ha
  rw [bitmapFrame, h.bits.2, Nat.mul_div_cancel b (by norm_num [pgSize])] at hused hne
  rw [Userprog.vaddrBitmap_eq h.bits.2, Userprog.vaddrBitmap_eq hbits', hgrows.kernelPte,
    hgrows.phys _ hne fun hfree => hused ⟨_, hfree⟩]

/-- What mapping page `v` to the frame `f` does to the page tables and pools. -/
structure PageMapped (L : Layout) (m₁ m m' : Machine) (dir v f : Nat) : Prop where
  grows : Grows L m₁ m m' dir
  space : Space L m₁ m' dir
  page : ∀ v', v' < userPages → m'.userFrame dir v' = if v' = v then some f else m.userFrame dir v'
  table : ∀ d, d < 768 →
    (m'.tableFrame dir d = none ↔ m.tableFrame dir d = none ∧ d ≠ v / 1024)
  userPool : m'.pool .user = m.pool .user
  kernelCnt : freeCnt m' .kernel + (if m.tableFrame dir (v / 1024) = none then 1 else 0)
    = freeCnt m .kernel

/-- The page table is there. -/
theorem setEntry_mapped {tb : Nat} (hL : L.Of m) (hspace : Space L m₁ m dir) (hv : v < userPages)
    (hf : FreeIn L m₁ .user f) (hused : ¬ Free L m f)
    (hfresh : ∀ v', v' < userPages → m.userFrame dir v' ≠ some f)
    (ht : m.tableFrame dir (v / 1024) = some tb) :
    PageMapped L m₁ m (m.setWord tb (v % 1024) (Machine.entryOf (f * pgSize))) dir v f := by
  obtain ⟨hgrows, hspace', hpage⟩ := setEntry_spec hL hspace hv hf hused hfresh ht
  have hlt : v / 1024 < 768 := by
    rw [userPages] at hv
    omega
  have hne := hspace.table_ne_dir hlt ht
  refine ⟨hgrows, hspace', hpage, fun d _ => ?_, by rw [Machine.setWord, pool_setFrame], ?_⟩
  · have hsame : (m.setWord tb (v % 1024) (Machine.entryOf (f * pgSize))).tableFrame dir d
        = m.tableFrame dir d := by
      refine tableFrame_congr ?_ d
      rw [Machine.setWord, Machine.setFrame_phys, Function.update_of_ne hne.symm]
    rw [hsame]
    refine ⟨fun hnone => ⟨hnone, ?_⟩, And.left⟩
    rintro rfl
    rw [ht] at hnone
    cases hnone
  · have hsome : m.tableFrame dir (v / 1024) ≠ none := by
      rw [ht]
      exact Option.some_ne_none tb
    rw [if_neg hsome, Machine.setWord, freeCnt_congr (pool_setFrame ..), Nat.add_zero]

/-- `page_table_add` of a page that is not mapped, with a frame for the page
    table where there is none. -/
theorem addUserPage_ok (hL : L.Of m) (hspace : Space L m₁ m dir)
    (hlater : ∀ pf g, FreeIn L m pf g → FreeIn L m₁ pf g) (hv : v < userPages)
    (hf : FreeIn L m₁ .user f) (hused : ¬ Free L m f)
    (hfresh : ∀ v', v' < userPages → m.userFrame dir v' ≠ some f)
    (hnone : m.userFrame dir v = none)
    (hroom : m.tableFrame dir (v / 1024) = none → 0 < freeCnt m .kernel) :
    ∃ m', m.addUserPage dir (v * pgSize) (f * pgSize) = .ok m'
      ∧ PageMapped L m₁ m m' dir v f := by
  have hlt : v / 1024 < 768 := by
    rw [userPages] at hv
    omega
  rw [Machine.addUserPage, Machine.pdeIn, pdeIdx_page, pteIdx_page]
  by_cases hpde : Machine.present (m.word dir (v / 1024))
  · have ht : m.tableFrame dir (v / 1024) = some (Machine.frameOf (m.word dir (v / 1024))) :=
      if_pos hpde
    have habsent : ¬ Machine.present
        (m.word (Machine.frameOf (m.word dir (v / 1024))) (v % 1024)) := by
      intro hpte
      rw [Machine.userFrame, ht, Option.bind_some, Machine.entryFrame, if_pos hpte] at hnone
      cases hnone
    simp only [if_pos hpde, require_pos habsent, Outcome.ok_bind]
    exact ⟨_, rfl, setEntry_mapped hL hspace hv hf hused hfresh ht⟩
  · have hdnone : m.tableFrame dir (v / 1024) = none := if_neg hpde
    obtain ⟨r, m₂, hpalloc⟩ := palloc_ok (hroom hdnone)
    obtain ⟨tb, rfl, htb, htused, hgrows₂, hspace₂, htable₂, hpage₂⟩ := hspace.of_palloc hL hpalloc
    obtain ⟨-, hother, hcard⟩ := palloc_card hpalloc
    have hfresh₂ : ∀ d', d' < 768 → m₂.tableFrame dir d' ≠ some tb := by
      intro d' hd' ht'
      rw [htable₂] at ht'
      exact (hspace.table d' tb hd' ht').2 ⟨_, htb⟩
    have hne : dir ≠ tb := by
      rintro rfl
      exact hspace.dirUsed ⟨_, hlater _ _ htb⟩
    simp only [if_neg hpde, hpalloc, Outcome.ok_bind, Option.getD_some, frameOf_mul]
    generalize hm₃ : (m₂.setWord dir (v / 1024) (Machine.entryOf (tb * pgSize))).setFrame tb
      (fill ((m₂.setWord dir (v / 1024) (Machine.entryOf (tb * pgSize))).phys tb) 0 0 pgSize) = m₃
    have hzero : ¬ Machine.present (m₃.word tb (v % 1024)) := by
      rw [← hm₃, Machine.word_zeroed _ (Nat.mod_lt _ (by norm_num))]
      decide
    obtain ⟨hgrows₃, hspace₃, ht₃, hpage₃⟩ := newTable_spec hgrows₂.layout hspace₂ hlt
      (hlater _ _ htb) htused hfresh₂ ((htable₂ _).trans hdnone) hm₃.symm
    have hpool₃ : m₃.pool = m₂.pool := by
      rw [← hm₃, pool_setFrame, Machine.setWord, pool_setFrame]
    have htable₃ : ∀ d, m₃.tableFrame dir d
        = if d = v / 1024 then some tb else m.tableFrame dir d := by
      intro d
      rw [← htable₂ d, ← tableFrame_setWord htb.lt, ← hm₃]
      refine tableFrame_congr ?_ d
      rw [Machine.setFrame_phys, Function.update_of_ne hne]
    have hfresh₃ := fun v' (hv' : v' < userPages) =>
      (((hpage₃ v' hv').trans (hpage₂ v')).trans_ne (hfresh v' hv'))
    have hmap := setEntry_mapped hgrows₃.layout hspace₃ hv hf
      (hgrows₃.used (hgrows₂.used hused)) hfresh₃ ht₃
    rw [require_pos hzero, Outcome.ok_bind]
    refine ⟨_, rfl, (hgrows₂.trans hgrows₃).trans hmap.grows, hmap.space, fun v' hv' => ?_,
      fun d hd => ?_, ?_, ?_⟩
    · rw [hmap.page v' hv', hpage₃ v' hv', hpage₂]
    · rw [hmap.table d hd, htable₃ d]
      by_cases hdv : d = v / 1024
      · simp [hdv]
      · simp [hdv]
    · rw [hmap.userPool, hpool₃, hother .user (by decide)]
    · have hcnt := hmap.kernelCnt
      have hsome : m₃.tableFrame dir (v / 1024) ≠ none := by
        rw [ht₃]
        exact Option.some_ne_none tb
      rw [if_neg hsome, freeCnt_congr hpool₃] at hcnt
      rw [if_pos hdnone]
      omega

/-! ## get_a_page in user space -/

/-- From `m` to `m'` page `v` of the process was mapped to the free frame `f` and
    marked. -/
structure PageAdded (L : Layout) (m m' : Machine) (t dir v f : Nat) : Prop where
  free : FreeIn L m .user f
  userFree : ∀ g, FreeIn L m' .user g ↔ FreeIn L m .user g ∧ g ≠ f
  userCnt : freeCnt m' .user + 1 = freeCnt m .user
  kernelCnt : freeCnt m' .kernel + (if m.tableFrame dir (v / 1024) = none then 1 else 0)
    = freeCnt m .kernel
  page : ∀ v', v' < userPages → pageFrame m' t v' = if v' = v then some f else pageFrame m t v'
  table : ∀ d, d < 768 →
    (m'.tableFrame dir d = none ↔ m.tableFrame dir d = none ∧ d ≠ v / 1024)
  phys : ∀ v' g, v' < userPages → pageFrame m t v' = some g → m'.phys g = m.phys g
  marks : ∀ j, j < 8 * userBitmapLen → bitAt (vaddrBitmap m' t) j
    = if j = v - userVaddrStart / pgSize then true else bitAt (vaddrBitmap m t) j
  kernelPte : m'.kernelPte = m.kernelPte
  tcb : m'.tcb = m.tcb
  cr3 : m'.cr3 = m.cr3

theorem bitIdxOf_page (hlow : userVaddrStart / pgSize ≤ v) (hv : v < userPages) :
    bitIdxOf (v * pgSize) userVaddrStart = v - userVaddrStart / pgSize := by
  rw [userPages] at hv
  rw [bitIdxOf, userVaddrStart, pgSize] at *
  omega

theorem Loading.tableFrame_setFrame (hne : f ≠ dir) (c : Mem) (d : Nat) :
    (m.setFrame f c).tableFrame dir d = m.tableFrame dir d := by
  refine tableFrame_congr ?_ d
  rw [Machine.setFrame_phys, Function.update_of_ne hne.symm]

theorem Loading.userFrame_setFrame (h : Loading L m₁ m t dir b) (hf : ¬ Free L m₁ f)
    (hne : f ≠ dir) (c : Mem) (hv : v < userPages) :
    (m.setFrame f c).userFrame dir v = m.userFrame dir v := by
  rw [userPages] at hv
  refine userFrame_congr ?_ fun g hg => ?_
  · rw [Machine.setFrame_phys, Function.update_of_ne hne.symm]
  · have hgf : g ≠ f := by
      rintro rfl
      exact hf ⟨_, (h.space.table _ g (by omega) hg).1⟩
    rw [Machine.setFrame_phys, Function.update_of_ne hgf]

/-- A page that is not the first of user space is added while there are
    frames. -/
theorem Loading.getAPage (h : Loading L m₁ m t dir b) (hlow : userVaddrStart / pgSize < v)
    (hv : v < userPages) (hnone : pageFrame m t v = none) (huser : 0 < freeCnt m .user)
    (hroom : m.tableFrame dir (v / 1024) = none → 0 < freeCnt m .kernel) :
    ∃ m' f, getAPage m t .user (v * pgSize) = .ok (some (v * pgSize), m')
      ∧ Loading L m₁ m' t dir b ∧ PageAdded L m m' t dir v f := by
  have hidx := bitIdxOf_page (Nat.le_of_lt hlow) hv
  have hlen : v - userVaddrStart / pgSize < 8 * userBitmapLen := by
    have : userBitmapLen = 94199 := by decide
    rw [userPages] at hv
    rw [userVaddrStart, pgSize] at hlow ⊢
    omega
  -- the bit of the page
  obtain ⟨c, hset, hload₂, hmarks⟩ := h.setVaddrBit hlen
  obtain ⟨hbused, hbne⟩ := h.bitmap _ (vaddrBits_page hlen)
  generalize hbf : bitmapFrame m t ((v - userVaddrStart / pgSize) / 8 / pgSize) = bf at *
  have hmark : markVaddr m t .user (v * pgSize) = .ok (m.setFrame bf c) := by
    rw [markVaddr, if_pos ⟨h.pgdir, rfl⟩, h.vaddrStart, hidx]
    dsimp only
    rw [require_pos (by omega), Outcome.ok_bind, hset]
  have hpage₂ := fun v' (hv' : v' < userPages) => h.userFrame_setFrame hbused hbne c hv'
  have htable₂ := Loading.tableFrame_setFrame (m := m) hbne c
  have hcnt₂ := freeCnt_congr (pool_setFrame m bf c)
  -- a frame for it
  have huser₂ : 0 < freeCnt (m.setFrame bf c) .user := by
    rw [hcnt₂]
    exact huser
  obtain ⟨r, m₃, hpalloc⟩ := palloc_ok huser₂
  obtain ⟨f, rfl, hf, hfused, hgrows₃, hspace₃, htable₃, hpage₃⟩ :=
    hload₂.space.of_palloc hload₂.layout hpalloc
  obtain ⟨-, hother, hcard⟩ := palloc_card hpalloc
  obtain ⟨f', hf', -, -, -, hfree⟩ := palloc_spec hload₂.layout hpalloc
  have hff : f' = f := (Nat.eq_of_mul_eq_mul_right (by norm_num [pgSize]) (Option.some.inj hf')).symm
  subst hff
  have hload₃ := hload₂.grows hgrows₃ hspace₃
  have hpf₃ : ∀ v', v' < userPages → m₃.userFrame dir v' = m.userFrame dir v' :=
    fun v' hv' => (hpage₃ v').trans (hpage₂ v' hv')
  have htf₃ : ∀ d, m₃.tableFrame dir d = m.tableFrame dir d :=
    fun d => (htable₃ d).trans (htable₂ d)
  have hkernel₃ : freeCnt m₃ .kernel = freeCnt m .kernel := by
    rw [freeCnt, hother .kernel (by decide), ← freeCnt, hcnt₂]
  have hfresh : ∀ v', v' < userPages → m₃.userFrame dir v' ≠ some f' := by
    intro v' hv' hsome
    rw [hpage₃] at hsome
    exact (hload₂.space.page v' f' hv' hsome).2 ⟨_, hf⟩
  rw [h.pageFrame_eq] at hnone
  obtain ⟨m', hadd, hmap⟩ := addUserPage_ok hload₃.layout hspace₃ hload₃.later hv
    (hload₂.later _ _ hf) hfused hfresh ((hpf₃ v hv).trans hnone)
    (fun hd => by rw [hkernel₃]; exact hroom ((htf₃ _).symm.trans hd))
  have hload := hload₃.grows hmap.grows hmap.space
  have hgrows := hgrows₃.trans hmap.grows
  refine ⟨m', f', ?_, hload, ⟨hf, fun g => ?_, ?_, ?_, fun v' hv' => ?_, fun d hd => ?_,
    fun v' g hv' hg => ?_, fun j hj => ?_, ?_, ?_, ?_⟩⟩
  · have hlowAddr : ¬ kernelStart ≤ v * pgSize := by
      rw [userPages] at hv
      rw [kernelStart, pgSize]
      omega
    rw [Userprog.getAPage, hmark, Outcome.ok_bind, hpalloc, Outcome.ok_bind]
    dsimp only
    rw [Machine.pageTableAdd, if_neg hlowAddr, hload₃.cr3, frameOf_mul, hadd, Outcome.ok_bind]
  · rw [show FreeIn L m' .user g ↔ FreeIn L m₃ .user g by unfold FreeIn; rw [hmap.userPool],
      hfree .user g]
    rfl
  · rw [show freeCnt m' .user = freeCnt m₃ .user by rw [freeCnt, hmap.userPool, freeCnt], hcard,
      hcnt₂]
  · have hk := hmap.kernelCnt
    rw [htf₃, hkernel₃] at hk
    exact hk
  · rw [hload.pageFrame_eq, h.pageFrame_eq, hmap.page v' hv', hpf₃ v' hv']
  · rw [hmap.table d hd, htf₃]
  · rw [h.pageFrame_eq] at hg
    obtain ⟨hguser, -⟩ := h.space.page v' g hv' hg
    have hgdir : g ≠ dir := by
      rintro rfl
      exact h.space.dirUsed ⟨_, hguser⟩
    have hgbf : g ≠ bf := by
      rintro rfl
      exact hbused ⟨_, hguser⟩
    rw [hgrows.phys g hgdir fun hk => absurd (hguser.pool_eq hk) (by decide),
      Machine.setFrame_phys, Function.update_of_ne hgbf]
  · rw [← hmarks j hj]
    refine bitAt_congr rfl ?_
    exact hload₂.vaddrBitmap_grows hgrows (vaddrBits_page hj)
  · rw [hgrows.kernelPte]
    rfl
  · rw [hgrows.tcb]
    rfl
  · rw [hgrows.cr3]
    rfl

/-! ## The loop -/

theorem mem_missingPages {S : Finset Nat} :
    v ∈ missingPages m t S ↔ v ∈ S ∧ pageFrame m t v = none := by
  rw [missingPages, Finset.mem_filter]

theorem mem_missingTables {S : Finset Nat} {d : Nat} : d ∈ missingTables m t S
    ↔ (∃ v, v ∈ S ∧ pageFrame m t v = none ∧ v / 1024 = d)
      ∧ m.tableFrame (dirFrame m t) d = none := by
  simp only [missingTables, Finset.mem_filter, Finset.mem_image, mem_missingPages, and_assoc]

variable {S S' : Finset Nat}

theorem Loading.nothing (h : Loading L m₁ m t dir b) : PagesMapped L m m t ∅ where
  mapped v hv := absurd hv (Finset.notMem_empty v)
  kept _ _ _ hf := ⟨hf, rfl⟩
  outside _ _ _ := rfl
  fresh v _ hv := absurd hv (Finset.notMem_empty v)
  distinct v v' f hv hv' hf hf' := by
    rw [h.pageFrame_eq] at hf hf'
    exact h.space.pageInj v v' f hv hv' hf hf'
  taken _ hf := .inl hf
  marks v _ _ := ⟨.inl, fun hor => hor.resolve_right fun hin => Finset.notMem_empty v hin.1⟩
  kernelPte := rfl
  tcb := rfl
  cr3 := rfl

/-- A page that is there is passed over. -/
theorem PagesMapped.skip (h : PagesMapped L m m' t S') (hS : ∀ w, w ∈ S ↔ w = v ∨ w ∈ S')
    (hv : v < userPages) (hsome : pageFrame m t v ≠ none) : PagesMapped L m m' t S := by
  obtain ⟨f, hf⟩ := Option.ne_none_iff_exists'.1 hsome
  have hmiss : ∀ w, pageFrame m t w = none → (w ∈ S ↔ w ∈ S') := by
    intro w hw
    rw [hS w, or_iff_right]
    rintro rfl
    exact hsome hw
  refine ⟨fun w hw => ?_, h.kept, fun w hw hout => h.outside w hw fun hin => hout ((hS w).2 (.inr hin)),
    fun w g hw hnone => h.fresh w g ((hmiss w hnone).1 hw) hnone, h.distinct, fun g hg => ?_,
    fun w hlow hw => ?_, h.kernelPte, h.tcb, h.cr3⟩
  · rcases (hS w).1 hw with rfl | hw
    · rw [(h.kept w f hv hf).1]
      exact Option.some_ne_none f
    · exact h.mapped w hw
  · rcases h.taken g hg with hfree | ⟨w, hw, hnone, hg⟩
    · exact .inl hfree
    · exact .inr ⟨w, (hmiss w hnone).2 hw, hnone, hg⟩
  · rw [h.marks w hlow hw]
    refine or_congr_right ⟨fun hin => ⟨(hmiss w hin.2).2 hin.1, hin.2⟩,
      fun hin => ⟨(hmiss w hin.2).1 hin.1, hin.2⟩⟩

/-- A page is added, and then the rest. -/
theorem PagesMapped.add {m₂ : Machine} (h : PagesMapped L m₂ m' t S')
    (hadd : PageAdded L m m₂ t dir v f) (hload : Loading L m₁ m' t dir b)
    (hS : ∀ w, w ∈ S ↔ w = v ∨ w ∈ S') (hnot : v ∉ S') (hlow : userVaddrStart / pgSize ≤ v)
    (hlt : ∀ w, w ∈ S → w < userPages) (hnone : pageFrame m t v = none) :
    PagesMapped L m m' t S := by
  have hv := hlt v ((hS v).2 (.inl rfl))
  have hother : ∀ w, w < userPages → w ≠ v → pageFrame m₂ t w = pageFrame m t w := by
    intro w hw hne
    rw [hadd.page w hw, if_neg hne]
  have hself : pageFrame m₂ t v = some f := by
    rw [hadd.page v hv, if_pos rfl]
  have hself' := (h.kept v f hv hself).1
  have hused : ¬ Free L m' f := by
    rw [hload.pageFrame_eq] at hself'
    exact (hload.space.page v f hv hself').2
  refine ⟨fun w hw => ?_, fun w g hw hg => ?_, fun w hw hout => ?_, fun w g hw hwnone hg => ?_,
    h.distinct, fun g hg => ?_, fun w hwlow hw => ?_, h.kernelPte.trans hadd.kernelPte,
    h.tcb.trans hadd.tcb, h.cr3.trans hadd.cr3⟩
  · rcases (hS w).1 hw with rfl | hw
    · rw [hself']
      exact Option.some_ne_none f
    · exact h.mapped w hw
  · have hne : w ≠ v := by
      rintro rfl
      rw [hnone] at hg
      cases hg
    obtain ⟨hg', hphys⟩ := h.kept w g hw ((hother w hw hne).trans hg)
    exact ⟨hg', hphys.trans (hadd.phys w g hw hg)⟩
  · have hne : w ≠ v := fun heq => hout ((hS w).2 (.inl heq))
    rw [h.outside w hw fun hin => hout ((hS w).2 (.inr hin)), hother w hw hne]
  · by_cases hwv : w = v
    · subst hwv
      rw [hself'] at hg
      cases hg
      exact ⟨hadd.free, hused⟩
    · have hwS' := ((hS w).1 hw).resolve_left hwv
      obtain ⟨hfree, hgused⟩ := h.fresh w g hwS' ((hother w (hlt w hw) hwv).trans hwnone) hg
      exact ⟨((hadd.userFree g).1 hfree).1, hgused⟩
  · by_cases hgf : g = f
    · subst hgf
      exact .inr ⟨v, (hS v).2 (.inl rfl), hnone, hself'⟩
    · rcases h.taken g ((hadd.userFree g).2 ⟨hg, hgf⟩) with hfree | ⟨w, hw, hwnone, hwg⟩
      · exact .inl hfree
      · have hwv : w ≠ v := fun heq => hnot (heq ▸ hw)
        have hwS := (hS w).2 (.inr hw)
        rw [hother w (hlt w hwS) hwv] at hwnone
        exact .inr ⟨w, hwS, hwnone, hwg⟩
  · have hlen : w - userVaddrStart / pgSize < 8 * userBitmapLen := by
      have : userBitmapLen = 94199 := by decide
      rw [userPages] at hw
      rw [userVaddrStart, pgSize] at hwlow ⊢
      omega
    rw [h.marks w hwlow hw, hadd.marks _ hlen]
    by_cases hwv : w = v
    · subst hwv
      simp [hnone, (hS w).2 (.inl rfl)]
    · have hidx : w - userVaddrStart / pgSize ≠ v - userVaddrStart / pgSize := by
        omega
      rw [if_neg hidx, hother w hw hwv, hS w, or_iff_right hwv]

/-- After a page was added, the rest needs one frame fewer, and one page table
    fewer if one was taken. -/
theorem PageAdded.missing {m₂ : Machine} (hadd : PageAdded L m m₂ t dir v f)
    (h : Loading L m₁ m t dir b) (hload : Loading L m₁ m₂ t dir b)
    (hS : ∀ w, w ∈ S ↔ w = v ∨ w ∈ S') (hnot : v ∉ S') (hlt : ∀ w, w ∈ S → w < userPages)
    (hnone : pageFrame m t v = none) :
    (missingPages m₂ t S').card + 1 ≤ (missingPages m t S).card
      ∧ (missingTables m₂ t S').card + (if m.tableFrame dir (v / 1024) = none then 1 else 0)
        ≤ (missingTables m t S).card := by
  have hother : ∀ w, w ∈ S' → pageFrame m₂ t w = pageFrame m t w := by
    intro w hw
    have hne : w ≠ v := fun heq => hnot (heq ▸ hw)
    rw [hadd.page w (hlt w ((hS w).2 (.inr hw))), if_neg hne]
  have hvS : v ∈ S := (hS v).2 (.inl rfl)
  constructor
  · have hsub : missingPages m₂ t S' ⊆ (missingPages m t S).erase v := by
      intro w hw
      obtain ⟨hw, hwnone⟩ := mem_missingPages.1 hw
      rw [hother w hw] at hwnone
      refine Finset.mem_erase.2 ⟨fun heq => hnot (heq ▸ hw), ?_⟩
      exact mem_missingPages.2 ⟨(hS w).2 (.inr hw), hwnone⟩
    have hcard := Finset.card_le_card hsub
    rw [Finset.card_erase_of_mem (mem_missingPages.2 ⟨hvS, hnone⟩)] at hcard
    have hpos := Finset.card_pos.2 ⟨v, mem_missingPages.2 ⟨hvS, hnone⟩⟩
    omega
  · have hsub : missingTables m₂ t S' ⊆ (missingTables m t S).erase (v / 1024) := by
      intro d hd
      obtain ⟨⟨w, hw, hwnone, rfl⟩, hdnone⟩ := mem_missingTables.1 hd
      have hwlt := hlt w ((hS w).2 (.inr hw))
      rw [userPages] at hwlt
      rw [hload.dirFrame_eq, hadd.table _ (by omega)] at hdnone
      rw [hother w hw] at hwnone
      refine Finset.mem_erase.2 ⟨hdnone.2, mem_missingTables.2 ⟨⟨w, (hS w).2 (.inr hw), hwnone, rfl⟩, ?_⟩⟩
      rw [h.dirFrame_eq]
      exact hdnone.1
    have hcard := Finset.card_le_card hsub
    by_cases hd : m.tableFrame dir (v / 1024) = none
    · have hmem : v / 1024 ∈ missingTables m t S := by
        refine mem_missingTables.2 ⟨⟨v, hvS, hnone, rfl⟩, ?_⟩
        rw [h.dirFrame_eq]
        exact hd
      rw [Finset.card_erase_of_mem hmem] at hcard
      have hpos := Finset.card_pos.2 ⟨_, hmem⟩
      rw [if_pos hd]
      omega
    · rw [if_neg hd]
      exact hcard.trans (Finset.card_le_card (Finset.erase_subset _ _))

/-- The loop of `segment_load`: it does not reach the first page of user space
    missing. -/
theorem Loading.segmentPages {left : Nat} (h : Loading L m₁ m t dir b)
    (hlow : userVaddrStart / pgSize ≤ v) (hend : v + left ≤ userPages)
    (hfirst : v = userVaddrStart / pgSize → 0 < left → pageFrame m t v ≠ none)
    (huser : (missingPages m t (Finset.Ico v (v + left))).card ≤ freeCnt m .user)
    (hkernel : (missingTables m t (Finset.Ico v (v + left))).card ≤ freeCnt m .kernel) :
    ∃ m', segmentPages t left (v * pgSize) m = .ok (true, m') ∧ Loading L m₁ m' t dir b
      ∧ PagesMapped L m m' t (Finset.Ico v (v + left)) := by
  induction left generalizing v m with
  | zero =>
      rw [Nat.add_zero, Finset.Ico_self]
      exact ⟨m, rfl, h, h.nothing⟩
  | succ left ih =>
      have hS : ∀ w, w ∈ Finset.Ico v (v + (left + 1)) ↔ w = v ∨ w ∈ Finset.Ico (v + 1) (v + 1 + left) := by
        intro w
        simp only [Finset.mem_Ico]
        omega
      have hnot : v ∉ Finset.Ico (v + 1) (v + 1 + left) := by simp
      have hlt : ∀ w, w ∈ Finset.Ico v (v + (left + 1)) → w < userPages := by
        intro w hw
        have := (Finset.mem_Ico.1 hw).2
        omega
      have hv : v < userPages := by omega
      have hnext : (v * pgSize + pgSize) % 2 ^ 32 = (v + 1) * pgSize := by
        rw [userPages] at hv
        rw [pgSize]
        omega
      have hsub : Finset.Ico (v + 1) (v + 1 + left) ⊆ Finset.Ico v (v + (left + 1)) :=
        fun w hw => (hS w).2 (.inr hw)
      rw [Userprog.segmentPages, hnext]
      by_cases hnone : pageFrame m t v = none
      · have hvlow : userVaddrStart / pgSize < v := by
          rcases Nat.lt_or_eq_of_le hlow with hlt | heq
          · exact hlt
          · exact absurd hnone (hfirst heq.symm (Nat.succ_pos left))
        have hmiss : v ∈ missingPages m t (Finset.Ico v (v + (left + 1))) :=
          mem_missingPages.2 ⟨(hS v).2 (.inl rfl), hnone⟩
        have hpos : 0 < freeCnt m .user := (Finset.card_pos.2 ⟨v, hmiss⟩).trans_le huser
        have hroom : m.tableFrame dir (v / 1024) = none → 0 < freeCnt m .kernel := by
          intro hd
          refine lt_of_lt_of_le (Finset.card_pos.2 ⟨v / 1024, ?_⟩) hkernel
          refine mem_missingTables.2 ⟨⟨v, (hS v).2 (.inl rfl), hnone, rfl⟩, ?_⟩
          rw [h.dirFrame_eq]
          exact hd
        obtain ⟨m₂, f, hget, hload₂, hadd⟩ := h.getAPage hvlow hv hnone hpos hroom
        obtain ⟨hpages, htables⟩ := hadd.missing h hload₂ hS hnot hlt hnone
        have hcntUser := hadd.userCnt
        have hcntKernel := hadd.kernelCnt
        have huser₂ : (missingPages m₂ t (Finset.Ico (v + 1) (v + 1 + left))).card
            ≤ freeCnt m₂ .user := by
          omega
        have hkernel₂ : (missingTables m₂ t (Finset.Ico (v + 1) (v + 1 + left))).card
            ≤ freeCnt m₂ .kernel := by
          omega
        obtain ⟨m', hrest, hload', hmapped⟩ := ih hload₂ (by omega) (by omega) (by omega)
          huser₂ hkernel₂
        have hzero : ¬ v * pgSize = 0 := by
          rw [userVaddrStart, pgSize] at hvlow
          rw [pgSize]
          omega
        rw [if_pos (h.pageMissing_iff.2 hnone), hget, Outcome.ok_bind]
        dsimp only
        rw [Option.getD_some, if_neg hzero]
        exact ⟨m', hrest, hload', hmapped.add hadd hload' hS hnot hlow hlt hnone⟩
      · rw [if_neg fun hmissing => hnone (h.pageMissing_iff.1 hmissing)]
        have hpages : missingPages m t (Finset.Ico (v + 1) (v + 1 + left))
            ⊆ missingPages m t (Finset.Ico v (v + (left + 1))) :=
          Finset.filter_subset_filter _ hsub
        have htables : missingTables m t (Finset.Ico (v + 1) (v + 1 + left))
            ⊆ missingTables m t (Finset.Ico v (v + (left + 1))) :=
          Finset.filter_subset_filter _ (Finset.image_subset_image hpages)
        obtain ⟨m', hrest, hload', hmapped⟩ := ih h (by omega) (by omega) (by omega)
          ((Finset.card_le_card hpages).trans huser) ((Finset.card_le_card htables).trans hkernel)
        exact ⟨m', hrest, hload', hmapped.skip hS hv hnone⟩

/-! ## Loading a segment -/

/-- `segment_load` comes to reading the file with all pages of the segment mapped. -/
def MapsSegment (L : Layout) (m : Machine) (t filesz vaddr : Nat) : Prop :=
  ∃ m', segmentMap t filesz vaddr m = .ok (true, m')
    ∧ PagesMapped L m m' t (segmentPageSet vaddr filesz)

/-- The segment lies on the first page of user space, which is not mapped. -/
def OnMissingFirstPage (m : Machine) (t vaddr : Nat) : Prop :=
  vaddr / pgSize = userVaddrStart / pgSize ∧ pageFrame m t (vaddr / pgSize) = none

theorem segmentPageSet_eq {vaddr filesz : Nat} (hsize : 1 ≤ filesz)
    (hend : vaddr + filesz ≤ userStack3Vaddr) : segmentPageSet vaddr filesz
      = Finset.Ico (vaddr / pgSize) (vaddr / pgSize + occupyPages filesz vaddr) := by
  ext w
  rw [segmentPageSet, Finset.mem_filter, Finset.mem_range, Finset.mem_Ico,
    ← overlaps_iff hsize hend, and_iff_right_iff_imp]
  intro hover
  have hlt := hover.1
  rw [userStack3Vaddr, kernelStart, pgSize] at hend
  rw [pgSize] at hlt
  rw [userPages]
  omega

theorem occupyPages_pos (filesz vaddr : Nat) : 0 < occupyPages filesz vaddr := by
  unfold occupyPages
  dsimp only
  split <;> omega

/-- `get_a_page` stops the kernel at the first page of user space. -/
theorem Loading.segmentMap_first (h : Loading L m₁ m t dir b) {vaddr : Nat}
    (hfirst : OnMissingFirstPage m t vaddr) (filesz : Nat) :
    segmentMap t filesz vaddr m = .error .assertFailed := by
  obtain ⟨hpage, hnone⟩ := hfirst
  obtain ⟨left, hleft⟩ := Nat.exists_eq_add_of_le' (occupyPages_pos filesz vaddr)
  have hlow : userVaddrStart / pgSize ≤ vaddr / pgSize := hpage.ge
  have hv : vaddr / pgSize < userPages := by
    rw [hpage, userPages, userVaddrStart, pgSize]
    decide
  have hget : Userprog.getAPage m t .user (vaddr / pgSize * pgSize) = .error .assertFailed := by
    rw [Userprog.getAPage, markVaddr, if_pos ⟨h.pgdir, rfl⟩, h.vaddrStart, bitIdxOf_page hlow hv, hpage,
      Nat.sub_self]
    rfl
  rw [segmentMap, hleft, Userprog.segmentPages, if_pos (h.pageMissing_iff.2 hnone), hget,
    Outcome.error_bind]

/-- With frames for its pages and page tables a segment is mapped, unless it lies
    on the first page of user space and that is missing. -/
theorem mapsSegment_iff {L : Layout} {m : Machine} {t filesz vaddr : Nat} (hL : L.Of m)
    (h : AddressSpace L m t) (hlow : userVaddrStart ≤ vaddr) (hsize : 1 ≤ filesz)
    (hend : vaddr + filesz ≤ userStack3Vaddr)
    (huser : (missingPages m t (segmentPageSet vaddr filesz)).card ≤ freeCnt m .user)
    (hkernel : (missingTables m t (segmentPageSet vaddr filesz)).card ≤ freeCnt m .kernel) :
    MapsSegment L m t filesz vaddr ↔ ¬ OnMissingFirstPage m t vaddr := by
  obtain ⟨m₁, b, hload⟩ := h.loading hL
  have hset := segmentPageSet_eq hsize hend
  rw [hset] at huser hkernel
  have hpos := occupyPages_pos filesz vaddr
  have hlowPage : userVaddrStart / pgSize ≤ vaddr / pgSize := Nat.div_le_div_right hlow
  constructor
  · rintro ⟨m', hcall, -⟩ hfirst
    rw [hload.segmentMap_first hfirst] at hcall
    cases hcall
  · intro hfirst
    have hlast : vaddr / pgSize + occupyPages filesz vaddr ≤ userPages := by
      have hover : Overlaps vaddr filesz (vaddr / pgSize + occupyPages filesz vaddr - 1) :=
        (overlaps_iff hsize hend).2 ⟨Nat.le_sub_one_of_lt (Nat.lt_add_of_pos_right hpos),
          Nat.sub_lt (Nat.add_pos_right _ hpos) Nat.one_pos⟩
      have hlt := hover.1
      rw [userStack3Vaddr, kernelStart, pgSize] at hend
      rw [pgSize] at hlt ⊢
      rw [userPages]
      omega
    obtain ⟨m', hpages, -, hmapped⟩ := hload.segmentPages hlowPage hlast
      (fun heq _ hnone => hfirst ⟨heq, hnone⟩) huser hkernel
    exact ⟨m', hpages, hset ▸ hmapped⟩

theorem missingPages_card_le (m : Machine) (t : Nat) (S : Finset Nat) :
    (missingPages m t S).card ≤ S.card := Finset.card_filter_le S _

theorem missingTables_card_le (m : Machine) (t : Nat) (S : Finset Nat) :
    (missingTables m t S).card ≤ S.card :=
  (Finset.card_filter_le _ _).trans (Finset.card_image_le.trans (missingPages_card_le m t S))

/-- Machines like `oneProc`, of which pages may be missing. -/
theorem oneProc_addressSpace {m : Machine} (hpte : m.kernelPte = oneProc.kernelPte)
    (htcb : m.tcb = oneProc.tcb) (hcr3 : m.cr3 = oneProc.cr3) (hpool : m.pool = oneProc.pool)
    (htable : ∀ d f, m.tableFrame 0x201 d = some f → oneProc.tableFrame 0x201 d = some f)
    (hpage : ∀ v f, pageFrame m oneProcPcb v = some f → pageFrame oneProc oneProcPcb v = some f) :
    AddressSpace oneProcLayout m oneProcPcb := by
  have hcnt : bitmapPgCnt = 23 := by decide
  have hdir : dirFrame m oneProcPcb = 0x201 := by
    rw [dirFrame, htcb, hpte]
    decide
  have htables : ∀ d f, oneProc.tableFrame 0x201 d = some f →
      d = 32 ∧ f = 0x219 ∨ d = 33 ∧ f = 0x21A := by
    intro d f hf
    rw [oneProc_tableFrame] at hf
    split at hf
    · exact .inr ⟨by assumption, (Option.some.inj hf).symm⟩
    · split at hf
      · exact .inl ⟨by assumption, (Option.some.inj hf).symm⟩
      · cases hf
  have hpages : ∀ v f, pageFrame oneProc oneProcPcb v = some f →
      v = 0x8048 ∧ f = 0x240 ∨ v = 0x8400 ∧ f = 0x241 := by
    intro v f hf
    rw [oneProc_pageFrame] at hf
    split at hf
    · exact .inl ⟨by assumption, (Option.some.inj hf).symm⟩
    · split at hf
      · exact .inr ⟨by assumption, (Option.some.inj hf).symm⟩
      · cases hf
  have hbitmap : ∀ k, k < 23 → bitmapFrame m oneProcPcb k = 0x202 + k := by
    intro k hk
    have hb : (oneProc.tcb oneProcPcb).vaddrBits / pgSize = 0xC0102 := by decide
    rw [bitmapFrame, htcb, hpte, hb, oneProc_bitmapPte hk, frameOf_entryOf]
  have hused : ∀ f, 0x200 ≤ f → f < 0x220 → ¬ Free oneProcLayout m f := by
    rintro f hlow hhigh ⟨pf, hfree⟩
    refine oneProc_used hlow hhigh ⟨pf, ?_⟩
    unfold FreeIn at hfree ⊢
    rwa [hpool] at hfree
  have hkernel : ∀ f, 0x200 ≤ f → f < 0x220 → InPool oneProcLayout .kernel f := by
    intro f hlow hhigh
    refine ⟨f - 0x200, ?_, ?_⟩ <;> simp only [oneProcLayout, Layout.base, Layout.len] <;> omega
  refine ⟨?_, ?_, ?_, ⟨0xC0102, by decide, ?_, fun k hk => ?_⟩, ?_, fun k hk => ?_,
    fun k l hk hl heq => ?_, fun d f _ hf => ?_, fun d d' f _ _ hf hf' => ?_, fun v f _ hf => ?_,
    fun v v' f _ _ hf hf' => ?_⟩
  · rw [htcb]
    decide
  · rw [hcr3, hdir]
    rfl
  · rw [htcb]
    rfl
  · rw [htcb]
    rfl
  · rw [hcnt] at hk
    rw [hpte, oneProc_bitmapPte hk]
    exact present_entryOf _
  · rw [hdir]
    exact ⟨hkernel _ (by decide) (by decide), hused _ (by decide) (by decide)⟩
  · rw [hcnt] at hk
    rw [hbitmap k hk, hdir]
    exact ⟨hkernel _ (by omega) (by omega), hused _ (by omega) (by omega), by omega⟩
  · rw [hcnt] at hk hl
    rw [hbitmap k hk, hbitmap l hl] at heq
    omega
  · rw [hdir] at hf ⊢
    have hframe : f = 0x219 ∨ f = 0x21A := by
      obtain ⟨-, rfl⟩ | ⟨-, rfl⟩ := htables d f (htable d f hf)
      · exact .inl rfl
      · exact .inr rfl
    refine ⟨hkernel _ (by omega) (by omega), hused _ (by omega) (by omega), by omega,
      fun k hk => ?_⟩
    rw [hcnt] at hk
    rw [hbitmap k hk]
    omega
  · rw [hdir] at hf hf'
    have hd := htables d f (htable d f hf)
    have hd' := htables d' f (htable d' f hf')
    omega
  · obtain ⟨hlow, hhigh, hfree⟩ := oneProc_pageUsed (hpage v f hf)
    refine ⟨⟨f - 0x240, ?_, ?_⟩, fun hm => hfree ?_⟩
    · simp only [oneProcLayout, Layout.len]
      omega
    · simp only [oneProcLayout, Layout.base]
      omega
    · obtain ⟨pf, hm⟩ := hm
      refine ⟨pf, ?_⟩
      unfold FreeIn at hm ⊢
      rwa [hpool] at hm
  · have hv := hpages v f (hpage v f hf)
    have hv' := hpages v' f (hpage v' f hf')
    omega

/-- A segment that begins on the mapped page 0x8048 and ends on the next. -/
theorem mapsSegment_iff_second :
    MapsSegment oneProcLayout oneProc oneProcPcb 0x200 0x8048F00 := by
  have hspace : AddressSpace oneProcLayout oneProc oneProcPcb :=
    oneProc_addressSpace rfl rfl rfl rfl (fun _ _ hf => hf) fun _ _ hf => hf
  have hset : (segmentPageSet 0x8048F00 0x200).card = 2 := by
    rw [segmentPageSet_eq (by decide) (by decide), Nat.card_Ico]
    decide
  have huser : 2 ≤ freeCnt oneProc .user := by decide +kernel
  have hkernel : 2 ≤ freeCnt oneProc .kernel := by decide +kernel
  refine (mapsSegment_iff oneProc_of hspace (by decide) (by decide) (by decide) ?_ ?_).2 ?_
  · exact (missingPages_card_le ..).trans (hset.trans_le huser)
  · exact (missingTables_card_le ..).trans (hset.trans_le hkernel)
  · rintro ⟨-, hnone⟩
    rw [show 0x8048F00 / pgSize = 0x8048 by decide, oneProc_pageFrame, if_pos rfl] at hnone
    cases hnone

end Userprog
end JackOS
