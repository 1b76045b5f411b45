/-
  JackOS.Kernel.PagingSpec

  What the calls of kernel/memory.c on whole pages do.  A frame is free when
  its bit in the bitmap of its pool is clear; allocating takes free frames and
  writes nothing else than those (`Takes`), so whatever lies in other frames,
  page tables included, stays as it is.
-/

import JackOS.Kernel.Paging

namespace JackOS
namespace Kernel

open Base Base.Mem

/-! ## Where the pools lie -/

/-- The page frames of the pools, the lengths of their bitmaps, and the pages
    of the kernel's heap, which end below the window of the page tables at
    0xFFC00000. -/
structure Layout where
  kernelBase : Nat
  kernelLen : Nat
  userBase : Nat
  userLen : Nat
  vaddrBase : Nat
  vaddrLen : Nat
  low : 0x102 ≤ kernelBase
  kernelEnd : kernelBase + 8 * kernelLen ≤ userBase
  userEnd : userBase + 8 * userLen ≤ 2 ^ 20
  vaddrLow : 0xC0000 ≤ vaddrBase
  vaddrEnd : vaddrBase + 8 * vaddrLen + 1 ≤ 0xFFC00

namespace Layout

def base (L : Layout) : PoolFlags → Nat
  | .kernel => L.kernelBase
  | .user => L.userBase

def len (L : Layout) : PoolFlags → Nat
  | .kernel => L.kernelLen
  | .user => L.userLen

/-- The machine's pools lie so. -/
structure Of (L : Layout) (m : Machine) : Prop where
  start : ∀ pf, (m.pool pf).phyAddrStart = L.base pf * pgSize
  byteLen : ∀ pf, (m.pool pf).poolBitmap.btmpByteLen = L.len pf
  vaddrStart : m.kernelVaddr.vaddrStart = L.vaddrBase * pgSize
  vaddrLen : m.kernelVaddr.vaddrBitmap.btmpByteLen = L.vaddrLen

end Layout

/-- Frame `f` is of the pool and nobody has it. -/
def FreeIn (L : Layout) (m : Machine) (pf : PoolFlags) (f : Nat) : Prop :=
  ∃ i, i < 8 * L.len pf ∧ f = L.base pf + i ∧ bitAt (m.pool pf).poolBitmap.bits i = false

/-- Frame `f` is free in its pool. -/
def Free (L : Layout) (m : Machine) (f : Nat) : Prop := ∃ pf, FreeIn L m pf f

variable {L : Layout} {m m' m'' : Machine} {pf : PoolFlags} {f : Nat}

theorem FreeIn.lt (h : FreeIn L m pf f) : f < 2 ^ 20 := by
  obtain ⟨i, hi, rfl, -⟩ := h
  have := L.kernelEnd
  have := L.userEnd
  cases pf <;> simp only [Layout.base, Layout.len] at hi ⊢ <;> omega

/-- The pools have no frame in common. -/
theorem FreeIn.pool_eq {pf' : PoolFlags} (h : FreeIn L m pf f) (h' : FreeIn L m' pf' f) :
    pf = pf' := by
  obtain ⟨i, hi, rfl, -⟩ := h
  obtain ⟨j, hj, heq, -⟩ := h'
  have := L.kernelEnd
  cases pf <;> cases pf' <;> simp only [Layout.base, Layout.len] at hi hj heq
  · rfl
  · omega
  · omega
  · rfl

theorem FreeIn.user_le (h : FreeIn L m .user f) : L.userBase ≤ f := by
  obtain ⟨i, -, rfl, -⟩ := h
  exact Nat.le_add_right _ _

theorem FreeIn.kernel_lt (h : FreeIn L m .kernel f) : L.kernelBase ≤ f ∧ f < L.userBase := by
  obtain ⟨i, hi, rfl, -⟩ := h
  have := L.kernelEnd
  simp only [Layout.base, Layout.len] at hi ⊢
  omega

/-! ## Entries and words -/

theorem entryOf_eq (f : Nat) : Machine.entryOf (f * pgSize) = f * pgSize + 7 := by
  have h := Nat.two_pow_add_eq_or_of_lt (i := 12) (b := 7) (by norm_num) f
  rw [Machine.entryOf, pgSize, Nat.mul_comm f 4096]
  exact h.symm

theorem present_entryOf (f : Nat) : Machine.present (Machine.entryOf (f * pgSize)) := by
  rw [entryOf_eq, Machine.present, pgSize]
  omega

theorem frameOf_entryOf (f : Nat) : Machine.frameOf (Machine.entryOf (f * pgSize)) = f := by
  rw [entryOf_eq, Machine.frameOf, pgSize]
  omega

theorem entryOf_lt (h : f < 2 ^ 20) : Machine.entryOf (f * pgSize) < 2 ^ 32 := by
  rw [entryOf_eq, pgSize]
  omega

namespace Machine

@[simp] theorem setFrame_phys (m : Machine) (f : Nat) (c : Mem) :
    (m.setFrame f c).phys = Function.update m.phys f c := rfl

theorem word_setWord_self (m : Machine) (f i : Nat) {v : Nat} (hv : v < 2 ^ 32) :
    (m.setWord f i v).word f i = v := by
  rw [word, setWord, setFrame_phys, Function.update_self]
  exact le32_store32_self hv

theorem word_setWord_idx (m : Machine) (f v : Nat) {i j : Nat} (h : j ≠ i) :
    (m.setWord f i v).word f j = m.word f j := by
  rw [word, setWord, setFrame_phys, Function.update_self, word]
  exact le32_store32_of_disjoint (by omega)

theorem word_zeroed (m : Machine) {i : Nat} (hi : i < 1024) :
    (m.setFrame f (fill (m.phys f) 0 0 pgSize)).word f i = 0 := by
  have hzero : le32 (fill (m.phys f) 0 0 pgSize) (4 * i) = le32 zero 0 := by
    apply le32_congr
    intro j hj
    rw [fill_inside (Nat.zero_le _) (by rw [pgSize]; omega), zero_apply]
  rw [word, setFrame_phys, Function.update_self, hzero, le32_zero]

end Machine

/-! ## Taking frames -/

/-- From `m` to `m'` frames were taken and written, and pages of the kernel
    were mapped; what was in use before is as it was. -/
structure Takes (L : Layout) (m m' : Machine) : Prop where
  layout : L.Of m'
  free : ∀ pf f, FreeIn L m' pf f → FreeIn L m pf f
  phys : ∀ f, ¬ Free L m f → m'.phys f = m.phys f
  kernelPte : ∀ p, Machine.present (m.kernelPte p) → m'.kernelPte p = m.kernelPte p
  mapped : ∀ p, Machine.present (m'.kernelPte p) → m'.kernelPte p = m.kernelPte p
    ∨ FreeIn L m .kernel (Machine.frameOf (m'.kernelPte p))

theorem Takes.refl (h : L.Of m) : Takes L m m :=
  ⟨h, fun _ _ hf => hf, fun _ _ => rfl, fun _ _ => rfl, fun _ _ => .inl rfl⟩

theorem Takes.used (h : Takes L m m') (hf : ¬ Free L m f) : ¬ Free L m' f := by
  rintro ⟨pf, hfree⟩
  exact hf ⟨pf, h.free pf f hfree⟩

theorem Takes.trans (h : Takes L m m') (h' : Takes L m' m'') : Takes L m m'' := by
  refine ⟨h'.layout, fun pf f hf => h.free pf f (h'.free pf f hf), fun f hf => ?_, fun p hp => ?_,
    fun p hp => ?_⟩
  · rw [h'.phys f (h.used hf), h.phys f hf]
  · rw [h'.kernelPte p (by rw [h.kernelPte p hp]; exact hp), h.kernelPte p hp]
  · rcases h'.mapped p hp with hsame | hfree
    · rw [hsame] at hp ⊢
      exact h.mapped p hp
    · exact .inr (h.free _ _ hfree)

/-- Writing a frame that was free before. -/
theorem Takes.setFrame (h : Takes L m m') (hf : Free L m f) (c : Mem) :
    Takes L m (m'.setFrame f c) := by
  refine ⟨⟨h.layout.start, h.layout.byteLen, h.layout.vaddrStart, h.layout.vaddrLen⟩, h.free,
    fun g hg => ?_, h.kernelPte, h.mapped⟩
  have hne : g ≠ f := fun heq => hg (heq ▸ hf)
  rw [Machine.setFrame_phys, Function.update_of_ne hne]
  exact h.phys g hg

/-- Further frames are taken while the kernel's page tables stay. -/
theorem Takes.of_kernelPte (h : Takes L m m') (hL : L.Of m'')
    (hfree : ∀ pf g, FreeIn L m'' pf g → FreeIn L m' pf g) (hpte : m''.kernelPte = m'.kernelPte)
    (hphys : ∀ g, ¬ Free L m g → m''.phys g = m'.phys g) : Takes L m m'' where
  layout := hL
  free pf g hg := h.free pf g (hfree pf g hg)
  phys g hg := (hphys g hg).trans (h.phys g hg)
  kernelPte p hp := by
    rw [hpte]
    exact h.kernelPte p hp
  mapped p hp := by
    rw [hpte] at hp ⊢
    exact h.mapped p hp

/-- Only the bitmaps of the pools differ. -/
structure SamePages (m m' : Machine) : Prop where
  kernelVaddr : m'.kernelVaddr = m.kernelVaddr
  kernelPte : m'.kernelPte = m.kernelPte
  phys : m'.phys = m.phys
  tcb : m'.tcb = m.tcb
  cr3 : m'.cr3 = m.cr3

/-- `palloc` takes a free frame; a full pool stops the kernel in
    `bitmap_scan`. -/
theorem palloc_spec {r : Option Nat} (h : L.Of m) (hcall : m.palloc pf = .ok (r, m')) :
    ∃ f, r = some (f * pgSize) ∧ FreeIn L m pf f ∧ L.Of m' ∧ SamePages m m'
      ∧ ∀ pf' g, FreeIn L m' pf' g ↔ FreeIn L m pf' g ∧ g ≠ f := by
  obtain ⟨bitIdx, hscan, hcall⟩ := Outcome.bind_eq_ok.1 hcall
  cases bitIdx with
  | none =>
      obtain ⟨_, hreq, hscan⟩ := Outcome.bind_eq_ok.1 hscan
      rw [require_eq_ok] at hreq
      have hlt := hreq.resolve_right (by simp)
      rw [if_neg (Nat.ne_of_lt hlt), if_pos rfl] at hscan
      cases hscan
  | some i =>
      cases hcall
      have hfirst := firstClear_of_bitmapScan hscan
      have hi := hfirst.lt
      rw [h.byteLen] at hi
      refine ⟨L.base pf + i, ?_, ⟨i, hi, rfl, hfirst.clear⟩, ?_, ?_, fun pf' g => ?_⟩
      · rw [h.start, Nat.add_mul, Nat.add_comm]
      · refine ⟨fun pf' => ?_, fun pf' => ?_, ?_, ?_⟩
        · rw [← h.start]
          cases pf <;> cases pf' <;> rfl
        · rw [← h.byteLen]
          cases pf <;> cases pf' <;> rfl
        · rw [← h.vaddrStart]
          cases pf <;> rfl
        · rw [← h.vaddrLen]
          cases pf <;> rfl
      · cases pf <;> exact ⟨rfl, rfl, rfl, rfl, rfl⟩
      · by_cases hpf : pf' = pf
        · subst hpf
          have hbits : ((m.setPoolBitmap pf' (bitmapSet (m.pool pf').poolBitmap i true)).pool
              pf').poolBitmap.bits = setBitAt (m.pool pf').poolBitmap.bits i true := by
            cases pf' <;> rfl
          unfold FreeIn
          rw [hbits]
          constructor
          · rintro ⟨j, hj, rfl, hclear⟩
            have hji : j ≠ i := by
              rintro rfl
              rw [bitAt_setBitAt_same] at hclear
              cases hclear
            rw [bitAt_setBitAt_ne hji] at hclear
            exact ⟨⟨j, hj, rfl, hclear⟩, by omega⟩
          · rintro ⟨⟨j, hj, rfl, hclear⟩, hne⟩
            have hji : j ≠ i := fun heq => hne (by rw [heq])
            exact ⟨j, hj, rfl, by rw [bitAt_setBitAt_ne hji]; exact hclear⟩
        · have hpool : (m.setPoolBitmap pf (bitmapSet (m.pool pf).poolBitmap i true)).pool pf'
              = m.pool pf' := by
            cases pf <;> cases pf' <;> first | rfl | exact absurd rfl hpf
          have hsame : FreeIn L (m.setPoolBitmap pf (bitmapSet (m.pool pf).poolBitmap i true)) pf' g
              ↔ FreeIn L m pf' g := by
            unfold FreeIn
            rw [hpool]
          rw [hsame]
          refine ⟨fun hg => ⟨hg, fun heq => hpf ?_⟩, And.left⟩
          exact (heq ▸ hg).pool_eq ⟨i, hi, rfl, hfirst.clear⟩

theorem Takes.of_palloc {g : Nat} (hL : L.Of m') (hsame : SamePages m m')
    (hfree : ∀ pf' f, FreeIn L m' pf' f ↔ FreeIn L m pf' f ∧ f ≠ g) : Takes L m m' :=
  ⟨hL, fun pf f hf => ((hfree pf f).1 hf).1, fun f _ => by rw [hsame.phys],
    fun p _ => by rw [hsame.kernelPte], fun p _ => .inl (by rw [hsame.kernelPte])⟩

end Kernel
end JackOS
