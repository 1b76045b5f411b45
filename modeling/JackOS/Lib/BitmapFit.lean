/-
  JackOS.Lib.BitmapFit

  Which run of clear bits `bitmap_scan` returns.  Its last loop looks at one bit
  more than the map has, so it finds the first run of a map that is one bit
  longer; the extra bit is the first one of the memory behind the map.
-/

import JackOS.Lib.Bitmap
import Mathlib.Data.Finset.Card
import Mathlib.Data.Finset.Range

namespace JackOS

open Base

variable {m : Mem} {btmp : Bitmap} {cnt limit r r' : Nat}

/-! ## Runs of clear bits -/

/-- The `cnt` bits from `r` on are clear. -/
def ClearRun (m : Mem) (cnt r : Nat) : Prop := ∀ j, j < cnt → bitAt m (r + j) = false

/-- The first run of `cnt` clear bits, which ends within the first `limit`
    bits. -/
structure FirstRun (m : Mem) (limit cnt r : Nat) : Prop where
  ends : r + cnt ≤ limit
  clear : ClearRun m cnt r
  first : ∀ r', r' < r → ¬ ClearRun m cnt r'

/-- No run of `cnt` clear bits ends within the first `limit` bits. -/
def NoRun (m : Mem) (limit cnt : Nat) : Prop := ∀ r, r + cnt ≤ limit → ¬ ClearRun m cnt r

theorem ClearRun.bit {i : Nat} (h : ClearRun m cnt r) (h₁ : r ≤ i) (h₂ : i < r + cnt) :
    bitAt m i = false := by
  have hbit := h (i - r) (by omega)
  rwa [Nat.add_sub_cancel' h₁] at hbit

theorem FirstRun.unique {limit' : Nat} (h : FirstRun m limit cnt r)
    (h' : FirstRun m limit' cnt r') : r = r' := by
  rcases Nat.lt_trichotomy r r' with hlt | heq | hlt
  · exact absurd h.clear (h'.first r hlt)
  · exact heq
  · exact absurd h'.clear (h.first r' hlt)

theorem FirstRun.not_noRun (h : FirstRun m limit cnt r) : ¬ NoRun m limit cnt :=
  fun hno => hno r h.ends h.clear

/-! ## The last loop -/

/-- Of the bits before `nextBit` the last `count` are clear, and no run of
    `cnt` bits starts before those. -/
theorem scanRun_spec {left nextBit count : Nat} (hcount : count < cnt ∧ count ≤ nextBit)
    (hclear : ∀ i, nextBit - count ≤ i → i < nextBit → bitAt m i = false)
    (hbroken : ∀ r, r < nextBit - count → ¬ ClearRun m cnt r) :
    (∀ r, scanRun m cnt left nextBit count = some r → FirstRun m (nextBit + left) cnt r)
      ∧ (scanRun m cnt left nextBit count = none → NoRun m (nextBit + left) cnt) := by
  induction left generalizing nextBit count with
  | zero =>
      refine ⟨fun r hr => ?_, fun _ r hr => hbroken r (by omega)⟩
      simp [scanRun] at hr
  | succ left ih =>
      rw [scanRun]
      by_cases hbit : bitAt m nextBit = true
      · -- the run is broken at `nextBit`
        simp only [hbit, if_true]
        rw [if_neg (by omega), show nextBit + (left + 1) = nextBit + 1 + left by omega]
        apply ih (by omega) (by omega)
        intro r hr hrun
        by_cases hbefore : r < nextBit - count
        · exact hbroken r hbefore hrun
        · have hfalse := hrun.bit (i := nextBit) (by omega) (by omega)
          rw [hbit] at hfalse
          cases hfalse
      · have hfree : bitAt m nextBit = false := by simpa using hbit
        simp only [hfree, Bool.false_eq_true, if_false]
        have hclear' : ∀ i, nextBit - count ≤ i → i < nextBit + 1 → bitAt m i = false := by
          intro i h₁ h₂
          by_cases hi : i = nextBit
          · rw [hi, hfree]
          · exact hclear i h₁ (by omega)
        by_cases hfull : count + 1 = cnt
        · rw [if_pos hfull]
          refine ⟨fun r hr => ?_, fun hnone => by cases hnone⟩
          cases hr
          refine ⟨by omega, fun j hj => hclear' _ (by omega) (by omega), fun r' hr' => ?_⟩
          exact hbroken r' (by omega)
        · rw [if_neg hfull, show nextBit + (left + 1) = nextBit + 1 + left by omega]
          apply ih (by omega)
          · rw [Nat.add_sub_add_right]
            exact hclear'
          · rw [Nat.add_sub_add_right]
            exact hbroken

/-! ## bitmap_scan -/

/-- One clear bit is a run, and two or more are sought in a map with one more
    bit. -/
def scanLimit (btmp : Bitmap) (cnt : Nat) : Nat :=
  if cnt = 1 then 8 * btmp.btmpByteLen else 8 * btmp.btmpByteLen + 1

theorem bitmapScan_eq (ndebug : Bool) (cnt : Nat)
    (hclear : ∃ i, i < 8 * btmp.btmpByteLen ∧ bitAt btmp.bits i = false) :
    ∃ start, FirstClear btmp start ∧ bitmapScan ndebug btmp cnt
      = .ok (if cnt = 1 then some start
        else scanRun btmp.bits cnt (btmp.btmpByteLen * 8 - start) (start + 1) 1) := by
  obtain ⟨i, hi, hbit⟩ := hclear
  have hlt := skipFullBytes_lt hi hbit
  refine ⟨_, firstClear_scan hlt, ?_⟩
  rw [bitmapScan, require_pos (.inl hlt), Outcome.ok_bind, if_neg (Nat.ne_of_lt hlt)]
  dsimp only
  split <;> rfl

/-- With a clear bit in the map `bitmap_scan` returns the first run within
    `scanLimit`, if there is one. -/
theorem bitmapScan_run (ndebug : Bool) (hcnt : 1 ≤ cnt)
    (hclear : ∃ i, i < 8 * btmp.btmpByteLen ∧ bitAt btmp.bits i = false) :
    ∃ out, bitmapScan ndebug btmp cnt = .ok out
      ∧ (∀ r, out = some r → FirstRun btmp.bits (scanLimit btmp cnt) cnt r)
      ∧ (out = none → NoRun btmp.bits (scanLimit btmp cnt) cnt) := by
  obtain ⟨start, hstart, hcall⟩ := bitmapScan_eq ndebug cnt hclear
  have hlt := hstart.lt
  have hbelow : ∀ r, r < start → ¬ ClearRun btmp.bits cnt r := by
    intro r hr hrun
    have hfree := hrun.bit (Nat.le_refl r) (by omega)
    rw [hstart.set_below r hr] at hfree
    cases hfree
  by_cases hone : cnt = 1
  · subst hone
    rw [if_pos rfl] at hcall
    refine ⟨some start, hcall, fun r hr => ?_, fun hnone => by cases hnone⟩
    cases hr
    refine ⟨?_, fun j hj => ?_, hbelow⟩
    · rw [scanLimit, if_pos rfl]
      exact hlt
    · rw [show start + j = start by omega]
      exact hstart.clear
  · rw [if_neg hone] at hcall
    have hlimit : scanLimit btmp cnt = start + 1 + (btmp.btmpByteLen * 8 - start) := by
      rw [scanLimit, if_neg hone]
      omega
    rw [hlimit]
    refine ⟨_, hcall, scanRun_spec (by omega) (fun i h₁ h₂ => ?_) fun r hr =>
      hbelow r (by omega)⟩
    rw [show i = start by omega]
    exact hstart.clear

/-! ## Full maps -/

/-- No bit of the map is clear. -/
def Bitmap.Full (btmp : Bitmap) : Prop := ∀ i, i < 8 * btmp.btmpByteLen → bitAt btmp.bits i = true

/-- The clear bits of the map. -/
def Bitmap.clearBits (btmp : Bitmap) : Finset Nat :=
  (Finset.range (8 * btmp.btmpByteLen)).filter fun i => bitAt btmp.bits i = false

theorem Bitmap.mem_clearBits {i : Nat} :
    i ∈ btmp.clearBits ↔ i < 8 * btmp.btmpByteLen ∧ bitAt btmp.bits i = false := by
  rw [clearBits, Finset.mem_filter, Finset.mem_range]

theorem Bitmap.full_iff_card : btmp.Full ↔ btmp.clearBits.card = 0 := by
  rw [Finset.card_eq_zero, Finset.eq_empty_iff_forall_notMem]
  constructor
  · intro hfull i hi
    obtain ⟨hlt, hclear⟩ := mem_clearBits.1 hi
    rw [hfull i hlt] at hclear
    cases hclear
  · intro hempty i hlt
    cases hbit : bitAt btmp.bits i with
    | true => rfl
    | false => exact absurd (mem_clearBits.2 ⟨hlt, hbit⟩) (hempty i)

theorem Bitmap.not_full : ¬ btmp.Full ↔ ∃ i, i < 8 * btmp.btmpByteLen ∧ bitAt btmp.bits i = false := by
  unfold Full
  push Not
  simp only [Bool.not_eq_true]

/-- Setting a bit takes it from the clear ones. -/
theorem Bitmap.clearBits_bitmapSet (btmp : Bitmap) (i : Nat) :
    (bitmapSet btmp i true).clearBits = btmp.clearBits.erase i := by
  ext j
  simp only [mem_clearBits, Finset.mem_erase, bitmapSet_btmpByteLen, bitmapSet_bits, bitAt_setBitAt]
  by_cases hj : j = i
  · simp [hj]
  · simp [hj]

/-- A scan of a full map stops the kernel. -/
theorem bitmapScan_full (hfull : btmp.Full) (cnt : Nat) :
    bitmapScan false btmp cnt = .error .assertFailed := by
  have hend : ¬ skipFullBytes btmp.bits btmp.btmpByteLen 0 < btmp.btmpByteLen := by
    intro hlt
    have hstop : btmp.bits (skipFullBytes btmp.bits btmp.btmpByteLen 0) ≠ 0xFF :=
      skipFullBytes_stop (by omega)
    obtain ⟨i, hi, hclear⟩ := byte_ne_full.1 hstop
    have hbit := hfull (skipFullBytes btmp.bits btmp.btmpByteLen 0 * 8 + i) (by omega)
    rw [bitAt, show (skipFullBytes btmp.bits btmp.btmpByteLen 0 * 8 + i) / 8
        = skipFullBytes btmp.bits btmp.btmpByteLen 0 by omega,
      show (skipFullBytes btmp.bits btmp.btmpByteLen 0 * 8 + i) % 8 = i by omega, hclear] at hbit
    cases hbit
  rw [bitmapScan, require_neg (by simpa using hend), Outcome.error_bind]

/-- While the map is not full a scan for one bit finds one. -/
theorem bitmapScan_not_full (h : ¬ btmp.Full) :
    ∃ i, bitmapScan false btmp 1 = .ok (some i) ∧ FirstClear btmp i := by
  obtain ⟨j, hj, hclear⟩ := Bitmap.not_full.1 h
  exact bitmapScan_one hj hclear

/-- A scan for one bit that returns has found one. -/
theorem bitmapScan_one_some {out : Option Nat} (h : bitmapScan false btmp 1 = .ok out) :
    ∃ i, out = some i ∧ FirstClear btmp i := by
  have hclear : ¬ btmp.Full := by
    intro hfull
    rw [bitmapScan_full hfull] at h
    cases h
  obtain ⟨i, hscan, hfirst⟩ := bitmapScan_not_full hclear
  rw [h] at hscan
  cases hscan
  exact ⟨i, rfl, hfirst⟩

end JackOS
