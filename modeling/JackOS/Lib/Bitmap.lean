/-
  JackOS.Lib.Bitmap

  lib/kernel/bitmap.c: bitmaps stored eight bits to the byte.  `bitmapScan`
  follows the source, the byte-wise first phase and the bit-wise second one,
  with the ASSERT that stops a debug build when the map is full.
-/

import JackOS.Base.Outcome
import JackOS.Base.Bytes
import Mathlib.Tactic.IntervalCases

namespace JackOS

open Base

/-- `bitmap_t`. -/
structure Bitmap where
  /-- `btmp_byte_len` -/
  btmpByteLen : Nat
  bits : Mem

/-- Bit `i` of a byte array. -/
def bitAt (m : Mem) (i : Nat) : Bool := (m (i / 8)).toBitVec.getLsbD (i % 8)

/-- `bitmap_scan_test` -/
def bitmapScanTest (btmp : Bitmap) (bitIdx : Nat) : Bool := bitAt btmp.bits bitIdx

/-- `bitmap_set`, on the byte array -/
def setBitAt (m : Mem) (bitIdx : Nat) (value : Bool) : Mem :=
  fun a =>
    if a = bitIdx / 8 then
      if value then
        UInt8.ofBitVec ((m a).toBitVec ||| (1#8 <<< (bitIdx % 8)))
      else
        UInt8.ofBitVec ((m a).toBitVec &&& ~~~(1#8 <<< (bitIdx % 8)))
    else m a

/-- `bitmap_set` -/
def bitmapSet (btmp : Bitmap) (bitIdx : Nat) (value : Bool) : Bitmap :=
  { btmp with bits := setBitAt btmp.bits bitIdx value }

/-- `while (0xFF == bits[idx_byte] && idx_byte < btmp_byte_len) idx_byte++`,
    with `left` bytes still to look at. -/
def skipFullBytes (m : Mem) : (left idxByte : Nat) → Nat
  | 0, idxByte => idxByte
  | left + 1, idxByte =>
      if m idxByte = 0xFF then skipFullBytes m left (idxByte + 1) else idxByte

/-- `while ((uint8_t) (BITMAP_MASK << idx_bit) & bits[idx_byte]) idx_bit++`:
    the shifted mask is 0 from bit 8 on, which ends the loop. -/
def skipSetBits (b : UInt8) : (left idxBit : Nat) → Nat
  | 0, idxBit => idxBit
  | left + 1, idxBit =>
      if b.toBitVec.getLsbD idxBit then skipSetBits b left (idxBit + 1) else idxBit

/-- The second phase of `bitmap_scan`: `count` clear bits in a row end just
    before `nextBit`, and `bitLeft` more bits are looked at.  The last one it
    looks at lies one past the end of the map, as in the source. -/
def scanRun (m : Mem) (cnt : Nat) : (bitLeft nextBit count : Nat) → Option Nat
  | 0, _, _ => none
  | bitLeft + 1, nextBit, count =>
      let count := if bitAt m nextBit then 0 else count + 1
      if count = cnt then some (nextBit + 1 - cnt)
      else scanRun m cnt bitLeft (nextBit + 1) count

/-- `bitmap_scan` with its counters as natural numbers; `none` stands for -1.
    `bitmapScan_short` says that it is `bitmap_scan` for maps of fewer than 2^28
    bytes, as all maps of the kernel are.  `ndebug` says whether the kernel was built
    with NDEBUG, which compiles the ASSERT out. -/
def bitmapScan (ndebug : Bool) (btmp : Bitmap) (cnt : Nat) : Outcome (Option Nat) := do
  let idxByte := skipFullBytes btmp.bits btmp.btmpByteLen 0
  require (idxByte < btmp.btmpByteLen ∨ ndebug = true)
  if idxByte = btmp.btmpByteLen then
    .ok none
  else
    let idxBit := skipSetBits (btmp.bits idxByte) 8 0
    let bitIdxStart := idxByte * 8 + idxBit
    if cnt = 1 then
      .ok (some bitIdxStart)
    else
      .ok (scanRun btmp.bits cnt (btmp.btmpByteLen * 8 - bitIdxStart) (bitIdxStart + 1) 1)

-- ============================================================================
-- Reading back what bitmap_set writes
-- ============================================================================

@[simp] theorem bitmapSet_btmpByteLen (btmp : Bitmap) (i : Nat) (v : Bool) :
    (bitmapSet btmp i v).btmpByteLen = btmp.btmpByteLen := rfl

@[simp] theorem bitmapSet_bits (btmp : Bitmap) (i : Nat) (v : Bool) :
    (bitmapSet btmp i v).bits = setBitAt btmp.bits i v := rfl

theorem setBitAt_outside {m : Mem} {i a : Nat} {v : Bool} (h : a ≠ i / 8) :
    setBitAt m i v a = m a := by
  rw [setBitAt, if_neg h]

/-- `bitmap_set` changes the bit it names and no other. -/
theorem bitAt_setBitAt (m : Mem) (i j : Nat) (v : Bool) :
    bitAt (setBitAt m i v) j = if j = i then v else bitAt m j := by
  by_cases hbyte : j / 8 = i / 8
  · have hi : i % 8 < 8 := Nat.mod_lt _ (by omega)
    have hj : j % 8 < 8 := Nat.mod_lt _ (by omega)
    have hiff : j = i ↔ j % 8 = i % 8 := by omega
    simp only [bitAt, setBitAt, hbyte, if_true]
    by_cases hji : j % 8 = i % 8
    · rw [if_pos (hiff.2 hji)]
      cases v <;> simp [hji, hi]
    · rw [if_neg (fun h => hji (hiff.1 h))]
      have hne : ¬ (¬ j % 8 < i % 8 ∧ j % 8 - i % 8 = 0) := by omega
      cases v
      · simp [hj]
        omega
      · simp [hj]
        omega
  · have hji : j ≠ i := fun h => hbyte (by rw [h])
    rw [if_neg hji, bitAt, setBitAt_outside hbyte, ← bitAt]

@[simp] theorem bitAt_setBitAt_same (m : Mem) (i : Nat) (v : Bool) :
    bitAt (setBitAt m i v) i = v := by
  simp [bitAt_setBitAt]

theorem bitAt_setBitAt_ne {m : Mem} {i j : Nat} {v : Bool} (h : j ≠ i) :
    bitAt (setBitAt m i v) j = bitAt m j := by
  simp [bitAt_setBitAt, h]

/-- Two byte arrays that agree on a byte agree on its bits. -/
theorem bitAt_congr {m m' : Mem} {i j : Nat} (hmod : i % 8 = j % 8)
    (h : m (i / 8) = m' (j / 8)) : bitAt m i = bitAt m' j := by
  simp [bitAt, hmod, h]

-- ============================================================================
-- What bitmap_scan finds
-- ============================================================================

/-- A byte is not `0xFF` exactly when one of its bits is clear. -/
theorem byte_ne_full {b : UInt8} :
    b ≠ 0xFF ↔ ∃ i, i < 8 ∧ b.toBitVec.getLsbD i = false := by
  constructor
  · intro h
    by_contra hall
    apply h
    apply UInt8.toBitVec_inj.1
    apply BitVec.eq_of_getLsbD_eq
    intro i hi
    have hset : b.toBitVec.getLsbD i = true := by
      by_contra hc
      exact hall ⟨i, hi, by simpa using hc⟩
    rw [hset]
    interval_cases i <;> rfl
  · rintro ⟨i, hi, hclear⟩ rfl
    interval_cases i <;> simp_all

theorem skipFullBytes_le (m : Mem) (left k : Nat) :
    k ≤ skipFullBytes m left k ∧ skipFullBytes m left k ≤ k + left := by
  induction left generalizing k with
  | zero => simp [skipFullBytes]
  | succ left ih =>
      rw [skipFullBytes]
      split
      · have := ih (k + 1)
        omega
      · omega

theorem skipFullBytes_full {m : Mem} {left k a : Nat} (h₁ : k ≤ a)
    (h₂ : a < skipFullBytes m left k) : m a = 0xFF := by
  induction left generalizing k with
  | zero => simp only [skipFullBytes] at h₂; omega
  | succ left ih =>
      rw [skipFullBytes] at h₂
      split at h₂
      · by_cases hak : a = k
        · subst hak; assumption
        · exact ih (by omega) h₂
      · omega

theorem skipFullBytes_stop {m : Mem} {left k : Nat}
    (h : skipFullBytes m left k < k + left) : m (skipFullBytes m left k) ≠ 0xFF := by
  induction left generalizing k with
  | zero => simp [skipFullBytes] at h
  | succ left ih =>
      rw [skipFullBytes] at h ⊢
      split
      · rename_i hfull
        rw [if_pos hfull] at h
        exact ih (by omega)
      · assumption

theorem skipSetBits_spec (b : UInt8) (left k : Nat)
    (h : ∃ i, k ≤ i ∧ i < k + left ∧ b.toBitVec.getLsbD i = false) :
    skipSetBits b left k < k + left ∧
      b.toBitVec.getLsbD (skipSetBits b left k) = false ∧
      ∀ i, k ≤ i → i < skipSetBits b left k → b.toBitVec.getLsbD i = true := by
  induction left generalizing k with
  | zero => obtain ⟨i, hi⟩ := h; omega
  | succ left ih =>
      rw [skipSetBits]
      by_cases hk : b.toBitVec.getLsbD k
      · rw [if_pos hk]
        obtain ⟨i, h₁, h₂, h₃⟩ := h
        have hik : i ≠ k := by rintro rfl; simp_all
        obtain ⟨ha, hb, hc⟩ := ih (k + 1) ⟨i, by omega, by omega, h₃⟩
        refine ⟨by omega, hb, fun j hj₁ hj₂ => ?_⟩
        by_cases hjk : j = k
        · subst hjk; exact hk
        · exact hc j (by omega) hj₂
      · rw [if_neg hk]
        refine ⟨by omega, by simpa using hk, fun j hj₁ hj₂ => by omega⟩

/-- Bit `i` is the first clear bit of the map. -/
structure FirstClear (btmp : Bitmap) (i : Nat) : Prop where
  lt : i < 8 * btmp.btmpByteLen
  clear : bitAt btmp.bits i = false
  set_below : ∀ j, j < i → bitAt btmp.bits j = true

/-- The bit the two phases of `bitmap_scan` stop at is the first clear one. -/
theorem firstClear_scan {btmp : Bitmap}
    (h : skipFullBytes btmp.bits btmp.btmpByteLen 0 < btmp.btmpByteLen) :
    FirstClear btmp (skipFullBytes btmp.bits btmp.btmpByteLen 0 * 8 +
      skipSetBits (btmp.bits (skipFullBytes btmp.bits btmp.btmpByteLen 0)) 8 0) := by
  have hstop : btmp.bits (skipFullBytes btmp.bits btmp.btmpByteLen 0) ≠ 0xFF :=
    skipFullBytes_stop (by omega)
  obtain ⟨i, hi, hclear⟩ := byte_ne_full.1 hstop
  obtain ⟨hlt, hbit, hbelow⟩ := skipSetBits_spec _ 8 0 ⟨i, by omega, by omega, hclear⟩
  have hfull : ∀ a, a < skipFullBytes btmp.bits btmp.btmpByteLen 0 →
      btmp.bits a = 0xFF := fun a ha => skipFullBytes_full (by omega) ha
  generalize skipFullBytes btmp.bits btmp.btmpByteLen 0 = idxByte at *
  generalize skipSetBits (btmp.bits idxByte) 8 0 = idxBit at *
  refine ⟨by omega, ?_, fun j hj => ?_⟩
  · have h1 : (idxByte * 8 + idxBit) / 8 = idxByte := by omega
    have h2 : (idxByte * 8 + idxBit) % 8 = idxBit := by omega
    rw [bitAt, h1, h2, hbit]
  · by_cases hjb : j / 8 < idxByte
    · have hj8 : j % 8 < 8 := Nat.mod_lt _ (by omega)
      rw [bitAt, hfull _ hjb]
      generalize j % 8 = k at hj8
      interval_cases k <;> rfl
    · have h1 : j / 8 = idxByte := by omega
      rw [bitAt, h1]
      exact hbelow (j % 8) (by omega) (by omega)

/-- While some bit of the map is clear, some byte is not full. -/
theorem skipFullBytes_lt {btmp : Bitmap} {i : Nat} (hi : i < 8 * btmp.btmpByteLen)
    (hclear : bitAt btmp.bits i = false) :
    skipFullBytes btmp.bits btmp.btmpByteLen 0 < btmp.btmpByteLen := by
  by_contra hge
  have hfull : btmp.bits (i / 8) = 0xFF :=
    skipFullBytes_full (Nat.zero_le _) (show _ < skipFullBytes btmp.bits btmp.btmpByteLen 0 by omega)
  exact byte_ne_full.2 ⟨i % 8, by omega, hclear⟩ hfull

/-- While some bit of the map is clear, asking for one bit returns the first. -/
theorem bitmapScan_one {ndebug : Bool} {btmp : Bitmap} {i : Nat}
    (hi : i < 8 * btmp.btmpByteLen) (hclear : bitAt btmp.bits i = false) :
    ∃ k, bitmapScan ndebug btmp 1 = .ok (some k) ∧ FirstClear btmp k := by
  have hlt := skipFullBytes_lt hi hclear
  refine ⟨_, ?_, firstClear_scan hlt⟩
  simp [bitmapScan, require_pos, hlt, Nat.ne_of_lt hlt]

/-- A returned bit is the first clear one. -/
theorem firstClear_of_bitmapScan {ndebug : Bool} {btmp : Bitmap} {i : Nat}
    (h : bitmapScan ndebug btmp 1 = .ok (some i)) : FirstClear btmp i := by
  have hle := (skipFullBytes_le btmp.bits btmp.btmpByteLen 0).2
  unfold bitmapScan at h
  obtain ⟨_, -, h⟩ := Outcome.bind_eq_ok.1 h
  split at h
  · cases h
  · rw [if_pos rfl] at h
    cases h
    exact firstClear_scan (by omega)

theorem FirstClear.unique {btmp : Bitmap} {i j : Nat} (hi : FirstClear btmp i)
    (hj : FirstClear btmp j) : i = j := by
  rcases Nat.lt_trichotomy i j with h | h | h
  · have := hj.set_below i h
    rw [hi.clear] at this
    cases this
  · exact h
  · have := hi.set_below j h
    rw [hj.clear] at this
    cases this

end JackOS
