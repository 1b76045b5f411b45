/-
  JackOS.Lib.BitmapScan32

  `bitmap_scan` in the 32-bit numbers of the source.  The bits of a map of 2^28
  bytes and more cannot be counted in an `int`, and those of one of 2^29 bytes
  not in a `uint32_t`: the result is then read as negative, and the last loop
  looks at fewer bits than the map has.
-/

import JackOS.Lib.BitmapFit

namespace JackOS

open Base

variable {m : Mem} {btmp : Bitmap} {cnt r start : Nat}

/-- A `uint32_t` as an `int`. -/
def toInt32 (x : Nat) : Int := if x < 2 ^ 31 then x else (x : Int) - 2 ^ 32

/-- The second phase of `bitmap_scan`, with `bit_left`, `next_bit` and `count` as
    `uint32_t`. -/
def scanRun32 (m : Mem) (cnt : Nat) : (bitLeft nextBit count : Nat) → Int
  | 0, _, _ => -1
  | bitLeft + 1, nextBit, count =>
      let count := if bitAt m nextBit then 0 else (count + 1) % 2 ^ 32
      if count = cnt then toInt32 ((nextBit + 2 ^ 32 - cnt + 1) % 2 ^ 32)
      else scanRun32 m cnt bitLeft ((nextBit + 1) % 2 ^ 32) count

/-- `bitmap_scan` -/
def bitmapScan32 (ndebug : Bool) (btmp : Bitmap) (cnt : Nat) : Outcome Int := do
  let idxByte := skipFullBytes btmp.bits btmp.btmpByteLen 0
  require (idxByte < btmp.btmpByteLen ∨ ndebug = true)
  if idxByte = btmp.btmpByteLen then
    .ok (-1)
  else
    let idxBit := skipSetBits (btmp.bits idxByte) 8 0
    let bitIdxStart := (idxByte * 8 + idxBit) % 2 ^ 32
    if cnt = 1 then
      .ok (toInt32 bitIdxStart)
    else
      let bitLeft := (btmp.btmpByteLen * 8 + 2 ^ 32 - bitIdxStart) % 2 ^ 32
      .ok (scanRun32 btmp.bits cnt bitLeft ((bitIdxStart + 1) % 2 ^ 32) 1)

/-! ## The counters -/

/-- The `int` that stands for a result of `scanRun`. -/
def scanResult : Option Nat → Int
  | none => -1
  | some r => toInt32 r

theorem scanRun32_set (hcnt : 1 ≤ cnt) {left next count : Nat}
    (hset : ∀ i, i < left → bitAt m ((next + i) % 2 ^ 32) = true) :
    scanRun32 m cnt left (next % 2 ^ 32) count = -1 := by
  induction left generalizing next count with
  | zero => rfl
  | succ left ih =>
      have hbit : bitAt m (next % 2 ^ 32) = true := hset 0 (by omega)
      simp only [scanRun32, hbit, if_true]
      rw [if_neg (by omega), Nat.mod_add_mod]
      refine ih fun i hi => ?_
      rw [show next + 1 + i = next + (i + 1) by omega]
      exact hset (i + 1) (by omega)

/-- `left` bits are looked at before `next_bit` wraps; those behind are set. -/
theorem scanRun32_eq (hcnt : cnt < 2 ^ 32) {left next count past : Nat}
    (hnext : next + left ≤ 2 ^ 32) (hcount : count < cnt ∧ count ≤ next)
    (hover : past = 0 ∨ next + left = 2 ^ 32 ∧ ∀ i, i < past → bitAt m (i % 2 ^ 32) = true) :
    scanRun32 m cnt (left + past) (next % 2 ^ 32) count
      = scanResult (scanRun m cnt left next count) := by
  induction left generalizing next count with
  | zero =>
      rcases hover with rfl | ⟨hwrap, hset⟩
      · rfl
      · rw [Nat.zero_add]
        refine scanRun32_set (by omega) fun i hi => ?_
        rw [show next + i = i + 2 ^ 32 by omega, Nat.add_mod_right]
        exact hset i hi
  | succ left ih =>
      -- a bit in front of the wrap is looked at by both loops
      rw [show left + 1 + past = left + past + 1 by omega, scanRun32, scanRun,
        Nat.mod_eq_of_lt (show next < 2 ^ 32 by omega),
        Nat.mod_eq_of_lt (show count + 1 < 2 ^ 32 by omega)]
      have hover' : past = 0 ∨ next + 1 + left = 2 ^ 32
          ∧ ∀ i, i < past → bitAt m (i % 2 ^ 32) = true :=
        hover.imp_right fun h => ⟨by omega, h.2⟩
      cases hbit : bitAt m next with
      | true =>
          simp only [if_true]
          rw [if_neg (by omega), if_neg (by omega)]
          exact ih (by omega) (by omega) hover'
      | false =>
          simp only [Bool.false_eq_true, if_false]
          by_cases hfull : count + 1 = cnt
          · rw [if_pos hfull, if_pos hfull, scanResult]
            congr 1
            omega
          · rw [if_neg hfull, if_neg hfull]
            exact ih (by omega) (by omega) hover'

/-- For a map whose bits an `int` counts the counters do not wrap. -/
theorem bitmapScan_short {ndebug : Bool} (hshort : 8 * btmp.btmpByteLen < 2 ^ 31)
    (hcnt : 1 ≤ cnt) (hcnt32 : cnt < 2 ^ 32) :
    bitmapScan32 ndebug btmp cnt
      = (bitmapScan ndebug btmp cnt >>= fun out => .ok (scanResult out)) := by
  have hle := (skipFullBytes_le btmp.bits btmp.btmpByteLen 0).2
  rw [bitmapScan32, bitmapScan]
  by_cases hgo : skipFullBytes btmp.bits btmp.btmpByteLen 0 < btmp.btmpByteLen ∨ ndebug = true
  · rw [require_pos hgo, Outcome.ok_bind, Outcome.ok_bind]
    by_cases hfull : skipFullBytes btmp.bits btmp.btmpByteLen 0 = btmp.btmpByteLen
    · rw [if_pos hfull, if_pos hfull]
      rfl
    · rw [if_neg hfull, if_neg hfull]
      have hlow : skipFullBytes btmp.bits btmp.btmpByteLen 0 < btmp.btmpByteLen := by omega
      have hstart := (firstClear_scan hlow).lt
      dsimp only
      generalize skipFullBytes btmp.bits btmp.btmpByteLen 0 * 8
        + skipSetBits (btmp.bits (skipFullBytes btmp.bits btmp.btmpByteLen 0)) 8 0 = start at *
      rw [Nat.mod_eq_of_lt (show start < 2 ^ 32 by omega)]
      by_cases hone : cnt = 1
      · rw [if_pos hone, if_pos hone]
        rfl
      · rw [if_neg hone, if_neg hone, show (btmp.btmpByteLen * 8 + 2 ^ 32 - start) % 2 ^ 32
          = btmp.btmpByteLen * 8 - start + 0 by omega,
          scanRun32_eq hcnt32 (by omega) (by omega) (.inl rfl)]
        rfl
  · rw [require_neg hgo, Outcome.error_bind, Outcome.error_bind]
    rfl

/-! ## The bits that are looked at -/

/-- The last loop looks at the bits before this one, from the first clear bit
    on: one bit more than the map has when a `uint32_t` counts its bits, else those
    up to the remainder of their number, or up to the last bit there is an index
    for. -/
def scanEnd (btmp : Bitmap) (start : Nat) : Nat :=
  if start ≤ 8 * btmp.btmpByteLen % 2 ^ 32 then 8 * btmp.btmpByteLen % 2 ^ 32 + 1 else 2 ^ 32

theorem FirstClear.not_clearRun (h : FirstClear btmp start) (hcnt : 1 ≤ cnt) (hr : r < start) :
    ¬ ClearRun btmp.bits cnt r := by
  intro hrun
  have hfree := hrun.bit (Nat.le_refl r) (by omega)
  rw [h.set_below r hr] at hfree
  cases hfree

theorem bitmapScan32_eq (ndebug : Bool) (cnt : Nat) (hstart : FirstClear btmp start) :
    bitmapScan32 ndebug btmp cnt = .ok (if cnt = 1 then toInt32 (start % 2 ^ 32)
      else scanRun32 btmp.bits cnt ((btmp.btmpByteLen * 8 + 2 ^ 32 - start % 2 ^ 32) % 2 ^ 32)
        ((start + 1) % 2 ^ 32) 1) := by
  have hlt := skipFullBytes_lt hstart.lt hstart.clear
  have hfirst := hstart.unique (firstClear_scan hlt)
  rw [bitmapScan32, require_pos (.inl hlt), Outcome.ok_bind, if_neg (Nat.ne_of_lt hlt)]
  dsimp only
  rw [← hfirst, Nat.mod_add_mod]
  split <;> rfl

/-- A scan for two or more bits returns the first run that ends before
    `scanEnd`, and -1 when there is none. -/
theorem bitmapScan32_run (ndebug : Bool) (hcnt : 2 ≤ cnt) (hcnt32 : cnt < 2 ^ 32)
    (hstart : FirstClear btmp start) :
    ∃ out, bitmapScan32 ndebug btmp cnt = .ok (scanResult out)
      ∧ (∀ r, out = some r → FirstRun btmp.bits (scanEnd btmp start) cnt r)
      ∧ (out = none → NoRun btmp.bits (scanEnd btmp start) cnt) := by
  have hcall := bitmapScan32_eq ndebug cnt hstart
  rw [if_neg (by omega)] at hcall
  have hlt := hstart.lt
  by_cases hhigh : start < 2 ^ 32
  · -- the loop finds what it finds without wrapping: behind the wrap the bits are set
    have hspec := @scanRun_spec btmp.bits cnt (scanEnd btmp start - (start + 1)) (start + 1) 1
      (by omega) (fun i h₁ h₂ => by rw [show i = start by omega]; exact hstart.clear)
      (fun r hr => hstart.not_clearRun (by omega) (by omega))
    have hend : start + 1 ≤ scanEnd btmp start := by
      unfold scanEnd
      split <;> omega
    rw [Nat.add_sub_cancel' hend] at hspec
    refine ⟨_, ?_, hspec⟩
    rw [hcall, Nat.mod_eq_of_lt hhigh]
    congr 1
    by_cases hlow : start ≤ 8 * btmp.btmpByteLen % 2 ^ 32
    · have hleft : (btmp.btmpByteLen * 8 + 2 ^ 32 - start) % 2 ^ 32
          = scanEnd btmp start - (start + 1) + 0 := by
        rw [scanEnd, if_pos hlow]
        omega
      rw [hleft]
      refine scanRun32_eq hcnt32 ?_ (by omega) (.inl rfl)
      rw [scanEnd, if_pos hlow]
      omega
    · -- the subtraction wraps: the loop goes on behind the last index
      have hleft : (btmp.btmpByteLen * 8 + 2 ^ 32 - start) % 2 ^ 32
          = scanEnd btmp start - (start + 1) + (8 * btmp.btmpByteLen % 2 ^ 32 + 1) := by
        rw [scanEnd, if_neg hlow]
        omega
      rw [hleft]
      refine scanRun32_eq hcnt32 ?_ (by omega) (.inr ⟨?_, fun i hi => ?_⟩)
      · rw [scanEnd, if_neg hlow]
        omega
      · rw [scanEnd, if_neg hlow]
        omega
      · rw [Nat.mod_eq_of_lt (by omega)]
        exact hstart.set_below i (by omega)
  · -- every bit with an index is set
    refine ⟨none, ?_, nofun, fun _ r hr hrun => ?_⟩
    · rw [hcall, scanResult]
      congr 1
      exact scanRun32_set (by omega) fun i _ => hstart.set_below _ (by omega)
    · refine hstart.not_clearRun (show 1 ≤ cnt by omega) (r := r) ?_ hrun
      have hend : scanEnd btmp start = 2 ^ 32 := by
        rw [scanEnd, if_neg (by omega)]
      omega

/-! ## First fit -/

/-- `bitmap_scan` is first fit: it returns the first run of `cnt` clear bits
    inside the map, and -1 when there is none. -/
def ScansFirstFit (ndebug : Bool) (btmp : Bitmap) (cnt : Nat) : Prop :=
  ∃ out, bitmapScan32 ndebug btmp cnt = .ok out
    ∧ (∀ r, FirstRun btmp.bits (8 * btmp.btmpByteLen) cnt r → out = r)
    ∧ (NoRun btmp.bits (8 * btmp.btmpByteLen) cnt → out = -1)

/-- The first run inside the map has an index below 2^31 and is looked at, or no
    run lies inside the map and none is met while one looks. -/
structure CountersFit (btmp : Bitmap) (cnt start : Nat) : Prop where
  run : ∀ r, FirstRun btmp.bits (8 * btmp.btmpByteLen) cnt r →
    r < 2 ^ 31 ∧ r + cnt ≤ scanEnd btmp start
  none : NoRun btmp.bits (8 * btmp.btmpByteLen) cnt → NoRun btmp.bits (scanEnd btmp start) cnt

theorem toInt32_eq (hr : r < 2 ^ 32) : toInt32 r = r ↔ r < 2 ^ 31 := by
  unfold toInt32
  split <;> omega

/-- For every map with a clear bit and every `cnt`. -/
theorem scansFirstFit_iff (ndebug : Bool) (btmp : Bitmap) (cnt start : Nat) (hcnt : 1 ≤ cnt)
    (hcnt32 : cnt < 2 ^ 32) (hstart : FirstClear btmp start) :
    ScansFirstFit ndebug btmp cnt ↔ CountersFit btmp cnt start := by
  by_cases hone : cnt = 1
  · subst hone
    have hcall := bitmapScan32_eq ndebug 1 hstart
    rw [if_pos rfl] at hcall
    -- the first clear bit is the first run of one
    have hrun : FirstRun btmp.bits (8 * btmp.btmpByteLen) 1 start := by
      refine ⟨hstart.lt, fun j hj => ?_, fun r hr => hstart.not_clearRun (Nat.le_refl 1) hr⟩
      rw [show start + j = start by omega]
      exact hstart.clear
    constructor
    · rintro ⟨out, hout, hfirst, -⟩
      rw [hcall] at hout
      have hlow : start < 2 ^ 31 := by
        have hint := hfirst start hrun
        rw [← Except.ok.inj hout, toInt32] at hint
        split at hint <;> omega
      refine ⟨fun r hr => ?_, fun hno => absurd hno hrun.not_noRun⟩
      rw [hr.unique hrun, scanEnd]
      split <;> omega
    · intro hfit
      obtain ⟨hlow, -⟩ := hfit.run start hrun
      refine ⟨_, hcall, fun r hr => ?_, fun hno => absurd hno hrun.not_noRun⟩
      rw [hr.unique hrun, Nat.mod_eq_of_lt (by omega), (toInt32_eq (by omega)).2 hlow]
  · -- what the last loop looks at decides between the map and `scanEnd`
    obtain ⟨out, hcall, hsome, hnone⟩ := bitmapScan32_run ndebug (by omega) hcnt32 hstart
    have hend : scanEnd btmp start ≤ 2 ^ 32 := by
      unfold scanEnd
      split <;> omega
    constructor
    · rintro ⟨out', hcall', hfirst, hno⟩
      obtain rfl : scanResult out = out' := Except.ok.inj (hcall.symm.trans hcall')
      refine ⟨fun r hr => ?_, fun hnorun => ?_⟩
      · have hint := hfirst r hr
        cases hout : out with
        | none =>
            rw [hout, scanResult] at hint
            omega
        | some r' =>
            have hrun := hsome r' hout
            have hends := hrun.ends
            rw [hr.unique hrun] at hint ⊢
            rw [hout, scanResult] at hint
            exact ⟨(toInt32_eq (by omega)).1 hint, hends⟩
      · cases hout : out with
        | none => exact hnone hout
        | some r =>
            have hends := (hsome r hout).ends
            have hint := hno hnorun
            rw [hout, scanResult, toInt32] at hint
            split at hint <;> omega
    · intro hfit
      refine ⟨_, hcall, fun r hr => ?_, fun hnorun => ?_⟩
      · obtain ⟨hlow, hends⟩ := hfit.run r hr
        cases hout : out with
        | none => exact absurd hr.clear (hnone hout r hends)
        | some r' =>
            rw [← hr.unique (hsome r' hout), scanResult]
            exact (toInt32_eq (by omega)).2 hlow
      · cases hout : out with
        | none => rfl
        | some r => exact absurd (hfit.none hnorun) (hsome r hout).not_noRun

/-- A run of `cnt` clear bits of which only the last lies behind the map. -/
def RunsOver (btmp : Bitmap) (cnt : Nat) : Prop :=
  ∃ r, r + cnt = 8 * btmp.btmpByteLen + 1 ∧ ClearRun btmp.bits cnt r

/-- For the maps whose bits an `int` counts, the scan is first fit unless no run
    lies inside the map and one runs past its end by a bit. -/
theorem countersFit_short (hshort : 8 * btmp.btmpByteLen < 2 ^ 31)
    (hstart : FirstClear btmp start) (hcnt : 1 ≤ cnt) : CountersFit btmp cnt start
      ↔ ¬ (NoRun btmp.bits (8 * btmp.btmpByteLen) cnt ∧ RunsOver btmp cnt) := by
  have hlt := hstart.lt
  have hend : scanEnd btmp start = 8 * btmp.btmpByteLen + 1 := by
    rw [scanEnd, Nat.mod_eq_of_lt (by omega), if_pos (by omega)]
  constructor
  · rintro hfit ⟨hno, r, hends, hrun⟩
    exact hfit.none hno r (by omega) hrun
  · intro hover
    refine ⟨fun r hr => ?_, fun hno r hends hrun => ?_⟩
    · have hends := hr.ends
      omega
    · by_cases hinside : r + cnt ≤ 8 * btmp.btmpByteLen
      · exact hno r hinside hrun
      · exact hover ⟨hno, r, by omega, hrun⟩

/-- One byte, of which only the last bit is clear, in front of zeros. -/
def lastBitClear : Bitmap := ⟨1, fun a => if a = 0 then 0x7F else 0⟩

theorem lastBitClear_first : FirstClear lastBitClear 7 := by
  refine ⟨by decide, by decide, fun j hj => ?_⟩
  interval_cases j <;> decide

/-- The last clear bit is found. -/
theorem scansFirstFit_iff_lastBit : ScansFirstFit false lastBitClear 1 := by
  refine (scansFirstFit_iff false lastBitClear 1 7 (by decide) (by decide) lastBitClear_first).2 ?_
  rw [countersFit_short (by decide) lastBitClear_first (by decide)]
  rintro ⟨hno, -⟩
  exact hno 7 (by decide) (by unfold ClearRun; decide)

/-- Two clear bits are not there, but the scan returns 7. -/
theorem not_scansFirstFit_over : ¬ ∀ btmp cnt, 1 ≤ cnt →
    (∃ i, i < 8 * btmp.btmpByteLen ∧ bitAt btmp.bits i = false) →
    ScansFirstFit false btmp cnt := by
  intro hall
  obtain ⟨out, hcall, -, hno⟩ := hall lastBitClear 2 (by decide) ⟨7, by decide, by decide⟩
  have hseven : bitmapScan32 false lastBitClear 2 = .ok 7 := by decide
  rw [hseven] at hcall
  have hnorun : NoRun lastBitClear.bits (8 * lastBitClear.btmpByteLen) 2 := by
    intro r hends hrun
    have hclear := hrun.bit (i := r) (Nat.le_refl r) (by omega)
    rw [lastBitClear_first.set_below r (by simp [lastBitClear] at hends; omega)] at hclear
    cases hclear
  have hminus := hno hnorun
  cases hcall
  exact absurd hminus (by decide)

end JackOS
