/-
  JackOS.Base.Bytes

  Flat byte memories: a memory gives every address a byte.  `copy` and `fill`
  are the effects of `memcpy` and `memset`, `le32` reads a little-endian
  32-bit word, and `wordBytes` lays an array of words out as bytes.  All
  lemmas are about which addresses a write touches and what a read sees.
-/

import Mathlib.Tactic.Common
import Mathlib.Algebra.Ring.Nat

namespace JackOS
namespace Base

/-- A byte memory. -/
abbrev Mem := Nat → UInt8

namespace Mem

/-- `memcpy(dst + off, src + srcOff, n)`. -/
def copy (dst : Mem) (off : Nat) (src : Mem) (srcOff n : Nat) : Mem :=
  fun a => if off ≤ a ∧ a < off + n then src (srcOff + (a - off)) else dst a

/-- `memset(dst + off, v, n)`. -/
def fill (dst : Mem) (off : Nat) (v : UInt8) (n : Nat) : Mem :=
  fun a => if off ≤ a ∧ a < off + n then v else dst a

/-- The all-zero memory. -/
def zero : Mem := fun _ => 0

@[simp] theorem zero_apply (a : Nat) : zero a = 0 := rfl

theorem copy_inside {dst src : Mem} {off srcOff n a : Nat} (h₁ : off ≤ a)
    (h₂ : a < off + n) : copy dst off src srcOff n a = src (srcOff + (a - off)) := by
  simp [copy, h₁, h₂]

theorem copy_outside {dst src : Mem} {off srcOff n a : Nat}
    (h : a < off ∨ off + n ≤ a) : copy dst off src srcOff n a = dst a := by
  rw [copy, if_neg (by omega)]

theorem fill_inside {dst : Mem} {off n a : Nat} {v : UInt8} (h₁ : off ≤ a)
    (h₂ : a < off + n) : fill dst off v n a = v := by
  simp [fill, h₁, h₂]

theorem fill_outside {dst : Mem} {off n a : Nat} {v : UInt8}
    (h : a < off ∨ off + n ≤ a) : fill dst off v n a = dst a := by
  rw [fill, if_neg (by omega)]

/-- Two copies in a row are one. -/
theorem copy_append (dst src : Mem) (off srcOff n m : Nat) :
    (dst.copy off src srcOff n).copy (off + n) src (srcOff + n) m = dst.copy off src srcOff (n + m) := by
  funext a
  by_cases h₁ : off ≤ a ∧ a < off + n
  · rw [copy_outside (by omega), copy_inside h₁.1 h₁.2, copy_inside h₁.1 (by omega)]
  · by_cases h₂ : off + n ≤ a ∧ a < off + n + m
    · rw [copy_inside h₂.1 h₂.2, copy_inside (by omega) (by omega)]
      exact congrArg src (by omega)
    · rw [copy_outside (by omega), copy_outside (by omega), copy_outside (by omega)]

/-- Reading `n` bytes at `base` into a buffer, changing `m` of them from `off`
    on and writing the buffer back changes just these bytes of the memory, as
    far as they lie in the buffer. -/
theorem copy_readModifyWrite (dst buf src : Mem) (base off srcOff m n : Nat) :
    dst.copy base ((buf.copy 0 dst base n).copy off src srcOff m) 0 n
      = dst.copy (base + off) src srcOff (min m (n - off)) := by
  funext a
  by_cases h : base + off ≤ a ∧ a < base + off + min m (n - off)
  · rw [copy_inside (by omega) (by omega), copy_inside (by omega) (by omega),
      copy_inside h.1 h.2]
    exact congrArg src (by omega)
  · have hout : dst.copy (base + off) src srcOff (min m (n - off)) a = dst a :=
      copy_outside (by omega)
    rw [hout]
    by_cases hin : base ≤ a ∧ a < base + n
    · rw [copy_inside hin.1 hin.2, copy_outside (by omega), copy_inside (by omega) (by omega)]
      exact congrArg dst (by omega)
    · exact copy_outside (by omega)

/-! ## Little-endian words -/

/-- The 32-bit word stored at address `a`. -/
def le32 (m : Mem) (a : Nat) : Nat :=
  (m a).toNat + 256 * (m (a + 1)).toNat + 65536 * (m (a + 2)).toNat
    + 16777216 * (m (a + 3)).toNat

theorem le32_lt (m : Mem) (a : Nat) : le32 m a < 2 ^ 32 := by
  have h0 := (m a).toNat_lt
  have h1 := (m (a + 1)).toNat_lt
  have h2 := (m (a + 2)).toNat_lt
  have h3 := (m (a + 3)).toNat_lt
  unfold le32
  omega

/-- A word depends on its four bytes only. -/
theorem le32_congr {m m' : Mem} {a a' : Nat}
    (h : ∀ i, i < 4 → m (a + i) = m' (a' + i)) : le32 m a = le32 m' a' := by
  have h0 := h 0 (by omega)
  have h1 := h 1 (by omega)
  have h2 := h 2 (by omega)
  have h3 := h 3 (by omega)
  simp only [Nat.add_zero] at h0
  simp only [le32, h0, h1, h2, h3]

@[simp] theorem le32_zero (a : Nat) : le32 zero a = 0 := rfl

/-- The bytes of an array of 32-bit words. -/
def wordBytes (w : Nat → Nat) : Mem := fun a => UInt8.ofNat (w (a / 4) / 256 ^ (a % 4))

theorem wordBytes_apply (w : Nat → Nat) (k i : Nat) (hi : i < 4) :
    (wordBytes w (4 * k + i)).toNat = w k / 256 ^ i % 256 := by
  have h1 : (4 * k + i) / 4 = k := by omega
  have h2 : (4 * k + i) % 4 = i := by omega
  simp [wordBytes, h1, h2]

/-- Reading word `k` back gives the stored value, cut to 32 bits. -/
theorem le32_wordBytes (w : Nat → Nat) (k : Nat) :
    le32 (wordBytes w) (4 * k) = w k % 2 ^ 32 := by
  have h0 := wordBytes_apply w k 0 (by omega)
  have h1 := wordBytes_apply w k 1 (by omega)
  have h2 := wordBytes_apply w k 2 (by omega)
  have h3 := wordBytes_apply w k 3 (by omega)
  simp only [Nat.add_zero, Nat.pow_zero, Nat.div_one] at h0
  simp only [le32, h0, h1, h2, h3]
  omega

/-! ## Stores -/

/-- Storing the 32-bit word `v` at `a`. -/
def store32 (m : Mem) (a v : Nat) : Mem := copy m a (wordBytes fun _ => v) 0 4

/-- Storing one byte. -/
def store8 (m : Mem) (a : Nat) (v : UInt8) : Mem := Function.update m a v

theorem store32_outside {m : Mem} {a v x : Nat} (h : x < a ∨ a + 4 ≤ x) :
    store32 m a v x = m x :=
  copy_outside h

theorem store8_outside {m : Mem} {a x : Nat} {v : UInt8} (h : x ≠ a) : store8 m a v x = m x :=
  Function.update_of_ne h _ _

@[simp] theorem store8_self (m : Mem) (a : Nat) (v : UInt8) : store8 m a v a = v :=
  Function.update_self _ _ _

/-- A word is read back as it was stored. -/
theorem le32_store32_self {m : Mem} {a v : Nat} (hv : v < 2 ^ 32) :
    le32 (store32 m a v) a = v := by
  have h : le32 (store32 m a v) a = le32 (wordBytes fun _ => v) (4 * 0) := by
    apply le32_congr
    intro i hi
    rw [store32, copy_inside (by omega) (by omega)]
    exact congrArg _ (by omega)
  rw [h, le32_wordBytes, Nat.mod_eq_of_lt hv]

/-- A word is untouched by stores to other bytes. -/
theorem le32_eq_of_outside {m m' : Mem} {a : Nat} (h : ∀ x, a ≤ x → x < a + 4 → m' x = m x) :
    le32 m' a = le32 m a :=
  le32_congr fun i hi => h (a + i) (by omega) (by omega)

theorem le32_store32_of_disjoint {m : Mem} {a b v : Nat} (h : a + 4 ≤ b ∨ b + 4 ≤ a) :
    le32 (store32 m a v) b = le32 m b :=
  le32_eq_of_outside fun _ _ _ => store32_outside (by omega)

end Mem

end Base
end JackOS
