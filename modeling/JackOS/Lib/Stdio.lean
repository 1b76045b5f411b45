/-
  JackOS.Lib.Stdio

  `itoa`, `vsprintf` and `sprintf` of lib/stdio.c.  The destination is an array
  with a cursor: everything before the cursor is written, and a numeral goes
  behind it digit by digit, the highest first.  `vsprintf` stores no NUL of its
  own; only `%s`, which is a `strcpy`, leaves one.

  A `va_list` is the list of the slots that `va_arg` reads.
-/

import JackOS.Lib.String
import Mathlib.Data.Nat.Digits.Lemmas
import Mathlib.Data.List.TakeWhile

namespace JackOS

open Base

/-! ## Numbers -/

/-- `m + '0'`, or `m - 10 + 'A'` -/
def digitChar (m : Nat) : UInt8 := if m < 10 then UInt8.ofNat (m + 48) else UInt8.ofNat (m - 10 + 65)

/-- `itoa` with the cursor at index `k`, at most `fuel` calls deep. -/
def itoaRec (base : Nat) : (fuel value : Nat) → (buf : Buf) → (k : Nat) → Outcome (Buf × Nat)
  | 0, _, _, _ => .error .diverges
  | fuel + 1, value, buf, k =>
      if base = 0 then .error .undefined
      else do
        let m := value % base
        let i := value / base
        -- the higher digits first
        let (buf, k) ← if i ≠ 0 then itoaRec base fuel i buf k else .ok (buf, k)
        let buf ← buf.store k (digitChar m)
        .ok (buf, k + 1)

/-- `itoa`; a quotient is less than the number unless the base is 1. -/
def itoa (value : Nat) (buf : Buf) (k base : Nat) : Outcome (Buf × Nat) :=
  itoaRec base (value + 1) value buf k

/-- The numeral of `n`, the highest digit first. -/
def numeral (base n : Nat) : List UInt8 :=
  if n = 0 then [48] else (Nat.digits base n).reverse.map digitChar

/-- The value of a digit. -/
def digitVal (c : UInt8) : Nat := if c.toNat < 58 then c.toNat - 48 else c.toNat - 65 + 10

/-- The number that the digits are read as. -/
def readNumeral (base : Nat) (ds : List UInt8) : Nat :=
  ds.foldl (fun n c => n * base + digitVal c) 0

/-- '0' to '9' and letters from 'A' on, as many as the base has digits. -/
def IsDigit (base : Nat) (c : UInt8) : Prop :=
  (48 ≤ c.toNat ∧ c.toNat ≤ 57 ∨ 65 ≤ c.toNat ∧ c.toNat ≤ 90) ∧ digitVal c < base

variable {base m n : Nat}

theorem digitChar_toNat (hm : m < 36) :
    (digitChar m).toNat = if m < 10 then m + 48 else m - 10 + 65 := by
  unfold digitChar
  split
  · exact UInt8.toNat_ofNat_of_lt' (by rw [UInt8.size]; omega)
  · exact UInt8.toNat_ofNat_of_lt' (by rw [UInt8.size]; omega)

theorem digitVal_digitChar (hm : m < 36) : digitVal (digitChar m) = m := by
  rw [digitVal, digitChar_toNat hm]
  split_ifs <;> omega

theorem digitChar_isDigit (hm : m < base) (hbase : base ≤ 36) : IsDigit base (digitChar m) := by
  have hlt : m < 36 := Nat.lt_of_lt_of_le hm hbase
  refine ⟨?_, by rwa [digitVal_digitChar hlt]⟩
  rw [digitChar_toNat hlt]
  split_ifs <;> omega

theorem digitChar_ne_zero (hm : m < 36) (hpos : m ≠ 0) : digitChar m ≠ 48 := by
  intro heq
  have hval := congrArg digitVal heq
  rw [digitVal_digitChar hm] at hval
  exact hpos hval

/-- A number of one digit. -/
theorem numeral_of_lt (hn : n < base) : numeral base n = [digitChar n] := by
  unfold numeral
  split
  · subst_vars
    rfl
  · rw [Nat.digits_of_lt base n ‹_› hn]
    rfl

/-- The last digit is the remainder. -/
theorem numeral_of_le (hbase : 2 ≤ base) (hn : base ≤ n) :
    numeral base n = numeral base (n / base) ++ [digitChar (n % base)] := by
  have hpos : n / base ≠ 0 := Nat.ne_of_gt (Nat.div_pos hn (by omega))
  rw [numeral, numeral, if_neg (by omega), if_neg hpos,
    Nat.digits_eq_cons_digits_div (by omega) (by omega), List.reverse_cons, List.map_append]
  rfl

/-- Digits of a number come from remainders. -/
theorem numeral_digits (hbase : 2 ≤ base) : ∀ c ∈ numeral base n, ∃ m, m < base ∧ c = digitChar m := by
  unfold numeral
  split
  · intro c hc
    exact ⟨0, by omega, List.mem_singleton.1 hc⟩
  · intro c hc
    obtain ⟨m, hm, rfl⟩ := List.mem_map.1 hc
    exact ⟨m, Nat.digits_lt_base (by omega) (List.mem_reverse.1 hm), rfl⟩

theorem numeral_ne_nil : numeral base n ≠ [] := by
  unfold numeral
  split
  · exact List.cons_ne_nil _ _
  · rw [ne_eq, List.map_eq_nil_iff, List.reverse_eq_nil_iff]
    exact Nat.digits_ne_nil_iff_ne_zero.2 ‹_›

/-- The first digit is not '0', unless the number is. -/
theorem numeral_head (hbase : 2 ≤ base) (hle : base ≤ 36) (hn : n ≠ 0) :
    (numeral base n).head? ≠ some 48 := by
  have hne := Nat.digits_ne_nil_iff_ne_zero (b := base).2 hn
  have hlast := Nat.getLast_digit_ne_zero base hn
  have hlt := Nat.digits_lt_base (by omega : 1 < base) (List.getLast_mem hne)
  rw [numeral, if_neg hn, List.head?_map, List.head?_reverse, List.getLast?_eq_some_getLast hne]
  intro heq
  exact digitChar_ne_zero (by omega) hlast (Option.some.inj heq)

/-- Reading a numeral gives the number back. -/
theorem readNumeral_numeral (hbase : 2 ≤ base) (hle : base ≤ 36) :
    readNumeral base (numeral base n) = n := by
  induction n using Nat.strong_induction_on with
  | _ n ih =>
      by_cases hn : n < base
      · rw [numeral_of_lt hn, readNumeral]
        simp only [List.foldl_cons, List.foldl_nil]
        rw [digitVal_digitChar (by omega)]
        omega
      · have hmod : n % base < 36 := Nat.lt_of_lt_of_le (Nat.mod_lt n (by omega)) hle
        have hread := ih (n / base) (Nat.div_lt_self (by omega) hbase)
        rw [numeral_of_le hbase (by omega), readNumeral, List.foldl_append]
        rw [readNumeral] at hread
        rw [hread]
        simp only [List.foldl_cons, List.foldl_nil]
        rw [digitVal_digitChar hmod, Nat.mul_comm]
        exact Nat.div_add_mod n base

/-! ## itoa -/

theorem itoaRec_eq {fuel value : Nat} (hbase : 2 ≤ base) (hfuel : value < fuel) (s rest : List UInt8)
    (hroom : (numeral base value).length ≤ rest.length) :
    itoaRec base fuel value (s ++ rest) s.length
      = .ok (s ++ numeral base value ++ rest.drop (numeral base value).length,
          (s ++ numeral base value).length) := by
  induction fuel generalizing value rest with
  | zero => exact absurd hfuel (Nat.not_lt_zero _)
  | succ fuel ih =>
      rw [itoaRec, if_neg (by omega)]
      dsimp only
      by_cases hlt : value < base
      · -- the last call: no higher digits
        rw [numeral_of_lt hlt] at hroom ⊢
        obtain ⟨a, rest, rfl⟩ := List.exists_cons_of_ne_nil (List.ne_nil_of_length_pos hroom)
        rw [if_neg (by rw [not_not]; exact Nat.div_eq_of_lt hlt), Outcome.ok_bind,
          Buf.store_append, Outcome.ok_bind, Nat.mod_eq_of_lt hlt]
        simp
      · have hdiv : value / base ≠ 0 := Nat.ne_of_gt (Nat.div_pos (by omega) (by omega))
        have hsmall := Nat.div_lt_self (by omega : 0 < value) hbase
        rw [numeral_of_le hbase (by omega)] at hroom ⊢
        rw [List.length_append, List.length_singleton] at hroom
        rw [if_pos hdiv, ih (by omega) rest (by omega), Outcome.ok_bind]
        have hne : rest.drop (numeral base (value / base)).length ≠ [] := by
          rw [ne_eq, List.drop_eq_nil_iff]
          omega
        obtain ⟨a, rest', hrest⟩ := List.exists_cons_of_ne_nil hne
        have htail : rest.drop ((numeral base (value / base)).length + 1) = rest' := by
          rw [← List.drop_drop, hrest]
          rfl
        rw [hrest]
        dsimp only
        rw [Buf.store_append, Outcome.ok_bind]
        simp only [List.length_append, List.length_singleton, htail, List.append_assoc,
          List.cons_append, List.nil_append, Nat.add_assoc]

/-- `itoa` puts the numeral behind what was written, and the cursor behind the
    numeral. -/
theorem itoa_eq (hbase : 2 ≤ base) (value : Nat) (s rest : List UInt8)
    (hroom : (numeral base value).length ≤ rest.length) :
    itoa value (s ++ rest) s.length base
      = .ok (s ++ numeral base value ++ rest.drop (numeral base value).length,
          (s ++ numeral base value).length) :=
  itoaRec_eq hbase (Nat.lt_succ_self value) s rest hroom

/-- For each number and base there are digits that `itoa` writes wherever they
    fit: valid in the base, without a leading zero, and read back as the
    number. -/
theorem itoa_roundTrip (value base : Nat) (hbase : 2 ≤ base ∧ base ≤ 36) :
    ∃ ds : List UInt8, ds ≠ [] ∧ (∀ c ∈ ds, IsDigit base c)
      ∧ (ds.head? = some 48 → value = 0 ∧ ds = [48]) ∧ readNumeral base ds = value
      ∧ ∀ s rest : List UInt8, ds.length ≤ rest.length →
        itoa value (s ++ rest) s.length base
          = .ok (s ++ ds ++ rest.drop ds.length, s.length + ds.length) := by
  obtain ⟨hge, hle⟩ := hbase
  refine ⟨numeral base value, numeral_ne_nil, fun c hc => ?_, fun hhead => ?_,
    readNumeral_numeral hge hle, fun s rest hroom => ?_⟩
  · obtain ⟨m, hm, rfl⟩ := numeral_digits hge c hc
    exact digitChar_isDigit hm hle
  · have hzero : value = 0 := by
      by_contra hne
      exact numeral_head hge hle hne hhead
    exact ⟨hzero, if_pos hzero⟩
  · rw [itoa_eq hge value s rest hroom, List.length_append]

theorem itoa_roundTrip_hex : ∃ ds : List UInt8, ds ≠ [] ∧ (∀ c ∈ ds, IsDigit 16 c)
    ∧ (ds.head? = some 48 → 0xBEEF = 0 ∧ ds = [48]) ∧ readNumeral 16 ds = 0xBEEF
    ∧ ∀ s rest : List UInt8, ds.length ≤ rest.length →
      itoa 0xBEEF (s ++ rest) s.length 16
        = .ok (s ++ ds ++ rest.drop ds.length, s.length + ds.length) :=
  itoa_roundTrip 0xBEEF 16 ⟨by decide, by decide⟩

/-! ## vsprintf -/

/-- A slot that `va_arg` reads: a word, or a pointer to an array. -/
inductive VaArg where
  | int (v : UInt32)
  | ptr (b : Buf)
deriving DecidableEq, Repr

/-- `va_arg(ap, int)`; a `char` is read from the slot's low byte. -/
def vaInt : (ap : List VaArg) → Outcome (UInt32 × List VaArg)
  | .int v :: ap => .ok (v, ap)
  | _ => .error .undefined

/-- `va_arg(ap, char*)` -/
def vaPtr : (ap : List VaArg) → Outcome (Buf × List VaArg)
  | .ptr b :: ap => .ok (b, ap)
  | _ => .error .undefined

/-- The body of the `switch` on the character behind a '%', with `buf_ptr` at
    index `k`: what is left of `ap`, `str` and the new `k`.  `none` is the
    default case, in which the character is not passed over. -/
def vsprintfSwitch (indexChar : UInt8) (ap : List VaArg) (str : Buf) (k : Nat) :
    Outcome (Option (List VaArg × Buf × Nat)) :=
  if indexChar = 115 then do  -- 's'
    let (argStr, ap) ← vaPtr ap
    let str ← copyString str k argStr
    let n ← strlen argStr
    .ok (some (ap, str, k + n))
  else if indexChar = 99 then do  -- 'c'
    let (arg, ap) ← vaInt ap
    let str ← str.store k arg.toUInt8
    .ok (some (ap, str, k + 1))
  else if indexChar = 98 then do  -- 'b'
    let (argInt, ap) ← vaInt ap
    let (str, k) ← itoa argInt.toNat str k 2
    .ok (some (ap, str, k))
  else if indexChar = 111 then do  -- 'o'
    let (argInt, ap) ← vaInt ap
    let (str, k) ← itoa argInt.toNat str k 8
    .ok (some (ap, str, k))
  else if indexChar = 100 then do  -- 'd'
    let (argInt, ap) ← vaInt ap
    if argInt.toInt32 < 0 then
      let argInt := 0 - argInt
      let str ← str.store k 45
      let (str, k) ← itoa argInt.toNat str (k + 1) 10
      .ok (some (ap, str, k))
    else
      let (str, k) ← itoa argInt.toNat str k 10
      .ok (some (ap, str, k))
  else if indexChar = 120 then do  -- 'x'
    let (argInt, ap) ← vaInt ap
    let (str, k) ← itoa argInt.toNat str k 16
    .ok (some (ap, str, k))
  else if indexChar = 37 then do  -- '%'
    let str ← str.store k 37
    .ok (some (ap, str, k + 1))
  else .ok none

/-- The loop of `vsprintf` with `index_ptr` at `format` and `buf_ptr` at index
    `k` of `str`. -/
def vsprintfLoop : (format : Buf) → (ap : List VaArg) → (str : Buf) → (k : Nat) →
    Outcome (Buf × Nat)
  | [], _, _, _ => .error .undefined
  | indexChar :: format, ap, str, k =>
      if indexChar = 0 then .ok (str, k)
      else if indexChar ≠ 37 then do
        let str ← str.store k indexChar
        vsprintfLoop format ap str (k + 1)
      else
        match format with
        | [] => .error .undefined
        | indexChar :: rest => do
            let r ← vsprintfSwitch indexChar ap str k
            match r with
            | some (ap, str, k) => vsprintfLoop rest ap str k
            | none => vsprintfLoop (indexChar :: rest) ap str k

/-- `vsprintf`: the length it returns, and the array. -/
def vsprintf (str format : Buf) (ap : List VaArg) : Outcome (Nat × Buf) := do
  let (str, _) ← vsprintfLoop format ap str 0
  let n ← strlen str
  .ok (n, str)

/-! ## Formats -/

/-- A piece of a format: a literal character or a conversion, with the
    argument that it takes. -/
inductive Piece where
  | lit (c : UInt8)
  | bin (v : UInt32)
  | dec (v : Int32)
  | oct (v : UInt32)
  | hex (v : UInt32)
  | percent
  | chr (v : UInt32)
  | str (b : Buf) (s : List UInt8)
deriving DecidableEq, Repr

/-- Literals are neither NUL nor '%', a `%c` argument is not NUL and a `%s`
    argument is a string. -/
def Piece.Ok : Piece → Prop
  | .lit c => c ≠ 0 ∧ c ≠ 37
  | .chr v => v.toUInt8 ≠ 0
  | .str b s => CString b s
  | _ => True

/-- What the format has for the piece. -/
def Piece.format : Piece → List UInt8
  | .lit c => [c]
  | .bin _ => [37, 98]
  | .dec _ => [37, 100]
  | .oct _ => [37, 111]
  | .hex _ => [37, 120]
  | .percent => [37, 37]
  | .chr _ => [37, 99]
  | .str _ _ => [37, 115]

/-- The slots that the piece takes. -/
def Piece.args : Piece → List VaArg
  | .bin v | .oct v | .hex v | .chr v => [.int v]
  | .dec v => [.int v.toUInt32]
  | .str b _ => [.ptr b]
  | _ => []

/-- The decimal numeral of an integer. -/
def signedNumeral (z : Int) : List UInt8 :=
  if z < 0 then 45 :: numeral 10 z.natAbs else numeral 10 z.natAbs

/-- What the piece is converted to. -/
def Piece.text : Piece → List UInt8
  | .lit c => [c]
  | .bin v => numeral 2 v.toNat
  | .dec v => signedNumeral v.toInt
  | .oct v => numeral 8 v.toNat
  | .hex v => numeral 16 v.toNat
  | .percent => [37]
  | .chr v => [v.toUInt8]
  | .str _ s => s

/-- What is behind the piece's text, where `rest` was: `strcpy` leaves a NUL. -/
def Piece.leave (p : Piece) (rest : Buf) : Buf :=
  match p with
  | .str _ s => 0 :: rest.drop (s.length + 1)
  | p => rest.drop p.text.length

/-! ## One piece -/

variable {p : Piece} {ps : List Piece} {format str : Buf} {ap ap' : List VaArg} {k : Nat}

theorem vsprintfLoop_nul : vsprintfLoop (0 :: format) ap str k = .ok (str, k) := by
  rw [vsprintfLoop.eq_def]
  exact if_pos rfl

theorem vsprintfLoop_lit {c : UInt8} (h0 : c ≠ 0) (hpercent : c ≠ 37) :
    vsprintfLoop (c :: format) ap str k
      = (str.store k c >>= fun str => vsprintfLoop format ap str (k + 1)) := by
  conv_lhs => rw [vsprintfLoop.eq_def]
  exact (if_neg h0).trans (if_pos hpercent)

/-- A conversion that is passed over. -/
theorem vsprintfLoop_conv {d : UInt8} {str' : Buf} {k' : Nat}
    (h : vsprintfSwitch d ap str k = .ok (some (ap', str', k'))) :
    vsprintfLoop (37 :: d :: format) ap str k = vsprintfLoop format ap' str' k' := by
  rw [vsprintfLoop, if_neg (by decide), if_neg (by decide), h, Outcome.ok_bind]

/-- The conversions that hand their argument to `itoa`. -/
theorem convertNumber (hbase : 2 ≤ base) (v : UInt32) (s rest : List UInt8)
    (hroom : (numeral base v.toNat).length ≤ rest.length) :
    (do
      let (argInt, ap) ← vaInt (.int v :: ap)
      let (str, k) ← itoa argInt.toNat (s ++ rest) s.length base
      .ok (some (ap, str, k)) : Outcome (Option (List VaArg × Buf × Nat)))
      = .ok (some (ap, s ++ numeral base v.toNat ++ rest.drop (numeral base v.toNat).length,
          (s ++ numeral base v.toNat).length)) := by
  rw [vaInt, Outcome.ok_bind]
  dsimp only
  rw [itoa_eq hbase v.toNat s rest hroom]
  rfl

theorem toNat_of_nonneg {v : Int32} (h : ¬ v.toInt < 0) : v.toUInt32.toNat = v.toInt.natAbs := by
  have hnat : v.toUInt32.toNat = v.toBitVec.toNat := rfl
  have hint : v.toInt = v.toBitVec.toInt := rfl
  rw [hint, BitVec.toInt_eq_toNat_cond] at h
  rw [hnat, hint, BitVec.toInt_eq_toNat_cond]
  have hlt := v.toBitVec.isLt
  split at h
  · rw [if_pos ‹_›]
    omega
  · omega

/-- The most negative number is its own negation, and is printed as the
    unsigned number that it is. -/
theorem toNat_of_neg {v : Int32} (h : v.toInt < 0) :
    (0 - v.toUInt32).toNat = v.toInt.natAbs := by
  have hnat : (0 - v.toUInt32).toNat = (0 - v.toBitVec).toNat := rfl
  have hint : v.toInt = v.toBitVec.toInt := rfl
  rw [hint, BitVec.toInt_eq_toNat_cond] at h
  rw [hnat, hint, BitVec.toInt_eq_toNat_cond]
  bv_omega

/-- `%d` -/
theorem convertDec (v : Int32) (s rest : List UInt8)
    (hroom : (signedNumeral v.toInt).length < rest.length) :
    vsprintfSwitch 100 (.int v.toUInt32 :: ap) (s ++ rest) s.length
      = .ok (some (ap, s ++ signedNumeral v.toInt ++ rest.drop (signedNumeral v.toInt).length,
          (s ++ signedNumeral v.toInt).length)) := by
  have hswitch : vsprintfSwitch 100 (.int v.toUInt32 :: ap) (s ++ rest) s.length
      = (if v.toUInt32.toInt32 < 0 then do
          let str ← Buf.store (s ++ rest) s.length 45
          let (str, k) ← itoa (0 - v.toUInt32).toNat str (s.length + 1) 10
          .ok (some (ap, str, k))
        else do
          let (str, k) ← itoa v.toUInt32.toNat (s ++ rest) s.length 10
          .ok (some (ap, str, k))) := rfl
  rw [hswitch, Int32.toInt32_toUInt32]
  have hzero : v < 0 ↔ v.toInt < 0 := Int32.lt_iff_toInt_lt
  unfold signedNumeral at hroom ⊢
  by_cases hneg : v.toInt < 0
  · rw [if_pos hneg, List.length_cons] at hroom
    rw [if_pos (hzero.2 hneg), if_pos hneg, Buf.store_room s 45 (by omega), Outcome.ok_bind,
      toNat_of_neg hneg]
    have hitoa := @itoa_eq 10 (by decide) v.toInt.natAbs (s ++ [45]) (rest.drop 1)
      (by rw [List.length_drop]; omega)
    rw [List.append_assoc, List.length_append] at hitoa
    rw [show s ++ 45 :: rest.drop 1 = s ++ ([45] ++ rest.drop 1) from rfl,
      show s.length + 1 = s.length + [(45 : UInt8)].length from rfl, hitoa, Outcome.ok_bind]
    dsimp only
    rw [List.append_assoc s, List.drop_drop, List.length_cons, Nat.add_comm 1]
    rfl
  · rw [if_neg hneg] at hroom
    rw [if_neg (mt hzero.1 hneg), if_neg hneg, toNat_of_nonneg hneg,
      itoa_eq (by decide) _ s rest (Nat.le_of_lt hroom), Outcome.ok_bind]

/-- A piece puts its text behind what was written. -/
theorem vsprintfLoop_piece (hok : p.Ok) (s rest : List UInt8) (hroom : p.text.length < rest.length) :
    vsprintfLoop (p.format ++ format) (p.args ++ ap) (s ++ rest) s.length
      = vsprintfLoop format ap (s ++ p.text ++ p.leave rest) (s ++ p.text).length := by
  have hpos : 0 < rest.length := Nat.lt_of_le_of_lt (Nat.zero_le _) hroom
  cases p with
  | lit c =>
      obtain ⟨h0, hpercent⟩ := hok
      refine (vsprintfLoop_lit h0 hpercent).trans ?_
      rw [Buf.store_room s c hpos, Outcome.ok_bind, List.length_append, List.append_assoc]
      rfl
  | bin v => exact vsprintfLoop_conv (convertNumber (by decide) v s rest (Nat.le_of_lt hroom))
  | dec v => exact vsprintfLoop_conv (convertDec v s rest hroom)
  | oct v => exact vsprintfLoop_conv (convertNumber (by decide) v s rest (Nat.le_of_lt hroom))
  | hex v => exact vsprintfLoop_conv (convertNumber (by decide) v s rest (Nat.le_of_lt hroom))
  | percent =>
      have hstore : vsprintfSwitch 37 ap (s ++ rest) s.length
          = .ok (some (ap, s ++ 37 :: rest.drop 1, s.length + 1)) := by
        change (Buf.store (s ++ rest) s.length 37 >>= fun str => .ok (some (ap, str, _))) = _
        rw [Buf.store_room s 37 hpos, Outcome.ok_bind]
      refine (vsprintfLoop_conv hstore).trans ?_
      rw [List.length_append, List.append_assoc]
      rfl
  | chr v =>
      have hstore : vsprintfSwitch 99 (.int v :: ap) (s ++ rest) s.length
          = .ok (some (ap, s ++ v.toUInt8 :: rest.drop 1, s.length + 1)) := by
        change (Buf.store (s ++ rest) s.length v.toUInt8
          >>= fun str => .ok (some (ap, str, _))) = _
        rw [Buf.store_room s _ hpos, Outcome.ok_bind]
      refine (vsprintfLoop_conv hstore).trans ?_
      rw [List.length_append, List.append_assoc]
      rfl
  | str b t =>
      have hok : CString b t := hok
      have hcopy : vsprintfSwitch 115 (.ptr b :: ap) (s ++ rest) s.length
          = .ok (some (ap, s ++ t ++ 0 :: rest.drop (t.length + 1), s.length + t.length)) := by
        change (copyString (s ++ rest) s.length b >>= fun str =>
          strlen b >>= fun n => .ok (some (ap, str, s.length + n))) = _
        rw [hok.copyString_eq s rest hroom, Outcome.ok_bind, hok.strlen, Outcome.ok_bind]
      refine (vsprintfLoop_conv hcopy).trans ?_
      rw [List.length_append]
      rfl

/-! ## All pieces -/

/-- The texts of the pieces, one behind the other. -/
def texts (ps : List Piece) : List UInt8 := ps.flatMap Piece.text

/-- What the pieces leave behind their texts. -/
def leaves (ps : List Piece) (rest : Buf) : Buf := ps.foldl (fun rest p => p.leave rest) rest

theorem Piece.leave_length (p : Piece) {rest : Buf} (h : p.text.length < rest.length) :
    (p.leave rest).length = rest.length - p.text.length := by
  unfold Piece.leave
  split
  · rename_i b s
    have hlen : s.length < rest.length := h
    rw [List.length_cons, List.length_drop]
    change rest.length - (s.length + 1) + 1 = rest.length - s.length
    omega
  · rw [List.length_drop]

/-- A run of the loop over the pieces, up to the NUL of the format. -/
theorem vsprintfLoop_pieces (hok : ∀ p ∈ ps, p.Ok) (s rest : List UInt8)
    (hroom : (texts ps).length < rest.length) :
    vsprintfLoop (ps.flatMap Piece.format ++ 0 :: format) (ps.flatMap Piece.args ++ ap) (s ++ rest)
        s.length
      = .ok (s ++ texts ps ++ leaves ps rest, (s ++ texts ps).length) := by
  induction ps generalizing s rest with
  | nil => exact vsprintfLoop_nul.trans (by rw [texts, leaves, List.flatMap_nil, List.append_nil]; rfl)
  | cons p ps ih =>
      have htexts : texts (p :: ps) = p.text ++ texts ps := List.flatMap_cons
      rw [htexts, List.length_append] at hroom
      have hfirst : p.text.length < rest.length := by omega
      have hleft : (texts ps).length < (p.leave rest).length := by
        rw [p.leave_length hfirst]
        omega
      rw [List.flatMap_cons, List.flatMap_cons, List.append_assoc, List.append_assoc,
        vsprintfLoop_piece (hok p List.mem_cons_self) s rest hfirst,
        ih (fun q hq => hok q (List.mem_cons_of_mem _ hq)) (s ++ p.text) (p.leave rest) hleft,
        htexts, List.append_assoc s]
      rfl

/-- The last piece is a `%s`. -/
def EndsInString (ps : List Piece) : Prop := ∃ b s, ps.getLast? = some (.str b s)

/-- Only `%s` can have an empty text. -/
theorem Piece.text_ne_nil (hnot : ∀ b s, p ≠ .str b s) : p.text ≠ [] := by
  cases p with
  | str b s => exact absurd rfl (hnot b s)
  | dec v =>
      simp only [Piece.text, signedNumeral]
      split
      · exact List.cons_ne_nil _ _
      · exact numeral_ne_nil
  | bin v | oct v | hex v => exact numeral_ne_nil
  | lit c | percent | chr v => exact List.cons_ne_nil _ _

/-- The array behind the output: as it was, but for the NUL of a last `%s`. -/
theorem leaves_eq (ps : List Piece) (rest : Buf) :
    (EndsInString ps ∧ leaves ps rest = 0 :: rest.drop ((texts ps).length + 1))
      ∨ (¬ EndsInString ps ∧ leaves ps rest = rest.drop (texts ps).length) := by
  induction ps using List.reverseRecOn with
  | nil => exact .inr ⟨fun ⟨_, _, h⟩ => (by cases h), rfl⟩
  | append_singleton ps p ih =>
      have hleaves : leaves (ps ++ [p]) rest = p.leave (leaves ps rest) := by
        rw [leaves, List.foldl_append]
        rfl
      have htexts : (texts (ps ++ [p])).length = (texts ps).length + p.text.length := by
        rw [texts, List.flatMap_append, List.length_append, List.flatMap_singleton]
        rfl
      -- an earlier NUL is overwritten by the next character
      have hdrop : ∀ n, 0 < n → (leaves ps rest).drop n = rest.drop ((texts ps).length + n) := by
        intro n hn
        obtain ⟨m, rfl⟩ := Nat.exists_eq_add_of_lt hn
        rcases ih with ⟨-, heq⟩ | ⟨-, heq⟩
        · rw [heq, Nat.zero_add, List.drop_succ_cons, List.drop_drop]
          congr 1
          omega
        · rw [heq, List.drop_drop]
      rw [hleaves, htexts]
      by_cases hstr : ∃ b s, p = .str b s
      · obtain ⟨b, s, rfl⟩ := hstr
        refine .inl ⟨⟨b, s, List.getLast?_concat⟩, ?_⟩
        change 0 :: (leaves ps rest).drop (s.length + 1) = _
        rw [hdrop _ (Nat.succ_pos _)]
        rfl
      · have hne : ∀ b s, p ≠ .str b s := fun b s heq => hstr ⟨b, s, heq⟩
        refine .inr ⟨fun ⟨b, s, hlast⟩ => ?_, ?_⟩
        · rw [List.getLast?_concat] at hlast
          exact hne b s (Option.some.inj hlast)
        · have hpos := List.length_pos_of_ne_nil (Piece.text_ne_nil hne)
          rw [← hdrop _ hpos]
          cases p with
          | str b s => exact absurd rfl (hne b s)
          | lit | bin | dec | oct | hex | percent | chr => rfl

/-- What is printed has no NUL. -/
theorem numeral_noNul (hbase : 2 ≤ base) (hle : base ≤ 36) : 0 ∉ numeral base n := by
  intro hmem
  obtain ⟨m, hm, heq⟩ := numeral_digits hbase 0 hmem
  have hval := digitChar_toNat (m := m) (by omega)
  rw [← heq] at hval
  split at hval <;> cases hval

theorem Piece.text_noNul (hok : p.Ok) : 0 ∉ p.text := by
  cases p with
  | lit c => exact fun hmem => hok.1 (List.mem_singleton.1 hmem).symm
  | bin v | oct v | hex v => exact numeral_noNul (by decide) (by decide)
  | dec v =>
      simp only [Piece.text, signedNumeral]
      split
      · rw [List.mem_cons, not_or]
        exact ⟨by decide, numeral_noNul (by decide) (by decide)⟩
      · exact numeral_noNul (by decide) (by decide)
  | percent => decide
  | chr v => exact fun hmem => hok (List.mem_singleton.1 hmem).symm
  | str b s =>
      obtain ⟨_, -, hnot⟩ := hok
      exact hnot

theorem texts_noNul (hok : ∀ p ∈ ps, p.Ok) : 0 ∉ texts ps := by
  intro hmem
  obtain ⟨p, hp, hmem⟩ := List.mem_flatMap.1 hmem
  exact Piece.text_noNul (hok p hp) hmem

/-- `vsprintf` writes the output and does not touch what is behind it, but for
    the NUL of a last `%s`. -/
theorem vsprintf_eq (hok : ∀ p ∈ ps, p.Ok) (hformat : CString format (ps.flatMap Piece.format))
    (hroom : (texts ps).length < str.length) :
    vsprintf str format (ps.flatMap Piece.args)
      = (strlen (texts ps ++ leaves ps str) >>= fun n => .ok (n, texts ps ++ leaves ps str)) := by
  obtain ⟨rest, rfl, -⟩ := hformat
  have hloop := @vsprintfLoop_pieces ps rest [] hok [] str hroom
  rw [List.append_nil, List.nil_append, List.nil_append] at hloop
  rw [vsprintf, show 0 = ([] : List UInt8).length from rfl, hloop, Outcome.ok_bind]

/-- The array holds the output, and its length is returned. -/
def Prints (str format : Buf) (ap : List VaArg) (out : List UInt8) : Prop :=
  ∃ str', vsprintf str format ap = .ok (out.length, str') ∧ CString str' out

/-- The output ends where a NUL is left behind it. -/
theorem leaves_cons_iff (hroom : (texts ps).length < str.length) :
    (∃ tail, leaves ps str = 0 :: tail) ↔ EndsInString ps ∨ str[(texts ps).length]? = some 0 := by
  rcases leaves_eq ps str with ⟨hends, heq⟩ | ⟨hnot, heq⟩
  · exact ⟨fun _ => .inl hends, fun _ => ⟨_, heq⟩⟩
  · rw [heq, or_iff_right hnot, List.getElem?_eq_getElem hroom, Option.some_inj,
      List.drop_eq_getElem_cons hroom]
    constructor
    · rintro ⟨tail, htail⟩
      exact (List.cons.inj htail).1
    · intro hzero
      exact ⟨_, by rw [hzero]⟩

theorem prints_of_leaves (hok : ∀ p ∈ ps, p.Ok)
    (hformat : CString format (ps.flatMap Piece.format)) (hroom : (texts ps).length < str.length)
    {tail : Buf} (hleaves : leaves ps str = 0 :: tail) :
    Prints str format (ps.flatMap Piece.args) (texts ps) := by
  have hstr : CString (texts ps ++ leaves ps str) (texts ps) := ⟨tail, by rw [hleaves], texts_noNul hok⟩
  refine ⟨_, ?_, hstr⟩
  rw [vsprintf_eq hok hformat hroom, hstr.strlen, Outcome.ok_bind]

/-- `vsprintf` prints its output exactly if the last conversion is a `%s`, or
    the array already had a NUL right behind where the output ends. -/
theorem vsprintf_iff (hok : ∀ p ∈ ps, p.Ok) (hformat : CString format (ps.flatMap Piece.format))
    (hroom : (texts ps).length < str.length) :
    Prints str format (ps.flatMap Piece.args) (texts ps)
      ↔ EndsInString ps ∨ str[(texts ps).length]? = some 0 := by
  rw [← leaves_cons_iff hroom]
  constructor
  · rintro ⟨str', hrun, tail, hstr, -⟩
    rw [vsprintf_eq hok hformat hroom] at hrun
    obtain ⟨n, -, hrun⟩ := Outcome.bind_eq_ok.1 hrun
    cases hrun
    exact ⟨tail, List.append_cancel_left hstr⟩
  · rintro ⟨tail, hleaves⟩
    exact prints_of_leaves hok hformat hroom hleaves

/-- "n=%d" over an array of zeros. -/
theorem vsprintf_iff_number :
    Prints [0, 0, 0, 0, 0] [110, 61, 37, 100, 0] [.int 7] [110, 61, 55]
      ↔ EndsInString [.lit 110, .lit 61, .dec 7] ∨ ([0, 0, 0, 0, 0] : Buf)[3]? = some 0 :=
  @vsprintf_iff [.lit 110, .lit 61, .dec 7] [110, 61, 37, 100, 0] [0, 0, 0, 0, 0]
    (by
      simp only [List.forall_mem_cons]
      exact ⟨⟨by decide, by decide⟩, ⟨by decide, by decide⟩, trivial, fun _ h => by cases h⟩)
    ⟨[], rfl, by decide⟩ (by decide)

/-- No NUL is stored behind a literal: "a" into an array that holds "XX" gives
    "aX". -/
theorem not_vsprintf_exact :
    CString [97, 0] ([.lit 97].flatMap Piece.format) ∧ (Piece.lit 97).Ok
      ∧ vsprintf [88, 88, 0] [97, 0] [] = .ok (2, [97, 88, 0])
      ∧ ¬ Prints [88, 88, 0] [97, 0] ([.lit 97].flatMap Piece.args) (texts [.lit 97]) := by
  have hrun : vsprintf [88, 88, 0] [97, 0] [] = .ok (2, [97, 88, 0]) := by decide
  refine ⟨⟨[], rfl, by decide⟩, ⟨by decide, by decide⟩, hrun, ?_⟩
  rintro ⟨str', hprints, -⟩
  have heq : (Except.ok (2, [97, 88, 0]) : Outcome (Nat × Buf)) = .ok (1, str') :=
    hrun.symm.trans hprints
  cases heq

/-! ## printf -/

/-- What `printf` hands to `write`: the array, zeroed before, and the count. -/
def printf (format : Buf) (ap : List VaArg) : Outcome (Buf × Nat) := do
  let (_, buf) ← vsprintf (List.replicate 1024 0) format ap
  let n ← strlen buf
  .ok (buf, n)

/-- The zeroed array makes up for the NUL. -/
theorem prints_zeroed (hok : ∀ p ∈ ps, p.Ok) (hformat : CString format (ps.flatMap Piece.format))
    (hroom : (texts ps).length < 1024) :
    Prints (List.replicate 1024 0) format (ps.flatMap Piece.args) (texts ps) := by
  have hlen : (texts ps).length < (List.replicate 1024 (0 : UInt8)).length := by
    rwa [List.length_replicate]
  have hzero : (List.replicate 1024 (0 : UInt8))[(texts ps).length]? = some 0 := by
    rw [List.getElem?_replicate, if_pos hroom]
  obtain ⟨tail, hleaves⟩ := (leaves_cons_iff hlen).2 (.inr hzero)
  exact prints_of_leaves hok hformat hlen hleaves

theorem printf_exact (hok : ∀ p ∈ ps, p.Ok) (hformat : CString format (ps.flatMap Piece.format))
    (hroom : (texts ps).length < 1024) :
    ∃ buf, printf format (ps.flatMap Piece.args) = .ok (buf, (texts ps).length)
      ∧ CString buf (texts ps) := by
  obtain ⟨buf, hrun, hstr⟩ := prints_zeroed hok hformat hroom
  refine ⟨buf, ?_, hstr⟩
  rw [printf, hrun, Outcome.ok_bind]
  dsimp only
  rw [hstr.strlen, Outcome.ok_bind]

/-! ## kprintf -/

/-- The bytes of a string literal, without its NUL. -/
def literal (s : String) : List UInt8 := s.toList.map fun c => UInt8.ofNat c.toNat

/-- `kprintf`: what it hands to `console_put_str`. -/
def kprintf (format : Buf) (ap : List VaArg) : Outcome (List UInt8) := do
  let (_, buf) ← vsprintf (List.replicate 1024 0) format ap
  buf.string

/-- A message that leaves room for a NUL in the array. -/
theorem kprintf_eq (hok : ∀ p ∈ ps, p.Ok) (hformat : CString format (ps.flatMap Piece.format))
    (hroom : (texts ps).length < 1024) :
    kprintf format (ps.flatMap Piece.args) = .ok (texts ps) := by
  obtain ⟨buf, hrun, hstr⟩ := prints_zeroed hok hformat hroom
  rw [kprintf, hrun, Outcome.ok_bind]
  exact hstr.string

/-- Neither a NUL nor a `%`. -/
def Unformatted (a : List UInt8) : Prop := ∀ c ∈ a, c ≠ 0 ∧ c ≠ 37

instance (a : List UInt8) : Decidable (Unformatted a) := List.decidableBAll _ a

/-- The `%s` of an array that ends in a NUL: what stands in front of its first
    one. -/
def stringPiece (b : List UInt8) : Piece := .str (b ++ [0]) (b.takeWhile (· != 0))

theorem stringPiece_ok (b : List UInt8) : (stringPiece b).Ok := by
  have hsplit := List.takeWhile_append_dropWhile (p := (· != 0)) (l := b)
  have hnot : (0 : UInt8) ∉ b.takeWhile (· != 0) := by
    intro hmem
    simpa using List.mem_takeWhile_imp hmem
  cases hrest : b.dropWhile (· != 0) with
  | nil =>
      rw [hrest, List.append_nil] at hsplit
      exact ⟨[], by rw [hsplit], hnot⟩
  | cons c rest =>
      have hc : c = 0 := by
        have hhead := List.head_dropWhile_not (· != 0) (l := b) (by rw [hrest]; simp)
        simp only [hrest, List.head_cons] at hhead
        simpa using hhead
      refine ⟨rest ++ [0], ?_, hnot⟩
      rw [hrest, hc] at hsplit
      rw [← List.cons_append, ← List.append_assoc, hsplit]

/-- A format with a `%s` behind each text but the last, and what it prints. -/
def stringPieces (segs : List (List UInt8 × List UInt8)) (last : List UInt8) : List Piece :=
  segs.flatMap (fun seg => seg.1.map .lit ++ [stringPiece seg.2]) ++ last.map .lit

/-- Literal characters: a piece of the format each, without an argument. -/
theorem lits_texts (a : List UInt8) : texts (a.map .lit) = a := by
  induction a with
  | nil => rfl
  | cons c a ih => exact congrArg (c :: ·) ih

theorem lits_format (a : List UInt8) : (a.map Piece.lit).flatMap Piece.format = a := by
  induction a with
  | nil => rfl
  | cons c a ih => exact congrArg (c :: ·) ih

theorem lits_args (a : List UInt8) : (a.map Piece.lit).flatMap Piece.args = [] := by
  induction a with
  | nil => rfl
  | cons c a ih => exact ih

/-- The length of a message of strings is at most that of its parts. -/
theorem stringPieces_length (segs : List (List UInt8 × List UInt8)) (last : List UInt8) :
    (texts (stringPieces segs last)).length
      ≤ (segs.map fun seg => seg.1.length + seg.2.length).sum + last.length := by
  induction segs with
  | nil =>
      rw [stringPieces, List.flatMap_nil, List.nil_append, lits_texts]
      exact Nat.le_add_left _ _
  | cons seg segs ih =>
      have hcons : texts (stringPieces (seg :: segs) last)
          = seg.1 ++ seg.2.takeWhile (· != 0) ++ texts (stringPieces segs last) := by
        rw [stringPieces, stringPieces, List.flatMap_cons, List.append_assoc, texts,
          List.flatMap_append, List.flatMap_append]
        change texts (seg.1.map .lit) ++ _ ++ _ = _
        rw [lits_texts]
        simp [texts, stringPiece, Piece.text]
      have htake := (List.takeWhile_sublist (l := seg.2) (· != 0)).length_le
      rw [hcons, List.length_append, List.length_append, List.map_cons, List.sum_cons]
      omega

theorem stringPieces_format (segs : List (List UInt8 × List UInt8)) (last : List UInt8) :
    (stringPieces segs last).flatMap Piece.format
      = segs.flatMap (fun seg => seg.1 ++ [37, 115]) ++ last := by
  rw [stringPieces, List.flatMap_append, lits_format, List.flatMap_assoc]
  congr 2
  funext seg
  rw [List.flatMap_append, lits_format]
  rfl

theorem stringPieces_args (segs : List (List UInt8 × List UInt8)) (last : List UInt8) :
    (stringPieces segs last).flatMap Piece.args
      = segs.map fun seg => VaArg.ptr (seg.2 ++ [0]) := by
  rw [stringPieces, List.flatMap_append, lits_args, List.append_nil, List.flatMap_assoc,
    List.map_eq_flatMap]
  congr 1
  funext seg
  rw [List.flatMap_append, lits_args]
  rfl

theorem stringPieces_ok {segs : List (List UInt8 × List UInt8)} {last : List UInt8}
    (hsegs : Unformatted (segs.flatMap Prod.fst ++ last)) :
    ∀ p ∈ stringPieces segs last, p.Ok := by
  intro p hp
  rcases List.mem_append.1 hp with hp | hp
  · obtain ⟨seg, hseg, hp⟩ := List.mem_flatMap.1 hp
    rcases List.mem_append.1 hp with hp | hp
    · obtain ⟨c, hc, rfl⟩ := List.mem_map.1 hp
      exact hsegs c (List.mem_append_left _ (List.mem_flatMap.2 ⟨seg, hseg, hc⟩))
    · rw [List.mem_singleton.1 hp]
      exact stringPiece_ok seg.2
  · obtain ⟨c, hc, rfl⟩ := List.mem_map.1 hp
    exact hsegs c (List.mem_append_right _ hc)

/-- The format as an array. -/
theorem stringPieces_cstring {segs : List (List UInt8 × List UInt8)} {last : List UInt8}
    (hsegs : Unformatted (segs.flatMap Prod.fst ++ last)) :
    CString (segs.flatMap (fun seg => seg.1 ++ [37, 115]) ++ last ++ [0])
      ((stringPieces segs last).flatMap Piece.format) := by
  refine ⟨[], by rw [stringPieces_format], ?_⟩
  rw [stringPieces_format]
  intro hmem
  rcases List.mem_append.1 hmem with hmem | hmem
  · obtain ⟨seg, hseg, hmem⟩ := List.mem_flatMap.1 hmem
    rcases List.mem_append.1 hmem with hmem | hmem
    · exact (hsegs 0 (List.mem_append_left _ (List.mem_flatMap.2 ⟨seg, hseg, hmem⟩))).1 rfl
    · revert hmem
      decide
  · exact (hsegs 0 (List.mem_append_right _ hmem)).1 rfl

/-- Strings that fit the array with the texts between them are printed. -/
theorem kprintf_strings (segs : List (List UInt8 × List UInt8)) (last : List UInt8)
    (hsegs : Unformatted (segs.flatMap Prod.fst ++ last))
    (hroom : (segs.map fun seg => seg.1.length + seg.2.length).sum + last.length < 1024) :
    kprintf (segs.flatMap (fun seg => seg.1 ++ [37, 115]) ++ last ++ [0])
        (segs.map fun seg => .ptr (seg.2 ++ [0]))
      = .ok (texts (stringPieces segs last)) := by
  rw [← stringPieces_args segs last]
  exact kprintf_eq (stringPieces_ok hsegs) (stringPieces_cstring hsegs)
    (Nat.lt_of_le_of_lt (stringPieces_length segs last) hroom)

end JackOS
