/-
  JackOS.Lib.String

  lib/string.c on byte arrays.  An array is the list of its bytes, and a pointer
  into it is what is left of the array from there on; a load or a store behind
  the end of the array leaves the defined part of C.  `CString` says which string
  an array starts with, and the specifications below are stated with it.
-/

import JackOS.Base.Outcome
import Mathlib.Data.UInt
import Mathlib.Data.List.Basic

namespace JackOS

open Base

/-- An array of bytes. -/
abbrev Buf := List UInt8

/-- `b[i]` -/
def Buf.load (b : Buf) (i : Nat) : Outcome UInt8 :=
  match b[i]? with
  | some c => .ok c
  | none => .error .undefined

/-- `b[i] = c` -/
def Buf.store (b : Buf) (i : Nat) (c : UInt8) : Outcome Buf :=
  if i < b.length then .ok (b.set i c) else .error .undefined

/-! ## The functions -/

/-- `memset(dst + p, value, size)` -/
def memset (dst : Buf) (p : Nat) (value : UInt8) : (size : Nat) → Outcome Buf
  | 0 => .ok dst
  | size + 1 => do
      let dst ← dst.store p value
      memset dst (p + 1) value size

/-- `strlen` -/
def strlen : Buf → Outcome Nat
  | [] => .error .undefined
  | c :: str => if c = 0 then .ok 0 else do
      let n ← strlen str
      .ok (n + 1)

/-- The value of a `char`, which is signed. -/
def charVal (c : UInt8) : Int := if c.toNat < 128 then c.toNat else (c.toNat : Int) - 256

/-- `strcmp` -/
def strcmp : Buf → Buf → Outcome Int
  | a :: as, b :: bs =>
      if a ≠ 0 ∧ a = b then strcmp as bs
      else .ok (if charVal a < charVal b then -1 else if charVal a > charVal b then 1 else 0)
  | _, _ => .error .undefined

/-- `while((*str++ = *src_++));` with `str` at index `p` of the array. -/
def copyString (dst : Buf) (p : Nat) : (src : Buf) → Outcome Buf
  | [] => .error .undefined
  | c :: src => do
      let dst ← dst.store p c
      if c = 0 then .ok dst else copyString dst (p + 1) src

/-- `strcat` -/
def strcat (dst src : Buf) : Outcome Buf := do
  let n ← strlen dst
  copyString dst n src

/-- The loop of `strrchr`, with `str` at index `p`. -/
def strrchrLoop (ch : UInt8) : (str : Buf) → (p : Nat) → (lastChar : Option Nat) →
    Outcome (Option Nat)
  | [], _, _ => .error .undefined
  | c :: str, p, lastChar =>
      if c = 0 then .ok lastChar
      else strrchrLoop ch str (p + 1) (if c = ch then some p else lastChar)

/-- `strrchr`: the index of the last `ch`, `none` for NULL. -/
def strrchr (str : Buf) (ch : UInt8) : Outcome (Option Nat) := strrchrLoop ch str 0 none

/-! ## Strings in arrays -/

/-- The string that a pointer to the array stands for. -/
def Buf.string : Buf → Outcome (List UInt8)
  | [] => .error .undefined
  | c :: b => if c = 0 then .ok [] else do
      let str ← Buf.string b
      .ok (c :: str)

/-- The array starts with the string, which a NUL ends. -/
def CString (b : Buf) (str : List UInt8) : Prop := ∃ rest, b = str ++ 0 :: rest ∧ 0 ∉ str

variable {b dst src : Buf} {str s t : List UInt8} {c : UInt8}

theorem cstring_nil : CString (0 :: b) [] := ⟨b, rfl, List.not_mem_nil⟩

theorem CString.cons (h : CString b str) (hc : c ≠ 0) : CString (c :: b) (c :: str) := by
  obtain ⟨rest, rfl, hnot⟩ := h
  refine ⟨rest, rfl, fun hmem => ?_⟩
  rcases List.mem_cons.1 hmem with heq | hmem
  · exact hc heq.symm
  · exact hnot hmem

/-- A string in an array starts with the NUL or with its first character. -/
theorem CString.cases (h : CString b str) :
    (str = [] ∧ ∃ rest, b = 0 :: rest)
      ∨ ∃ c str' b', str = c :: str' ∧ b = c :: b' ∧ c ≠ 0 ∧ CString b' str' := by
  obtain ⟨rest, rfl, hnot⟩ := h
  cases str with
  | nil => exact .inl ⟨rfl, rest, rfl⟩
  | cons c str =>
      refine .inr ⟨c, str, str ++ 0 :: rest, rfl, rfl, ?_, rest, rfl, fun hmem => ?_⟩
      · rintro rfl
        exact hnot List.mem_cons_self
      · exact hnot (List.mem_cons_of_mem _ hmem)

theorem CString.length_lt (h : CString b str) : str.length < b.length := by
  obtain ⟨rest, rfl, -⟩ := h
  rw [List.length_append, List.length_cons]
  omega

/-- The first character, which is NUL exactly where the string is empty. -/
theorem CString.load_zero (h : CString b str) :
    ∃ c, b.load 0 = .ok c ∧ (c = 0 ↔ str = []) := by
  rcases h.cases with ⟨rfl, rest, rfl⟩ | ⟨c, str', b', rfl, rfl, hc, -⟩
  · exact ⟨0, rfl, by simp⟩
  · exact ⟨c, rfl, by simpa using hc⟩

theorem Buf.load_drop (b : Buf) (n : Nat) : Buf.load (b.drop n) 0 = b.load n := by
  rw [Buf.load, Buf.load, List.getElem?_drop, Nat.add_zero]

theorem Buf.store_append (s : List UInt8) (a c : UInt8) (rest : List UInt8) :
    Buf.store (s ++ a :: rest) s.length c = .ok (s ++ c :: rest) := by
  rw [Buf.store, if_pos (by rw [List.length_append, List.length_cons]; omega),
    List.set_append_right _ _ (Nat.le_refl _), Nat.sub_self]
  rfl

/-- A store right behind what is written. -/
theorem Buf.store_room (s : List UInt8) (c : UInt8) {rest : List UInt8} (h : 0 < rest.length) :
    Buf.store (s ++ rest) s.length c = .ok (s ++ c :: rest.drop 1) := by
  obtain ⟨a, rest, rfl⟩ := List.exists_cons_of_ne_nil (List.ne_nil_of_length_pos h)
  exact Buf.store_append s a c rest

/-- A pointer moves over characters of its string. -/
theorem CString.drop_append (h : CString b (s ++ t)) : CString (b.drop s.length) t := by
  obtain ⟨rest, rfl, hnot⟩ := h
  refine ⟨rest, ?_, fun hmem => hnot (List.mem_append_right _ hmem)⟩
  rw [List.append_assoc, List.drop_left]

/-- A store behind the NUL does not touch the string. -/
theorem CString.set_behind {i : Nat} (h : CString b str) (hi : str.length < i) :
    CString (b.set i c) str := by
  obtain ⟨rest, rfl, hnot⟩ := h
  obtain ⟨j, rfl⟩ : ∃ j, i = str.length + (j + 1) := ⟨i - str.length - 1, by omega⟩
  refine ⟨rest.set j c, ?_, hnot⟩
  rw [List.set_append_right _ _ (by omega), Nat.add_sub_cancel_left, List.set_cons_succ]

/-- A string is cut off where a NUL is stored. -/
theorem CString.set_zero (h : CString b (s ++ c :: t)) : CString (b.set s.length 0) s := by
  obtain ⟨rest, rfl, hnot⟩ := h
  refine ⟨t ++ 0 :: rest, ?_, fun hmem => hnot (List.mem_append_left _ hmem)⟩
  rw [List.append_assoc, List.cons_append, List.set_append_right _ _ (Nat.le_refl _), Nat.sub_self]
  rfl

theorem CString.store_zero (h : CString b (s ++ c :: t)) :
    ∃ b', b.store s.length 0 = .ok b' ∧ CString b' s ∧ b'.length = b.length := by
  refine ⟨b.set s.length 0, if_pos ?_, h.set_zero, List.length_set⟩
  have hlen := h.length_lt
  rw [List.length_append, List.length_cons] at hlen
  omega

/-! ## Specifications -/

theorem CString.strlen (h : CString b str) : JackOS.strlen b = .ok str.length := by
  induction str generalizing b with
  | nil =>
      obtain ⟨rest, rfl, -⟩ := h
      rfl
  | cons a str ih =>
      rcases h.cases with ⟨hnil, -⟩ | ⟨c, str', b', hstr, rfl, hc, h'⟩
      · cases hnil
      · cases hstr
        rw [JackOS.strlen, if_neg hc, ih h']
        rfl

theorem CString.string (h : CString b str) : b.string = .ok str := by
  induction str generalizing b with
  | nil =>
      obtain ⟨rest, rfl, -⟩ := h
      rfl
  | cons a str ih =>
      rcases h.cases with ⟨hnil, -⟩ | ⟨c, str', b', hstr, rfl, hc, h'⟩
      · cases hnil
      · cases hstr
        rw [Buf.string, if_neg hc, ih h']
        rfl

theorem charVal_inj {a b : UInt8} (h : charVal a = charVal b) : a = b := by
  have ha := a.toNat_lt
  have hb := b.toNat_lt
  apply UInt8.toNat_inj.1
  unfold charVal at h
  split at h <;> split at h <;> omega

/-- Characters that differ do not compare as equal. -/
theorem charVal_compare {a b : UInt8} (h : a ≠ b) :
    (if charVal a < charVal b then (-1 : Int) else if charVal a > charVal b then 1 else 0) ≠ 0 := by
  have hne : charVal a ≠ charVal b := fun heq => h (charVal_inj heq)
  split
  · decide
  · rw [if_pos (by omega)]
    decide

/-- `strcmp` returns 0 for equal strings only. -/
theorem CString.strcmp {a : Buf} (hs : CString a s) (ht : CString b t) :
    ∃ r, JackOS.strcmp a b = .ok r ∧ (r = 0 ↔ s = t) := by
  induction s generalizing a b t with
  | nil =>
      obtain ⟨rest, rfl, -⟩ := hs
      rcases ht.cases with ⟨rfl, rest', rfl⟩ | ⟨c, t', b', rfl, rfl, hc, -⟩
      · exact ⟨0, rfl, by simp⟩
      · refine ⟨_, if_neg (fun heq => heq.1 rfl), ?_⟩
        have hne := charVal_compare (Ne.symm hc)
        exact ⟨fun heq => absurd heq hne, fun heq => by cases heq⟩
  | cons c s ih =>
      rcases hs.cases with ⟨hnil, -⟩ | ⟨c', s', a', hstr, rfl, hc, hs'⟩
      · cases hnil
      cases hstr
      rcases ht.cases with ⟨rfl, rest', rfl⟩ | ⟨d, t', b', rfl, rfl, hd, ht'⟩
      · refine ⟨_, if_neg (fun heq => hc heq.2), ?_⟩
        have hne := charVal_compare hc
        exact ⟨fun heq => absurd heq hne, fun heq => by cases heq⟩
      · by_cases heq : c = d
        · obtain ⟨r, hr, hiff⟩ := ih hs' ht'
          refine ⟨r, (if_pos ⟨hc, heq⟩).trans hr, ?_⟩
          rw [hiff, heq]
          simp
        · refine ⟨_, if_neg (fun h => heq h.2), ?_⟩
          have hne := charVal_compare heq
          exact ⟨fun h => absurd h hne, fun h => absurd (List.cons.inj h).1 heq⟩

/-- What a copy leaves: the string with its NUL, and the array as it was behind. -/
theorem CString.copyString_eq (ht : CString src t) (s rest : List UInt8)
    (hroom : t.length < rest.length) :
    JackOS.copyString (s ++ rest) s.length src
      = .ok (s ++ t ++ 0 :: rest.drop (t.length + 1)) := by
  induction t generalizing s src rest with
  | nil =>
      obtain ⟨src', rfl, -⟩ := ht
      obtain ⟨a, rest, rfl⟩ := List.exists_cons_of_ne_nil (List.ne_nil_of_length_pos hroom)
      rw [List.nil_append, JackOS.copyString, Buf.store_append, List.append_nil]
      rfl
  | cons c t ih =>
      rcases ht.cases with ⟨hnil, -⟩ | ⟨c', t', src', hstr, rfl, hc, ht'⟩
      · cases hnil
      cases hstr
      cases rest with
      | nil => cases hroom
      | cons a rest =>
          have hrun := ih ht' (s ++ [c]) rest (Nat.lt_of_succ_lt_succ hroom)
          rw [List.length_append, List.append_assoc, List.append_assoc s] at hrun
          rw [JackOS.copyString, Buf.store_append, Outcome.ok_bind, if_neg hc]
          exact hrun

/-- Copying a string over the end of the array's. -/
theorem CString.copyString (hs : 0 ∉ s) (ht : CString src t) (rest : List UInt8)
    (hroom : t.length < rest.length) :
    ∃ dst', JackOS.copyString (s ++ rest) s.length src = .ok dst' ∧ CString dst' (s ++ t)
      ∧ dst'.length = (s ++ rest).length := by
  have hnot : 0 ∉ t := by
    obtain ⟨_, -, hnot⟩ := ht
    exact hnot
  refine ⟨_, ht.copyString_eq s rest hroom, ⟨_, rfl, ?_⟩, ?_⟩
  · rw [List.mem_append, not_or]
    exact ⟨hs, hnot⟩
  · simp only [List.length_append, List.length_cons, List.length_drop]
    omega

theorem CString.strcat (hs : CString dst s) (ht : CString src t)
    (hroom : s.length + t.length < dst.length) :
    ∃ dst', JackOS.strcat dst src = .ok dst' ∧ CString dst' (s ++ t) ∧ dst'.length = dst.length := by
  have hlen := hs.strlen
  obtain ⟨rest, rfl, hnot⟩ := hs
  rw [List.length_append] at hroom
  obtain ⟨dst', hrun, hstr, hlen'⟩ := CString.copyString hnot ht
    (0 :: rest) (by omega)
  refine ⟨dst', ?_, hstr, hlen'⟩
  rw [JackOS.strcat, hlen]
  exact hrun

theorem strrchrLoop_string {ch : UInt8} {p : Nat} {last : Option Nat} (h : CString b str)
    (hnot : ch ∉ str) : strrchrLoop ch b p last = .ok last := by
  induction str generalizing b p last with
  | nil =>
      obtain ⟨rest, rfl, -⟩ := h
      rfl
  | cons c str ih =>
      rcases h.cases with ⟨hnil, -⟩ | ⟨c', str', b', hstr, rfl, hc, h'⟩
      · cases hnil
      cases hstr
      rw [strrchrLoop, if_neg hc, if_neg (fun heq : c = ch => hnot (heq ▸ List.mem_cons_self))]
      exact ih h' fun hmem => hnot (List.mem_cons_of_mem _ hmem)

theorem strrchrLoop_last {ch : UInt8} {p : Nat} {last : Option Nat}
    (h : CString b (s ++ ch :: t)) (hnot : ch ∉ t) :
    strrchrLoop ch b p last = .ok (some (p + s.length)) := by
  induction s generalizing b p last with
  | nil =>
      rcases h.cases with ⟨hnil, -⟩ | ⟨c', str', b', hstr, rfl, hc, h'⟩
      · cases hnil
      cases hstr
      rw [strrchrLoop, if_neg hc, if_pos rfl]
      exact strrchrLoop_string h' hnot
  | cons c s ih =>
      rcases h.cases with ⟨hnil, -⟩ | ⟨c', str', b', hstr, rfl, hc, h'⟩
      · cases hnil
      cases hstr
      rw [strrchrLoop, if_neg hc, ih h', List.length_cons]
      congr 2
      omega

/-- `strrchr` finds the last `ch`. -/
theorem CString.strrchr {ch : UInt8} (h : CString b (s ++ ch :: t)) (hnot : ch ∉ t) :
    JackOS.strrchr b ch = .ok (some s.length) := by
  rw [JackOS.strrchr, strrchrLoop_last h hnot, Nat.zero_add]

/-- `memset` over the whole array. -/
theorem memset_append (s : List UInt8) (value : UInt8) (rest : List UInt8) :
    memset (s ++ rest) s.length value rest.length
      = .ok (s ++ List.replicate rest.length value) := by
  induction rest generalizing s with
  | nil => rfl
  | cons a rest ih =>
      have hnext := ih (s ++ [value])
      rw [List.append_assoc, List.append_assoc, List.length_append] at hnext
      rw [List.length_cons, memset, Buf.store_append]
      exact hnext

theorem memset_all (b : Buf) (value : UInt8) :
    memset b 0 value b.length = .ok (List.replicate b.length value) :=
  memset_append [] value b

/-- An array with a NUL stands for a string, one without for none. -/
theorem Buf.string_of_mem (h : (0 : UInt8) ∈ b) : ∃ str, b.string = .ok str := by
  induction b with
  | nil => cases h
  | cons c b ih =>
      unfold Buf.string
      by_cases hc : c = 0
      · exact ⟨[], if_pos hc⟩
      · obtain ⟨str, hstr⟩ := ih ((List.mem_cons.1 h).resolve_left fun heq => hc heq.symm)
        exact ⟨c :: str, by rw [if_neg hc, hstr, Outcome.ok_bind]⟩

theorem Buf.string_undefined (h : (0 : UInt8) ∉ b) : b.string = .error .undefined := by
  induction b with
  | nil => rfl
  | cons c b ih =>
      have hc : ¬ c = 0 := fun heq => h (heq ▸ List.mem_cons_self)
      unfold Buf.string
      rw [if_neg hc, ih fun hmem => h (List.mem_cons_of_mem c hmem), Outcome.error_bind]

/-- An array that is all zero holds the empty string. -/
theorem cstring_replicate {n : Nat} (hn : 0 < n) : CString (List.replicate n 0) [] := by
  obtain ⟨m, rfl⟩ := Nat.exists_eq_add_of_lt hn
  exact ⟨List.replicate (0 + m) 0, rfl, List.not_mem_nil⟩

end JackOS
