/-
  JackOS.Shell.CmdSplit

  `cmd_split` of shell/shell.c.  The command is split in place: a NUL goes
  behind each word, and `argv` gets the index at which the word starts.  The
  loop keeps the command cut into what it has read, with its words in `argv`,
  and what is left (`SplitUpTo`).

  The number of words is compared with `MAX_ARG_NR` only after the word was
  stored, so one word too many is stored behind the end of `argv`.
-/

import JackOS.Base.Words
import JackOS.Lib.String

namespace JackOS
namespace Shell

open Base

/-! ## The code -/

/-- `MAX_ARG_NR` -/
abbrev maxArgNr : Nat := 16

/-- `argv`; `none` is NULL. -/
abbrev Argv := List (Option Nat)

/-- `agrv[i] = p` -/
def Argv.store (agrv : Argv) (i : Nat) (p : Option Nat) : Outcome Argv :=
  if i < agrv.length then .ok (agrv.set i p) else .error .undefined

/-- `while (arg_idx < MAX_ARG_NR) agrv[arg_idx++] = NULL;`, with `left` entries to
    go. -/
def clearArgs (agrv : Argv) : (left argIdx : Nat) → Outcome Argv
  | 0, _ => .ok agrv
  | left + 1, argIdx => do
      let agrv ← agrv.store argIdx none
      clearArgs agrv left (argIdx + 1)

/-- `while (*next == token) next++;` -/
def skipTokens (token : UInt8) : (str : Buf) → (next : Nat) → Outcome Nat
  | [], _ => .error .undefined
  | c :: str, next => if c = token then skipTokens token str (next + 1) else .ok next

/-- `while (*next && *next != token) next++;` -/
def skipWord (token : UInt8) : (str : Buf) → (next : Nat) → Outcome Nat
  | [], _ => .error .undefined
  | c :: str, next => if c ≠ 0 ∧ c ≠ token then skipWord token str (next + 1) else .ok next

/-- `if (*next) *next++ = 0;` -/
def cutWord (cmdStr : Buf) (next : Nat) : Outcome (Buf × Nat) := do
  let c ← cmdStr.load next
  if c ≠ 0 then do
    let cmdStr ← cmdStr.store next 0
    .ok (cmdStr, next + 1)
  else .ok (cmdStr, next)

/-- `while (*next)`, at most `fuel` rounds: the value returned, and the two
    arrays. -/
def splitLoop (token : UInt8) : (fuel : Nat) → (cmdStr : Buf) → (agrv : Argv) → (next argc : Nat) →
    Outcome (Int × Buf × Argv)
  | fuel, cmdStr, agrv, next, argc => do
      let c ← cmdStr.load next
      if c = 0 then .ok (argc, cmdStr, agrv)
      else
        match fuel with
        | 0 => .error .diverges
        | fuel + 1 => do
            let next ← skipTokens token (cmdStr.drop next) next
            let c ← cmdStr.load next
            if c = 0 then .ok (argc, cmdStr, agrv)
            else do
              let agrv ← agrv.store argc (some next)
              let next ← skipWord token (cmdStr.drop next) next
              let (cmdStr, next) ← cutWord cmdStr next
              if argc > maxArgNr then .ok (-1, cmdStr, agrv)
              else splitLoop token fuel cmdStr agrv next (argc + 1)

/-- `cmd_split` -/
def cmdSplit (cmdStr : Buf) (agrv : Argv) (token : UInt8) : Outcome (Int × Buf × Argv) := do
  let agrv ← clearArgs agrv maxArgNr 0
  splitLoop token cmdStr.length cmdStr agrv 0 0

/-! ## Cursors -/

variable {token : UInt8} {b : Buf} {str s t w : List UInt8}

theorem skipTokens_string (htoken : token ≠ 0) (h : CString b str) (p : Nat) :
    skipTokens token b p = .ok (p + (str.takeWhile (· == token)).length) := by
  induction str generalizing b p with
  | nil =>
      obtain ⟨rest, rfl, -⟩ := h
      exact if_neg htoken.symm
  | cons c str ih =>
      rcases h.cases with ⟨hnil, -⟩ | ⟨c', str', b', hstr, rfl, hc, h'⟩
      · cases hnil
      cases hstr
      rw [skipTokens]
      by_cases heq : c = token
      · rw [if_pos heq, ih h', List.takeWhile_cons_of_pos (by simpa using heq), List.length_cons]
        congr 1
        omega
      · rw [if_neg heq, List.takeWhile_cons_of_neg (by simpa using heq)]
        rfl

theorem skipWord_string (token : UInt8) (h : CString b str) (p : Nat) :
    skipWord token b p = .ok (p + (str.takeWhile (· != token)).length) := by
  induction str generalizing b p with
  | nil =>
      obtain ⟨rest, rfl, -⟩ := h
      exact if_neg fun h => h.1 rfl
  | cons c str ih =>
      rcases h.cases with ⟨hnil, -⟩ | ⟨c', str', b', hstr, rfl, hc, h'⟩
      · cases hnil
      cases hstr
      rw [skipWord]
      by_cases heq : c = token
      · rw [if_neg fun h => h.2 heq, List.takeWhile_cons_of_neg (by simpa using heq)]
        rfl
      · rw [if_pos ⟨hc, heq⟩, ih h', List.takeWhile_cons_of_pos (by simpa using heq),
          List.length_cons]
        congr 1
        omega

/-! ## The loop -/

/-- Entry `i` of `argv` points to word `w`, in front of which the first `i` words
    of the command stand. -/
structure PointsTo (token : UInt8) (str : List UInt8) (cmdStr : Buf) (agrv : Argv) (i : Nat)
    (w : List UInt8) (p : Nat) : Prop where
  arg : agrv[i]? = some (some p)
  before : words token (str.take p) = (words token str).take i
  word : w <+: str.drop p
  string : CString (cmdStr.drop p) w

/-- The command is split as it should be. -/
structure Split (token : UInt8) (str : List UInt8) (r : Int) (cmdStr : Buf) (agrv : Argv) :
    Prop where
  count : r = (words token str).length
  args : ∀ i w, (words token str)[i]? = some w → ∃ p, PointsTo token str cmdStr agrv i w p
  nulls : ∀ i, (words token str).length ≤ i → i < maxArgNr → agrv[i]? = some none

/-- The loop has read `front` and has still to read `rest`. -/
structure SplitUpTo (token : UInt8) (str front rest : List UInt8) (cmdStr : Buf) (agrv : Argv) :
    Prop where
  text : str = front ++ rest
  left : CString (cmdStr.drop front.length) rest
  boundary : rest ≠ [] → Boundary token front
  args : ∀ i w, (words token front)[i]? = some w → ∃ p, PointsTo token str cmdStr agrv i w p
    ∧ (rest ≠ [] → p + w.length < front.length)
  nulls : ∀ i, (words token front).length ≤ i → i < maxArgNr → agrv[i]? = some none
  length : agrv.length = maxArgNr

theorem SplitUpTo.words_eq {front rest : List UInt8} {cmdStr : Buf} {agrv : Argv}
    (h : SplitUpTo token str front rest cmdStr agrv) :
    words token str = words token front ++ words token rest := by
  rw [h.text]
  by_cases hrest : rest = []
  · rw [hrest, words_nil, List.append_nil, List.append_nil]
  · exact h.boundary hrest rest

/-- Nothing but separators is left. -/
theorem SplitUpTo.split {front rest : List UInt8} {cmdStr : Buf} {agrv : Argv}
    (h : SplitUpTo token str front rest cmdStr agrv) (hrest : words token rest = []) :
    Split token str ((words token front).length : Nat) cmdStr agrv := by
  have hwords := h.words_eq
  rw [hrest, List.append_nil] at hwords
  refine ⟨by rw [hwords], fun i w hw => ?_, fun i hi hlt => ?_⟩
  · rw [hwords] at hw
    obtain ⟨p, hp, -⟩ := h.args i w hw
    exact ⟨p, hp⟩
  · rw [hwords] at hi
    exact h.nulls i hi hlt

/-- Separators are skipped. -/
theorem SplitUpTo.skip {front rest : List UInt8} {cmdStr : Buf} {agrv : Argv}
    (h : SplitUpTo token str front rest cmdStr agrv) :
    SplitUpTo token str (front ++ rest.takeWhile (· == token)) (rest.dropWhile (· == token))
      cmdStr agrv ∧ words token (front ++ rest.takeWhile (· == token)) = words token front := by
  have hsplit := List.takeWhile_append_dropWhile (p := (· == token)) (l := rest)
  by_cases hrest : rest = []
  · subst hrest
    rw [List.takeWhile_nil, List.dropWhile_nil, List.append_nil]
    exact ⟨h, rfl⟩
  obtain ⟨hbound, hwords⟩ := (h.boundary hrest).append_seps (rest.takeWhile (· == token))
    fun a ha => by simpa using List.mem_takeWhile_imp ha
  refine ⟨⟨?_, ?_, fun _ => hbound, fun i w hw => ?_, ?_, h.length⟩, hwords⟩
  · rw [List.append_assoc, hsplit]
    exact h.text
  · rw [List.length_append, ← List.drop_drop]
    have hleft := h.left
    rw [← hsplit] at hleft
    exact hleft.drop_append
  · rw [hwords] at hw
    obtain ⟨p, hp, hlt⟩ := h.args i w hw
    refine ⟨p, hp, fun _ => ?_⟩
    have hlt := hlt hrest
    rw [List.length_append]
    omega
  · rw [hwords]
    exact h.nulls

/-- A word that was read goes into `argv`; what is stored in the command on the
    way does not touch the words in front. -/
theorem SplitUpTo.args_store {front tail : List UInt8} {cmdStr : Buf} {agrv : Argv} (cmdStr' : Buf)
    (h : SplitUpTo token str front (w ++ tail) cmdStr agrv) (hne : w ≠ [])
    (hroom : (words token front).length < maxArgNr)
    (hkeep : ∀ p v, CString (cmdStr.drop p) v → p + v.length < front.length →
      CString (cmdStr'.drop p) v)
    (hnew : CString (cmdStr'.drop front.length) w) :
    ∀ i v, (words token front ++ [w])[i]? = some v → ∃ p,
      PointsTo token str cmdStr' (agrv.set (words token front).length (some front.length)) i v p
        ∧ p + v.length ≤ front.length + w.length := by
  intro i v hv
  have hrest : w ++ tail ≠ [] := by simp [hne]
  -- a word of before, whose bytes are not touched, or the one just read
  by_cases hi : i < (words token front).length
  · rw [List.getElem?_append_left hi] at hv
    obtain ⟨p, hp, hlt⟩ := h.args i v hv
    have hlt := hlt hrest
    refine ⟨p, ⟨?_, hp.before, hp.word, hkeep p v hp.string hlt⟩, by omega⟩
    rw [List.getElem?_set_ne (by omega)]
    exact hp.arg
  · have hi' : i = (words token front).length := by
      have hlt := (List.getElem?_eq_some_iff.1 hv).1
      rw [List.length_append, List.length_singleton] at hlt
      omega
    subst hi'
    have hvw : v = w := by simpa using hv.symm
    subst hvw
    refine ⟨front.length, ⟨?_, ?_, ?_, hnew⟩, Nat.le_refl _⟩
    · rw [List.getElem?_set_self (by rw [h.length]; exact hroom)]
    · rw [h.words_eq, List.take_left]
      rw [h.text, List.take_left]
    · rw [h.text, List.drop_left]
      exact List.prefix_append _ _

/-- The separator behind the word is overwritten. -/
theorem SplitUpTo.store_sep {front tail : List UInt8} {cmdStr : Buf} {agrv : Argv}
    (h : SplitUpTo token str front (w ++ token :: tail) cmdStr agrv) (hne : w ≠ [])
    (hw : token ∉ w) (hroom : (words token front).length < maxArgNr) :
    SplitUpTo token str (front ++ w ++ [token]) tail
      (cmdStr.set (front.length + w.length) 0)
      (agrv.set (words token front).length (some front.length))
    ∧ words token (front ++ w ++ [token]) = words token front ++ [w] := by
  have hrest : w ++ token :: tail ≠ [] := by simp
  have hwords : words token (front ++ w ++ [token]) = words token front ++ [w] := by
    rw [List.append_assoc, h.boundary hrest, words_cons hne hw, words_nil]
  have hlen : (front ++ w ++ [token]).length = front.length + w.length + 1 := by
    simp only [List.length_append, List.length_singleton]
  refine ⟨⟨?_, ?_, fun _ => boundary_append_sep _, ?_, ?_, ?_⟩, hwords⟩
  · rw [h.text]
    simp
  · rw [hlen, List.drop_set, if_pos (by omega), ← List.drop_drop, ← List.drop_drop]
    have hleft := h.left.drop_append
    exact CString.drop_append (s := [token]) hleft
  · intro i v hv
    rw [hwords] at hv
    obtain ⟨p, hp, hle⟩ := h.args_store (cmdStr.set (front.length + w.length) 0) hne hroom
      (fun p v hstr hlt => by
        rw [List.drop_set, if_neg (by omega)]
        exact hstr.set_behind (by omega))
      (by
        rw [List.drop_set, if_neg (by omega), Nat.add_sub_cancel_left]
        exact h.left.set_zero)
      i v hv
    exact ⟨p, hp, fun _ => by omega⟩
  · intro i hi hlt
    rw [hwords, List.length_append, List.length_singleton] at hi
    rw [List.getElem?_set_ne (by omega)]
    exact h.nulls i (by omega) hlt
  · rw [List.length_set]
    exact h.length

/-- The last word has no separator behind it. -/
theorem SplitUpTo.store_last {front : List UInt8} {cmdStr : Buf} {agrv : Argv}
    (h : SplitUpTo token str front w cmdStr agrv) (hne : w ≠ [])
    (hw : token ∉ w) (hroom : (words token front).length < maxArgNr) :
    SplitUpTo token str (front ++ w) [] cmdStr
      (agrv.set (words token front).length (some front.length))
    ∧ words token (front ++ w) = words token front ++ [w] := by
  have hwords : words token (front ++ w) = words token front ++ [w] := by
    rw [h.boundary hne, words_of_notMem hne hw]
  rw [← List.append_nil w] at h
  refine ⟨⟨?_, ?_, fun hnil => absurd rfl hnil, ?_, ?_, ?_⟩, hwords⟩
  · rw [h.text]
    simp
  · rw [List.length_append, ← List.drop_drop]
    exact h.left.drop_append
  · intro i v hv
    rw [hwords] at hv
    have hstr := h.left
    rw [List.append_nil] at hstr
    obtain ⟨p, hp, -⟩ := h.args_store cmdStr hne hroom (fun _ _ hstr _ => hstr) hstr i v hv
    exact ⟨p, hp, fun hnil => absurd rfl hnil⟩
  · intro i hi hlt
    rw [hwords, List.length_append, List.length_singleton] at hi
    rw [List.getElem?_set_ne (by omega)]
    exact h.nulls i (by omega) hlt
  · rw [List.length_set]
    exact h.length

theorem SplitUpTo.load {front rest : List UInt8} {cmdStr : Buf} {agrv : Argv}
    (h : SplitUpTo token str front rest cmdStr agrv) :
    ∃ c, cmdStr.load front.length = .ok c ∧ (c = 0 ↔ rest = []) := by
  rw [← Buf.load_drop]
  exact h.left.load_zero

/-- The rest of a command without words ends the loop. -/
theorem splitLoop_end {front rest : List UInt8} {cmdStr : Buf} {agrv : Argv} {fuel : Nat}
    (htoken : token ≠ 0) (h : SplitUpTo token str front rest cmdStr agrv)
    (hrest : words token rest = []) (hfuel : rest.length ≤ fuel) (argc : Nat) :
    splitLoop token fuel cmdStr agrv front.length argc = .ok (argc, cmdStr, agrv) := by
  obtain ⟨c, hload, hc⟩ := h.load
  unfold splitLoop
  rw [hload]
  by_cases hnil : rest = []
  · exact if_pos (hc.2 hnil)
  · cases fuel with
    | zero => exact absurd (List.length_eq_zero_iff.1 (Nat.le_zero.1 hfuel)) hnil
    | succ fuel =>
        obtain ⟨hskip, -⟩ := h.skip
        obtain ⟨c', hload', hc'⟩ := hskip.load
        -- else what is left would begin with a word
        have hend : rest.dropWhile (· == token) = [] := by
          by_contra hne
          obtain ⟨a, r, hr⟩ := List.exists_cons_of_ne_nil hne
          have ha := List.head_dropWhile_not (· == token) hne
          simp only [hr, List.head_cons] at ha
          rw [← words_dropWhile, words_takeWhile (by rw [hr]; simp [bne, ha])] at hrest
          cases hrest
        rw [List.length_append] at hload'
        simp only [Outcome.ok_bind, if_neg (mt hc.1 hnil), skipTokens_string htoken h.left,
          hload', if_pos (hc'.2 hend)]

/-- What the loop does up to the store into `argv`, where there is a word. -/
theorem splitLoop_store {front rest : List UInt8} {cmdStr : Buf} {agrv : Argv} (fuel : Nat)
    (htoken : token ≠ 0) (h : SplitUpTo token str front rest cmdStr agrv)
    (hrest : words token rest ≠ []) (argc : Nat) :
    ∃ front' w tail, SplitUpTo token str front' (w ++ tail) cmdStr agrv
      ∧ words token front' = words token front ∧ (w ++ tail).length ≤ rest.length
      ∧ w ≠ [] ∧ token ∉ w ∧ (tail = [] ∨ ∃ tail', tail = token :: tail')
      ∧ splitLoop token (fuel + 1) cmdStr agrv front.length argc = (do
          let agrv ← agrv.store argc (some front'.length)
          let (cmdStr, next) ← cutWord cmdStr (front'.length + w.length)
          if argc > maxArgNr then .ok (-1, cmdStr, agrv)
          else splitLoop token fuel cmdStr agrv next (argc + 1)) := by
  obtain ⟨hskip, hfront⟩ := h.skip
  rw [← words_dropWhile] at hrest
  have hle : (rest.dropWhile (· == token)).length ≤ rest.length := by
    have hsplit := congrArg List.length
      (List.takeWhile_append_dropWhile (p := (· == token)) (l := rest))
    rw [List.length_append] at hsplit
    omega
  obtain ⟨c, hload, hc⟩ := h.load
  obtain ⟨c', hload', hc'⟩ := hskip.load
  have hrun := skipTokens_string htoken h.left front.length
  have hne₀ : rest ≠ [] := by
    rintro rfl
    exact hrest words_nil
  rw [← List.length_append] at hrun
  generalize front ++ rest.takeWhile (· == token) = front' at *
  generalize hr : rest.dropWhile (· == token) = r at *
  have hne : r ≠ [] := by
    rintro rfl
    exact hrest words_nil
  obtain ⟨a, r', hr'⟩ := List.exists_cons_of_ne_nil hne
  have ha : (a == token) = false := by
    have hhead := List.head_dropWhile_not (· == token) (l := rest) (by rw [hr]; exact hne)
    simpa only [hr, hr', List.head_cons] using hhead
  have hsplit := List.takeWhile_append_dropWhile (p := (· != token)) (l := r)
  have hword := skipWord_string token hskip.left front'.length
  -- the word ends at the NUL or at a separator
  have htail : r.dropWhile (· != token) = [] ∨ ∃ tail', r.dropWhile (· != token) = token :: tail' := by
    cases htl : r.dropWhile (· != token) with
    | nil => exact .inl rfl
    | cons d tail' =>
        have hhead := List.head_dropWhile_not (· != token) (l := r) (by rw [htl]; simp)
        simp only [htl, List.head_cons] at hhead
        have hd : d = token := by simpa using hhead
        exact .inr ⟨tail', by rw [hd]⟩
  refine ⟨front', r.takeWhile (· != token), r.dropWhile (· != token), ?_, hfront, ?_, ?_, ?_, htail,
    ?_⟩
  · rw [hsplit]
    exact hskip
  · rw [hsplit]
    exact hle
  · rw [hr', List.takeWhile_cons_of_pos (by simp [bne, ha])]
    exact List.cons_ne_nil _ _
  · intro hmem
    simpa using List.mem_takeWhile_imp hmem
  · rw [splitLoop, hload]
    simp only [Outcome.ok_bind, if_neg (mt hc.1 hne₀), hrun, hload', if_neg (mt hc'.1 hne), hword]

/-- A word for which `argv` has room. -/
theorem splitLoop_word {front rest : List UInt8} {cmdStr : Buf} {agrv : Argv} (fuel : Nat)
    (htoken : token ≠ 0) (h : SplitUpTo token str front rest cmdStr agrv)
    (hrest : words token rest ≠ []) (hroom : (words token front).length < maxArgNr) :
    ∃ front' rest' cmdStr' agrv', SplitUpTo token str front' rest' cmdStr' agrv'
      ∧ (words token front').length = (words token front).length + 1
      ∧ rest'.length < rest.length
      ∧ splitLoop token (fuel + 1) cmdStr agrv front.length (words token front).length
        = splitLoop token fuel cmdStr' agrv' front'.length (words token front').length := by
  obtain ⟨front', w, tail, hup, hfront, hlen, hne, hw, htail, hrun⟩ :=
    splitLoop_store fuel htoken h hrest (words token front).length
  rw [← hfront] at hroom hrun ⊢
  have hstore : agrv.store (words token front').length (some front'.length)
      = .ok (agrv.set (words token front').length (some front'.length)) :=
    if_pos (by rw [h.length]; exact hroom)
  rw [List.length_append] at hlen
  have hpos := List.length_pos_iff.2 hne
  -- only a separator is overwritten, and skipped with the word
  rcases htail with rfl | ⟨tail', rfl⟩
  · rw [List.append_nil] at hup
    obtain ⟨hnext, hwords⟩ := hup.store_last hne hw hroom
    obtain ⟨c, hload, hc⟩ := hnext.load
    rw [List.length_append] at hload
    have hcut : cutWord cmdStr (front'.length + w.length)
        = .ok (cmdStr, front'.length + w.length) := by
      rw [cutWord, hload]
      exact if_neg (not_not.2 (hc.2 rfl))
    refine ⟨_, [], _, _, hnext, ?_, by rw [List.length_nil]; omega, ?_⟩
    · rw [hwords, List.length_append]
      rfl
    · rw [hrun, hwords, hstore]
      simp only [Outcome.ok_bind, hcut, List.length_append, List.length_singleton]
      exact if_neg (by omega)
  · obtain ⟨hnext, hwords⟩ := hup.store_sep hne hw hroom
    have hload : cmdStr.load (front'.length + w.length) = .ok token := by
      have hleft := hup.left.drop_append
      rw [List.drop_drop] at hleft
      obtain ⟨rest', hdrop, -⟩ := hleft
      rw [← Buf.load_drop, hdrop]
      rfl
    have hlt : front'.length + w.length < cmdStr.length := by
      have hlen := hup.left.length_lt
      rw [List.length_drop, List.length_append, List.length_cons] at hlen
      omega
    have hcut : cutWord cmdStr (front'.length + w.length)
        = .ok (cmdStr.set (front'.length + w.length) 0, front'.length + w.length + 1) := by
      rw [cutWord, hload]
      simp only [Outcome.ok_bind, if_pos htoken, Buf.store, if_pos hlt]
    refine ⟨_, tail', _, _, hnext, ?_, ?_, ?_⟩
    · rw [hwords, List.length_append]
      rfl
    · rw [List.length_cons] at hlen
      omega
    · rw [hrun, hwords, hstore]
      simp only [Outcome.ok_bind, hcut, List.length_append, List.length_singleton]
      exact if_neg (by omega)

/-- A word too many is stored behind the end of `argv`. -/
theorem splitLoop_full {front rest : List UInt8} {cmdStr : Buf} {agrv : Argv} {fuel : Nat}
    (htoken : token ≠ 0) (h : SplitUpTo token str front rest cmdStr agrv)
    (hrest : words token rest ≠ []) (hfull : (words token front).length = maxArgNr)  :
    splitLoop token (fuel + 1) cmdStr agrv front.length (words token front).length
      = .error .undefined := by
  obtain ⟨front', w, tail, -, -, -, -, -, -, hrun⟩ :=
    splitLoop_store fuel htoken h hrest (words token front).length
  have hstore : agrv.store (words token front).length (some front'.length) = .error .undefined :=
    if_neg (by rw [h.length, hfull]; exact Nat.lt_irrefl _)
  rw [hrun, hstore]
  rfl

/-- The whole loop. -/
theorem splitLoop_split {front rest : List UInt8} {cmdStr : Buf} {agrv : Argv} {fuel : Nat}
    (htoken : token ≠ 0) (h : SplitUpTo token str front rest cmdStr agrv)
    (hroom : (words token front).length ≤ maxArgNr) (hfuel : rest.length ≤ fuel) :
    if (words token str).length ≤ maxArgNr then
      ∃ r cmdStr' agrv', splitLoop token fuel cmdStr agrv front.length (words token front).length
        = .ok (r, cmdStr', agrv') ∧ Split token str r cmdStr' agrv'
    else
      splitLoop token fuel cmdStr agrv front.length (words token front).length
        = .error .undefined := by
  have hcount := congrArg List.length h.words_eq
  rw [List.length_append] at hcount
  induction fuel generalizing front rest cmdStr agrv with
  | zero =>
      have hnil := List.length_eq_zero_iff.1 (Nat.le_zero.1 hfuel)
      subst hnil
      rw [words_nil, List.length_nil] at hcount
      rw [if_pos (by omega)]
      exact ⟨_, _, _, splitLoop_end htoken h words_nil hfuel _, h.split words_nil⟩
  | succ fuel ih =>
      by_cases hrest : words token rest = []
      · rw [hrest, List.length_nil] at hcount
        rw [if_pos (by omega)]
        exact ⟨_, _, _, splitLoop_end htoken h hrest hfuel _, h.split hrest⟩
      · have hpos := List.length_pos_iff.2 hrest
        -- the limit is tested after the store, so a word behind it is stored outside
        by_cases hfull : (words token front).length = maxArgNr
        · rw [if_neg (by omega)]
          exact splitLoop_full htoken h hrest hfull
        · obtain ⟨front', rest', cmdStr', agrv', hnext, hlen, hlt, hrun⟩ :=
            splitLoop_word fuel htoken h hrest (by omega)
          have hcount' := congrArg List.length hnext.words_eq
          rw [List.length_append] at hcount'
          rw [hrun]
          exact ih hnext (by omega) (by omega) hcount'

/-! ## The result -/

theorem clearArgs_append (s rest : Argv) :
    clearArgs (s ++ rest) rest.length s.length
      = .ok (s ++ List.replicate rest.length none) := by
  induction rest generalizing s with
  | nil => rfl
  | cons a rest ih =>
      have hnext := ih (s ++ [none])
      rw [List.append_assoc, List.append_assoc, List.length_append] at hnext
      have hstore : Argv.store (s ++ a :: rest) s.length none = .ok (s ++ none :: rest) := by
        rw [Argv.store, if_pos (by rw [List.length_append, List.length_cons]; omega),
          List.set_append_right _ _ (Nat.le_refl _), Nat.sub_self]
        rfl
      rw [List.length_cons, clearArgs, hstore]
      exact hnext

/-- `cmd_split` on an `argv` of `MAX_ARG_NR` entries: it returns, so no store
    was behind the end, and what it returns is right. -/
def SplitsExactly (token : UInt8) (str : List UInt8) (cmdStr : Buf) (agrv : Argv) : Prop :=
  ∃ r cmdStr' agrv', cmdSplit cmdStr agrv token = .ok (r, cmdStr', agrv')
    ∧ if (words token str).length ≤ maxArgNr then Split token str r cmdStr' agrv' else r = -1

/-- Splitting is exact as long as the words fit into `argv`. -/
theorem splitsExactly_iff {cmdStr : Buf} {agrv : Argv} (hcmd : CString cmdStr str)
    (htoken : token ≠ 0) (hargv : agrv.length = maxArgNr) :
    SplitsExactly token str cmdStr agrv ↔ (words token str).length ≤ maxArgNr := by
  have hclear := clearArgs_append [] agrv
  rw [hargv] at hclear
  -- `argv` is cleared and nothing was read
  have hstart : SplitUpTo token str [] str cmdStr (List.replicate maxArgNr none) := by
    refine ⟨rfl, hcmd, fun _ => boundary_nil, fun i w hw => ?_, fun i _ hi => ?_,
      List.length_replicate⟩
    · rw [words_nil] at hw
      cases hw
    · rw [List.getElem?_replicate, if_pos hi]
  have hfuel : str.length ≤ cmdStr.length := Nat.le_of_lt hcmd.length_lt
  have hloop := splitLoop_split htoken hstart (by rw [words_nil]; exact Nat.zero_le _) hfuel
  have hrun : cmdSplit cmdStr agrv token
      = splitLoop token cmdStr.length cmdStr (List.replicate maxArgNr none) 0 0 := by
    rw [cmdSplit]
    exact congrArg (· >>= fun agrv => splitLoop token cmdStr.length cmdStr agrv 0 0) hclear
  rw [words_nil, List.length_nil, List.length_nil] at hloop
  constructor
  · rintro ⟨r, cmdStr', agrv', hsplit, -⟩
    by_contra hlarge
    rw [if_neg hlarge, ← hrun, hsplit] at hloop
    cases hloop
  · intro hsmall
    rw [if_pos hsmall, ← hrun] at hloop
    obtain ⟨r, cmdStr', agrv', hsplit, hres⟩ := hloop
    exact ⟨r, cmdStr', agrv', hsplit, by rwa [if_pos hsmall]⟩

/-- " ls  -l " -/
theorem splitsExactly_iff_ls :
    SplitsExactly 32 [32, 108, 115, 32, 32, 45, 108, 32] [32, 108, 115, 32, 32, 45, 108, 32, 0]
      (List.replicate 16 none) :=
  (splitsExactly_iff ⟨[], rfl, by decide⟩ (by decide) List.length_replicate).2 (by decide)

/-- Seventeen words of one letter. -/
def seventeenWords : List UInt8 := (List.replicate 17 [97, 32]).flatten

theorem not_splitsExactly_seventeen :
    ¬ SplitsExactly 32 seventeenWords (seventeenWords ++ [0]) (List.replicate 16 none) := by
  rintro ⟨r, cmdStr, agrv, hrun, -⟩
  have hstop : (cmdSplit (seventeenWords ++ [0]) (List.replicate 16 none) 32).returns
      (fun _ => true) = false := by decide +kernel
  rw [hrun] at hstop
  cases hstop

end Shell
end JackOS
