/-
  JackOS.Shell.Readline

  `readline` of shell/shell.c.  Every key is first stored at `pos` and only then
  looked at, and a backspace moves back unless it is the first byte of the
  buffer itself.  The keys are given to a list editor as well, and the bytes
  below `pos` are its line (`Edits`).

  Each round of the loop, and each round of the inner loop that clears the line,
  is a step of its own, so that what holds of the reachable states holds at any
  time.  What is put on the screen is left out.
-/

import JackOS.Base.Transition
import JackOS.Lib.String

namespace JackOS
namespace Shell

open Base

/-! ## The code -/

/-- `*p = c` with `p` that far from the start of the array. -/
def storeAt (buf : Buf) (p : Int) (c : UInt8) : Outcome Buf :=
  if p < 0 then .error .undefined else buf.store p.toNat c

/-- Where `readline` is: at the `while`, at the `while` of ctrl-u, or behind
    one of its two ends. -/
inductive Control where
  | reading
  | clearing
  /-- Behind the `return`. -/
  | entered
  /-- Behind the loop. -/
  | full
deriving DecidableEq, Repr

/-- `pos` is counted from `buf`. -/
structure Readline where
  control : Control
  buf : Buf
  pos : Int
deriving DecidableEq, Repr

/-- '\n' or '\r' -/
def IsEnter (c : UInt8) : Prop := c = 10 ∨ c = 13

instance (c : UInt8) : Decidable (IsEnter c) := inferInstanceAs (Decidable (_ ∨ _))

/-- One round of the loop, in which `read` delivers `c`. -/
def readKey (count : Int) (s : Readline) (c : UInt8) : Outcome Readline := do
  let buf ← storeAt s.buf s.pos c
  if s.pos < count then
    if IsEnter c then
      let buf ← storeAt buf s.pos 0
      .ok ⟨.entered, buf, s.pos⟩
    else if c = 8 then  -- '\b'
      let first ← buf.load 0
      .ok ⟨.reading, buf, if first ≠ 8 then s.pos - 1 else s.pos⟩
    else if c = 108 - 97 then  -- 'l' - 'a'
      let buf ← storeAt buf s.pos 0
      .ok ⟨.reading, buf, s.pos⟩
    else if c = 117 - 97 then  -- 'u' - 'a'
      .ok ⟨.clearing, buf, s.pos⟩
    else .ok ⟨.reading, buf, s.pos + 1⟩
  else .ok ⟨.full, buf, s.pos⟩

/-- One round of `while (buf != pos)`. -/
def clearChar (s : Readline) : Outcome Readline :=
  if s.pos ≠ 0 then do
    let buf ← storeAt s.buf s.pos 0
    .ok ⟨.clearing, buf, s.pos - 1⟩
  else .ok ⟨.reading, s.buf, s.pos⟩

/-- A run so far: where it is, and the keys that were delivered. -/
abbrev Typing := Readline × List UInt8

/-- Keys are delivered at the `while`; the inner loop takes none. -/
def Legal (s : Typing) : Option UInt8 → Prop
  | some _ => s.1.control = .reading
  | none => s.1.control = .clearing

instance (s : Typing) : (key : Option UInt8) → Decidable (Legal s key)
  | some _ => inferInstanceAs (Decidable (s.1.control = .reading))
  | none => inferInstanceAs (Decidable (s.1.control = .clearing))

/-- The next step, with the key it takes. -/
def typingStep (count : Int) (s : Typing) : Option UInt8 → Outcome Typing
  | some c => do
      let r ← readKey count s.1 c
      .ok (r, s.2 ++ [c])
  | none => do
      let r ← clearChar s.1
      .ok (r, s.2)

/-- The runs of `readline(buf, count)`. -/
def readline (buf : Buf) (count : Int) : System Typing (Option UInt8) where
  init s := 0 < count ∧ s = (⟨.reading, buf, 0⟩, [])
  next s key s' := Legal s key ∧ typingStep count s key = .ok s'

/-! ## The list editor -/

/-- What a key does to the line. -/
def edit (line : List UInt8) (c : UInt8) : List UInt8 :=
  if c = 8 then line.dropLast
  else if c = 11 then line
  else if c = 20 then []
  else line ++ [c]

/-- The line after the keys. -/
def editLine (keys : List UInt8) : List UInt8 := keys.foldl edit []

theorem editLine_append (keys : List UInt8) (c : UInt8) :
    editLine (keys ++ [c]) = edit (editLine keys) c := by
  rw [editLine, List.foldl_append]
  rfl

/-- Backspaces do not get into the line. -/
theorem backspace_notMem_editLine (keys : List UInt8) : 8 ∉ editLine keys := by
  induction keys using List.reverseRecOn with
  | nil => exact List.not_mem_nil
  | append_singleton keys c ih =>
      rw [editLine_append, edit]
      split_ifs with hback
      · exact fun hmem => ih (List.mem_of_mem_dropLast hmem)
      · exact ih
      · exact List.not_mem_nil
      · rw [List.mem_append, List.mem_singleton, not_or]
        exact ⟨ih, Ne.symm hback⟩

/-! ## The invariant -/

/-- At the `while` the bytes below `pos` are the line. -/
def Edits (s : Typing) : Prop :=
  match s.1.control with
  | .reading => (∀ c ∈ s.2, ¬ IsEnter c) ∧ s.1.pos = (editLine s.2).length
      ∧ ∃ rest, s.1.buf = editLine s.2 ++ rest
  | .clearing => (∀ c ∈ s.2, ¬ IsEnter c) ∧ 0 ≤ s.1.pos ∧ editLine s.2 = []
  | .entered => 0 ≤ s.1.pos ∧ ∃ front c rest, s.2 = front ++ [c] ∧ IsEnter c
      ∧ (∀ d ∈ front, ¬ IsEnter d) ∧ s.1.buf = editLine front ++ 0 :: rest
  | .full => 0 ≤ s.1.pos

variable {buf buf' : Buf} {count : Int} {line keys : List UInt8} {c : UInt8} {s s' : Typing}

theorem storeAt_append (line : List UInt8) (a c : UInt8) (rest : List UInt8) :
    storeAt (line ++ a :: rest) line.length c = .ok (line ++ c :: rest) := by
  rw [storeAt, if_neg (by omega), Int.toNat_natCast, Buf.store_append]

/-- A store at the end of the line, if it is in the array. -/
theorem storeAt_line {rest : List UInt8} (h : storeAt (line ++ rest) line.length c = .ok buf') :
    ∃ a rest', rest = a :: rest' ∧ buf' = line ++ c :: rest' := by
  cases rest with
  | nil =>
      rw [storeAt, if_neg (by omega), Int.toNat_natCast, Buf.store,
        if_neg (by rw [List.append_nil]; omega)] at h
      cases h
  | cons a rest =>
      rw [storeAt_append] at h
      cases h
      exact ⟨a, rest, rfl, rfl⟩

/-- A backspace is the first byte of the buffer exactly on an empty line. -/
theorem load_first (hline : 8 ∉ line) (rest : List UInt8) :
    ∃ first, Buf.load (line ++ 8 :: rest) 0 = .ok first ∧ (first ≠ 8 ↔ line ≠ []) := by
  cases line with
  | nil => exact ⟨8, rfl, by simp⟩
  | cons a line =>
      refine ⟨a, rfl, ?_⟩
      have ha : a ≠ 8 := fun heq => hline (heq ▸ List.mem_cons_self)
      simp [ha]

/-- Moving back over the last character of the line, which stays in the array. -/
theorem back_line (line rest : List UInt8) :
    (if line ≠ [] then (line.length : Int) - 1 else line.length) = (line.dropLast.length : Int)
      ∧ ∃ rest', line ++ rest = line.dropLast ++ rest' := by
  by_cases hline : line = []
  · subst hline
    exact ⟨rfl, rest, rfl⟩
  · have hpos := List.length_pos_of_ne_nil hline
    rw [if_pos hline, List.length_dropLast]
    refine ⟨by omega, line.getLast hline :: rest, ?_⟩
    conv_lhs => rw [← List.dropLast_append_getLast hline]
    rw [List.append_assoc]
    rfl

/-! ## One key, at the end of the line -/

theorem readKey_full (hfull : ¬ (line.length : Int) < count) (a : UInt8) (rest : List UInt8) :
    readKey count ⟨.reading, line ++ a :: rest, line.length⟩ c
      = .ok ⟨.full, line ++ c :: rest, line.length⟩ := by
  rw [readKey, storeAt_append, Outcome.ok_bind, if_neg hfull]

theorem readKey_enter (hroom : (line.length : Int) < count) (hc : IsEnter c) (a : UInt8)
    (rest : List UInt8) :
    readKey count ⟨.reading, line ++ a :: rest, line.length⟩ c
      = .ok ⟨.entered, line ++ 0 :: rest, line.length⟩ := by
  rw [readKey, storeAt_append, Outcome.ok_bind, if_pos hroom, if_pos hc, storeAt_append,
    Outcome.ok_bind]

theorem readKey_clear (hroom : (line.length : Int) < count) (a : UInt8) (rest : List UInt8) :
    readKey count ⟨.reading, line ++ a :: rest, line.length⟩ 20
      = .ok ⟨.clearing, line ++ 20 :: rest, line.length⟩ := by
  rw [readKey, storeAt_append, Outcome.ok_bind, if_pos hroom, if_neg (by decide),
    if_neg (by decide), if_neg (by decide), if_pos (by decide)]

/-- The other keys edit the line. -/
theorem readKey_edit (hroom : (line.length : Int) < count) (hline : 8 ∉ line) (hc : ¬ IsEnter c)
    (hclear : c ≠ 20) (a : UInt8) (rest : List UInt8) :
    ∃ rest', readKey count ⟨.reading, line ++ a :: rest, line.length⟩ c
      = .ok ⟨.reading, edit line c ++ rest', (edit line c).length⟩ := by
  rw [readKey, storeAt_append, Outcome.ok_bind, if_pos hroom, if_neg hc, edit]
  by_cases hback : c = 8
  · -- the key is in the buffer when its first byte is looked at
    subst hback
    obtain ⟨first, hload, hfirst⟩ := load_first hline rest
    obtain ⟨hpos, rest', hbuf⟩ := back_line line (8 :: rest)
    refine ⟨rest', ?_⟩
    rw [if_pos rfl, if_pos rfl, hload, Outcome.ok_bind, hbuf, ← hpos]
    simp only [hfirst]
  · rw [if_neg hback, if_neg hback, show (108 - 97 : UInt8) = 11 from rfl,
      show (117 - 97 : UInt8) = 20 from rfl]
    by_cases hscreen : c = 11
    · refine ⟨0 :: rest, ?_⟩
      rw [if_pos hscreen, if_pos hscreen, storeAt_append, Outcome.ok_bind]
    · refine ⟨rest, ?_⟩
      rw [if_neg hscreen, if_neg hscreen, if_neg hclear, if_neg hclear, List.append_assoc,
        List.length_append]
      rfl

/-! ## Steps -/

/-- A key is delivered. -/
theorem Edits.readKey {r : Readline} (h : Edits s) (hcontrol : s.1.control = .reading)
    (hrun : Shell.readKey count s.1 c = .ok r) : Edits (r, s.2 ++ [c]) := by
  obtain ⟨⟨control, buf, pos⟩, keys⟩ := s
  cases hcontrol
  obtain ⟨hkeys, hpos, rest, hbuf⟩ := h
  dsimp only at hkeys hpos hbuf hrun ⊢
  subst hpos hbuf
  -- the key is stored behind the line, whatever it is
  obtain ⟨_, hstore, -⟩ := Outcome.bind_eq_ok.1 hrun
  obtain ⟨a, rest, rfl, -⟩ := storeAt_line hstore
  have hline := backspace_notMem_editLine keys
  by_cases hroom : ((editLine keys).length : Int) < count
  · by_cases hc : IsEnter c
    · rw [readKey_enter hroom hc] at hrun
      cases hrun
      exact ⟨Int.natCast_nonneg _, keys, c, rest, rfl, hc, hkeys, rfl⟩
    · have hkeys' : ∀ d ∈ keys ++ [c], ¬ IsEnter d := by
        intro d hd
        rcases List.mem_append.1 hd with hd | hd
        · exact hkeys d hd
        · rwa [List.mem_singleton.1 hd]
      by_cases hclear : c = 20
      · subst hclear
        rw [readKey_clear hroom] at hrun
        cases hrun
        exact ⟨hkeys', Int.natCast_nonneg _, editLine_append keys 20⟩
      · -- the key edits the line in the array as it does the list
        obtain ⟨rest', hedit⟩ := readKey_edit hroom hline hc hclear a rest
        rw [hedit] at hrun
        cases hrun
        rw [← editLine_append]
        exact ⟨hkeys', rfl, rest', rfl⟩
  · rw [readKey_full hroom] at hrun
    cases hrun
    exact Int.natCast_nonneg _

/-- A character is cleared, or the first one is reached. -/
theorem Edits.clearChar {r : Readline} (h : Edits s) (hcontrol : s.1.control = .clearing)
    (hrun : Shell.clearChar s.1 = .ok r) : Edits (r, s.2) := by
  obtain ⟨⟨control, buf, pos⟩, keys⟩ := s
  cases hcontrol
  obtain ⟨hkeys, hpos, hline⟩ := h
  dsimp only at hkeys hpos hline hrun ⊢
  rw [Shell.clearChar] at hrun
  dsimp only at hrun
  -- the clearing goes down to the first byte and stops there
  by_cases hzero : pos = 0
  · rw [if_neg (not_not.2 hzero)] at hrun
    cases hrun
    refine ⟨hkeys, ?_, buf, ?_⟩
    · rw [hline]
      exact hzero
    · rw [hline]
      rfl
  · rw [if_pos hzero] at hrun
    obtain ⟨buf', -, hrun⟩ := Outcome.bind_eq_ok.1 hrun
    cases hrun
    exact ⟨hkeys, by dsimp only; omega, hline⟩

theorem edits_step {key : Option UInt8} (h : Edits s) (hlegal : Legal s key)
    (hstep : typingStep count s key = .ok s') : Edits s' := by
  cases key with
  | none =>
      obtain ⟨r, hrun, hstep⟩ := Outcome.bind_eq_ok.1 hstep
      cases hstep
      exact h.clearChar hlegal hrun
  | some c =>
      obtain ⟨r, hrun, hstep⟩ := Outcome.bind_eq_ok.1 hstep
      cases hstep
      exact h.readKey hlegal hrun

/-! ## Runs -/

theorem edits_of_reachable (h : (readline buf count).Reachable s) : Edits s := by
  apply h.invariant
  · rintro s ⟨-, rfl⟩
    exact ⟨fun _ hc => absurd hc List.not_mem_nil, rfl, buf, rfl⟩
  · rintro s key s' hedits ⟨hlegal, hstep⟩
    exact edits_step hedits hlegal hstep

/-- `pos` is never below `buf`, and when a key ends the line, the array holds
    the line of the keys before it. -/
theorem readline_edits (h : (readline buf count).Reachable s) :
    0 ≤ s.1.pos
      ∧ (s.1.control = .entered → ∃ front c rest, s.2 = front ++ [c] ∧ IsEnter c
        ∧ (∀ d ∈ front, ¬ IsEnter d) ∧ s.1.buf = editLine front ++ 0 :: rest) := by
  have hedits := edits_of_reachable h
  obtain ⟨⟨control, buf, pos⟩, keys⟩ := s
  cases control with
  | reading =>
      obtain ⟨-, hpos, -⟩ := hedits
      refine ⟨?_, fun h => by cases h⟩
      rw [hpos]
      exact Int.natCast_nonneg _
  | clearing => exact ⟨hedits.2.1, fun h => by cases h⟩
  | entered => exact ⟨hedits.1, fun _ => hedits.2⟩
  | full => exact ⟨hedits, fun h => by cases h⟩

/-- "ab", a backspace and a line feed. -/
theorem readline_edits_backspace :
    0 ≤ (1 : Int)
      ∧ (Control.entered = .entered → ∃ front c rest, [97, 98, 8, 10] = front ++ [c] ∧ IsEnter c
        ∧ (∀ d ∈ front, ¬ IsEnter d) ∧ [97, 0, 8] = editLine front ++ 0 :: rest) := by
  have hinit : (readline [1, 1, 1] 3).Reachable (⟨.reading, [1, 1, 1], 0⟩, []) :=
    System.reachable_init ⟨by decide, rfl⟩
  have hrun : System.runSteps Legal (typingStep 3) [some 97, some 98, some 8, some 10]
      (⟨.reading, [1, 1, 1], 0⟩, []) = .ok (⟨.entered, [97, 0, 8], 1⟩, [97, 98, 8, 10]) := by
    decide
  have hnext : ∀ s key s', Legal s key → typingStep 3 s key = .ok s' →
      (readline [1, 1, 1] 3).next s key s' := fun _ _ _ hlegal hstep => ⟨hlegal, hstep⟩
  exact readline_edits (hinit.runSteps hnext hrun)

/-! ## Every line that fits can be entered -/

theorem storeAt_length {p : Int} (h : storeAt buf p c = .ok buf') : buf'.length = buf.length := by
  unfold storeAt Buf.store at h
  split_ifs at h
  cases h
  exact List.length_set

theorem readKey_length {s r : Readline} (h : readKey count s c = .ok r) :
    r.buf.length = s.buf.length := by
  obtain ⟨buf, hstore, h⟩ := Outcome.bind_eq_ok.1 h
  rw [← storeAt_length hstore]
  split_ifs at h
  · obtain ⟨buf', hnul, h⟩ := Outcome.bind_eq_ok.1 h
    cases h
    exact storeAt_length hnul
  · obtain ⟨first, -, h⟩ := Outcome.bind_eq_ok.1 h
    cases h
    rfl
  · obtain ⟨buf', hnul, h⟩ := Outcome.bind_eq_ok.1 h
    cases h
    exact storeAt_length hnul
  · cases h
    rfl
  · cases h
    rfl
  · cases h
    rfl

theorem reachable_readKey {r : Readline} {t : Readline} (h : (readline buf count).Reachable (t, keys))
    (hcontrol : t.control = .reading) (hrun : readKey count t c = .ok r) :
    (readline buf count).Reachable (r, keys ++ [c]) :=
  h.next (i := some c) ⟨hcontrol, by rw [typingStep, hrun]; rfl⟩

/-- The inner loop ends. -/
theorem clearing_ends {n : Nat} (hn : n < buf'.length)
    (h : (readline buf count).Reachable (⟨.clearing, buf', n⟩, keys)) :
    ∃ buf'', (readline buf count).Reachable (⟨.reading, buf'', 0⟩, keys)
      ∧ buf''.length = buf'.length := by
  induction n generalizing buf' with
  | zero => exact ⟨buf', h.next (i := none) ⟨rfl, rfl⟩, rfl⟩
  | succ n ih =>
      have hstore : storeAt buf' ((n + 1 : Nat) : Int) 0 = .ok (buf'.set (n + 1) 0) := by
        rw [storeAt, if_neg (by omega), Int.toNat_natCast, Buf.store, if_pos hn]
      have hclear : clearChar ⟨.clearing, buf', ((n + 1 : Nat) : Int)⟩
          = .ok ⟨.clearing, buf'.set (n + 1) 0, n⟩ := by
        rw [clearChar, if_pos (by dsimp only; omega)]
        dsimp only
        rw [hstore, Outcome.ok_bind]
        congr 2
        omega
      have hnext := h.next (i := none) ⟨rfl, by rw [typingStep, hclear]; rfl⟩
      obtain ⟨buf'', hreach, hlen⟩ := ih (by rw [List.length_set]; omega) hnext
      exact ⟨buf'', hreach, by rw [hlen, List.length_set]⟩

/-- As long as the line is shorter than `count` the keys are read. -/
theorem readline_reads (hcount : 0 < count) (hbuf : count ≤ buf.length)
    (hkeys : ∀ d ∈ keys, ¬ IsEnter d)
    (hshort : ∀ front, front <+: keys → ((editLine front).length : Int) < count) :
    ∃ rest, (readline buf count).Reachable
        (⟨.reading, editLine keys ++ rest, (editLine keys).length⟩, keys)
      ∧ (editLine keys ++ rest).length = buf.length := by
  induction keys using List.reverseRecOn with
  | nil => exact ⟨buf, System.reachable_init ⟨hcount, rfl⟩, rfl⟩
  | append_singleton keys c ih =>
      obtain ⟨rest, hreach, hlen⟩ := ih (fun d hd => hkeys d (List.mem_append_left _ hd))
        (fun front hfront => hshort front (hfront.trans (List.prefix_append _ _)))
      have hroom := hshort keys (List.prefix_append _ _)
      have hc : ¬ IsEnter c := hkeys c (List.mem_append_right _ List.mem_cons_self)
      -- the array is longer than the line, so there is a byte to store at
      have hrest : rest ≠ [] := by
        rintro rfl
        rw [List.append_nil] at hlen
        omega
      obtain ⟨a, rest, rfl⟩ := List.exists_cons_of_ne_nil hrest
      by_cases hclear : c = 20
      · -- ctrl-u: the inner loop runs to its end before the next key
        subst hclear
        have hnext := reachable_readKey hreach rfl (readKey_clear hroom a rest)
        obtain ⟨buf'', hreach', hlen'⟩ := clearing_ends (by simp) hnext
        have hline : editLine (keys ++ [20]) = [] := editLine_append keys 20
        refine ⟨buf'', ?_, ?_⟩
        · rw [hline]
          exact hreach'
        · rw [hline, List.nil_append, hlen', ← hlen]
          simp
      · obtain ⟨rest', hedit⟩ := readKey_edit hroom (backspace_notMem_editLine keys) hc hclear a rest
        have hlen' := readKey_length hedit
        rw [← editLine_append] at hedit hlen'
        exact ⟨rest', reachable_readKey hreach rfl hedit, hlen'.trans hlen⟩

/-- A line that stays shorter than `count` is entered. -/
theorem readline_enters (hcount : 0 < count) (hbuf : count ≤ buf.length)
    (hkeys : ∀ d ∈ keys, ¬ IsEnter d)
    (hshort : ∀ front, front <+: keys → ((editLine front).length : Int) < count) (hc : IsEnter c) :
    ∃ rest, (readline buf count).Reachable
      (⟨.entered, editLine keys ++ 0 :: rest, (editLine keys).length⟩, keys ++ [c]) := by
  obtain ⟨rest, hreach, hlen⟩ := readline_reads hcount hbuf hkeys hshort
  have hroom := hshort keys List.prefix_rfl
  have hrest : rest ≠ [] := by
    rintro rfl
    rw [List.append_nil] at hlen
    omega
  obtain ⟨a, rest, rfl⟩ := List.exists_cons_of_ne_nil hrest
  exact ⟨rest, reachable_readKey hreach rfl (readKey_enter hroom hc a rest)⟩

end Shell
end JackOS
