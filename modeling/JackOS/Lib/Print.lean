/-
  JackOS.Lib.Print

  The text screen of lib/kernel/print.S.  The video memory holds 25 rows of 80
  cells, a character and its attribute each, and the CRT controller keeps the
  number of the cell where the next character goes.  `put_char` writes there and
  moves the cursor; from the last row it moves all rows up by one.

  What the screen is for is a window on a sheet that never ends (`Sheet`): the
  text stays where it was written, and the window follows the cursor down.  The
  screen shows the window (`Shows`) as long as no backspace is printed with the
  cursor in the first cell of the screen, where `put_char` writes outside the
  video segment.
-/

import JackOS.Lib.Stdio
import JackOS.Base.Bytes
import JackOS.Base.Simulation

namespace JackOS

open Base

/-! ## The code -/

/-- What `gs` points to, and the cursor in the registers 0x0E and 0x0F. -/
structure Screen where
  video : Mem
  cursor : UInt16

/-- `mov byte [gs:bx], c`; the limit of the video segment is eight pages. -/
def storeGs (video : Mem) (bx : UInt16) (c : UInt8) : Outcome Mem :=
  if bx.toNat < 0x8000 then .ok (video.store8 bx.toNat c) else .error .undefined

/-- The number that a signed comparison sees in `bx`. -/
def signed16 (bx : UInt16) : Int := if bx.toNat < 0x8000 then bx.toNat else (bx.toNat : Int) - 0x10000

/-- `rep movsd`, forwards. -/
def repMovsd (m : Mem) (esi edi : Nat) : (ecx : Nat) → Mem
  | 0 => m
  | ecx + 1 => repMovsd (m.copy edi m esi 4) (esi + 4) (edi + 4) ecx

/-- `.cls`: a blank, light grey on black, in each of `ecx` cells from `ebx` on. -/
def cls (m : Mem) (ebx : Nat) : (ecx : Nat) → Mem
  | 0 => m
  | ecx + 1 => cls ((m.store8 ebx 0x20).store8 (ebx + 1) 0x07) (ebx + 2) ecx

/-- `.roll_screen`: row 0 is lost. -/
def rollScreen (video : Mem) : Screen := ⟨cls (repMovsd video 160 0 960) 3840 80, 1920⟩

/-- `.is_line_feed` and `.is_carriage_return`, one and the same. -/
def newLine (video : Mem) (bx : UInt16) : Screen :=
  let bx := bx - bx % 80 + 80
  if signed16 bx < 2000 then ⟨video, bx⟩ else rollScreen video

/-- `.is_backspace`: a blank over the character before the cursor. -/
def backspace (s : Screen) : Outcome Screen := do
  let bx := (s.cursor - 1) <<< 1
  let video ← storeGs s.video bx 0x20
  let bx := bx + 1
  let video ← storeGs video bx 0x07
  .ok ⟨video, bx >>> 1⟩

/-- `.put_other`; behind the last cell of the screen it falls through into the
    line feed. -/
def putOther (s : Screen) (c : UInt8) : Outcome Screen := do
  let bx := s.cursor <<< 1
  let video ← storeGs s.video bx c
  let bx := bx + 1
  let video ← storeGs video bx 0x07
  let bx := (bx >>> 1) + 1
  .ok (if signed16 bx < 2000 then ⟨video, bx⟩ else newLine video bx)

/-- `put_char` -/
def putChar (s : Screen) (c : UInt8) : Outcome Screen :=
  if c = 0x0D then .ok (newLine s.video s.cursor)
  else if c = 0x0A then .ok (newLine s.video s.cursor)
  else if c = 0x08 then backspace s
  else putOther s c

/-- `put_str` -/
def putStr (s : Screen) : Buf → Outcome Screen
  | [] => .error .undefined
  | c :: msg => if c = 0 then .ok s else putChar s c >>= fun s => putStr s msg

/-- `.16based_4bits`: the digits of `edx` go to the cells 7, 6 and so on of
    `put_int_buffer`, here in front of the ones already there. -/
def based16 (edx : UInt32) (buffer : List UInt8) : (ecx : Nat) → List UInt8
  | 0 => buffer
  | ecx + 1 =>
      let digit := edx &&& 0x0000000F
      let dl := if 9 < digit then digit - 10 + 65 else digit + 48
      based16 (edx >>> 4) (dl.toUInt8 :: buffer) ecx

/-- `.skip_prefix_0`: what is left to print of `put_int_buffer`. -/
def skipPrefix0 : (buffer : List UInt8) → List UInt8
  | [] => [48]  -- `.full0`
  | cl :: buffer => if cl = 48 then skipPrefix0 buffer else cl :: buffer

/-- `.put_each_num` -/
def putEachNum (s : Screen) : (digits : List UInt8) → Outcome Screen
  | [] => .ok s
  | cl :: digits => putChar s cl >>= fun s => putEachNum s digits

/-- `put_int` -/
def putInt (s : Screen) (num : UInt32) : Outcome Screen :=
  putEachNum s (skipPrefix0 (based16 num [] 8))

/-- `cls_screen` -/
def clsScreen (s : Screen) : Screen := ⟨cls s.video 0 2000, 0⟩

/-! ## The sheet -/

/-- Text on rows of 80 cells: what stands in each cell, the cell where the next
    character goes, and the first row of the window. -/
structure Sheet where
  cells : Nat → UInt8
  pos : Nat
  top : Nat

/-- An empty sheet. -/
def Sheet.blank : Sheet := ⟨fun _ => 0x20, 0, 0⟩

/-- The cursor moves, and the window after it if it moved below the window. -/
def Sheet.moveTo (x : Sheet) (pos : Nat) : Sheet := { x with pos, top := max x.top (pos / 80 - 24) }

/-- Printing one character. -/
def Sheet.put (x : Sheet) (c : UInt8) : Sheet :=
  if c = 0x0D ∨ c = 0x0A then x.moveTo ((x.pos / 80 + 1) * 80)
  else if c = 0x08 then ⟨Function.update x.cells (x.pos - 1) 0x20, x.pos - 1, x.top⟩
  else { x with cells := Function.update x.cells x.pos c }.moveTo (x.pos + 1)

/-- Printing a text. -/
def Sheet.print (x : Sheet) (text : List UInt8) : Sheet := text.foldl Sheet.put x

/-- A backspace has a cell to go back to in the window. -/
def Sheet.Takes (x : Sheet) (c : UInt8) : Prop := c = 0x08 → 80 * x.top < x.pos

instance (x : Sheet) (c : UInt8) : Decidable (x.Takes c) := inferInstanceAs (Decidable (_ → _))

/-- Every backspace of a text has. -/
def Sheet.TakesAll (x : Sheet) : List UInt8 → Prop
  | [] => True
  | c :: text => x.Takes c ∧ (x.put c).TakesAll text

/-- The video memory holds the window of the sheet. -/
structure Window (video : Mem) (x : Sheet) : Prop where
  chars : ∀ i, i < 2000 → video (2 * i) = x.cells (80 * x.top + i)
  attrs : ∀ i, i < 2000 → video (2 * i + 1) = 0x07

/-- The screen shows the window, its cursor is where the sheet's is, and below it
    nothing is written. -/
structure Shows (s : Screen) (x : Sheet) : Prop where
  window : Window s.video x
  above : 80 * x.top ≤ x.pos
  onScreen : x.pos < 80 * x.top + 2000
  cursor : s.cursor.toNat = x.pos - 80 * x.top
  below : ∀ i, x.pos ≤ i → x.cells i = 0x20

variable {m video : Mem} {s s' : Screen} {x : Sheet} {c : UInt8} {bx : UInt16} {k pos : Nat}
  {text : List UInt8} {b : Buf}

/-! ## The video memory -/

/-- A block copied forwards to a lower address is copied whole. -/
theorem repMovsd_eq {esi edi : Nat} (h : edi ≤ esi) (n : Nat) :
    repMovsd m esi edi n = m.copy edi m esi (4 * n) := by
  induction n generalizing m esi edi with
  | zero =>
      funext a
      rw [repMovsd, Mem.copy_outside (by omega)]
  | succ n ih =>
      rw [repMovsd, ih (by omega)]
      funext a
      -- what the first four bytes overwrite lies in front of what is copied next
      by_cases hrest : edi + 4 ≤ a ∧ a < edi + 4 + 4 * n
      · rw [Mem.copy_inside hrest.1 hrest.2, Mem.copy_outside (by omega),
          Mem.copy_inside (by omega) (by omega)]
        exact congrArg m (by omega)
      · rw [Mem.copy_outside (by omega)]
        by_cases hfirst : edi ≤ a ∧ a < edi + 4
        · rw [Mem.copy_inside hfirst.1 hfirst.2, Mem.copy_inside hfirst.1 (by omega)]
        · rw [Mem.copy_outside (by omega), Mem.copy_outside (by omega)]

theorem cls_apply {ebx a : Nat} (n : Nat) :
    cls m ebx n a
      = if ebx ≤ a ∧ a < ebx + 2 * n then (if (a - ebx) % 2 = 0 then 0x20 else 0x07) else m a := by
  induction n generalizing m ebx with
  | zero => rw [cls, if_neg (by omega)]
  | succ n ih =>
      rw [cls, ih]
      by_cases hrest : ebx + 2 ≤ a ∧ a < ebx + 2 + 2 * n
      · rw [if_pos hrest, if_pos (by omega : ebx ≤ a ∧ a < ebx + 2 * (n + 1))]
        have hparity : (a - (ebx + 2)) % 2 = (a - ebx) % 2 := by omega
        rw [hparity]
      · rw [if_neg hrest]
        by_cases hattr : a = ebx + 1
        · subst hattr
          rw [Mem.store8_self, if_pos (by omega), if_neg (by omega)]
        · rw [Mem.store8_outside hattr]
          by_cases hchar : a = ebx
          · subst hchar
            rw [Mem.store8_self, if_pos (by omega), if_pos (by omega)]
          · rw [Mem.store8_outside hchar, if_neg (by omega)]

/-- A character and its attribute. -/
def setCell (m : Mem) (k : Nat) (c : UInt8) : Mem := (m.store8 (2 * k) c).store8 (2 * k + 1) 0x07

theorem Window.setCell (h : Window video x) :
    Window (setCell video k c) { x with cells := Function.update x.cells (80 * x.top + k) c } := by
  constructor
  · intro i hi
    rw [JackOS.setCell, Mem.store8_outside (by omega)]
    dsimp only
    by_cases hik : i = k
    · rw [hik, Mem.store8_self, Function.update_self]
    · rw [Mem.store8_outside (by omega), Function.update_of_ne (by omega)]
      exact h.chars i hi
  · intro i hi
    by_cases hik : i = k
    · rw [hik, JackOS.setCell, Mem.store8_self]
    · rw [JackOS.setCell, Mem.store8_outside (by omega), Mem.store8_outside (by omega)]
      exact h.attrs i hi

/-- The cursor moves to where nothing is written from, inside the window. -/
theorem Window.moveTo (h : Window video x) (habove : 80 * x.top ≤ pos)
    (hon : pos < 80 * x.top + 2000) (hbelow : ∀ i, pos ≤ i → x.cells i = 0x20)
    (hbx : bx.toNat = pos - 80 * x.top) : Shows ⟨video, bx⟩ (x.moveTo pos) := by
  have htop : max x.top (pos / 80 - 24) = x.top := by omega
  have hmove : x.moveTo pos = { x with pos } := by rw [Sheet.moveTo, htop]
  rw [hmove]
  exact ⟨⟨h.chars, h.attrs⟩, habove, hon, hbx, hbelow⟩

/-- The cursor moves to the row below the window. -/
theorem Window.roll (h : Window video x)
    (hbelow : ∀ i, 80 * (x.top + 25) ≤ i → x.cells i = 0x20) :
    Shows (rollScreen video) (x.moveTo (80 * (x.top + 25))) := by
  have htop : max x.top (80 * (x.top + 25) / 80 - 24) = x.top + 1 := by omega
  have hmove : x.moveTo (80 * (x.top + 25)) = ⟨x.cells, 80 * (x.top + 25), x.top + 1⟩ := by
    rw [Sheet.moveTo, htop]
  -- a character or an attribute: that of the next row, or the blank of the last
  have hcell : ∀ i p, p < 2 → i < 2000 → (rollScreen video).video (2 * i + p)
      = if i < 1920 then video (2 * (i + 80) + p) else if p = 0 then 0x20 else 0x07 := by
    intro i p hp hi
    dsimp only [rollScreen]
    rw [cls_apply, repMovsd_eq (by omega)]
    by_cases hrow : i < 1920
    · rw [if_neg (by omega), if_pos hrow, Mem.copy_inside (by omega) (by omega)]
      exact congrArg video (by omega)
    · have hparity : (2 * i + p - 3840) % 2 = p := by omega
      rw [if_pos (by omega), if_neg hrow, hparity]
  rw [hmove]
  refine ⟨⟨fun i hi => ?_, fun i hi => ?_⟩, ?_, ?_, ?_, hbelow⟩
  · have hi' := hcell i 0 (by omega) hi
    rw [Nat.add_zero] at hi'
    rw [hi']
    dsimp only
    split
    · rw [Nat.add_zero, h.chars _ (by omega)]
      exact congrArg x.cells (by omega)
    · exact (hbelow _ (by omega)).symm
  · rw [hcell i 1 (by omega) hi]
    split
    · exact h.attrs _ (by omega)
    · rfl
  · dsimp only
    omega
  · dsimp only
    omega
  · dsimp only [rollScreen]
    have hcursor : (1920 : UInt16).toNat = 1920 := rfl
    omega

/-! ## The cursor -/

theorem signed16_of_lt (h : bx.toNat < 0x8000) : signed16 bx = bx.toNat := if_pos h

/-- The offset of a cell of the screen, and of its attribute. -/
theorem offset_toNat (h : bx.toNat < 2000) :
    (bx <<< 1).toNat = 2 * bx.toNat ∧ (bx <<< 1 + 1).toNat = 2 * bx.toNat + 1
      ∧ (bx <<< 1 + 1) >>> 1 = bx := by
  have hoff : (bx <<< 1).toNat = 2 * bx.toNat := by
    rw [UInt16.toNat_shiftLeft, Nat.shiftLeft_eq]
    have hone : 2 ^ ((1 : UInt16).toNat % 16) = 2 := rfl
    rw [hone]
    omega
  have hattr : (bx <<< 1 + 1).toNat = 2 * bx.toNat + 1 := by
    rw [UInt16.toNat_add, hoff, UInt16.toNat_one]
    omega
  refine ⟨hoff, hattr, UInt16.toNat_inj.1 ?_⟩
  rw [UInt16.toNat_shiftRight, hattr, Nat.shiftRight_eq_div_pow]
  have hone : 2 ^ ((1 : UInt16).toNat % 16) = 2 := rfl
  rw [hone]
  omega

/-- Both bytes of a cell of the screen are in the segment. -/
theorem storeGs_cell (h : bx.toNat < 2000) :
    (storeGs video (bx <<< 1) c >>= fun video => storeGs video (bx <<< 1 + 1) 0x07)
      = .ok (setCell video bx.toNat c) := by
  obtain ⟨hoff, hattr, -⟩ := offset_toNat h
  rw [storeGs, hoff, if_pos (by omega), Outcome.ok_bind, storeGs, hattr, if_pos (by omega)]
  rfl

theorem newLine_eq (h : bx.toNat ≤ 2000) :
    (bx.toNat / 80 < 24 → ∃ bx', newLine video bx = ⟨video, bx'⟩
      ∧ bx'.toNat = (bx.toNat / 80 + 1) * 80)
    ∧ (24 ≤ bx.toNat / 80 → newLine video bx = rollScreen video) := by
  have hmod : (bx % 80).toNat = bx.toNat % 80 := UInt16.toNat_mod _ _
  have hle : bx % 80 ≤ bx := by
    rw [UInt16.le_iff_toNat_le, hmod]
    exact Nat.mod_le _ _
  have hnext : (bx - bx % 80 + 80).toNat = (bx.toNat / 80 + 1) * 80 := by
    rw [UInt16.toNat_add, UInt16.toNat_sub_of_le _ _ hle, hmod]
    simp only [UInt16.reduceToNat]
    omega
  -- `jl` compares signed numbers, which these are the same in
  have hjl := @signed16_of_lt (bx - bx % 80 + 80) (by omega)
  rw [newLine, hjl, hnext]
  constructor
  · intro hrow
    exact ⟨_, if_pos (by omega), hnext⟩
  · intro hrow
    rw [if_neg (by omega)]

/-- The cursor goes to the next row, at most to the one below the window. -/
theorem Window.newLine (h : Window video x) (hbx : bx.toNat = pos - 80 * x.top)
    (habove : 80 * x.top ≤ pos) (hon : pos ≤ 80 * x.top + 2000)
    (hbelow : ∀ i, pos ≤ i → x.cells i = 0x20) :
    Shows (JackOS.newLine video bx)
      (x.moveTo (min ((pos / 80 + 1) * 80) (80 * (x.top + 25)))) := by
  have hbound : bx.toNat ≤ 2000 := by omega
  rcases Nat.lt_or_ge (bx.toNat / 80) 24 with hrow | hrow
  · obtain ⟨bx', heq, hbx'⟩ := (@newLine_eq video bx hbound).1 hrow
    rw [heq, Nat.min_eq_left (by omega)]
    exact h.moveTo (by omega) (by omega) (fun i hi => hbelow i (by omega)) (by omega)
  · rw [(newLine_eq hbound).2 hrow, Nat.min_eq_right (by omega)]
    exact h.roll fun i hi => hbelow i (by omega)

/-! ## put_char -/

/-- The character goes under the cursor, which moves on or down. -/
theorem Shows.putOther (h : Shows s x) :
    ∃ s', JackOS.putOther s c = .ok s'
      ∧ Shows s' ({ x with cells := Function.update x.cells x.pos c }.moveTo (x.pos + 1)) := by
  have habove := h.above
  have hon := h.onScreen
  have hcursor := h.cursor
  have hstore := @storeGs_cell s.video c s.cursor (by omega)
  obtain ⟨-, -, hback⟩ := @offset_toNat s.cursor (by omega)
  have hnext : (s.cursor + 1).toNat = x.pos + 1 - 80 * x.top := by
    rw [UInt16.toNat_add, UInt16.toNat_one]
    omega
  have hjl := @signed16_of_lt (s.cursor + 1) (by omega)
  have hpos : 80 * x.top + s.cursor.toNat = x.pos := by omega
  have hwindow := h.window.setCell (k := s.cursor.toNat) (c := c)
  rw [hpos] at hwindow
  have hbelow : ∀ i, x.pos + 1 ≤ i → Function.update x.cells x.pos c i = 0x20 := by
    intro i hi
    rw [Function.update_of_ne (by omega)]
    exact h.below i (by omega)
  refine ⟨if signed16 (s.cursor + 1) < 2000 then ⟨setCell s.video s.cursor.toNat c, s.cursor + 1⟩
    else JackOS.newLine (setCell s.video s.cursor.toNat c) (s.cursor + 1), ?_, ?_⟩
  · rw [JackOS.putOther]
    dsimp only
    rw [← bind_assoc, hstore, Outcome.ok_bind, hback]
  · -- behind the last cell of the window the line feed follows
    by_cases hlast : x.pos + 1 < 80 * x.top + 2000
    · rw [if_pos (by omega)]
      exact hwindow.moveTo (by dsimp only; omega) hlast hbelow hnext
    · rw [if_neg (by omega)]
      have hdown := hwindow.newLine hnext (by dsimp only; omega) (by dsimp only; omega) hbelow
      rw [Nat.min_eq_right (by dsimp only; omega)] at hdown
      have hend : 80 * (x.top + 25) = x.pos + 1 := by omega
      dsimp only at hdown
      rwa [hend] at hdown

theorem Shows.newLine (h : Shows s x) :
    Shows (JackOS.newLine s.video s.cursor) (x.moveTo ((x.pos / 80 + 1) * 80)) := by
  have habove := h.above
  have hon := h.onScreen
  have hdown := h.window.newLine h.cursor habove (by omega) h.below
  rwa [Nat.min_eq_left (by omega)] at hdown

theorem Shows.backspace (h : Shows s x) (hback : 80 * x.top < x.pos) :
    ∃ s', JackOS.backspace s = .ok s'
      ∧ Shows s' ⟨Function.update x.cells (x.pos - 1) 0x20, x.pos - 1, x.top⟩ := by
  have hon := h.onScreen
  have hcursor := h.cursor
  have hprev : (s.cursor - 1).toNat = x.pos - 1 - 80 * x.top := by
    rw [UInt16.toNat_sub_of_le _ _ (by rw [UInt16.le_iff_toNat_le, UInt16.toNat_one]; omega),
      UInt16.toNat_one]
    omega
  have hstore := @storeGs_cell s.video 0x20 (s.cursor - 1) (by omega)
  obtain ⟨-, -, heq⟩ := @offset_toNat (s.cursor - 1) (by omega)
  have hpos : 80 * x.top + (s.cursor - 1).toNat = x.pos - 1 := by omega
  have hwindow := h.window.setCell (k := (s.cursor - 1).toNat) (c := 0x20)
  rw [hpos] at hwindow
  refine ⟨⟨setCell s.video (s.cursor - 1).toNat 0x20, s.cursor - 1⟩, ?_,
    ⟨hwindow.chars, hwindow.attrs⟩, by dsimp only; omega, by dsimp only; omega, hprev, ?_⟩
  · rw [JackOS.backspace]
    dsimp only
    rw [← bind_assoc, hstore, Outcome.ok_bind, heq]
  · intro i hi
    dsimp only at hi ⊢
    by_cases heq : i = x.pos - 1
    · rw [heq, Function.update_self]
    · rw [Function.update_of_ne heq]
      exact h.below i (by omega)

/-- In the first cell of the screen a backspace writes behind the segment. -/
theorem Shows.backspace_home (h : Shows s x) (hhome : x.pos ≤ 80 * x.top) :
    JackOS.backspace s = .error .undefined := by
  have hcursor := h.cursor
  have hzero : s.cursor = 0 := UInt16.toNat_inj.1 (by rw [hcursor, UInt16.toNat_zero]; omega)
  rw [JackOS.backspace, hzero]
  rfl

/-- `put_char` prints on the sheet, and it returns if the sheet takes the
    character. -/
theorem Shows.putChar (h : Shows s x) (c : UInt8) :
    (x.Takes c → ∃ s', JackOS.putChar s c = .ok s' ∧ Shows s' (x.put c))
      ∧ (¬ x.Takes c → JackOS.putChar s c = .error .undefined) := by
  rw [JackOS.putChar, Sheet.put]
  by_cases hcr : c = 0x0D
  · rw [if_pos hcr, if_pos (.inl hcr)]
    exact ⟨fun _ => ⟨_, rfl, h.newLine⟩, fun hnot => absurd (fun hbs => by simp_all) hnot⟩
  by_cases hlf : c = 0x0A
  · rw [if_neg hcr, if_pos hlf, if_pos (.inr hlf)]
    exact ⟨fun _ => ⟨_, rfl, h.newLine⟩, fun hnot => absurd (fun hbs => by simp_all) hnot⟩
  have hline : ¬ (c = 0x0D ∨ c = 0x0A) := not_or.2 ⟨hcr, hlf⟩
  rw [if_neg hcr, if_neg hlf, if_neg hline]
  by_cases hbs : c = 0x08
  · rw [if_pos hbs, if_pos hbs]
    exact ⟨fun htakes => h.backspace (htakes hbs), fun hnot => h.backspace_home
      (Nat.le_of_not_lt fun hlt => hnot fun _ => hlt)⟩
  · rw [if_neg hbs, if_neg hbs]
    exact ⟨fun _ => h.putOther, fun hnot => absurd (fun h => absurd h hbs) hnot⟩

/-! ## put_str, put_int and cls_screen -/

/-- `put_str` prints the whole text if the sheet takes it, and never returns
    otherwise. -/
theorem Shows.putStr (h : Shows s x) (hb : CString b text) :
    (x.TakesAll text → ∃ s', JackOS.putStr s b = .ok s' ∧ Shows s' (x.print text))
      ∧ (¬ x.TakesAll text → JackOS.putStr s b = .error .undefined) := by
  induction text generalizing s x b with
  | nil =>
      obtain ⟨rest, rfl, -⟩ := hb
      exact ⟨fun _ => ⟨s, rfl, h⟩, fun hnot => absurd trivial hnot⟩
  | cons c text ih =>
      obtain ⟨rest, rfl, hnul⟩ := hb
      rw [List.mem_cons, not_or] at hnul
      rw [List.cons_append, JackOS.putStr, if_neg (Ne.symm hnul.1)]
      obtain ⟨htakes, hfaults⟩ := h.putChar c
      by_cases hc : x.Takes c
      · obtain ⟨s₁, hput, hshows⟩ := htakes hc
        rw [hput, Outcome.ok_bind]
        obtain ⟨hrest, hstop⟩ := ih hshows (b := text ++ 0 :: rest) ⟨rest, rfl, hnul.2⟩
        exact ⟨fun hall => hrest hall.2, fun hnot => hstop fun hall => hnot ⟨hc, hall⟩⟩
      · rw [hfaults hc]
        exact ⟨fun hall => absurd hall.1 hc, fun _ => rfl⟩

/-- Text without backspaces is always taken. -/
theorem Sheet.takesAll_of_notMem (h : 0x08 ∉ text) : x.TakesAll text := by
  induction text generalizing x with
  | nil => trivial
  | cons c text ih =>
      rw [List.mem_cons, not_or] at h
      exact ⟨fun hbs => absurd hbs.symm h.1, ih h.2⟩

theorem putEachNum_eq (digits rest : List UInt8) (hnul : 0 ∉ digits) :
    putEachNum s digits = putStr s (digits ++ 0 :: rest) := by
  induction digits generalizing s with
  | nil => rfl
  | cons cl digits ih =>
      rw [List.mem_cons, not_or] at hnul
      rw [putEachNum, List.cons_append, putStr, if_neg (Ne.symm hnul.1)]
      exact congrArg _ (funext fun s => ih hnul.2)

/-- The character of one hexadecimal digit is the one `itoa` takes. -/
theorem based16_digit (edx : UInt32) :
    (if 9 < edx &&& 0x0000000F then (edx &&& 0x0000000F) - 10 + 65
      else (edx &&& 0x0000000F) + 48).toUInt8 = digitChar (edx.toNat % 16) := by
  have hdigit : edx &&& 0x0000000F = UInt32.ofNat (edx.toNat % 16) := by
    apply UInt32.toNat_inj.1
    rw [UInt32.toNat_and,
      UInt32.toNat_ofNat_of_lt' (Nat.lt_of_lt_of_le (Nat.mod_lt _ (by decide)) (by decide))]
    exact Nat.and_two_pow_sub_one_eq_mod _ 4
  have hall : ∀ d, d < 16 → (if 9 < UInt32.ofNat d then UInt32.ofNat d - 10 + 65
      else UInt32.ofNat d + 48).toUInt8 = digitChar d := by decide
  rw [hdigit]
  exact hall _ (by omega)

/-- The digits of a number that fits, without its leading zeros. -/
theorem skipPrefix0_based16 {edx : UInt32} {n : Nat} (h : edx.toNat < 16 ^ n)
    (buffer : List UInt8) :
    skipPrefix0 (based16 edx buffer n)
      = if edx = 0 then skipPrefix0 buffer else numeral 16 edx.toNat ++ buffer := by
  induction n generalizing edx buffer with
  | zero =>
      have hzero : edx = 0 := UInt32.toNat_inj.1 (by rw [UInt32.toNat_zero]; omega)
      rw [based16, if_pos hzero]
  | succ n ih =>
      have hshift : (edx >>> 4).toNat = edx.toNat / 16 := by
        rw [UInt32.toNat_shiftRight, Nat.shiftRight_eq_div_pow]
        rfl
      have hlt : (edx >>> 4).toNat < 16 ^ n := by
        rw [hshift]
        exact Nat.div_lt_of_lt_mul (by rwa [pow_succ, Nat.mul_comm] at h)
      rw [based16, based16_digit, ih hlt]
      by_cases hhigh : edx >>> 4 = 0
      · -- the highest digit, or none
        have hsmall : edx.toNat < 16 := by
          rw [hhigh, UInt32.toNat_zero] at hshift
          omega
        rw [if_pos hhigh, skipPrefix0, Nat.mod_eq_of_lt hsmall]
        by_cases hzero : edx = 0
        · rw [if_pos hzero, hzero]
          rfl
        · have hne : edx.toNat ≠ 0 := fun h => hzero (UInt32.toNat_inj.1 h)
          have hchar : ∀ d, d < 16 → d ≠ 0 → digitChar d ≠ 48 := by decide
          rw [if_neg hzero, if_neg (hchar _ hsmall hne), numeral_of_lt hsmall]
          rfl
      · -- a digit above this one is not zero, so this one is printed whatever it is
        have hge : 16 ≤ edx.toNat := by
          by_contra hlt
          exact hhigh (UInt32.toNat_inj.1 (by rw [hshift, UInt32.toNat_zero]; omega))
        have hne : edx ≠ 0 := by
          rintro rfl
          exact absurd hge (by decide)
        rw [if_neg hhigh, if_neg hne, hshift, numeral_of_le (by omega) hge, List.append_assoc]
        rfl

/-- `put_int` prints the numeral that `itoa` writes. -/
theorem putInt_eq (num : UInt32) (rest : List UInt8) :
    putInt s num = putStr s (numeral 16 num.toNat ++ 0 :: rest) := by
  have hdigits : skipPrefix0 (based16 num [] 8) = numeral 16 num.toNat := by
    rw [skipPrefix0_based16 num.toNat_lt]
    split
    · subst_vars
      rfl
    · rw [List.append_nil]
  rw [putInt, hdigits]
  exact putEachNum_eq _ _ (numeral_noNul (by decide) (by decide))

theorem backspace_notMem_numeral (n : Nat) : 0x08 ∉ numeral 16 n := by
  intro hmem
  obtain ⟨d, hd, heq⟩ := numeral_digits (by decide) _ hmem
  have hall : ∀ d, d < 16 → digitChar d ≠ 0x08 := by decide
  exact hall d hd heq.symm

theorem Shows.putInt (h : Shows s x) (num : UInt32) :
    ∃ s', JackOS.putInt s num = .ok s' ∧ Shows s' (x.print (numeral 16 num.toNat)) := by
  have hnul := @numeral_noNul 16 num.toNat (by decide) (by decide)
  rw [putInt_eq num []]
  exact (h.putStr ⟨[], rfl, hnul⟩).1 (Sheet.takesAll_of_notMem (backspace_notMem_numeral _))

theorem shows_clsScreen (s : Screen) : Shows (clsScreen s) Sheet.blank := by
  refine ⟨⟨fun i hi => ?_, fun i hi => ?_⟩, Nat.le_refl _, by decide, rfl, fun _ _ => rfl⟩
  · dsimp only [clsScreen]
    rw [cls_apply, if_pos (by omega), if_pos (by omega)]
    rfl
  · dsimp only [clsScreen]
    rw [cls_apply, if_pos (by omega), if_neg (by omega)]

/-! ## Plain text -/

/-- Printed as it is. -/
def IsPlain (c : UInt8) : Prop := c ≠ 13 ∧ c ≠ 10 ∧ c ≠ 8

theorem Sheet.put_plain (x : Sheet) (hc : IsPlain c) :
    x.put c = { x with cells := Function.update x.cells x.pos c }.moveTo (x.pos + 1) := by
  obtain ⟨hcr, hlf, hbs⟩ := hc
  rw [Sheet.put, if_neg (not_or.2 ⟨hcr, hlf⟩), if_neg hbs]

theorem Sheet.print_snoc (x : Sheet) (text : List UInt8) (c : UInt8) :
    x.print (text ++ [c]) = (x.print text).put c := by
  rw [Sheet.print, List.foldl_append]
  rfl

/-- A plain text stands in the cells from the position on. -/
theorem Sheet.pos_print (h : ∀ c ∈ text, IsPlain c) :
    (x.print text).pos = x.pos + text.length := by
  induction text using List.reverseRecOn with
  | nil => rfl
  | append_singleton text c ih =>
      rw [Sheet.print_snoc, Sheet.put_plain _ (h c (by simp)), List.length_append]
      have hpos := ih fun d hd => h d (List.mem_append_left _ hd)
      dsimp only [Sheet.moveTo]
      rw [hpos]
      rfl

/-- Behind a plain text nothing is written that was not there before. -/
theorem Sheet.print_below (h : ∀ c ∈ text, IsPlain c)
    (hbelow : ∀ i, x.pos ≤ i → x.cells i = 0x20) :
    ∀ i, x.pos + text.length ≤ i → (x.print text).cells i = 0x20 := by
  induction text using List.reverseRecOn with
  | nil => exact hbelow
  | append_singleton text c ih =>
      intro i hi
      have hfront : ∀ d ∈ text, IsPlain d := fun d hd => h d (List.mem_append_left _ hd)
      rw [List.length_append, List.length_singleton] at hi
      rw [Sheet.print_snoc, Sheet.put_plain _ (h c (by simp))]
      dsimp only [Sheet.moveTo]
      rw [Sheet.pos_print hfront, Function.update_of_ne (by omega)]
      exact ih hfront i (by omega)

/-! ## Runs -/

/-- The calls that change the screen. -/
inductive ScreenOp where
  | char (c : UInt8)
  | str (msg : Buf)
  | int (num : UInt32)
  | clear

/-- What the call does. -/
def ScreenOp.run (s : Screen) : ScreenOp → Outcome Screen
  | .char c => putChar s c
  | .str msg => putStr s msg
  | .int num => putInt s num
  | .clear => .ok (clsScreen s)

/-- The text up to the NUL. -/
def textOf (msg : Buf) : List UInt8 := msg.takeWhile (· ≠ 0)

/-- What it is for. -/
def ScreenOp.print (x : Sheet) : ScreenOp → Sheet
  | .char c => x.put c
  | .str msg => x.print (textOf msg)
  | .int num => x.print (numeral 16 num.toNat)
  | .clear => Sheet.blank

/-- When it can be done: a string ends, and backspaces stay in the window. -/
def ScreenOp.Legal (x : Sheet) : ScreenOp → Prop
  | .char c => x.Takes c
  | .str msg => 0 ∈ msg ∧ x.TakesAll (textOf msg)
  | .int _ => True
  | .clear => True

/-- The screen. -/
def screenSystem : System Screen ScreenOp where
  init s := ∃ before, s = clsScreen before
  next s op s' := op.run s = .ok s'

/-- The sheet. -/
def sheetSystem : System Sheet ScreenOp where
  init x := x = Sheet.blank
  next x op x' := op.Legal x ∧ x' = op.print x

theorem cstring_textOf {msg : Buf} (h : 0 ∈ msg) : CString msg (textOf msg) := by
  induction msg with
  | nil => exact absurd h List.not_mem_nil
  | cons c msg ih =>
      by_cases hc : c = 0
      · subst hc
        exact cstring_nil
      · have hmem : 0 ∈ msg := (List.mem_cons.1 h).resolve_left (Ne.symm hc)
        have htext : textOf (c :: msg) = c :: textOf msg :=
          List.takeWhile_cons_of_pos (decide_eq_true hc)
        rw [htext]
        exact (ih hmem).cons hc

/-- Without a NUL `put_str` reads on behind the array. -/
theorem putStr_unterminated {msg : Buf} (h : 0 ∉ msg) : ∀ s', putStr s msg ≠ .ok s' := by
  induction msg generalizing s with
  | nil => exact fun s' hrun => nomatch hrun
  | cons c msg ih =>
      intro s' hrun
      rw [List.mem_cons, not_or] at h
      rw [putStr, if_neg (Ne.symm h.1)] at hrun
      obtain ⟨s₁, -, hrest⟩ := Outcome.bind_eq_ok.1 hrun
      exact ih h.2 s' hrest

/-- A call returns exactly if it can be done, and the screen then shows what it
    is for. -/
theorem Shows.run (h : Shows s x) (op : ScreenOp) :
    (op.Legal x → ∃ s', op.run s = .ok s' ∧ Shows s' (op.print x))
      ∧ (¬ op.Legal x → ∀ s', op.run s ≠ .ok s') := by
  cases op with
  | char c =>
      obtain ⟨htakes, hfaults⟩ := h.putChar c
      exact ⟨htakes, fun hnot s' hrun => nomatch (hfaults hnot).symm.trans hrun⟩
  | str msg =>
      by_cases hnul : 0 ∈ msg
      · obtain ⟨htakes, hfaults⟩ := h.putStr (cstring_textOf hnul)
        exact ⟨fun hlegal => htakes hlegal.2, fun hnot s' hrun =>
          nomatch (hfaults fun hall => hnot ⟨hnul, hall⟩).symm.trans hrun⟩
      · exact ⟨fun hlegal => absurd hlegal.1 hnul, fun _ => putStr_unterminated hnul⟩
  | int num => exact ⟨fun _ => h.putInt num, fun hnot => absurd trivial hnot⟩
  | clear => exact ⟨fun _ => ⟨_, rfl, shows_clsScreen s⟩, fun hnot => absurd trivial hnot⟩

theorem screenSystem_simulates : System.Simulates screenSystem sheetSystem Shows := by
  intro s op s' x hshows hrun
  obtain ⟨hlegal, hillegal⟩ := hshows.run op
  by_cases hop : op.Legal x
  · obtain ⟨s₁, hrun', hshows'⟩ := hlegal hop
    obtain rfl := Except.ok.inj (hrun'.symm.trans hrun)
    exact ⟨op.print x, ⟨hop, rfl⟩, hshows'⟩
  · exact absurd hrun (hillegal hop s')

/-- After any calls on a cleared screen it shows the window of the sheet that the
    same texts were printed on, and a further call returns exactly if each
    backspace in it has a cell of the window to go back to. -/
theorem screen_shows {ops : List ScreenOp} (hrun : screenSystem.Run (clsScreen s) ops s') :
    ∃ x, sheetSystem.Run Sheet.blank ops x ∧ Shows s' x
      ∧ ∀ op : ScreenOp, (∃ s'', op.run s' = .ok s'') ↔ op.Legal x := by
  obtain ⟨x, habs, hshows⟩ := screenSystem_simulates.run (shows_clsScreen s) hrun
  refine ⟨x, habs, hshows, fun op => ?_⟩
  obtain ⟨hlegal, hillegal⟩ := hshows.run op
  constructor
  · rintro ⟨s'', hop⟩
    by_contra hnot
    exact hillegal hnot s'' hop
  · intro hop
    obtain ⟨s'', hop', -⟩ := hlegal hop
    exact ⟨s'', hop'⟩

/-- "Hi" on the screen, and the "i" taken back. -/
theorem screen_shows_hi : ∃ s', screenSystem.Run (clsScreen ⟨Mem.zero, 0⟩)
      [.str [72, 105, 0], .char 8] s'
    ∧ ∃ x, sheetSystem.Run Sheet.blank [.str [72, 105, 0], .char 8] x ∧ Shows s' x
      ∧ ∀ op : ScreenOp, (∃ s'', op.run s' = .ok s'') ↔ op.Legal x := by
  obtain ⟨s₁, hstr, hshows⟩ := ((shows_clsScreen ⟨Mem.zero, 0⟩).run (.str [72, 105, 0])).1
    ⟨by decide, Sheet.takesAll_of_notMem (by decide)⟩
  obtain ⟨s₂, hback, -⟩ := (hshows.run (.char 8)).1 (fun _ => by decide)
  have hrun := System.Run.cons (M := screenSystem) hstr (.cons hback (.nil s₂))
  exact ⟨s₂, hrun, screen_shows hrun⟩

end JackOS
