/-
  JackOS.Shell.Echo

  What `readline` of shell/shell.c puts on the screen.  Each key is answered by
  `putchar`, ctrl-l clears the screen and prints the prompt and the line again,
  ctrl-u takes the line back.  The line that stands in the buffer is the one
  behind the prompt on the screen (`Behind`), and a backspace never goes back
  over the start of the line, so none is printed in the first cell.
-/

import JackOS.Lib.Print
import JackOS.Shell.Readline

namespace JackOS
namespace Shell

open Base

/-! ## The code -/

/-- `sys_write` to a standard output that is the screen: the bytes are copied to
    `temp_buf`, an array of zeros. -/
def writeScreen (scr : Screen) (buf : Buf) (count : Nat) : Outcome Screen :=
  let tempBuf := List.replicate 1024 0
  if count ≤ buf.length ∧ count ≤ tempBuf.length then
    putStr scr (buf.take count ++ tempBuf.drop count)
  else .error .undefined

/-- `printf` to the screen. -/
def printfScreen (scr : Screen) (format : Buf) (ap : List VaArg) : Outcome Screen := do
  let (buf, count) ← printf format ap
  writeScreen scr buf count

/-- `print_prompt` -/
def printPrompt (scr : Screen) (cwdCache : List UInt8) : Outcome Screen :=
  printfScreen scr (literal "[Jack@JackOS %s]$ " ++ [0]) [.ptr (cwdCache ++ [0])]

/-- What is printed behind the loop. -/
def fullText : List UInt8 :=
  literal "readline: can't find <Enter> in cmd_line, max cached chars are 128.\n"

/-- `readKey` with what it puts on the screen. -/
def readKeyEcho (count : Int) (cwdCache : List UInt8) (s : Readline) (scr : Screen) (c : UInt8) :
    Outcome (Readline × Screen) := do
  let buf ← storeAt s.buf s.pos c
  if s.pos < count then
    if IsEnter c then
      let buf ← storeAt buf s.pos 0
      let scr ← putChar scr 10
      .ok (⟨.entered, buf, s.pos⟩, scr)
    else if c = 8 then  -- '\b'
      let first ← buf.load 0
      if first ≠ 8 then
        let scr ← putChar scr 8
        .ok (⟨.reading, buf, s.pos - 1⟩, scr)
      else .ok (⟨.reading, buf, s.pos⟩, scr)
    else if c = 108 - 97 then  -- 'l' - 'a'
      let buf ← storeAt buf s.pos 0
      let scr ← printPrompt (clsScreen scr) cwdCache
      let scr ← printfScreen scr (literal "%s" ++ [0]) [.ptr buf]
      .ok (⟨.reading, buf, s.pos⟩, scr)
    else if c = 117 - 97 then  -- 'u' - 'a'
      .ok (⟨.clearing, buf, s.pos⟩, scr)
    else
      let scr ← putChar scr c
      .ok (⟨.reading, buf, s.pos + 1⟩, scr)
  else
    let scr ← printfScreen scr (fullText ++ [0]) []
    .ok (⟨.full, buf, s.pos⟩, scr)

/-- `clearChar` with what it puts on the screen. -/
def clearCharEcho (s : Readline) (scr : Screen) : Outcome (Readline × Screen) :=
  if s.pos ≠ 0 then do
    let scr ← putChar scr 8
    let buf ← storeAt s.buf s.pos 0
    .ok (⟨.clearing, buf, s.pos - 1⟩, scr)
  else .ok (⟨.reading, s.buf, s.pos⟩, scr)

/-- The next step, with the key it takes. -/
def echoStep (count : Int) (cwdCache : List UInt8) (s : Typing × Screen) :
    Option UInt8 → Outcome (Typing × Screen)
  | some c => do
      let (r, scr) ← readKeyEcho count cwdCache s.1.1 s.2 c
      .ok ((r, s.1.2 ++ [c]), scr)
  | none => do
      let (r, scr) ← clearCharEcho s.1.1 s.2
      .ok ((r, s.1.2), scr)

/-- The runs of `readline(buf, count)` on a screen.  The keyboard delivers no NUL. -/
def echoedReadline (buf : Buf) (count : Int) (cwdCache : List UInt8) (scr : Screen) :
    System (Typing × Screen) (Option UInt8) where
  init s := 0 < count ∧ s = ((⟨.reading, buf, 0⟩, []), scr)
  next s key s' := Legal s.1 key ∧ key ≠ some 0 ∧ echoStep count cwdCache s key = .ok s'

/-! ## printf to the screen -/

variable {text format : List UInt8} {ps : List Piece} {x : Sheet} {scr : Screen}

/-- A string that fits `temp_buf` with its NUL is shown. -/
theorem shows_writeScreen {buf : Buf} (h : Shows scr x) (hbuf : CString buf text)
    (hroom : text.length < 1024) (htakes : x.TakesAll text) :
    ∃ scr', writeScreen scr buf text.length = .ok scr' ∧ Shows scr' (x.print text) := by
  obtain ⟨rest, rfl, hnul⟩ := hbuf
  have htemp : CString ((text ++ 0 :: rest).take text.length
      ++ (List.replicate 1024 0).drop text.length) text := by
    refine ⟨List.replicate (1024 - text.length - 1) 0, ?_, hnul⟩
    rw [List.take_left, List.drop_replicate, ← List.replicate_succ]
    congr 2
    omega
  obtain ⟨scr', hput, hshows⟩ := (h.putStr htemp).1 htakes
  refine ⟨scr', ?_, hshows⟩
  rw [writeScreen, if_pos ⟨by simp, by rw [List.length_replicate]; omega⟩, hput]

/-- So is a message that fits the array of `printf`. -/
theorem shows_printfScreen (h : Shows scr x) (hok : ∀ p ∈ ps, p.Ok)
    (hformat : CString format (ps.flatMap Piece.format)) (hroom : (texts ps).length < 1024)
    (htakes : x.TakesAll (texts ps)) :
    ∃ scr', printfScreen scr format (ps.flatMap Piece.args) = .ok scr'
      ∧ Shows scr' (x.print (texts ps)) := by
  obtain ⟨buf, hprintf, hbuf⟩ := printf_exact hok hformat hroom
  rw [printfScreen, hprintf, Outcome.ok_bind]
  exact shows_writeScreen h hbuf hroom htakes

/-- The text of the prompt. -/
def promptText (cwdCache : List UInt8) : List UInt8 :=
  literal "[Jack@JackOS " ++ cwdCache ++ literal "]$ "

/-- A working directory that is shown as it is; a path is shorter than
    `MAX_PATH_LEN`. -/
structure Promptable (cwdCache : List UInt8) : Prop where
  backspace : 8 ∉ cwdCache
  nul : 0 ∉ cwdCache
  short : cwdCache.length < 512

theorem shows_printPrompt {cwdCache : List UInt8} (h : Shows scr x)
    (hprompt : Promptable cwdCache) :
    ∃ scr', printPrompt scr cwdCache = .ok scr'
      ∧ Shows scr' (x.print (promptText cwdCache)) := by
  have hsegs : Unformatted ([(literal "[Jack@JackOS ", cwdCache)].flatMap Prod.fst
      ++ literal "]$ ") := by
    change Unformatted (literal "[Jack@JackOS " ++ literal "]$ ")
    decide
  have htexts : texts (stringPieces [(literal "[Jack@JackOS ", cwdCache)] (literal "]$ "))
      = promptText cwdCache := by
    have htake : cwdCache.takeWhile (· != 0) = cwdCache :=
      List.takeWhile_eq_self_iff.2 fun c hc => by
        simpa using fun hzero : c = 0 => hprompt.nul (hzero ▸ hc)
    rw [stringPieces, List.flatMap_singleton, texts, List.flatMap_append, List.flatMap_append]
    change texts (_ : List Piece) ++ _ ++ texts (_ : List Piece) = _
    rw [lits_texts, lits_texts]
    simp [promptText, stringPiece, Piece.text, htake]
  have hlen : (promptText cwdCache).length = 13 + cwdCache.length + 3 := by
    rw [promptText, List.length_append, List.length_append]
    rfl
  have hback : 8 ∉ promptText cwdCache := by
    rw [promptText, List.mem_append, List.mem_append, not_or, not_or]
    exact ⟨⟨by decide, hprompt.backspace⟩, by decide⟩
  have hprint := shows_printfScreen h (stringPieces_ok hsegs) (stringPieces_cstring hsegs)
    (by rw [htexts]; have := hprompt.short; omega)
    (by rw [htexts]; exact Sheet.takesAll_of_notMem hback)
  rw [htexts, stringPieces_args] at hprint
  exact hprint

theorem shows_printFull (h : Shows scr x) :
    ∃ scr', printfScreen scr (fullText ++ [0]) [] = .ok scr'
      ∧ Shows scr' (x.print fullText) := by
  have hok : ∀ p ∈ fullText.map Piece.lit, p.Ok := by
    intro p hp
    obtain ⟨c, hc, rfl⟩ := List.mem_map.1 hp
    have hall : Unformatted fullText := by decide
    exact hall c hc
  have hformat : CString (fullText ++ [0]) ((fullText.map Piece.lit).flatMap Piece.format) :=
    ⟨[], by rw [lits_format], by rw [lits_format]; decide⟩
  have hprint := shows_printfScreen h hok hformat (by rw [lits_texts]; decide)
    (by rw [lits_texts]; exact Sheet.takesAll_of_notMem (by decide))
  rwa [lits_texts, lits_args] at hprint

/-! ## The line behind the prompt -/

/-- The line stands behind what was on the sheet, and its start is in the window. -/
structure Behind (base : Sheet) (line : List UInt8) (x : Sheet) : Prop where
  cells : x.cells = (base.print line).cells
  pos : x.pos = base.pos + line.length
  start : 80 * x.top ≤ base.pos

variable {base : Sheet} {line keys cwdCache : List UInt8} {c : UInt8} {scr' scr₀ : Screen}
  {count : Int} {buf buf' : Buf} {r r' : Readline} {s s' : Typing × Screen}

theorem behind_nil (habove : 80 * base.top ≤ base.pos) : Behind base [] base :=
  ⟨rfl, rfl, habove⟩

/-- A character is typed; the line is no longer than the screen less one row. -/
theorem Behind.put (h : Behind base line x) (hline : ∀ d ∈ line, IsPlain d) (hc : IsPlain c)
    (hlen : line.length < 1920) : Behind base (line ++ [c]) (x.put c) := by
  have hpos := h.pos
  have hstart := h.start
  rw [Sheet.put_plain _ hc]
  refine ⟨?_, ?_, ?_⟩
  · rw [Sheet.print_snoc, Sheet.put_plain _ hc]
    dsimp only [Sheet.moveTo]
    rw [Sheet.pos_print hline, h.cells, hpos]
  · rw [List.length_append, List.length_singleton]
    dsimp only [Sheet.moveTo]
    omega
  · dsimp only [Sheet.moveTo]
    omega

/-- The last character is taken back. -/
theorem Behind.back (h : Behind base (line ++ [c]) x) (hline : ∀ d ∈ line ++ [c], IsPlain d)
    (hbelow : ∀ i, base.pos ≤ i → base.cells i = 0x20) :
    x.Takes 8 ∧ Behind base line (x.put 8) := by
  have hpos := h.pos
  have hstart := h.start
  have hfront : ∀ d ∈ line, IsPlain d := fun d hd => hline d (List.mem_append_left _ hd)
  rw [List.length_append, List.length_singleton] at hpos
  have hcell : x.pos - 1 = base.pos + line.length := by omega
  have hput : x.put 8 = ⟨Function.update x.cells (x.pos - 1) 0x20, x.pos - 1, x.top⟩ := rfl
  refine ⟨fun _ => by omega, ?_⟩
  rw [hput, hcell]
  refine ⟨?_, rfl, hstart⟩
  -- the cell is blank, as it was before the character
  dsimp only
  rw [h.cells, Sheet.print_snoc, Sheet.put_plain _ (hline c (by simp))]
  dsimp only [Sheet.moveTo]
  rw [Sheet.pos_print hfront, Function.update_idem,
    ← Sheet.print_below hfront hbelow (base.pos + line.length) (Nat.le_refl _),
    Function.update_eq_self]

/-! ## The screen during a run -/

/-- Where the line begins: behind the prompt that was there, or behind the one
    that ctrl-l printed. -/
def Prompted (start : Sheet) (cwdCache : List UInt8) (base : Sheet) : Prop :=
  base = start ∨ base = Sheet.blank.print (promptText cwdCache)

/-- The screen shows a prompt and the line behind it. -/
def ShowsLine (start : Sheet) (cwdCache line : List UInt8) (scr : Screen) : Prop :=
  (∀ c ∈ line, IsPlain c)
    ∧ ∃ base x, Prompted start cwdCache base ∧ 80 * base.top ≤ base.pos
      ∧ (∀ i, base.pos ≤ i → base.cells i = 0x20) ∧ Behind base line x ∧ Shows scr x

variable {start : Sheet}

theorem showsLine_start (h : Shows scr start) : ShowsLine start cwdCache [] scr :=
  ⟨fun _ hc => absurd hc List.not_mem_nil, start, start, .inl rfl, h.above, h.below,
    behind_nil h.above, h⟩

theorem ShowsLine.put (h : ShowsLine start cwdCache line scr) (hc : IsPlain c)
    (hlen : line.length < 1920) :
    ∃ scr', putChar scr c = .ok scr' ∧ ShowsLine start cwdCache (line ++ [c]) scr' := by
  obtain ⟨hline, base, x, hbase, habove, hbelow, hbehind, hshows⟩ := h
  obtain ⟨scr', hput, hshows'⟩ := (hshows.putChar c).1 fun hbs => absurd hbs hc.2.2
  refine ⟨scr', hput, fun d hd => ?_, base, x.put c, hbase, habove, hbelow,
    hbehind.put hline hc hlen, hshows'⟩
  rcases List.mem_append.1 hd with hd | hd
  · exact hline d hd
  · rwa [List.mem_singleton.1 hd]

theorem ShowsLine.back (h : ShowsLine start cwdCache line scr) (hne : line ≠ []) :
    ∃ scr', putChar scr 8 = .ok scr' ∧ ShowsLine start cwdCache line.dropLast scr' := by
  obtain ⟨hline, base, x, hbase, habove, hbelow, hbehind, hshows⟩ := h
  rw [← List.dropLast_append_getLast hne] at hbehind hline
  obtain ⟨htakes, hback⟩ := hbehind.back hline hbelow
  obtain ⟨scr', hput, hshows'⟩ := (hshows.putChar 8).1 htakes
  exact ⟨scr', hput, fun d hd => hline d (List.mem_append_left _ hd), base, x.put 8, hbase,
    habove, hbelow, hback, hshows'⟩

/-- A plain text behind a prompt. -/
theorem behind_print (habove : 80 * base.top ≤ base.pos) (hline : ∀ c ∈ line, IsPlain c)
    (hlen : line.length ≤ 1920) : Behind base line (base.print line) := by
  induction line using List.reverseRecOn with
  | nil => exact behind_nil habove
  | append_singleton line c ih =>
      rw [List.length_append, List.length_singleton] at hlen
      have hfront : ∀ d ∈ line, IsPlain d := fun d hd => hline d (List.mem_append_left _ hd)
      rw [Sheet.print_snoc]
      exact (ih hfront (by omega)).put hfront (hline c (by simp)) (by omega)

/-- ctrl-l: the prompt and the line are printed on an empty screen. -/
theorem ShowsLine.clear (h : ShowsLine start cwdCache line scr) (hlen : line.length < 1024)
    (hprompt : Promptable cwdCache) (hbuf : CString buf line) :
    ∃ scr' scr'', printPrompt (clsScreen scr) cwdCache = .ok scr'
      ∧ printfScreen scr' (literal "%s" ++ [0]) [.ptr buf] = .ok scr''
      ∧ ShowsLine start cwdCache line scr'' := by
  obtain ⟨scr', hput, hshows'⟩ := shows_printPrompt (shows_clsScreen scr) hprompt
  have hbs : 8 ∉ line := fun hmem => (h.1 8 hmem).2.2 rfl
  have htexts : texts [.str buf line] = line := List.append_nil line
  have hformat : CString (literal "%s" ++ [0]) (literal "%s") := ⟨[], rfl, by decide⟩
  have hok : ∀ p ∈ [Piece.str buf line], p.Ok := List.forall_mem_singleton.2 hbuf
  have hprint := shows_printfScreen hshows' hok hformat (by rwa [htexts])
    (by rw [htexts]; exact Sheet.takesAll_of_notMem hbs)
  rw [htexts] at hprint
  obtain ⟨scr'', hput', hshows''⟩ := hprint
  exact ⟨scr', scr'', hput, hput', h.1, _, _, .inr rfl, hshows'.above, hshows'.below,
    behind_print hshows'.above h.1 (by omega), hshows''⟩

/-! ## One key -/

theorem mem_of_mem_editLine {d : UInt8} (h : d ∈ editLine keys) : d ∈ keys := by
  induction keys using List.reverseRecOn with
  | nil => exact h
  | append_singleton keys c ih =>
      rw [editLine_append, edit] at h
      rw [List.mem_append, List.mem_singleton]
      split_ifs at h with hback hscreen hclear
      · exact .inl (ih (List.mem_of_mem_dropLast h))
      · exact .inl (ih h)
      · exact absurd h List.not_mem_nil
      · rw [List.mem_append, List.mem_singleton] at h
        exact h.imp_left ih

/-- The screen leaves alone what happens to the buffer. -/
theorem readKey_of_echo (h : readKeyEcho count cwdCache r scr c = .ok (r', scr')) :
    readKey count r c = .ok r' := by
  obtain ⟨buf, hstore, h⟩ := Outcome.bind_eq_ok.1 h
  rw [readKey, hstore, Outcome.ok_bind]
  split_ifs at h ⊢ with hroom henter hback hscreen hclear
  · obtain ⟨buf', hnul, h⟩ := Outcome.bind_eq_ok.1 h
    obtain ⟨_, -, h⟩ := Outcome.bind_eq_ok.1 h
    cases h
    rw [hnul]
    rfl
  · obtain ⟨first, hfirst, h⟩ := Outcome.bind_eq_ok.1 h
    rw [hfirst, Outcome.ok_bind]
    split_ifs at h ⊢
    · obtain ⟨_, -, h⟩ := Outcome.bind_eq_ok.1 h
      cases h
      rfl
    · cases h
      rfl
  · obtain ⟨buf', hnul, h⟩ := Outcome.bind_eq_ok.1 h
    obtain ⟨_, -, h⟩ := Outcome.bind_eq_ok.1 h
    obtain ⟨_, -, h⟩ := Outcome.bind_eq_ok.1 h
    cases h
    rw [hnul]
    rfl
  · cases h
    rfl
  · obtain ⟨_, -, h⟩ := Outcome.bind_eq_ok.1 h
    cases h
    rfl
  · obtain ⟨_, -, h⟩ := Outcome.bind_eq_ok.1 h
    cases h
    rfl

theorem clearChar_of_echo (h : clearCharEcho r scr = .ok (r', scr')) : clearChar r = .ok r' := by
  rw [clearCharEcho] at h
  rw [clearChar]
  split_ifs at h ⊢
  · obtain ⟨_, -, h⟩ := Outcome.bind_eq_ok.1 h
    obtain ⟨buf, hstore, h⟩ := Outcome.bind_eq_ok.1 h
    cases h
    rw [hstore]
    rfl
  · cases h
    rfl

/-- A key that edits the line edits it on the screen. -/
theorem readKeyEcho_edit (h : ShowsLine start cwdCache line scr)
    (hprompt : Promptable cwdCache) (hnul : 0 ∉ line)
    (hroom : (line.length : Int) < count) (hcount : count ≤ 1024) (hc : ¬ IsEnter c)
    (hclear : c ≠ 20) (a : UInt8) (rest : List UInt8) :
    ∃ r' scr', readKeyEcho count cwdCache ⟨.reading, line ++ a :: rest, line.length⟩ scr c
        = .ok (r', scr')
      ∧ ShowsLine start cwdCache (edit line c) scr' := by
  have hline : 8 ∉ line := fun hmem => (h.1 8 hmem).2.2 rfl
  rw [readKeyEcho, storeAt_append, Outcome.ok_bind, if_pos hroom, if_neg hc, edit]
  by_cases hback : c = 8
  · subst hback
    obtain ⟨first, hload, hfirst⟩ := load_first hline rest
    rw [if_pos rfl, if_pos rfl, hload, Outcome.ok_bind]
    by_cases hne : line = []
    · subst hne
      exact ⟨_, scr, if_neg fun hf => hfirst.1 hf rfl, h⟩
    · obtain ⟨scr', hput, hshows⟩ := h.back hne
      rw [if_pos (hfirst.2 hne), hput, Outcome.ok_bind]
      exact ⟨_, scr', rfl, hshows⟩
  · rw [if_neg hback, if_neg hback, show (108 - 97 : UInt8) = 11 from rfl,
      show (117 - 97 : UInt8) = 20 from rfl]
    by_cases hscreen : c = 11
    · obtain ⟨scr', scr'', hprint, hput, hshows⟩ :=
        h.clear (by omega) hprompt
          (⟨rest, rfl, hnul⟩ : CString (line ++ 0 :: rest) line)
      rw [if_pos hscreen, if_pos hscreen, storeAt_append, Outcome.ok_bind, hprint,
        Outcome.ok_bind, hput, Outcome.ok_bind]
      exact ⟨_, scr'', rfl, hshows⟩
    · have hplain : IsPlain c := ⟨fun h => hc (.inr h), fun h => hc (.inl h), hback⟩
      obtain ⟨scr', hput, hshows⟩ := h.put hplain (by omega)
      rw [if_neg hscreen, if_neg hscreen, if_neg hclear, if_neg hclear, hput, Outcome.ok_bind]
      exact ⟨_, scr', rfl, hshows⟩

/-! ## Runs -/

/-- At the `while` the screen shows the line of the keys, and so much of the old
    line as is left while it is taken back.  Behind the `return` the screen that
    showed the line has one line feed more. -/
def Echoed (start : Sheet) (cwdCache : List UInt8) (s : Typing × Screen) : Prop :=
  match s.1.1.control with
  | .reading => ShowsLine start cwdCache (editLine s.1.2) s.2
  | .clearing => ∃ line : List UInt8, s.1.1.pos = line.length ∧ ShowsLine start cwdCache line s.2
  | .entered => ∃ front c scr, s.1.2 = front ++ [c]
      ∧ ShowsLine start cwdCache (editLine front) scr ∧ putChar scr 10 = .ok s.2
  | .full => True

/-- What holds of every reachable state. -/
structure EchoInv (start : Sheet) (cwdCache : List UInt8) (s : Typing × Screen) : Prop where
  edits : Edits s.1
  keys : 0 ∉ s.1.2
  echoed : Echoed start cwdCache s

/-- Every key that is read is echoed. -/
theorem EchoInv.readKey {r : Readline} (h : EchoInv start cwdCache s)
    (hprompt : Promptable cwdCache) (hcount : count ≤ 1024)
    (hcontrol : s.1.1.control = .reading) (hc : c ≠ 0)
    (hrun : Shell.readKey count s.1.1 c = .ok r) :
    ∃ scr', readKeyEcho count cwdCache s.1.1 s.2 c = .ok (r, scr')
      ∧ EchoInv start cwdCache ((r, s.1.2 ++ [c]), scr') := by
  have hedits := h.edits.readKey hcontrol hrun
  have hkeys : 0 ∉ s.1.2 ++ [c] := by
    rw [List.mem_append, List.mem_singleton, not_or]
    exact ⟨h.keys, Ne.symm hc⟩
  -- the echo returns, and shows what it should
  have hecho : ∃ r' scr', readKeyEcho count cwdCache s.1.1 s.2 c = .ok (r', scr')
      ∧ Echoed start cwdCache ((r', s.1.2 ++ [c]), scr') := by
    obtain ⟨⟨⟨control, buf, pos⟩, keys⟩, scr⟩ := s
    cases hcontrol
    obtain ⟨⟨-, hpos, rest, hbuf⟩, hnul, hshows⟩ := h
    dsimp only at hpos hbuf hrun hnul ⊢
    subst hpos hbuf
    obtain ⟨_, hstore, -⟩ := Outcome.bind_eq_ok.1 hrun
    obtain ⟨a, rest, rfl, -⟩ := storeAt_line hstore
    by_cases hroom : ((editLine keys).length : Int) < count
    · by_cases henter : IsEnter c
      · obtain ⟨-, base, x, -, -, -, -, hscreen⟩ := id hshows
        obtain ⟨scr', hput, -⟩ := (hscreen.putChar 10).1 fun hbs => absurd hbs (by decide)
        refine ⟨⟨.entered, editLine keys ++ 0 :: rest, (editLine keys).length⟩, scr', ?_, keys, c,
          scr, rfl, hshows, hput⟩
        rw [readKeyEcho, storeAt_append, Outcome.ok_bind, if_pos hroom, if_pos henter,
          storeAt_append, Outcome.ok_bind, hput, Outcome.ok_bind]
      · by_cases hclear : c = 20
        · subst hclear
          refine ⟨⟨.clearing, editLine keys ++ 20 :: rest, (editLine keys).length⟩, scr, ?_,
            editLine keys, rfl, hshows⟩
          rw [readKeyEcho, storeAt_append, Outcome.ok_bind, if_pos hroom, if_neg (by decide),
            if_neg (by decide), if_neg (by decide), if_pos (by decide)]
        · obtain ⟨r', scr', hrun', hshows'⟩ := readKeyEcho_edit hshows hprompt
            (fun hmem => hnul (mem_of_mem_editLine hmem)) hroom hcount henter hclear a rest
          refine ⟨r', scr', hrun', ?_⟩
          obtain ⟨rest', hedit⟩ := readKey_edit hroom (backspace_notMem_editLine keys) henter
            hclear a rest
          obtain rfl := Except.ok.inj ((readKey_of_echo hrun').symm.trans hedit)
          rw [← editLine_append] at hshows'
          exact hshows'
    · obtain ⟨-, base, x, -, -, -, -, hscreen⟩ := id hshows
      obtain ⟨scr', hprint, -⟩ := shows_printFull hscreen
      refine ⟨⟨.full, editLine keys ++ c :: rest, (editLine keys).length⟩, scr', ?_, trivial⟩
      rw [readKeyEcho, storeAt_append, Outcome.ok_bind, if_neg hroom, hprint, Outcome.ok_bind]
  obtain ⟨r', scr', hrun', hshown⟩ := hecho
  obtain rfl := Except.ok.inj ((readKey_of_echo hrun').symm.trans hrun)
  exact ⟨scr', hrun', hedits, hkeys, hshown⟩

/-- Every character of a cleared line is taken back. -/
theorem EchoInv.clearChar {r : Readline} (h : EchoInv start cwdCache s)
    (hcontrol : s.1.1.control = .clearing) (hrun : Shell.clearChar s.1.1 = .ok r) :
    ∃ scr', clearCharEcho s.1.1 s.2 = .ok (r, scr')
      ∧ EchoInv start cwdCache ((r, s.1.2), scr') := by
  have hedits := h.edits.clearChar hcontrol hrun
  have hecho : ∃ scr', clearCharEcho s.1.1 s.2 = .ok (r, scr')
      ∧ Echoed start cwdCache ((r, s.1.2), scr') := by
    obtain ⟨⟨⟨control, buf, pos⟩, keys⟩, scr⟩ := s
    cases hcontrol
    obtain ⟨⟨-, -, hempty⟩, -, line, hpos, hshows⟩ := h
    dsimp only at hpos hempty hrun ⊢
    subst hpos
    rw [Shell.clearChar] at hrun
    rw [clearCharEcho]
    dsimp only at hrun ⊢
    by_cases hzero : line = []
    · subst hzero
      have hpos : ¬ ((([] : List UInt8).length : Int) ≠ 0) := by decide
      rw [if_neg hpos] at hrun ⊢
      cases hrun
      refine ⟨scr, rfl, ?_⟩
      dsimp only [Echoed]
      rwa [hempty]
    · have hlen := List.length_pos_of_ne_nil hzero
      have hpos : (line.length : Int) ≠ 0 := by omega
      rw [if_pos hpos] at hrun ⊢
      obtain ⟨buf', hstore, hrun⟩ := Outcome.bind_eq_ok.1 hrun
      cases hrun
      obtain ⟨scr', hput, hshows'⟩ := hshows.back hzero
      refine ⟨scr', ?_, line.dropLast, ?_, hshows'⟩
      · rw [hput, Outcome.ok_bind, hstore, Outcome.ok_bind]
      · rw [List.length_dropLast]
        dsimp only
        omega
  obtain ⟨scr', hrun', hshown⟩ := hecho
  exact ⟨scr', hrun', hedits, h.keys, hshown⟩

/-- A step of `readline` can be taken with its echo. -/
theorem EchoInv.step {key : Option UInt8} {t : Typing} (h : EchoInv start cwdCache s)
    (hprompt : Promptable cwdCache) (hcount : count ≤ 1024) (hlegal : Legal s.1 key)
    (hkey : key ≠ some 0) (hstep : typingStep count s.1 key = .ok t) :
    ∃ scr', echoStep count cwdCache s key = .ok (t, scr')
      ∧ EchoInv start cwdCache (t, scr') := by
  cases key with
  | none =>
      obtain ⟨r, hrun, hstep⟩ := Outcome.bind_eq_ok.1 hstep
      cases hstep
      obtain ⟨scr', hecho, hinv⟩ := h.clearChar hlegal hrun
      exact ⟨scr', by rw [echoStep, hecho]; rfl, hinv⟩
  | some c =>
      obtain ⟨r, hrun, hstep⟩ := Outcome.bind_eq_ok.1 hstep
      cases hstep
      obtain ⟨scr', hecho, hinv⟩ := h.readKey hprompt hcount hlegal
        (fun hc => hkey (congrArg some hc)) hrun
      exact ⟨scr', by rw [echoStep, hecho]; rfl, hinv⟩

theorem typingStep_of_echoStep {key : Option UInt8}
    (h : echoStep count cwdCache s key = .ok s') : typingStep count s.1 key = .ok s'.1 := by
  cases key with
  | none =>
      obtain ⟨⟨r, scr'⟩, hecho, h⟩ := Outcome.bind_eq_ok.1 h
      cases h
      rw [typingStep, clearChar_of_echo hecho]
      rfl
  | some c =>
      obtain ⟨⟨r, scr'⟩, hecho, h⟩ := Outcome.bind_eq_ok.1 h
      cases h
      rw [typingStep, readKey_of_echo hecho]
      rfl

/-- With its echo `readline` goes through the same states as without it, no step
    is stopped by the screen, and whenever it waits for a key, the screen shows
    a prompt and behind it the edited line, as it stands in the buffer. -/
theorem readline_echoes (hshows : Shows scr₀ start) (hprompt : Promptable cwdCache)
    (hcount : count ≤ 1024) (h : (echoedReadline buf count cwdCache scr₀).Reachable s) :
    (readline buf count).Reachable s.1
      ∧ (∀ key t, Legal s.1 key → key ≠ some 0 → typingStep count s.1 key = .ok t →
        ∃ scr', echoStep count cwdCache s key = .ok (t, scr'))
      ∧ (s.1.1.control = .reading → ShowsLine start cwdCache (editLine s.1.2) s.2
        ∧ ∃ rest, s.1.1.buf = editLine s.1.2 ++ rest)
      ∧ (s.1.1.control = .entered → ∃ front c scr, s.1.2 = front ++ [c]
        ∧ ShowsLine start cwdCache (editLine front) scr ∧ putChar scr 10 = .ok s.2) := by
  have hinv : (readline buf count).Reachable s.1 ∧ EchoInv start cwdCache s := by
    apply h.invariant
    · rintro s ⟨hpos, rfl⟩
      exact ⟨System.reachable_init ⟨hpos, rfl⟩,
        ⟨fun _ hc => absurd hc List.not_mem_nil, rfl, buf, rfl⟩, List.not_mem_nil,
        showsLine_start hshows⟩
    · rintro s key s' ⟨hreach, hinv⟩ ⟨hlegal, hkey, hstep⟩
      have hplain := typingStep_of_echoStep hstep
      obtain ⟨scr', hstep', hinv'⟩ := hinv.step hprompt hcount hlegal hkey hplain
      rw [Except.ok.inj (hstep'.symm.trans hstep)] at hinv'
      exact ⟨hreach.next ⟨hlegal, hplain⟩, hinv'⟩
  obtain ⟨hreach, hinv⟩ := hinv
  refine ⟨hreach, fun key t hlegal hkey hstep => ?_, fun hcontrol => ?_, fun hcontrol => ?_⟩
  · obtain ⟨scr', hstep', -⟩ := hinv.step hprompt hcount hlegal hkey hstep
    exact ⟨scr', hstep'⟩
  · obtain ⟨hedits, -, hechoed⟩ := hinv
    rw [Edits, hcontrol] at hedits
    rw [Echoed, hcontrol] at hechoed
    exact ⟨hechoed, hedits.2.2⟩
  · have hechoed := hinv.echoed
    rwa [Echoed, hcontrol] at hechoed

/-- An "a" at the prompt of an empty screen, and ctrl-l. -/
theorem readline_echoes_a :
    ∃ s, (echoedReadline [0, 0, 0] 2 [47] (clsScreen ⟨Mem.zero, 0⟩)).Reachable s
      ∧ (readline [0, 0, 0] 2).Reachable s.1
      ∧ (∀ key t, Legal s.1 key → key ≠ some 0 → typingStep 2 s.1 key = .ok t →
        ∃ scr', echoStep 2 [47] s key = .ok (t, scr'))
      ∧ (s.1.1.control = .reading → ShowsLine Sheet.blank [47] (editLine s.1.2) s.2
        ∧ ∃ rest, s.1.1.buf = editLine s.1.2 ++ rest)
      ∧ (s.1.1.control = .entered → ∃ front c scr, s.1.2 = front ++ [c]
        ∧ ShowsLine Sheet.blank [47] (editLine front) scr ∧ putChar scr 10 = .ok s.2) := by
  have hshows := shows_clsScreen ⟨Mem.zero, 0⟩
  have hprompt : Promptable [47] := ⟨by decide, by decide, by decide⟩
  have hstart : EchoInv Sheet.blank [47] ((⟨.reading, [0, 0, 0], 0⟩, []), clsScreen ⟨Mem.zero, 0⟩) :=
    ⟨⟨fun _ hc => absurd hc List.not_mem_nil, rfl, [0, 0, 0], rfl⟩, List.not_mem_nil,
      showsLine_start hshows⟩
  have htyped : typingStep 2 (⟨.reading, [0, 0, 0], 0⟩, []) (some 97)
      = .ok (⟨.reading, [97, 0, 0], 1⟩, [97]) := rfl
  obtain ⟨scr, hstep, hinv⟩ := hstart.step hprompt (by decide) (by exact rfl) (by decide) htyped
  have hcleared : typingStep 2 (⟨.reading, [97, 0, 0], 1⟩, [97]) (some 11)
      = .ok (⟨.reading, [97, 0, 0], 1⟩, [97, 11]) := rfl
  obtain ⟨scr', hstep', -⟩ := hinv.step hprompt (by decide) (by exact rfl) (by decide) hcleared
  have hinit : (echoedReadline [0, 0, 0] 2 [47] (clsScreen ⟨Mem.zero, 0⟩)).Reachable
      ((⟨.reading, [0, 0, 0], 0⟩, []), clsScreen ⟨Mem.zero, 0⟩) :=
    System.reachable_init ⟨by decide, rfl⟩
  have hreach := (hinit.next (i := some 97) ⟨rfl, by decide, hstep⟩).next (i := some 11)
    ⟨rfl, by decide, hstep'⟩
  exact ⟨_, hreach, readline_echoes hshows hprompt (by decide) hreach⟩

end Shell
end JackOS
