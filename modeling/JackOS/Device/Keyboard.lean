/-
  JackOS.Device.Keyboard

  The handler of the keyboard interrupt in device/keyboard.c.  The scancodes of
  a key come one byte and one interrupt at a time, with 0xE0 in front of some,
  and the handler keeps track of the prefix and of the modifier keys between
  them.  Seen from outside it is a terminal: keys go down and up, what they type
  is queued, and one reader takes the characters (`keyboard_refines`).
-/

import JackOS.Base.Simulation
import JackOS.Device.IoQueueFifo

namespace JackOS
namespace Device

open Base

/-! ## The code -/

/-- A key with two characters on it. -/
def legend (plain shifted : Char) : UInt8 × UInt8 :=
  (UInt8.ofNat plain.toNat, UInt8.ofNat shifted.toNat)

/-- A key with one character. -/
def same (c : UInt8) : UInt8 × UInt8 := (c, c)

/-- `keymap` -/
def keymap : List (UInt8 × UInt8) :=
  [same 0, same 27,  -- esc
    legend '1' '!', legend '2' '@', legend '3' '#', legend '4' '$', legend '5' '%',
    legend '6' '^', legend '7' '&', legend '8' '*', legend '9' '(', legend '0' ')',
    legend '-' '_', legend '=' '+',
    same 8, same 9,  -- backspace, tab
    legend 'q' 'Q', legend 'w' 'W', legend 'e' 'E', legend 'r' 'R', legend 't' 'T',
    legend 'y' 'Y', legend 'u' 'U', legend 'i' 'I', legend 'o' 'O', legend 'p' 'P',
    (91, 123), (93, 125),  -- brackets and braces
    same 13, same 0,  -- enter, ctrl_l
    legend 'a' 'A', legend 's' 'S', legend 'd' 'D', legend 'f' 'F', legend 'g' 'G',
    legend 'h' 'H', legend 'j' 'J', legend 'k' 'K', legend 'l' 'L', legend ';' ':',
    (39, 34), (96, 126),  -- the quotation marks; grave accent and tilde
    same 0, (92, 124),  -- shift_l; backslash and bar
    legend 'z' 'Z', legend 'x' 'X', legend 'c' 'C', legend 'v' 'V', legend 'b' 'B',
    legend 'n' 'N', legend 'm' 'M', legend ',' '<', legend '.' '>', legend '/' '?',
    same 0, same 42, same 0, same 32, same 0]  -- shift_r, asterisk, alt_l, space, capslock

/-- `shift_l_make` -/
def shiftLMake : Nat := 0x2a
/-- `shift_r_make` -/
def shiftRMake : Nat := 0x36
/-- `alt_l_make` -/
def altLMake : Nat := 0x38
/-- `alt_r_make` -/
def altRMake : Nat := 0xE038
/-- `ctrl_l_make` -/
def ctrlLMake : Nat := 0x1D
/-- `ctrl_r_make` -/
def ctrlRMake : Nat := 0xE01D
/-- `casplock_make` -/
def casplockMake : Nat := 0x3A

/-- `ctrl_status`, `shift_status`, `alt_status` and `capslock_status` -/
structure Status where
  ctrlStatus : Bool
  shiftStatus : Bool
  altStatus : Bool
  capslockStatus : Bool
deriving DecidableEq, Repr

/-- The variables of keyboard.c. -/
structure Keyboard (τ : Type) where
  status : Status
  extScancode : Bool
  kbdBuf : IoQueue τ

/-- What a break code does, of the key with this make code. -/
def Status.release (makeCode : Nat) (st : Status) : Status :=
  if makeCode = ctrlLMake ∨ makeCode = ctrlRMake then { st with ctrlStatus := false }
  else if makeCode = altLMake ∨ makeCode = altRMake then { st with altStatus := false }
  else if makeCode = shiftLMake ∨ makeCode = shiftRMake then { st with shiftStatus := false }
  else st

/-- What the make code of a key without a character does. -/
def Status.press (scancode : Nat) (st : Status) : Status :=
  if scancode = ctrlLMake ∨ scancode = ctrlRMake then { st with ctrlStatus := true }
  else if scancode = altLMake ∨ scancode = altRMake then { st with altStatus := true }
  else if scancode = shiftLMake ∨ scancode = shiftRMake then { st with shiftStatus := true }
  else if scancode = casplockMake then { st with capslockStatus := !st.capslockStatus }
  else st

/-- `last`: whether the second column of `keymap` counts. -/
def Status.last (scancode : Nat) (st : Status) : Bool :=
  if scancode < 0x0E ∨ scancode = 0x29 ∨ scancode = 0x1A ∨ scancode = 0x1B ∨ scancode = 0x2B
      ∨ scancode = 0x27 ∨ scancode = 0x28 ∨ scancode = 0x33 ∨ scancode = 0x34 ∨ scancode = 0x35 then
    st.shiftStatus
  else if st.shiftStatus ∧ st.capslockStatus then false
  else st.shiftStatus || st.capslockStatus

/-- The make codes that are looked up. -/
def KnownMake (scancode : Nat) : Prop :=
  (0 < scancode ∧ scancode < 0x3B) ∨ scancode = altRMake ∨ scancode = ctrlRMake

instance (scancode : Nat) : Decidable (KnownMake scancode) :=
  inferInstanceAs (Decidable (_ ∨ _))

/-- `cur_char`, or `none` where the index is not one of `keymap`. -/
def Status.curChar (scancode : Nat) (st : Status) : Option UInt8 :=
  (keymap[scancode &&& 0x00FF]?).map fun key =>
    let curChar := if st.last scancode then key.2 else key.1
    -- 'l' and 'u'
    if st.ctrlStatus ∧ curChar = 108 ∨ st.ctrlStatus ∧ curChar = 117 then curChar - 97 else curChar

variable {τ : Type} [DecidableEq τ]

/-- The handler for a make code. -/
def keyDown (t : τ) (scancode : Nat) (k : Keyboard τ) : Outcome (Keyboard τ) :=
  if ¬ KnownMake scancode then .ok k
  else
    match k.status.curChar scancode with
    | none => .error .undefined
    | some curChar =>
        if curChar ≠ 0 then
          if ¬ ioqFull k.kbdBuf.ioBuf then do
            let kbdBuf ← ioqPutchar t curChar k.kbdBuf
            .ok { k with kbdBuf := kbdBuf }
          else .ok k
        else .ok { k with status := k.status.press (scancode &&& 0x00FF) }

/-- `intr_keyboard_handler`, which interrupts thread `t`.  Its one or two reads of
    the port give `first` and `second`. -/
def intrKeyboardHandler (t : τ) (first second : UInt8) (k : Keyboard τ) : Outcome (Keyboard τ) :=
  if first = 0xE0 then .ok { k with extScancode := true }
  else
    let scancode := if k.extScancode then 0xE000 ||| second.toNat else first.toNat
    let k := { k with extScancode := false }
    if scancode &&& 0x0080 ≠ 0 then
      .ok { k with status := k.status.release (scancode &&& 0xFF7F) }
    else keyDown t scancode k

/-- `keyboard_init`; the buffer holds anything. -/
def keyboardInit (buf : Nat → UInt8) : Keyboard τ where
  status := ⟨false, false, false, false⟩
  extScancode := false
  kbdBuf := ioqueueInit buf

/-! ## Keys -/

/-- A key goes down or up.  No scancode is the prefix. -/
structure KeyEvent where
  /-- The scancode has the prefix 0xE0. -/
  ext : Bool
  code : Nat
  down : Bool
  lt : code < 128
  notPrefix : down = false → code ≠ 0x60

/-- The byte of the scancode. -/
def KeyEvent.byte (e : KeyEvent) : UInt8 := UInt8.ofNat (if e.down then e.code else e.code + 128)

/-- The bytes the keyboard sends. -/
def KeyEvent.bytes (e : KeyEvent) : List UInt8 := (if e.ext then [0xE0] else []) ++ [e.byte]

/-- The event that a byte completes, if a prefix was sent before it or not. -/
def decode (ext : Bool) (byte : UInt8) : Option KeyEvent :=
  if hpre : byte = 0xE0 then none
  else some
    { ext := ext
      code := byte.toNat % 128
      down := byte.toNat < 128
      lt := Nat.mod_lt _ (by decide)
      notPrefix := fun hup hcode => hpre (UInt8.toNat_inj.1 (by
        have hlt := byte.toNat_lt
        rw [decide_eq_false_iff_not] at hup
        change byte.toNat = 224
        omega)) }

/-- The events that bytes are read as. -/
def events : (ext : Bool) → List UInt8 → List KeyEvent
  | _, [] => []
  | ext, byte :: bytes =>
      match decode ext byte with
      | none => events true bytes
      | some e => e :: events false bytes

/-- The modifier keys. -/
inductive Modifier where
  | ctrl
  | alt
  | shift
  | caps

/-- There are two of each but of capslock. -/
def KeyEvent.modifier (e : KeyEvent) : Option Modifier :=
  if e.code = 0x1D then some .ctrl
  else if e.code = 0x38 then some .alt
  else if ¬ e.ext ∧ (e.code = 0x2A ∨ e.code = 0x36) then some .shift
  else if ¬ e.ext ∧ e.code = 0x3A then some .caps
  else none

/-- Which modifiers count as down; capslock changes when it goes down. -/
def Status.after (st : Status) (e : KeyEvent) : Status :=
  match e.modifier with
  | some .ctrl => { st with ctrlStatus := e.down }
  | some .alt => { st with altStatus := e.down }
  | some .shift => { st with shiftStatus := e.down }
  | some .caps => if e.down then { st with capslockStatus := !st.capslockStatus } else st
  | none => st

/-- Letters -/
def isLetter (c : UInt8) : Bool := 97 ≤ c && c ≤ 122

/-- The character on the key: capslock counts for letters only. -/
def Status.charOn (st : Status) (key : UInt8 × UInt8) : UInt8 :=
  if (if isLetter key.1 then st.shiftStatus != st.capslockStatus else st.shiftStatus) then key.2
  else key.1

/-- With ctrl down, "l" and "u" are the two shortcuts. -/
def Status.withCtrl (st : Status) (c : UInt8) : UInt8 :=
  if st.ctrlStatus ∧ (c = 108 ∨ c = 117) then c - 97 else c

/-- What the key types. -/
def Status.types (st : Status) (e : KeyEvent) : Option UInt8 :=
  if e.down ∧ ¬ e.ext then
    (keymap[e.code]?).bind fun key => if key.1 = 0 then none else some (st.withCtrl (st.charOn key))
  else none

/-! ## One event -/

/-- The scancode of the event. -/
def KeyEvent.scancode (e : KeyEvent) : Nat :=
  let low := if e.down then e.code else e.code + 128
  if e.ext then 0xE000 ||| low else low

theorem KeyEvent.byte_toNat (e : KeyEvent) :
    e.byte.toNat = if e.down then e.code else e.code + 128 := by
  have hlt := e.lt
  apply UInt8.toNat_ofNat_of_lt'
  rw [UInt8.size]
  split <;> omega

theorem KeyEvent.byte_ne (e : KeyEvent) : e.byte ≠ 0xE0 := by
  intro heq
  have hnat : e.byte.toNat = 224 := congrArg UInt8.toNat heq
  have hlt := e.lt
  have hup := e.notPrefix
  rw [e.byte_toNat] at hnat
  cases hdown : e.down with
  | true =>
      rw [hdown, if_pos rfl] at hnat
      omega
  | false =>
      rw [hdown, if_neg Bool.false_ne_true] at hnat
      exact hup hdown (by omega)

/-- A byte that is not the prefix is the one of its event. -/
theorem decode_eq_some {ext : Bool} {byte : UInt8} {e : KeyEvent} (h : decode ext byte = some e) :
    e.ext = ext ∧ e.byte = byte := by
  have hlt := byte.toNat_lt
  rw [decode] at h
  split at h
  · cases h
  · cases h
    refine ⟨rfl, UInt8.toNat_inj.1 ?_⟩
    rw [KeyEvent.byte_toNat]
    dsimp only
    by_cases hdown : byte.toNat < 128
    · rw [if_pos (decide_eq_true hdown)]
      omega
    · rw [if_neg (by simpa using hdown)]
      omega

theorem decode_byte (e : KeyEvent) : decode e.ext e.byte = some e := by
  obtain ⟨ext, code, down, hlt, hne⟩ := e
  have hnat := KeyEvent.byte_toNat ⟨ext, code, down, hlt, hne⟩
  rw [decode, dif_neg (KeyEvent.byte_ne _)]
  dsimp only at hnat ⊢
  rw [Option.some_inj, KeyEvent.mk.injEq]
  cases down with
  | true =>
      rw [if_pos rfl] at hnat
      exact ⟨rfl, by omega, decide_eq_true (by omega)⟩
  | false =>
      rw [if_neg Bool.false_ne_true] at hnat
      exact ⟨rfl, by omega, decide_eq_false (by omega)⟩

/-- What the keyboard sends for events is read as these events. -/
theorem events_bytes (es : List KeyEvent) : events false (es.flatMap KeyEvent.bytes) = es := by
  induction es with
  | nil => rfl
  | cons e es ih =>
      have hbyte := decode_byte e
      rw [List.flatMap_cons, KeyEvent.bytes]
      cases hext : e.ext with
      | false =>
          rw [hext] at hbyte
          simp only [Bool.false_eq_true, if_false, List.nil_append, List.singleton_append, events,
            hbyte, ih]
      | true =>
          have hpre : decode false 0xE0 = none := rfl
          rw [hext] at hbyte
          simp only [if_true, List.cons_append, List.nil_append, events, hpre, hbyte, ih]

/-- The handler's decision on a make code.  There are finitely many scancodes and
    states of the modifiers. -/
theorem press_spec : ∀ (code : Fin 128) (ext ctrl shift alt caps : Bool),
    let e : KeyEvent := ⟨ext, code, true, code.isLt, fun h => nomatch h⟩
    let st : Status := ⟨ctrl, shift, alt, caps⟩
    e.scancode &&& 0x0080 = 0
      ∧ (KnownMake e.scancode → st.curChar e.scancode = some ((st.types e).getD 0)
        ∧ (st.types e = none → st.after e = st.press (e.scancode &&& 0x00FF))
        ∧ (st.types e ≠ none → st.after e = st))
      ∧ (¬ KnownMake e.scancode → st.types e = none ∧ st.after e = st)
      ∧ st.types e ≠ some 0 := by
  decide +kernel

theorem release_spec : ∀ (code : Fin 128) (hcode : code.val ≠ 0x60) (ext ctrl shift alt caps : Bool),
    let e : KeyEvent := ⟨ext, code, false, code.isLt, fun _ => hcode⟩
    let st : Status := ⟨ctrl, shift, alt, caps⟩
    e.scancode &&& 0x0080 ≠ 0 ∧ st.types e = none
      ∧ st.after e = st.release (e.scancode &&& 0xFF7F) := by
  decide +kernel

/-- A character is queued if there is room. -/
def offer (t : τ) (typed : Option UInt8) (q : IoQueue τ) : Outcome (IoQueue τ) :=
  match typed with
  | none => .ok q
  | some c => if ioqFull q.ioBuf then .ok q else ioqPutchar t c q

variable {k k' : Keyboard τ} {q q' : IoQueue τ} {t r : τ} {e : KeyEvent}

/-- The byte of the event, when the prefix has been taken. -/
theorem intrKeyboardHandler_event (hext : k.extScancode = e.ext) :
    intrKeyboardHandler t e.byte e.byte k
      = offer t (k.status.types e) k.kbdBuf >>= fun kbdBuf =>
        .ok ⟨k.status.after e, false, kbdBuf⟩ := by
  have hnat := e.byte_toNat
  rw [intrKeyboardHandler, if_neg e.byte_ne, hnat]
  obtain ⟨⟨ctrl, shift, alt, caps⟩, ext, kbdBuf⟩ := k
  obtain ⟨ext', code, down, hlt, hne⟩ := e
  obtain rfl : ext = ext' := hext
  cases down with
  | false =>
      obtain ⟨hbreak, htypes, hafter⟩ := release_spec ⟨code, hlt⟩ (hne rfl) ext ctrl shift alt caps
      simp only [KeyEvent.scancode, Bool.false_eq_true, if_false] at hbreak hafter htypes ⊢
      rw [htypes, if_pos hbreak, hafter]
      rfl
  | true =>
      obtain ⟨hmake, hknown, hunknown, hzero⟩ := press_spec ⟨code, hlt⟩ ext ctrl shift alt caps
      simp only [KeyEvent.scancode, if_true] at hmake hknown hunknown hzero ⊢
      rw [if_neg (not_not.2 hmake), keyDown]
      by_cases hmakes : KnownMake (if ext then 0xE000 ||| code else code)
      · obtain ⟨hcur, hpress, hstays⟩ := hknown hmakes
        rw [if_neg (not_not.2 hmakes)]
        dsimp only
        rw [hcur]
        cases htypes : Status.types ⟨ctrl, shift, alt, caps⟩ ⟨ext, code, true, hlt, hne⟩ with
        | none =>
            rw [hpress htypes]
            rfl
        | some c =>
            have hc : c ≠ 0 := fun heq => hzero (heq ▸ htypes)
            rw [hstays (by rw [htypes]; exact Option.some_ne_none c)]
            dsimp only [Option.getD_some, offer]
            rw [if_pos hc]
            by_cases hfull : ioqFull kbdBuf.ioBuf = true
            · rw [if_neg (not_not.2 hfull), if_pos hfull]
              rfl
            · rw [if_pos hfull, if_neg hfull]
      · obtain ⟨htypes, hstays⟩ := hunknown hmakes
        rw [if_pos hmakes, htypes, hstays]
        rfl

/-! ## The queue with one reader -/

/-- Where the reader is: outside, blocked on an empty queue, or woken by a byte. -/
inductive ReaderAt (r : τ) (q : IoQueue τ) : Prop
  | outside (run : Running q r) (idle : NoWaiter q)
      (free : q.holder = none ∧ q.holderRepeatNr = 0 ∧ q.value = 1) : ReaderAt r q
  | waiting (pc : q.thread r = ⟨.getWait, true⟩) (consumer : q.waiter .consumer = some r)
      (held : q.holder = some r ∧ q.holderRepeatNr = 1 ∧ q.value = 0)
      (empty : q.ioBuf.contents = []) : ReaderAt r q
  | woken (pc : q.thread r = ⟨.getWait, false⟩) (consumer : q.waiter .consumer = none)
      (held : q.holder = some r ∧ q.holderRepeatNr = 1 ∧ q.value = 0)
      (filled : q.ioBuf.contents ≠ []) : ReaderAt r q

/-- Only `r` reads. -/
structure OneReader (r : τ) (q : IoQueue τ) : Prop extends Delivered q where
  others : ∀ t, t ≠ r → Running q t
  producer : q.waiter .producer = none
  waiters : q.waiters = []
  reader : ReaderAt r q

omit [DecidableEq τ] in
theorem Delivered.contents_of {c : UInt8} (h : Delivered q) (h' : Delivered q')
    (hstored : q'.stored = q.stored ++ [c]) (htaken : q'.taken = q.taken) :
    q'.ioBuf.contents = q.ioBuf.contents ++ [c] := by
  have heq := h'.stored_eq
  rw [hstored, htaken, h.stored_eq, List.append_assoc] at heq
  exact (List.append_cancel_left heq).symm

/-- A byte is stored while there is room. -/
theorem OneReader.put (h : OneReader r q) (ht : Running q t) (hroom : ioqFull q.ioBuf = false)
    (c : UInt8) : ∃ q', ioqPutchar t c q = .ok q' ∧ OneReader r q'
      ∧ q'.ioBuf.contents = q.ioBuf.contents ++ [c] ∧ q'.taken = q.taken := by
  have hput := h.toDelivered.put hroom c
  have hcontents := h.toDelivered.contents_of hput rfl rfl
  rw [ioqPutchar, if_neg (by rw [hroom]; exact Bool.false_ne_true)]
  have hfilled : q.ioBuf.contents ++ [c] ≠ [] := by simp
  cases h.reader with
  | outside hrun hidle hfree =>
      refine ⟨_, storeByte_returns ht (hidle .consumer) c, ⟨hput, h.others, h.producer, h.waiters,
        .outside hrun hidle hfree⟩, hcontents, rfl⟩
  | woken hpc hconsumer hheld hne =>
      refine ⟨_, storeByte_returns ht hconsumer c, ⟨hput, h.others, h.producer, h.waiters,
        .woken hpc hconsumer hheld ?_⟩, hcontents, rfl⟩
      rw [hcontents]
      exact hfilled
  | waiting hpc hconsumer hheld hempty =>
      -- the reader is woken
      let q₁ : IoQueue τ := { q with
        ioBuf := { q.ioBuf with
          buf := Function.update q.ioBuf.buf q.ioBuf.head c
          head := nextPos q.ioBuf.head }
        stored := q.stored ++ [c] }
      have hwake : unblock r q₁ = .ok (q₁.setBlocked r false) := by
        have hblocked : (q₁.thread r).blocked = true := by
          change (q.thread r).blocked = true
          rw [hpc]
        rw [unblock, hblocked]
        rfl
      have hthread : ∀ u, ((q₁.setBlocked r false).setWaiter .consumer none).thread u
          = if u = r then ⟨.getWait, false⟩ else q.thread u := by
        intro u
        rw [setWaiter_thread, setBlocked_thread]
        change (if u = r then ({ q.thread r with blocked := false } : IoqThread) else q.thread u) = _
        rw [hpc]
      refine ⟨(q₁.setBlocked r false).setWaiter .consumer none, ?_,
        ⟨hput.congr rfl rfl rfl, fun u hu => ?_, ?_, h.waiters, .woken ?_ ?_ hheld ?_⟩, hcontents, rfl⟩
      · change ioqWakeup .consumer (q₁.setPc t .outside) = _
        rw [setPc_of_pc (by exact ht.1), ioqWakeup]
        have hconsumer' : q₁.waiter .consumer = some r := hconsumer
        rw [hconsumer']
        dsimp only
        rw [hwake]
        rfl
      · rw [Running, hthread, if_neg hu]
        exact h.others u hu
      · rw [setWaiter_waiter, if_neg (by decide)]
        exact h.producer
      · rw [hthread, if_pos rfl]
      · rw [setWaiter_waiter, if_pos rfl]
      · change (q₁.ioBuf).contents ≠ []
        rw [hcontents]
        exact hfilled

/-- The next byte is taken. -/
theorem OneReader.take (h : Delivered q) (hothers : ∀ t, t ≠ r → Running q t)
    (hrun : Running q r) (hidle : NoWaiter q) (hwaiters : q.waiters = [])
    (hfree : q.holder = none ∧ q.holderRepeatNr = 0 ∧ q.value = 1)
    (hfilled : q.ioBuf.contents ≠ []) : ∃ q' c, takeByte r q = .ok q' ∧ OneReader r q'
      ∧ q.ioBuf.contents = c :: q'.ioBuf.contents ∧ q'.taken = q.taken ++ [c] := by
  have hlt : q.taken.length < q.stored.length := by
    have hlen := List.length_pos_iff.2 hfilled
    rw [IoBuf.length_contents, h.length_eq] at hlen
    omega
  have htake := h.take hlt
  refine ⟨_, q.ioBuf.buf q.ioBuf.tail, takeByte_returns hrun (hidle .producer),
    ⟨htake, hothers, hidle .producer, hwaiters, .outside hrun hidle hfree⟩, ?_, rfl⟩
  have heq := htake.stored_eq
  change q.stored = (q.taken ++ [q.ioBuf.buf q.ioBuf.tail]) ++ _ at heq
  rw [h.stored_eq, List.append_assoc] at heq
  exact List.append_cancel_left heq

/-- The reader calls `ioq_getchar`: it takes a byte, or waits. -/
theorem OneReader.getchar (h : OneReader r q) (hrun : Running q r) :
    ∃ q', ioqGetchar r q = .ok q' ∧ OneReader r q'
      ∧ (q.ioBuf.contents = [] ∧ q'.ioBuf.contents = [] ∧ q'.taken = q.taken
        ∨ ∃ c, q.ioBuf.contents = c :: q'.ioBuf.contents ∧ q'.taken = q.taken ++ [c]) := by
  obtain ⟨-, hidle, hfree⟩ | ⟨hpc, -, -, -⟩ | ⟨hpc, -, -, -⟩ := h.reader
  · by_cases hempty : q.ioBuf.contents = []
    · obtain ⟨hholder, hnr, hvalue⟩ := hfree
      let q₁ : IoQueue τ := { q with holder := some r, holderRepeatNr := 1, value := 0 }
      have hthread : ∀ u, (((q₁.setWaiter .consumer (some r)).setBlocked r true).setPc r
          .getWait).thread u = if u = r then ⟨.getWait, true⟩ else q.thread u := by
        intro u
        rw [setPc_thread, setBlocked_thread, setBlocked_thread, if_pos rfl]
        by_cases hu : u = r
        · rw [if_pos hu, if_pos hu]
        · rw [if_neg hu, if_neg hu, if_neg hu]
          rfl
      have hwaiter : ∀ side, (((q₁.setWaiter .consumer (some r)).setBlocked r true).setPc r
          .getWait).waiter side = if side = .consumer then some r else q.waiter side :=
        fun side => setWaiter_waiter q₁ .consumer side (some r)
      refine ⟨((q₁.setWaiter .consumer (some r)).setBlocked r true).setPc r .getWait, ?_,
        ⟨h.toDelivered.congr rfl rfl rfl, fun u hu => ?_, ?_, h.waiters,
          .waiting ?_ ?_ ⟨rfl, rfl, rfl⟩ hempty⟩, .inl ⟨hempty, hempty, rfl⟩⟩
      · have htrue : ioqEmpty q.ioBuf = true := by
          rw [← Bool.not_eq_false, h.toDelivered.notEmpty_iff, ← IoBuf.length_contents, hempty]
          exact Nat.lt_irrefl 0
        have hne : q.holder ≠ some r := by
          rw [hholder]
          exact fun heq => by cases heq
        have htake : mutexAcquire r q = .ok (true, q₁) := by
          rw [mutexAcquire, if_pos hne, mutexTake, semaDown, hvalue]
          simp only [Nat.one_ne_zero, if_false, Nat.sub_self, require_pos, Outcome.ok_bind, if_true,
            hnr]
          rfl
        rw [ioqGetchar, if_pos htrue, htake, Outcome.ok_bind, getAcquired, acquired, ioqWait,
          require_pos (hidle .consumer), Outcome.ok_bind]
      · rw [Running, hthread, if_neg hu]
        exact h.others u hu
      · rw [hwaiter, if_neg (by decide)]
        exact h.producer
      · rw [hthread, if_pos rfl]
      · rw [hwaiter, if_pos rfl]
    · obtain ⟨q', c, hcall, hreader, htaken⟩ :=
        OneReader.take h.toDelivered h.others hrun hidle h.waiters hfree hempty
      have hnot : ioqEmpty q.ioBuf = false := by
        rw [h.toDelivered.notEmpty_iff, ← IoBuf.length_contents]
        exact List.length_pos_iff.2 hempty
      refine ⟨q', ?_, hreader, .inr ⟨c, htaken⟩⟩
      rw [ioqGetchar, if_neg (by rw [hnot]; exact Bool.false_ne_true), hcall]
  · rw [Running, hpc] at hrun
    cases hrun.1
  · rw [Running, hpc] at hrun
    cases hrun.1

/-- The reader was woken and goes on: it takes the byte. -/
theorem OneReader.resume (h : OneReader r q) (hlegal : IoqOp.Legal q (.resume r)) :
    ∃ q' c, Device.resume r q = .ok q' ∧ OneReader r q'
      ∧ q.ioBuf.contents = c :: q'.ioBuf.contents ∧ q'.taken = q.taken ++ [c] := by
  obtain ⟨hrun, -, -⟩ | ⟨hpc, -, -, -⟩ | ⟨hpc, hconsumer, ⟨hholder, hnr, hvalue⟩, hfilled⟩ := h.reader
  · exact absurd hrun.1 hlegal.1
  · have := hlegal.2
    rw [hpc] at this
    cases this
  · let q₁ : IoQueue τ :=
      { q.setPc r .outside with holder := none, holderRepeatNr := 0, value := 1, waiters := [] }
    have hrun : (q.thread r).blocked = false := by rw [hpc]
    have hthread : ∀ u, q₁.thread u = if u = r then ⟨.outside, false⟩ else q.thread u :=
      setPc_outside_thread hrun
    have hothers : ∀ u, u ≠ r → Running q₁ u := by
      intro u hu
      rw [Running, hthread, if_neg hu]
      exact h.others u hu
    have hr : Running q₁ r := by
      rw [Running, hthread, if_pos rfl]
      exact ⟨rfl, rfl⟩
    have hidle : NoWaiter q₁ := by
      intro side
      cases side with
      | consumer => exact hconsumer
      | producer => exact h.producer
    have hdelivered : Delivered q₁ := h.toDelivered.congr rfl rfl rfl
    obtain ⟨q', c, hcall, hreader, hcontents, htaken⟩ := OneReader.take
      hdelivered hothers hr hidle rfl ⟨rfl, rfl, rfl⟩ hfilled
    refine ⟨q', c, ?_, hreader, hcontents, htaken⟩
    have hrelease : mutexRelease r (q.setPc r .outside) = .ok q₁ := by
      have hholder' : (q.setPc r .outside).holder = some r := hholder
      have hnr' : (q.setPc r .outside).holderRepeatNr = 1 := hnr
      have hvalue' : (q.setPc r .outside).value = 0 := hvalue
      have hwaiters' : (q.setPc r .outside).waiters = [] := h.waiters
      rw [mutexRelease, require_pos hholder', Outcome.ok_bind, hnr', if_neg (by decide),
        require_pos rfl, Outcome.ok_bind, semaUp, require_pos hvalue', Outcome.ok_bind, wakeFirst]
      simp only [hwaiters', Outcome.ok_bind, hvalue', require_pos]
      rfl
    rw [Device.resume, hpc, resumeAt, hrelease, Outcome.ok_bind, hcall]

/-! ## The terminal -/

/-- What a user sees: which modifiers are down, whether the prefix of the next
    scancode was sent, the characters that wait for the reader, and those it got. -/
structure Terminal where
  status : Status
  prefixed : Bool
  pending : List UInt8
  received : List UInt8

/-- All modifiers are up, and nothing was typed. -/
def Terminal.start : Terminal := ⟨⟨false, false, false, false⟩, false, [], []⟩

/-- A typed character waits if fewer than 63 do. -/
def queued (pending : List UInt8) : Option UInt8 → List UInt8
  | none => pending
  | some c => if pending.length < 63 then pending ++ [c] else pending

/-- A key goes down or up. -/
def Terminal.key (x : Terminal) (e : KeyEvent) : Terminal :=
  ⟨x.status.after e, false, queued x.pending (x.status.types e), x.received⟩

/-- A byte is sent. -/
def Terminal.scan (x : Terminal) (byte : UInt8) : Terminal :=
  match decode x.prefixed byte with
  | none => { x with prefixed := true }
  | some e => x.key e

/-- The steps: a byte is sent, which interrupts a thread, and what the reader does. -/
inductive KbdOp (τ : Type) where
  | scan (t : τ) (byte : UInt8)
  | getchar
  | resume

/-- A step of the terminal. -/
inductive TerminalStep (x x' : Terminal) : KbdOp τ → Prop
  | scan {t : τ} {byte : UInt8} (hsame : x' = x.scan byte) : TerminalStep x x' (.scan t byte)
  | waits (hempty : x.pending = []) (hsame : x' = x) : TerminalStep x x' .getchar
  | gets {op : KbdOp τ} {c : UInt8} (hop : op = .getchar ∨ op = .resume)
      (hpending : x.pending = c :: x'.pending) (hreceived : x'.received = x.received ++ [c])
      (hstatus : x'.status = x.status) (hprefixed : x'.prefixed = x.prefixed) :
      TerminalStep x x' op

/-- The terminal as a system. -/
def terminal (τ : Type) : System Terminal (KbdOp τ) where
  init x := x = .start
  next x op x' := TerminalStep x x' op

/-! ## Runs -/

/-- When a step can happen; `r` is the reader. -/
def KbdOp.Legal (r : τ) (k : Keyboard τ) : KbdOp τ → Prop
  | .scan t _ => Running k.kbdBuf t
  | .getchar => IoqOp.Legal k.kbdBuf (.getchar r)
  | .resume => IoqOp.Legal k.kbdBuf (.resume r)

instance KbdOp.decidableLegal (r : τ) (k : Keyboard τ) (op : KbdOp τ) : Decidable (op.Legal r k) := by
  cases op <;> unfold KbdOp.Legal <;> first | infer_instance | (unfold Running; infer_instance)

/-- What the step does; both reads of the port give the same byte. -/
def KbdOp.run (r : τ) (k : Keyboard τ) : KbdOp τ → Outcome (Keyboard τ)
  | .scan t byte => intrKeyboardHandler t byte byte k
  | .getchar => do
      let kbdBuf ← ioqGetchar r k.kbdBuf
      .ok { k with kbdBuf := kbdBuf }
  | .resume => do
      let kbdBuf ← Device.resume r k.kbdBuf
      .ok { k with kbdBuf := kbdBuf }

/-- The keyboard with the thread `r` that reads it. -/
def keyboardSystem (r : τ) : System (Keyboard τ) (KbdOp τ) where
  init k := ∃ buf, k = keyboardInit buf
  next k op k' := op.Legal r k ∧ op.run r k = .ok k'

/-- The keyboard is in the state the terminal shows. -/
structure Displays (r : τ) (k : Keyboard τ) (x : Terminal) : Prop where
  ext : k.extScancode = x.prefixed
  queue : OneReader r k.kbdBuf
  status : k.status = x.status
  pending : k.kbdBuf.ioBuf.contents = x.pending
  received : k.kbdBuf.taken = x.received

variable {x x' : Terminal} {trace : List (KbdOp τ)}

/-- A character that is offered is queued, or dropped. -/
theorem OneReader.offer (h : OneReader r q) (ht : Running q t) (typed : Option UInt8) :
    ∃ q', Device.offer t typed q = .ok q' ∧ OneReader r q'
      ∧ q'.ioBuf.contents = queued q.ioBuf.contents typed ∧ q'.taken = q.taken := by
  cases typed with
  | none => exact ⟨q, rfl, h, rfl, rfl⟩
  | some c =>
      have hfull := h.toDelivered.notFull_iff
      rw [← IoBuf.length_contents] at hfull
      rw [Device.offer, queued]
      by_cases hroom : ioqFull q.ioBuf = false
      · obtain ⟨q', hcall, hreader, hcontents, htaken⟩ := h.put ht hroom c
        refine ⟨q', ?_, hreader, ?_, htaken⟩
        · rw [if_neg (by rw [hroom]; exact Bool.false_ne_true), hcall]
        · rw [if_pos (hfull.1 hroom), hcontents]
      · refine ⟨q, ?_, h, ?_, rfl⟩
        · rw [if_pos (by simpa using hroom)]
        · rw [if_neg (mt hfull.2 hroom)]

/-- Every step returns, and is one of the terminal. -/
theorem Displays.step (h : Displays r k x) {op : KbdOp τ} (hop : op.Legal r k) :
    ∃ k' x', op.run r k = .ok k' ∧ TerminalStep x x' op ∧ Displays r k' x' := by
  cases op with
  | scan t byte =>
      suffices hscan : ∃ k', intrKeyboardHandler t byte byte k = .ok k'
          ∧ Displays r k' (x.scan byte) by
        obtain ⟨k', hrun, hdisplays⟩ := hscan
        exact ⟨k', _, hrun, .scan rfl, hdisplays⟩
      cases hdecode : decode x.prefixed byte with
      | none =>
          have hpre : byte = 0xE0 := by
            by_contra hne
            rw [decode, dif_neg hne] at hdecode
            cases hdecode
          rw [Terminal.scan, hdecode]
          exact ⟨{ k with extScancode := true }, if_pos hpre, rfl, h.queue, h.status, h.pending,
            h.received⟩
      | some e =>
          obtain ⟨hext, rfl⟩ := decode_eq_some hdecode
          obtain ⟨q, hoffer, hreader, hcontents, htaken⟩ := h.queue.offer hop (k.status.types e)
          rw [Terminal.scan, hdecode]
          refine ⟨⟨k.status.after e, false, q⟩, ?_, rfl, hreader, ?_, ?_, ?_⟩
          · rw [intrKeyboardHandler_event (h.ext.trans hext.symm), hoffer]
            rfl
          · rw [h.status]
            rfl
          · change q.ioBuf.contents = queued x.pending (x.status.types e)
            rw [← h.pending, ← h.status]
            exact hcontents
          · exact htaken.trans h.received
  | getchar =>
      obtain ⟨q, hcall, hreader, hcase⟩ := h.queue.getchar hop
      have hrun : KbdOp.run r k .getchar = .ok { k with kbdBuf := q } := by
        rw [KbdOp.run, hcall]
        rfl
      rcases hcase with ⟨hempty, hstill, htaken⟩ | ⟨c, hpending, htaken⟩
      · have hnone : x.pending = [] := h.pending.symm.trans hempty
        exact ⟨_, x, hrun, .waits hnone rfl, h.ext, hreader, h.status, hstill.trans hnone.symm,
          htaken.trans h.received⟩
      · refine ⟨_, ⟨x.status, x.prefixed, q.ioBuf.contents, x.received ++ [c]⟩, hrun,
          .gets (.inl rfl) (h.pending.symm.trans hpending) rfl rfl rfl, h.ext, hreader, h.status, rfl, ?_⟩
        rw [← h.received]
        exact htaken
  | resume =>
      obtain ⟨q, c, hcall, hreader, hpending, htaken⟩ := h.queue.resume hop
      have hrun : KbdOp.run r k .resume = .ok { k with kbdBuf := q } := by
        rw [KbdOp.run, hcall]
        rfl
      refine ⟨_, ⟨x.status, x.prefixed, q.ioBuf.contents, x.received ++ [c]⟩, hrun,
        .gets (.inr rfl) (h.pending.symm.trans hpending) rfl rfl rfl, h.ext, hreader, h.status, rfl, ?_⟩
      rw [← h.received]
      exact htaken

omit [DecidableEq τ] in
theorem displays_keyboardInit (r : τ) (buf : Nat → UInt8) :
    Displays r (keyboardInit buf) .start :=
  ⟨rfl, ⟨(flowing_ioqueueInit buf).toDelivered, fun _ _ => ⟨rfl, rfl⟩, rfl, rfl,
    .outside ⟨rfl, rfl⟩ (fun _ => rfl) ⟨rfl, rfl, rfl⟩⟩, rfl, rfl, rfl⟩

theorem keyboardSystem_simulates (r : τ) :
    System.Simulates (keyboardSystem r) (terminal τ) (Displays r) := by
  rintro k op k' x h ⟨hlegal, hcall⟩
  obtain ⟨k'', x', hcall', hstep, hdisplays⟩ := h.step hlegal
  obtain rfl := Except.ok.inj (hcall.symm.trans hcall')
  exact ⟨x', hstep, hdisplays⟩

/-- For every order of interrupts, with any bytes, and of calls of the one reader,
    from `keyboard_init` on: the keyboard follows the terminal, and no step fails,
    so that no scancode leads out of the key map and the reader never goes on
    without a byte. -/
theorem keyboard_refines {buf : Nat → UInt8}
    (hrun : (keyboardSystem r).Run (keyboardInit buf) trace k) :
    (∃ x, (terminal τ).Run .start trace x ∧ k.status = x.status
        ∧ k.kbdBuf.ioBuf.contents = x.pending ∧ k.kbdBuf.taken = x.received)
      ∧ ∀ op : KbdOp τ, op.Legal r k → ∃ k', op.run r k = .ok k' := by
  obtain ⟨x, habs, hdisplays⟩ :=
    (keyboardSystem_simulates r).run (displays_keyboardInit r buf) hrun
  refine ⟨⟨x, habs, hdisplays.status, hdisplays.pending, hdisplays.received⟩, fun op hop => ?_⟩
  obtain ⟨k', -, hcall, -⟩ := hdisplays.step hop
  exact ⟨k', hcall⟩

/-- The right ctrl key goes down and thread 0 waits for a key between its two
    bytes; then "l" goes down, and thread 0 is woken and takes the shortcut. -/
def ctrlRun : List (KbdOp Nat) :=
  [.scan 1 0xE0, .getchar, .scan 1 0x1D, .scan 2 0x26, .resume]

theorem keyboard_refines_ctrl : ∃ k : Keyboard Nat,
    (keyboardSystem 0).Run (keyboardInit fun _ => 0) ctrlRun k
      ∧ (k.kbdBuf.taken = [11] ∧ k.status.ctrlStatus = true)
      ∧ (∃ x, (terminal Nat).Run .start ctrlRun x ∧ k.status = x.status
        ∧ k.kbdBuf.ioBuf.contents = x.pending ∧ k.kbdBuf.taken = x.received)
      ∧ ∀ op : KbdOp Nat, op.Legal 0 k → ∃ k', op.run 0 k = .ok k' := by
  have hend : (System.runSteps (KbdOp.Legal 0) (KbdOp.run 0) ctrlRun
      (keyboardInit fun _ => 0)).returns
        (fun k => decide (k.kbdBuf.taken = [11] ∧ k.status.ctrlStatus = true)) = true := by
    decide
  obtain ⟨k, hsteps, hseen⟩ := Outcome.returns_iff.1 hend
  have hrun : (keyboardSystem 0).Run (keyboardInit fun _ => 0) ctrlRun k :=
    System.Run.of_runSteps (M := keyboardSystem 0) (fun _ _ _ hlegal hstep => ⟨hlegal, hstep⟩) hsteps
  exact ⟨k, hrun, of_decide_eq_true hseen, keyboard_refines hrun⟩

end Device
end JackOS
