/-
  JackOS.Shell.TypedLine

  From the keys to the command line: the interrupts of the keyboard, its queue
  and `readline` together.  While no more than 63 characters are typed none is
  lost, whenever the shell reads them, and the line it reads is the one that was
  typed and edited (`typedLine_entered`).
-/

import JackOS.Device.Keyboard
import JackOS.Shell.Readline

namespace JackOS
namespace Shell

open Base Device

/-- The bytes the keyboard sends in a run. -/
def scancodes {τ : Type} (trace : List (KbdOp τ)) : List UInt8 :=
  trace.filterMap fun op =>
    match op with
    | .scan _ byte => some byte
    | .getchar => none
    | .resume => none

/-- The key events of a run. -/
def keysOf {τ : Type} (trace : List (KbdOp τ)) : List KeyEvent := events false (scancodes trace)

/-- What the keys type, from the modifiers `st` on. -/
def typedBy : (st : Status) → List KeyEvent → List UInt8
  | _, [] => []
  | st, e :: es => (st.types e).toList ++ typedBy (st.after e) es

variable {τ : Type} {x x' : Terminal} {trace : List (KbdOp τ)}

/-- While there is room every character is queued. -/
theorem queued_eq {pending : List UInt8} {typed : Option UInt8}
    (hroom : pending.length + typed.toList.length ≤ 63) :
    queued pending typed = pending ++ typed.toList := by
  cases typed with
  | none => exact (List.append_nil pending).symm
  | some c =>
      rw [queued, if_pos]
      · rfl
      · simpa [Nat.succ_le_iff] using hroom

/-- The keys that go down and up in a run, whatever is read between their bytes. -/
theorem keysOf_bytes (es : List KeyEvent) (h : scancodes trace = es.flatMap KeyEvent.bytes) :
    keysOf trace = es := by
  rw [keysOf, h, events_bytes]

/-- The reader gets what is typed, in order, and the rest waits for it. -/
theorem received_append_pending (hrun : (terminal τ).Run x trace x')
    (hroom : x.pending.length
      + (typedBy x.status (events x.prefixed (scancodes trace))).length ≤ 63) :
    x'.received ++ x'.pending
      = x.received ++ x.pending ++ typedBy x.status (events x.prefixed (scancodes trace)) := by
  induction hrun with
  | nil x => exact (List.append_nil _).symm
  | @cons x x₁ x' op trace hstep hrun ih =>
      have hstep : TerminalStep x x₁ op := hstep
      cases hstep with
      | @scan t byte hsame =>
          subst hsame
          have hcodes : scancodes (.scan t byte :: trace) = byte :: scancodes trace := rfl
          rw [Terminal.scan] at ih
          rw [hcodes, events] at hroom ⊢
          cases hdecode : decode x.prefixed byte with
          | none =>
              rw [hdecode] at ih hroom
              exact ih hroom
          | some e =>
              rw [hdecode] at ih hroom
              dsimp only [Terminal.key, typedBy] at ih hroom ⊢
              rw [List.length_append] at hroom
              have hqueued : queued x.pending (x.status.types e)
                  = x.pending ++ (x.status.types e).toList := queued_eq (by omega)
              rw [ih (by rw [hqueued, List.length_append]; omega), hqueued]
              simp only [List.append_assoc]
      | waits hempty hsame =>
          subst hsame
          exact ih hroom
      | gets hop hpending hreceived hstatus hprefixed =>
          have hcodes : scancodes (op :: trace) = scancodes trace := by
            rcases hop with rfl | rfl <;> rfl
          rw [hcodes, hpending, List.length_cons] at hroom
          rw [ih (by rw [hstatus, hprefixed]; omega), hcodes, hreceived, hstatus, hprefixed, hpending]
          simp

/-- An edited line is no longer than what was typed. -/
theorem length_editLine_le (keys : List UInt8) : (editLine keys).length ≤ keys.length := by
  induction keys using List.reverseRecOn with
  | nil => exact Nat.le_refl 0
  | append_singleton keys c ih =>
      rw [editLine_append, edit, List.length_append, List.length_singleton]
      split_ifs
      · rw [List.length_dropLast]
        omega
      · omega
      · exact Nat.zero_le _
      · rw [List.length_append, List.length_singleton]
        omega

/-- For every order of key events and of reads of the shell in which at most 63
    characters are typed: the shell has got the first of them, in the order they
    were typed, and the others wait.  When it has got a line, that is what
    `readline` puts into the command line, edited. -/
theorem typedLine_entered [DecidableEq τ] {ring : Nat → UInt8} {r : τ} {k : Keyboard τ} {buf : Buf}
    {count : Int} (hrun : (keyboardSystem r).Run (keyboardInit ring) trace k)
    (hfits : (typedBy Terminal.start.status (keysOf trace)).length ≤ 63) (hcount : 63 ≤ count)
    (hbuf : count ≤ buf.length) :
    k.kbdBuf.taken ++ k.kbdBuf.ioBuf.contents = typedBy Terminal.start.status (keysOf trace)
      ∧ ∀ front c, k.kbdBuf.taken = front ++ [c] → (∀ d ∈ front, ¬ IsEnter d) → IsEnter c →
        ∃ rest, (readline buf count).Reachable
          (⟨.entered, editLine front ++ 0 :: rest, (editLine front).length⟩, k.kbdBuf.taken) := by
  obtain ⟨x, habs, hdisplays⟩ :=
    (keyboardSystem_simulates r).run (displays_keyboardInit r ring) hrun
  have hall : x.received ++ x.pending
      = Terminal.start.received ++ Terminal.start.pending
        ++ typedBy Terminal.start.status (keysOf trace) :=
    received_append_pending habs (by
      change 0 + (typedBy Terminal.start.status (keysOf trace)).length ≤ 63
      omega)
  rw [← hdisplays.pending, ← hdisplays.received] at hall
  refine ⟨hall, fun front c htaken hfront hc => ?_⟩
  rw [htaken]
  apply readline_enters (by omega) hbuf hfront _ hc
  -- what was read so far is shorter than the buffer
  intro keys hkeys
  have hlen := congrArg List.length hall
  have htakenLen := congrArg List.length htaken
  have hline := length_editLine_le keys
  have hpre := hkeys.length_le
  have hstart : (Terminal.start.received ++ Terminal.start.pending).length = 0 := rfl
  rw [List.length_append, List.length_append, hstart] at hlen
  rw [List.length_append, List.length_singleton] at htakenLen
  omega

/-- "a" goes down, and the key for the line feed. -/
def typedKeys : List KeyEvent :=
  [⟨false, 0x1E, true, by decide, by decide⟩, ⟨false, 0x1C, true, by decide, by decide⟩]

/-- The shell waits, and reads the first key before the second goes down. -/
def typedRun : List (KbdOp Nat) :=
  [.getchar, .scan 1 0x1E, .resume, .scan 1 0x1C, .getchar]

theorem typedLine_entered_a : ∃ k : Keyboard Nat,
    (keyboardSystem 0).Run (keyboardInit fun _ => 0) typedRun k
      ∧ k.kbdBuf.taken = [97, 13]
      ∧ ∃ rest, (readline (List.replicate 64 0) 63).Reachable
        (⟨.entered, editLine [97] ++ 0 :: rest, (editLine [97]).length⟩, k.kbdBuf.taken) := by
  have hend : (System.runSteps (KbdOp.Legal 0) (KbdOp.run 0) typedRun
      (keyboardInit fun _ => 0)).returns (fun k => decide (k.kbdBuf.taken = [97, 13])) = true := by
    decide
  obtain ⟨k, hsteps, hseen⟩ := Outcome.returns_iff.1 hend
  have htaken := of_decide_eq_true hseen
  have hrun : (keyboardSystem 0).Run (keyboardInit fun _ => 0) typedRun k :=
    System.Run.of_runSteps (M := keyboardSystem 0) (fun _ _ _ hlegal hstep => ⟨hlegal, hstep⟩) hsteps
  have hkeys : keysOf typedRun = typedKeys := keysOf_bytes typedKeys rfl
  exact ⟨k, hrun, htaken,
    (typedLine_entered hrun (by rw [hkeys]; decide) (Int.le_refl 63) (by decide)).2 [97] 13 htaken
      (List.forall_mem_singleton.2 (by decide)) (.inr rfl)⟩

end Shell
end JackOS
