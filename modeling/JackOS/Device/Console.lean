/-
  JackOS.Device.Console

  The console of device/console.c.  Any number of threads call
  `console_put_char`, `console_put_str` and `console_put_int`; each call holds
  `console_lock` while it hands its characters to `put_char` one after the
  other.  Between two characters, and between two statements of the mutex,
  another thread that is not blocked may run.

  The calls take effect one after the other: what stands on the screen are whole
  texts, and a part of at most one more (`ConsoleOk`).
-/

import JackOS.Lib.Print
import JackOS.Thread.Mutex

namespace JackOS
namespace Device

open Base Thread

/-! ## The code -/

/-- Where a thread is in its call. -/
inductive ConsolePc where
  | outside
  /-- In `console_acquire`. -/
  | acquiring
  /-- In `put_char`, `put_str` or `put_int`. -/
  | putting
  /-- In `console_release`. -/
  | releasing
deriving DecidableEq, Repr

/-- A call, by the characters that it prints. -/
structure ConsoleCall where
  pc : ConsolePc
  text : List UInt8
  /-- What is not printed yet. -/
  rest : List UInt8

/-- `console_lock`, the threads and the screen. -/
structure Console (τ : Type) where
  mutex : Mutex τ
  call : τ → ConsoleCall
  screen : Screen
  /-- The characters printed so far. -/
  printed : List UInt8
  /-- The calls that have printed their text to its end, the last one last. -/
  finished : List (τ × List UInt8)

variable {τ : Type} [DecidableEq τ]

namespace Console

def setCall (s : Console τ) (t : τ) (c : ConsoleCall) : Console τ :=
  { s with call := Function.update s.call t c }

/-- The thread goes to `pc`. -/
def goto (s : Console τ) (t : τ) (pc : ConsolePc) : Console τ :=
  s.setCall t { s.call t with pc := pc }

end Console

/-- `console_init`, with all threads outside. -/
def consoleInit (screen : Screen) : Console τ where
  mutex := mutexInit
  call _ := ⟨.outside, [], []⟩
  screen := screen
  printed := []
  finished := []

/-- A call with these characters. -/
def consolePut (t : τ) (text : List UInt8) (s : Console τ) : Console τ :=
  { s with mutex := Thread.mutexAcquire t s.mutex }.setCall t ⟨.acquiring, text, text⟩

/-- The next statement of `console_acquire` or `console_release`. -/
def consoleMutex (inside after : ConsolePc) (t : τ) (s : Console τ) : Outcome (Console τ) := do
  let m ← Thread.advance t s.mutex
  .ok ({ s with mutex := m }.goto t (if (m.client t).pc = MutexPc.outside then after else inside))

/-- The next character, or `console_release` up to its branch. -/
def consoleChar (t : τ) (s : Console τ) : Outcome (Console τ) :=
  match (s.call t).rest with
  | [] => do
      let m ← Thread.mutexRelease t s.mutex
      .ok ({ s with mutex := m, finished := s.finished ++ [(t, (s.call t).text)] }.goto t .releasing)
  | c :: rest => do
      let screen ← putChar s.screen c
      .ok ({ s with screen, printed := s.printed ++ [c] }.setCall t { s.call t with rest })

/-- The next step of a thread inside a call. -/
def consoleAdvance (t : τ) (s : Console τ) : Outcome (Console τ) :=
  match (s.call t).pc with
  | .outside => .ok s
  | .acquiring => consoleMutex .acquiring .putting t s
  | .putting => consoleChar t s
  | .releasing => consoleMutex .releasing .outside t s

/-! ## Runs -/

/-- The steps of the system. -/
inductive ConsoleOp (τ : Type) where
  | put (t : τ) (text : List UInt8)
  | advance (t : τ)

/-- When a step can happen. -/
def ConsoleOp.Legal (s : Console τ) : ConsoleOp τ → Prop
  | .put t _ => (s.mutex.client t).blocked = false ∧ (s.call t).pc = .outside
  | .advance t => (s.mutex.client t).blocked = false ∧ (s.call t).pc ≠ .outside

instance ConsoleOp.decidableLegal (s : Console τ) (op : ConsoleOp τ) : Decidable (op.Legal s) := by
  cases op <;> unfold ConsoleOp.Legal <;> infer_instance

/-- What the step does. -/
def ConsoleOp.run (s : Console τ) : ConsoleOp τ → Outcome (Console τ)
  | .put t text => .ok (consolePut t text s)
  | .advance t => consoleAdvance t s

/-- The console from `console_init` on. -/
def consoleSystem (τ : Type) [DecidableEq τ] (screen : Screen) : System (Console τ) (ConsoleOp τ) where
  init s := s = consoleInit screen
  next s op s' := op.Legal s ∧ op.run s = .ok s'

/-! ## One text after the other -/

/-- The characters of the calls, one after the other. -/
def textsOf (calls : List (τ × List UInt8)) : List UInt8 := calls.flatMap Prod.snd

/-- The calls do not mix: one thread at most is printing, and what was printed
    are the whole texts of the calls before and the front of its own. -/
structure ConsoleOk (start : Sheet) (s : Console τ) : Prop where
  one : ∀ t u, (s.call t).pc = .putting → (s.call u).pc = .putting → t = u
  shows : Shows s.screen (start.print s.printed)
  whole : (∀ t, (s.call t).pc ≠ .putting) → s.printed = textsOf s.finished
  part : ∀ t, (s.call t).pc = .putting → ∃ front,
    (s.call t).text = front ++ (s.call t).rest ∧ s.printed = textsOf s.finished ++ front

/-- Where a thread is in the mutex's functions, by its place in the call. -/
def AtConsole (place : ConsolePc) (pc : MutexPc) (depth : Nat) : Prop :=
  match place with
  | .outside => pc = .outside ∧ depth = 0
  | .acquiring => pc.acquires ∧ depth = 0
  | .putting => pc = .outside ∧ depth = 1
  | .releasing => pc.releases ∧ depth = 1

/-- The invariant. -/
structure ConsoleInv (start : Sheet) (s : Console τ) : Prop where
  mutex : MutexInv s.mutex
  place : ∀ t, AtConsole (s.call t).pc (s.mutex.client t).pc (s.mutex.client t).depth
  fresh : ∀ t, (s.call t).pc = .acquiring → (s.call t).rest = (s.call t).text
  shows : Shows s.screen (start.print s.printed)
  whole : (∀ t, (s.call t).pc ≠ .putting) → s.printed = textsOf s.finished
  part : ∀ t, (s.call t).pc = .putting → ∃ front,
    (s.call t).text = front ++ (s.call t).rest ∧ s.printed = textsOf s.finished ++ front

section Steps

variable {start : Sheet} {s s' : Console τ} {t u : τ} {m : Mutex τ} {c : ConsoleCall}

omit [DecidableEq τ] in
/-- A thread that prints has the lock. -/
theorem ConsoleInv.owns (h : ConsoleInv start s) (hput : (s.call t).pc = .putting) :
    (s.mutex.client t).pc = .outside ∧ (s.mutex.client t).depth = 1 := by
  have hplace := h.place t
  rwa [hput] at hplace

omit [DecidableEq τ] in
theorem ConsoleInv.consoleOk (h : ConsoleInv start s) : ConsoleOk start s := by
  refine ⟨fun t u ht hu => h.mutex.excl t u (.inl ?_) (.inl ?_), h.shows, h.whole, h.part⟩
  · rw [(h.owns ht).2]
    exact Nat.one_pos
  · rw [(h.owns hu).2]
    exact Nat.one_pos

/-- The thread takes a step in the mutex; when it begins to print, no other
    thread is printing. -/
theorem ConsoleInv.move (h : ConsoleInv start s) (hm : MutexInv m)
    (hother : ∀ u, u ≠ t → (m.client u).pc = (s.mutex.client u).pc
      ∧ (m.client u).depth = (s.mutex.client u).depth)
    (hat : AtConsole c.pc (m.client t).pc (m.client t).depth) (hold : (s.call t).pc ≠ .putting)
    (hc : c.pc = .acquiring ∨ c.pc = .putting → c.rest = c.text) :
    ConsoleInv start ({ s with mutex := m }.setCall t c) := by
  have hself : ({ s with mutex := m }.setCall t c).call t = c := Function.update_self ..
  have hrest : ∀ u, u ≠ t → ({ s with mutex := m }.setCall t c).call u = s.call u :=
    fun u hu => Function.update_of_ne hu _ _
  refine ⟨hm, fun u => ?_, fun u hu => ?_, h.shows, fun hno => ?_, fun u hu => ?_⟩
  · by_cases hut : u = t
    · subst hut
      rw [hself]
      exact hat
    · rw [hrest u hut]
      have hplace := h.place u
      rwa [← (hother u hut).1, ← (hother u hut).2] at hplace
  · by_cases hut : u = t
    · subst hut
      rw [hself] at hu ⊢
      exact hc (.inl hu)
    · rw [hrest u hut] at hu ⊢
      exact h.fresh u hu
  · apply h.whole
    intro u
    by_cases hut : u = t
    · rwa [hut]
    · have hu := hno u
      rwa [hrest u hut] at hu
  · by_cases hut : u = t
    · subst hut
      rw [hself] at hu ⊢
      refine ⟨[], (hc (.inr hu)).symm, ?_⟩
      rw [List.append_nil]
      -- the lock excludes the others
      apply h.whole
      intro v hv
      by_cases hvu : v = u
      · rw [hvu] at hv
        exact hold hv
      · rw [hu] at hat
        refine hvu (hm.excl v u (.inl ?_) (.inl ?_))
        · rw [(hother v hvu).2, (h.owns hv).2]
          exact Nat.one_pos
        · rw [hat.2]
          exact Nat.one_pos
    · rw [hrest u hut] at hu ⊢
      exact h.part u hu

/-- The step returns, and keeps the invariant. -/
def ConsoleKeeps (start : Sheet) (call : Outcome (Console τ)) : Prop :=
  ∃ s', call = .ok s' ∧ ConsoleInv start s'

theorem consolePut_keeps (h : ConsoleInv start s) (hblk : (s.mutex.client t).blocked = false)
    (hpc : (s.call t).pc = .outside) (text : List UInt8) :
    ConsoleInv start (consolePut t text s) := by
  have hplace := h.place t
  rw [hpc] at hplace
  obtain ⟨hmpc, hdepth⟩ := hplace
  have hm := mutexAcquire_keeps h.mutex hblk hmpc (by omega)
  -- the thread does not have the lock yet
  have hholder : s.mutex.holder ≠ some t := by
    have hat := h.mutex.atPc t
    simp only [AtPc, hmpc] at hat
    rcases hat with hat | hat
    · exact hat.2
    · omega
  have hdown : Thread.mutexAcquire t s.mutex = s.mutex.goto t .acqDown := if_pos hholder
  apply h.move hm
  · intro u hu
    rw [hdown, goto_other _ _ hu]
    exact ⟨rfl, rfl⟩
  · rw [hdown, goto_self]
    exact ⟨.inl rfl, hdepth⟩
  · rw [hpc]
    decide
  · exact fun _ => rfl

/-- Inside `console_acquire`. -/
theorem consoleAcquire_keeps (h : ConsoleInv start s) (hblk : (s.mutex.client t).blocked = false)
    (hpc : (s.call t).pc = .acquiring) :
    ConsoleKeeps start (consoleMutex .acquiring .putting t s) := by
  have hplace := h.place t
  rw [hpc] at hplace
  obtain ⟨hmpc, hdepth⟩ := hplace
  obtain ⟨m, hcall, hm⟩ := advance_keeps h.mutex hblk
  refine ⟨_, by rw [consoleMutex, hcall, Outcome.ok_bind], ?_⟩
  apply h.move hm (fun u hu => advance_other hcall hu)
  · rcases advance_acquires hcall hmpc with ⟨hstill, hsame⟩ | ⟨hout, hone⟩
    · rw [if_neg (acquires_ne_outside hstill)]
      exact ⟨hstill, hsame.trans hdepth⟩
    · rw [if_pos hout]
      exact ⟨hout, hone⟩
  · rw [hpc]
    decide
  · exact fun _ => h.fresh t hpc

/-- Inside `console_release`. -/
theorem consoleRelease_keeps (h : ConsoleInv start s) (hblk : (s.mutex.client t).blocked = false)
    (hpc : (s.call t).pc = .releasing) :
    ConsoleKeeps start (consoleMutex .releasing .outside t s) := by
  have hplace := h.place t
  rw [hpc] at hplace
  obtain ⟨hmpc, hdepth⟩ := hplace
  obtain ⟨m, hcall, hm⟩ := advance_keeps h.mutex hblk
  refine ⟨_, by rw [consoleMutex, hcall, Outcome.ok_bind], ?_⟩
  apply h.move hm (fun u hu => advance_other hcall hu)
  · rcases advance_releases h.mutex hcall hmpc hdepth with ⟨hstill, hsame⟩ | ⟨hout, hzero⟩
    · rw [if_neg (releases_ne_outside hstill)]
      exact ⟨hstill, hsame⟩
    · rw [if_pos hout]
      exact ⟨hout, hzero⟩
  · rw [hpc]
    decide
  · intro hput
    dsimp only at hput
    split at hput
    · rcases hput with hput | hput <;> cases hput
    · rcases hput with hput | hput <;> cases hput

/-- The text is at its end, and the lock is given up. -/
theorem consoleEnd_keeps (h : ConsoleInv start s) (hblk : (s.mutex.client t).blocked = false)
    (hpc : (s.call t).pc = .putting) (hrest : (s.call t).rest = []) :
    ConsoleKeeps start (consoleChar t s) := by
  obtain ⟨hmpc, hdepth⟩ := h.owns hpc
  obtain ⟨front, htext, hprinted⟩ := h.part t hpc
  rw [hrest, List.append_nil] at htext
  obtain ⟨m, hcall, hm⟩ := mutexRelease_keeps h.mutex hblk hmpc (by omega)
  have hgoto : m = s.mutex.goto t .relTest := by
    obtain ⟨_, -, hcall⟩ := Outcome.bind_eq_ok.1 hcall
    exact (Except.ok.inj hcall).symm
  refine ⟨_, by rw [consoleChar, hrest]; dsimp only; rw [hcall, Outcome.ok_bind], ?_⟩
  have hone : ∀ u, u ≠ t → (s.call u).pc ≠ .putting :=
    fun u hu hput => hu (h.consoleOk.one u t hput hpc)
  refine ⟨hm, fun u => ?_, fun u hu => ?_, h.shows, fun _ => ?_, fun u hu => ?_⟩
  · by_cases hut : u = t
    · subst hut
      dsimp only [Console.goto, Console.setCall]
      rw [Function.update_self, hgoto, goto_self]
      exact ⟨.inl rfl, hdepth⟩
    · dsimp only [Console.goto, Console.setCall]
      rw [Function.update_of_ne hut, hgoto, goto_other _ _ hut]
      exact h.place u
  · dsimp only [Console.goto, Console.setCall] at hu ⊢
    by_cases hut : u = t
    · subst hut
      rw [Function.update_self] at hu
      cases hu
    · rw [Function.update_of_ne hut] at hu ⊢
      exact h.fresh u hu
  · dsimp only [Console.goto, Console.setCall]
    rw [hprinted, textsOf, textsOf, List.flatMap_append, htext]
    simp
  · dsimp only [Console.goto, Console.setCall] at hu
    by_cases hut : u = t
    · subst hut
      rw [Function.update_self] at hu
      cases hu
    · rw [Function.update_of_ne hut] at hu
      exact absurd hu (hone u hut)

/-- A character is printed, unless it is a backspace that has no cell to go
    back to. -/
theorem consoleChar_keeps {d : UInt8} {rest : List UInt8} (h : ConsoleInv start s)
    (hpc : (s.call t).pc = .putting) (hrest : (s.call t).rest = d :: rest)
    (htakes : (start.print s.printed).Takes d) : ConsoleKeeps start (consoleChar t s) := by
  obtain ⟨front, htext, hprinted⟩ := h.part t hpc
  obtain ⟨screen, hput, hshows⟩ := (h.shows.putChar d).1 htakes
  refine ⟨_, by rw [consoleChar, hrest]; dsimp only; rw [hput, Outcome.ok_bind], ?_⟩
  have hone : ∀ u, u ≠ t → (s.call u).pc ≠ .putting :=
    fun u hu hput => hu (h.consoleOk.one u t hput hpc)
  refine ⟨h.mutex, fun u => ?_, fun u hu => ?_, ?_, fun hno => ?_, fun u hu => ?_⟩
  · by_cases hut : u = t
    · subst hut
      dsimp only [Console.setCall]
      rw [Function.update_self]
      exact h.place u
    · dsimp only [Console.setCall]
      rw [Function.update_of_ne hut]
      exact h.place u
  · dsimp only [Console.setCall] at hu ⊢
    by_cases hut : u = t
    · subst hut
      rw [Function.update_self] at hu
      rw [hpc] at hu
      cases hu
    · rw [Function.update_of_ne hut] at hu ⊢
      exact h.fresh u hu
  · dsimp only [Console.setCall]
    rwa [Sheet.print_snoc]
  · have hself := hno t
    dsimp only [Console.setCall] at hself
    rw [Function.update_self] at hself
    exact absurd hpc hself
  · dsimp only [Console.setCall] at hu ⊢
    by_cases hut : u = t
    · subst hut
      rw [Function.update_self]
      refine ⟨front ++ [d], ?_, ?_⟩
      · rw [htext, hrest, List.append_assoc]
        rfl
      · rw [hprinted, List.append_assoc]
    · rw [Function.update_of_ne hut] at hu
      exact absurd hu (hone u hut)

/-! ## Every reachable state -/

/-- The step would take back a character that is not on the screen. -/
def ConsoleOp.BackspacesHome (start : Sheet) (s : Console τ) : ConsoleOp τ → Prop
  | .put _ _ => False
  | .advance t => (s.call t).pc = .putting
      ∧ ∃ c rest, (s.call t).rest = c :: rest ∧ ¬ (start.print s.printed).Takes c

theorem ConsoleInv.step {op : ConsoleOp τ} (h : ConsoleInv start s) (hop : op.Legal s) :
    ConsoleKeeps start (op.run s) ∨ op.BackspacesHome start s ∧ ∀ s', op.run s ≠ .ok s' := by
  cases op with
  | put t text => exact .inl ⟨_, rfl, consolePut_keeps h hop.1 hop.2 text⟩
  | advance t =>
      obtain ⟨hblk, hpc⟩ := hop
      dsimp only [ConsoleOp.run]
      rw [consoleAdvance]
      cases hplace : (s.call t).pc with
      | outside => exact absurd hplace hpc
      | acquiring => exact .inl (consoleAcquire_keeps h hblk hplace)
      | releasing => exact .inl (consoleRelease_keeps h hblk hplace)
      | putting =>
          dsimp only
          cases hrest : (s.call t).rest with
          | nil => exact .inl (consoleEnd_keeps h hblk hplace hrest)
          | cons c rest =>
              by_cases htakes : (start.print s.printed).Takes c
              · exact .inl (consoleChar_keeps h hplace hrest htakes)
              · refine .inr ⟨⟨hplace, c, rest, hrest, htakes⟩, fun s' hrun => ?_⟩
                rw [consoleChar, hrest] at hrun
                dsimp only at hrun
                rw [(h.shows.putChar c).2 htakes] at hrun
                cases hrun

omit [DecidableEq τ] in
theorem consoleInv_init {screen : Screen} (hshows : Shows screen start) :
    ConsoleInv start (consoleInit screen : Console τ) := by
  refine ⟨mutexInv_init, fun _ => ⟨rfl, rfl⟩, fun _ ht => ?_, hshows, fun _ => rfl, fun _ ht => ?_⟩
  · cases ht
  · cases ht

end Steps

/-- Over every interleaving of the threads the texts of the calls stand on the
    screen one after the other, and a step that can happen returns unless it
    prints a backspace that has no cell to go back to. -/
theorem console_serial {start : Sheet} {screen : Screen} {s : Console τ}
    (hshows : Shows screen start) (h : (consoleSystem τ screen).Reachable s) :
    ConsoleOk start s ∧ ∀ op : ConsoleOp τ, op.Legal s →
      ((∃ s', op.run s = .ok s') ↔ ¬ op.BackspacesHome start s) := by
  have hinv : ConsoleInv start s := by
    apply h.invariant
    · rintro s rfl
      exact consoleInv_init hshows
    · rintro s op s' hinv ⟨hlegal, hrun⟩
      rcases hinv.step hlegal with ⟨s₁, hcall, hkept⟩ | ⟨-, hfails⟩
      · obtain rfl := Except.ok.inj (hcall.symm.trans hrun)
        exact hkept
      · exact absurd hrun (hfails s')
  refine ⟨hinv.consoleOk, fun op hop => ?_⟩
  rcases hinv.step hop with ⟨s', hcall, -⟩ | ⟨hhome, hfails⟩
  · refine iff_of_true ⟨s', hcall⟩ fun hhome => ?_
    cases op with
    | put t text => exact hhome
    | advance t =>
        obtain ⟨hpc, c, rest, hrest, hnot⟩ := hhome
        simp only [ConsoleOp.run, consoleAdvance, hpc, consoleChar, hrest,
          (hinv.shows.putChar c).2 hnot] at hcall
        cases hcall
  · exact iff_of_false (fun hcall => hcall.elim hfails) (not_not.2 hhome)

/-- A thread prints "Hi"; when it has printed the "H", another one calls to print
    "!" and has to wait until the first one is done. -/
def waitingRun : List (ConsoleOp Bool) :=
  [.put true [72, 105]] ++ List.replicate 5 (.advance true) ++ [.put false [33], .advance false]
    ++ List.replicate 7 (.advance true) ++ List.replicate 5 (.advance false)

theorem console_serial_waiting : ∃ s : Console Bool,
    System.runSteps ConsoleOp.Legal ConsoleOp.run waitingRun
        (consoleInit (clsScreen ⟨Mem.zero, 0⟩)) = .ok s
      ∧ s.printed = [72, 105, 33] ∧ s.finished = [(true, [72, 105])]
      ∧ ConsoleOk Sheet.blank s
      ∧ ∀ op : ConsoleOp Bool, op.Legal s →
        ((∃ s', op.run s = .ok s') ↔ ¬ op.BackspacesHome Sheet.blank s) := by
  have hend : (System.runSteps ConsoleOp.Legal ConsoleOp.run waitingRun
      (consoleInit (clsScreen ⟨Mem.zero, 0⟩))).returns (fun s =>
        decide (s.printed = [72, 105, 33] ∧ s.finished = [(true, [72, 105])])) = true := by
    decide +kernel
  obtain ⟨s, hrun, hfacts⟩ := Outcome.returns_iff.1 hend
  obtain ⟨hprinted, hfinished⟩ := of_decide_eq_true hfacts
  refine ⟨s, hrun, hprinted, hfinished, console_serial (shows_clsScreen ⟨Mem.zero, 0⟩) ?_⟩
  exact System.Reachable.runSteps (M := consoleSystem Bool (clsScreen ⟨Mem.zero, 0⟩))
    (fun _ _ _ hlegal hstep => ⟨hlegal, hstep⟩) (System.reachable_init rfl) hrun

end Device
end JackOS
