/-
  JackOS.Base.Cut

  Computations that give up the processor, and processes that run them in
  turns.  A `Cut` computation runs up to its next wait, where it says at which
  point it waits; what it does then depends on the state it is resumed in.
  `Cut.Safe` is a postcondition for one such computation whatever the others do
  while it waits, as long as they keep an invariant about the state and the
  points of all.  `Turns.Safe.reachable` is the rule for whole runs: calls that are
  safe one by one keep the invariant in every order of turns.
-/

import JackOS.Base.Transition
import Mathlib.Data.Multiset.AddSub
import Mathlib.Data.Multiset.MapFold
import Mathlib.Data.Multiset.Filter

namespace JackOS
namespace Base

/-- A computation on a shared state `σ`: it ends, fails, is about to do `ev`, or
    waits at `point`, where it leaves the state `s` to the others. -/
inductive Cut (π ε σ α : Type) where
  | done (a : α)
  | fail (f : Fault)
  | note (ev : ε) (rest : Cut π ε σ α)
  | wait (point : π) (s : σ) (next : σ → Cut π ε σ α)

namespace Cut

variable {π ε σ α β : Type}

protected def bind : Cut π ε σ α → (α → Cut π ε σ β) → Cut π ε σ β
  | .done a, f => f a
  | .fail e, _ => .fail e
  | .note ev r, f => .note ev (r.bind f)
  | .wait p s k, f => .wait p s fun s => (k s).bind f

instance : Monad (Cut π ε σ) where
  pure := .done
  bind := Cut.bind

/-- What is done without a wait. -/
def lift : Outcome α → Cut π ε σ α
  | .ok a => .done a
  | .error e => .fail e

@[simp] theorem done_bind (a : α) (f : α → Cut π ε σ β) : (.done a >>= f) = f a := rfl

@[simp] theorem fail_bind (e : Fault) (f : α → Cut π ε σ β) :
    ((.fail e : Cut π ε σ α) >>= f) = .fail e := rfl

@[simp] theorem note_bind (ev : ε) (r : Cut π ε σ α) (f : α → Cut π ε σ β) :
    (.note ev r >>= f) = .note ev (r >>= f) := rfl

@[simp] theorem wait_bind (p : π) (s : σ) (k : σ → Cut π ε σ α) (f : α → Cut π ε σ β) :
    (.wait p s k >>= f) = .wait p s fun s => k s >>= f := rfl

@[simp] theorem lift_ok (a : α) : (lift (.ok a) : Cut π ε σ α) = .done a := rfl

/-! ## Alone -/

/-- The computation where nobody else runs. -/
def alone : Cut π ε σ α → Outcome α
  | .done a => .ok a
  | .fail e => .error e
  | .note _ r => r.alone
  | .wait _ s k => (k s).alone

@[simp] theorem alone_done (a : α) : (.done a : Cut π ε σ α).alone = .ok a := rfl

@[simp] theorem alone_fail (e : Fault) : (.fail e : Cut π ε σ α).alone = .error e := rfl

@[simp] theorem alone_note (ev : ε) (r : Cut π ε σ α) : (Cut.note ev r).alone = r.alone := rfl

@[simp] theorem alone_wait (p : π) (s : σ) (k : σ → Cut π ε σ α) :
    (Cut.wait p s k).alone = (k s).alone := rfl

@[simp] theorem alone_lift (x : Outcome α) : (lift x : Cut π ε σ α).alone = x := by
  cases x <;> rfl

@[simp] theorem alone_bind (r : Cut π ε σ α) (f : α → Cut π ε σ β) :
    (r >>= f).alone = r.alone >>= fun a => (f a).alone := by
  induction r with
  | done a => rfl
  | fail e => rfl
  | note ev r ih => exact ih
  | wait p s k ih => exact ih s

/-! ## Safety of one computation -/

section Safe

variable (inv : Multiset π → σ → Prop) (mine : σ → Prop) (ok : Multiset π → ε → Prop)

/-- The others are at `others` and keep `inv`; they may be anywhere else when the
    computation goes on, and then the processor is its own (`mine`).  Each thing
    that it does is `ok` where the others are then; it ends as `post` says. -/
def Safe (post : Multiset π → α → Prop) : (others : Multiset π) → Cut π ε σ α → Prop
  | others, .done a => post others a
  | _, .fail _ => True
  | others, .note ev r => ok others ev → Safe post others r
  | others, .wait p s k =>
      inv (p ::ₘ others) s ∧
        ∀ others' s', inv (p ::ₘ others') s' → mine s' → Safe post others' (k s')

variable {inv mine ok} {post : Multiset π → α → Prop} {others : Multiset π}

/-- One computation after the other. -/
theorem Safe.bind {post' : Multiset π → β → Prop} {r : Cut π ε σ α} {f : α → Cut π ε σ β}
    (h : Safe inv mine ok post others r)
    (hf : ∀ o a, post o a → Safe inv mine ok post' o (f a)) :
    Safe inv mine ok post' others (r >>= f) := by
  induction r generalizing others with
  | done a => exact hf others a h
  | fail e => trivial
  | note ev r ih => exact fun hok => ih (h hok)
  | wait p s k ih => exact ⟨h.1, fun o s' hinv hmine => ih s' (h.2 o s' hinv hmine)⟩

theorem Safe.bind_lift {post' : Multiset π → β → Prop} {x : Outcome α} {f : α → Cut π ε σ β}
    (h : ∀ a, x = .ok a → Safe inv mine ok post' others (f a)) :
    Safe inv mine ok post' others (Cut.lift x >>= f) := by
  cases x with
  | ok a => exact h a rfl
  | error e => trivial

end Safe

/-- What is done before the processor is given up. -/
def notes : Cut π ε σ α → List ε
  | .note ev r => ev :: r.notes
  | _ => []

end Cut

/-! ## Taking turns -/

/-- A call of process `pid` that waits. -/
structure Waiting (ι π ε σ α : Type) where
  pid : ι
  point : π
  next : σ → Cut π ε σ (α × σ)

/-- The state that the processes share, the calls that wait, and the calls that
    have ended with what they gave, the last one first. -/
structure Turns (ι π ε σ α : Type) where
  shared : σ
  waiting : List (Waiting ι π ε σ α)
  ended : List (ι × α)

/-- A turn: process `i` begins call `c`, or goes on with the call it is in. -/
inductive Turn (ι κ : Type) where
  | start (i : ι) (c : κ)
  | resume (i : ι)

namespace Turns

variable {ι κ π ε σ α : Type}

/-- What stands for each call: its point while it waits, and `left` when it has
    ended. -/
def points (left : ι → α → π) (t : Turns ι π ε σ α) : Multiset π :=
  (t.waiting.map Waiting.point : Multiset π) + (t.ended.map fun r => left r.1 r.2 : Multiset π)

/-- The call of process `i` runs until it gives up the processor; a call that
    fails stops the machine. -/
def settle (waiting : List (Waiting ι π ε σ α)) (ended : List (ι × α)) (i : ι) :
    Cut π ε σ (α × σ) → Option (Turns ι π ε σ α)
  | .done (a, s) => some ⟨s, waiting, (i, a) :: ended⟩
  | .fail _ => none
  | .note _ r => settle waiting ended i r
  | .wait p s k => some ⟨s, ⟨i, p, k⟩ :: waiting, ended⟩

section Run

variable [DecidableEq ι] (prog : κ → σ → Cut π ε σ (α × σ)) (switch : ι → σ → σ)

/-- Who runs in the turn, which calls wait meanwhile, and what is run.  A process
    is in one call at a time. -/
def next (t : Turns ι π ε σ α) :
    Turn ι κ → Option (ι × List (Waiting ι π ε σ α) × Cut π ε σ (α × σ))
  | .start i c =>
      if t.waiting.any (·.pid = i) then none
      else some (i, t.waiting, prog c (switch i t.shared))
  | .resume i =>
      (t.waiting.find? (·.pid = i)).map fun w =>
        (i, t.waiting.eraseP (·.pid = i), w.next (switch i t.shared))

/-- One turn. -/
def step (t : Turns ι π ε σ α) (turn : Turn ι κ) : Option (Turns ι π ε σ α) :=
  (t.next prog switch turn).bind fun (i, waiting, r) => settle waiting t.ended i r

variable (left : ι → α → π) (mayStart : Multiset π → κ → Prop) (ok : Multiset π → ε → Prop)

/-- The turn begins an admitted call, if it begins one, and all that is done in
    it is `ok` where the others are. -/
structure Allowed (t : Turns ι π ε σ α) (turn : Turn ι κ) : Prop where
  admitted : ∀ i c, turn = .start i c → mayStart (t.points left) c
  notes : ∀ i waiting r, t.next prog switch turn = some (i, waiting, r) →
    ∀ ev ∈ r.notes, ok (points left ⟨t.shared, waiting, t.ended⟩) ev

/-- The processes in turns, from `s`, where no call has begun. -/
def system (s : σ) : System (Turns ι π ε σ α) (Turn ι κ) where
  init t := t = ⟨s, [], []⟩
  next t turn t' := t.step prog switch turn = some t'

end Run

/-! ## The invariant in every run -/

section Inv

variable {left : ι → α → π} {ok : Multiset π → ε → Prop} {inv : Multiset π → σ → Prop}
  {mine : ι → σ → Prop}

/-- A call of process `i` ends with the invariant, its own point among the
    others. -/
def EndsIn (inv : Multiset π → σ → Prop) (left : ι → α → π) (i : ι) (others : Multiset π)
    (r : α × σ) : Prop :=
  inv (left i r.1 ::ₘ others) r.2

/-- The invariant holds, and all calls that wait are safe. -/
structure Safe (inv : Multiset π → σ → Prop) (mine : ι → σ → Prop)
    (ok : Multiset π → ε → Prop) (left : ι → α → π) (t : Turns ι π ε σ α) : Prop where
  holds : inv (t.points left) t.shared
  waiting : ∀ w ∈ t.waiting, ∀ others s, inv (w.point ::ₘ others) s → mine w.pid s →
    Cut.Safe inv (mine w.pid) ok (EndsIn inv left w.pid) others (w.next s)

/-- A turn that is safe leaves calls that are. -/
theorem Safe.settle {waiting : List (Waiting ι π ε σ α)} {ended : List (ι × α)} {i : ι}
    {s : σ} {r : Cut π ε σ (α × σ)} {t : Turns ι π ε σ α}
    (hwaiting : ∀ w ∈ waiting, ∀ others s, inv (w.point ::ₘ others) s → mine w.pid s →
      Cut.Safe inv (mine w.pid) ok (EndsIn inv left w.pid) others (w.next s))
    (hr : Cut.Safe inv (mine i) ok (EndsIn inv left i) (points left ⟨s, waiting, ended⟩) r)
    (hnotes : ∀ ev ∈ r.notes, ok (points left ⟨s, waiting, ended⟩) ev)
    (ht : settle waiting ended i r = some t) : Safe inv mine ok left t := by
  induction r with
  | done a =>
      cases ht
      refine ⟨?_, hwaiting⟩
      rw [points, List.map_cons, ← Multiset.cons_coe, Multiset.add_cons]
      exact hr
  | fail e => cases ht
  | note ev r ih =>
      exact ih (hr (hnotes ev List.mem_cons_self)) (fun ev' hev' => hnotes ev'
        (List.mem_cons_of_mem _ hev')) ht
  | wait p s' k ih =>
      cases ht
      refine ⟨?_, fun w hw => ?_⟩
      · rw [points, List.map_cons, ← Multiset.cons_coe, Multiset.cons_add]
        exact hr.1
      · rcases List.mem_cons.1 hw with rfl | hw
        · exact hr.2
        · exact hwaiting w hw

variable [DecidableEq ι] {prog : κ → σ → Cut π ε σ (α × σ)} {switch : ι → σ → σ}
  {mayStart : Multiset π → κ → Prop}

/-- The call that is resumed, and the others. -/
theorem points_erase {t : Turns ι π ε σ α} {i : ι} {w : Waiting ι π ε σ α}
    (h : t.waiting.find? (·.pid = i) = some w) :
    t.points left
      = w.point ::ₘ points left ⟨t.shared, t.waiting.eraseP (·.pid = i), t.ended⟩ := by
  have hperm : (t.waiting.map Waiting.point).Perm
      (w.point :: (t.waiting.eraseP (·.pid = i)).map Waiting.point) := by
    rw [← List.map_cons]
    refine List.Perm.map _ ?_
    obtain ⟨hw, front, back, hsplit, hfront⟩ := List.find?_eq_some_iff_append.1 h
    have herase : t.waiting.eraseP (·.pid = i) = front ++ back := by
      rw [hsplit, List.eraseP_append_right _ (fun a ha => by simpa using hfront a ha)]
      simp only [List.eraseP_cons, hw, cond_true]
    rw [herase, hsplit]
    exact List.perm_middle
  rw [points, Multiset.coe_eq_coe.2 hperm, ← Multiset.cons_coe, Multiset.cons_add]
  rfl

theorem Safe.step {t t' : Turns ι π ε σ α} {turn : Turn ι κ} (h : Safe inv mine ok left t)
    (hswitch : ∀ i others s, inv others s → inv others (switch i s) ∧ mine i (switch i s))
    (hprog : ∀ i c others s, mayStart others c → inv others s → mine i s →
      Cut.Safe inv (mine i) ok (EndsIn inv left i) others (prog c s))
    (hallowed : t.Allowed prog switch left mayStart ok turn)
    (ht : t.step prog switch turn = some t') : Safe inv mine ok left t' := by
  obtain ⟨⟨i, waiting, r⟩, hnext, hsettle⟩ := Option.bind_eq_some_iff.1 ht
  have hnotes := hallowed.notes i waiting r hnext
  cases turn with
  | start i' c =>
      by_cases hbusy : t.waiting.any (·.pid = i') = true
      · rw [next, if_pos hbusy] at hnext
        cases hnext
      · rw [next, if_neg hbusy] at hnext
        cases hnext
        obtain ⟨hinv, hmine⟩ := hswitch i _ _ h.holds
        exact Safe.settle h.waiting (hprog i c _ _ (hallowed.admitted i c rfl) hinv hmine)
          hnotes hsettle
  | resume i' =>
      obtain ⟨w, hfind, heq⟩ := Option.map_eq_some_iff.1 hnext
      cases heq
      obtain rfl : w.pid = i := by simpa using List.find?_some hfind
      obtain ⟨hinv, hmine⟩ := hswitch w.pid _ _ h.holds
      rw [points_erase hfind] at hinv
      refine Safe.settle (s := t.shared) (fun w' hw' => h.waiting w' (List.mem_of_mem_eraseP hw'))
        ?_ hnotes hsettle
      exact h.waiting w (List.mem_of_find?_eq_some hfind) _ _ hinv hmine

/-- Every run of allowed turns keeps the invariant. -/
theorem Safe.reachable {s : σ} {t : Turns ι π ε σ α}
    (h : ((system prog switch s).restrict
      fun t turn => t.Allowed prog switch left mayStart ok turn).Reachable t)
    (hinit : inv 0 s)
    (hswitch : ∀ i others s, inv others s → inv others (switch i s) ∧ mine i (switch i s))
    (hprog : ∀ i c others s, mayStart others c → inv others s → mine i s →
      Cut.Safe inv (mine i) ok (EndsIn inv left i) others (prog c s)) :
    Safe inv mine ok left t := by
  refine h.invariant (fun t ht => ?_) fun t turn t' hsafe ⟨hallowed, hturn⟩ =>
    hsafe.step hswitch hprog hallowed hturn
  rw [show t = ⟨s, [], []⟩ from ht]
  exact ⟨hinit, fun w hw => absurd hw List.not_mem_nil⟩

end Inv

/-! ## Runs that are computed -/

section Compute

variable [DecidableEq ι] (prog : κ → σ → Cut π ε σ (α × σ)) (switch : ι → σ → σ)
  (left : ι → α → π) (mayStart : Multiset π → κ → Bool) (ok : Multiset π → ε → Bool)

/-- Whether the turn is allowed. -/
def allowedTest (t : Turns ι π ε σ α) (turn : Turn ι κ) : Bool :=
  (match turn with
    | .start _ c => mayStart (t.points left) c
    | .resume _ => true)
  && match t.next prog switch turn with
    | some (_, waiting, r) => r.notes.all (ok (points left ⟨t.shared, waiting, t.ended⟩))
    | none => true

theorem allowed_of_test {mayStart' : Multiset π → κ → Prop} {ok' : Multiset π → ε → Prop}
    (hmay : ∀ o c, mayStart o c = true → mayStart' o c) (hok : ∀ o ev, ok o ev = true → ok' o ev)
    {t : Turns ι π ε σ α} {turn : Turn ι κ}
    (h : allowedTest prog switch left mayStart ok t turn = true) :
    t.Allowed prog switch left mayStart' ok' turn := by
  obtain ⟨hstart, hnotes⟩ := Bool.and_eq_true_iff.1 h
  constructor
  · rintro i c rfl
    exact hmay _ _ hstart
  · intro i waiting r hnext ev hev
    rw [hnext] at hnotes
    exact hok _ _ (List.all_eq_true.1 hnotes ev hev)

/-- The turns one after the other, as long as they are allowed. -/
def run : List (Turn ι κ) → Turns ι π ε σ α → Option (Turns ι π ε σ α)
  | [], t => some t
  | turn :: turns, t =>
      if allowedTest prog switch left mayStart ok t turn then
        (t.step prog switch turn).bind (run turns)
      else none

theorem reachable_of_run {mayStart' : Multiset π → κ → Prop} {ok' : Multiset π → ε → Prop}
    (hmay : ∀ o c, mayStart o c = true → mayStart' o c) (hok : ∀ o ev, ok o ev = true → ok' o ev)
    {s : σ} {turns : List (Turn ι κ)} {t t' : Turns ι π ε σ α}
    (h : ((system prog switch s).restrict
      fun t turn => t.Allowed prog switch left mayStart' ok' turn).Reachable t)
    (hrun : run prog switch left mayStart ok turns t = some t') :
    ((system prog switch s).restrict
      fun t turn => t.Allowed prog switch left mayStart' ok' turn).Reachable t' := by
  induction turns generalizing t with
  | nil =>
      cases hrun
      exact h
  | cons turn turns ih =>
      rw [run] at hrun
      split at hrun
      · obtain ⟨t₁, hstep, hrun⟩ := Option.bind_eq_some_iff.1 hrun
        refine ih (h.next (i := turn) ⟨?_, hstep⟩) hrun
        exact allowed_of_test prog switch left mayStart ok hmay hok ‹_›
      · cases hrun

end Compute

end Turns

end Base
end JackOS
