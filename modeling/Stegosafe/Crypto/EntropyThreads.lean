import Mathlib.Logic.Function.Basic
import Mathlib.Logic.Relation
import Stegosafe.Crypto.Entropy

/-!
# One oracle, many threads

Any number of threads fill buffers from one shared `EntropyOracle`. A call takes up to
four steps: it draws its output, counts it in the first critical section, and, if a
check is due, draws a health sample and stores the result in the second. Between two
steps of a thread the others may take any of theirs.

`samples`, `stored` and `unchecked` are ghost state: the results of all samples in the
order of their draws, one more than the number of the sample stored last, and the
bytes counted since a check was last completed.
-/

namespace Stegosafe

open Checked Outcome

/-- Where a thread is in its call of `fill`. -/
inductive FillPhase where
  | idle
  | drawing (buf : Bytes)
  | counting (bytes : Nat) (filled : Bytes)
  | sampling (filled : Bytes)
  | storing (filled : Bytes) (passed : Bool) (number : Nat)

/-- A shared oracle and the threads that use it. -/
structure FillWorld (T : Type) where
  oracle : EntropyOracle
  threads : T → FillPhase
  returned : List (Outcome CryptoError Bytes)
  samples : List Bool
  stored : Nat
  unchecked : Nat

namespace FillWorld

variable {T : Type}

/-- All threads idle; the only sample so far is that of `init`, whose result is stored. -/
def start (oracle : EntropyOracle) : FillWorld T where
  oracle := oracle
  threads := fun _ => .idle
  returned := []
  samples := [oracle.state.value.lastCheckPassed]
  stored := 1
  unchecked := 0

variable [DecidableEq T]

/-- Thread `t` enters a phase. -/
def goto (w : FillWorld T) (t : T) (phase : FillPhase) : FillWorld T :=
  { w with threads := Function.update w.threads t phase }

/-- Thread `t` returns from `fill`. -/
def finish (w : FillWorld T) (t : T) (result : Outcome CryptoError Bytes) : FillWorld T :=
  { w.goto t .idle with returned := w.returned ++ [result] }

/-- The first critical section was run on `bytes`, and left the oracle behind. -/
def counted (w : FillWorld T) (bytes : Nat) (oracle : EntropyOracle) : FillWorld T :=
  { w with oracle := oracle, unchecked := w.unchecked + bytes }

/-- A health sample was drawn, with this result. -/
def sampled (w : FillWorld T) (passed : Bool) : FillWorld T :=
  { w with samples := w.samples ++ [passed] }

/-- The second critical section stored the result of sample `number`. -/
def checked (w : FillWorld T) (number : Nat) (oracle : EntropyOracle) : FillWorld T :=
  { w with oracle := oracle, stored := number + 1, unchecked := 0 }

/-- Thread `t` takes the next step of its call; a draw is answered by `sources`. -/
def advance (sha : Sha256) (sources : Sources) (w : FillWorld T) (t : T) : FillWorld T :=
  match w.threads t with
  | .idle => w
  | .drawing buf =>
    if buf = [] then
      w.finish t (.ok buf)
    else
      match w.oracle.drawOutput sha sources buf with
      | .ok filled => w.goto t (.counting buf.length filled)
      | .error e => w.finish t (.error e)
  | .counting bytes filled =>
    match w.oracle.count bytes with
    | (.ok true, oracle) => (w.counted bytes oracle).goto t (.sampling filled)
    | (.ok false, oracle) => (w.counted bytes oracle).finish t (.ok filled)
    | (.error e, oracle) => { w with oracle := oracle }.finish t (.error e)
  | .sampling filled =>
    match w.oracle.checkSample sources with
    | .ok passed => (w.sampled passed).goto t (.storing filled passed w.samples.length)
    | .error e => w.finish t (.error e)
  | .storing filled passed number =>
    match w.oracle.store passed with
    | (.ok (), oracle) => (w.checked number oracle).finish t (.ok filled)
    | (.error e, oracle) => { w with oracle := oracle }.finish t (.error e)

/--
One step of the whole: an idle thread calls `fill`, or a thread advances.

`guard` restricts when a thread may advance; with no restriction these are all
interleavings.
-/
inductive Step (sha : Sha256) (guard : FillWorld T → T → Prop) : FillWorld T → FillWorld T → Prop
    where
  | fill {w : FillWorld T} (t : T) (buf : Bytes) : w.threads t = .idle →
      Step sha guard w (w.goto t (.drawing buf))
  | advance {w : FillWorld T} (sources : Sources) (t : T) : guard w t →
      Step sha guard w (w.advance sha sources t)

/-- Any number of steps. -/
abbrev Steps (sha : Sha256) (guard : FillWorld T → T → Prop) :
    FillWorld T → FillWorld T → Prop := Relation.ReflTransGen (Step sha guard)

/-- A call nobody interleaves with: its four steps, one after another. -/
def call (sha : Sha256) (w : FillWorld T) (t : T) (buf : Bytes) (output sample : Sources) :
    FillWorld T :=
  ((((w.goto t (.drawing buf)).advance sha output t).advance sha output t).advance sha sample
    t).advance sha sample t

/-- A call of `fill` by some thread on a slice, with the answers its two draws get. -/
structure FillCall (T : Type) where
  thread : T
  buf : Bytes
  output : Sources
  sample : Sources
  buf_lt : buf.length < 2 ^ 63

/-- Calls made one after another. -/
def runCalls (sha : Sha256) (w : FillWorld T) (calls : List (FillCall T)) : FillWorld T :=
  calls.foldl (fun w c => w.call sha c.thread c.buf c.output c.sample) w

/-! ## One phase at a time -/

section Advance

variable (sha : Sha256) (sources : Sources) {w : FillWorld T} {t : T}

@[simp] theorem goto_self (w : FillWorld T) (t : T) (phase : FillPhase) :
    (w.goto t phase).threads t = phase := Function.update_self ..

@[simp] theorem finish_self (w : FillWorld T) (t : T) (result : Outcome CryptoError Bytes) :
    (w.finish t result).threads t = .idle := Function.update_self ..

theorem goto_other {t u : T} (h : u ≠ t) (w : FillWorld T) (phase : FillPhase) :
    (w.goto t phase).threads u = w.threads u := Function.update_of_ne h ..

theorem advance_idle (h : w.threads t = .idle) : w.advance sha sources t = w := by
  rw [advance, h]

theorem advance_drawing_empty (h : w.threads t = .drawing []) :
    w.advance sha sources t = w.finish t (.ok []) := by
  rw [advance, h]
  rfl

theorem advance_drawing {buf : Bytes} (h : w.threads t = .drawing buf) (hbuf : buf ≠ []) :
    w.advance sha sources t = match w.oracle.drawOutput sha sources buf with
      | .ok filled => w.goto t (.counting buf.length filled)
      | .error e => w.finish t (.error e) := by
  rw [advance, h]
  exact if_neg hbuf

/-- With a healthy lock, counting ends the call unless a check is due. -/
theorem advance_counting {bytes : Nat} {filled : Bytes} (h : w.threads t = .counting bytes filled)
    (hhealthy : w.oracle.state.poisoned = false) :
    w.advance sha sources t
      = if 10000 ≤ w.oracle.state.value.bytesSinceLastCheck + bytes then
          (w.counted bytes (w.oracle.count bytes).2).goto t (.sampling filled)
        else
          (w.counted bytes (w.oracle.count bytes).2).finish t (.ok filled) := by
  rw [advance, h]
  dsimp only
  rw [EntropyOracle.count_eq hhealthy]
  by_cases hdue : 10000 ≤ w.oracle.state.value.bytesSinceLastCheck + bytes
  · simp only [hdue, decide_true, if_true]
  · simp only [hdue, decide_false, if_false]

theorem advance_sampling {filled : Bytes} (h : w.threads t = .sampling filled) :
    w.advance sha sources t = match w.oracle.checkSample sources with
      | .ok passed => (w.sampled passed).goto t (.storing filled passed w.samples.length)
      | .error e => w.finish t (.error e) := by
  rw [advance, h]

/-- With a healthy lock, storing always succeeds. -/
theorem advance_storing {filled : Bytes} {passed : Bool} {number : Nat}
    (h : w.threads t = .storing filled passed number)
    (hhealthy : w.oracle.state.poisoned = false) :
    w.advance sha sources t
      = (w.checked number (w.oracle.store passed).2).finish t (.ok filled) := by
  rw [advance, h]
  dsimp only
  rw [EntropyOracle.store_eq hhealthy]

/-! ## Calls that nobody interleaves with -/

theorem goto_goto (w : FillWorld T) (t : T) (first next : FillPhase) :
    (w.goto t first).goto t next = w.goto t next := by
  unfold goto
  rw [Function.update_idem]

theorem goto_finish (w : FillWorld T) (t : T) (phase : FillPhase)
    (result : Outcome CryptoError Bytes) :
    (w.goto t phase).finish t result = w.finish t result := by
  unfold finish
  rw [goto_goto]
  rfl

theorem counted_goto (w : FillWorld T) (t : T) (phase : FillPhase) (bytes : Nat)
    (oracle : EntropyOracle) :
    (w.goto t phase).counted bytes oracle = (w.counted bytes oracle).goto t phase := rfl

theorem sampled_goto (w : FillWorld T) (t : T) (phase : FillPhase) (passed : Bool) :
    (w.goto t phase).sampled passed = (w.sampled passed).goto t phase := rfl

theorem checked_goto (w : FillWorld T) (t : T) (phase : FillPhase) (number : Nat)
    (oracle : EntropyOracle) :
    (w.goto t phase).checked number oracle = (w.checked number oracle).goto t phase := rfl

variable {buf filled : Bytes} {output sample : Sources}

/-- A call on an empty buffer does nothing. -/
theorem call_empty (w : FillWorld T) (t : T) (output sample : Sources) :
    w.call sha t [] output sample = w.finish t (.ok []) := by
  rw [call, advance_drawing_empty sha output (goto_self ..), goto_finish,
    advance_idle sha output (finish_self ..), advance_idle sha sample (finish_self ..),
    advance_idle sha sample (finish_self ..)]

/-- A call whose output cannot be drawn counts nothing. -/
theorem call_undrawn {e : Fault CryptoError} (hbuf : buf ≠ [])
    (hdraw : w.oracle.drawOutput sha output buf = .error e) :
    w.call sha t buf output sample = w.finish t (.error e) := by
  have hdraw' : (w.goto t (.drawing buf)).oracle.drawOutput sha output buf = .error e := hdraw
  rw [call, advance_drawing sha output (goto_self ..) hbuf, hdraw']
  dsimp only
  rw [goto_finish, advance_idle sha output (finish_self ..),
    advance_idle sha sample (finish_self ..), advance_idle sha sample (finish_self ..)]

/-- The first two steps of a call whose output is drawn. -/
theorem call_drawn (hhealthy : w.oracle.state.poisoned = false) (hbuf : buf ≠ [])
    (hdraw : w.oracle.drawOutput sha output buf = .ok filled) :
    ((w.goto t (.drawing buf)).advance sha output t).advance sha output t
      = if 10000 ≤ w.oracle.state.value.bytesSinceLastCheck + buf.length then
          (w.counted buf.length (w.oracle.count buf.length).2).goto t (.sampling filled)
        else
          (w.counted buf.length (w.oracle.count buf.length).2).finish t (.ok filled) := by
  have hdraw' : (w.goto t (.drawing buf)).oracle.drawOutput sha output buf = .ok filled := hdraw
  rw [advance_drawing sha output (goto_self ..) hbuf, hdraw']
  dsimp only
  rw [goto_goto, advance_counting sha output (goto_self ..) hhealthy, counted_goto, goto_goto,
    goto_finish]
  rfl

/-- A call with no check due only counts. -/
theorem call_unchecked (hhealthy : w.oracle.state.poisoned = false) (hbuf : buf ≠ [])
    (hdraw : w.oracle.drawOutput sha output buf = .ok filled)
    (hdue : ¬ 10000 ≤ w.oracle.state.value.bytesSinceLastCheck + buf.length) :
    w.call sha t buf output sample
      = (w.counted buf.length (w.oracle.count buf.length).2).finish t (.ok filled) := by
  rw [call, call_drawn sha hhealthy hbuf hdraw, if_neg hdue,
    advance_idle sha sample (finish_self ..), advance_idle sha sample (finish_self ..)]

/-- A call whose health sample cannot be drawn counts, and fails. -/
theorem call_lost {e : Fault CryptoError} (hhealthy : w.oracle.state.poisoned = false)
    (hbuf : buf ≠ []) (hdraw : w.oracle.drawOutput sha output buf = .ok filled)
    (hdue : 10000 ≤ w.oracle.state.value.bytesSinceLastCheck + buf.length)
    (hsample : (w.oracle.count buf.length).2.checkSample sample = .error e) :
    w.call sha t buf output sample
      = (w.counted buf.length (w.oracle.count buf.length).2).finish t (.error e) := by
  have hsample' : ((w.counted buf.length (w.oracle.count buf.length).2).goto t
      (.sampling filled)).oracle.checkSample sample = .error e := hsample
  rw [call, call_drawn sha hhealthy hbuf hdraw, if_pos hdue,
    advance_sampling sha sample (goto_self ..), hsample']
  dsimp only
  rw [goto_finish, advance_idle sha sample (finish_self ..)]

/-- A call that completes a check counts, samples and stores. -/
theorem call_checked {passed : Bool} (hhealthy : w.oracle.state.poisoned = false)
    (hbuf : buf ≠ []) (hdraw : w.oracle.drawOutput sha output buf = .ok filled)
    (hdue : 10000 ≤ w.oracle.state.value.bytesSinceLastCheck + buf.length)
    (hsample : (w.oracle.count buf.length).2.checkSample sample = .ok passed) :
    w.call sha t buf output sample
      = (((w.counted buf.length (w.oracle.count buf.length).2).sampled passed).checked
          w.samples.length ((w.oracle.count buf.length).2.store passed).2).finish t
            (.ok filled) := by
  have hsample' : ((w.counted buf.length (w.oracle.count buf.length).2).goto t
      (.sampling filled)).oracle.checkSample sample = .ok passed := hsample
  rw [call, call_drawn sha hhealthy hbuf hdraw, if_pos hdue,
    advance_sampling sha sample (goto_self ..), hsample']
  dsimp only
  rw [sampled_goto, goto_goto, advance_storing sha sample (goto_self ..), checked_goto, goto_finish]
  · rfl
  · exact EntropyOracle.count_healthy hhealthy _

/--
**The four ways a call can go**: nothing is counted, no check is due, the sample of the
check is lost, the check is completed.
-/
theorem call_cases (hhealthy : w.oracle.state.poisoned = false) (t : T) (buf : Bytes)
    (output sample : Sources) :
    (∃ result, w.call sha t buf output sample = w.finish t result)
      ∨ (¬ 10000 ≤ w.oracle.state.value.bytesSinceLastCheck + buf.length
          ∧ ∃ result, w.call sha t buf output sample
            = (w.counted buf.length (w.oracle.count buf.length).2).finish t result)
      ∨ (10000 ≤ w.oracle.state.value.bytesSinceLastCheck + buf.length ∧ buf ≠ []
          ∧ (∃ filled, w.oracle.drawOutput sha output buf = .ok filled)
          ∧ ∃ e, (w.oracle.count buf.length).2.checkSample sample = .error e
            ∧ w.call sha t buf output sample
              = (w.counted buf.length (w.oracle.count buf.length).2).finish t (.error e))
      ∨ (10000 ≤ w.oracle.state.value.bytesSinceLastCheck + buf.length
          ∧ ∃ passed filled, w.call sha t buf output sample
            = (((w.counted buf.length (w.oracle.count buf.length).2).sampled passed).checked
                w.samples.length ((w.oracle.count buf.length).2.store passed).2).finish t
                  (.ok filled)) := by
  by_cases hbuf : buf = []
  · subst hbuf
    exact Or.inl ⟨_, call_empty sha w t output sample⟩
  cases hdraw : w.oracle.drawOutput sha output buf with
  | error e => exact Or.inl ⟨_, call_undrawn sha hbuf hdraw⟩
  | ok filled =>
    by_cases hdue : 10000 ≤ w.oracle.state.value.bytesSinceLastCheck + buf.length
    · cases hsample : (w.oracle.count buf.length).2.checkSample sample with
      | error e =>
        exact Or.inr (Or.inr (Or.inl ⟨hdue, hbuf, ⟨filled, rfl⟩, e, rfl,
          call_lost sha hhealthy hbuf hdraw hdue hsample⟩))
      | ok passed =>
        exact Or.inr (Or.inr (Or.inr ⟨hdue, passed, filled,
          call_checked sha hhealthy hbuf hdraw hdue hsample⟩))
    · exact Or.inr (Or.inl ⟨hdue, _, call_unchecked sha hhealthy hbuf hdraw hdue⟩)

/-- **A call nobody interleaves with is `EntropyOracle.fill`.** -/
theorem call_fill (hhealthy : w.oracle.state.poisoned = false) (t : T) (buf : Bytes)
    (output sample : Sources) :
    (w.call sha t buf output sample).oracle = (w.oracle.fill sha buf output sample).2
      ∧ (w.call sha t buf output sample).returned
          = w.returned ++ [(w.oracle.fill sha buf output sample).1]
      ∧ (w.call sha t buf output sample).threads t = .idle := by
  by_cases hbuf : buf = []
  · subst hbuf
    rw [call_empty, EntropyOracle.fill, if_pos rfl]
    exact ⟨rfl, rfl, finish_self ..⟩
  rw [EntropyOracle.fill, if_neg hbuf]
  cases hdraw : w.oracle.drawOutput sha output buf with
  | error e =>
    rw [call_undrawn sha hbuf hdraw]
    exact ⟨rfl, rfl, finish_self ..⟩
  | ok filled =>
    dsimp only
    rw [EntropyOracle.updateCounterAndCheck_eq hhealthy]
    by_cases hdue : 10000 ≤ w.oracle.state.value.bytesSinceLastCheck + buf.length
    · rw [if_pos hdue]
      cases hsample : (w.oracle.count buf.length).2.checkSample sample with
      | error e =>
        rw [call_lost sha hhealthy hbuf hdraw hdue hsample]
        exact ⟨rfl, rfl, finish_self ..⟩
      | ok passed =>
        rw [call_checked sha hhealthy hbuf hdraw hdue hsample]
        exact ⟨rfl, rfl, finish_self ..⟩
    · rw [if_neg hdue, call_unchecked sha hhealthy hbuf hdraw hdue]
      exact ⟨rfl, rfl, finish_self ..⟩

end Advance

end FillWorld

end Stegosafe
