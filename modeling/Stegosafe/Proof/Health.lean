import Stegosafe.Crypto.EntropyThreads
import Stegosafe.Proof.Mixing

/-!
# What the health status tells

The counter is reset when a check is decided on, not when it is completed. Between
the two a draw can fail, and then the counter says zero while ten thousand bytes went
unchecked: it tells the truth as long as no such draw fails.

The result is stored after the lock was released and taken again, so a thread that
drew an earlier sample can store after one that drew a later sample. As long as
results are stored in the order of the draws, the status is that of the last sample.
-/

namespace Stegosafe.Proof

open Stegosafe Checked Outcome EntropyOracle FillWorld

/-! ## The counter -/

section Counter

variable {T : Type}

/-- The counter is what was counted since the last completed check, and below the mark. -/
def Truthful (w : FillWorld T) : Prop :=
  w.unchecked = w.oracle.state.value.bytesSinceLastCheck ∧ w.unchecked < 10000

/-- The call makes a check due, and the request for its health sample is refused. -/
def SampleLost (w : FillWorld T) (c : FillCall T) : Prop :=
  c.buf ≠ [] ∧ c.output.os c.buf.length ≠ none
    ∧ 10000 ≤ w.oracle.state.value.bytesSinceLastCheck + c.buf.length
    ∧ c.sample.os 1024 = none

variable [DecidableEq T] {sha : Sha256}

theorem checkSample_unavailable {oracle : EntropyOracle} {sources : Sources}
    (h : sources.os 1024 = none) :
    oracle.checkSample sources = .error (.err .entropyUnavailable) := by
  rw [checkSample, fillRaw_unavailable (Or.inr h)]
  rfl

theorem checkSample_answered {oracle : EntropyOracle} {sources : Sources} {os : Vector UInt8 1024}
    (hhealthy : oracle.state.poisoned = false) (h : sources.os 1024 = some os) :
    ∃ passed, oracle.checkSample sources = .ok passed := by
  obtain ⟨raw, hraw⟩ := fillRaw_answered (by omega) hhealthy h
  rw [checkSample, hraw]
  exact ⟨_, rfl⟩

/-- What counting does to the counter. -/
theorem count_since {oracle : EntropyOracle} (h : oracle.state.poisoned = false) (bytes : Nat) :
    (oracle.count bytes).2.state.value.bytesSinceLastCheck
      = if 10000 ≤ oracle.state.value.bytesSinceLastCheck + bytes then 0
        else oracle.state.value.bytesSinceLastCheck + bytes := by
  rw [count_eq h]
  rfl

theorem store_healthy {oracle : EntropyOracle} (h : oracle.state.poisoned = false) (passed : Bool) :
    (oracle.store passed).2.state.poisoned = false := by
  rw [store_eq h]
  exact h

/-- A call that loses its sample resets the counter, but checks nothing. -/
theorem call_sampleLost (sha : Sha256) {w : FillWorld T} {c : FillCall T}
    (hhealthy : w.oracle.state.poisoned = false) (h : SampleLost w c) :
    (w.call sha c.thread c.buf c.output c.sample).oracle.state.value.bytesSinceLastCheck = 0
      ∧ (w.call sha c.thread c.buf c.output c.sample).unchecked
          = w.unchecked + c.buf.length := by
  obtain ⟨hbuf, hanswer, hdue, hnone⟩ := h
  obtain ⟨os, hos⟩ := Option.ne_none_iff_exists'.mp hanswer
  obtain ⟨filled, hdraw⟩ := drawOutput_answered sha c.buf_lt hhealthy hos
  rw [call_lost sha hhealthy hbuf hdraw hdue (checkSample_unavailable hnone)]
  refine ⟨(count_since hhealthy _).trans ?_, rfl⟩
  rw [if_pos hdue]

/-- A call that has its sample answered completes the check. -/
theorem call_sampleAnswered (sha : Sha256) {w : FillWorld T} {c : FillCall T}
    (hhealthy : w.oracle.state.poisoned = false) (hbuf : c.buf ≠ [])
    {os : Vector UInt8 c.buf.length} (hos : c.output.os c.buf.length = some os)
    (hdue : 10000 ≤ w.oracle.state.value.bytesSinceLastCheck + c.buf.length)
    {os' : Vector UInt8 1024} (hos' : c.sample.os 1024 = some os') :
    (w.call sha c.thread c.buf c.output c.sample).samples.length = w.samples.length + 1
      ∧ (w.call sha c.thread c.buf c.output
          c.sample).oracle.state.value.bytesSinceLastCheck = 0 := by
  have hcount := count_healthy hhealthy c.buf.length
  obtain ⟨filled, hdraw⟩ := drawOutput_answered sha c.buf_lt hhealthy hos
  obtain ⟨passed, hsample⟩ := checkSample_answered hcount hos'
  rw [call_checked sha hhealthy hbuf hdraw hdue hsample, store_eq hcount]
  refine ⟨List.length_append, (count_since hhealthy _).trans ?_⟩
  rw [if_pos hdue]

/-- Any other call keeps the counter truthful. -/
theorem call_truthful {w : FillWorld T} {c : FillCall T}
    (hhealthy : w.oracle.state.poisoned = false) (h : ¬ SampleLost w c) (hw : Truthful w) :
    Truthful (w.call sha c.thread c.buf c.output c.sample) := by
  obtain ⟨hsince, hlt⟩ := hw
  have hkept := count_healthy hhealthy c.buf.length
  have hcounter := count_since hhealthy c.buf.length
  rcases call_cases sha hhealthy c.thread c.buf c.output c.sample with
    ⟨result, hcall⟩ | ⟨hdue, result, hcall⟩ | ⟨hdue, hbuf, ⟨filled, hdraw⟩, e, hsample, -⟩
      | ⟨hdue, passed, filled, hcall⟩
  · rw [hcall]
    exact ⟨hsince, hlt⟩
  · rw [if_neg hdue] at hcounter
    have hsum : w.unchecked + c.buf.length
        = (w.oracle.count c.buf.length).2.state.value.bytesSinceLastCheck := by
      omega
    have hbelow : w.unchecked + c.buf.length < 10000 := by
      omega
    rw [hcall]
    exact ⟨hsum, hbelow⟩
  · -- its sample was not answered, so this call is one that loses it
    refine absurd ⟨hbuf, drawOutput_os_ne_none hdraw, hdue, ?_⟩ h
    by_contra hanswer
    obtain ⟨os, hos⟩ := Option.ne_none_iff_exists'.mp hanswer
    obtain ⟨passed, hpassed⟩ := checkSample_answered hkept hos
    cases hsample.symm.trans hpassed
  · rw [if_pos hdue] at hcounter
    have hzero : ((w.oracle.count c.buf.length).2.store
        passed).2.state.value.bytesSinceLastCheck = 0 := by
      rw [store_eq hkept]
      exact hcounter
    rw [hcall]
    exact ⟨hzero.symm, Nat.zero_lt_succ 9999⟩

/-- No call poisons the lock. -/
theorem call_healthy {w : FillWorld T} (h : w.oracle.state.poisoned = false) (c : FillCall T) :
    (w.call sha c.thread c.buf c.output c.sample).oracle.state.poisoned = false := by
  have hcount := count_healthy h c.buf.length
  rcases call_cases sha h c.thread c.buf c.output c.sample with
    ⟨result, hcall⟩ | ⟨-, result, hcall⟩ | ⟨-, -, -, e, -, hcall⟩ | ⟨-, passed, filled, hcall⟩
  · rw [hcall]
    exact h
  · rw [hcall]
    exact hcount
  · rw [hcall]
    exact hcount
  · rw [hcall]
    exact store_healthy hcount passed

theorem runCalls_healthy {w : FillWorld T} (h : w.oracle.state.poisoned = false)
    (calls : List (FillCall T)) : (runCalls sha w calls).oracle.state.poisoned = false := by
  induction calls generalizing w with
  | nil => exact h
  | cons c calls ih => exact ih (call_healthy h c)

/-- One call more. -/
theorem runCalls_take_succ {w : FillWorld T} {calls : List (FillCall T)} {k : Nat}
    {c : FillCall T} (h : calls[k]? = some c) :
    runCalls sha w (calls.take (k + 1))
      = (runCalls sha w (calls.take k)).call sha c.thread c.buf c.output c.sample := by
  rw [List.take_add_one, h, runCalls, List.foldl_append]
  rfl

/--
**When the health-check counter tells the truth.**

In a run of calls on an initialised oracle it does after every call if and only if no
call loses its health sample: the counter is reset before the sample is asked for.
-/
theorem counter_truthful_iff {trng : Option (List UInt64)} {osPool : Bool} {first : Sources}
    {oracle : EntropyOracle} (hinit : EntropyOracle.init trng osPool first = .ok oracle)
    (calls : List (FillCall T)) :
    (∀ k, k ≤ calls.length → Truthful (runCalls sha (start oracle) (calls.take k)))
      ↔ ∀ k c, calls[k]? = some c →
          ¬ SampleLost (runCalls sha (start oracle) (calls.take k)) c := by
  obtain ⟨hhealthy, hzero, -⟩ := init_eq_ok hinit
  have hrun : ∀ k,
      (runCalls sha (start oracle : FillWorld T) (calls.take k)).oracle.state.poisoned = false :=
    fun k => runCalls_healthy hhealthy _
  constructor
  · intro h k c hc hlost
    have hk := (List.getElem?_eq_some_iff.mp hc).1
    obtain ⟨hsince, -⟩ := h k (Nat.le_of_lt hk)
    obtain ⟨hsince', -⟩ := h (k + 1) hk
    rw [runCalls_take_succ hc] at hsince'
    obtain ⟨hreset, hsum⟩ := call_sampleLost sha (hrun k) hlost
    -- zero since the last check, says the counter; it is ten thousand or more
    obtain ⟨-, -, hdue, -⟩ := hlost
    omega
  · intro h k
    induction k with
    | zero =>
      intro _
      exact ⟨hzero.symm, Nat.zero_lt_succ 9999⟩
    | succ k ih =>
      intro hk
      have hc : calls[k]? = some calls[k] := List.getElem?_eq_getElem hk
      rw [runCalls_take_succ hc]
      exact call_truthful (hrun k) (h k _ hc) (ih (Nat.le_of_lt hk))

/-- On flat answers the sample is flat, whether or not the oracle hopes for hardware words. -/
theorem checkSample_flat {oracle : EntropyOracle} (h : oracle.state.poisoned = false) (b : UInt8) :
    oracle.checkSample (flatSources b) = .ok (monobitTest (List.replicate 1024 b)) := by
  have hraw : oracle.fillRaw (flatSources b) 1024 = .ok (List.replicate 1024 b) := by
    have hanswer : (flatSources b).os 1024 = some (Vector.replicate 1024 b) := rfl
    obtain ⟨raw, hraw⟩ := fillRaw_answered (by omega) h hanswer
    obtain ⟨os, hos, hmix⟩ := fillRaw_ok hraw
    cases hos
    rcases hmix with ⟨-, hplain⟩ | ⟨words, ⟨-, hwords, -⟩, -⟩
    · rw [hraw, hplain, Vector.toList_replicate]
    · cases hwords
  rw [checkSample, hraw]
  rfl

/-- Where the operating system answers, initialisation succeeds. -/
theorem init_flat (b : UInt8) :
    ∃ oracle, EntropyOracle.init none true (flatSources b) = .ok oracle := by
  unfold init
  dsimp only
  rw [checkSample_flat rfl]
  exact ⟨_, rfl⟩

/-- An operating system that refuses, and no hardware generator. -/
def refusing : Sources where
  os _ := none
  trng := none

/-- Ten thousand bytes at once, whose health sample is refused. -/
def lostCall : FillCall Unit where
  thread := ()
  buf := List.replicate 10000 0
  output := flatSources 0
  sample := refusing
  buf_lt := by
    rw [List.length_replicate]
    omega

theorem lostCall_lost (w : FillWorld Unit) : SampleLost w lostCall := by
  have hlen : lostCall.buf.length = 10000 := List.length_replicate
  refine ⟨?_, Option.some_ne_none _, by omega, rfl⟩
  intro hnil
  rw [hnil] at hlen
  cases hlen

/-- The same with the sample answered. -/
def dueCall : FillCall Unit := { lostCall with sample := flatSources 0 }

/-- One byte less than makes a check due. -/
def shortCall : FillCall Unit where
  thread := ()
  buf := List.replicate 9999 0
  output := flatSources 0
  sample := refusing
  buf_lt := by
    rw [List.length_replicate]
    omega

/-- A check that is due and answered, and then a call with none due. -/
theorem counter_truthful_iff_due : ∃ oracle,
    EntropyOracle.init none true (flatSources 0) = .ok oracle
      ∧ (runCalls constantSha (start oracle : FillWorld Unit) [dueCall]).samples.length = 2
      ∧ Truthful (runCalls constantSha (start oracle : FillWorld Unit) [dueCall, shortCall]) := by
  obtain ⟨oracle, hinit⟩ := init_flat 0
  obtain ⟨hhealthy, hzero, -⟩ := init_eq_ok hinit
  have hlen : dueCall.buf.length = 10000 := List.length_replicate
  have hbuf : dueCall.buf ≠ [] := by
    intro hnil
    rw [hnil] at hlen
    cases hlen
  obtain ⟨hsamples, hsince⟩ :=
    call_sampleAnswered constantSha (w := (start oracle : FillWorld Unit)) hhealthy hbuf rfl
      (show 10000 ≤ oracle.state.value.bytesSinceLastCheck + _ by omega) rfl
  refine ⟨oracle, hinit, hsamples, ?_⟩
  refine (counter_truthful_iff hinit [dueCall, shortCall]).mpr ?_ 2 (Nat.le_refl 2)
  intro k c hc hlost
  obtain ⟨-, -, hdue, hnone⟩ := hlost
  rcases k with _ | _ | k
  · obtain rfl : dueCall = c := Option.some.inj hc
    exact Option.some_ne_none _ hnone
  · obtain rfl : shortCall = c := Option.some.inj hc
    have hshort : shortCall.buf.length = 9999 := List.length_replicate
    have hsince' : (runCalls constantSha (start oracle : FillWorld Unit)
        ([dueCall, shortCall].take (0 + 1))).oracle.state.value.bytesSinceLastCheck = 0 := hsince
    omega
  · exact Option.some_ne_none _ hc.symm

/-- One lost sample, and the counter says zero of ten thousand unchecked bytes. -/
theorem counter_untruthful : ∃ oracle,
    EntropyOracle.init none true (flatSources 0) = .ok oracle
      ∧ ¬ Truthful (runCalls constantSha (start oracle : FillWorld Unit) [lostCall]) := by
  obtain ⟨oracle, hinit⟩ := init_flat 0
  refine ⟨oracle, hinit, ?_⟩
  intro h
  obtain ⟨hreset, hsum⟩ :=
    call_sampleLost constantSha (init_eq_ok hinit).1 (lostCall_lost (start oracle))
  have hlen : lostCall.buf.length = 10000 := List.length_replicate
  obtain ⟨-, hlt⟩ := h
  have hunchecked : (runCalls constantSha (start oracle : FillWorld Unit)
      [lostCall]).unchecked = 0 + lostCall.buf.length := hsum
  omega

end Counter

/-! ## The result -/

section Result

variable {T : Type}

/-- Thread `t` has the result of sample `number`, and has yet to store it. -/
def Storing (w : FillWorld T) (t : T) (number : Nat) (passed : Bool) : Prop :=
  ∃ filled, w.threads t = .storing filled passed number

/-- A result may be stored as long as none of a later sample was. -/
def InOrder (w : FillWorld T) (t : T) : Prop :=
  ∀ number passed, Storing w t number passed → w.stored ≤ number

/--
What stores in order keep.

The status is the result of the sample stored last, and whatever was drawn after that
sample is in the hands of a thread.
-/
structure HealthInv (w : FillWorld T) : Prop where
  healthy : w.oracle.state.poisoned = false
  pos : 0 < w.stored
  status : w.samples[w.stored - 1]? = some w.oracle.state.value.lastCheckPassed
  result : ∀ t number passed, Storing w t number passed → w.samples[number]? = some passed
  held : ∀ i, w.stored ≤ i → i < w.samples.length → ∃ t passed, Storing w t i passed

theorem healthInv_start {oracle : EntropyOracle} (h : oracle.state.poisoned = false) :
    HealthInv (start oracle : FillWorld T) where
  healthy := h
  pos := Nat.one_pos
  status := rfl
  result := by
    intro t number passed hstoring
    obtain ⟨filled, hidle⟩ := hstoring
    cases hidle
  held := by
    intro i hi hlt
    change i < 1 at hlt
    exact absurd hi (Nat.not_le.mpr hlt)

/-- In this phase a thread has a result to store. -/
def isStoring : FillPhase → Bool
  | .storing _ _ _ => true
  | _ => false

theorem not_storing {w : FillWorld T} {t : T} {phase : FillPhase} (h : w.threads t = phase)
    (hphase : isStoring phase = false) (number : Nat) (passed : Bool) :
    ¬ Storing w t number passed := by
  intro hstoring
  obtain ⟨filled, hstoring⟩ := hstoring
  rw [← h, hstoring] at hphase
  cases hphase

/-- Who holds a result is not the thread that holds none. -/
theorem Storing.ne {w : FillWorld T} {t u : T} {number : Nat} {passed : Bool}
    (h : Storing w u number passed) (hnot : ∀ passed, ¬ Storing w t number passed) : u ≠ t := by
  intro heq
  subst heq
  exact hnot passed h

/-- Counting leaves the status alone. -/
theorem HealthInv.counted {w : FillWorld T} (h : HealthInv w) (bytes : Nat) :
    HealthInv (w.counted bytes (w.oracle.count bytes).2) where
  healthy := count_healthy h.healthy bytes
  pos := h.pos
  status := by
    rw [count_eq h.healthy]
    exact h.status
  result := h.result
  held := h.held

/-- At rest there is nothing left to store: the status is that of the last sample. -/
theorem HealthInv.rest {w : FillWorld T} (h : HealthInv w) (hidle : ∀ t, w.threads t = .idle) :
    w.samples.getLast? = some w.oracle.state.value.lastCheckPassed := by
  have hin := (List.getElem?_eq_some_iff.mp h.status).1
  have hdone : w.samples.length ≤ w.stored := by
    by_contra hmore
    obtain ⟨t, passed, filled, hphase⟩ := h.held w.stored (Nat.le_refl _) (by omega)
    cases (hidle t).symm.trans hphase
  have hlast : w.samples.length - 1 = w.stored - 1 := by
    have hpos := h.pos
    omega
  rw [List.getLast?_eq_getElem?, hlast]
  exact h.status

/-- Whoever asks for the health status is told what was stored. -/
theorem HealthInv.reported {w : FillWorld T} (h : HealthInv w) :
    w.oracle.health.lastCheckPassed = w.oracle.state.value.lastCheckPassed := by
  rw [health, lock_eq_ok.mpr ⟨h.healthy, rfl⟩]

variable [DecidableEq T] {sha : Sha256}

theorem storing_goto {w : FillWorld T} {t u : T} (hu : u ≠ t) {phase : FillPhase} {number : Nat}
    {passed : Bool} : Storing (w.goto t phase) u number passed ↔ Storing w u number passed := by
  unfold Storing
  rw [goto_other hu]

/-- A thread without a result goes where it has none. -/
theorem HealthInv.goto {w : FillWorld T} {t : T} {phase : FillPhase} (h : HealthInv w)
    (hbefore : ∀ number passed, ¬ Storing w t number passed)
    (hphase : isStoring phase = false) : HealthInv (w.goto t phase) where
  healthy := h.healthy
  pos := h.pos
  status := h.status
  result := by
    intro u number passed hstoring
    have hu := hstoring.ne (not_storing (goto_self w t phase) hphase number)
    exact h.result u number passed ((storing_goto hu).mp hstoring)
  held := by
    intro i hi hlt
    obtain ⟨u, passed, hstoring⟩ := h.held i hi hlt
    have hu := hstoring.ne (hbefore i)
    exact ⟨u, passed, (storing_goto hu).mpr hstoring⟩

/-- It may as well return. -/
theorem HealthInv.finish {w : FillWorld T} {t : T} (h : HealthInv w)
    (hbefore : ∀ number passed, ¬ Storing w t number passed)
    (result : Outcome CryptoError Bytes) : HealthInv (w.finish t result) := by
  have hidle : HealthInv (w.goto t .idle) := h.goto hbefore rfl
  exact ⟨hidle.healthy, hidle.pos, hidle.status, hidle.result, hidle.held⟩

/-- A sample is drawn: its thread holds the result. -/
theorem HealthInv.drawn {w : FillWorld T} {t : T} (h : HealthInv w)
    (hbefore : ∀ number passed, ¬ Storing w t number passed) (filled : Bytes) (passed : Bool) :
    HealthInv ((w.sampled passed).goto t (.storing filled passed w.samples.length)) where
  healthy := h.healthy
  pos := h.pos
  status := by
    have hin := (List.getElem?_eq_some_iff.mp h.status).1
    exact (List.getElem?_append_left hin).trans h.status
  result := by
    intro u number passed' hstoring
    by_cases hu : u = t
    · subst hu
      obtain ⟨filled', hphase⟩ := hstoring
      rw [goto_self] at hphase
      cases hphase
      exact List.getElem?_concat_length
    · have hold := h.result u number passed' ((storing_goto hu).mp hstoring)
      have hin := (List.getElem?_eq_some_iff.mp hold).1
      exact (List.getElem?_append_left hin).trans hold
  held := by
    intro i hi hlt
    by_cases hold : i < w.samples.length
    · obtain ⟨u, passed', hstoring⟩ := h.held i hi hold
      have hu := hstoring.ne (hbefore i)
      exact ⟨u, passed', (storing_goto hu).mpr hstoring⟩
    · -- only the new sample is further out
      have hlen : i < (w.samples ++ [passed]).length := hlt
      rw [List.length_append, List.length_singleton] at hlen
      have hi' : i = w.samples.length := by omega
      subst hi'
      exact ⟨t, passed, filled, goto_self ..⟩

/-- A result is stored in order: the samples up to it are done with. -/
theorem HealthInv.stored {w : FillWorld T} {t : T} {filled : Bytes} {passed : Bool} {number : Nat}
    (h : HealthInv w) (hphase : w.threads t = .storing filled passed number)
    (horder : InOrder w t) :
    HealthInv ((w.checked number (w.oracle.store passed).2).finish t (.ok filled)) where
  healthy := store_healthy h.healthy passed
  pos := Nat.succ_pos number
  status := by
    change w.samples[number]? = some (w.oracle.store passed).2.state.value.lastCheckPassed
    rw [store_eq h.healthy]
    exact h.result t number passed ⟨filled, hphase⟩
  result := by
    intro u number' passed' hstoring
    by_cases hu : u = t
    · subst hu
      obtain ⟨filled', hidle⟩ := hstoring
      rw [finish_self] at hidle
      cases hidle
    · exact h.result u number' passed' ((storing_goto hu).mp hstoring)
  held := by
    intro i hi hlt
    have hnumber : number < i := hi
    have hstored := horder number passed ⟨filled, hphase⟩
    obtain ⟨u, passed', hstoring⟩ := h.held i (by omega) hlt
    -- `t` holds another sample
    have hu : u ≠ t := by
      refine hstoring.ne ?_
      intro passed'' hsame
      obtain ⟨filled'', hphase''⟩ := hsame
      cases hphase.symm.trans hphase''
      exact Nat.lt_irrefl _ hnumber
    exact ⟨u, passed', (storing_goto hu).mpr hstoring⟩

/-- **One thread's step**, stores being in order. -/
theorem healthInv_advance {w : FillWorld T} {t : T} (h : HealthInv w) (horder : InOrder w t)
    (sources : Sources) : HealthInv (w.advance sha sources t) := by
  cases hphase : w.threads t with
  | idle =>
    rw [advance_idle sha sources hphase]
    exact h
  | drawing buf =>
    have hbefore := not_storing hphase rfl
    by_cases hbuf : buf = []
    · subst hbuf
      rw [advance_drawing_empty sha sources hphase]
      exact h.finish hbefore _
    · rw [advance_drawing sha sources hphase hbuf]
      cases w.oracle.drawOutput sha sources buf with
      | error e => exact h.finish hbefore _
      | ok filled => exact h.goto hbefore rfl
  | counting bytes filled =>
    have hbefore : ∀ number passed,
        ¬ Storing (w.counted bytes (w.oracle.count bytes).2) t number passed :=
      not_storing hphase rfl
    rw [advance_counting sha sources hphase h.healthy]
    by_cases hdue : 10000 ≤ w.oracle.state.value.bytesSinceLastCheck + bytes
    · rw [if_pos hdue]
      exact (h.counted bytes).goto hbefore rfl
    · rw [if_neg hdue]
      exact (h.counted bytes).finish hbefore _
  | sampling filled =>
    have hbefore := not_storing hphase rfl
    rw [advance_sampling sha sources hphase]
    cases w.oracle.checkSample sources with
    | error e => exact h.finish hbefore _
    | ok passed => exact h.drawn hbefore filled passed
  | storing filled passed number =>
    rw [advance_storing sha sources hphase h.healthy]
    exact h.stored hphase horder

theorem healthInv_step {w w' : FillWorld T} (h : HealthInv w) (hs : Step sha InOrder w w') :
    HealthInv w' := by
  cases hs with
  | fill t buf hidle => exact h.goto (not_storing hidle rfl) rfl
  | advance sources t horder => exact healthInv_advance h horder sources

theorem healthInv_steps {oracle : EntropyOracle} {w : FillWorld T}
    (hhealthy : oracle.state.poisoned = false) (h : Steps sha InOrder (start oracle) w) :
    HealthInv w := by
  induction h with
  | refl => exact healthInv_start hhealthy
  | tail _ hs ih => exact healthInv_step ih hs

/-- Samples are only ever added. -/
theorem samples_advance (sha : Sha256) (sources : Sources) (w : FillWorld T) (t : T) :
    w.samples <+: (w.advance sha sources t).samples := by
  unfold advance
  cases w.threads t with
  | idle => exact List.prefix_rfl
  | drawing buf =>
    dsimp only
    split
    · exact List.prefix_rfl
    · split
      · exact List.prefix_rfl
      · exact List.prefix_rfl
  | counting bytes filled =>
    dsimp only
    split
    · exact List.prefix_rfl
    · exact List.prefix_rfl
    · exact List.prefix_rfl
  | sampling filled =>
    dsimp only
    split
    · exact List.prefix_append ..
    · exact List.prefix_rfl
  | storing filled passed number =>
    dsimp only
    split
    · exact List.prefix_rfl
    · exact List.prefix_rfl

/-- No step touches the first sample. -/
theorem samples_head {guard : FillWorld T → T → Prop} {oracle : EntropyOracle} {w : FillWorld T}
    (h : Steps sha guard (start oracle) w) :
    w.samples.head? = some oracle.state.value.lastCheckPassed := by
  induction h with
  | refl => rfl
  | @tail w w' _ hs ih =>
    cases hs with
    | fill t buf hidle => exact ih
    | advance sources t _ =>
      obtain ⟨more, hmore⟩ := samples_advance sha sources w t
      rw [← hmore, List.head?_append, ih]
      rfl

/--
**No health result is lost as long as results are stored in the order of the draws.**

In every run of any number of threads on an initialised oracle in which each store is
in order, whenever no call is in progress the status is that of the last sample, and
it is what `health` reports. The first sample is the one `init` drew.
-/
theorem status_last {trng : Option (List UInt64)} {osPool : Bool} {first : Sources}
    {oracle : EntropyOracle} (hinit : EntropyOracle.init trng osPool first = .ok oracle)
    {w : FillWorld T} (hrun : Steps sha InOrder (start oracle) w)
    (hidle : ∀ t, w.threads t = .idle) :
    w.samples.getLast? = some w.oracle.state.value.lastCheckPassed
      ∧ w.oracle.health.lastCheckPassed = w.oracle.state.value.lastCheckPassed
      ∧ ∃ passed, oracle.checkSample first = .ok passed ∧ w.samples.head? = some passed := by
  obtain ⟨hhealthy, -, hfirst⟩ := init_eq_ok hinit
  have hinv := healthInv_steps hhealthy hrun
  exact ⟨hinv.rest hidle, hinv.reported, _, hfirst, samples_head hrun⟩

/-! ### Results out of order -/

/-- A thread without a result may always advance. -/
theorem free_step {w : FillWorld T} {t : T} {phase : FillPhase} (h : w.threads t = phase)
    (hphase : isStoring phase = false) (sources : Sources) :
    Step sha InOrder w (w.advance sha sources t) := by
  refine .advance sources t ?_
  intro number passed hstoring
  exact absurd hstoring (not_storing h hphase number passed)

/-- A call that makes a check due, up to its sample. -/
theorem sampling_reached (sha : Sha256) {w : FillWorld T} {t : T} {buf : Bytes}
    (hhealthy : w.oracle.state.poisoned = false) (hidle : w.threads t = .idle)
    (hdue : 10000 ≤ buf.length) (hlen : buf.length < 2 ^ 63) :
    ∃ filled, Steps sha InOrder w
      ((w.counted buf.length (w.oracle.count buf.length).2).goto t (.sampling filled)) := by
  have hbuf : buf ≠ [] := by
    intro hnil
    rw [hnil] at hdue
    cases hdue
  have hanswer : (flatSources 0).os buf.length = some (Vector.replicate buf.length 0) := rfl
  obtain ⟨filled, hdraw⟩ := drawOutput_answered sha hlen hhealthy hanswer
  have hdrawn : (w.goto t (.drawing buf)).advance sha (flatSources 0) t
      = w.goto t (.counting buf.length filled) := by
    have hdraw' : (w.goto t (.drawing buf)).oracle.drawOutput sha (flatSources 0) buf
        = .ok filled := hdraw
    rw [advance_drawing sha _ (goto_self ..) hbuf, hdraw']
    exact goto_goto ..
  have hcounted := call_drawn sha (t := t) hhealthy hbuf hdraw
  rw [if_pos (by omega), hdrawn] at hcounted
  have hfill : Step sha InOrder w (w.goto t (.drawing buf)) := .fill t buf hidle
  have hdraws : Step sha InOrder (w.goto t (.drawing buf)) _ :=
    free_step (goto_self ..) rfl (flatSources 0)
  rw [hdrawn] at hdraws
  have hcounts : Step sha InOrder (w.goto t (.counting buf.length filled)) _ :=
    free_step (goto_self ..) rfl (flatSources 0)
  rw [hcounted] at hcounts
  exact ⟨filled, ((Relation.ReflTransGen.single hfill).tail hdraws).tail hcounts⟩

/-- A sample of one byte over and over is drawn. -/
theorem sample_step (sha : Sha256) {w : FillWorld T} {t : T} {filled : Bytes}
    (hhealthy : w.oracle.state.poisoned = false) (hphase : w.threads t = .sampling filled)
    {b : UInt8} {passed : Bool} (hpassed : monobitTest (List.replicate 1024 b) = passed) :
    Step sha InOrder w
      ((w.sampled passed).goto t (.storing filled passed w.samples.length)) := by
  have hs : Step sha InOrder w (w.advance sha (flatSources b) t) :=
    free_step hphase rfl _
  rw [advance_sampling sha _ hphase, checkSample_flat hhealthy, hpassed] at hs
  exact hs

/-- A result is stored, if the guard allows it. -/
theorem store_reached (sha : Sha256) (guard : FillWorld T → T → Prop) {w : FillWorld T} {t : T}
    {filled : Bytes} {passed : Bool} {number : Nat} (hhealthy : w.oracle.state.poisoned = false)
    (hphase : w.threads t = .storing filled passed number) (hguard : guard w t) :
    ∃ w', Step sha guard w w' ∧ w'.oracle.state.poisoned = false ∧ w'.samples = w.samples
      ∧ w'.oracle.state.value.lastCheckPassed = passed ∧ w'.stored = number + 1
      ∧ w'.threads = Function.update w.threads t .idle := by
  have hs : Step sha guard w (w.advance sha (flatSources 0) t) := .advance _ t hguard
  rw [advance_storing sha _ hphase hhealthy, store_eq hhealthy] at hs
  exact ⟨_, hs, hhealthy, rfl, rfl, rfl, rfl⟩

/-- An idle thread makes a check due and draws its sample; the result is not stored yet. -/
theorem check_reached (sha : Sha256) {w : FillWorld T} {t : T}
    (hhealthy : w.oracle.state.poisoned = false) (hidle : w.threads t = .idle)
    {b : UInt8} {passed : Bool} (hpassed : monobitTest (List.replicate 1024 b) = passed) :
    ∃ w' filled, Steps sha InOrder w w' ∧ w'.oracle.state.poisoned = false
      ∧ w'.samples = w.samples ++ [passed] ∧ w'.stored = w.stored
      ∧ w'.threads = Function.update w.threads t (.storing filled passed w.samples.length) := by
  obtain ⟨buf, hlen⟩ : ∃ buf : Bytes, buf.length = 10000 :=
    ⟨List.replicate 10000 0, List.length_replicate⟩
  obtain ⟨filled, hsampling⟩ :=
    sampling_reached sha hhealthy hidle (show 10000 ≤ buf.length by omega) (by omega)
  have hcounted := count_healthy hhealthy buf.length
  refine ⟨_, filled, hsampling.tail (sample_step sha hcounted (goto_self ..) hpassed), hcounted,
    rfl, rfl, ?_⟩
  rw [sampled_goto, goto_goto]
  rfl

theorem steps_any {w w' : FillWorld T} (h : Steps sha InOrder w w') :
    Steps sha (fun _ _ => True) w w' := by
  induction h with
  | refl => exact .refl
  | tail _ hs ih =>
    refine ih.tail ?_
    cases hs with
    | fill t buf hidle => exact .fill t buf hidle
    | advance sources t _ => exact .advance sources t trivial

/--
**Two checks in flight can finish in either order.**

Wherever two threads are idle they can run so that the later sample is stored first,
and the earlier one is what the status shows.
-/
theorem overtakes (sha : Sha256) {w : FillWorld T} {t u : T} (htu : t ≠ u)
    (hhealthy : w.oracle.state.poisoned = false) (ht : w.threads t = .idle)
    (hu : w.threads u = .idle) {b c : UInt8} {earlier later : Bool}
    (hearlier : monobitTest (List.replicate 1024 b) = earlier)
    (hlater : monobitTest (List.replicate 1024 c) = later) :
    ∃ w', Steps sha (fun _ _ => True) w w' ∧ w'.samples = w.samples ++ [earlier] ++ [later]
      ∧ w'.oracle.state.value.lastCheckPassed = earlier
      ∧ ∀ v, w'.threads v = w.threads v := by
  obtain ⟨w₁, filled, hrun₁, hhealthy₁, hsamples₁, -, hthreads₁⟩ :=
    check_reached sha hhealthy ht hearlier
  have hu₁ : w₁.threads u = .idle := by
    rw [hthreads₁, Function.update_of_ne htu.symm]
    exact hu
  obtain ⟨w₂, filled', hrun₂, hhealthy₂, hsamples₂, -, hthreads₂⟩ :=
    check_reached sha hhealthy₁ hu₁ hlater
  have ht₂ : w₂.threads t = .storing filled earlier w.samples.length := by
    rw [hthreads₂, Function.update_of_ne htu, hthreads₁, Function.update_self]
  have hu₂ : w₂.threads u = .storing filled' later w₁.samples.length := by
    rw [hthreads₂, Function.update_self]
  -- `u` stores the later sample, then `t` the earlier one
  obtain ⟨w₃, hstore₃, hhealthy₃, hsamples₃, -, -, hthreads₃⟩ :=
    store_reached sha (fun _ _ => True) hhealthy₂ hu₂ trivial
  have ht₃ : w₃.threads t = .storing filled earlier w.samples.length := by
    rw [hthreads₃, Function.update_of_ne htu, ht₂]
  obtain ⟨w₄, hstore₄, -, hsamples₄, hstatus₄, -, hthreads₄⟩ :=
    store_reached sha (fun _ _ => True) hhealthy₃ ht₃ trivial
  refine ⟨w₄, (((steps_any hrun₁).trans (steps_any hrun₂)).tail hstore₃).tail hstore₄, ?_,
    hstatus₄, ?_⟩
  · rw [hsamples₄, hsamples₃, hsamples₂, hsamples₁]
  · intro v
    rw [hthreads₄, hthreads₃, hthreads₂, hthreads₁]
    by_cases hvt : v = t
    · rw [hvt, Function.update_self, ht]
    rw [Function.update_of_ne hvt]
    by_cases hvu : v = u
    · rw [hvu, Function.update_self, hu]
    · rw [Function.update_of_ne hvu, Function.update_of_ne hvu, Function.update_of_ne hvt]

end Result

/-- The test on one byte over and over. -/
theorem monobitTest_flat (b : UInt8) :
    monobitTest (List.replicate 1024 b)
      = decide
          ((2 * (1024 * countOnes b : Nat) - 8192 : Int) ^ 2 * 1000 ^ 2 < 2576 ^ 2 * 8192) := by
  unfold monobitTest
  rw [List.map_replicate, List.sum_replicate_nat, List.length_replicate]
  rfl

theorem monobitTest_even : monobitTest (List.replicate 1024 15) = true := by
  rw [monobitTest_flat]
  rfl

theorem monobitTest_zero : monobitTest (List.replicate 1024 0) = false := by
  rw [monobitTest_flat]
  rfl

/-- The guard at a result in hand. -/
theorem inOrder_of_storing {T : Type} {w : FillWorld T} {t : T} {filled : Bytes} {passed : Bool}
    {number : Nat} (hphase : w.threads t = .storing filled passed number)
    (hstored : w.stored ≤ number) : InOrder w t := by
  intro number' passed' hstoring
  obtain ⟨filled', hphase'⟩ := hstoring
  cases hphase.symm.trans hphase'
  exact hstored

/-- Two threads with a sample each in flight, stored in the order they were drawn in. -/
theorem status_last_two : ∃ oracle, ∃ w : FillWorld Bool,
    EntropyOracle.init none true (flatSources 0) = .ok oracle
      ∧ w.samples = [oracle.state.value.lastCheckPassed, true, false]
      ∧ w.samples.getLast? = some w.oracle.state.value.lastCheckPassed := by
  obtain ⟨oracle, hinit⟩ := init_flat 0
  obtain ⟨w₁, filled, hrun₁, hhealthy₁, hsamples₁, hstored₁, hthreads₁⟩ :=
    check_reached constantSha (init_eq_ok hinit).1
      (show (start oracle : FillWorld Bool).threads true = .idle from rfl) monobitTest_even
  have hidle₁ : w₁.threads false = .idle := by
    rw [hthreads₁]
    rfl
  obtain ⟨w₂, filled', hrun₂, hhealthy₂, hsamples₂, hstored₂, hthreads₂⟩ :=
    check_reached constantSha hhealthy₁ hidle₁ monobitTest_zero
  rw [hsamples₁] at hsamples₂ hthreads₂
  -- the first sample is stored first
  have hphase₂ : w₂.threads true = .storing filled true 1 := by
    rw [hthreads₂, hthreads₁]
    rfl
  obtain ⟨w₃, hstore₃, hhealthy₃, hsamples₃, -, hstored₃, hthreads₃⟩ :=
    store_reached constantSha InOrder hhealthy₂ hphase₂
      (inOrder_of_storing hphase₂ (by rw [hstored₂, hstored₁]; exact Nat.le_refl 1))
  have hphase₃ : w₃.threads false = .storing filled' false 2 := by
    rw [hthreads₃, hthreads₂]
    rfl
  obtain ⟨w₄, hstore₄, -, hsamples₄, -, -, hthreads₄⟩ :=
    store_reached constantSha InOrder hhealthy₃ hphase₃
      (inOrder_of_storing hphase₃ (Nat.le_of_eq hstored₃))
  have hidle₄ : ∀ t, w₄.threads t = .idle := by
    intro t
    rw [hthreads₄, hthreads₃, hthreads₂, hthreads₁]
    cases t <;> rfl
  have hrun := ((hrun₁.trans hrun₂).tail hstore₃).tail hstore₄
  exact ⟨oracle, w₄, hinit, by rw [hsamples₄, hsamples₃, hsamples₂]; rfl,
    (status_last hinit hrun hidle₄).1⟩

/-- Two threads, two checks: the later sample fails, and the status says it passed. -/
theorem status_overtaken : ∃ oracle, ∃ w : FillWorld Bool,
    EntropyOracle.init none true (flatSources 15) = .ok oracle
      ∧ Steps constantSha (fun _ _ => True) (start oracle) w
      ∧ (∀ t, w.threads t = .idle)
      ∧ w.samples.getLast? = some false ∧ w.oracle.state.value.lastCheckPassed = true := by
  obtain ⟨oracle, hinit⟩ := init_flat 15
  have htu : true ≠ false := Bool.noConfusion
  obtain ⟨w, hrun, hsamples, hstatus, hthreads⟩ :=
    overtakes constantSha htu (init_eq_ok hinit).1
      (show (start oracle : FillWorld Bool).threads true = .idle from rfl) rfl
      monobitTest_even monobitTest_zero
  refine ⟨oracle, w, hinit, hrun, hthreads, ?_, hstatus⟩
  rw [hsamples, List.getLast?_concat]

end Stegosafe.Proof
