import Mathlib.Data.Fintype.BigOperators
import Mathlib.Algebra.BigOperators.Group.Finset.Basic
import Stegosafe.Proof.Health

/-!
# Where the bytes went

An auditor watches any number of threads fill buffers from one oracle, and writes down
what every critical section did: the bytes it counted, the checks it decided on, the
results stored, and the samples that were refused with the output of their call.

However the threads interleave, the oracle's totals are the auditor's. Every byte counted
was returned to a caller, is still in the hands of a thread, or was lost with a refused
sample; every check decided on was completed, is under way, or was lost the same way;
and there is one check for ten thousand bytes, give or take one call.
-/

namespace Stegosafe.Proof

open Stegosafe Checked Outcome EntropyOracle FillWorld

/-! ## Sums over threads -/

section Sums

variable {T P : Type} [Fintype T] [DecidableEq T]

/-- When one thread enters a phase, a sum over all of them trades its old part for the new one. -/
theorem sum_update_add (f : P → Nat) (threads : T → P) (t : T) (phase : P) :
    (∑ u, f (Function.update threads t phase u)) + f (threads t)
      = (∑ u, f (threads u)) + f phase := by
  have hafter : ∑ u, f (Function.update threads t phase u)
      = f phase + ∑ u ∈ Finset.univ.erase t, f (threads u) := by
    rw [← Finset.add_sum_erase _ _ (Finset.mem_univ t), Function.update_self]
    congr 1
    refine Finset.sum_congr rfl fun u hu => ?_
    rw [Function.update_of_ne (Finset.ne_of_mem_erase hu)]
  have hbefore := Finset.add_sum_erase Finset.univ (fun u => f (threads u)) (Finset.mem_univ t)
  rw [hafter, ← hbefore]
  omega

end Sums

/-! ## The auditor -/

/-- The output a thread has counted, and not returned yet. -/
def heldBytes : FillPhase → Nat
  | .sampling filled | .storing filled _ _ => filled.length
  | .idle | .drawing _ | .counting _ _ => 0

/-- A thread on its way through a check. -/
def isChecking : FillPhase → Nat
  | .sampling _ | .storing _ _ _ => 1
  | .idle | .drawing _ | .counting _ _ => 0

/-- What the auditor has written down. -/
structure Tally where
  /-- Bytes counted in the first critical section. -/
  counted : Nat
  /-- The most that one call has counted. -/
  largest : Nat
  /-- Checks decided on. -/
  decided : Nat
  /-- Checks whose result was stored. -/
  completed : Nat
  /-- Checks whose sample was refused. -/
  lostChecks : Nat
  /-- Bytes counted, and not returned because the sample was refused. -/
  lostBytes : Nat

section Audit

variable {T : Type}

/-- The bytes of all calls that returned some. -/
def returnedBytes (w : FillWorld T) : Nat :=
  ((w.returned.filterMap Except.toOption).map List.length).sum

/-- A quantity of the threads' phases, over all threads. -/
def inFlight [Fintype T] (f : FillPhase → Nat) (w : FillWorld T) : Nat := ∑ t, f (w.threads t)

/-- At rest nothing is in flight. -/
theorem inFlight_rest [Fintype T] {f : FillPhase → Nat} (h : f .idle = 0) {w : FillWorld T}
    (hidle : ∀ t, w.threads t = .idle) : inFlight f w = 0 :=
  Finset.sum_eq_zero fun t _ => by rw [hidle t, h]

namespace Tally

/-- A clean sheet. -/
def blank : Tally := ⟨0, 0, 0, 0, 0, 0⟩

/-- A call counted `bytes`, and a check was due or not. -/
def count (y : Tally) (bytes : Nat) (due : Bool) : Tally :=
  { y with
    counted := y.counted + bytes
    largest := max y.largest bytes
    decided := y.decided + due.toNat }

/-- What the auditor writes down of thread `t`'s next step. -/
def audit (y : Tally) (sources : Sources) (w : FillWorld T) (t : T) : Tally :=
  match w.threads t with
  | .idle | .drawing _ => y
  | .counting bytes _ =>
      y.count bytes (10000 ≤ w.oracle.state.value.bytesSinceLastCheck + bytes)
  | .sampling filled =>
    match w.oracle.checkSample sources with
    | .ok _ => y
    | .error _ =>
      { y with lostChecks := y.lostChecks + 1, lostBytes := y.lostBytes + filled.length }
  | .storing _ _ _ => { y with completed := y.completed + 1 }

end Tally

/-! ## What the oracle and the auditor agree on -/

/-- The oracle's counters are what the auditor wrote down. -/
structure Paced (state : OracleState) (y : Tally) : Prop where
  generated : state.bytesGenerated = min y.counted (2 ^ 64 - 1)
  below : state.bytesSinceLastCheck < 10000
  /-- A check is decided on after ten thousand bytes at the earliest. -/
  seldom : 10000 * y.decided + state.bytesSinceLastCheck ≤ y.counted
  /-- And not later than with the call that completes them. -/
  often : y.counted ≤ y.decided * (9999 + y.largest) + state.bytesSinceLastCheck

/-- **The first critical section counts what the auditor writes down.** -/
theorem Paced.count {oracle : EntropyOracle} {y : Tally} (h : Paced oracle.state.value y)
    (hhealthy : oracle.state.poisoned = false) (bytes : Nat) :
    Paced (oracle.count bytes).2.state.value
      (y.count bytes (10000 ≤ oracle.state.value.bytesSinceLastCheck + bytes)) := by
  obtain ⟨hgenerated, hbelow, hseldom, hoften⟩ := h
  have hgrow : y.decided * (9999 + y.largest) ≤ y.decided * (9999 + max y.largest bytes) :=
    Nat.mul_le_mul_left _ (by omega)
  have hgenerated' : satAdd 64 oracle.state.value.bytesGenerated bytes
      = min (y.counted + bytes) (2 ^ 64 - 1) := by
    rw [satAdd, hgenerated]
    omega
  rw [count_eq hhealthy]
  by_cases hdue : 10000 ≤ oracle.state.value.bytesSinceLastCheck + bytes
  · simp only [hdue, if_true, decide_true]
    refine ⟨hgenerated', Nat.zero_lt_succ 9999, ?_, ?_⟩
    · change 10000 * (y.decided + 1) + 0 ≤ y.counted + bytes
      omega
    · change y.counted + bytes ≤ (y.decided + 1) * (9999 + max y.largest bytes) + 0
      rw [Nat.succ_mul]
      omega
  · simp only [hdue, if_false, decide_false]
    refine ⟨hgenerated', Nat.lt_of_not_le hdue, ?_, ?_⟩
    · change 10000 * (y.decided + 0) + (_ + bytes) ≤ y.counted + bytes
      omega
    · change y.counted + bytes ≤ (y.decided + 0) * (9999 + max y.largest bytes) + (_ + bytes)
      rw [Nat.add_zero]
      omega

/-- The oracle's counters are the auditor's, and the auditor's books balance. -/
structure Balanced [Fintype T] (w : FillWorld T) (y : Tally) : Prop where
  healthy : w.oracle.state.poisoned = false
  paced : Paced w.oracle.state.value y
  drawn : ∀ t bytes filled, w.threads t = .counting bytes filled → filled.length = bytes
  /-- Every byte counted was returned, was lost, or is in the hands of a thread. -/
  bytes : y.counted = returnedBytes w + y.lostBytes + inFlight heldBytes w
  /-- Every check decided on was completed, was lost, or is under way. -/
  checks : y.decided = y.completed + y.lostChecks + inFlight isChecking w

theorem balanced_start [Fintype T] {oracle : EntropyOracle}
    (hhealthy : oracle.state.poisoned = false) (hgenerated : oracle.state.value.bytesGenerated = 0)
    (hsince : oracle.state.value.bytesSinceLastCheck = 0) :
    Balanced (start oracle : FillWorld T) Tally.blank where
  healthy := hhealthy
  paced := by
    have hzero : (start oracle : FillWorld T).oracle.state.value.bytesSinceLastCheck = 0 := hsince
    refine ⟨hgenerated, ?_, ?_, Nat.zero_le _⟩
    · omega
    · rw [hzero]
      exact Nat.le_refl 0
  drawn := by
    intro t bytes filled hphase
    cases hphase
  bytes := by
    rw [inFlight_rest rfl fun _ => rfl]
    rfl
  checks := by
    rw [inFlight_rest rfl fun _ => rfl]
    rfl

/-! ## Runs -/

variable [DecidableEq T]

/-- A run from a world, and what the auditor wrote down of it. -/
inductive Audited (sha : Sha256) (guard : FillWorld T → T → Prop) (first : FillWorld T) :
    FillWorld T → Tally → Prop where
  | start : Audited sha guard first first Tally.blank
  | fill {w : FillWorld T} {y : Tally} (t : T) (buf : Bytes) (run : Audited sha guard first w y) :
      w.threads t = .idle → Audited sha guard first (w.goto t (.drawing buf)) y
  | advance {w : FillWorld T} {y : Tally} (sources : Sources) (t : T)
      (run : Audited sha guard first w y) : guard w t →
      Audited sha guard first (w.advance sha sources t) (y.audit sources w t)

/-- **The auditor misses no run.** -/
theorem steps_iff_audited {sha : Sha256} {guard : FillWorld T → T → Prop} {first w : FillWorld T} :
    Steps sha guard first w ↔ ∃ y, Audited sha guard first w y := by
  constructor
  · intro h
    induction h with
    | refl => exact ⟨_, .start⟩
    | tail _ hs ih =>
      obtain ⟨y, hy⟩ := ih
      cases hs with
      | fill t buf hidle => exact ⟨y, .fill t buf hy hidle⟩
      | advance sources t hguard => exact ⟨_, .advance sources t hy hguard⟩
  · intro h
    obtain ⟨y, h⟩ := h
    induction h with
    | start => exact .refl
    | fill t buf _ hidle ih => exact ih.tail (.fill t buf hidle)
    | advance sources t _ hguard ih => exact ih.tail (.advance sources t hguard)

theorem returnedBytes_finish_ok (w : FillWorld T) (t : T) (filled : Bytes) :
    returnedBytes (w.finish t (.ok filled)) = returnedBytes w + filled.length := by
  simp only [returnedBytes, finish, List.filterMap_append, List.map_append, List.sum_append]
  rfl

theorem returnedBytes_finish_error (w : FillWorld T) (t : T) (e : Fault CryptoError) :
    returnedBytes (w.finish t (.error e)) = returnedBytes w := by
  simp only [returnedBytes, finish, List.filterMap_append, List.map_append, List.sum_append]
  rfl

/-- Outputs that are being counted are as long as what is counted of them. -/
theorem drawn_update {threads : T → FillPhase} {t : T} {phase : FillPhase}
    (hold : ∀ u bytes filled, threads u = .counting bytes filled → filled.length = bytes)
    (hnew : ∀ bytes filled, phase = .counting bytes filled → filled.length = bytes) :
    ∀ u bytes filled, Function.update threads t phase u = .counting bytes filled →
      filled.length = bytes := by
  intro u bytes filled hphase
  by_cases hu : u = t
  · subst hu
    rw [Function.update_self] at hphase
    exact hnew bytes filled hphase
  · rw [Function.update_of_ne hu] at hphase
    exact hold u bytes filled hphase

/-! ## Every step -/

variable [Fintype T]

theorem inFlight_goto (f : FillPhase → Nat) (w : FillWorld T) (t : T) (phase : FillPhase) :
    inFlight f (w.goto t phase) + f (w.threads t) = inFlight f w + f phase :=
  sum_update_add f w.threads t phase

theorem inFlight_finish (f : FillPhase → Nat) (w : FillWorld T) (t : T)
    (result : Outcome CryptoError Bytes) :
    inFlight f (w.finish t result) + f (w.threads t) = inFlight f w + f .idle :=
  sum_update_add f w.threads t .idle

section Steps

variable {w : FillWorld T} {y : Tally} {t : T}

/-- A thread without a counted output goes where it has none. -/
theorem Balanced.goto {phase : FillPhase} (h : Balanced w y)
    (hheld : heldBytes phase = heldBytes (w.threads t))
    (hcheck : isChecking phase = isChecking (w.threads t))
    (hnew : ∀ bytes filled, phase = .counting bytes filled → filled.length = bytes) :
    Balanced (w.goto t phase) y where
  healthy := h.healthy
  paced := h.paced
  drawn := drawn_update h.drawn hnew
  bytes := by
    have hsum := inFlight_goto heldBytes w t phase
    have hbooks := h.bytes
    change y.counted = returnedBytes w + y.lostBytes + inFlight heldBytes (w.goto t phase)
    omega
  checks := by
    have hsum := inFlight_goto isChecking w t phase
    have hbooks := h.checks
    omega

/-- It may as well return, without bytes that count. -/
theorem Balanced.finish {result : Outcome CryptoError Bytes} (h : Balanced w y)
    (hheld : heldBytes (w.threads t) = 0) (hcheck : isChecking (w.threads t) = 0)
    (hreturned : returnedBytes (w.finish t result) = returnedBytes w) :
    Balanced (w.finish t result) y where
  healthy := h.healthy
  paced := h.paced
  drawn := drawn_update h.drawn fun _ _ hidle => by cases hidle
  bytes := by
    have hsum := inFlight_finish heldBytes w t result
    have hidle : heldBytes .idle = 0 := rfl
    have hbooks := h.bytes
    omega
  checks := by
    have hsum := inFlight_finish isChecking w t result
    have hidle : isChecking .idle = 0 := rfl
    have hbooks := h.checks
    omega

/-- A thread that counts its output returns it, or holds it through a check. -/
theorem Balanced.count {bytes : Nat} {filled : Bytes} (h : Balanced w y)
    (hphase : w.threads t = .counting bytes filled) :
    Balanced
      (if 10000 ≤ w.oracle.state.value.bytesSinceLastCheck + bytes then
        (w.counted bytes (w.oracle.count bytes).2).goto t (.sampling filled)
      else (w.counted bytes (w.oracle.count bytes).2).finish t (.ok filled))
      (y.count bytes (10000 ≤ w.oracle.state.value.bytesSinceLastCheck + bytes)) := by
  have hlen := h.drawn t bytes filled hphase
  have hheld : heldBytes (w.threads t) = 0 := by rw [hphase]; rfl
  have hcheck : isChecking (w.threads t) = 0 := by rw [hphase]; rfl
  have hpaced := h.paced.count h.healthy bytes
  have hbooks := h.bytes
  have hchecks := h.checks
  by_cases hdue : 10000 ≤ w.oracle.state.value.bytesSinceLastCheck + bytes
  · rw [if_pos hdue]
    simp only [hdue, decide_true] at hpaced ⊢
    refine ⟨count_healthy h.healthy bytes, hpaced,
      drawn_update h.drawn (fun _ _ hsampling => by cases hsampling), ?_, ?_⟩
    · have hsum := inFlight_goto heldBytes w t (.sampling filled)
      have hnow : heldBytes (.sampling filled) = filled.length := rfl
      change y.counted + bytes = returnedBytes w + y.lostBytes
        + inFlight heldBytes (w.goto t (.sampling filled))
      omega
    · have hsum := inFlight_goto isChecking w t (.sampling filled)
      have hnow : isChecking (.sampling filled) = 1 := rfl
      change y.decided + 1 = y.completed + y.lostChecks
        + inFlight isChecking (w.goto t (.sampling filled))
      omega
  · rw [if_neg hdue]
    simp only [hdue, decide_false] at hpaced ⊢
    refine ⟨count_healthy h.healthy bytes, hpaced,
      drawn_update h.drawn (fun _ _ hidle => by cases hidle), ?_, ?_⟩
    · have hsum := inFlight_finish heldBytes w t (.ok filled)
      have hidle : heldBytes .idle = 0 := rfl
      have hreturned := returnedBytes_finish_ok w t filled
      change y.counted + bytes = returnedBytes (w.finish t (.ok filled)) + y.lostBytes
        + inFlight heldBytes (w.finish t (.ok filled))
      omega
    · have hsum := inFlight_finish isChecking w t (.ok filled)
      have hidle : isChecking .idle = 0 := rfl
      change y.decided + 0 = y.completed + y.lostChecks
        + inFlight isChecking (w.finish t (.ok filled))
      omega

/-- A refused sample takes the output with it. -/
theorem Balanced.lose {filled : Bytes} {e : Fault CryptoError} (h : Balanced w y)
    (hphase : w.threads t = .sampling filled) :
    Balanced (w.finish t (.error e))
      { y with lostChecks := y.lostChecks + 1, lostBytes := y.lostBytes + filled.length } where
  healthy := h.healthy
  paced := ⟨h.paced.generated, h.paced.below, h.paced.seldom, h.paced.often⟩
  drawn := drawn_update h.drawn fun _ _ hidle => by cases hidle
  bytes := by
    have hsum := inFlight_finish heldBytes w t (.error e)
    have hheld : heldBytes (w.threads t) = filled.length := by rw [hphase]; rfl
    have hidle : heldBytes .idle = 0 := rfl
    have hreturned := returnedBytes_finish_error w t e
    have hbooks := h.bytes
    dsimp only
    omega
  checks := by
    have hsum := inFlight_finish isChecking w t (.error e)
    have hcheck : isChecking (w.threads t) = 1 := by rw [hphase]; rfl
    have hidle : isChecking .idle = 0 := rfl
    have hbooks := h.checks
    dsimp only
    omega

/-- A stored result ends its check, and the output is returned. -/
theorem Balanced.store {filled : Bytes} {passed : Bool} {number : Nat} (h : Balanced w y)
    (hphase : w.threads t = .storing filled passed number) :
    Balanced ((w.checked number (w.oracle.store passed).2).finish t (.ok filled))
      { y with completed := y.completed + 1 } := by
  have hpaced : Paced (w.oracle.store passed).2.state.value y := by
    rw [store_eq h.healthy]
    exact ⟨h.paced.generated, h.paced.below, h.paced.seldom, h.paced.often⟩
  refine ⟨store_healthy h.healthy passed,
    ⟨hpaced.generated, hpaced.below, hpaced.seldom, hpaced.often⟩,
    drawn_update h.drawn (fun _ _ hidle => by cases hidle), ?_, ?_⟩
  · have hsum := inFlight_finish heldBytes w t (.ok filled)
    have hheld : heldBytes (w.threads t) = filled.length := by rw [hphase]; rfl
    have hidle : heldBytes .idle = 0 := rfl
    have hreturned := returnedBytes_finish_ok w t filled
    have hbooks := h.bytes
    change y.counted = returnedBytes (w.finish t (.ok filled)) + y.lostBytes
      + inFlight heldBytes (w.finish t (.ok filled))
    omega
  · have hsum := inFlight_finish isChecking w t (.ok filled)
    have hcheck : isChecking (w.threads t) = 1 := by rw [hphase]; rfl
    have hidle : isChecking .idle = 0 := rfl
    have hbooks := h.checks
    change y.decided = y.completed + 1 + y.lostChecks
      + inFlight isChecking (w.finish t (.ok filled))
    omega

/-- **Every step of a thread keeps the books balanced.** -/
theorem balanced_advance {sha : Sha256} (sources : Sources) (h : Balanced w y) :
    Balanced (w.advance sha sources t) (y.audit sources w t) := by
  cases hphase : w.threads t with
  | idle =>
    rw [advance_idle sha sources hphase, Tally.audit, hphase]
    exact h
  | drawing buf =>
    have hheld : heldBytes (w.threads t) = 0 := by rw [hphase]; rfl
    have hcheck : isChecking (w.threads t) = 0 := by rw [hphase]; rfl
    rw [Tally.audit, hphase]
    dsimp only
    by_cases hbuf : buf = []
    · subst hbuf
      rw [advance_drawing_empty sha sources hphase]
      exact h.finish hheld hcheck (returnedBytes_finish_ok w t [])
    · rw [advance_drawing sha sources hphase hbuf]
      cases hdraw : w.oracle.drawOutput sha sources buf with
      | error e => exact h.finish hheld hcheck (returnedBytes_finish_error w t e)
      | ok filled =>
        refine h.goto hheld.symm hcheck.symm fun bytes filled' hnew => ?_
        cases hnew
        -- what is drawn is as long as the buffer
        obtain ⟨raw, -, hcondition⟩ := bind_eq_ok.mp hdraw
        exact (condition_ok hcondition).1
  | counting bytes filled =>
    rw [advance_counting sha sources hphase h.healthy, Tally.audit, hphase]
    exact h.count hphase
  | sampling filled =>
    rw [advance_sampling sha sources hphase, Tally.audit, hphase]
    dsimp only
    cases w.oracle.checkSample sources with
    | error e => exact h.lose hphase
    | ok passed =>
      have hsampled : Balanced (w.sampled passed) y :=
        ⟨h.healthy, h.paced, h.drawn, h.bytes, h.checks⟩
      refine hsampled.goto ?_ ?_ fun _ _ hnew => by cases hnew
      · change filled.length = heldBytes (w.threads t)
        rw [hphase]
        rfl
      · change 1 = isChecking (w.threads t)
        rw [hphase]
        rfl
  | storing filled passed number =>
    rw [advance_storing sha sources hphase h.healthy, Tally.audit, hphase]
    exact h.store hphase

end Steps

theorem balanced_audited {sha : Sha256} {guard : FillWorld T → T → Prop}
    {trng : Option (List UInt64)} {osPool : Bool} {first : Sources} {oracle : EntropyOracle}
    (hinit : EntropyOracle.init trng osPool first = .ok oracle) {w : FillWorld T} {y : Tally}
    (h : Audited sha guard (start oracle) w y) : Balanced w y := by
  induction h with
  | start =>
    obtain ⟨hhealthy, hsince, -⟩ := init_eq_ok hinit
    exact balanced_start hhealthy (init_counters hinit).2.2 hsince
  | fill t buf _ hidle ih =>
    refine ih.goto ?_ ?_ fun _ _ hnew => by cases hnew
    · rw [hidle]
      rfl
    · rw [hidle]
      rfl
  | advance sources t _ _ ih => exact balanced_advance sources ih

end Audit

section Totals

variable {T : Type} [Fintype T] [DecidableEq T]

/--
**Every byte is accounted for.**

In every run of any number of threads on an initialised oracle, `bytes_generated` is the
number of bytes counted, as far as its word goes, and it is what `health` reports. Each
byte counted was returned by a call, was lost with a refused sample, or is in the hands
of a thread; at rest, only the first two.
-/
theorem bytes_accounted {sha : Sha256} {guard : FillWorld T → T → Prop}
    {trng : Option (List UInt64)} {osPool : Bool} {first : Sources} {oracle : EntropyOracle}
    (hinit : EntropyOracle.init trng osPool first = .ok oracle) {w : FillWorld T} {y : Tally}
    (hrun : Audited sha guard (start oracle) w y) :
    w.oracle.state.value.bytesGenerated = min y.counted (2 ^ 64 - 1)
      ∧ w.oracle.health.bytesGenerated = min y.counted (2 ^ 64 - 1)
      ∧ y.counted = returnedBytes w + y.lostBytes + inFlight heldBytes w
      ∧ ((∀ t, w.threads t = .idle) → y.counted = returnedBytes w + y.lostBytes) := by
  have h := balanced_audited hinit hrun
  refine ⟨h.paced.generated, ?_, h.bytes, fun hidle => ?_⟩
  · rw [health, lock_eq_ok.mpr ⟨h.healthy, rfl⟩]
    exact h.paced.generated
  · have hrest := inFlight_rest (f := heldBytes) rfl hidle
    have hbooks := h.bytes
    omega

/--
**One check for ten thousand bytes.**

In every run of any number of threads, whatever the calls ask for: a check is decided on
after ten thousand bytes at the earliest, and not later than with the call that completes
them. Each check decided on was completed, was lost with a refused sample, or is under
way; at rest, only the first two.
-/
theorem checks_paced {sha : Sha256} {guard : FillWorld T → T → Prop}
    {trng : Option (List UInt64)} {osPool : Bool} {first : Sources} {oracle : EntropyOracle}
    (hinit : EntropyOracle.init trng osPool first = .ok oracle) {w : FillWorld T} {y : Tally}
    (hrun : Audited sha guard (start oracle) w y) :
    w.oracle.state.value.bytesSinceLastCheck < 10000
      ∧ 10000 * y.decided + w.oracle.state.value.bytesSinceLastCheck ≤ y.counted
      ∧ y.counted ≤ y.decided * (9999 + y.largest) + w.oracle.state.value.bytesSinceLastCheck
      ∧ y.decided = y.completed + y.lostChecks + inFlight isChecking w
      ∧ ((∀ t, w.threads t = .idle) → y.decided = y.completed + y.lostChecks) := by
  have h := balanced_audited hinit hrun
  refine ⟨h.paced.below, h.paced.seldom, h.paced.often, h.checks, fun hidle => ?_⟩
  have hrest := inFlight_rest (f := isChecking) rfl hidle
  have hbooks := h.checks
  omega

end Totals

/-! ## A run -/

section Busy

variable {T : Type} [DecidableEq T] {sha : Sha256} {first w : FillWorld T} {y : Tally} {t : T}

/-- A call that makes a check due, up to its sample. -/
theorem audited_sampling (hrun : Audited sha (fun _ _ => True) first w y)
    (hhealthy : w.oracle.state.poisoned = false) (hidle : w.threads t = .idle) {n : Nat}
    (hdue : 10000 ≤ n) (hn : n < 2 ^ 63) :
    ∃ w' filled, filled.length = n ∧ Audited sha (fun _ _ => True) first w' (y.count n true)
      ∧ w'.oracle.state.poisoned = false
      ∧ w'.threads = Function.update w.threads t (.sampling filled) := by
  obtain ⟨buf, rfl⟩ : ∃ buf : Bytes, buf.length = n :=
    ⟨List.replicate n 0, List.length_replicate⟩
  have hbuf : buf ≠ [] := by
    intro hnil
    rw [hnil] at hdue
    cases hdue
  have hanswer : (flatSources 0).os buf.length = some (Vector.replicate buf.length 0) := rfl
  obtain ⟨filled, hdraw⟩ := drawOutput_answered sha hn hhealthy hanswer
  obtain ⟨raw, -, hcondition⟩ := bind_eq_ok.mp hdraw
  have hdrawing := Audited.advance (flatSources 0) t (.fill t buf hrun hidle) trivial
  have hdraw' : (w.goto t (.drawing buf)).oracle.drawOutput sha (flatSources 0) buf
      = .ok filled := hdraw
  rw [Tally.audit, goto_self, advance_drawing sha _ (goto_self ..) hbuf, hdraw'] at hdrawing
  dsimp only at hdrawing
  rw [goto_goto] at hdrawing
  have hdue' : 10000 ≤ w.oracle.state.value.bytesSinceLastCheck + buf.length := by omega
  have hcounting := Audited.advance (flatSources 0) t hdrawing trivial
  have hdue'' : 10000 ≤ (w.goto t (.counting buf.length
      filled)).oracle.state.value.bytesSinceLastCheck + buf.length := hdue'
  rw [Tally.audit, goto_self, advance_counting sha _ (goto_self ..) hhealthy] at hcounting
  dsimp only at hcounting
  rw [if_pos hdue'', decide_eq_true hdue'', counted_goto, goto_goto] at hcounting
  exact ⟨_, filled, (condition_ok hcondition).1, hcounting, count_healthy hhealthy _, rfl⟩

/-- Its sample is refused. -/
theorem audited_lost (hrun : Audited sha (fun _ _ => True) first w y)
    (hhealthy : w.oracle.state.poisoned = false) {filled : Bytes}
    (hphase : w.threads t = .sampling filled) :
    ∃ w', Audited sha (fun _ _ => True) first w' { y with
          lostChecks := y.lostChecks + 1, lostBytes := y.lostBytes + filled.length }
      ∧ w'.oracle.state.poisoned = false ∧ w'.threads = Function.update w.threads t .idle := by
  have hsampling := Audited.advance refusing t hrun trivial
  have hrefused : w.oracle.checkSample refusing = .error (.err .entropyUnavailable) :=
    checkSample_unavailable rfl
  rw [Tally.audit, hphase, advance_sampling sha _ hphase, hrefused] at hsampling
  exact ⟨_, hsampling, hhealthy, rfl⟩

/-- Its sample is answered, and the result stored. -/
theorem audited_stored (hrun : Audited sha (fun _ _ => True) first w y)
    (hhealthy : w.oracle.state.poisoned = false) {filled : Bytes}
    (hphase : w.threads t = .sampling filled) :
    ∃ w', Audited sha (fun _ _ => True) first w' { y with completed := y.completed + 1 }
      ∧ w'.oracle.state.poisoned = false ∧ w'.threads = Function.update w.threads t .idle := by
  have hsampling := Audited.advance (flatSources 0) t hrun trivial
  rw [Tally.audit, hphase, advance_sampling sha _ hphase, checkSample_flat hhealthy] at hsampling
  dsimp only at hsampling
  generalize monobitTest (List.replicate 1024 0) = passed at hsampling
  have hhealthy' : (w.sampled passed).oracle.state.poisoned = false := hhealthy
  have hstoring := Audited.advance (flatSources 0) t hsampling trivial
  rw [Tally.audit, goto_self,
    advance_storing (w := (w.sampled passed).goto t _) sha _ (goto_self ..) hhealthy'] at hstoring
  refine ⟨_, hstoring, store_healthy hhealthy _, ?_⟩
  exact Function.update_idem ..

end Busy

/-- Three calls of `n` bytes by two threads: one lost, one returned, and one under way. -/
theorem busy_run {n : Nat} (hdue : 10000 ≤ n) (hn : n < 2 ^ 63) :
    ∃ oracle, ∃ (w : FillWorld Bool) (y : Tally),
      EntropyOracle.init none true (flatSources 0) = .ok oracle
      ∧ Audited constantSha (fun _ _ => True) (start oracle) w y
      ∧ (y.counted = n + n + n ∧ y.lostBytes = n ∧ inFlight heldBytes w = n)
      ∧ (y.completed = 1 ∧ y.lostChecks = 1 ∧ inFlight isChecking w = 1) := by
  obtain ⟨oracle, hinit⟩ := init_flat 0
  have hstart := (init_eq_ok hinit).1
  have hbegin : Audited constantSha (fun _ _ => True) (start oracle : FillWorld Bool)
      (start oracle) Tally.blank := .start
  obtain ⟨w₁, filled₁, hlen₁, hrun₁, hhealthy₁, hthreads₁⟩ :=
    audited_sampling hbegin hstart
      (show (start oracle : FillWorld Bool).threads true = .idle from rfl) hdue hn
  obtain ⟨w₂, hrun₂, hhealthy₂, hthreads₂⟩ :=
    audited_lost (t := true) hrun₁ hhealthy₁ (by rw [hthreads₁]; rfl)
  obtain ⟨w₃, filled₃, hlen₃, hrun₃, hhealthy₃, hthreads₃⟩ :=
    audited_sampling (t := true) hrun₂ hhealthy₂ (by rw [hthreads₂]; rfl) hdue hn
  obtain ⟨w₄, hrun₄, hhealthy₄, hthreads₄⟩ :=
    audited_stored (t := true) hrun₃ hhealthy₃ (by rw [hthreads₃]; rfl)
  obtain ⟨w₅, filled₅, hlen₅, hrun₅, -, hthreads₅⟩ :=
    audited_sampling (t := false) hrun₄ hhealthy₄
      (by rw [hthreads₄, hthreads₃, hthreads₂, hthreads₁]; rfl) hdue hn
  have hidle : w₅.threads true = .idle := by
    rw [hthreads₅, hthreads₄]
    rfl
  have hbusy : w₅.threads false = .sampling filled₅ := by
    rw [hthreads₅]
    rfl
  refine ⟨oracle, w₅, _, hinit, hrun₅, ⟨?_, ?_, ?_⟩, rfl, rfl, ?_⟩
  · change 0 + n + n + n = n + n + n
    omega
  · change 0 + filled₁.length = n
    omega
  · rw [inFlight, Fintype.sum_bool, hidle, hbusy]
    change 0 + filled₅.length = n
    omega
  · rw [inFlight, Fintype.sum_bool, hidle, hbusy]
    rfl

theorem bytes_accounted_busy : ∃ oracle, ∃ (w : FillWorld Bool) (y : Tally),
    Audited constantSha (fun _ _ => True) (start oracle) w y
      ∧ (y.lostBytes = 10000 ∧ inFlight heldBytes w = 10000)
      ∧ w.oracle.health.bytesGenerated = 30000 ∧ returnedBytes w = 10000 := by
  obtain ⟨oracle, w, y, hinit, hrun, ⟨hcounted, hlost, hheld⟩, -⟩ :=
    busy_run (Nat.le_refl 10000) (by omega)
  obtain ⟨-, hhealth, hbooks, -⟩ := bytes_accounted hinit hrun
  rw [hcounted] at hhealth
  exact ⟨oracle, w, y, hrun, ⟨hlost, hheld⟩, hhealth, by omega⟩

theorem checks_paced_busy : ∃ oracle, ∃ (w : FillWorld Bool) (y : Tally),
    Audited constantSha (fun _ _ => True) (start oracle) w y
      ∧ (y.completed = 1 ∧ y.lostChecks = 1 ∧ inFlight isChecking w = 1)
      ∧ y.decided = 3 ∧ w.oracle.state.value.bytesSinceLastCheck = 0 := by
  obtain ⟨oracle, w, y, hinit, hrun, ⟨hcounted, -, -⟩, hchecks⟩ :=
    busy_run (Nat.le_refl 10000) (by omega)
  obtain ⟨-, hseldom, -, hbooks, -⟩ := checks_paced hinit hrun
  obtain ⟨hcompleted, hlost, hunderway⟩ := hchecks
  have hdecided : y.decided = 3 := by omega
  exact ⟨oracle, w, y, hrun, ⟨hcompleted, hlost, hunderway⟩, hdecided, by omega⟩

end Stegosafe.Proof
