import Stegosafe.Proof.Health

/-!
# Health checks fail open

A failed health check is recorded and nothing else: generation goes on. So the results
of the samples can be exchanged for any others without a run noticing. `relabel` is the
exchange on a whole world, and every step of a thread commutes with it: a draw of a
sample is answered otherwise, and all other answers stay.
-/

namespace Stegosafe.Proof

open Stegosafe Checked Outcome EntropyOracle FillWorld

/-- The phase of a thread, with another result of its sample. -/
def relabelPhase (verdicts : Nat → Bool) : FillPhase → FillPhase
  | .storing filled _ number => .storing filled (verdicts number) number
  | phase => phase

/-- The oracle, with another status. -/
def relabelOracle (passed : Bool) (oracle : EntropyOracle) : EntropyOracle :=
  oracle.withState { oracle.state.value with lastCheckPassed := passed }

section Oracle

variable (passed : Bool) (oracle : EntropyOracle) (sources : Sources)

/-- What is drawn does not depend on the status. -/
theorem fillRaw_relabel (n : Nat) :
    (relabelOracle passed oracle).fillRaw sources n = oracle.fillRaw sources n := by
  obtain ⟨osPool, ⟨state, poisoned⟩⟩ := oracle
  cases poisoned with
  | false => rfl
  | true => rfl

theorem drawOutput_relabel (sha : Sha256) (buf : Bytes) :
    (relabelOracle passed oracle).drawOutput sha sources buf
      = oracle.drawOutput sha sources buf := by
  rw [drawOutput, drawOutput, fillRaw_relabel]

theorem checkSample_relabel :
    (relabelOracle passed oracle).checkSample sources = oracle.checkSample sources := by
  rw [checkSample, checkSample, fillRaw_relabel]

/-- Counting neither reads nor writes it. -/
theorem count_relabel (h : oracle.state.poisoned = false) (bytes : Nat) :
    ((relabelOracle passed oracle).count bytes).2
      = relabelOracle passed (oracle.count bytes).2 := by
  have h' : (relabelOracle passed oracle).state.poisoned = false := h
  rw [count_eq h, count_eq h']
  rfl

/-- Storing overwrites it. -/
theorem store_relabel (h : oracle.state.poisoned = false) (stored result : Bool) :
    ((relabelOracle passed oracle).store result).2
      = relabelOracle result (oracle.store stored).2 := by
  have h' : (relabelOracle passed oracle).state.poisoned = false := h
  rw [store_eq h, store_eq h']
  rfl

/-- There are answers for both results of a sample. -/
theorem checkSample_any (h : oracle.state.poisoned = false) :
    ∃ sources, oracle.checkSample sources = .ok passed := by
  cases passed with
  | true => exact ⟨flatSources 15, by rw [checkSample_flat h, monobitTest_even]⟩
  | false => exact ⟨flatSources 0, by rw [checkSample_flat h, monobitTest_zero]⟩

end Oracle

section World

variable {T : Type} {verdicts : Nat → Bool}

/-- The world, with `verdicts` for the results of its samples. -/
def relabel (verdicts : Nat → Bool) (w : FillWorld T) : FillWorld T :=
  { w with
    oracle := relabelOracle (verdicts (w.stored - 1)) w.oracle
    threads := fun t => relabelPhase verdicts (w.threads t)
    samples := (List.range w.samples.length).map verdicts }

theorem relabel_start {oracle : EntropyOracle}
    (h : verdicts 0 = oracle.state.value.lastCheckPassed) :
    relabel verdicts (start oracle : FillWorld T) = start oracle := by
  have hsamples : (List.range 1).map verdicts = [oracle.state.value.lastCheckPassed] := by
    rw [← h]
    rfl
  have horacle : relabelOracle (verdicts 0) oracle = oracle := by
    rw [h]
    rfl
  change FillWorld.mk (relabelOracle (verdicts 0) oracle) _ _ ((List.range 1).map verdicts) _ _ = _
  rw [hsamples, horacle]
  rfl

variable [DecidableEq T]

theorem relabel_goto (w : FillWorld T) (t : T) (phase : FillPhase) :
    relabel verdicts (w.goto t phase)
      = (relabel verdicts w).goto t (relabelPhase verdicts phase) := by
  have hthreads : (fun u => relabelPhase verdicts (Function.update w.threads t phase u))
      = Function.update (fun u => relabelPhase verdicts (w.threads u)) t
          (relabelPhase verdicts phase) :=
    Function.comp_update (relabelPhase verdicts) w.threads t phase
  unfold relabel goto
  dsimp only
  rw [hthreads]

theorem relabel_finish (w : FillWorld T) (t : T) (result : Outcome CryptoError Bytes) :
    relabel verdicts (w.finish t result) = (relabel verdicts w).finish t result := by
  have hgoto : relabel verdicts (w.goto t .idle) = (relabel verdicts w).goto t .idle :=
    relabel_goto w t .idle
  exact congrArg (fun v : FillWorld T => { v with returned := w.returned ++ [result] }) hgoto

omit [DecidableEq T] in
theorem relabel_counted {w : FillWorld T} (h : w.oracle.state.poisoned = false) (bytes : Nat) :
    relabel verdicts (w.counted bytes (w.oracle.count bytes).2)
      = (relabel verdicts w).counted bytes ((relabel verdicts w).oracle.count bytes).2 := by
  have hcount := count_relabel (verdicts (w.stored - 1)) w.oracle h bytes
  unfold counted relabel
  rw [hcount]

omit [DecidableEq T] in
theorem relabel_sampled (w : FillWorld T) (passed : Bool) :
    relabel verdicts (w.sampled passed)
      = (relabel verdicts w).sampled (verdicts w.samples.length) := by
  have hsamples : (List.range (w.samples ++ [passed]).length).map verdicts
      = (List.range w.samples.length).map verdicts ++ [verdicts w.samples.length] := by
    rw [List.length_append, List.length_singleton, List.range_succ, List.map_append,
      List.map_singleton]
  unfold sampled relabel
  rw [hsamples]

omit [DecidableEq T] in
theorem relabel_checked {w : FillWorld T} (h : w.oracle.state.poisoned = false) (passed : Bool)
    (number : Nat) :
    relabel verdicts (w.checked number (w.oracle.store passed).2)
      = (relabel verdicts w).checked number
          ((relabel verdicts w).oracle.store (verdicts number)).2 := by
  have hstore := store_relabel (verdicts (w.stored - 1)) w.oracle h passed (verdicts number)
  unfold checked relabel
  rw [hstore]
  rfl

/-- **A step and its relabelled twin**, phase by phase. -/
theorem relabel_advance (sha : Sha256) (sources : Sources) {w : FillWorld T}
    (h : w.oracle.state.poisoned = false) (t : T) :
    ∃ sources', relabel verdicts (w.advance sha sources t)
      = (relabel verdicts w).advance sha sources' t := by
  have h' : (relabel verdicts w).oracle.state.poisoned = false := h
  cases hphase : w.threads t with
  | idle =>
    have hphase' : (relabel verdicts w).threads t = .idle := congrArg (relabelPhase verdicts) hphase
    refine ⟨sources, ?_⟩
    rw [advance_idle sha sources hphase, advance_idle sha sources hphase']
  | drawing buf =>
    have hphase' : (relabel verdicts w).threads t = .drawing buf :=
      congrArg (relabelPhase verdicts) hphase
    refine ⟨sources, ?_⟩
    by_cases hbuf : buf = []
    · subst hbuf
      rw [advance_drawing_empty sha sources hphase, advance_drawing_empty sha sources hphase',
        relabel_finish]
    · have hdraw : (relabel verdicts w).oracle.drawOutput sha sources buf
          = w.oracle.drawOutput sha sources buf := drawOutput_relabel ..
      rw [advance_drawing sha sources hphase hbuf, advance_drawing sha sources hphase' hbuf, hdraw]
      cases w.oracle.drawOutput sha sources buf with
      | ok filled => exact relabel_goto ..
      | error e => exact relabel_finish ..
  | counting bytes filled =>
    have hphase' : (relabel verdicts w).threads t = .counting bytes filled :=
      congrArg (relabelPhase verdicts) hphase
    refine ⟨sources, ?_⟩
    rw [advance_counting sha sources hphase h, advance_counting sha sources hphase' h',
      ← relabel_counted h]
    -- the counter is the same, so is the decision
    change relabel verdicts (if 10000 ≤ w.oracle.state.value.bytesSinceLastCheck + bytes then _
      else _) = if 10000 ≤ w.oracle.state.value.bytesSinceLastCheck + bytes then _ else _
    split
    · exact relabel_goto ..
    · exact relabel_finish ..
  | sampling filled =>
    have hphase' : (relabel verdicts w).threads t = .sampling filled :=
      congrArg (relabelPhase verdicts) hphase
    rw [advance_sampling sha sources hphase]
    cases hsample : w.oracle.checkSample sources with
    | error e =>
      refine ⟨sources, ?_⟩
      have hsample' : (relabel verdicts w).oracle.checkSample sources = .error e :=
        (checkSample_relabel ..).trans hsample
      rw [advance_sampling sha sources hphase', hsample']
      exact relabel_finish ..
    | ok passed =>
      -- the only draw that is answered otherwise
      obtain ⟨sources', hother⟩ :=
        checkSample_any (verdicts w.samples.length) (relabel verdicts w).oracle h'
      refine ⟨sources', ?_⟩
      have hnumber : (relabel verdicts w).samples.length = w.samples.length := by
        change ((List.range w.samples.length).map verdicts).length = w.samples.length
        rw [List.length_map, List.length_range]
      rw [advance_sampling sha sources' hphase', hother]
      dsimp only
      rw [relabel_goto, relabel_sampled, hnumber]
      rfl
  | storing filled passed number =>
    have hphase' : (relabel verdicts w).threads t = .storing filled (verdicts number) number :=
      congrArg (relabelPhase verdicts) hphase
    refine ⟨sources, ?_⟩
    rw [advance_storing sha sources hphase h, advance_storing sha sources hphase' h',
      relabel_finish, relabel_checked h]

/-- No step poisons the lock. -/
theorem advance_healthy (sha : Sha256) (sources : Sources) {w : FillWorld T}
    (h : w.oracle.state.poisoned = false) (t : T) :
    (w.advance sha sources t).oracle.state.poisoned = false := by
  cases hphase : w.threads t with
  | idle =>
    rw [advance_idle sha sources hphase]
    exact h
  | drawing buf =>
    by_cases hbuf : buf = []
    · subst hbuf
      rw [advance_drawing_empty sha sources hphase]
      exact h
    · rw [advance_drawing sha sources hphase hbuf]
      cases w.oracle.drawOutput sha sources buf with
      | ok filled => exact h
      | error e => exact h
  | counting bytes filled =>
    rw [advance_counting sha sources hphase h]
    split
    · exact count_healthy h bytes
    · exact count_healthy h bytes
  | sampling filled =>
    rw [advance_sampling sha sources hphase]
    cases w.oracle.checkSample sources with
    | ok passed => exact h
    | error e => exact h
  | storing filled passed number =>
    rw [advance_storing sha sources hphase h]
    exact store_healthy h passed

/-- Every interleaving: no restriction on who advances. -/
abbrev Free : FillWorld T → T → Prop := fun _ _ => True

/-- **A run and its relabelled twin.** -/
theorem relabel_steps {sha : Sha256} {oracle : EntropyOracle} {w : FillWorld T}
    (hhealthy : oracle.state.poisoned = false)
    (hfirst : verdicts 0 = oracle.state.value.lastCheckPassed)
    (h : Steps sha Free (start oracle) w) :
    w.oracle.state.poisoned = false ∧ Steps sha Free (start oracle) (relabel verdicts w) := by
  induction h with
  | refl =>
    rw [relabel_start hfirst]
    exact ⟨hhealthy, .refl⟩
  | @tail w w' _ hs ih =>
    obtain ⟨hlock, hrun⟩ := ih
    cases hs with
    | fill t buf hidle =>
      refine ⟨hlock, ?_⟩
      rw [relabel_goto]
      exact hrun.tail (.fill t buf (congrArg (relabelPhase verdicts) hidle))
    | advance sources t _ =>
      refine ⟨advance_healthy sha sources hlock t, ?_⟩
      obtain ⟨sources', htwin⟩ : ∃ sources', relabel verdicts (w.advance sha sources t)
          = (relabel verdicts w).advance sha sources' t := relabel_advance sha sources hlock t
      rw [htwin]
      exact hrun.tail (.advance sources' t trivial)

/--
**Health checks fail open.**

For every run of any number of threads on an initialised oracle, and any results of the
health samples after the first, there is a run with these results that returns the same
outputs in the same order, counts the same bytes, draws and stores the same samples, and
has the same calls in progress, each where it is in the first run. The status is the result
of the sample stored last.
-/
theorem fail_open {sha : Sha256} {trng : Option (List UInt64)} {osPool : Bool} {first : Sources}
    {oracle : EntropyOracle} (hinit : EntropyOracle.init trng osPool first = .ok oracle)
    {w : FillWorld T} (hrun : Steps sha Free (start oracle) w) (verdicts : Nat → Bool)
    (hfirst : verdicts 0 = oracle.state.value.lastCheckPassed) :
    ∃ w', Steps sha Free (start oracle) w'
      ∧ w'.returned = w.returned
      ∧ w'.oracle.state.value.bytesGenerated = w.oracle.state.value.bytesGenerated
      ∧ w'.oracle.state.value.bytesSinceLastCheck = w.oracle.state.value.bytesSinceLastCheck
      ∧ w'.samples = (List.range w.samples.length).map verdicts
      ∧ w'.stored = w.stored
      ∧ w'.oracle.health.lastCheckPassed = verdicts (w.stored - 1)
      ∧ ∀ t, w'.threads t = relabelPhase verdicts (w.threads t) := by
  obtain ⟨hlock, htwin⟩ := relabel_steps (init_eq_ok hinit).1 hfirst hrun
  refine ⟨relabel verdicts w, htwin, rfl, rfl, rfl, rfl, rfl, ?_, fun _ => rfl⟩
  have hstate : (relabel verdicts w).oracle.lock = .ok (relabel verdicts w).oracle.state.value :=
    lock_eq_ok.mpr ⟨hlock, rfl⟩
  rw [health, hstate]
  rfl

end World

/-- A check that passed might as well have failed. -/
theorem fail_open_check : ∃ oracle, ∃ w w' : FillWorld Unit,
    EntropyOracle.init none true (flatSources 15) = .ok oracle
      ∧ w.samples = [oracle.state.value.lastCheckPassed, true]
      ∧ w'.samples = [oracle.state.value.lastCheckPassed, false]
      ∧ w'.returned = w.returned := by
  obtain ⟨oracle, hinit⟩ := init_flat 15
  obtain ⟨w, filled, hrun, -, hsamples, -⟩ :=
    check_reached constantSha (init_eq_ok hinit).1
      (show (start oracle : FillWorld Unit).threads () = .idle from rfl) monobitTest_even
  obtain ⟨w', -, hreturned, -, -, hsamples', -⟩ := fail_open hinit (steps_any hrun)
    (fun k => if k = 0 then oracle.state.value.lastCheckPassed else false) rfl
  refine ⟨oracle, w, w', hinit, hsamples, ?_, hreturned⟩
  rw [hsamples', hsamples]
  rfl

end Stegosafe.Proof
