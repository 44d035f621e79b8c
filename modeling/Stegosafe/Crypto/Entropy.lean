import Stegosafe.Crypto.Aead

/-!
# The entropy oracle

Every random byte of the program comes from `EntropyOracle.fill`: operating system
bytes, mixed with the words of a hardware generator if there is one, hashed in
counter mode. What the two sources answer is the environment's choice: `Sources`
holds one set of answers, and each draw of a call has its own.

A call touches the oracle's state in two critical sections, `count` and `store`; the
health sample is drawn between them, with the lock released. SHA-256 is a parameter:
any function to 32 bytes.
-/

namespace Stegosafe

open Checked Outcome

/-- SHA-256. -/
abbrev Sha256 := Bytes → Key

/-- Health status of the entropy oracle. -/
structure EntropyHealth where
  trngAvailable : Bool
  osPoolAvailable : Bool
  lastCheckPassed : Bool
  bytesGenerated : Nat
  deriving DecidableEq, Repr

/-- The oracle's mutable state; the two counters are 64-bit words. -/
structure OracleState where
  trngAvailable : Bool
  bytesGenerated : Nat
  lastCheckPassed : Bool
  bytesSinceLastCheck : Nat
  deriving DecidableEq, Repr

/-- Single source of truth for all randomness in the system. -/
structure EntropyOracle where
  osPoolAvailable : Bool
  state : Mutex OracleState

/-- What the sources answer one draw. -/
structure Sources where
  /-- `getrandom`, for the requested length. -/
  os : (n : Nat) → Option (Vector UInt8 n)
  /-- `RdRand::new`, and the words it yields before its reads fail. -/
  trng : Option (List UInt64)

/-! ## The hardware generator -/

/-- Three reads, not all identical. -/
def checkTrngAvailable (trng : Option (List UInt64)) : Bool :=
  match trng with
  | some (v1 :: v2 :: v3 :: _) => !(v1 == v2 && v2 == v3)
  | _ => false

/-- The end of `fillTrng`: the bytes that do not make a word. -/
def trngTail (buf : Bytes) (offset : Nat) (words : List UInt64) :
    Outcome CryptoError (Bool × Bytes) :=
  if offset < buf.length then
    match words with
    | [] => .ok (false, buf)
    | val :: _ => do
      let bytes := Words.toLe 8 val.toNat
      let remaining ← sub buf.length offset
      let chunk ← slice bytes 0 remaining
      let buf ← storeSlice buf offset buf.length chunk
      .ok (true, buf)
  else
    .ok (true, buf)

/-- The loop of `fillTrng`: whole words, from `offset` on. -/
def trngLoop (buf : Bytes) (offset : Nat) : List UInt64 → Outcome CryptoError (Bool × Bytes)
  | [] => do
    let stop ← add 64 offset 8
    if stop ≤ buf.length then .ok (false, buf) else trngTail buf offset []
  | val :: words => do
    let stop ← add 64 offset 8
    if stop ≤ buf.length then do
      let buf ← storeSlice buf offset stop (Words.toLe 8 val.toNat)
      trngLoop buf stop words
    else
      trngTail buf offset (val :: words)

/-- Fill a buffer from the hardware generator; whether all reads succeeded. -/
def fillTrng (buf : Bytes) (trng : Option (List UInt64)) : Outcome CryptoError (Bool × Bytes) :=
  match trng with
  | none => .ok (false, buf)
  | some words => trngLoop buf 0 words

/-- `*dst ^= *src`, as far as both go. -/
def xorInto (dst src : Bytes) : Bytes :=
  dst.zipWith (· ^^^ ·) src ++ dst.drop src.length

/-! ## Conditioning -/

/-- The variables of the loop of `condition`. -/
structure Conditioning where
  offset : Nat
  counter : Nat
  output : Bytes

/-- One round: a block of output, or what is left of one. -/
def Conditioning.round (sha : Sha256) (input : Bytes) (c : Conditioning) :
    Outcome CryptoError Conditioning := do
  let hash := sha (Words.toLe 8 c.counter ++ input)
  let remaining ← sub c.output.length c.offset
  let chunkLen := if remaining < 32 then remaining else 32
  let stop ← add 64 c.offset chunkLen
  let chunk ← slice hash.toList 0 chunkLen
  let output ← storeSlice c.output c.offset stop chunk
  let counter ← add 64 c.counter 1
  .ok { offset := stop, counter := counter, output := output }

/-- What a round that returns has done. -/
theorem Conditioning.round_eq_ok {sha : Sha256} {input : Bytes} {c c' : Conditioning}
    (h : c.round sha input = .ok c') :
    c'.offset = c.offset + min (c.output.length - c.offset) 32
      ∧ c'.counter = c.counter + 1
      ∧ storeSlice c.output c.offset c'.offset
          ((sha (Words.toLe 8 c.counter ++ input)).toList.take (c'.offset - c.offset))
          = (.ok c'.output : Outcome CryptoError Bytes) := by
  simp only [round, bind_eq_ok, sub_eq_ok, add_eq_ok, slice_eq_ok, List.drop_zero,
    Nat.sub_zero] at h
  obtain ⟨_, ⟨hle, rfl⟩, _, ⟨-, rfl⟩, _, ⟨-, rfl⟩, output, hstore, _, ⟨-, rfl⟩, heq⟩ := h
  cases heq
  have hmin : (if c.output.length - c.offset < 32 then c.output.length - c.offset else 32)
      = min (c.output.length - c.offset) 32 := by
    split <;> omega
  simp only [hmin] at hstore ⊢
  refine ⟨trivial, trivial, ?_⟩
  rw [Nat.add_sub_cancel_left]
  exact hstore

/-- A round leaves less to do. -/
theorem Conditioning.round_lt {sha : Sha256} {input : Bytes} {c c' : Conditioning}
    (hlt : c.offset < c.output.length) (h : c.round sha input = .ok c') :
    c'.output.length - c'.offset < c.output.length - c.offset := by
  obtain ⟨hoffset, -, hstore⟩ := round_eq_ok h
  rw [storeSlice_length hstore]
  omega

/-- The loop of `condition`. -/
def Conditioning.loop (sha : Sha256) (input : Bytes) (c : Conditioning) :
    Outcome CryptoError Bytes :=
  if _hlt : c.offset < c.output.length then
    match _h : c.round sha input with
    | .ok c' => loop sha input c'
    | .error e => .error e
  else
    .ok c.output
termination_by c.output.length - c.offset
decreasing_by exact round_lt ‹_› ‹_›

/-- Condition raw entropy through SHA-256 in counter mode. -/
def condition (sha : Sha256) (input output : Bytes) : Outcome CryptoError Bytes :=
  Conditioning.loop sha input { offset := 0, counter := 0, output := output }

/-! ## Health checks -/

/-- `count_ones`. -/
def countOnes (b : UInt8) : Nat := (List.range 8).countP fun i => b.toNat.testBit i

/--
NIST SP 800-22 monobit test, in exact arithmetic.

`z < 2.576`, with both sides squared.
-/
def monobitTest (data : Bytes) : Bool :=
  let ones := (data.map countOnes).sum
  let n := data.length * 8
  if n = 0 then
    false
  else
    decide ((2 * ones - n : Int) ^ 2 * 1000 ^ 2 < 2576 ^ 2 * n)

namespace EntropyOracle

/-! ## The oracle -/

/-- `state.lock()`. -/
def lock (oracle : EntropyOracle) : Outcome CryptoError OracleState :=
  if oracle.state.poisoned then fail .entropyUnavailable else .ok oracle.state.value

/-- The state a critical section leaves behind. -/
def withState (oracle : EntropyOracle) (state : OracleState) : EntropyOracle :=
  { oracle with state := { oracle.state with value := state } }

/-- Raw mixed entropy: hardware XOR operating system, or operating system only. -/
def fillRaw (oracle : EntropyOracle) (sources : Sources) (n : Nat) :
    Outcome CryptoError Bytes := do
  let os ← okOr (sources.os n) .entropyUnavailable
  let state ← oracle.lock
  if state.trngAvailable then do
    let (filled, trngBuf) ← fillTrng (List.replicate n 0) sources.trng
    .ok (if filled then xorInto os.toList trngBuf else os.toList)
  else
    .ok os.toList

/-- A sample of one kilobyte and its test. -/
def checkSample (oracle : EntropyOracle) (sources : Sources) : Outcome CryptoError Bool := do
  let sample ← oracle.fillRaw sources 1024
  .ok (monobitTest sample)

/-- The critical section that counts, and says whether a check is due. -/
def count (oracle : EntropyOracle) (bytes : Nat) : Outcome CryptoError Bool × EntropyOracle :=
  match oracle.lock with
  | .error e => (.error e, oracle)
  | .ok state =>
    let state := { state with
      bytesGenerated := satAdd 64 state.bytesGenerated bytes
      bytesSinceLastCheck := satAdd 64 state.bytesSinceLastCheck bytes }
    if state.bytesSinceLastCheck ≥ 10000 then
      (.ok true, oracle.withState { state with bytesSinceLastCheck := 0 })
    else
      (.ok false, oracle.withState state)

/-- The critical section that stores the result of a check. -/
def store (oracle : EntropyOracle) (passed : Bool) : Outcome CryptoError Unit × EntropyOracle :=
  match oracle.lock with
  | .error e => (.error e, oracle)
  | .ok state => (.ok (), oracle.withState { state with lastCheckPassed := passed })

/-- Update the byte counter and run the periodic health check. -/
def updateCounterAndCheck (oracle : EntropyOracle) (bytes : Nat) (sources : Sources) :
    Outcome CryptoError Unit × EntropyOracle :=
  match oracle.count bytes with
  | (.error e, oracle) => (.error e, oracle)
  | (.ok false, oracle) => (.ok (), oracle)
  | (.ok true, oracle) =>
    -- the counter has been reset, and the lock is free again
    match oracle.checkSample sources with
    | .error e => (.error e, oracle)
    | .ok passed => oracle.store passed

/-- The first half of `fill`: raw entropy, conditioned. -/
def drawOutput (sha : Sha256) (oracle : EntropyOracle) (sources : Sources) (buf : Bytes) :
    Outcome CryptoError Bytes := do
  let raw ← oracle.fillRaw sources buf.length
  condition sha raw buf

/-- Fill `buf` with random bytes; `output` and `sample` answer the two draws. -/
def fill (sha : Sha256) (oracle : EntropyOracle) (buf : Bytes) (output sample : Sources) :
    Outcome CryptoError Bytes × EntropyOracle :=
  if buf = [] then
    (.ok buf, oracle)
  else
    match oracle.drawOutput sha output buf with
    | .error e => (.error e, oracle)
    | .ok filled =>
      match oracle.updateCounterAndCheck buf.length sample with
      | (.error e, oracle) => (.error e, oracle)
      | (.ok (), oracle) => (.ok filled, oracle)

/--
Initialize the oracle, running startup health checks.

`trng` are the reads of the startup check of the hardware, `osPool` is whether the
operating system answered, `sample` answers the first health sample.
-/
def init (trng : Option (List UInt64)) (osPool : Bool) (sample : Sources) :
    Outcome CryptoError EntropyOracle :=
  if !osPool then
    fail .entropyUnavailable
  else
    let state : OracleState :=
      { trngAvailable := checkTrngAvailable trng, bytesGenerated := 0
        lastCheckPassed := true, bytesSinceLastCheck := 0 }
    let oracle : EntropyOracle :=
      { osPoolAvailable := osPool, state := { value := state, poisoned := false } }
    do
      let passed ← oracle.checkSample sample
      let (result, oracle) := oracle.store passed
      result
      .ok oracle

/-! ### The critical sections -/

theorem lock_eq_ok {oracle : EntropyOracle} {state : OracleState} :
    oracle.lock = .ok state ↔ oracle.state.poisoned = false ∧ oracle.state.value = state := by
  unfold lock
  cases oracle.state.poisoned <;> simp [fail]

/-- **The first critical section** counts, and resets the counter if a check is due. -/
theorem count_eq {oracle : EntropyOracle} (h : oracle.state.poisoned = false) (bytes : Nat) :
    oracle.count bytes
      = (.ok (decide (10000 ≤ oracle.state.value.bytesSinceLastCheck + bytes)),
          oracle.withState { oracle.state.value with
            bytesGenerated := satAdd 64 oracle.state.value.bytesGenerated bytes
            bytesSinceLastCheck :=
              if 10000 ≤ oracle.state.value.bytesSinceLastCheck + bytes then 0
              else oracle.state.value.bytesSinceLastCheck + bytes }) := by
  rw [count, lock_eq_ok.mpr ⟨h, rfl⟩]
  dsimp only
  by_cases hdue : 10000 ≤ oracle.state.value.bytesSinceLastCheck + bytes
  · -- saturating does not make a sum smaller than the threshold
    have hsat : satAdd 64 oracle.state.value.bytesSinceLastCheck bytes ≥ 10000 := by
      unfold satAdd
      omega
    rw [if_pos hsat, if_pos hdue, decide_eq_true hdue]
  · have hsat : satAdd 64 oracle.state.value.bytesSinceLastCheck bytes
        = oracle.state.value.bytesSinceLastCheck + bytes := by
      unfold satAdd
      omega
    rw [hsat, if_neg hdue, if_neg hdue, decide_eq_false hdue]

/-- **The second critical section** stores, and touches nothing else. -/
theorem store_eq {oracle : EntropyOracle} (h : oracle.state.poisoned = false) (passed : Bool) :
    oracle.store passed
      = (.ok (), oracle.withState { oracle.state.value with lastCheckPassed := passed }) := by
  rw [store, lock_eq_ok.mpr ⟨h, rfl⟩]

theorem count_healthy {oracle : EntropyOracle} (h : oracle.state.poisoned = false) (bytes : Nat) :
    (oracle.count bytes).2.state.poisoned = false := by
  rw [count_eq h]
  exact h

/-- **The two together**: what was counted is left behind whether or not the check completes. -/
theorem updateCounterAndCheck_eq {oracle : EntropyOracle} (h : oracle.state.poisoned = false)
    (bytes : Nat) (sources : Sources) :
    oracle.updateCounterAndCheck bytes sources
      = if 10000 ≤ oracle.state.value.bytesSinceLastCheck + bytes then
          match (oracle.count bytes).2.checkSample sources with
          | .error e => (.error e, (oracle.count bytes).2)
          | .ok passed => (.ok (), ((oracle.count bytes).2.store passed).2)
        else (.ok (), (oracle.count bytes).2) := by
  have hcount : oracle.count bytes
      = (.ok (decide (10000 ≤ oracle.state.value.bytesSinceLastCheck + bytes)),
          (oracle.count bytes).2) := by
    rw [count_eq h]
  rw [updateCounterAndCheck, hcount]
  by_cases hdue : 10000 ≤ oracle.state.value.bytesSinceLastCheck + bytes
  · rw [decide_eq_true hdue, if_pos hdue]
    dsimp only
    cases (oracle.count bytes).2.checkSample sources with
    | error e => rfl
    | ok passed =>
      dsimp only
      rw [store_eq (count_healthy h bytes)]
  · rw [decide_eq_false hdue, if_neg hdue]

/-- An initialised oracle: healthy, nothing counted, the first sample's result stored. -/
theorem init_eq_ok {trng : Option (List UInt64)} {osPool : Bool} {sample : Sources}
    {oracle : EntropyOracle} (h : init trng osPool sample = .ok oracle) :
    oracle.state.poisoned = false ∧ oracle.state.value.bytesSinceLastCheck = 0
      ∧ oracle.checkSample sample = .ok oracle.state.value.lastCheckPassed := by
  unfold init at h
  split at h
  · cases h
  · simp only [bind_eq_ok] at h
    obtain ⟨passed, hpassed, h⟩ := h
    rw [store_eq rfl] at h
    obtain ⟨_, -, h⟩ := h
    obtain rfl := Except.ok.inj h
    -- a sample depends on the lock and on the hardware, which storing leaves alone
    exact ⟨rfl, rfl, hpassed⟩

/-- Its counters start at zero. -/
theorem init_counters {trng : Option (List UInt64)} {osPool : Bool} {sample : Sources}
    {oracle : EntropyOracle} (h : init trng osPool sample = .ok oracle) :
    oracle.osPoolAvailable = true ∧ oracle.state.value.trngAvailable = checkTrngAvailable trng
      ∧ oracle.state.value.bytesGenerated = 0 := by
  cases osPool with
  | false => cases h
  | true =>
    obtain ⟨passed, -, h⟩ := bind_eq_ok.mp h
    rw [store_eq rfl] at h
    cases h
    exact ⟨rfl, rfl, rfl⟩

/-- Report health status. -/
def health (oracle : EntropyOracle) : EntropyHealth :=
  match oracle.lock with
  | .ok state =>
    { trngAvailable := state.trngAvailable, osPoolAvailable := oracle.osPoolAvailable
      lastCheckPassed := state.lastCheckPassed, bytesGenerated := state.bytesGenerated }
  | .error _ =>
    { trngAvailable := false, osPoolAvailable := oracle.osPoolAvailable
      lastCheckPassed := false, bytesGenerated := 0 }

end EntropyOracle

end Stegosafe
