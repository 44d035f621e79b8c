import Stegosafe.Cli.Live
import Stegosafe.Proof.Health
import Stegosafe.Proof.Reference

/-!
# The program and its commands on given answers

The commands of `Cli.Main` are given the answers to their draws; `main` makes the draws
on one oracle. The two agree (`main_answers`): a command that runs on a machine is the
command on the answers of successive draws, each on the oracle the one before left
behind. A command draws so little that the oracle only ever counts
(`command_draws`): its status is still that of the startup check.
-/

namespace Stegosafe.Proof

open Stegosafe Checked Outcome Stateful EntropyOracle

/-! ## Answers -/

section Answers

variable {α : Type} {sha : Sha256} {oracle : EntropyOracle} {n : Nat} {draw : Draw}

/-- The answer to a draw that does not panic. -/
def answerOf : Outcome CryptoError α → Except CryptoError α
  | .ok a => .ok a
  | .error (.err e) => .error e
  | .error (.panic _) => .error .entropyUnavailable

theorem returned_answerOf {x : Outcome CryptoError α} (h : Returns x) :
    returned (answerOf x) = x := by
  cases x with
  | ok a => rfl
  | error e =>
    obtain ⟨e', rfl⟩ := h.error rfl
    rfl

theorem fillArray_fst : ((fillArray sha n draw).run oracle).1
    = (oracle.fill sha (List.replicate n 0) draw.output draw.sample).1 >>= fun buf =>
        .ok (Vector.ofFn fun i => buf.getD i 0) := bind_fst rfl fun _ _ => rfl

/-- Filling an array does not panic. -/
theorem fillArray_returns (hn : n < 2 ^ 63) : Returns ((fillArray sha n draw).run oracle).1 := by
  rw [fillArray_fst]
  exact Returns.bind (fill_returns (by rwa [List.length_replicate])) fun _ _ => returns_ok _

theorem fillArray_answer (sha : Sha256) (draw : Draw) (oracle : EntropyOracle)
    (hn : n < 2 ^ 63) :
    returned (answerOf ((fillArray sha n draw).run oracle).1)
      = ((fillArray sha n draw).run oracle).1 := returned_answerOf (fillArray_returns hn)

theorem init_returns (startup : Startup) : Returns startup.init := by
  unfold Startup.init EntropyOracle.init
  split
  · exact returns_fail _
  · refine Returns.bind checkSample_returns fun passed _ => ?_
    rw [store_eq rfl]
    exact returns_ok _

end Answers

/-! ## The draws of a command -/

section Draws

variable (sha : Sha256) (draw : Draw) (oracle : EntropyOracle)

theorem generateSessionNonce_fst :
    ((generateSessionNonce (fillArray sha 12 draw)).run oracle).1
      = generateSessionNonce (returned (answerOf ((fillArray sha 12 draw).run oracle).1)) := by
  rw [fillArray_answer sha draw oracle (show 12 < 2 ^ 63 by decide)]
  refine bind_fst rfl fun nonce _ => ?_
  split
  · rfl
  · rfl

theorem generateKdfMetadata_fst :
    ((generateKdfMetadata (fillArray sha argon2SaltLen draw)).run oracle).1
      = generateKdfMetadata
          (returned (answerOf ((fillArray sha argon2SaltLen draw).run oracle).1)) := by
  rw [fillArray_answer sha draw oracle (show argon2SaltLen < 2 ^ 63 by decide)]
  exact bind_fst rfl fun _ _ => rfl

/-- Both leave the oracle behind as their draw does. -/
theorem generateSessionNonce_snd :
    ((generateSessionNonce (fillArray sha 12 draw)).run oracle).2
      = ((fillArray sha 12 draw).run oracle).2 := by
  refine bind_snd fun nonce oracle => ?_
  split
  · rfl
  · rfl

theorem generateKdfMetadata_snd :
    ((generateKdfMetadata (fillArray sha argon2SaltLen draw)).run oracle).2
      = ((fillArray sha argon2SaltLen draw).run oracle).2 := bind_snd fun _ _ => rfl

end Draws

/-! ## A command on a machine -/

section Machine

variable {F : Type} [Scalar F] {crates : Crates} {sha : Sha256}

/-- What an `embed` command draws from an initialised oracle. -/
def embedAnswers (sha : Sha256) (m : EmbedMachine) (oracle : EntropyOracle) : EmbedEnv :=
  let sessionNonce := (fillArray sha 12 m.sessionNonce).run oracle
  let salt := (fillArray sha argon2SaltLen m.salt).run sessionNonce.2
  let nonceBase := (fillArray sha 8 m.nonceBase).run salt.2
  { m.toEmbedSystem with
    entropy := .ok ()
    sessionNonce := answerOf sessionNonce.1
    salt := answerOf salt.1
    nonceBase := answerOf nonceBase.1 }

/-- What an `embed` command meets on a machine. -/
def embedEnv (sha : Sha256) (m : EmbedMachine) : EmbedEnv :=
  match m.startup.init with
  | .ok oracle => embedAnswers sha m oracle
  | .error e =>
    { m.toEmbedSystem with
      entropy := answerOf (.error e)
      sessionNonce := .error .entropyUnavailable
      salt := .error .entropyUnavailable
      nonceBase := .error .entropyUnavailable }

/-- What an `extract` command meets on a machine. -/
def extractEnv (sha : Sha256) (m : ExtractMachine) : ExtractEnv :=
  { m.toExtractSystem with
    entropy := answerOf (m.startup.init >>= fun _ => .ok ())
    nonceBase := match m.startup.init with
      | .ok oracle => answerOf ((fillArray sha 8 m.nonceBase).run oracle).1
      | .error _ => .error .entropyUnavailable }

/-- The system does not depend on the sources. -/
theorem embedEnv_system (sha : Sha256) (m : EmbedMachine) :
    (embedEnv sha m).toEmbedSystem = m.toEmbedSystem := by
  unfold embedEnv
  cases m.startup.init with
  | ok oracle => rfl
  | error e => rfl

/-- What a derivation returns, in the CLI's words. -/
theorem sessionKeys_fst (rootKey : Key) (sessionNonce : Nonce) (draw : Draw)
    (oracle : EntropyOracle) :
    ((inContext "failed to derive session keys" (Computes.mapErr .crypto
        (deriveSessionKeys crates.toKdfCrates rootKey.toList sessionNonce
          (fillArray sha 8 draw)))).run oracle).1
      = withContext "failed to derive session keys" (mapErr .crypto
          (deriveSessionKeys crates.toKdfCrates rootKey.toList sessionNonce
            (returned (answerOf ((fillArray sha 8 draw).run oracle).1)))) := by
  rw [fillArray_answer sha draw oracle (show 8 < 2 ^ 63 by decide), ← deriveSessionKeys_fst]
  rfl

/-- **What `embed` computes on an oracle** is what it computes on the answers. -/
theorem embedPrepare_fst (m : EmbedMachine) (args : EmbedArgs) (disk : Disk)
    (oracle : EntropyOracle) :
    ((Live.embedPrepare F crates sha m args disk).run oracle).1
      = embedPrepare F crates (embedAnswers sha m oracle) args disk := by
  refine bind_fst rfl fun secret _ => ?_
  refine bind_fst (generateSessionNonce_fst ..) fun sessionNonce _ => ?_
  rw [generateSessionNonce_snd]
  refine bind_fst (generateKdfMetadata_fst ..) fun kdf _ => ?_
  rw [generateKdfMetadata_snd]
  refine bind_fst rfl fun rootKey _ => ?_
  refine bind_fst (sessionKeys_fst ..) fun keys _ => ?_
  -- the rest draws nothing
  exact bind_fst rfl fun payload _ => bind_fst rfl fun encrypted _ =>
    bind_fst rfl fun cover _ => bind_fst rfl fun embedded _ => bind_fst rfl fun _ _ => rfl

/-- **What `extract` computes on an oracle** is what it computes on the answer. -/
theorem extractPlaintext_fst {m : ExtractMachine} {oracle : EntropyOracle}
    (hinit : m.startup.init = .ok oracle) (args : ExtractArgs) (disk : Disk) :
    ((Live.extractPlaintext F crates sha m args disk).run oracle).1
      = extractPlaintext F crates (extractEnv sha m) args disk := by
  have hentropy : (extractEnv sha m).entropy = .ok () := by
    rw [extractEnv, hinit]
    rfl
  have hbase : (extractEnv sha m).nonceBase
      = answerOf ((fillArray sha 8 m.nonceBase).run oracle).1 := by
    rw [extractEnv, hinit]
  refine bind_fst ?_ fun found _ => rfl
  rw [extractSetup, hentropy, hbase]
  refine bind_fst rfl fun metadata _ => bind_fst rfl fun _ _ => bind_fst rfl fun secret _ =>
    bind_fst rfl fun rootKey _ => bind_fst rfl fun sessionNonce _ => ?_
  refine bind_fst (sessionKeys_fst ..) fun keys _ => ?_
  exact bind_fst rfl fun params _ => bind_fst rfl fun _ _ => rfl

theorem embed_answers (m : EmbedMachine) (args : EmbedArgs) (disk : Disk) :
    Live.embed F crates sha m args disk = embed F crates (embedEnv sha m) args disk := by
  unfold Live.embed embed
  cases hinit : m.startup.init with
  | error e =>
    obtain ⟨e', rfl⟩ := (init_returns m.startup).error hinit
    have henv : (embedEnv sha m).entropy = .error e' := by
      rw [embedEnv, hinit]
      rfl
    rw [embedPrepare, henv]
    rfl
  | ok oracle =>
    have hprepare : embedPrepare F crates (embedEnv sha m) args disk
        = ((Live.embedPrepare F crates sha m args disk).run oracle).1 := by
      rw [embedPrepare_fst, embedEnv, hinit]
    rw [hprepare, embedEnv_system]
    rfl

theorem extract_answers (m : ExtractMachine) (args : ExtractArgs) (disk : Disk) :
    Live.extract F crates sha m args disk = extract F crates (extractEnv sha m) args disk := by
  unfold Live.extract extract
  cases hinit : m.startup.init with
  | error e =>
    obtain ⟨e', rfl⟩ := (init_returns m.startup).error hinit
    have henv : (extractEnv sha m).entropy = .error e' := by
      rw [extractEnv, hinit]
      rfl
    rw [extractPlaintext, extractSetup, henv]
    rfl
  | ok oracle =>
    rw [← extractPlaintext_fst hinit]
    rfl

/-- The command, on the answers to its draws. -/
def answered (F : Type) [Scalar F] (crates : Crates) (sha : Sha256) :
    Invocation → Disk → Outcome CliError Unit × Disk
  | .embed m args => embed F crates (embedEnv sha m) args
  | .extract m args => extract F crates (extractEnv sha m) args

/--
**The program on a machine is its commands on the answers to their draws.**

Each draw is `fill` on the oracle the draw before left behind, and the first is on the
oracle `init` returns.
-/
theorem main_answers (F : Type) [Scalar F] (crates : Crates) (sha : Sha256) (i : Invocation)
    (disk : Disk) : Live.main F crates sha i disk = answered F crates sha i disk := by
  cases i with
  | embed m args => exact embed_answers m args disk
  | extract m args => exact extract_answers m args disk

/-! ## What is left of the oracle -/

/-- `n` bytes were counted since the oracle was initialised, and nothing else happened to it. -/
def Drawn (start : EntropyOracle) (n : Nat) (oracle : EntropyOracle) : Prop :=
  oracle.osPoolAvailable = start.osPoolAvailable ∧ oracle.state.poisoned = false
    ∧ oracle.state.value
      = { start.state.value with bytesGenerated := n, bytesSinceLastCheck := n }

section Drawn

variable {start oracle : EntropyOracle} {k n : Nat}

/-- Counting below the mark only counts. -/
theorem Drawn.count (h : Drawn start k oracle) (hmark : k + n < 10000) :
    Drawn start (k + n) (oracle.count n).2 := by
  obtain ⟨hpool, hhealthy, hstate⟩ := h
  rw [count_eq hhealthy, hstate]
  have hsat : satAdd 64 k n = k + n := by
    unfold satAdd
    omega
  refine ⟨hpool, hhealthy, ?_⟩
  dsimp only
  rw [if_neg (by omega), hsat]
  rfl

/-- A draw below the mark counts, or does nothing. -/
theorem Drawn.filled (h : Drawn start k oracle) (hn : 0 < n) (hmark : k + n < 10000)
    (draw : Draw) : (fillArray sha n draw).Ends oracle (fun _ o => Drawn start (k + n) o)
      (Drawn start k) := by
  have hbuf : List.replicate n (0 : UInt8) ≠ [] := by
    rw [Ne, List.replicate_eq_nil_iff]
    omega
  have hdue : ¬ 10000 ≤ oracle.state.value.bytesSinceLastCheck + n := by
    rw [h.2.2]
    dsimp only
    omega
  have hend : (bytes sha n draw).Ends oracle (fun _ o => Drawn start (k + n) o)
      (Drawn start k) := by
    have hrun : (bytes sha n draw).run oracle
        = oracle.fill sha (List.replicate n 0) draw.output draw.sample := rfl
    rw [Ends, hrun, fill, if_neg hbuf]
    cases oracle.drawOutput sha draw.output (List.replicate n 0) with
    | error e => exact h
    | ok filled =>
      dsimp only
      rw [List.length_replicate, updateCounterAndCheck_eq h.2.1, if_neg hdue]
      exact h.count hmark
  exact hend.bind fun _ _ hdrawn => ends_pure hdrawn

/-- A call that draws nothing. -/
theorem Drawn.lift {ε α : Type} {y : Outcome ε α} (h : Drawn start k oracle) :
    (lift y).Ends oracle (fun _ o => Drawn start k o) (Drawn start k) := ends_lift (fun _ => h) h

theorem Drawn.sessionNonce (sha : Sha256) (h : Drawn start k oracle) (hmark : k + 12 < 10000)
    (draw : Draw) :
    (generateSessionNonce (fillArray sha 12 draw)).Ends oracle (fun _ o => Drawn start (k + 12) o)
      (fun o => Drawn start k o ∨ Drawn start (k + 12) o) := by
  have hdraw : (fillArray sha 12 draw).Ends oracle (fun _ o => Drawn start (k + 12) o)
      (fun o => Drawn start k o ∨ Drawn start (k + 12) o) :=
    (h.filled (by decide) hmark draw).weaken fun _ ho => Or.inl ho
  refine hdraw.mapErr.mapErr.bind fun nonce o hdrawn => ?_
  -- twelve zeros are refused after they were drawn
  split
  · exact Or.inr hdrawn
  · exact hdrawn

theorem Drawn.kdfMetadata (h : Drawn start k oracle) (hmark : k + 16 < 10000) (draw : Draw) :
    (generateKdfMetadata (fillArray sha argon2SaltLen draw)).Ends oracle
      (fun _ o => Drawn start (k + 16) o)
      (Drawn start k) :=
  (h.filled (by decide) hmark draw).mapErr.bind fun _ _ hdrawn => ends_pure hdrawn

theorem Drawn.sessionKeys (h : Drawn start k oracle) (hmark : k + 8 < 10000)
    (crates : KdfCrates) (rootKey : Key) (sessionNonce : Nonce) (draw : Draw) :
    (inContext "failed to derive session keys" (Computes.mapErr .crypto
      (deriveSessionKeys crates rootKey.toList sessionNonce (fillArray sha 8 draw)))).Ends oracle
        (fun _ o => Drawn start (k + 8) o) (Drawn start k) := by
  refine Ends.mapErr (Ends.mapErr ?_)
  unfold deriveSessionKeys
  split
  · exact h
  · split
    · exact h
    · refine Ends.bind h.lift fun _ _ henc => ?_
      refine Ends.bind henc.lift fun _ _ hmac => ?_
      refine Ends.bind hmac.lift fun _ _ htechnique => ?_
      refine Ends.bind htechnique.lift fun _ _ hparam => ?_
      refine Ends.bind ?_ fun _ _ hdrawn => ends_pure hdrawn
      refine Ends.bind ?_ fun _ _ hdrawn => ends_pure hdrawn
      exact (hparam.filled (by decide) hmark draw).bind fun _ _ hdrawn => ends_pure hdrawn

/-- What a monitor sees of it. -/
theorem Drawn.health (h : Drawn start k oracle) :
    oracle.health = ⟨start.state.value.trngAvailable, start.osPoolAvailable,
      start.state.value.lastCheckPassed, k⟩ := by
  obtain ⟨hpool, hhealthy, hstate⟩ := h
  rw [EntropyOracle.health, lock_eq_ok.mpr ⟨hhealthy, rfl⟩]
  dsimp only
  rw [hpool, hstate]

theorem drawn_zero {startup : Startup} (hinit : startup.init = .ok start) :
    Drawn start 0 start := by
  obtain ⟨hhealthy, hsince, -⟩ := init_eq_ok hinit
  obtain ⟨-, -, hgenerated⟩ := init_counters hinit
  refine ⟨rfl, hhealthy, ?_⟩
  rcases hstate : start.state.value with ⟨trng, generated, passed, since⟩
  rw [hstate] at hsince hgenerated
  obtain rfl : since = 0 := hsince
  obtain rfl : generated = 0 := hgenerated
  rfl

end Drawn

/-- One of these numbers of bytes was counted. -/
def DrawnOneOf (start : EntropyOracle) (counts : List Nat) (oracle : EntropyOracle) : Prop :=
  ∃ n ∈ counts, Drawn start n oracle

theorem embed_draws {start : EntropyOracle} (h : Drawn start 0 start) (m : EmbedMachine)
    (args : EmbedArgs) (disk : Disk) :
    (Live.embedPrepare F crates sha m args disk).Ends start (fun _ o => Drawn start 36 o)
      (DrawnOneOf start [0, 12, 28, 36]) := by
  have hstop : ∀ n ∈ [0, 12, 28, 36], ∀ o, Drawn start n o → DrawnOneOf start [0, 12, 28, 36] o :=
    fun n hn o ho => ⟨n, hn, ho⟩
  refine (h.lift.weaken (hstop 0 (by decide))).bind fun secret _ h => ?_
  have hnonce := (h.sessionNonce sha (by decide) m.sessionNonce).weaken fun o ho =>
    ho.elim (hstop 0 (by decide) o) (hstop 12 (by decide) o)
  refine hnonce.bind fun sessionNonce _ h => ?_
  refine ((h.kdfMetadata (by decide) m.salt).weaken (hstop 12 (by decide))).bind fun kdf _ h => ?_
  refine (h.lift.weaken (hstop 28 (by decide))).bind fun rootKey _ h => ?_
  refine ((h.sessionKeys (by decide) _ _ _ m.nonceBase).weaken (hstop 28 (by decide))).bind
    fun keys _ h => ?_
  -- the rest draws nothing
  have hrest : ∀ {α : Type} {y : Outcome CliError α} {o : EntropyOracle}, Drawn start 36 o →
      (lift y).Ends o (fun _ o => Drawn start 36 o) (DrawnOneOf start [0, 12, 28, 36]) :=
    fun h => h.lift.weaken (hstop 36 (by decide))
  refine (hrest h).bind fun payload _ h => ?_
  refine (hrest h).bind fun encrypted _ h => ?_
  refine (hrest h).bind fun cover _ h => ?_
  refine (hrest h).bind fun embedded _ h => ?_
  exact (hrest h).bind fun mac _ h => h

theorem extract_draws {start : EntropyOracle} (h : Drawn start 0 start) (m : ExtractMachine)
    (args : ExtractArgs) (disk : Disk) :
    (Live.extractPlaintext F crates sha m args disk).Ends start (fun _ o => Drawn start 8 o)
      (DrawnOneOf start [0, 8]) := by
  have hstop : ∀ n ∈ [0, 8], ∀ o, Drawn start n o → DrawnOneOf start [0, 8] o :=
    fun n hn o ho => ⟨n, hn, ho⟩
  have hbefore : ∀ {α : Type} {y : Outcome CliError α} {o : EntropyOracle}, Drawn start 0 o →
      (lift y).Ends o (fun _ o => Drawn start 0 o) (DrawnOneOf start [0, 8]) :=
    fun h => h.lift.weaken (hstop 0 (by decide))
  have hrest : ∀ {α : Type} {y : Outcome CliError α} {o : EntropyOracle}, Drawn start 8 o →
      (lift y).Ends o (fun _ o => Drawn start 8 o) (DrawnOneOf start [0, 8]) :=
    fun h => h.lift.weaken (hstop 8 (by decide))
  have hsetup : (extractSteps crates m.toExtractSystem args disk
      (fillArray sha 8 m.nonceBase)).Ends start (fun _ o => Drawn start 8 o)
      (DrawnOneOf start [0, 8]) := by
    refine (hbefore h).bind fun metadata _ h => ?_
    refine (hbefore h).bind fun _ _ h => ?_
    refine (hbefore h).bind fun secret _ h => ?_
    refine (hbefore h).bind fun rootKey _ h => ?_
    refine (hbefore h).bind fun sessionNonce _ h => ?_
    refine ((h.sessionKeys (by decide) _ _ _ m.nonceBase).weaken (hstop 0 (by decide))).bind
      fun keys _ h => ?_
    refine (hrest h).bind fun params _ h => ?_
    exact (hrest h).bind fun stego _ h => h
  exact hsetup.bind fun found _ h => hrest h

/--
**A command draws so little that no periodic check is ever due.**

From an initialised oracle an `embed` command that comes to its writes has counted 36
bytes, for the session nonce, the salt and the nonce base; one that stops earlier, as
many of them as it drew. An `extract` command counts eight, if it comes to the nonce
base. All the while the oracle's status is the result of the startup sample.
-/
theorem command_draws (F : Type) [Scalar F] (crates : Crates) (sha : Sha256) {startup : Startup}
    {start : EntropyOracle} (hinit : startup.init = .ok start) :
    (∀ m args disk, (Live.embedPrepare F crates sha m args disk).Ends start
        (fun _ o => Drawn start 36 o) (DrawnOneOf start [0, 12, 28, 36]))
      ∧ (∀ m args disk, (Live.extractPlaintext F crates sha m args disk).Ends start
          (fun _ o => Drawn start 8 o) (DrawnOneOf start [0, 8]))
      ∧ ∀ n o, Drawn start n o → o.health.bytesGenerated = n
          ∧ start.checkSample startup.sample = .ok o.health.lastCheckPassed := by
  have hzero := drawn_zero hinit
  refine ⟨embed_draws hzero, extract_draws hzero, fun n o hdrawn => ?_⟩
  rw [hdrawn.health]
  exact ⟨rfl, (init_eq_ok hinit).2.2⟩

end Machine

/-! ## A sample machine -/

/-- A hash that tells the three draws of a command apart by their lengths. -/
def sampleSha : Sha256 := fun input =>
  Vector.replicate 32 (if input.length = 20 then 1 else if input.length = 24 then 2 else 4)

/-- Sources that answer zeros. -/
def flatDraw : Draw := ⟨flatSources 0, flatSources 0⟩

def flatStartup : Startup := ⟨none, true, flatSources 0⟩

/-- Nothing fails. -/
def sampleMachine : EmbedMachine where
  startup := flatStartup
  sessionNonce := flatDraw
  salt := flatDraw
  nonceBase := flatDraw
  readsSecret := true
  readsPayload := true
  readsCover := true
  savesStego := .sound
  writesMetadata := .sound
  prints := true
  warns := true

def sampleExtractMachine : ExtractMachine where
  startup := flatStartup
  nonceBase := flatDraw
  readsMetadata := true
  readsSecret := true
  readsStego := true
  writesPayload := .sound
  prints := true
  warns := true

/-- The byte a draw of `n` bytes repeats. -/
def sampleByte (n : Nat) : UInt8 := if 8 + n = 20 then 1 else if 8 + n = 24 then 2 else 4

/-- What a draw answers there. -/
theorem fillArray_flat {start oracle : EntropyOracle} {k n : Nat} (h : Drawn start k oracle)
    (hn : 0 < n) (hmark : k + n < 10000) :
    ((fillArray sampleSha n flatDraw).run oracle).1 = .ok (Vector.replicate n (sampleByte n)) := by
  have hbuf : List.replicate n (0 : UInt8) ≠ [] := by
    rw [Ne, List.replicate_eq_nil_iff]
    omega
  have hlen : (List.replicate n (0 : UInt8)).length = n := List.length_replicate
  obtain ⟨raw, hraw⟩ : ∃ raw, oracle.fillRaw (flatSources 0) n = .ok raw :=
    fillRaw_answered (by omega) h.2.1 rfl
  have hrawlen : raw.length = n := by
    obtain ⟨os, -, ⟨-, rfl⟩ | ⟨_, -, hlen, -⟩⟩ := fillRaw_ok hraw
    · exact os.length_toList
    · exact hlen
  obtain ⟨filled, hfilled⟩ :=
    condition_returns sampleSha raw (show (List.replicate n (0 : UInt8)).length < 2 ^ 63 by omega)
  have hdraw : oracle.drawOutput sampleSha (flatSources 0) (List.replicate n 0) = .ok filled := by
    rw [drawOutput, hlen, hraw, ok_bind, hfilled]
  have hdue : ¬ 10000 ≤ oracle.state.value.bytesSinceLastCheck + n := by
    rw [h.2.2]
    dsimp only
    omega
  have hfill : (oracle.fill sampleSha (List.replicate n 0) (flatSources 0) (flatSources 0)).1
      = .ok filled := by
    rw [fill, if_neg hbuf, hdraw]
    dsimp only
    rw [hlen, updateCounterAndCheck_eq h.2.1, if_neg hdue]
  rw [fillArray_fst]
  change ((oracle.fill sampleSha (List.replicate n 0) (flatSources 0) (flatSources 0)).1 >>= _) = _
  rw [hfill, ok_bind]
  refine congrArg Except.ok ?_
  ext i hi
  -- every byte of the output is the byte the hash repeats
  obtain ⟨-, hentry⟩ := condition_ok hfilled
  have hbyte := hentry i (by omega)
  have hinput : (Words.toLe 8 (i / 32) ++ raw).length = 8 + n := by
    rw [List.length_append, Words.toLe_length, hrawlen]
  rw [sampleSha, hinput, Vector.toList_replicate, List.getElem?_replicate,
    if_pos (Nat.mod_lt i (by decide))] at hbyte
  rw [Vector.getElem_ofFn, Vector.getElem_replicate, List.getD_eq_getElem?_getD, hbyte]
  rfl

/-- The sample machine answers what the sample runs assume. -/
theorem sample_answers : embedEnv sampleSha sampleMachine = sampleEnv 1 4
    ∧ extractEnv sampleSha sampleExtractMachine = sampleExtractEnv := by
  obtain ⟨start, hinit⟩ := init_flat 0
  have hstartup : flatStartup.init = .ok start := hinit
  have hzero := drawn_zero hstartup
  have hnonce := fillArray_flat hzero (show 0 < 12 by decide) (by decide)
  have htwelve := (hzero.filled (by decide) (by decide) flatDraw).of_ok hnonce
  have hsalt := fillArray_flat htwelve (show 0 < argon2SaltLen by decide) (by decide)
  have hsalted := (htwelve.filled (by decide) (by decide) flatDraw).of_ok hsalt
  have hbase := fillArray_flat hsalted (show 0 < 8 by decide) (by decide)
  have hfirst := fillArray_flat hzero (show 0 < 8 by decide) (by decide)
  constructor
  · rw [embedEnv, show sampleMachine.startup.init = .ok start from hstartup]
    change EmbedEnv.mk _ _ (answerOf ((fillArray sampleSha 12 flatDraw).run start).1)
      (answerOf ((fillArray sampleSha argon2SaltLen flatDraw).run
        ((fillArray sampleSha 12 flatDraw).run start).2).1)
      (answerOf ((fillArray sampleSha 8 flatDraw).run
        ((fillArray sampleSha argon2SaltLen flatDraw).run
          ((fillArray sampleSha 12 flatDraw).run start).2).2).1) = _
    rw [hnonce, hsalt, hbase]
    rfl
  · rw [extractEnv, show sampleExtractMachine.startup.init = .ok start from hstartup]
    change ExtractEnv.mk _ _ (answerOf ((fillArray sampleSha 8 flatDraw).run start).1) = _
    rw [hfirst]
    rfl

/-- The sample run counts 36 bytes. -/
theorem command_draws_sample : ∃ start oracle result, flatStartup.init = .ok start
    ∧ (Live.embedPrepare ℚ (referenceCrates sampleWord) sampleSha sampleMachine
        (sampleArgs samplePng) sampleDisk).run start = (.ok result, oracle)
    ∧ oracle.health.bytesGenerated = 36 := by
  obtain ⟨start, hinit⟩ := init_flat 0
  have hstartup : flatStartup.init = .ok start := hinit
  obtain ⟨hembed, -, hhealth⟩ :=
    command_draws ℚ (referenceCrates sampleWord) sampleSha hstartup
  have hanswers : embedAnswers sampleSha sampleMachine start = sampleEnv 1 4 := by
    have henv := sample_answers.1
    rwa [embedEnv, show sampleMachine.startup.init = .ok start from hstartup] at henv
  have hvalid : (sampleTrace 1 4).Valid ℚ (referenceCrates sampleWord) (sampleEnv 1 4)
      (sampleArgs samplePng) sampleDisk := sampleTrace_valid (by decide) rfl fun _ _ => rfl
  obtain ⟨result, hreturned⟩ : ∃ result, ((Live.embedPrepare ℚ (referenceCrates sampleWord)
      sampleSha sampleMachine (sampleArgs samplePng) sampleDisk).run start).1 = .ok result := by
    rw [embedPrepare_fst, hanswers]
    exact ⟨_, embedPrepare_eq_ok.mpr ⟨_, hvalid, rfl, rfl⟩⟩
  have hdrawn := (hembed sampleMachine (sampleArgs samplePng) sampleDisk).of_ok hreturned
  exact ⟨start, _, result, hstartup, Prod.ext hreturned rfl, (hhealth 36 _ hdrawn).1⟩

end Stegosafe.Proof
