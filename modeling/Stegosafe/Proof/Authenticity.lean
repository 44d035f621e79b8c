import Stegosafe.Proof.MacEncoding
import Stegosafe.Proof.Pipeline

/-!
# Extraction fails closed

What `extract` writes is what some run of `embed` was given, under the record that run
signed; otherwise it returns an error. The argument is that of a forgery: the decryption
names a run that produced the ciphertext, the verification a run that signed the record,
and both derived their keys from the session of the extraction, so they are one run. Its
context and ciphertext are the presented ones, and then no tag can imitate another.

The extractor uses the record before it has verified it. A presented length whose bits leave
their word, or a presented image the edge detector cannot index, stops the program instead
(`Overruns`), as does a warning that cannot be printed (`Unwarned`).
-/

namespace Stegosafe.Proof

open Stegosafe Checked Outcome Text Presented

/-! ## Runs -/

/-- A run of `embed` that has signed its metadata. -/
structure EmbedRun (F : Type) [Scalar F] (crates : Crates) where
  env : EmbedEnv
  args : EmbedArgs
  disk : Disk
  trace : EmbedTrace
  valid : trace.Valid F crates env args disk

namespace EmbedRun

variable {F : Type} [Scalar F] {crates : Crates}

/-- The root key and session nonce of a run. -/
def session (r : EmbedRun F crates) : Key × Nonce := (r.trace.rootKey, r.trace.sessionNonce)

/-- What a run signs. -/
def signed (r : EmbedRun F crates) : Presented where
  metadata := r.trace.metadata crates r.args.context
  context := r.args.context
  payload := r.trace.encrypted

/-- A run's own record passes the checks. -/
theorem signed_accepted (hlaw : LawfulAead crates.toAeadCrates) (r : EmbedRun F crates) :
    r.signed.Accepted := by
  obtain ⟨density, -, img, -, -, hresult⟩ := engine_embed_eq_ok.mp r.valid.stego_ok
  exact
    { version := rfl
      algorithm := rfl
      outputLen := rfl
      salt := ⟨_, Hex.decode_encode _⟩
      nonce := ⟨_, Hex.decode_encode _⟩
      technique :=
        ⟨_, TechniqueId.fromName_eq_some.mpr (congrArg EmbedResult.techniqueName hresult)⟩
      params := by
        intro pm hpm
        have hpm' : some r.trace.result.paramsMeta = some pm := hpm
        rw [hresult, Option.some.injEq] at hpm'
        subst hpm'
        exact ⟨_, _, fromMeta_randomizeParams crates.hmac r.trace.keys.paramSeed⟩
      length := r.valid.encryptedLen_eq.symm
      nonempty := r.valid.encryptedLen_ne_zero hlaw }

end EmbedRun

/-- What `extract` has read and derived when it comes to the MAC. -/
structure Opened where
  presented : Presented
  rootKey : Key
  sessionNonce : Nonce
  keys : SessionKeys

section Extract

variable {F : Type} [Scalar F] {crates : Crates}

/-- The steps of an extraction up to the MAC. -/
structure Opened.Valid (F : Type) [Scalar F] (crates : Crates) (env : ExtractEnv)
    (args : ExtractArgs) (disk : Disk) (o : Opened) : Prop where
  context : o.presented.context = args.context
  validated : validateMetadata o.presented.metadata = .ok ()
  rootKey_ok : ∃ secret,
    loadSecret env.readsSecret env.warns disk args.secretFile args.secret = .ok secret
      ∧ deriveRootKey crates secret o.presented.metadata.kdf = .ok o.rootKey
  nonce_ok : parseSessionNonce o.presented.metadata.sessionNonce = .ok o.sessionNonce
  keys_ok : deriveSessionKeys crates.toKdfCrates o.rootKey.toList o.sessionNonce
    (returned env.nonceBase) = .ok o.keys
  found : ∃ params stego,
    extractSetup crates env args disk = .ok (o.presented.metadata, o.keys, params, stego)
      ∧ extractParams crates o.presented.metadata o.keys = .ok params
      ∧ (StegoEngine.new F crates.hmac).extract stego o.presented.metadata.embedding params
          o.presented.metadata.encryptedLen.toNat = .ok o.presented.payload

theorem extractParams_bitPlane {metadata : Metadata} {keys : SessionKeys} {params : EmbedParams}
    (h : extractParams crates metadata keys = .ok params) : params.bitPlane ≤ 7 := by
  unfold extractParams at h
  split at h
  · obtain ⟨-, hplane, heq, -⟩ := EmbedParams.fromMeta_eq_some.mp (okOr_eq_ok.mp h)
    rw [heq]
    exact UInt8.le_trans hplane (by decide)
  · cases h
    show (0 : UInt8) ≤ 7
    decide

theorem deriveRootKey_checked {secret : Bytes} {kdf : KdfMetadata} {rootKey : Key}
    (h : deriveRootKey crates secret kdf = .ok rootKey) :
    kdf.algorithm = kdfAlgorithm ∧ kdf.outputLen = rootKeyLen
      ∧ ∃ salt : Vector UInt8 argon2SaltLen, Hex.decode kdf.salt = some salt.toList := by
  unfold deriveRootKey at h
  split at h
  · cases h
  · rename_i hknown
    obtain ⟨salt, hsalt, -⟩ := bind_eq_ok.mp h
    exact ⟨by_contra fun hne => hknown (Or.inl hne), by_contra fun hne => hknown (Or.inr hne),
      salt, hexField_eq_ok.mp hsalt⟩

/-- **What comes to the MAC has passed the checks.** -/
theorem Opened.Valid.accepted {env : ExtractEnv} {args : ExtractArgs} {disk : Disk} {o : Opened}
    (h : o.Valid F crates env args disk) : o.presented.Accepted := by
  obtain ⟨hversion, -, hlen⟩ := validateMetadata_eq_ok.mp h.validated
  obtain ⟨secret, -, hroot⟩ := h.rootKey_ok
  obtain ⟨halg, hout, hsalt⟩ := deriveRootKey_checked hroot
  obtain ⟨params, stego, -, hparams, hfound⟩ := h.found
  simp only [StegoEngine.extract, bind_eq_ok, okOr_eq_ok, StegoEngine.new_techniques,
    Option.some.injEq, exists_eq_left'] at hfound
  obtain ⟨id, hid, hfound⟩ := hfound
  obtain ⟨-, -, hpayload, -⟩ :=
    (technique_extract_eq_ok (planeOf_lt (extractParams_bitPlane hparams))).mp hfound
  exact
    { version := hversion
      algorithm := halg
      outputLen := hout
      salt := hsalt
      nonce := ⟨_, hexField_eq_ok.mp h.nonce_ok⟩
      technique := ⟨id, hid⟩
      params := by
        intro pm hpm
        rw [extractParams, hpm] at hparams
        exact ⟨_, _, okOr_eq_ok.mp hparams⟩
      length := hpayload
      nonempty := hlen }

/-- The extraction that returns has come to the MAC, verified it, and decrypted. -/
theorem extractPlaintext_opened {env : ExtractEnv} {args : ExtractArgs} {disk : Disk}
    {plaintext : Bytes} (h : extractPlaintext F crates env args disk = .ok plaintext) :
    ∃ o : Opened, o.Valid F crates env args disk
      ∧ (∃ tag, Hex.decode o.presented.metadata.mac = some tag
          ∧ o.keys.macKey.verify crates.toKdfCrates o.presented.macInput tag = .ok ())
      ∧ o.keys.encKey.decrypt crates.toAeadCrates o.presented.payload (utf8 args.context)
          = .ok plaintext := by
  obtain ⟨metadata, keys, params, stego, payload, tag, hsetup, hfound, htag, hverify, hdec⟩ :=
    extractPlaintext_eq_ok.mp h
  obtain ⟨-, -, hvalid, ⟨secret, rootKey, nonce, hsecret, hroot, hnonce, hkeys⟩, hparams, -⟩ :=
    extractSetup_eq_ok.mp hsetup
  exact ⟨⟨⟨metadata, args.context, payload⟩, rootKey, nonce, keys⟩,
    ⟨rfl, hvalid, ⟨secret, hsecret, hroot⟩, hnonce, hkeys, params, stego, hsetup, hparams, hfound⟩,
    ⟨tag, htag, hverify⟩, hdec⟩

/-! ## Authenticity -/

/--
What a forger of the presented files has to overcome, for the one MAC and the one
ciphertext the extraction checks: both come from runs of the history, and the keys
they are checked with come from one session only.
-/
structure Unforged (history : List (EmbedRun F crates)) (o : Opened) : Prop where
  mac : ∀ tag, Hex.decode o.presented.metadata.mac = some tag →
    o.keys.macKey.verify crates.toKdfCrates o.presented.macInput tag = .ok () →
    ∃ r ∈ history, r.trace.keys.macKey = o.keys.macKey
      ∧ r.signed.macInput = o.presented.macInput
  aead : ∀ msg, crates.gcmOpen o.keys.encKey.key (o.presented.payload.take 12)
      (utf8 o.presented.context) (o.presented.payload.drop 12) = some msg →
    ∃ r ∈ history, r.trace.keys.encKey.key = o.keys.encKey.key
      ∧ utf8 r.args.context = utf8 o.presented.context
      ∧ r.trace.encrypted.take 12 = o.presented.payload.take 12
      ∧ r.trace.encrypted.drop 12 = o.presented.payload.drop 12
  macKey : ∀ r ∈ history, r.trace.keys.macKey = o.keys.macKey →
    r.session = (o.rootKey, o.sessionNonce)
  encKey : ∀ r ∈ history, r.trace.keys.encKey.key = o.keys.encKey.key →
    r.session = (o.rootKey, o.sessionNonce)

/-- **What verifies and decrypts is a run's own**, record, context, ciphertext and payload. -/
theorem opened_authentic (hlaw : LawfulAead crates.toAeadCrates)
    {history : List (EmbedRun F crates)} (hdistinct : (history.map EmbedRun.session).Nodup)
    {env : ExtractEnv} {args : ExtractArgs} {disk : Disk} {o : Opened}
    (ho : o.Valid F crates env args disk) (hforge : Unforged history o) {tag plaintext : Bytes}
    (htag : Hex.decode o.presented.metadata.mac = some tag)
    (hverify : o.keys.macKey.verify crates.toKdfCrates o.presented.macInput tag = .ok ())
    (hdec : o.keys.encKey.decrypt crates.toAeadCrates o.presented.payload (utf8 args.context)
      = .ok plaintext) :
    ∃ r ∈ history, Agree o.presented r.signed ∧ plaintext = r.trace.payload := by
  rw [← ho.context] at hdec
  obtain ⟨-, compressed, hopen, -⟩ := (AeadKey.decrypt_eq_ok _).mp hdec
  obtain ⟨r, hr, hmacKey, hinput⟩ := hforge.mac tag htag hverify
  obtain ⟨s, hs, hencKey, hcontext, htake, hdrop⟩ := hforge.aead compressed hopen
  -- the signer and the sealer have one session
  obtain rfl : r = s := List.inj_on_of_nodup_map hdistinct hr hs
    ((hforge.macKey r hr hmacKey).trans (hforge.encKey s hs hencKey).symm)
  have hpayload : r.trace.encrypted = o.presented.payload := by
    rw [← List.take_append_drop 12 r.trace.encrypted, htake, hdrop, List.take_append_drop]
  have hclosing : o.presented.closing = r.signed.closing := by
    rw [closing, closing, ← hpayload, ← utf8_injective hcontext]
    rfl
  refine ⟨r, hr, ?_, ?_⟩
  · -- with one ending for both records neither tag can go past the other
    rcases macInput_cases ho.accepted (r.signed_accepted hlaw) hinput.symm with
      hagree | himitates | himitates
    · exact hagree
    · exact absurd hclosing himitates.closing_ne
    · exact absurd hclosing.symm himitates.closing_ne
  · have hown := r.valid.decrypts hlaw hencKey.symm
    rw [hpayload, hcontext, hdec] at hown
    exact Except.ok.inj hown

/-! ## Panics -/

theorem withContext_returns {α : Type} {text : String} {x : Outcome CliError α} (h : Returns x) :
    Returns (withContext text x) := h.mapErr

theorem readFile_returns {io : Bool} {disk : Disk} {path : Path} :
    Returns (readFile io disk path) := fun _ => readFile_ne_panic

/-- Only the warning about a secret in the arguments can panic. -/
theorem loadSecret_panics {io warns : Bool} {disk : Disk} {secretFile : Option Path}
    {secret : Option String} :
    PanicsOnly (fun p => Unprintable warns p ∧ secret.isSome)
      (loadSecret io warns disk secretFile secret) := by
  unfold loadSecret
  split
  · refine ((printLine_panics warns).imp fun p hp => ⟨hp, rfl⟩).bind fun _ _ =>
      Returns.panicsOnly ?_
    split
    · exact returns_fail _
    · exact returns_ok _
  · refine Returns.panicsOnly ?_
    refine returns_okOr.bind fun path _ => readFile_returns.bind fun bytes _ => ?_
    dsimp only
    split
    · exact returns_fail _
    · exact returns_ok _

theorem deriveRootKey_returns {secret : Bytes} {kdf : KdfMetadata} :
    Returns (deriveRootKey crates secret kdf) := by
  unfold deriveRootKey
  split
  · exact returns_fail _
  · refine Returns.bind (fun _ => hexField_ne_panic) fun salt _ => ?_
    split
    · exact returns_okOr
    · exact returns_fail _

theorem deriveSessionKeys_returns {crates : KdfCrates} {secret : Bytes} {nonce : Nonce}
    {entropy : Outcome CryptoError (Vector UInt8 8)} (h : Returns entropy) :
    Returns (deriveSessionKeys crates secret nonce entropy) := by
  unfold deriveSessionKeys
  split
  · exact returns_fail _
  · split
    · exact returns_fail _
    · refine returns_okOr.bind fun _ _ => returns_okOr.bind fun _ _ => returns_okOr.bind fun _ _ =>
        returns_okOr.bind fun _ _ => Returns.bind ?_ fun _ _ => returns_ok _
      exact Returns.bind (h.bind fun _ _ => returns_ok _) fun _ _ => returns_ok _

theorem extractParams_returns {metadata : Metadata} {keys : SessionKeys} :
    Returns (extractParams crates metadata keys) := by
  unfold extractParams
  split
  · exact returns_okOr
  · exact returns_ok _

/--
The presented record passes its checks, and then the warning that a secret in the arguments
is visible cannot be printed.
-/
def Unwarned (crates : Crates) (env : ExtractEnv) (args : ExtractArgs) (disk : Disk) : Prop :=
  env.warns = false ∧ args.secret.isSome ∧ env.entropy = .ok ()
    ∧ ∃ metadata, readMetadata crates env.readsMetadata disk (args.stego.withExtension "meta")
          = .ok metadata
        ∧ validateMetadata metadata = .ok ()

/-- Nothing else before the image is searched stops it. -/
theorem extractSetup_panics {env : ExtractEnv} {args : ExtractArgs} {disk : Disk} :
    PanicsOnly (fun p => p = .print ∧ Unwarned crates env args disk)
      (extractSetup crates env args disk) := by
  unfold extractSetup extractSteps
  refine (withContext_returns returns_returned.mapErr).panicsOnly.bind fun _ hentropy => ?_
  refine PanicsOnly.bind (Returns.panicsOnly ?_) fun metadata hread => ?_
  · exact (withContext_returns readFile_returns).bind fun _ _ => withContext_returns returns_okOr
  refine PanicsOnly.bind (Returns.panicsOnly fun _ => validateMetadata_ne_panic) fun _ hvalid => ?_
  refine (loadSecret_panics.imp ?_).bind fun secret _ => Returns.panicsOnly ?_
  · rintro p ⟨⟨rfl, hwarns⟩, hsecret⟩
    have hinit := returned_eq_ok.mp (mapErr_eq_ok.mp (withContext_eq_ok.mp hentropy))
    exact ⟨rfl, hwarns, hsecret, hinit, metadata, hread, hvalid⟩
  refine (withContext_returns deriveRootKey_returns).bind fun rootKey _ => ?_
  refine Returns.bind (fun _ => hexField_ne_panic) fun nonce _ => ?_
  refine (withContext_returns (deriveSessionKeys_returns returns_returned).mapErr).bind
    fun keys _ => ?_
  refine extractParams_returns.bind fun params _ => ?_
  refine (withContext_returns ?_).bind fun _ _ => returns_ok _
  exact readFile_returns.mapErr.bind fun _ _ => returns_okOr

/--
The presented files stop the extractor: they pass all checks before the image is searched and
name a technique, but the bits of the presented length leave their word, or the edge detector
cannot index the presented image.
-/
def Overruns (crates : Crates) (env : ExtractEnv) (args : ExtractArgs) (disk : Disk) : Prop :=
  ∃ metadata keys params stego id,
    extractSetup crates env args disk = .ok (metadata, keys, params, stego)
      ∧ TechniqueId.fromName metadata.embedding = some id
      ∧ (2 ^ 64 ≤ (metadata.encryptedLen.toNat + 4) * 8
        ∨ id = .edgeAdaptiveLsb ∧ ¬ EdgeSafe stego.toRgb8.width stego.toRgb8.height)

theorem engine_extract_of_name {name : String} {id : TechniqueId}
    (hid : TechniqueId.fromName name = some id) (stego : DynamicImage) (params : EmbedParams)
    (n : Nat) : (StegoEngine.new F crates.hmac).extract stego name params n
      = (StegoEngine.techniqueOf F crates.hmac id).extract stego.toRgb8 n params := by
  rw [TechniqueId.fromName_eq_some.mp hid, engine_extract_eq]

/--
**Extraction comes to its write or returns an error**, unless the files overrun it or its
warning cannot be printed.
-/
theorem extractPlaintext_panics {env : ExtractEnv} {args : ExtractArgs} {disk : Disk}
    (h : ¬ Overruns crates env args disk) :
    PanicsOnly (fun p => p = .print ∧ Unwarned crates env args disk)
      (extractPlaintext F crates env args disk) := by
  unfold extractPlaintext extractFound
  refine extractSetup_panics.bind ?_
  intro opened hsetup
  obtain ⟨metadata, keys, params, stego⟩ := opened
  have hparams := (extractSetup_eq_ok.mp hsetup).2.2.2.2.1
  refine Returns.panicsOnly ((withContext_returns (Returns.mapErr ?_)).bind fun payload _ => ?_)
  · cases hid : TechniqueId.fromName metadata.embedding with
    | none =>
      rw [StegoEngine.extract, hid]
      exact returns_fail _
    | some id =>
      rw [engine_extract_of_name hid]
      have hfits : (metadata.encryptedLen.toNat + 4) * 8 < 2 ^ 64 :=
        Nat.not_le.mp fun hlen => h ⟨_, _, _, _, id, hsetup, hid, Or.inl hlen⟩
      have hindexes : id = .edgeAdaptiveLsb →
          EdgeSafe stego.toRgb8.width stego.toRgb8.height := by
        intro hedge
        by_contra hsafe
        exact h ⟨_, _, _, _, id, hsetup, hid, Or.inr ⟨hedge, hsafe⟩⟩
      exact technique_extract_ne_panic (planeOf_lt (extractParams_bitPlane hparams)) hfits hindexes
  · -- once there is a payload, what is left to fail are checks
    refine returns_okOr.bind fun tag _ => ?_
    refine (withContext_returns (Returns.mapErr ?_)).bind fun _ _ => ?_
    · unfold HmacKey.verify
      split
      · exact returns_ok _
      · exact returns_fail _
    · exact withContext_returns (Returns.mapErr fun _ => AeadKey.decrypt_ne_panic _)

/-- Its end panics only if its message cannot be printed. -/
theorem extractWrite_panics (system : ExtractSystem) (output : Path) (plaintext : Bytes)
    (disk : Disk) :
    PanicsOnly (Unprintable system.prints) (extractWrite system output plaintext disk).1 := by
  unfold extractWrite
  cases hwrite : system.writesPayload.succeeds with
  | false =>
    rw [writeFile_fails hwrite]
    exact Returns.panicsOnly (withContext_returns (returns_fail _))
  | true =>
    rw [writeFile_succeeds hwrite]
    exact printLine_panics _

/-- Files that overrun it stop it, and nothing is written. -/
theorem extract_overrun {env : ExtractEnv} {args : ExtractArgs} {disk : Disk}
    (h : Overruns crates env args disk) :
    extract F crates env args disk = (.error (.panic .overflow), disk) := by
  obtain ⟨metadata, keys, params, stego, id, hsetup, hid, hover⟩ := h
  rw [extract, extractPlaintext, hsetup, ok_bind]
  dsimp only [extractFound]
  rw [engine_extract_of_name hid, technique_extract_panic hover]
  rfl

theorem loadSecret_unwarned {io warns : Bool} {disk : Disk} {secretFile : Option Path}
    {secret : Option String} (hwarns : warns = false) (hsecret : secret.isSome) :
    loadSecret io warns disk secretFile secret = .error (.panic .print) := by
  obtain ⟨text, rfl⟩ := Option.isSome_iff_exists.mp hsecret
  rw [hwarns]
  rfl

/-- And so does a warning that cannot be printed. -/
theorem extract_unwarned {env : ExtractEnv} {args : ExtractArgs} {disk : Disk}
    (h : Unwarned crates env args disk) :
    extract F crates env args disk = (.error (.panic .print), disk) := by
  obtain ⟨hwarns, hsecret, hentropy, metadata, hread, hvalid⟩ := h
  have hsetup : extractSetup crates env args disk = .error (.panic .print) := by
    unfold extractSetup extractSteps
    refine bind_eq_error.mpr (Or.inr ⟨(), ?_, ?_⟩)
    · exact withContext_eq_ok.mpr (mapErr_eq_ok.mpr (returned_eq_ok.mpr hentropy))
    refine bind_eq_error.mpr (Or.inr ⟨metadata, hread, ?_⟩)
    refine bind_eq_error.mpr (Or.inr ⟨(), hvalid, ?_⟩)
    exact bind_eq_error.mpr (Or.inl (loadSecret_unwarned hwarns hsecret))
  rw [extract, extractPlaintext, hsetup]
  rfl

/-- Files that overrun the extractor do not come to the MAC. -/
theorem Opened.Valid.not_overruns {env : ExtractEnv} {args : ExtractArgs} {disk : Disk}
    {o : Opened} (h : o.Valid F crates env args disk) : ¬ Overruns crates env args disk := by
  intro h
  obtain ⟨metadata, keys, params, stego, id, hsetup, hid, hover⟩ := h
  obtain ⟨params', stego', hsetup', -, hfound⟩ := h.found
  have heq := Except.ok.inj (hsetup.symm.trans hsetup')
  simp only [Prod.mk.injEq] at heq
  obtain ⟨rfl, -, -, rfl⟩ := heq
  rw [engine_extract_of_name hid, technique_extract_panic hover] at hfound
  cases hfound

/-- Nor does an extraction whose warning cannot be printed. -/
theorem Opened.Valid.not_unwarned {env : ExtractEnv} {args : ExtractArgs} {disk : Disk}
    {o : Opened} (h : o.Valid F crates env args disk) : ¬ Unwarned crates env args disk := by
  rintro ⟨hwarns, hsecret, -⟩
  obtain ⟨secret, hload, -⟩ := h.rootKey_ok
  cases (loadSecret_unwarned hwarns hsecret).symm.trans hload

/-! ## Failing closed -/

/--
Either `extract` goes on to write the payload of one run of the history, whose context,
ciphertext and record up to the MAC are the presented ones, or it writes nothing and
returns an error.
-/
def FailsClosed (history : List (EmbedRun F crates)) (env : ExtractEnv) (args : ExtractArgs)
    (disk : Disk) : Prop :=
  (∃ r ∈ history, ∃ o : Opened, o.Valid F crates env args disk ∧ Agree o.presented r.signed
      ∧ extract F crates env args disk
        = extractWrite env.toExtractSystem args.output r.trace.payload disk)
    ∨ ∃ e, extract F crates env args disk = (.error (.err e), disk)

/--
**Extraction fails closed exactly on the files that do not overrun it**, unless its warning
cannot be printed.

On any history of runs with distinct sessions, and any presented files, secret and context
whose MAC and ciphertext are not forged.
-/
theorem extract_failsClosed_iff (hlaw : LawfulAead crates.toAeadCrates)
    (history : List (EmbedRun F crates)) (hdistinct : (history.map EmbedRun.session).Nodup)
    (env : ExtractEnv) (args : ExtractArgs) (disk : Disk)
    (hforge : ∀ o : Opened, o.Valid F crates env args disk → Unforged history o) :
    FailsClosed history env args disk ↔
      ¬ Overruns crates env args disk ∧ ¬ Unwarned crates env args disk := by
  constructor
  · intro h
    constructor
    · intro hover
      rcases h with ⟨r, -, o, ho, -, -⟩ | ⟨e, h⟩
      · exact ho.not_overruns hover
      · cases (extract_overrun hover).symm.trans h
    · intro hmute
      rcases h with ⟨r, -, o, ho, -, -⟩ | ⟨e, h⟩
      · exact ho.not_unwarned hmute
      · cases (extract_unwarned hmute).symm.trans h
  · rintro ⟨hover, hmute⟩
    unfold FailsClosed extract
    cases hplain : extractPlaintext F crates env args disk with
    | error e =>
      cases e with
      | err e => exact Or.inr ⟨e, rfl⟩
      | panic p => exact absurd (extractPlaintext_panics hover p hplain).2 hmute
    | ok plaintext =>
      obtain ⟨o, ho, ⟨tag, htag, hverify⟩, hdec⟩ := extractPlaintext_opened hplain
      obtain ⟨r, hr, hagree, rfl⟩ :=
        opened_authentic hlaw hdistinct ho (hforge o ho) htag hverify hdec
      exact Or.inl ⟨r, hr, o, ho, hagree, rfl⟩

end Extract

/-! ## The sample run, presented and tampered with -/

/-- The sample run, of a history of one. -/
noncomputable def sampleRun : EmbedRun ℚ (referenceCrates sampleWord) where
  env := sampleEnv 1 3
  args := sampleArgs samplePng
  disk := sampleDisk
  trace := sampleTrace 1 3
  valid := sampleTrace_valid (by decide) rfl fun _ _ => rfl

/-- Extraction of the sample's image. -/
def sampleExtract : ExtractArgs := sampleExtractArgs samplePng ⟨"", some "out.bin"⟩

theorem sample_found : ∃ params read,
    extractSetup (referenceCrates sampleWord) sampleExtractEnv sampleExtract
        (sampleWritten 1 3 samplePng sampleDisk)
      = .ok ((sampleTrace 1 3).metadata (referenceCrates sampleWord) "session-1",
          { sampleKeys 3 with encKey := ⟨sampleWord, ⟨⟨Vector.replicate 8 4, 0⟩, false⟩⟩ },
          params, read)
      ∧ (StegoEngine.new ℚ (referenceCrates sampleWord).hmac).extract read "lsb-sequential-v1"
          params (sampleTrace 1 3).unsigned.encryptedLen.toNat = .ok (sampleEncrypted 3) :=
  have hlen : (sampleTrace 1 3).encrypted.length < 2 ^ 32 := by
    rw [show (sampleTrace 1 3).encrypted.length = 29 from sampleEncrypted_length 3]
    decide
  sampleRun.valid.found (referenceCrates_lawful sampleWord) (referenceCrates_lossless _ _)
    hlen (Or.inl rfl) (sample_save (Or.inl (by decide)) 3) rfl rfl
    (Function.update_of_ne (by decide) _ _) (Function.update_self ..) rfl ⟨rfl, rfl⟩ ⟨rfl, rfl⟩

/-- What the extractor opens there is what the run signed. -/
theorem sample_opened {o : Opened} (h : o.Valid ℚ (referenceCrates sampleWord) sampleExtractEnv
    sampleExtract (sampleWritten 1 3 samplePng sampleDisk)) :
    o.presented = sampleRun.signed ∧ (o.rootKey, o.sessionNonce) = sampleRun.session
      ∧ o.keys.macKey = (sampleKeys 3).macKey ∧ o.keys.encKey.key = sampleWord := by
  obtain ⟨params, read, hsetup, hfound⟩ := sample_found
  obtain ⟨params', read', hsetup', -, hfound'⟩ := h.found
  obtain ⟨secret, -, hroot⟩ := h.rootKey_ok
  have hnonce := h.nonce_ok
  have hcontext := h.context
  obtain ⟨⟨metadata, context, payload⟩, rootKey, sessionNonce, keys⟩ := o
  dsimp only at hsetup' hfound' hroot hnonce hcontext ⊢
  cases hsetup.symm.trans hsetup'
  cases hfound.symm.trans hfound'
  cases hcontext
  have hown : deriveRootKey (referenceCrates sampleWord) secret (sampleTrace 1 3).kdf
      = .ok sampleWord := sampleRun.valid.rootKey_ok
  cases hown.symm.trans hroot
  cases (hexField_encode (Vector.replicate 12 1)).symm.trans hnonce
  exact ⟨rfl, rfl, rfl, rfl⟩

theorem sample_unforged {o : Opened} (h : o.Valid ℚ (referenceCrates sampleWord) sampleExtractEnv
    sampleExtract (sampleWritten 1 3 samplePng sampleDisk)) : Unforged [sampleRun] o := by
  obtain ⟨hpresented, hsession, hmacKey, hencKey⟩ := sample_opened h
  have hmem : sampleRun ∈ [sampleRun] := List.mem_singleton_self _
  refine ⟨fun _ _ _ => ⟨sampleRun, hmem, hmacKey.symm, by rw [hpresented]⟩,
    fun _ _ => ⟨sampleRun, hmem, hencKey.symm, ?_⟩, ?_, ?_⟩
  · rw [hpresented]
    exact ⟨rfl, rfl, rfl⟩
  all_goals
    intro r hr _
    rw [List.mem_singleton.mp hr, hsession]

theorem extract_failsClosed_sample : FailsClosed [sampleRun] sampleExtractEnv sampleExtract
    (sampleWritten 1 3 samplePng sampleDisk) := by
  refine (extract_failsClosed_iff (referenceCrates_lawful sampleWord).toLawfulAead [sampleRun]
    (List.nodup_singleton _) _ _ _ fun _ => sample_unforged).mpr ⟨?_, fun h => Bool.noConfusion h.1⟩
  intro h
  obtain ⟨metadata, keys, params, stego, id, hsetup, hid, hover⟩ := h
  obtain ⟨_, _, hsetup', -⟩ := sample_found
  cases hsetup'.symm.trans hsetup
  have hname : id = .lsbSequential := by
    have hown : TechniqueId.fromName "lsb-sequential-v1" = some .lsbSequential := by decide
    exact Option.some.inj (hid.symm.trans hown)
  have hlen : ((sampleTrace 1 3).metadata (referenceCrates sampleWord)
      "session-1").encryptedLen.toNat = 29 :=
    sampleRun.valid.encryptedLen_eq.trans (sampleEncrypted_length 3)
  rcases hover with hover | ⟨hedge, -⟩
  · omega
  · rw [hname] at hedge
    cases hedge

/-- The sample's record with a length whose bits leave their word. -/
noncomputable def tamperedRecord : Metadata :=
  { (sampleTrace 1 3).metadata (referenceCrates sampleWord) "session-1" with
    encryptedLen := 2305843009213693948 }

/-- The sample's files with that record. -/
noncomputable def tamperedDisk : Disk :=
  Function.update (sampleWritten 1 3 samplePng sampleDisk) (samplePng.withExtension "meta")
    (some (encodeRecord tamperedRecord))

theorem tampered_overruns :
    Overruns (referenceCrates sampleWord) sampleExtractEnv sampleExtract tamperedDisk := by
  obtain ⟨params, read, hsetup, -⟩ := sample_found
  obtain ⟨hentropy, -, hvalid, hkeys, hparams, hopen⟩ := extractSetup_eq_ok.mp hsetup
  have hread : readMetadata (referenceCrates sampleWord) true tamperedDisk
      (samplePng.withExtension "meta") = .ok tamperedRecord :=
    readMetadata_eq_ok.mpr ⟨_, rfl, Function.update_self .., decodeRecord_encodeRecord _⟩
  refine ⟨tamperedRecord, _, params, read, .lsbSequential, extractSetup_eq_ok.mpr
    ⟨hentropy, hread, ?_, hkeys, hparams, ?_⟩, by decide, Or.inl (by decide)⟩
  · obtain ⟨hversion, hmac, -⟩ := validateMetadata_eq_ok.mp hvalid
    exact validateMetadata_eq_ok.mpr ⟨hversion, hmac, by decide⟩
  · obtain ⟨image, hio, hfile, hdecode⟩ := openImage_eq_ok.mp hopen
    have hsame := Function.update_of_ne (show samplePng ≠ samplePng.withExtension "meta" by decide)
      (some (encodeRecord tamperedRecord)) (sampleWritten 1 3 samplePng sampleDisk)
    exact openImage_eq_ok.mpr ⟨image, hio, hsame.trans hfile, hdecode⟩

/-- The record is tampered with, no MAC or ciphertext is forged, and no error is returned. -/
theorem extract_tampered_panics :
    ([sampleRun].map EmbedRun.session).Nodup
      ∧ (∀ o : Opened, o.Valid ℚ (referenceCrates sampleWord) sampleExtractEnv sampleExtract
          tamperedDisk → Unforged [sampleRun] o)
      ∧ extract ℚ (referenceCrates sampleWord) sampleExtractEnv sampleExtract tamperedDisk
          = (.error (.panic .overflow), tamperedDisk)
      ∧ ¬ FailsClosed [sampleRun] sampleExtractEnv sampleExtract tamperedDisk := by
  have hpanic := extract_overrun (F := ℚ) tampered_overruns
  refine ⟨List.nodup_singleton _, fun o ho => ?_, hpanic, ?_⟩
  · exact absurd tampered_overruns ho.not_overruns
  · intro h
    rcases h with ⟨r, -, o, ho, -, -⟩ | ⟨e, h⟩
    · exact ho.not_overruns tampered_overruns
    · cases hpanic.symm.trans h

end Stegosafe.Proof
