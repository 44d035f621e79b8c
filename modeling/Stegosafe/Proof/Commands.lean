import Stegosafe.Cli.Main
import Stegosafe.Proof.RoundTrip

/-!
# What a run has done

Inversion of the two commands: what each step of a run that returned must have
returned. `EmbedTrace` is the record of a run of `embed` up to its first write, with
one field of `Valid` for each step; later proofs use it and never unfold a command.

`LawfulCrates` is what the commands rely on in the libraries they call.
-/

namespace Stegosafe.Proof

open Stegosafe Checked Outcome Text

/-- The values a run of `embed` computes. -/
@[ext] structure EmbedTrace where
  secret : Bytes
  sessionNonce : Nonce
  salt : Vector UInt8 argon2SaltLen
  rootKey : Key
  keys : SessionKeys
  payload : Bytes
  encrypted : Bytes
  cover : DynamicImage
  stego : DynamicImage
  result : EmbedResult

namespace EmbedTrace

/-- The KDF record of a run. -/
def kdf (t : EmbedTrace) : KdfMetadata :=
  { algorithm := kdfAlgorithm
    salt := Hex.encode t.salt.toList
    memoryCostKib := argon2MemoryKib
    timeCost := argon2TimeCost
    parallelism := argon2Parallelism
    outputLen := rootKeyLen }

/-- The metadata of a run before it is signed. -/
def unsigned (t : EmbedTrace) : Metadata :=
  { version := metadataVersion
    sessionNonce := Hex.encode t.sessionNonce.toList
    kdf := t.kdf
    embedding := t.result.techniqueName
    embedParams := some t.result.paramsMeta
    encryptedLen := UInt64.ofNat t.encrypted.length
    mac := "" }

/-- The bytes a run signs. -/
def macInput (t : EmbedTrace) (context : String) : Bytes :=
  metadataMacInput t.unsigned context t.encrypted

/-- The metadata of a run. -/
def metadata (crates : Crates) (context : String) (t : EmbedTrace) : Metadata :=
  { t.unsigned with
    mac := Hex.encode (crates.hmac t.keys.macKey.key.toList (t.macInput context)).toList }

/-- The steps of a run, each of which returned what the trace says. -/
structure Valid (F : Type) [Scalar F] (crates : Crates) (env : EmbedEnv) (args : EmbedArgs)
    (disk : Disk) (t : EmbedTrace) : Prop where
  entropy : env.entropy = .ok ()
  secret_ok : loadSecret env.readsSecret env.warns disk args.secretFile args.secret = .ok t.secret
  nonce_ok : generateSessionNonce (returned env.sessionNonce) = .ok t.sessionNonce
  salt_ok : env.salt = .ok t.salt
  rootKey_ok : deriveRootKey crates t.secret t.kdf = .ok t.rootKey
  keys_ok : deriveSessionKeys crates.toKdfCrates t.rootKey.toList t.sessionNonce
    (returned env.nonceBase) = .ok t.keys
  payload_ok : readFile env.readsPayload disk args.payload = .ok t.payload
  encrypted_ok :
    (t.keys.encKey.encrypt crates.toAeadCrates t.payload (utf8 args.context)).1 = .ok t.encrypted
  cover_ok : openImage crates env.readsCover disk args.cover = .ok t.cover
  stego_ok : (StegoEngine.new F crates.hmac).embed F crates.hmac t.cover t.encrypted
    t.keys.techniqueSeed t.keys.paramSeed = .ok (t.stego, t.result)

end EmbedTrace

section Commands

variable {F : Type} [Scalar F] {crates : Crates}

@[simp] theorem inContext_outcome {α : Type} (text : String) (x : Outcome CliError α) :
    inContext text x = withContext text x := rfl

/-- **A run of `embed` up to its first write is its trace.** -/
theorem embedPrepare_eq_ok {env : EmbedEnv} {args : EmbedArgs} {disk : Disk}
    {stego : DynamicImage} {metadata : Metadata} :
    embedPrepare F crates env args disk = .ok (stego, metadata) ↔
      ∃ t : EmbedTrace, t.Valid F crates env args disk
        ∧ stego = t.stego ∧ metadata = t.metadata crates args.context := by
  unfold embedPrepare embedSteps generateKdfMetadata metadataMac
  simp only [lift_outcome, mapErr_outcome, pure_outcome, inContext_outcome, bind_eq_ok,
    withContext_eq_ok, mapErr_eq_ok, returned_eq_ok, HmacKey.sign,
    Except.ok.injEq, Prod.exists, exists_eq_left']
  constructor
  · intro h
    obtain ⟨_, hentropy, secret, hsecret, nonce, hnonce, kdf, ⟨salt, hsalt, rfl⟩, rootKey, hroot,
      keys, hkeys, payload, hpayload, encrypted, henc, cover, hcover, stego', result, hstego,
      heq⟩ := h
    -- the values the steps returned are the trace
    cases heq
    exact ⟨⟨secret, nonce, salt, rootKey, keys, payload, encrypted, cover, stego, result⟩,
      ⟨hentropy, hsecret, hnonce, hsalt, hroot, hkeys, hpayload, henc, hcover, hstego⟩, rfl, rfl⟩
  · intro h
    obtain ⟨t, h, rfl, rfl⟩ := h
    exact ⟨(), h.entropy, _, h.secret_ok, _, h.nonce_ok, _, ⟨_, h.salt_ok, rfl⟩, _, h.rootKey_ok,
      _, h.keys_ok, _, h.payload_ok, _, h.encrypted_ok, _, h.cover_ok, _, _, h.stego_ok, rfl⟩

section Traces

variable {env : EmbedEnv} {args : EmbedArgs} {disk disk' : Disk} {t t' : EmbedTrace}

/-- Two runs that meet the same world derive the same keys. -/
theorem EmbedTrace.Valid.same_keys (ht : t.Valid F crates env args disk)
    (ht' : t'.Valid F crates env args disk')
    (hsame : loadSecret env.readsSecret env.warns disk args.secretFile args.secret
      = loadSecret env.readsSecret env.warns disk' args.secretFile args.secret) :
    t'.secret = t.secret ∧ t'.sessionNonce = t.sessionNonce ∧ t'.salt = t.salt
      ∧ t'.rootKey = t.rootKey ∧ t'.keys = t.keys := by
  have hsecret : t'.secret = t.secret :=
    Except.ok.inj (ht'.secret_ok.symm.trans (hsame.symm.trans ht.secret_ok))
  have hnonce : t'.sessionNonce = t.sessionNonce :=
    Except.ok.inj (ht'.nonce_ok.symm.trans ht.nonce_ok)
  have hsalt : t'.salt = t.salt := Except.ok.inj (ht'.salt_ok.symm.trans ht.salt_ok)
  have hroot' := ht'.rootKey_ok
  rw [hsecret, EmbedTrace.kdf, hsalt] at hroot'
  have hroot : t'.rootKey = t.rootKey := Except.ok.inj (hroot'.symm.trans ht.rootKey_ok)
  have hkeys' := ht'.keys_ok
  rw [hroot, hnonce] at hkeys'
  exact ⟨hsecret, hnonce, hsalt, hroot, Except.ok.inj (hkeys'.symm.trans ht.keys_ok)⟩

/-- **A run has one trace.** -/
theorem EmbedTrace.Valid.unique (ht : t.Valid F crates env args disk)
    (ht' : t'.Valid F crates env args disk) : t' = t := by
  obtain ⟨hsecret, hnonce, hsalt, hroot, hkeys⟩ := ht.same_keys ht' rfl
  have hpayload : t'.payload = t.payload :=
    Except.ok.inj (ht'.payload_ok.symm.trans ht.payload_ok)
  have hcover : t'.cover = t.cover := Except.ok.inj (ht'.cover_ok.symm.trans ht.cover_ok)
  have hencrypted' := ht'.encrypted_ok
  rw [hkeys, hpayload] at hencrypted'
  have hencrypted : t'.encrypted = t.encrypted :=
    Except.ok.inj (hencrypted'.symm.trans ht.encrypted_ok)
  have hstego' := ht'.stego_ok
  rw [hkeys, hcover, hencrypted] at hstego'
  obtain ⟨hstego, hresult⟩ := Prod.mk.inj (Except.ok.inj (hstego'.symm.trans ht.stego_ok))
  exact EmbedTrace.ext hsecret hnonce hsalt hroot hkeys hpayload hencrypted hcover hstego hresult

end Traces

theorem readMetadata_eq_ok {io : Bool} {disk : Disk} {path : Path} {metadata : Metadata} :
    readMetadata crates io disk path = .ok metadata ↔
      ∃ bytes, io = true ∧ disk path = some bytes ∧ crates.fromSlice bytes = some metadata := by
  simp only [readMetadata, bind_eq_ok, withContext_eq_ok, okOr_eq_ok, readFile_eq_ok, and_assoc]

theorem openImage_eq_ok {io : Bool} {disk : Disk} {path : Path} {img : DynamicImage} :
    openImage crates io disk path = .ok img ↔
      ∃ bytes, io = true ∧ disk path = some bytes
        ∧ crates.imageDecode path.extension bytes = some img := by
  simp only [openImage, bind_eq_ok, mapErr_eq_ok, okOr_eq_ok, readFile_eq_ok, and_assoc]

/-- **The first half of `extract`.** -/
theorem extractSetup_eq_ok {env : ExtractEnv} {args : ExtractArgs} {disk : Disk}
    {metadata : Metadata} {keys : SessionKeys} {params : EmbedParams} {stego : DynamicImage} :
    extractSetup crates env args disk = .ok (metadata, keys, params, stego) ↔
      env.entropy = .ok ()
        ∧ readMetadata crates env.readsMetadata disk (args.stego.withExtension "meta")
            = .ok metadata
        ∧ validateMetadata metadata = .ok ()
        ∧ (∃ secret rootKey sessionNonce,
            loadSecret env.readsSecret env.warns disk args.secretFile args.secret = .ok secret
              ∧ deriveRootKey crates secret metadata.kdf = .ok rootKey
              ∧ parseSessionNonce metadata.sessionNonce = .ok sessionNonce
              ∧ deriveSessionKeys crates.toKdfCrates rootKey.toList sessionNonce
                  (returned env.nonceBase) = .ok keys)
        ∧ extractParams crates metadata keys = .ok params
        ∧ openImage crates env.readsStego disk args.stego = .ok stego := by
  unfold extractSetup extractSteps
  simp only [lift_outcome, mapErr_outcome, pure_outcome, inContext_outcome, bind_eq_ok,
    withContext_eq_ok, mapErr_eq_ok, returned_eq_ok, Except.ok.injEq]
  constructor
  · intro h
    obtain ⟨_, hentropy, metadata', hmeta, _, hvalid, secret, hsecret, rootKey, hroot, nonce,
      hnonce, keys', hkeys, params', hparams, stego', hstego, heq⟩ := h
    cases heq
    exact ⟨hentropy, hmeta, hvalid, ⟨_, _, _, hsecret, hroot, hnonce, hkeys⟩, hparams, hstego⟩
  · intro h
    obtain ⟨hentropy, hmeta, hvalid, ⟨_, _, _, hsecret, hroot, hnonce, hkeys⟩, hparams, hstego⟩ := h
    exact ⟨_, hentropy, _, hmeta, _, hvalid, _, hsecret, _, hroot, _, hnonce, _, hkeys, _, hparams,
      _, hstego, rfl⟩

/-- **The second half of `extract`**: find the payload, verify, decrypt. -/
theorem extractPlaintext_eq_ok {env : ExtractEnv} {args : ExtractArgs} {disk : Disk}
    {plaintext : Bytes} :
    extractPlaintext F crates env args disk = .ok plaintext ↔
      ∃ metadata keys params stego payload expectedMac,
        extractSetup crates env args disk = .ok (metadata, keys, params, stego)
          ∧ (StegoEngine.new F crates.hmac).extract stego metadata.embedding params
              metadata.encryptedLen.toNat = .ok payload
          ∧ Hex.decode metadata.mac = some expectedMac
          ∧ keys.macKey.verify crates.toKdfCrates (metadataMacInput metadata args.context payload)
              expectedMac = .ok ()
          ∧ keys.encKey.decrypt crates.toAeadCrates payload (utf8 args.context)
              = .ok plaintext := by
  unfold extractPlaintext extractFound
  simp only [bind_eq_ok, withContext_eq_ok, mapErr_eq_ok, okOr_eq_ok, Prod.exists]
  constructor
  · intro h
    obtain ⟨metadata, keys, params, stego, hsetup, payload, hpayload, mac, hmac, _, hverify,
      hdec⟩ := h
    exact ⟨_, _, _, _, _, _, hsetup, hpayload, hmac, hverify, hdec⟩
  · intro h
    obtain ⟨metadata, keys, params, stego, payload, mac, hsetup, hpayload, hmac, hverify, hdec⟩ := h
    exact ⟨_, _, _, _, hsetup, _, hpayload, _, hmac, _, hverify, hdec⟩

/-- A write that went through, and a message that was printed. -/
theorem extractWrite_eq_ok {system : ExtractSystem} {output : Path} {plaintext : Bytes}
    {disk disk' : Disk} :
    extractWrite system output plaintext disk = (.ok (), disk') ↔
      (system.writesPayload.succeeds = true ∧ system.prints = true)
        ∧ disk' = Function.update disk output (some plaintext) := by
  unfold extractWrite
  cases hwrite : system.writesPayload.succeeds with
  | false =>
    rw [writeFile_fails hwrite]
    constructor
    · intro h
      cases h
    · rintro ⟨⟨hfalse, -⟩, -⟩
      cases hfalse
  | true =>
    rw [writeFile_succeeds hwrite]
    dsimp only
    constructor
    · intro h
      obtain ⟨hprint, hdisk⟩ := Prod.mk.inj h
      exact ⟨⟨rfl, printLine_eq_ok.mp hprint⟩, hdisk.symm⟩
    · rintro ⟨⟨-, hprints⟩, rfl⟩
      rw [printLine_eq_ok.mpr hprints]

/-- `extract` that succeeds has written the plaintext. -/
theorem extract_eq_ok {env : ExtractEnv} {args : ExtractArgs} {disk disk' : Disk} :
    extract F crates env args disk = (.ok (), disk') ↔
      ∃ plaintext, extractPlaintext F crates env args disk = .ok plaintext
        ∧ (env.writesPayload.succeeds = true ∧ env.prints = true)
        ∧ disk' = Function.update disk args.output (some plaintext) := by
  unfold extract
  cases extractPlaintext F crates env args disk with
  | error e => simp
  | ok plaintext => simp [extractWrite_eq_ok]

/-- Its end touches no file but its output. -/
theorem extractWrite_elsewhere (system : ExtractSystem) {output : Path} (plaintext : Bytes)
    (disk : Disk) {path : Path} (hpath : path ≠ output) :
    (extractWrite system output plaintext disk).2 path = disk path := by
  unfold extractWrite
  cases hwrite : system.writesPayload.succeeds with
  | false =>
    rw [writeFile_fails hwrite]
    exact Write.broken_of_ne hpath
  | true =>
    rw [writeFile_succeeds hwrite]
    exact Function.update_of_ne hpath _ _

/-- **The outcomes of saving an image**: saved, or refused with the file left as it may be. -/
theorem saveImage_cases (crates : Crates) (io : Write) (disk : Disk) (path : Path)
    (img : DynamicImage) :
    (∃ image, crates.imageEncode path.extension img = some image ∧ io.succeeds = true
        ∧ saveImage crates io disk path img = (.ok (), Function.update disk path (some image)))
      ∨ saveImage crates io disk path img = (fail .image, io.broken disk path) := by
  unfold saveImage
  cases crates.imageEncode path.extension img with
  | none => exact Or.inr rfl
  | some image =>
    dsimp only
    cases hio : io.succeeds with
    | false =>
      rw [writeFile_fails hio]
      exact Or.inr rfl
    | true =>
      rw [writeFile_succeeds hio]
      exact Or.inl ⟨image, rfl, rfl, rfl⟩

/-- The disk after a metadata write that was not made, or did not go through. -/
def MetadataMissed (crates : Crates) (system : EmbedSystem) (output : Path) (metadata : Metadata)
    (disk disk' : Disk) : Prop :=
  (crates.toVecPretty metadata = none ∧ disk' = disk)
    ∨ (system.writesMetadata.succeeds = false
      ∧ disk' = system.writesMetadata.broken disk (output.withExtension "meta"))

/--
**The outcomes of the end of `embed`**: the image not saved, only the image saved, or both
files written.
-/
theorem embedWrite_cases (crates : Crates) (system : EmbedSystem) (output : Path)
    (stego : DynamicImage) (metadata : Metadata) (disk : Disk) :
    (∃ e, embedWrite crates system output stego metadata disk
        = (.error (.err e), system.savesStego.broken disk output))
      ∨ (∃ e image disk', crates.imageEncode output.extension stego = some image
          ∧ system.savesStego.succeeds = true
          ∧ MetadataMissed crates system output metadata
              (Function.update disk output (some image)) disk'
          ∧ embedWrite crates system output stego metadata disk = (.error (.err e), disk'))
      ∨ ∃ image text, crates.imageEncode output.extension stego = some image
          ∧ crates.toVecPretty metadata = some text
          ∧ embedWrite crates system output stego metadata disk
              = (printLine system.prints, Function.update
                  (Function.update disk output (some image)) (output.withExtension "meta")
                  (some text)) := by
  rw [embedWrite]
  rcases saveImage_cases crates system.savesStego disk output stego with
    ⟨image, himage, hsaves, hsave⟩ | hsave
  · -- the image is on the disk; only the JSON or the second write can still fail
    rw [hsave]
    dsimp only
    cases htext : crates.toVecPretty metadata with
    | none => exact Or.inr (Or.inl ⟨_, image, _, himage, hsaves, Or.inl ⟨htext, rfl⟩, rfl⟩)
    | some text =>
      dsimp only
      cases hwrite : system.writesMetadata.succeeds with
      | false =>
        rw [writeFile_fails hwrite]
        exact Or.inr (Or.inl ⟨_, image, _, himage, hsaves, Or.inr ⟨hwrite, rfl⟩, rfl⟩)
      | true =>
        rw [writeFile_succeeds hwrite]
        exact Or.inr (Or.inr ⟨image, text, himage, rfl, rfl⟩)
  · rw [hsave]
    exact Or.inl ⟨_, rfl⟩

/-- The run fails between its two writes. -/
def StopsBetween (F : Type) [Scalar F] (crates : Crates) (env : EmbedEnv) (args : EmbedArgs)
    (disk : Disk) : Prop :=
  ∃ stego metadata image, embedPrepare F crates env args disk = .ok (stego, metadata)
    ∧ crates.imageEncode args.output.extension stego = some image
    ∧ env.savesStego.succeeds = true
    ∧ (crates.toVecPretty metadata = none ∨ env.writesMetadata.succeeds = false)

/-- What a run that fails between its two writes leaves. -/
def LeftBetween (env : EmbedEnv) (args : EmbedArgs) (disk disk' : Disk) : Prop :=
  ∃ image, disk' = Function.update disk args.output (some image)
    ∨ disk' = env.writesMetadata.broken (Function.update disk args.output (some image))
        (args.output.withExtension "meta")

/--
**The outcomes of a run of `embed`**: failed before it writes, failed to save the image,
stopped between its two writes, or written both.
-/
theorem embed_cases (F : Type) [Scalar F] (crates : Crates) (env : EmbedEnv) (args : EmbedArgs)
    (disk : Disk) :
    (∃ e, embed F crates env args disk = (.error e, disk))
      ∨ (∃ e, embed F crates env args disk
          = (.error (.err e), env.savesStego.broken disk args.output))
      ∨ (StopsBetween F crates env args disk ∧ ∃ e disk', LeftBetween env args disk disk'
          ∧ embed F crates env args disk = (.error (.err e), disk'))
      ∨ ∃ stego metadata image text, embedPrepare F crates env args disk = .ok (stego, metadata)
          ∧ crates.imageEncode args.output.extension stego = some image
          ∧ crates.toVecPretty metadata = some text
          ∧ embed F crates env args disk
              = (printLine env.prints, Function.update
                  (Function.update disk args.output (some image))
                  (args.output.withExtension "meta") (some text)) := by
  rw [embed]
  cases hprep : embedPrepare F crates env args disk with
  | error e => exact Or.inl ⟨e, rfl⟩
  | ok prepared =>
    obtain ⟨stego, metadata⟩ := prepared
    dsimp only
    rcases embedWrite_cases crates env.toEmbedSystem args.output stego metadata disk with
      ⟨e, hw⟩ | ⟨e, image, disk', himage, hsaves, hmissed, hw⟩ | ⟨image, text, himage, htext, hw⟩
    · exact Or.inr (Or.inl ⟨e, hw⟩)
    · rcases hmissed with ⟨hjson, rfl⟩ | ⟨hwrite, rfl⟩
      · have hstop : StopsBetween F crates env args disk :=
          ⟨stego, metadata, image, hprep, himage, hsaves, Or.inl hjson⟩
        exact Or.inr (Or.inr (Or.inl ⟨hstop, e, _, ⟨image, Or.inl rfl⟩, hw⟩))
      · have hstop : StopsBetween F crates env args disk :=
          ⟨stego, metadata, image, hprep, himage, hsaves, Or.inr hwrite⟩
        exact Or.inr (Or.inr (Or.inl ⟨hstop, e, _, ⟨image, Or.inr rfl⟩, hw⟩))
    · exact Or.inr (Or.inr (Or.inr ⟨stego, metadata, image, text, rfl, himage, htext, hw⟩))

/-- What is on the disk after a run of `embed` that succeeds. -/
theorem embed_eq_ok {env : EmbedEnv} {args : EmbedArgs} {disk disk' : Disk}
    (h : embed F crates env args disk = (.ok (), disk')) :
    ∃ stego metadata image text, embedPrepare F crates env args disk = .ok (stego, metadata)
      ∧ crates.imageEncode args.output.extension stego = some image
      ∧ crates.toVecPretty metadata = some text
      ∧ disk' = Function.update (Function.update disk args.output (some image))
          (args.output.withExtension "meta") (some text) := by
  rcases embed_cases F crates env args disk with
    ⟨e, hrun⟩ | ⟨e, hrun⟩ | ⟨-, e, disk'', -, hrun⟩
      | ⟨stego, metadata, image, text, hprep, himage, htext, hrun⟩
  · cases hrun.symm.trans h
  · cases hrun.symm.trans h
  · cases hrun.symm.trans h
  · have hdisk := congrArg Prod.snd (h.symm.trans hrun)
    exact ⟨stego, metadata, image, text, hprep, himage, htext, hdisk⟩

/-- **What is on the disk after a run of `embed` that returns an error.** -/
theorem embed_err_cases {env : EmbedEnv} {args : EmbedArgs} {disk disk' : Disk} {e : CliError}
    (h : embed F crates env args disk = (.error (.err e), disk')) :
    disk' = disk ∨ disk' = env.savesStego.broken disk args.output
      ∨ StopsBetween F crates env args disk ∧ LeftBetween env args disk disk' := by
  rcases embed_cases F crates env args disk with
    ⟨e', hrun⟩ | ⟨e', hrun⟩ | ⟨hstop, e', disk'', hleft, hrun⟩
      | ⟨stego, metadata, image, text, -, -, -, hrun⟩
  · exact Or.inl (congrArg Prod.snd (h.symm.trans hrun))
  · exact Or.inr (Or.inl (congrArg Prod.snd (h.symm.trans hrun)))
  · obtain rfl := congrArg Prod.snd (h.symm.trans hrun)
    exact Or.inr (Or.inr ⟨hstop, hleft⟩)
  · -- once both files are written only the message can fail, and that panics
    have hprint := congrArg Prod.fst (h.symm.trans hrun)
    unfold printLine at hprint
    split at hprint
    · cases hprint
    · cases hprint

/-- A run's ciphertext is a nonce, then a sealed text. -/
theorem EmbedTrace.Valid.encrypted_parts {env : EmbedEnv} {args : EmbedArgs}
    {disk : Disk} {t : EmbedTrace} (h : t.Valid F crates env args disk) :
    ∃ compressed nonce ct, crates.encodeAll t.payload = some compressed
      ∧ crates.gcmSeal t.keys.encKey.key nonce (utf8 args.context) compressed = some ct
      ∧ nonce.length = 12 ∧ t.encrypted = nonce ++ ct := by
  obtain ⟨compressed, hcomp, nonce, hnonce, hseal⟩ :=
    (AeadKey.encrypt_eq_ok crates.toAeadCrates).mp h.encrypted_ok
  obtain ⟨ct, hct, hout⟩ := (AeadKey.sealWith_eq_ok crates.toAeadCrates).mp hseal
  rw [AeadKey.lockNext_key] at hct
  exact ⟨compressed, nonce.toList, ct, hcomp, hct, Vector.length_toList .., hout⟩

end Commands

/-! ## The libraries -/

/-- What encryption relies on in the libraries it calls. -/
structure LawfulAead (crates : AeadCrates) : Prop where
  gcm_open_seal : ∀ {key nonce aad msg ct}, crates.gcmSeal key nonce aad msg = some ct →
    crates.gcmOpen key nonce aad ct = some msg
  /-- Sealing appends a 16-byte tag. -/
  gcm_tag : ∀ {key nonce aad msg ct}, crates.gcmSeal key nonce aad msg = some ct →
    ct.length = msg.length + 16
  zstd_lossless : ∀ {data compressed}, crates.encodeAll data = some compressed →
    crates.decodeAll compressed = some data

/-- Images are saved by extension, and `meta` is not one of an image format. -/
structure SavesByExtension (crates : Crates) : Prop where
  meta_none : ∀ img, crates.imageEncode (some "meta") img = none
  no_extension : ∀ img, crates.imageEncode none img = none

/-- What the commands rely on in the libraries they call. -/
structure LawfulCrates (crates : Crates) : Prop extends LawfulAead crates.toAeadCrates,
    SavesByExtension crates where
  json_lossless : ∀ {metadata text}, crates.toVecPretty metadata = some text →
    crates.fromSlice text = some metadata

/-- The image format of an extension: a saved RGB image is read back pixel by pixel. -/
def LosslessFormat (crates : Crates) (ext : Option String) : Prop :=
  ∀ img bytes, crates.imageEncode ext (.imageRgb8 img) = some bytes →
    ∃ read, crates.imageDecode ext bytes = some read ∧ read.toRgb8 = img

theorem withExtension_meta (p : Path) : (p.withExtension "meta").extension = some "meta"
    ∨ (p.withExtension "meta").extension = none :=
  p.extension_withExtension (by decide) (by decide)

/-- No image is ever saved where metadata is written. -/
theorem SavesByExtension.output_ne_meta {crates : Crates} (h : SavesByExtension crates)
    {output : Path} {stego : DynamicImage} {image : Bytes}
    (hsave : crates.imageEncode output.extension stego = some image) (p : Path) :
    output ≠ p.withExtension "meta" := by
  intro heq
  subst heq
  -- the path of a metadata file has the extension `meta`, or none
  rcases withExtension_meta p with hext | hext
  · rw [hext, h.meta_none stego] at hsave
    cases hsave
  · rw [hext, h.no_extension stego] at hsave
    cases hsave

/-! ## A run's values, recomputed -/

section Recompute

variable {F : Type} [Scalar F] {crates : Crates} {env : EmbedEnv} {args : EmbedArgs}
  {disk : Disk} {t : EmbedTrace}

/-- **Any key with the same raw bytes decrypts a run's ciphertext** to the run's payload. -/
theorem EmbedTrace.Valid.decrypts (hlaw : LawfulAead crates.toAeadCrates)
    (h : t.Valid F crates env args disk) {k : AeadKey} (hk : k.key = t.keys.encKey.key) :
    k.decrypt crates.toAeadCrates t.encrypted (utf8 args.context) = .ok t.payload := by
  obtain ⟨compressed, nonce, ct, hcomp, hct, hlen, hout⟩ := h.encrypted_parts
  have htag := hlaw.gcm_tag hct
  rw [AeadKey.decrypt_eq_ok, hout, List.take_left' hlen, List.drop_left' hlen, hk]
  refine ⟨by rw [List.length_append]; omega, compressed, hlaw.gcm_open_seal hct, ?_⟩
  exact hlaw.zstd_lossless hcomp

theorem EmbedTrace.Valid.encrypted_length (hlaw : LawfulAead crates.toAeadCrates)
    (h : t.Valid F crates env args disk) : 28 ≤ t.encrypted.length := by
  obtain ⟨compressed, nonce, ct, -, hct, hlen, hout⟩ := h.encrypted_parts
  have htag := hlaw.gcm_tag hct
  rw [hout, List.length_append]
  omega

/-- The engine has framed the ciphertext, so its length fits a word. -/
theorem EmbedTrace.Valid.encrypted_lt (h : t.Valid F crates env args disk) :
    t.encrypted.length < 2 ^ 61 := by
  obtain ⟨density, -, img, himg, -, -⟩ := engine_embed_eq_ok.mp h.stego_ok
  have hplane := randomizeParams_bitPlane crates.hmac t.keys.paramSeed
  obtain ⟨-, -, hn, -⟩ :=
    (technique_embed_eq_ok (planeOf_lt (UInt8.le_trans hplane (by decide)))).mp himg
  omega

/-- The stored length is the length. -/
theorem EmbedTrace.Valid.encryptedLen_eq (h : t.Valid F crates env args disk) :
    t.unsigned.encryptedLen.toNat = t.encrypted.length :=
  UInt64.toNat_ofNat_of_lt' (Nat.lt_trans h.encrypted_lt (by decide))

theorem EmbedTrace.Valid.encryptedLen_ne_zero (hlaw : LawfulAead crates.toAeadCrates)
    (h : t.Valid F crates env args disk) : t.unsigned.encryptedLen ≠ 0 := by
  intro hzero
  have hpos := h.encrypted_length hlaw
  have hnat := congrArg UInt64.toNat hzero
  rw [h.encryptedLen_eq] at hnat
  change t.encrypted.length = 0 at hnat
  omega

/-- The metadata of a run passes the checks on metadata. -/
theorem EmbedTrace.Valid.validates (hlaw : LawfulAead crates.toAeadCrates)
    (h : t.Valid F crates env args disk) (context : String) :
    validateMetadata (t.metadata crates context) = .ok () := by
  refine validateMetadata_eq_ok.mpr ⟨rfl, Hex.encode_ne_empty fun hnil => ?_,
    h.encryptedLen_ne_zero hlaw⟩
  have := congrArg List.length hnil
  simp at this

end Recompute

end Stegosafe.Proof
