import Stegosafe.Proof.Reference
import Stegosafe.Proof.RoundTrip

/-!
# What was embedded is extracted

The round trip of the two commands, for the techniques whose list the stego image
determines. The extractor has only the metadata file, the secret and the context;
step by step it comes to the embedder's values: the root key, because salt and
parameters are in the metadata; the session keys up to the nonce base, because the
nonce is; the embedding parameters, because the stored form and the placement key
rebuild them; and with these the ciphertext, the MAC input and the plaintext.

`LawfulCrates` is what the libraries promise for this, and a run on libraries that
keep these promises comes with the theorem.
-/

namespace Stegosafe.Proof

open Stegosafe Checked Outcome Text

/--
**The extractor comes to the embedder's values**, up to the nonce base.

`disk'` is any disk with the two files of the run `t`.
-/
theorem EmbedTrace.Valid.found {F : Type} [Scalar F] {crates : Crates} (hlaw : LawfulCrates crates)
    {env : EmbedEnv} {args : EmbedArgs} {disk disk' : Disk} {t : EmbedTrace}
    (ht : t.Valid F crates env args disk) (hformat : LosslessFormat crates args.output.extension)
    (hlen : t.encrypted.length < 2 ^ 32)
    (htechnique : t.result.techniqueName = "lsb-sequential-v1"
      ∨ t.result.techniqueName = "lsb-random-hmac-v1")
    {image text : Bytes} (himage : crates.imageEncode args.output.extension t.stego = some image)
    (htext : crates.toVecPretty (t.metadata crates args.context) = some text)
    {env' : ExtractEnv} {args' : ExtractArgs} {base : Vector UInt8 8}
    (hstego : args'.stego = args.output) (hstegoFile : disk' args.output = some image)
    (hmetaFile : disk' (args.output.withExtension "meta") = some text)
    (hsecret : loadSecret env'.readsSecret env'.warns disk' args'.secretFile args'.secret
      = .ok t.secret)
    (hentropy : env'.entropy = .ok () ∧ env'.nonceBase = .ok base)
    (hio : env'.readsMetadata = true ∧ env'.readsStego = true) :
    ∃ params read,
      extractSetup crates env' args' disk'
          = .ok (t.metadata crates args.context,
              { t.keys with encKey := ⟨t.keys.encKey.key, ⟨⟨base, 0⟩, false⟩⟩ }, params, read)
        ∧ (StegoEngine.new F crates.hmac).extract read t.result.techniqueName params
            t.unsigned.encryptedLen.toNat = .ok t.encrypted := by
  obtain ⟨density, -, img, himg, hdyn, hresult⟩ := engine_embed_eq_ok.mp ht.stego_ok
  rw [hdyn] at himage
  obtain ⟨read, hread, hrgb⟩ := hformat _ _ himage
  have hname : t.result.techniqueName
      = (selectTechnique crates.hmac t.keys.techniqueSeed density).name :=
    congrArg EmbedResult.techniqueName hresult
  have hid : selectTechnique crates.hmac t.keys.techniqueSeed density ≠ .edgeAdaptiveLsb := by
    intro hedge
    rw [hname, hedge] at htechnique
    exact absurd htechnique (by decide)
  have hplane := randomizeParams_bitPlane crates.hmac t.keys.paramSeed
  -- the keys of the extractor are those of the embedder, on another nonce base
  have hkeys := deriveSessionKeys_rederive (b := base) ht.keys_ok
  refine ⟨randomizeParams crates.hmac t.keys.paramSeed, read, extractSetup_eq_ok.mpr
    ⟨hentropy.1, ?_, ht.validates hlaw.toLawfulAead _, ⟨t.secret, t.rootKey, t.sessionNonce,
      hsecret, ht.rootKey_ok, hexField_encode _, by rw [hentropy.2]; exact hkeys⟩, ?_, ?_⟩, ?_⟩
  · rw [hstego]
    exact readMetadata_eq_ok.mpr ⟨text, hio.1, hmetaFile, hlaw.json_lossless htext⟩
  · have hparams : (t.metadata crates args.context).embedParams
        = some (randomizeParams crates.hmac t.keys.paramSeed).toMeta :=
      congrArg (fun r : EmbedResult => some r.paramsMeta) hresult
    rw [extractParams, hparams]
    dsimp only
    rw [fromMeta_randomizeParams]
    rfl
  · rw [hstego]
    exact openImage_eq_ok.mpr ⟨image, hio.2, hstegoFile, hread⟩
  · rw [hname, engine_extract_eq, hrgb, ht.encryptedLen_eq]
    exact technique_roundTrip hid (planeOf_lt (UInt8.le_trans hplane (by decide))) hlen himg

/--
**Extraction recovers what was embedded.**

After a run of `embed` that chose the sequential or the keyed technique, `extract`
on the two files it wrote, with the same secret and context, writes the payload.
-/
theorem pipeline_roundTrip {F : Type} [Scalar F] (crates : Crates) (hlaw : LawfulCrates crates)
    (env : EmbedEnv) (args : EmbedArgs) (disk disk' : Disk)
    (hformat : LosslessFormat crates args.output.extension)
    (hembed : embed F crates env args disk = (.ok (), disk'))
    (hlen : ∀ t : EmbedTrace, t.Valid F crates env args disk → t.encrypted.length < 2 ^ 32)
    (text : Bytes) (metadata : Metadata)
    (hwritten : disk' (args.output.withExtension "meta") = some text)
    (hmetadata : crates.fromSlice text = some metadata)
    (htechnique : metadata.embedding = "lsb-sequential-v1"
      ∨ metadata.embedding = "lsb-random-hmac-v1")
    (env' : ExtractEnv) (args' : ExtractArgs) (disk'' : Disk) (base : Vector UInt8 8)
    (hstego : args'.stego = args.output) (hcontext : args'.context = args.context)
    (hkept : disk'' args.output = disk' args.output
      ∧ disk'' (args.output.withExtension "meta") = disk' (args.output.withExtension "meta"))
    (hsecret : loadSecret env'.readsSecret env'.warns disk'' args'.secretFile args'.secret
      = loadSecret env.readsSecret env.warns disk args.secretFile args.secret)
    (hentropy : env'.entropy = .ok () ∧ env'.nonceBase = .ok base)
    (hio : env'.readsMetadata = true ∧ env'.readsStego = true
      ∧ env'.writesPayload.succeeds = true ∧ env'.prints = true) :
    ∃ payload, readFile env.readsPayload disk args.payload = .ok payload
      ∧ extract F crates env' args' disk''
          = (.ok (), Function.update disk'' args'.output (some payload)) := by
  obtain ⟨stego, metadata', image, text', hprep, himage, htext, rfl⟩ := embed_eq_ok hembed
  obtain ⟨t, ht, rfl, rfl⟩ := embedPrepare_eq_ok.mp hprep
  -- the files of the run
  have hmetaFile : disk'' (args.output.withExtension "meta") = some text' := by
    rw [hkept.2, Function.update_self]
  have hstegoFile : disk'' args.output = some image := by
    rw [hkept.1, Function.update_of_ne (hlaw.output_ne_meta himage _), Function.update_self]
  obtain rfl : metadata = t.metadata crates args.context := by
    rw [Function.update_self] at hwritten
    cases hwritten
    exact Option.some.inj (hmetadata.symm.trans (hlaw.json_lossless htext))
  obtain ⟨params, read, hsetup, hfound⟩ := ht.found hlaw hformat (hlen t ht) htechnique himage
    htext hstego hstegoFile hmetaFile (hsecret.trans ht.secret_ok) hentropy ⟨hio.1, hio.2.1⟩
  refine ⟨t.payload, ht.payload_ok, extract_eq_ok.mpr ⟨t.payload, ?_, hio.2.2, rfl⟩⟩
  refine extractPlaintext_eq_ok.mpr ⟨_, _, _, _, t.encrypted, _, hsetup, hfound,
    Hex.decode_encode _, ?_, ?_⟩
  · rw [hcontext]
    exact HmacKey.verify_eq_ok.mpr rfl
  · rw [hcontext]
    exact ht.decrypts hlaw.toLawfulAead rfl

theorem pipeline_roundTrip_sample : ∃ payload,
    readFile true sampleDisk ⟨"", some "payload.bin"⟩ = .ok payload
      ∧ extract ℚ (referenceCrates sampleWord) sampleExtractEnv
          (sampleExtractArgs samplePng ⟨"", some "out.bin"⟩)
          (sampleWritten 1 3 samplePng sampleDisk)
        = (.ok (), Function.update (sampleWritten 1 3 samplePng sampleDisk)
            ⟨"", some "out.bin"⟩ (some payload)) :=
  pipeline_roundTrip (referenceCrates sampleWord) (referenceCrates_lawful _) (sampleEnv 1 3)
    (sampleArgs samplePng) sampleDisk _ (referenceCrates_lossless _ _)
    (sample_embed (by decide) (Or.inl (by decide)) fun _ _ => rfl)
    (fun t ht => by rw [sample_encrypted_length ht]; decide)
    _ _ (Function.update_self ..) (decodeRecord_encodeRecord _) (Or.inl rfl)
    sampleExtractEnv (sampleExtractArgs samplePng ⟨"", some "out.bin"⟩) _ _ rfl rfl
    ⟨rfl, rfl⟩ rfl ⟨rfl, rfl⟩ ⟨rfl, rfl, rfl, rfl⟩

end Stegosafe.Proof
