import Stegosafe.Proof.EdgeMargin
import Stegosafe.Proof.Format

/-!
# Which embedded payloads can be had back

`embed` reports success once its two files are written, and looks at neither of them again.
Whether `extract` finds in them what was embedded is decided by the frame and the list
along which it is sought. The sequential and the keyed technique seek it along the list it
was written along. The edge-adaptive technique makes its list from the picture it is given,
which is not the picture it was given before.

`EmbedTrace.Findable` says in terms of the cover and the ciphertext alone when the lists
agree as far as it matters. Then the pair a run wrote is well formed, and only then, as far
as the MAC tells what is found from what was embedded: the rest of a well-formed pair, the
keys, the parameters and the MAC, is always in order (`EmbedTrace.Valid.wellFormed` and
`findable`).
-/

namespace Stegosafe.Proof

open Stegosafe Checked Outcome Text

/-! ## The engine -/

/-- Extraction with this technique looks for the ciphertext where embedding put it. -/
def FoundAgain (technique : String) (cover : RgbImage) (ciphertext : Bytes)
    (params : EmbedParams) : Prop :=
  ciphertext.length < 2 ^ 32
    ∧ (technique = TechniqueId.edgeAdaptiveLsb.name → OrderKept cover ciphertext params)

/-- **When the engine finds what it embedded.** -/
theorem engine_finds_iff {hmac : Hmac} {cover stego : DynamicImage} {ciphertext : Bytes}
    {techniqueSeed paramSeed : Key} {result : EmbedResult}
    (h : (StegoEngine.new ℚ hmac).embed ℚ hmac cover ciphertext techniqueSeed paramSeed
      = .ok (stego, result)) :
    (StegoEngine.new ℚ hmac).extract stego result.techniqueName (randomizeParams hmac paramSeed)
        ciphertext.length = .ok ciphertext ↔
      FoundAgain result.techniqueName cover.toRgb8 ciphertext
        (randomizeParams hmac paramSeed) := by
  obtain ⟨density, -, img, himg, rfl, rfl⟩ := engine_embed_eq_ok.mp h
  generalize selectTechnique hmac techniqueSeed density = id at himg ⊢
  generalize hparams : randomizeParams hmac paramSeed = params at himg ⊢
  have hplane : ∀ id, (planeOf id params).toNat < 8 := by
    rw [← hparams]
    exact fun id =>
      planeOf_lt (UInt8.le_trans (randomizeParams_bitPlane hmac paramSeed) (by decide))
  rw [engine_extract_eq, FoundAgain]
  dsimp only
  by_cases hlen : ciphertext.length < 2 ^ 32
  · cases id with
    | edgeAdaptiveLsb =>
      -- the technique ran, so its index arithmetic was in range
      obtain ⟨c, hlist, -⟩ := (technique_embed_eq_ok (hplane .edgeAdaptiveLsb)).mp himg
      have hsafe := (positionList_edge_ok ℚ hmac hlist).1
      obtain ⟨hfits, rfl⟩ := (edge_embed_eq_ok hsafe (hplane .edgeAdaptiveLsb) hlen).mp himg
      refine (edge_extract_eq_ok hsafe (hplane .edgeAdaptiveLsb) hlen hfits).trans ?_
      exact ⟨fun hkept => ⟨hlen, fun _ => hkept⟩, fun hfound => hfound.2 rfl⟩
    | lsbSequential =>
      exact ⟨fun _ => ⟨hlen, fun hname => absurd hname (by decide)⟩,
        fun _ => technique_roundTrip (by decide) (hplane .lsbSequential) hlen himg⟩
    | lsbRandomHmac =>
      exact ⟨fun _ => ⟨hlen, fun hname => absurd hname (by decide)⟩,
        fun _ => technique_roundTrip (by decide) (hplane .lsbRandomHmac) hlen himg⟩
  · -- the length of such a frame is written without its high bits
    constructor
    · intro hfound
      obtain ⟨-, -, -, hlt, -⟩ := (technique_extract_eq_ok (hplane id)).mp hfound
      exact absurd hlt hlen
    · intro hfound
      exact absurd hfound.1 hlen

/-! ## The pair -/

section Pair

variable {crates : Crates} {secret : Bytes} {record : Metadata} {keys keys' : RecordKeys}

/-- A record unlocks one set of keys. -/
theorem Unlocks.unique (h : Unlocks crates secret record keys)
    (h' : Unlocks crates secret record keys') : keys = keys' := by
  obtain ⟨-, -, salt, root, nonce, hsalt, -, hroot, hnonce, -, henc, hmac, htechnique, hparam⟩ := h
  obtain ⟨-, -, salt', root', nonce', hsalt', -, hroot', hnonce', -, henc', hmac', htechnique',
    hparam'⟩ := h'
  obtain rfl := Vector.toList_inj.mp (Option.some.inj (hsalt.symm.trans hsalt'))
  obtain rfl := Option.some.inj (hroot.symm.trans hroot')
  obtain rfl := Vector.toList_inj.mp (Option.some.inj (hnonce.symm.trans hnonce'))
  obtain ⟨enc, mac, technique, param⟩ := keys
  obtain ⟨enc', mac', technique', param'⟩ := keys'
  obtain rfl := Option.some.inj (henc.symm.trans henc')
  obtain rfl := Option.some.inj (hmac.symm.trans hmac')
  obtain rfl := Option.some.inj (htechnique.symm.trans htechnique')
  obtain rfl := Option.some.inj (hparam.symm.trans hparam')
  rfl

variable {t : EmbedTrace} {env : EmbedEnv} {args : EmbedArgs} {disk : Disk}

/-- Extraction looks for the ciphertext of a run where the run put it. -/
def EmbedTrace.Findable (crates : Crates) (t : EmbedTrace) : Prop :=
  FoundAgain t.result.techniqueName t.cover.toRgb8 t.encrypted
    (randomizeParams crates.hmac t.keys.paramSeed)

/-- If extraction finds another ciphertext than a run embedded, its MAC is another. -/
def EmbedTrace.MacTells (crates : Crates) (context : String) (t : EmbedTrace) : Prop :=
  ∀ ciphertext,
    (StegoEngine.new ℚ crates.hmac).extract t.stego t.result.techniqueName
      (randomizeParams crates.hmac t.keys.paramSeed) t.encrypted.length = .ok ciphertext →
    crates.hmac t.keys.macKey.key.toList
        (metadataMacInput (t.metadata crates context) context ciphertext)
      = crates.hmac t.keys.macKey.key.toList (t.macInput context) →
    ciphertext = t.encrypted

/-- The record of a run gives its keys back. -/
theorem EmbedTrace.Valid.unlocks (ht : t.Valid ℚ crates env args disk) :
    Unlocks crates t.secret (t.metadata crates args.context) (recordKeys t.keys) := by
  have hkeys := ht.keys_ok
  obtain ⟨-, -, -, -, -, -, base, hbase, -⟩ := deriveSessionKeys_eq_ok.mp hkeys
  rw [hbase] at hkeys
  have hnonce : parseSessionNonce (t.metadata crates args.context).sessionNonce
      = .ok t.sessionNonce := hexField_encode _
  have hderived : ∃ rootKey sessionNonce,
      deriveRootKey crates t.secret (t.metadata crates args.context).kdf = .ok rootKey
        ∧ parseSessionNonce (t.metadata crates args.context).sessionNonce = .ok sessionNonce
        ∧ deriveSessionKeys (m := Outcome) crates.toKdfCrates rootKey.toList sessionNonce
            (.ok base) = .ok t.keys := ⟨t.rootKey, t.sessionNonce, ht.rootKey_ok, hnonce, hkeys⟩
  exact (derive_eq_ok.mp hderived).1

/-- And its parameters. -/
theorem EmbedTrace.Valid.standsFor_iff (ht : t.Valid ℚ crates env args disk) {context : String}
    {params : EmbedParams} :
    StandsFor crates.hmac (t.metadata crates context).embedParams t.keys.macKey.key
        t.keys.paramSeed params ↔
      params = randomizeParams crates.hmac t.keys.paramSeed := by
  obtain ⟨density, -, img, -, -, hresult⟩ := engine_embed_eq_ok.mp ht.stego_ok
  have hstored : (t.metadata crates context).embedParams
      = some (randomizeParams crates.hmac t.keys.paramSeed).toMeta :=
    congrArg (fun r : EmbedResult => some r.paramsMeta) hresult
  rw [hstored]
  change EmbedParams.fromMeta _ _ = _ ↔ _
  rw [fromMeta_randomizeParams, Option.some.injEq, eq_comm]

/-- **The pair of a findable run is well formed**, and carries the payload. -/
theorem EmbedTrace.Valid.wellFormed (hlaw : LawfulAead crates.toAeadCrates)
    (ht : t.Valid ℚ crates env args disk) (hfindable : t.Findable crates) :
    WellFormed ℚ crates t.secret args.context (t.metadata crates args.context) t.stego.toRgb8
      t.payload := by
  have hstands : StandsFor crates.hmac (t.metadata crates args.context).embedParams
      t.keys.macKey.key t.keys.paramSeed (randomizeParams crates.hmac t.keys.paramSeed) :=
    ht.standsFor_iff.mpr rfl
  have hfound := (engine_finds_iff ht.stego_ok).mpr hfindable
  rw [← ht.encryptedLen_eq] at hfound
  change (StegoEngine.new ℚ crates.hmac).extract t.stego
    (t.metadata crates args.context).embedding _
    (t.metadata crates args.context).encryptedLen.toNat = _ at hfound
  obtain ⟨id, c, hid, hlist, hlen, hlt, hholds⟩ := (engine_extract_eq_ok hstands).mp hfound
  exact ⟨rfl, recordKeys t.keys, t.encrypted, ht.unlocks,
    ⟨id, _, c, hid, hstands, hlist, hlen, hlt, hholds⟩, Hex.decode_encode _,
    (AeadKey.decrypt_eq_ok crates.toAeadCrates).mp (ht.decrypts hlaw rfl)⟩

/-- **The run of a well-formed pair was findable**, as far as the MAC tells. -/
theorem EmbedTrace.Valid.findable (ht : t.Valid ℚ crates env args disk)
    (htells : t.MacTells crates args.context) {payload : Bytes}
    (hformed : WellFormed ℚ crates t.secret args.context (t.metadata crates args.context)
      t.stego.toRgb8 payload) : t.Findable crates := by
  obtain ⟨-, keys, ciphertext, hunlocks, ⟨id, params, c, hid, hstands, hlist, hlen, hlt, hholds⟩,
    hmac, -⟩ := hformed
  obtain rfl := hunlocks.unique ht.unlocks
  obtain rfl := ht.standsFor_iff.mp hstands
  have htag : crates.hmac t.keys.macKey.key.toList (t.macInput args.context)
      = crates.hmac t.keys.macKey.key.toList
        (metadataMacInput (t.metadata crates args.context) args.context ciphertext) :=
    Vector.toList_inj.mp (Option.some.inj ((Hex.decode_encode _).symm.trans hmac))
  have hfound := (engine_extract_eq_ok hstands).mpr ⟨id, c, hid, hlist, hlen, hlt, hholds⟩
  change (StegoEngine.new ℚ crates.hmac).extract t.stego t.result.techniqueName _
    t.unsigned.encryptedLen.toNat = _ at hfound
  rw [ht.encryptedLen_eq] at hfound
  obtain rfl := htells ciphertext hfound htag.symm
  exact (engine_finds_iff ht.stego_ok).mp hfound

end Pair

/--
**Which payloads can be had back.**

After a run of `embed` that succeeds and saves its picture in a lossless format, `extract`
with the same secret and context writes the payload, if extraction looks for the ciphertext
where embedding put it. If it does not, `extract` fails and writes nothing, as far as the
MAC tells what it finds from what was embedded.
-/
theorem recovery_exact (crates : Crates) (hlaw : LawfulCrates crates) (env : EmbedEnv)
    (args : EmbedArgs) (disk disk' : Disk) (hformat : LosslessFormat crates args.output.extension)
    (hembed : embed ℚ crates env args disk = (.ok (), disk')) :
    ∃ t : EmbedTrace, t.Valid ℚ crates env args disk
      ∧ ∀ (env' : ExtractEnv) (args' : ExtractArgs) (disk'' : Disk),
          env'.entropy = .ok () ∧ (∃ base, env'.nonceBase = .ok base)
            ∧ env'.readsMetadata = true ∧ env'.readsStego = true
            ∧ env'.writesPayload.succeeds = true ∧ env'.prints = true →
          args'.stego = args.output → args'.context = args.context →
          disk'' args.output = disk' args.output
            ∧ disk'' (args.output.withExtension "meta")
              = disk' (args.output.withExtension "meta") →
          GivesSecret env'.readsSecret env'.warns disk'' args'.secretFile args'.secret t.secret →
          (t.Findable crates → extract ℚ crates env' args' disk''
              = (.ok (), Function.update disk'' args'.output (some t.payload)))
            ∧ (¬ t.Findable crates → t.MacTells crates args.context →
                ∃ e, extract ℚ crates env' args' disk'' = (.error e, disk'')) := by
  obtain ⟨stego, metadata, image, text, hprep, himage, htext, rfl⟩ := embed_eq_ok hembed
  obtain ⟨t, ht, rfl, rfl⟩ := embedPrepare_eq_ok.mp hprep
  refine ⟨t, ht, fun env' args' disk'' henv hstego hcontext hkept hgives => ?_⟩
  obtain ⟨hentropy, hbase, hreadsMeta, hreadsStego, hwrites⟩ := henv
  -- the files, and what they parse to
  have hmetaFile : disk'' (args'.stego.withExtension "meta") = some text := by
    rw [hstego, hkept.2, Function.update_self]
  have hstegoFile : disk'' args'.stego = some image := by
    rw [hstego, hkept.1, Function.update_of_ne (hlaw.output_ne_meta himage _),
      Function.update_self]
  have hparse := hlaw.json_lossless htext
  obtain ⟨read, hdecode, hread⟩ : ∃ read,
      crates.imageDecode args'.stego.extension image = some read
        ∧ read.toRgb8 = t.stego.toRgb8 := by
    obtain ⟨-, -, img, -, hdyn, -⟩ := engine_embed_eq_ok.mp ht.stego_ok
    rw [hstego, hdyn]
    rw [hdyn] at himage
    exact hformat _ _ himage
  have hiff : ∀ payload, extractPlaintext ℚ crates env' args' disk'' = .ok payload ↔
      WellFormed ℚ crates t.secret args.context (t.metadata crates args.context) t.stego.toRgb8
        payload := by
    intro payload
    rw [extractPlaintext_iff ⟨hentropy, hbase, hreadsMeta, hreadsStego⟩ hgives hmetaFile hparse
      hstegoFile hdecode, hread, hcontext]
  constructor
  · intro hfindable
    have hplain := (hiff _).mpr (ht.wellFormed hlaw.toLawfulAead hfindable)
    exact extract_eq_ok.mpr ⟨t.payload, hplain, hwrites, rfl⟩
  · intro hlost htells
    cases hplain : extractPlaintext ℚ crates env' args' disk'' with
    | error e => exact ⟨e, by rw [extract, hplain]⟩
    | ok payload => exact absurd (ht.findable htells ((hiff _).mp hplain)) hlost

/-! ## A run that hides along edges -/

/-- What every keyed function returns: as in the sample, but it selects the third technique. -/
def edgeWord : Key := Vector.replicate 32 20

/-- Thirty columns of three pixels; no two magnitudes inside are closer than 28. -/
def zigzagCover : RgbImage where
  width := 30
  height := 3
  raw := (List.replicate 3 ([0, 0, 196, 98, 7, 7, 189, 91, 14, 14, 182, 84, 21, 21, 175, 77, 28, 28,
    168, 70, 35, 35, 161, 63, 42, 42, 154, 56, 49, 49].flatMap (List.replicate 3))).flatten
  width_lt := by decide
  height_lt := rampCover.height_lt
  raw_length := by decide +kernel
  raw_lt := by decide +kernel

/-- It takes the place of the sample's cover. -/
def zigzagDisk : Disk :=
  Function.update sampleDisk ⟨"", some "cover.png"⟩ (some (encodeRaw zigzagCover))

/-- The embedding parameters of the run. -/
def edgeParams : EmbedParams := ⟨.all, 0, edgeWord⟩

/-- The values of the run. -/
def zigzagTrace : EmbedTrace :=
  { sampleTrace 1 3 with
    rootKey := edgeWord
    keys := ⟨⟨edgeWord, ⟨⟨Vector.replicate 8 3, 0⟩, false⟩⟩, ⟨edgeWord⟩, edgeWord, edgeWord⟩
    cover := .imageRgb8 zigzagCover
    stego := .imageRgb8 (edgeStego zigzagCover (sampleEncrypted 3) edgeParams)
    result := ⟨"edge-adaptive-lsb-v1", ⟨"rgb", 0⟩⟩ }

theorem zigzag_params : randomizeParams (referenceCrates edgeWord).hmac edgeWord = edgeParams := by
  decide +kernel

/-- There are edges enough for the third technique. -/
theorem zigzag_selects : ∃ density : ℚ, computeEdgeDensity ℚ zigzagCover = .ok density
    ∧ selectTechnique (referenceCrates edgeWord).hmac edgeWord density = .edgeAdaptiveLsb := by
  have hselects : (computeEdgeDensity ℚ zigzagCover).map
      (selectTechnique (referenceCrates edgeWord).hmac edgeWord) = .ok .edgeAdaptiveLsb := by
    decide +kernel
  cases hdensity : computeEdgeDensity ℚ zigzagCover with
  | error e =>
    rw [hdensity] at hselects
    cases hselects
  | ok density =>
    rw [hdensity] at hselects
    exact ⟨density, rfl, Except.ok.inj hselects⟩

theorem zigzag_engine : (StegoEngine.new ℚ (referenceCrates edgeWord).hmac).embed ℚ
    (referenceCrates edgeWord).hmac zigzagTrace.cover zigzagTrace.encrypted edgeWord edgeWord
      = .ok (zigzagTrace.stego, zigzagTrace.result) := by
  obtain ⟨density, hdensity, hselect⟩ := zigzag_selects
  have hlen := sampleEncrypted_length 3
  have hfits : (frameBits (sampleEncrypted 3)).length
      ≤ (writeOrder zigzagCover edgeParams).length := by
    have horder : (writeOrder zigzagCover edgeParams).length
        = (sequentialOrder (30 * 3 * 3) edgeParams).length := (edgeOrder_perm ..).length_eq
    have hall : (sequentialOrder (30 * 3 * 3) edgeParams).length = 270 := by decide +kernel
    rw [frameBits_length, hlen, horder, hall]
    decide
  refine engine_embed_eq_ok.mpr ⟨density, hdensity, _, ?_, rfl, ?_⟩
  · rw [hselect, zigzag_params]
    exact (edge_embed_eq_ok (by decide) (by decide) (hlen.trans_lt (by decide))).mpr ⟨hfits, rfl⟩
  · rw [hselect, zigzag_params]
    decide

theorem zigzagTrace_valid : zigzagTrace.Valid ℚ (referenceCrates edgeWord) (sampleEnv 1 3)
    (sampleArgs samplePng) zigzagDisk where
  entropy := rfl
  secret_ok := rfl
  nonce_ok := rfl
  salt_ok := rfl
  rootKey_ok := by
    simp only [deriveRootKey, EmbedTrace.kdf, hexField_encode]
    rfl
  keys_ok := deriveSessionKeys_eq_ok.mpr ⟨rfl, by decide, rfl, rfl, rfl, rfl, _, rfl, rfl⟩
  payload_ok := readFile_eq_ok.mpr ⟨rfl, Function.update_of_ne (by decide) _ _⟩
  encrypted_ok := rfl
  cover_ok := openImage_eq_ok.mpr ⟨encodeRaw zigzagCover, rfl, Function.update_self .., by
    simp only [referenceCrates, decodeRaw_encodeRaw, Option.map_some, zigzagTrace]⟩
  stego_ok := zigzag_engine

/-- The picture is spread, so the ciphertext is found again. -/
theorem zigzagTrace_findable : zigzagTrace.Findable (referenceCrates edgeWord) := by
  refine ⟨(sampleEncrypted_length 3).trans_lt (by decide), fun _ => ?_⟩
  change OrderKept zigzagCover (sampleEncrypted 3)
    (randomizeParams (referenceCrates edgeWord).hmac edgeWord)
  rw [zigzag_params]
  have hspread : Spread zigzagCover edgeParams.bitPlane.toNat := by decide +kernel
  exact orderKept_of_take (readOrder_take hspread.steady)

/-- The files the run leaves. -/
noncomputable def zigzagWritten : Disk :=
  (embed ℚ (referenceCrates edgeWord) (sampleEnv 1 3) (sampleArgs samplePng) zigzagDisk).2

theorem zigzag_embed :
    embed ℚ (referenceCrates edgeWord) (sampleEnv 1 3) (sampleArgs samplePng) zigzagDisk
      = (.ok (), zigzagWritten) := by
  have hprep := embedPrepare_eq_ok.mpr ⟨zigzagTrace, zigzagTrace_valid, rfl, rfl⟩
  have hok : (embed ℚ (referenceCrates edgeWord) (sampleEnv 1 3) (sampleArgs samplePng)
      zigzagDisk).1 = .ok () := by
    rw [embed, hprep]
    rfl
  rw [zigzagWritten, ← hok]

theorem recovery_exact_zigzag :
    extract ℚ (referenceCrates edgeWord) sampleExtractEnv
        (sampleExtractArgs samplePng ⟨"", some "out.bin"⟩) zigzagWritten
      = (.ok (), Function.update zigzagWritten ⟨"", some "out.bin"⟩ (some [0xA5])) := by
  obtain ⟨t, ht, hrecovers⟩ := recovery_exact (referenceCrates edgeWord)
    (referenceCrates_lawful edgeWord) (sampleEnv 1 3) (sampleArgs samplePng) zigzagDisk
    zigzagWritten (referenceCrates_lossless _ _) zigzag_embed
  obtain rfl := zigzagTrace_valid.unique ht
  have hgives : GivesSecret true true zigzagWritten none (some "secret") (utf8 "secret") :=
    Or.inl ⟨rfl, "secret", rfl, by decide, rfl⟩
  exact (hrecovers sampleExtractEnv (sampleExtractArgs samplePng ⟨"", some "out.bin"⟩)
    zigzagWritten ⟨rfl, ⟨_, rfl⟩, rfl, rfl, rfl, rfl⟩ rfl rfl ⟨rfl, rfl⟩ hgives).1
    zigzagTrace_findable

end Stegosafe.Proof
