import Stegosafe.Proof.Reference
import Stegosafe.Proof.Secrets

/-!
# What `extract` accepts

The pair of files as a format: which record and which picture belong together, and which
payload they carry for whom. `WellFormed` says it in one place, without the order in which
`extract` makes its checks: the record unlocks four keys, the picture carries a ciphertext
along the list the record and the keys stand for, the record's MAC is that of record,
context and ciphertext, and the ciphertext opens to the payload. `extract` accepts exactly
that (`extract_accepts`), for records of the current version and for those of old versions
that hold no embedding parameters. Which secret the arguments give is `GivesSecret`. The
checks of `validateMetadata` on the MAC and the length refuse nothing else.
-/

namespace Stegosafe.Proof

open Stegosafe Checked Outcome Text

/-- The keys of a record. -/
structure RecordKeys where
  enc : Key
  mac : Key
  technique : Key
  param : Key

/-- With this secret the record gives these keys. -/
def Unlocks (crates : Crates) (secret : Bytes) (record : Metadata) (keys : RecordKeys) : Prop :=
  record.kdf.algorithm = kdfAlgorithm ∧ record.kdf.outputLen = rootKeyLen
    ∧ ∃ (salt : Vector UInt8 argon2SaltLen) (root : Key) (nonce : Nonce),
      Hex.decode record.kdf.salt = some salt.toList
        ∧ crates.argon2Params record.kdf.memoryCostKib record.kdf.timeCost record.kdf.parallelism
            record.kdf.outputLen = true
        ∧ crates.argon2Hash record.kdf.memoryCostKib record.kdf.timeCost record.kdf.parallelism
            secret salt.toList = some root
        ∧ Hex.decode record.sessionNonce = some nonce.toList
        ∧ nonce.toList.all (· == 0) = false
        ∧ crates.hkdfExpand nonce.toList root.toList (utf8 "stego-v1-enc") = some keys.enc
        ∧ crates.hkdfExpand nonce.toList root.toList (utf8 "stego-v1-mac") = some keys.mac
        ∧ crates.hkdfExpand nonce.toList root.toList (utf8 "stego-v1-technique")
            = some keys.technique
        ∧ crates.hkdfExpand nonce.toList root.toList (utf8 "stego-v1-params") = some keys.param

/-- The parameters a record stands for; without any, the MAC key places. -/
def StandsFor (hmac : Hmac) (stored : Option EmbedParamsMeta) (macKey paramSeed : Key)
    (params : EmbedParams) : Prop :=
  match stored with
  | some pm => EmbedParams.fromMeta pm (derivePlacementKey hmac paramSeed) = some params
  | none => params = EmbedParams.legacy macKey

/-- The picture carries the ciphertext where the record says. -/
def Carries (F : Type) [Scalar F] (hmac : Hmac) (record : Metadata) (keys : RecordKeys)
    (img : RgbImage) (ciphertext : Bytes) : Prop :=
  ∃ (id : TechniqueId) (params : EmbedParams) (c : Carrier img.raw.length),
    record.embedding = id.name ∧ StandsFor hmac record.embedParams keys.mac keys.param params
      ∧ positionList F hmac id img params = .ok c.order
      ∧ ciphertext.length = record.encryptedLen.toNat ∧ record.encryptedLen.toNat < 2 ^ 32
      ∧ c.Holds (planeOf id params).toNat img.raw (framePayload ciphertext)

/-- The ciphertext opens to the payload. -/
def OpensTo (crates : AeadCrates) (enc : Key) (aad ciphertext payload : Bytes) : Prop :=
  28 ≤ ciphertext.length ∧ ∃ compressed,
    crates.gcmOpen enc (ciphertext.take 12) aad (ciphertext.drop 12) = some compressed
      ∧ crates.decodeAll compressed = some payload

/-- Record and picture carry the payload, for whoever knows secret and context. -/
def WellFormed (F : Type) [Scalar F] (crates : Crates) (secret : Bytes) (context : String)
    (record : Metadata) (img : RgbImage) (payload : Bytes) : Prop :=
  record.version = metadataVersion
    ∧ ∃ keys ciphertext, Unlocks crates secret record keys
      ∧ Carries F crates.hmac record keys img ciphertext
      ∧ Hex.decode record.mac
          = some (crates.hmac keys.mac.toList (metadataMacInput record context ciphertext)).toList
      ∧ OpensTo crates.toAeadCrates keys.enc (utf8 context) ciphertext payload

section Format

variable {F : Type} [Scalar F] {crates : Crates}

theorem deriveRootKey_eq_ok {secret : Bytes} {kdf : KdfMetadata} {root : Key} :
    deriveRootKey crates secret kdf = .ok root ↔
      kdf.algorithm = kdfAlgorithm ∧ kdf.outputLen = rootKeyLen
        ∧ ∃ salt : Vector UInt8 argon2SaltLen, Hex.decode kdf.salt = some salt.toList
          ∧ crates.argon2Params kdf.memoryCostKib kdf.timeCost kdf.parallelism kdf.outputLen = true
          ∧ crates.argon2Hash kdf.memoryCostKib kdf.timeCost kdf.parallelism secret salt.toList
              = some root := by
  unfold deriveRootKey
  split
  · rename_i hbad
    constructor
    · intro h
      cases h
    · rintro ⟨halg, hlen, -⟩
      exact absurd hbad (not_or.mpr ⟨not_not.mpr halg, not_not.mpr hlen⟩)
  · rename_i hgood
    rw [not_or, not_not, not_not] at hgood
    simp only [bind_eq_ok, hexField_eq_ok]
    constructor
    · rintro ⟨salt, hsalt, h⟩
      split at h
      · exact ⟨hgood.1, hgood.2, salt, hsalt, ‹_›, okOr_eq_ok.mp h⟩
      · cases h
    · rintro ⟨-, -, salt, hsalt, hparams, hhash⟩
      exact ⟨salt, hsalt, by rw [if_pos hparams]; exact okOr_eq_ok.mpr hhash⟩

theorem extractParams_eq_ok {record : Metadata} {keys : SessionKeys} {params : EmbedParams} :
    extractParams crates record keys = .ok params ↔
      StandsFor crates.hmac record.embedParams keys.macKey.key keys.paramSeed params := by
  unfold extractParams StandsFor
  cases record.embedParams with
  | some pm => exact okOr_eq_ok
  | none => simp [eq_comm]

/-- Parameters a record stands for are in a plane of a byte. -/
theorem StandsFor.bitPlane_le {hmac : Hmac} {stored : Option EmbedParamsMeta} {macKey seed : Key}
    {params : EmbedParams} (h : StandsFor hmac stored macKey seed params) :
    params.bitPlane ≤ 7 := by
  cases stored with
  | some pm =>
    obtain ⟨-, hle, hplane, -⟩ := EmbedParams.fromMeta_eq_some.mp h
    rw [hplane]
    exact UInt8.le_trans hle (by decide)
  | none =>
    obtain rfl : params = EmbedParams.legacy macKey := h
    exact (by decide : (0 : UInt8) ≤ 7)

/-- The keys of a derivation, without the nonce manager. -/
def recordKeys (keys : SessionKeys) : RecordKeys :=
  ⟨keys.encKey.key, keys.macKey.key, keys.techniqueSeed, keys.paramSeed⟩

/-- A root key is never empty. -/
theorem key_isEmpty (k : Key) : k.toList.isEmpty = false := by
  rw [Bool.eq_false_iff]
  intro h
  have := congrArg List.length (List.isEmpty_iff.mp h)
  simp at this

/-- **Deriving the keys of a record** is unlocking it. -/
theorem derive_eq_ok {secret : Bytes} {record : Metadata} {base : Vector UInt8 8}
    {keys : SessionKeys} :
    (∃ rootKey sessionNonce, deriveRootKey crates secret record.kdf = .ok rootKey
        ∧ parseSessionNonce record.sessionNonce = .ok sessionNonce
        ∧ deriveSessionKeys (m := Outcome) crates.toKdfCrates rootKey.toList sessionNonce (.ok base)
            = .ok keys)
      ↔ Unlocks crates secret record (recordKeys keys)
        ∧ keys.encKey.nonceMgr = ⟨⟨base, 0⟩, false⟩ := by
  simp only [deriveRootKey_eq_ok, parseSessionNonce, deriveSessionKeys_eq_ok, key_isEmpty, Unlocks,
    recordKeys]
  constructor
  · rintro ⟨root, nonce, ⟨halg, hlen, salt, hsalt, hparams, hroot⟩, hnonce, -, hzero, henc, hmac,
      htechnique, hparam, base', hbase, hmgr⟩
    cases hbase
    exact ⟨⟨halg, hlen, salt, root, nonce, hsalt, hparams, hroot, hexField_eq_ok.mp hnonce, hzero,
      henc, hmac, htechnique, hparam⟩, hmgr⟩
  · rintro ⟨⟨halg, hlen, salt, root, nonce, hsalt, hparams, hroot, hnonce, hzero, henc, hmac,
      htechnique, hparam⟩, hmgr⟩
    exact ⟨root, nonce, ⟨halg, hlen, salt, hsalt, hparams, hroot⟩, hexField_eq_ok.mpr hnonce,
      trivial, hzero, henc, hmac, htechnique, hparam, base, rfl, hmgr⟩

/-- **What the engine finds** is what the picture carries. -/
theorem engine_extract_eq_ok {record : Metadata} {keys : SessionKeys} {params : EmbedParams}
    (hparams : StandsFor crates.hmac record.embedParams keys.macKey.key keys.paramSeed params)
    {stego : DynamicImage} {ciphertext : Bytes} :
    (StegoEngine.new F crates.hmac).extract stego record.embedding params
        record.encryptedLen.toNat = .ok ciphertext ↔
      ∃ (id : TechniqueId) (c : Carrier stego.toRgb8.raw.length), record.embedding = id.name
        ∧ positionList F crates.hmac id stego.toRgb8 params = .ok c.order
        ∧ ciphertext.length = record.encryptedLen.toNat ∧ record.encryptedLen.toNat < 2 ^ 32
        ∧ c.Holds (planeOf id params).toNat stego.toRgb8.raw (framePayload ciphertext) := by
  have hplane : ∀ id, (planeOf id params).toNat < 8 := fun id => planeOf_lt hparams.bitPlane_le
  constructor
  · intro h
    cases hname : TechniqueId.fromName record.embedding with
    | none =>
      rw [StegoEngine.extract, hname] at h
      cases h
    | some id =>
      have hid := TechniqueId.fromName_eq_some.mp hname
      rw [hid, engine_extract_eq] at h
      obtain ⟨c, hc⟩ := (technique_extract_eq_ok (hplane id)).mp h
      exact ⟨id, c, hid, hc⟩
  · rintro ⟨id, c, hid, hc⟩
    rw [hid, engine_extract_eq]
    exact (technique_extract_eq_ok (hplane id)).mpr ⟨c, hc⟩

/-- The checks before the keys refuse no record with a MAC and a ciphertext. -/
theorem validates_of {record : Metadata} (hversion : record.version = metadataVersion)
    {tag ciphertext : Bytes} (htag : Hex.decode record.mac = some tag) (hne : tag ≠ [])
    (hlen : ciphertext.length = record.encryptedLen.toNat) (hopen : 28 ≤ ciphertext.length) :
    validateMetadata record = .ok () := by
  refine validateMetadata_eq_ok.mpr ⟨hversion, ?_, ?_⟩
  · intro hempty
    rw [hempty] at htag
    exact hne (Option.some.inj htag).symm
  · intro hzero
    rw [hzero] at hlen
    change ciphertext.length = 0 at hlen
    omega

/-- **What `extract` reads is what a well-formed pair carries.** -/
theorem extractPlaintext_wellFormed {env : ExtractEnv} {args : ExtractArgs} {disk : Disk}
    {payload : Bytes} :
    extractPlaintext F crates env args disk = .ok payload ↔
      (env.entropy = .ok () ∧ (∃ base, env.nonceBase = .ok base)
          ∧ env.readsMetadata = true ∧ env.readsStego = true)
        ∧ ∃ secret text record raw stego,
          GivesSecret env.readsSecret env.warns disk args.secretFile args.secret secret
            ∧ disk (args.stego.withExtension "meta") = some text
            ∧ crates.fromSlice text = some record
            ∧ disk args.stego = some raw
            ∧ crates.imageDecode args.stego.extension raw = some stego
            ∧ WellFormed F crates secret args.context record stego.toRgb8 payload := by
  constructor
  · intro hplain
    obtain ⟨record, keys, params, stego, ciphertext, tag, hsetup, hfound, htag, hverify, hdec⟩ :=
      extractPlaintext_eq_ok.mp hplain
    obtain ⟨hentropy, hrecord, hvalid, ⟨secret, root, nonce, hsecret, hroot, hnonce, hkeys⟩,
      hparams, hstego⟩ := extractSetup_eq_ok.mp hsetup
    obtain ⟨-, -, -, -, -, -, base, hbase, -⟩ := deriveSessionKeys_eq_ok.mp hkeys
    rw [hbase] at hkeys
    obtain ⟨hunlocks, -⟩ := derive_eq_ok.mp ⟨root, nonce, hroot, hnonce, hkeys⟩
    have hstands := extractParams_eq_ok.mp hparams
    obtain ⟨id, c, hid, hlist, hlen, hlt, hholds⟩ := (engine_extract_eq_ok hstands).mp hfound
    obtain ⟨text, hreadsMeta, htext, hparse⟩ := readMetadata_eq_ok.mp hrecord
    obtain ⟨raw, hreadsStego, hraw, hdecode⟩ := openImage_eq_ok.mp hstego
    refine ⟨⟨hentropy, ⟨base, returned_eq_ok.mp hbase⟩, hreadsMeta, hreadsStego⟩, secret, text,
      record, raw, stego, loadSecret_eq_ok.mp hsecret, htext, hparse, hraw, hdecode,
      (validateMetadata_eq_ok.mp hvalid).1, recordKeys keys, ciphertext, hunlocks,
      ⟨id, params, c, hid, hstands, hlist, hlen, hlt, hholds⟩, ?_,
      (AeadKey.decrypt_eq_ok crates.toAeadCrates).mp hdec⟩
    rw [htag]
    exact congrArg some (HmacKey.verify_eq_ok.mp hverify).symm
  · rintro ⟨⟨hentropy, ⟨base, hbase⟩, hreadsMeta, hreadsStego⟩, secret, text, record, raw, stego,
      hgives, htext, hparse, hraw, hdecode, hversion, keys, ciphertext, hunlocks,
      ⟨id, params, c, hid, hstands, hlist, hlen, hlt, hholds⟩, hmac, hopens⟩
    -- the session keys `extract` derives are the record's keys, with a nonce manager of its own
    let session : SessionKeys :=
      ⟨⟨keys.enc, ⟨⟨base, 0⟩, false⟩⟩, ⟨keys.mac⟩, keys.technique, keys.param⟩
    obtain ⟨root, nonce, hroot, hnonce, hkeys⟩ := derive_eq_ok.mpr
      (show Unlocks crates secret record (recordKeys session) ∧ _ from ⟨hunlocks, rfl⟩)
    have hsession : StandsFor crates.hmac record.embedParams session.macKey.key session.paramSeed
        params := hstands
    have hsecret := loadSecret_eq_ok.mpr hgives
    have hrecord := readMetadata_eq_ok.mpr ⟨text, hreadsMeta, htext, hparse⟩
    have hstego := openImage_eq_ok.mpr ⟨raw, hreadsStego, hraw, hdecode⟩
    have hvalid := validates_of hversion hmac (by simp) hlen hopens.1
    exact extractPlaintext_eq_ok.mpr ⟨record, session, params, stego, ciphertext, _,
      extractSetup_eq_ok.mpr ⟨hentropy, hrecord, hvalid, ⟨secret, root, nonce, hsecret, hroot,
        hnonce, by rw [hbase]; exact hkeys⟩, extractParams_eq_ok.mpr hsession, hstego⟩,
      (engine_extract_eq_ok hsession).mpr ⟨id, c, hid, hlist, hlen, hlt, hholds⟩, hmac,
      HmacKey.verify_eq_ok.mpr rfl, (AeadKey.decrypt_eq_ok crates.toAeadCrates).mpr hopens⟩

/-- Where the secret and the files are known, the pair decides. -/
theorem extractPlaintext_iff {env : ExtractEnv} {args : ExtractArgs} {disk : Disk}
    {secret text raw payload : Bytes} {record : Metadata} {stego : DynamicImage}
    (henv : env.entropy = .ok () ∧ (∃ base, env.nonceBase = .ok base)
      ∧ env.readsMetadata = true ∧ env.readsStego = true)
    (hgives : GivesSecret env.readsSecret env.warns disk args.secretFile args.secret secret)
    (htext : disk (args.stego.withExtension "meta") = some text)
    (hparse : crates.fromSlice text = some record) (hraw : disk args.stego = some raw)
    (hdecode : crates.imageDecode args.stego.extension raw = some stego) :
    extractPlaintext F crates env args disk = .ok payload ↔
      WellFormed F crates secret args.context record stego.toRgb8 payload := by
  rw [extractPlaintext_wellFormed]
  constructor
  · rintro ⟨-, secret', text', record', raw', stego', hgives', htext', hparse', hraw', hdecode',
      hformed⟩
    obtain rfl : secret = secret' :=
      Except.ok.inj ((loadSecret_eq_ok.mpr hgives).symm.trans (loadSecret_eq_ok.mpr hgives'))
    obtain rfl := Option.some.inj (htext.symm.trans htext')
    obtain rfl := Option.some.inj (hparse.symm.trans hparse')
    obtain rfl := Option.some.inj (hraw.symm.trans hraw')
    obtain rfl := Option.some.inj (hdecode.symm.trans hdecode')
    exact hformed
  · intro hformed
    exact ⟨henv, secret, text, record, raw, stego, hgives, htext, hparse, hraw, hdecode, hformed⟩

/--
**`extract` accepts exactly the well-formed pairs.**

It succeeds if and only if the machine lets it (an initialised oracle, a nonce base, the
two reads, the write and the message), the arguments give a secret, and the two files
parse to a record and a picture that are well formed for that secret and the context; and
then it writes the payload they carry.
-/
theorem extract_accepts (F : Type) [Scalar F] (crates : Crates) (env : ExtractEnv)
    (args : ExtractArgs) (disk disk' : Disk) :
    extract F crates env args disk = (.ok (), disk') ↔
      (env.entropy = .ok () ∧ (∃ base, env.nonceBase = .ok base)
          ∧ env.readsMetadata = true ∧ env.readsStego = true
          ∧ env.writesPayload.succeeds = true ∧ env.prints = true)
        ∧ ∃ secret text record raw stego payload,
          GivesSecret env.readsSecret env.warns disk args.secretFile args.secret secret
            ∧ disk (args.stego.withExtension "meta") = some text
            ∧ crates.fromSlice text = some record
            ∧ disk args.stego = some raw
            ∧ crates.imageDecode args.stego.extension raw = some stego
            ∧ WellFormed F crates secret args.context record stego.toRgb8 payload
            ∧ disk' = Function.update disk args.output (some payload) := by
  rw [extract_eq_ok]
  simp only [extractPlaintext_wellFormed]
  constructor
  · rintro ⟨payload, ⟨⟨hentropy, hbase, hreadsMeta, hreadsStego⟩, secret, text, record, raw, stego,
      hgives, htext, hparse, hraw, hdecode, hformed⟩, hwrites, hdisk⟩
    exact ⟨⟨hentropy, hbase, hreadsMeta, hreadsStego, hwrites⟩, secret, text, record, raw, stego,
      payload, hgives, htext, hparse, hraw, hdecode, hformed, hdisk⟩
  · rintro ⟨⟨hentropy, hbase, hreadsMeta, hreadsStego, hwrites⟩, secret, text, record, raw, stego,
      payload, hgives, htext, hparse, hraw, hdecode, hformed, hdisk⟩
    exact ⟨payload, ⟨⟨hentropy, hbase, hreadsMeta, hreadsStego⟩, secret, text, record, raw, stego,
      hgives, htext, hparse, hraw, hdecode, hformed⟩, hwrites, hdisk⟩

end Format

end Stegosafe.Proof
