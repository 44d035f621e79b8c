import Stegosafe.Cli.Metadata
import Stegosafe.Stego.Engine

/-!
# The two commands

`embed` and `extract` as `main.rs` runs them, one call after the other. Everything
before the first write only reads, so each command is a computation on the disk
followed by its writes and its message.

What the commands do between a draw and the next does not depend on how the oracle
answers, so they are written for any computation (`embedSteps`, `extractSteps`), and take
their draws as arguments. Here the answers are given: `embedPrepare` and `extractPlaintext`
are the commands up to their writes on the answers in an `EmbedEnv` or `ExtractEnv`, which
also says what the system lets through.

The libraries outside the repository are `Crates`.
-/

namespace Stegosafe

open Checked Outcome Computes Text

/-- The libraries the commands call. -/
structure Crates extends AeadCrates, KdfCrates where
  /-- `argon2::Params::new`: whether the parameters are accepted. -/
  argon2Params : UInt32 → UInt32 → UInt32 → UInt64 → Bool
  /-- `Argon2::hash_password_into`, of the parameters, the secret and the salt. -/
  argon2Hash : UInt32 → UInt32 → UInt32 → Bytes → Bytes → Option Key
  /-- `serde_json::to_vec_pretty`. -/
  toVecPretty : Metadata → Option Bytes
  /-- `serde_json::from_slice`. -/
  fromSlice : Bytes → Option Metadata
  /-- The bytes `DynamicImage::save` writes, by the extension of the path. -/
  imageEncode : Option String → DynamicImage → Option Bytes
  /-- The image `image::open` reads, by the extension of the path. -/
  imageDecode : Option String → Bytes → Option DynamicImage

/-- Arguments of the `embed` command. -/
structure EmbedArgs where
  cover : Path
  payload : Path
  output : Path
  secretFile : Option Path
  secret : Option String
  context : String

/-- Arguments of the `extract` command. -/
structure ExtractArgs where
  stego : Path
  output : Path
  secretFile : Option Path
  secret : Option String
  context : String

/-- What the system lets an `embed` run read, write and print. -/
structure EmbedSystem where
  readsSecret : Bool
  readsPayload : Bool
  readsCover : Bool
  savesStego : Write
  writesMetadata : Write
  /-- To standard output. -/
  prints : Bool
  /-- To standard error. -/
  warns : Bool

/-- What it lets an `extract` run do. -/
structure ExtractSystem where
  readsMetadata : Bool
  readsSecret : Bool
  readsStego : Bool
  writesPayload : Write
  prints : Bool
  warns : Bool

/-- What an `embed` run meets: the system, and the oracle's answers. -/
structure EmbedEnv extends EmbedSystem where
  entropy : Except CryptoError Unit
  sessionNonce : Except CryptoError Nonce
  salt : Except CryptoError (Vector UInt8 argon2SaltLen)
  nonceBase : Except CryptoError (Vector UInt8 8)

/-- What an `extract` run meets. -/
structure ExtractEnv extends ExtractSystem where
  entropy : Except CryptoError Unit
  nonceBase : Except CryptoError (Vector UInt8 8)

/-- `trim_single_trailing_newline`. -/
def trimSingleTrailingNewline (secret : Bytes) : Bytes :=
  if secret.getLast? = some 10 then
    let secret := secret.dropLast
    if secret.getLast? = some 13 then secret.dropLast else secret
  else
    secret

/-- `load_secret`; `io` tells whether the file can be read, `warns` whether a warning is printed. -/
def loadSecret (io warns : Bool) (disk : Disk) (secretFile : Option Path)
    (deprecatedSecret : Option String) : Outcome CliError Bytes :=
  match deprecatedSecret with
  | some secret => do
    -- the warning that arguments are visible
    printLine warns
    if secret = "" then fail .invalidSecret else .ok (utf8 secret)
  | none => do
    let path ← okOr secretFile .missingSecret
    let secret ← readFile io disk path
    let secret := trimSingleTrailingNewline secret
    if secret.isEmpty then fail .invalidSecret else .ok secret

section Commands

variable (F : Type) [Scalar F] (crates : Crates)
variable {m : Type → Type → Type} [∀ ε, Monad (m ε)] [Computes m]

/-- `.context(text)`. -/
def inContext {α : Type} (text : String) (x : m CliError α) : m CliError α :=
  mapErr (.context text) x

/-- `generate_session_nonce`. -/
def generateSessionNonce (entropy : m CryptoError Nonce) : m CliError Nonce := do
  let nonce ← inContext "failed to generate session nonce" (mapErr .crypto entropy)
  if nonce.toList.all (· == 0) then
    lift (fail (.metadata "generated all-zero session nonce"))
  else
    pure nonce

/-- `generate_kdf_metadata`. -/
def generateKdfMetadata (entropy : m CryptoError (Vector UInt8 argon2SaltLen)) :
    m CliError KdfMetadata := do
  let salt ← mapErr .crypto entropy
  pure
    { algorithm := kdfAlgorithm
      salt := Hex.encode salt.toList
      memoryCostKib := argon2MemoryKib
      timeCost := argon2TimeCost
      parallelism := argon2Parallelism
      outputLen := rootKeyLen }

/-- `derive_root_key`. -/
def deriveRootKey (secret : Bytes) (kdf : KdfMetadata) : Outcome CliError Key :=
  if kdf.algorithm ≠ kdfAlgorithm ∨ kdf.outputLen ≠ rootKeyLen then
    fail (.metadata "unsupported KDF metadata")
  else do
    let salt ← hexField argon2SaltLen kdf.salt (.metadata "invalid KDF salt length")
    if crates.argon2Params kdf.memoryCostKib kdf.timeCost kdf.parallelism kdf.outputLen then
      okOr (crates.argon2Hash kdf.memoryCostKib kdf.timeCost kdf.parallelism secret salt.toList)
        .invalidSecret
    else
      fail (.metadata "invalid Argon2 parameters")

/-- `read_metadata`. -/
def readMetadata (io : Bool) (disk : Disk) (path : Path) : Outcome CliError Metadata := do
  let bytes ← withContext "failed to read metadata file" (readFile io disk path)
  withContext "failed to parse metadata file" (okOr (crates.fromSlice bytes) .json)

/-- `image::open`. -/
def openImage (io : Bool) (disk : Disk) (path : Path) : Outcome CliError DynamicImage := do
  let bytes ← Outcome.mapErr (fun _ => .image) (readFile io disk path)
  okOr (crates.imageDecode path.extension bytes) .image

/-- `DynamicImage::save`, which creates the file before it encodes the image. -/
def saveImage (io : Write) (disk : Disk) (path : Path) (img : DynamicImage) :
    Outcome CliError Unit × Disk :=
  match crates.imageEncode path.extension img with
  | none => (fail .image, io.broken disk path)
  | some bytes =>
    match writeFile io disk path bytes with
    | (result, disk) => (Outcome.mapErr (fun _ => .image) result, disk)

/-- `embed` from the initialised oracle to its first write: the stego image and its metadata. -/
def embedSteps (system : EmbedSystem) (args : EmbedArgs) (disk : Disk)
    (drawNonce : m CryptoError Nonce) (drawSalt : m CryptoError (Vector UInt8 argon2SaltLen))
    (drawBase : m CryptoError (Vector UInt8 8)) : m CliError (DynamicImage × Metadata) := do
  let secret ← lift (loadSecret system.readsSecret system.warns disk args.secretFile args.secret)
  let sessionNonce ← generateSessionNonce drawNonce
  let kdf ← generateKdfMetadata drawSalt
  let rootKey ← inContext "failed to derive root key" (lift (deriveRootKey crates secret kdf))
  let keys ← inContext "failed to derive session keys" (mapErr .crypto
    (deriveSessionKeys crates.toKdfCrates rootKey.toList sessionNonce drawBase))
  let payload ← inContext "failed to read payload"
    (lift (readFile system.readsPayload disk args.payload))
  let encrypted ← inContext "payload encryption failed" (mapErr .crypto
    (lift (keys.encKey.encrypt crates.toAeadCrates payload (utf8 args.context)).1))
  let cover ← inContext "failed to open cover image"
    (lift (openImage crates system.readsCover disk args.cover))
  let (stego, embedResult) ← inContext "failed to embed payload into cover image"
    (mapErr .engine (lift ((StegoEngine.new F crates.hmac).embed F crates.hmac cover encrypted
      keys.techniqueSeed keys.paramSeed)))
  let metadata : Metadata :=
    { version := metadataVersion
      sessionNonce := Hex.encode sessionNonce.toList
      kdf := kdf
      embedding := embedResult.techniqueName
      embedParams := some embedResult.paramsMeta
      encryptedLen := UInt64.ofNat encrypted.length
      mac := "" }
  let mac ← lift (metadataMac crates.toKdfCrates keys.macKey metadata args.context encrypted)
  pure (stego, { metadata with mac := Hex.encode mac.toList })

/-- `embed` up to its first write. -/
def embedPrepare (env : EmbedEnv) (args : EmbedArgs) (disk : Disk) :
    Outcome CliError (DynamicImage × Metadata) := do
  withContext "failed to initialize entropy oracle" (Outcome.mapErr .crypto (returned env.entropy))
  embedSteps F crates env.toEmbedSystem args disk (returned env.sessionNonce) (returned env.salt)
    (returned env.nonceBase)

/-- The end of `embed`: the stego image, then its metadata, then the message. -/
def embedWrite (system : EmbedSystem) (output : Path) (stego : DynamicImage) (metadata : Metadata)
    (disk : Disk) : Outcome CliError Unit × Disk :=
  match saveImage crates system.savesStego disk output stego with
  | (.error e, disk) => (withContext "failed to save stego image" (.error e), disk)
  | (.ok (), disk) =>
    match crates.toVecPretty metadata with
    | none => (fail .json, disk)
    | some bytes =>
      match writeFile system.writesMetadata disk (output.withExtension "meta") bytes with
      | (.error e, disk) => (withContext "failed to write metadata file" (.error e), disk)
      | (.ok (), disk) => (printLine system.prints, disk)

/-- The `embed` command. -/
def embed (env : EmbedEnv) (args : EmbedArgs) (disk : Disk) : Outcome CliError Unit × Disk :=
  match embedPrepare F crates env args disk with
  | .error e => (.error e, disk)
  | .ok (stego, metadata) => embedWrite crates env.toEmbedSystem args.output stego metadata disk

/-- The embedding parameters a metadata record stands for. -/
def extractParams (metadata : Metadata) (keys : SessionKeys) : Outcome CliError EmbedParams :=
  match metadata.embedParams with
  | some metaParams =>
    let placementKey := derivePlacementKey crates.hmac keys.paramSeed
    okOr (EmbedParams.fromMeta metaParams placementKey)
      (.message "invalid embed params in metadata")
  | none =>
    -- metadata of old versions: the MAC key places
    .ok (EmbedParams.legacy keys.macKey.key)

/-- `extract` from the initialised oracle until it looks into the image. -/
def extractSteps (system : ExtractSystem) (args : ExtractArgs) (disk : Disk)
    (drawBase : m CryptoError (Vector UInt8 8)) :
    m CliError (Metadata × SessionKeys × EmbedParams × DynamicImage) := do
  let metadata ← lift (readMetadata crates system.readsMetadata disk
    (args.stego.withExtension "meta"))
  lift (validateMetadata metadata)
  let secret ← lift (loadSecret system.readsSecret system.warns disk args.secretFile args.secret)
  let rootKey ← inContext "failed to derive root key"
    (lift (deriveRootKey crates secret metadata.kdf))
  let sessionNonce ← lift (parseSessionNonce metadata.sessionNonce)
  let keys ← inContext "failed to derive session keys" (mapErr .crypto
    (deriveSessionKeys crates.toKdfCrates rootKey.toList sessionNonce drawBase))
  let embedParams ← lift (extractParams crates metadata keys)
  let stego ← inContext "failed to open stego image"
    (lift (openImage crates system.readsStego disk args.stego))
  pure (metadata, keys, embedParams, stego)

/-- The rest of `extract` up to its write: find the ciphertext, verify, decrypt. -/
def extractFound (context : String) (metadata : Metadata) (keys : SessionKeys)
    (embedParams : EmbedParams) (stego : DynamicImage) : Outcome CliError Bytes := do
  let payload ← withContext "failed to extract payload from stego image" (Outcome.mapErr .engine
    ((StegoEngine.new F crates.hmac).extract stego metadata.embedding embedParams
      metadata.encryptedLen.toNat))
  let expectedMac ← okOr (Hex.decode metadata.mac) .invalidHex
  withContext "metadata authentication failed" (Outcome.mapErr .crypto
    (keys.macKey.verify crates.toKdfCrates (metadataMacInput metadata context payload)
      expectedMac))
  withContext "payload decryption failed" (Outcome.mapErr .crypto
    (keys.encKey.decrypt crates.toAeadCrates payload (utf8 context)))

/-- `extract` before it looks into the image. -/
def extractSetup (env : ExtractEnv) (args : ExtractArgs) (disk : Disk) :
    Outcome CliError (Metadata × SessionKeys × EmbedParams × DynamicImage) := do
  withContext "failed to initialize entropy oracle" (Outcome.mapErr .crypto (returned env.entropy))
  extractSteps crates env.toExtractSystem args disk (returned env.nonceBase)

/-- `extract` up to its write: the plaintext. -/
def extractPlaintext (env : ExtractEnv) (args : ExtractArgs) (disk : Disk) :
    Outcome CliError Bytes := do
  let (metadata, keys, embedParams, stego) ← extractSetup crates env args disk
  extractFound F crates args.context metadata keys embedParams stego

/-- The end of `extract`: the plaintext, then the message. -/
def extractWrite (system : ExtractSystem) (output : Path) (plaintext : Bytes) (disk : Disk) :
    Outcome CliError Unit × Disk :=
  match writeFile system.writesPayload disk output plaintext with
  | (.error e, disk) => (withContext "failed to write extracted payload" (.error e), disk)
  | (.ok (), disk) => (printLine system.prints, disk)

/-- The `extract` command. -/
def extract (env : ExtractEnv) (args : ExtractArgs) (disk : Disk) : Outcome CliError Unit × Disk :=
  match extractPlaintext F crates env args disk with
  | .error e => (.error e, disk)
  | .ok plaintext => extractWrite env.toExtractSystem args.output plaintext disk

end Commands

end Stegosafe
