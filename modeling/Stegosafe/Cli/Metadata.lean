import Stegosafe.Cli.Disk
import Stegosafe.Crypto.Kdf
import Stegosafe.Lib.Hex

/-!
# The metadata record

What the CLI stores beside a stego image, the checks it makes on a record it reads,
and the byte string the record's MAC is computed over: one `label:value` line for
every field, then the payload.

`usize` fields are 64-bit words.
-/

namespace Stegosafe

open Checked Outcome Text

def sessionNonceLen : Nat := 12

def argon2SaltLen : Nat := 16

def rootKeyLen : UInt64 := 32

def argon2MemoryKib : UInt32 := 64 * 1024

def argon2TimeCost : UInt32 := 3

def argon2Parallelism : UInt32 := 1

def metadataVersion : UInt8 := 1

def kdfAlgorithm : String := "argon2id-v1"

structure KdfMetadata where
  algorithm : String
  salt : String
  memoryCostKib : UInt32
  timeCost : UInt32
  parallelism : UInt32
  outputLen : UInt64
  deriving DecidableEq, Repr

structure Metadata where
  version : UInt8
  sessionNonce : String
  kdf : KdfMetadata
  embedding : String
  embedParams : Option EmbedParamsMeta
  encryptedLen : UInt64
  mac : String
  deriving DecidableEq, Repr

/-- `validate_metadata`. -/
def validateMetadata (metadata : Metadata) : Outcome CliError Unit :=
  if metadata.version ≠ metadataVersion then
    fail (.metadata "unsupported metadata version")
  else if metadata.mac = "" then
    fail (.metadata "missing metadata MAC")
  else if metadata.encryptedLen = 0 then
    fail (.metadata "missing encrypted payload length")
  else
    .ok ()

/-- A decoded hex field of the right length. -/
def hexField (n : Nat) (text : String) (wrongLength : CliError) :
    Outcome CliError (Vector UInt8 n) := do
  let bytes ← okOr (Hex.decode text) .invalidHex
  if h : bytes.length = n then
    .ok ⟨bytes.toArray, by simpa using h⟩
  else
    fail wrongLength

/-- `parse_session_nonce`. -/
def parseSessionNonce (hexStr : String) : Outcome CliError Nonce :=
  hexField sessionNonceLen hexStr (.metadata "invalid session nonce length")

/-- A `format!("label:{}\n", value)` line. -/
def metadataLine (label value : String) : Bytes := utf8 (label ++ ":" ++ value ++ "\n")

/-- The lines before those of the embedding parameters. -/
def metadataHeader (metadata : Metadata) : Bytes :=
  utf8 "stegosafe-metadata-v1\n"
    ++ metadataLine "version" (toString metadata.version.toNat)
    ++ metadataLine "session_nonce" metadata.sessionNonce
    ++ metadataLine "kdf_algorithm" metadata.kdf.algorithm
    ++ metadataLine "kdf_salt" metadata.kdf.salt
    ++ metadataLine "kdf_memory_cost_kib" (toString metadata.kdf.memoryCostKib.toNat)
    ++ metadataLine "kdf_time_cost" (toString metadata.kdf.timeCost.toNat)
    ++ metadataLine "kdf_parallelism" (toString metadata.kdf.parallelism.toNat)
    ++ metadataLine "kdf_output_len" (toString metadata.kdf.outputLen.toNat)
    ++ metadataLine "embedding" metadata.embedding

/-- The lines of the embedding parameters, if the record has any. -/
def metadataParams : Option EmbedParamsMeta → Bytes
  | none => []
  | some params =>
    metadataLine "embed_channels" params.channels
      ++ metadataLine "embed_bit_plane" (toString params.bitPlane.toNat)

/-- `metadata_mac_input`. -/
def metadataMacInput (metadata : Metadata) (context : String) (payload : Bytes) : Bytes :=
  metadataHeader metadata
    ++ metadataParams metadata.embedParams
    ++ metadataLine "encrypted_len" (toString metadata.encryptedLen.toNat)
    ++ metadataLine "context" context
    ++ utf8 "payload:\n"
    ++ payload

/-- `metadata_mac`. -/
def metadataMac (crates : KdfCrates) (key : HmacKey) (metadata : Metadata) (context : String)
    (payload : Bytes) : Outcome CliError Key :=
  mapErr .crypto (key.sign crates (metadataMacInput metadata context payload))

/-! ## The checks -/

theorem validateMetadata_eq_ok {metadata : Metadata} :
    validateMetadata metadata = .ok () ↔
      metadata.version = metadataVersion ∧ metadata.mac ≠ "" ∧ metadata.encryptedLen ≠ 0 := by
  unfold validateMetadata
  split
  · simp_all [fail]
  · split
    · simp_all [fail]
    · split <;> simp_all [fail]

/-- A record that does not pass is an error. -/
theorem validateMetadata_ne_panic {metadata : Metadata} {p : Panic} :
    validateMetadata metadata ≠ .error (.panic p) := by
  intro h
  unfold validateMetadata at h
  split at h
  · cases h
  · split at h
    · cases h
    · split at h <;> cases h

/-- **A hex field is the text of a byte string of its length.** -/
theorem hexField_eq_ok {n : Nat} {text : String} {wrongLength : CliError} {v : Vector UInt8 n} :
    hexField n text wrongLength = .ok v ↔ Hex.decode text = some v.toList := by
  unfold hexField
  cases hdec : Hex.decode text with
  | none => simp [okOr, fail]
  | some bytes =>
    simp only [okOr, ok_bind, Option.some.injEq]
    split
    · rename_i hlen
      constructor
      · intro h
        cases h
        simp [Vector.toList]
      · intro h
        subst h
        simp [Vector.toList]
    · rename_i hlen
      constructor
      · intro h
        cases h
      · intro h
        cases h
        exact absurd (Vector.length_toList ..) hlen

theorem hexField_ne_panic {n : Nat} {text : String} {wrongLength : CliError} {p : Panic} :
    hexField n text wrongLength ≠ .error (.panic p) := by
  intro h
  unfold hexField at h
  cases hdec : Hex.decode text with
  | none =>
    rw [hdec] at h
    cases h
  | some bytes =>
    simp only [hdec, okOr, ok_bind] at h
    split at h <;> cases h

/-- A field written in hex reads back. -/
theorem hexField_encode {n : Nat} {wrongLength : CliError} (v : Vector UInt8 n) :
    hexField n (Hex.encode v.toList) wrongLength = .ok v :=
  hexField_eq_ok.mpr (Hex.decode_encode _)

end Stegosafe
