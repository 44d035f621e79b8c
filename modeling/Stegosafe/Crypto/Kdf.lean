import Stegosafe.Crypto.Aead
import Stegosafe.Lib.Text
import Stegosafe.Stego.Params

/-!
# Session keys

HKDF-SHA-256 derives four keys from a root key and a session nonce, one for every
label. Only the encryption key draws entropy, for its nonce base: two derivations
from the same root key and nonce agree on everything else
(`deriveSessionKeys_rederive`).
-/

namespace Stegosafe

open Checked Outcome Computes Text

/-- HMAC-SHA-256 and HKDF-SHA-256. -/
structure KdfCrates where
  hmac : Hmac
  /-- `Hkdf::new(Some(salt), ikm).expand(info, _)` into 32 bytes. -/
  hkdfExpand : Bytes → Bytes → Bytes → Option Key

/-- HMAC-SHA-256 key. -/
structure HmacKey where
  key : Key
  deriving DecidableEq

namespace HmacKey

/-- Compute the HMAC-SHA-256 tag over `data`. -/
def sign (crates : KdfCrates) (k : HmacKey) (data : Bytes) : Outcome CryptoError Key :=
  .ok (crates.hmac k.key.toList data)

/-- Verify an HMAC-SHA-256 tag over `data`. -/
def verify (crates : KdfCrates) (k : HmacKey) (data tag : Bytes) : Outcome CryptoError Unit :=
  if (crates.hmac k.key.toList data).toList = tag then .ok () else fail .decryptionFailed

theorem verify_eq_ok {crates : KdfCrates} {k : HmacKey} {data tag : Bytes} :
    k.verify crates data tag = .ok () ↔ (crates.hmac k.key.toList data).toList = tag := by
  unfold verify
  split <;> simp_all [fail]

end HmacKey

/-- Bundle of derived session keys. -/
structure SessionKeys where
  encKey : AeadKey
  macKey : HmacKey
  techniqueSeed : Key
  paramSeed : Key

/-- Derive all session keys; `entropy` draws the encryption key's nonce base. -/
def deriveSessionKeys {m : Type → Type → Type} [∀ ε, Monad (m ε)] [Computes m]
    (crates : KdfCrates) (sharedSecret : Bytes) (sessionNonce : Nonce)
    (entropy : m CryptoError (Vector UInt8 8)) : m CryptoError SessionKeys :=
  if sharedSecret.isEmpty then
    lift (fail (.invalidInput "shared secret must not be empty"))
  else if sessionNonce.toList.all (· == 0) then
    lift (fail (.invalidInput "session nonce must not be all zeros (use a fresh random nonce)"))
  else do
    let expand := crates.hkdfExpand sessionNonce.toList sharedSecret
    let encKeyBytes ← lift (okOr (expand (utf8 "stego-v1-enc")) .kdfError)
    let macKeyBytes ← lift (okOr (expand (utf8 "stego-v1-mac")) .kdfError)
    let techniqueBytes ← lift (okOr (expand (utf8 "stego-v1-technique")) .kdfError)
    let paramBytes ← lift (okOr (expand (utf8 "stego-v1-params")) .kdfError)
    let encKey ← AeadKey.new encKeyBytes entropy
    pure
      { encKey := encKey
        macKey := ⟨macKeyBytes⟩
        techniqueSeed := techniqueBytes
        paramSeed := paramBytes }

namespace AeadKey

/-- A new key is the raw key with a fresh manager on the base drawn. -/
theorem new_eq_ok {bytes : Key} {entropy : Outcome CryptoError (Vector UInt8 8)} {k : AeadKey} :
    AeadKey.new bytes entropy = .ok k ↔
      ∃ base, entropy = .ok base ∧ k = ⟨bytes, ⟨⟨base, 0⟩, false⟩⟩ := by
  unfold AeadKey.new NonceManager.new
  cases entropy with
  | error e => simp
  | ok base => simp [eq_comm]

end AeadKey

section Derive

variable {crates : KdfCrates} {sharedSecret : Bytes} {sessionNonce : Nonce}
  {entropy : Outcome CryptoError (Vector UInt8 8)} {keys : SessionKeys}

/-- **What a derivation that succeeds has checked and expanded.** -/
theorem deriveSessionKeys_eq_ok :
    deriveSessionKeys crates sharedSecret sessionNonce entropy = .ok keys ↔
      sharedSecret.isEmpty = false ∧ sessionNonce.toList.all (· == 0) = false
        ∧ crates.hkdfExpand sessionNonce.toList sharedSecret (utf8 "stego-v1-enc")
            = some keys.encKey.key
        ∧ crates.hkdfExpand sessionNonce.toList sharedSecret (utf8 "stego-v1-mac")
            = some keys.macKey.key
        ∧ crates.hkdfExpand sessionNonce.toList sharedSecret (utf8 "stego-v1-technique")
            = some keys.techniqueSeed
        ∧ crates.hkdfExpand sessionNonce.toList sharedSecret (utf8 "stego-v1-params")
            = some keys.paramSeed
        ∧ ∃ base, entropy = .ok base ∧ keys.encKey.nonceMgr = ⟨⟨base, 0⟩, false⟩ := by
  obtain ⟨⟨encBytes, nonceMgr⟩, ⟨macBytes⟩, technique, param⟩ := keys
  unfold deriveSessionKeys
  -- past the two guards every step either returns one value or ends the derivation
  cases hsecret : sharedSecret.isEmpty
  · cases hnonce : sessionNonce.toList.all (· == 0)
    · simp only [Bool.false_eq_true, if_false, true_and, lift_outcome, bind_eq_ok, okOr_eq_ok,
        AeadKey.new_eq_ok]
      constructor
      · intro h
        obtain ⟨enc, henc, mac, hmac, tech, htech, par, hpar, _, ⟨base, hbase, rfl⟩, heq⟩ := h
        cases heq
        exact ⟨henc, hmac, htech, hpar, base, hbase, rfl⟩
      · intro h
        obtain ⟨henc, hmac, htech, hpar, base, hbase, rfl⟩ := h
        exact ⟨_, henc, _, hmac, _, htech, _, hpar, _, ⟨base, hbase, rfl⟩, rfl⟩
    · simp [fail]
  · simp [fail]

/-- **Deriving again gives the same keys**, on whatever nonce base is drawn this time. -/
theorem deriveSessionKeys_rederive {b : Vector UInt8 8}
    (h : deriveSessionKeys crates sharedSecret sessionNonce entropy = .ok keys) :
    deriveSessionKeys (m := Outcome) crates sharedSecret sessionNonce (.ok b)
      = .ok { keys with encKey := ⟨keys.encKey.key, ⟨⟨b, 0⟩, false⟩⟩ } := by
  obtain ⟨h1, h2, h3, h4, h5, h6, -⟩ := deriveSessionKeys_eq_ok.mp h
  exact deriveSessionKeys_eq_ok.mpr ⟨h1, h2, h3, h4, h5, h6, b, rfl, rfl⟩

end Derive

end Stegosafe
