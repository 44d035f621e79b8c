import Stegosafe.Crypto.Nonce

/-!
# Authenticated encryption

`AeadKey` compresses, draws a nonce from its manager under a lock, and seals. What
AES-256-GCM and Zstandard compute is left open: `AeadCrates` is any choice of the
four functions, each of which may refuse.

`encrypt` is written from the three steps other threads can interleave with:
`compress`, `lockNext` and `sealWith`.
-/

namespace Stegosafe

open Checked Outcome

/-- AES-256-GCM and Zstandard, as functions that may refuse. -/
structure AeadCrates where
  /-- `zstd::encode_all`. -/
  encodeAll : Bytes → Option Bytes
  /-- `zstd::decode_all`. -/
  decodeAll : Bytes → Option Bytes
  /-- `Aes256Gcm::encrypt`, of key, nonce, associated data and message. -/
  gcmSeal : Key → Bytes → Bytes → Bytes → Option Bytes
  /-- `Aes256Gcm::decrypt`, of key, nonce, associated data and ciphertext with tag. -/
  gcmOpen : Key → Bytes → Bytes → Bytes → Option Bytes

/-- `std::sync::Mutex`, between two critical sections. -/
structure Mutex (α : Type) where
  value : α
  /-- A holder panicked. -/
  poisoned : Bool

/-- AES-256-GCM encryption key with integrated nonce management. -/
structure AeadKey where
  key : Key
  nonceMgr : Mutex NonceManager

/-- Minimum ciphertext length: 12-byte nonce + 16-byte tag. -/
def minCiphertextLen : Nat := 12 + 16

section Crates

variable (crates : AeadCrates)

/-- Compress data with Zstandard. -/
def compress (data : Bytes) : Outcome CryptoError Bytes :=
  okOr (crates.encodeAll data) (.invalidInput "compression failed")

/-- Decompress Zstandard data. -/
def decompress (data : Bytes) : Outcome CryptoError Bytes :=
  okOr (crates.decodeAll data) .decryptionFailed

namespace AeadKey

/-- Construct from raw key material; `entropy` draws the nonce base. -/
def new {m : Type → Type → Type} [∀ ε, Monad (m ε)] (bytes : Key)
    (entropy : m CryptoError (Vector UInt8 8)) : m CryptoError AeadKey := do
  let nonceMgr ← NonceManager.new entropy
  pure { key := bytes, nonceMgr := { value := nonceMgr, poisoned := false } }

/-- The critical section of `encrypt`: lock the manager and draw a nonce. -/
def lockNext (k : AeadKey) : Outcome CryptoError Nonce × AeadKey :=
  if k.nonceMgr.poisoned then
    (fail (.invalidInput "nonce manager lock poisoned"), k)
  else
    match k.nonceMgr.value.next with
    | (.error (.panic p), mgr) =>
        -- unwinding through the guard poisons the lock
        (.error (.panic p), { k with nonceMgr := { value := mgr, poisoned := true } })
    | (result, mgr) => (result, { k with nonceMgr := { value := mgr, poisoned := false } })

/-- The end of `encrypt`: seal, and prepend the nonce. -/
def sealWith (k : AeadKey) (nonce : Nonce) (compressed aad : Bytes) :
    Outcome CryptoError Bytes := do
  let ciphertextAndTag ←
    okOr (crates.gcmSeal k.key nonce.toList aad compressed) (.invalidInput "encryption failed")
  .ok (nonce.toList ++ ciphertextAndTag)

/-- Encrypt plaintext with associated data. -/
def encrypt (k : AeadKey) (plaintext aad : Bytes) : Outcome CryptoError Bytes × AeadKey :=
  match compress crates plaintext with
  | .error e => (.error e, k)
  | .ok compressed =>
    match k.lockNext with
    | (.error e, k') => (.error e, k')
    | (.ok nonce, k') => (k'.sealWith crates nonce compressed aad, k')

/-- Decrypt and verify ciphertext with associated data. -/
def decrypt (k : AeadKey) (ciphertext aad : Bytes) : Outcome CryptoError Bytes :=
  if ciphertext.length < minCiphertextLen then
    fail (.invalidInput "ciphertext too short (minimum 28 bytes: 12 nonce + 16 tag)")
  else do
    let nonce := ciphertext.take 12
    let ctAndTag := ciphertext.drop 12
    let compressed ← okOr (crates.gcmOpen k.key nonce aad ctAndTag) .decryptionFailed
    decompress crates compressed

/-! ## The critical section -/

/-- **A healthy lock stays healthy**, and the critical section is a draw of the manager. -/
theorem lockNext_eq {k : AeadKey} (h : k.nonceMgr.poisoned = false) :
    k.lockNext = (k.nonceMgr.value.next.1,
      { k with nonceMgr := { value := k.nonceMgr.value.next.2, poisoned := false } }) := by
  rw [lockNext, h, NonceManager.next_eq]
  by_cases hmax : k.nonceMgr.value.counter = 0xFFFFFFFF <;> simp [hmax, fail]

/-- A draw never changes the key. -/
@[simp] theorem lockNext_key (k : AeadKey) : k.lockNext.2.key = k.key := by
  unfold lockNext
  split
  · rfl
  · split <;> rfl

theorem sealWith_eq_ok {k : AeadKey} {nonce : Nonce} {compressed aad out : Bytes} :
    k.sealWith crates nonce compressed aad = .ok out ↔
      ∃ ct, crates.gcmSeal k.key nonce.toList aad compressed = some ct
        ∧ out = nonce.toList ++ ct := by
  rw [sealWith, bind_eq_ok]
  constructor
  · intro h
    obtain ⟨ct, hct, hout⟩ := h
    cases hout
    exact ⟨ct, okOr_eq_ok.mp hct, rfl⟩
  · intro h
    obtain ⟨ct, hct, rfl⟩ := h
    exact ⟨ct, okOr_eq_ok.mpr hct, rfl⟩

/-- What a call of `encrypt` that returns has done. -/
theorem encrypt_eq_ok {k : AeadKey} {plaintext aad out : Bytes} :
    (k.encrypt crates plaintext aad).1 = .ok out ↔
      ∃ compressed, crates.encodeAll plaintext = some compressed ∧
        ∃ nonce, k.lockNext.1 = .ok nonce ∧
          k.lockNext.2.sealWith crates nonce compressed aad = .ok out := by
  unfold encrypt compress
  cases crates.encodeAll plaintext with
  | none => simp [okOr, fail]
  | some compressed =>
    rcases k.lockNext with ⟨result, k'⟩
    cases result with
    | error e => simp [okOr]
    | ok nonce => simp [okOr]

/-- Encrypting never changes the key. -/
theorem encrypt_key (k : AeadKey) (plaintext aad : Bytes) :
    (k.encrypt crates plaintext aad).2.key = k.key := by
  have hdraw := lockNext_key k
  unfold encrypt
  cases compress crates plaintext with
  | error e => rfl
  | ok compressed =>
    rcases hnext : k.lockNext with ⟨result, k'⟩
    rw [hnext] at hdraw
    cases result with
    | error e => exact hdraw
    | ok nonce => exact hdraw

/-- What `decrypt` accepts. -/
theorem decrypt_eq_ok {k : AeadKey} {ciphertext aad out : Bytes} :
    k.decrypt crates ciphertext aad = .ok out ↔
      28 ≤ ciphertext.length ∧ ∃ compressed,
        crates.gcmOpen k.key (ciphertext.take 12) aad (ciphertext.drop 12) = some compressed
          ∧ crates.decodeAll compressed = some out := by
  unfold decrypt minCiphertextLen
  split
  · simp [fail]; omega
  · rw [bind_eq_ok]
    simp only [okOr_eq_ok, decompress]
    constructor
    · intro h
      exact ⟨by omega, h⟩
    · intro h
      exact h.2

/-- **The three ways `decrypt` can end**: too short, accepted, or refused without a reason. -/
theorem decrypt_cases (k : AeadKey) (ciphertext aad : Bytes) :
    (ciphertext.length < 28 ∧ ∃ reason,
        k.decrypt crates ciphertext aad = .error (.err (.invalidInput reason)))
      ∨ 28 ≤ ciphertext.length ∧ ((∃ out, k.decrypt crates ciphertext aad = .ok out)
          ∨ k.decrypt crates ciphertext aad = .error (.err .decryptionFailed)) := by
  unfold decrypt minCiphertextLen
  by_cases hshort : ciphertext.length < 12 + 16
  · rw [if_pos hshort]
    exact Or.inl ⟨hshort, _, rfl⟩
  · rw [if_neg hshort]
    refine Or.inr ⟨by omega, ?_⟩
    dsimp only
    cases crates.gcmOpen k.key (ciphertext.take 12) aad (ciphertext.drop 12) with
    | none => exact Or.inr rfl
    | some compressed =>
      -- the tag was right, so only decompression can still fail
      rw [okOr, ok_bind, decompress]
      cases crates.decodeAll compressed with
      | none => exact Or.inr rfl
      | some out => exact Or.inl ⟨out, rfl⟩

/-- The length alone is reported. -/
theorem decrypt_invalid_iff {k : AeadKey} {ciphertext aad : Bytes} :
    (∃ reason, k.decrypt crates ciphertext aad = .error (.err (.invalidInput reason)))
      ↔ ciphertext.length < 28 := by
  rcases decrypt_cases crates k ciphertext aad with
    ⟨hshort, hres⟩ | ⟨hlong, ⟨out, hres⟩ | hres⟩
  · exact ⟨fun _ => hshort, fun _ => hres⟩
  · rw [hres]
    constructor
    · intro h
      obtain ⟨_, h⟩ := h
      cases h
    · intro h
      omega
  · rw [hres]
    constructor
    · intro h
      obtain ⟨_, h⟩ := h
      cases h
    · intro h
      omega

/-- Decrypting never panics. -/
theorem decrypt_ne_panic {k : AeadKey} {ciphertext aad : Bytes} {p : Panic} :
    k.decrypt crates ciphertext aad ≠ .error (.panic p) := by
  unfold decrypt
  split
  · intro h
    cases h
  · intro h
    -- the two calls it makes both return an error where there is no value
    rcases bind_eq_error.mp h with h | ⟨_, -, h⟩
    · exact okOr_ne_panic h
    · exact okOr_ne_panic h

end AeadKey

end Crates

end Stegosafe
