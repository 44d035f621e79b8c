import Stegosafe.Crypto.Calls
import Stegosafe.Proof.Reference

/-!
# Ciphertexts between instances

A ciphertext carries its nonce, and decrypting uses the key bytes alone. So what one
instance encrypted every instance of the same bytes decrypts, whatever calls were
made on either in between; and what a bad ciphertext is answered with depends on its
length only.
-/

namespace Stegosafe.Proof

open Stegosafe Checked Outcome

section Instances

variable {crates : AeadCrates}

/-- What `encrypt` returns has room for nonce and tag, and any instance of its key opens it. -/
theorem encrypt_roundTrip (hlaw : LawfulAead crates) {k k' : AeadKey} {plaintext aad c : Bytes}
    (hkey : k'.key = k.key) (h : (k.encrypt crates plaintext aad).1 = .ok c) :
    28 ≤ c.length ∧ k'.decrypt crates c aad = .ok plaintext := by
  obtain ⟨compressed, hcomp, nonce, -, hseal⟩ := (AeadKey.encrypt_eq_ok crates).mp h
  obtain ⟨ct, hct, rfl⟩ := (AeadKey.sealWith_eq_ok crates).mp hseal
  rw [AeadKey.lockNext_key] at hct
  have hnonce : nonce.toList.length = 12 := nonce.length_toList
  have hlen : 28 ≤ (nonce.toList ++ ct).length := by
    have htag := hlaw.gcm_tag hct
    rw [List.length_append]
    omega
  refine ⟨hlen, (AeadKey.decrypt_eq_ok crates).mpr ⟨hlen, compressed, ?_, ?_⟩⟩
  · rw [List.take_left' hnonce, List.drop_left' hnonce, hkey]
    exact hlaw.gcm_open_seal hct
  · exact hlaw.zstd_lossless hcomp

end Instances

/--
**Round trip and opaque errors, over every sequence of calls.**

A ciphertext returned by call `n` is opened by every instance after any number of
further calls. At the end of every sequence of calls, `decrypt` answers as its
length says, and leaves all instances as they are.
-/
theorem aead_calls {I : Type} [DecidableEq I] (crates : AeadCrates) (hlaw : LawfulAead crates)
    (bytes : Key) (keys : I → AeadKey) (hkeys : ∀ i, (keys i).key = bytes)
    (calls : List (Call I)) :
    (∀ n i plaintext aad c, calls[n]? = some (.encrypt i plaintext aad) →
        (Call.run crates keys calls).1[n]? = some (.ok c) →
        28 ≤ c.length ∧ ∀ m, n < m → ∀ j,
          ((Call.run crates keys (calls.take m)).2 j).decrypt crates c aad = .ok plaintext)
      ∧ ∀ j c aad, ∃ result,
          Call.run crates keys (calls ++ [.decrypt j c aad])
              = ((Call.run crates keys calls).1 ++ [result], (Call.run crates keys calls).2)
            ∧ ((∃ reason, result = .error (.err (.invalidInput reason))) ↔ c.length < 28)
            ∧ (28 ≤ c.length →
                (∃ plaintext, result = .ok plaintext)
                  ∨ result = .error (.err .decryptionFailed)) := by
  constructor
  · intro n i plaintext aad c hcall hresult
    rw [Call.run_getElem?, hcall, Option.map_some, Option.some.injEq] at hresult
    -- the instance that encrypted and any later one hold the same bytes
    have hkey : ∀ m j, ((Call.run crates keys (calls.take m)).2 j).key
        = ((Call.run crates keys (calls.take n)).2 i).key := by
      intro m j
      rw [Call.run_key, Call.run_key, hkeys, hkeys]
    exact ⟨(encrypt_roundTrip hlaw rfl hresult).1,
      fun m _ j => (encrypt_roundTrip hlaw (hkey m j) hresult).2⟩
  · intro j c aad
    refine ⟨_, Call.run_concat crates keys calls (.decrypt j c aad),
      AeadKey.decrypt_invalid_iff crates, fun hlong => ?_⟩
    rcases AeadKey.decrypt_cases crates ((Call.run crates keys calls).2 j) c aad with
      ⟨hshort, -⟩ | ⟨-, hres⟩
    · omega
    · exact hres

/-- Two instances of one key, with different bases. -/
def twoInstances (i : Bool) : AeadKey where
  key := Vector.replicate 32 7
  nonceMgr := ⟨⟨Vector.replicate 8 (if i then 1 else 2), 0⟩, false⟩

/-- What the first encrypts, the second decrypts. -/
theorem aead_calls_two : ∃ c,
    (Call.run (referenceCrates (Vector.replicate 32 7)).toAeadCrates twoInstances
        [.encrypt true [1, 2] []]).1 = [.ok c]
      ∧ (twoInstances false).decrypt (referenceCrates (Vector.replicate 32 7)).toAeadCrates c []
        = .ok [1, 2] := by
  refine ⟨_, rfl, ?_⟩
  have h := (aead_calls (referenceCrates (Vector.replicate 32 7)).toAeadCrates
    (referenceCrates_lawful (Vector.replicate 32 7)).toLawfulAead (Vector.replicate 32 7)
    twoInstances (fun _ => rfl) [.encrypt true [1, 2] []]).1 0 true [1, 2] [] _ rfl rfl
  exact h.2 1 (by omega) false

end Stegosafe.Proof
