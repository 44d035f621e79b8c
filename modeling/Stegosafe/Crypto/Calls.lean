import Mathlib.Logic.Function.Basic
import Stegosafe.Crypto.Aead

/-!
# One key, many instances

An embedder and an extractor build an `AeadKey` each, from the same bytes but with
nonce managers of their own. `Call.run` makes calls on any number of instances, one
after another, and records what each returned.
-/

namespace Stegosafe

open Checked Outcome

/-- A call on one of the instances. -/
inductive Call (I : Type) where
  | encrypt (i : I) (plaintext aad : Bytes)
  | decrypt (i : I) (ciphertext aad : Bytes)

namespace Call

variable {I : Type} [DecidableEq I] (crates : AeadCrates)

/-- Make a call: what it returns, and the instances it leaves behind. -/
def perform (keys : I → AeadKey) : Call I → Outcome CryptoError Bytes × (I → AeadKey)
  | encrypt i plaintext aad =>
    let result := (keys i).encrypt crates plaintext aad
    (result.1, Function.update keys i result.2)
  | decrypt i ciphertext aad => ((keys i).decrypt crates ciphertext aad, keys)

/-- Make calls one after another. -/
def run (keys : I → AeadKey) : List (Call I) → List (Outcome CryptoError Bytes) × (I → AeadKey)
  | [] => ([], keys)
  | call :: calls =>
    let result := perform crates keys call
    let rest := run result.2 calls
    (result.1 :: rest.1, rest.2)

/-- A call on the only instance: what it returns, and the key it leaves behind. -/
def on (k : AeadKey) (call : Call Unit) : Outcome CryptoError Bytes × AeadKey :=
  let result := call.perform crates fun _ => k
  (result.1, result.2 ())

theorem on_encrypt (k : AeadKey) (plaintext aad : Bytes) :
    on crates k (.encrypt () plaintext aad) = k.encrypt crates plaintext aad := by
  rw [on, perform]
  dsimp only
  rw [Function.update_self]

theorem on_decrypt (k : AeadKey) (ciphertext aad : Bytes) :
    on crates k (.decrypt () ciphertext aad) = (k.decrypt crates ciphertext aad, k) := rfl

/-- **No call changes the key bytes of any instance.** -/
theorem perform_key (keys : I → AeadKey) (call : Call I) (j : I) :
    ((perform crates keys call).2 j).key = (keys j).key := by
  cases call with
  | encrypt i plaintext aad =>
    rw [perform]
    dsimp only
    by_cases hj : j = i
    · subst hj
      rw [Function.update_self, AeadKey.encrypt_key]
    · rw [Function.update_of_ne hj]
  | decrypt i ciphertext aad => rfl

theorem run_key (keys : I → AeadKey) (calls : List (Call I)) (j : I) :
    ((run crates keys calls).2 j).key = (keys j).key := by
  induction calls generalizing keys with
  | nil => rfl
  | cons call calls ih =>
    rw [run]
    dsimp only
    rw [ih, perform_key]

/-- What call `n` of a run returned: it met what the calls before it left behind. -/
theorem run_getElem? (keys : I → AeadKey) (calls : List (Call I)) (n : Nat) :
    (run crates keys calls).1[n]?
      = calls[n]?.map fun call => (perform crates (run crates keys (calls.take n)).2 call).1 := by
  induction calls generalizing keys n with
  | nil => rfl
  | cons call calls ih =>
    cases n with
    | zero => rfl
    | succ n => exact ih (perform crates keys call).2 n

/-- One call more. -/
theorem run_concat (keys : I → AeadKey) (calls : List (Call I)) (call : Call I) :
    run crates keys (calls ++ [call])
      = ((run crates keys calls).1 ++ [(perform crates (run crates keys calls).2 call).1],
          (perform crates (run crates keys calls).2 call).2) := by
  induction calls generalizing keys with
  | nil => rfl
  | cons first calls ih =>
    rw [List.cons_append, run, run]
    dsimp only
    rw [ih, List.cons_append]

end Call

end Stegosafe
