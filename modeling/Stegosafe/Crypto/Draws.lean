import Stegosafe.Crypto.Entropy
import Stegosafe.Crypto.Kdf
import Stegosafe.Lib.Stateful

/-!
# Drawing from the oracle

A call with a reference to the oracle leaves the oracle behind for the next. Functions
that draw, such as `deriveSessionKeys`, take the draw as a computation: an outcome, if
the answer is given, or a call on an oracle.
-/

namespace Stegosafe

open Checked Outcome Stateful Text

/-- The answers the sources give to one call of `fill`. -/
structure Draw where
  output : Sources
  sample : Sources

/-- The answers they give to `EntropyOracle::init`. -/
structure Startup where
  trng : Option (List UInt64)
  osPool : Bool
  sample : Sources

/-- `EntropyOracle::init`. -/
def Startup.init (startup : Startup) : Outcome CryptoError EntropyOracle :=
  EntropyOracle.init startup.trng startup.osPool startup.sample

/-- A call with a reference to the oracle. -/
abbrev Drawing := Stateful EntropyOracle

namespace EntropyOracle

/-- Return `n` random bytes as a new vector. -/
def bytes (sha : Sha256) (n : Nat) (draw : Draw) : Drawing CryptoError Bytes := fun oracle =>
  oracle.fill sha (List.replicate n 0) draw.output draw.sample

/-- A zeroed array of `n` bytes, filled. -/
def fillArray (sha : Sha256) (n : Nat) (draw : Draw) : Drawing CryptoError (Vector UInt8 n) := do
  let buf ← bytes sha n draw
  pure (Vector.ofFn fun i => buf.getD i 0)

/-- **What a derivation returns**: what it returns on the answer to its draw. -/
theorem deriveSessionKeys_fst (crates : KdfCrates) (sha : Sha256) (sharedSecret : Bytes)
    (sessionNonce : Nonce) (draw : Draw) (oracle : EntropyOracle) :
    ((deriveSessionKeys crates sharedSecret sessionNonce (fillArray sha 8 draw)).run oracle).1
      = deriveSessionKeys crates sharedSecret sessionNonce
          ((fillArray sha 8 draw).run oracle).1 := by
  unfold deriveSessionKeys
  split
  · rfl
  · split
    · rfl
    · refine bind_fst rfl fun enc _ => bind_fst rfl fun mac _ =>
        bind_fst rfl fun technique _ => bind_fst rfl fun param _ => ?_
      refine bind_fst ?_ fun _ _ => rfl
      exact bind_fst (bind_fst rfl fun _ _ => rfl) fun _ _ => rfl

end EntropyOracle

end Stegosafe
