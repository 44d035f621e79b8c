import Stegosafe.Lib.Words
import Stegosafe.Stego.Image

/-!
# Nonces

A nonce is the manager's 64-bit random base followed by a 32-bit counter. The
manager refuses at the counter's last value and increments only afterwards, so the
increment never overflows: `next` has two outcomes, and `next_eq` states both.

A call on a manager returns its result together with the manager it leaves behind,
also when it fails.
-/

namespace Stegosafe

open Checked Outcome

/-- `stegosafe_crypto::CryptoError`. -/
inductive CryptoError where
  | decryptionFailed
  | invalidInput (reason : String)
  | entropyUnavailable
  | keyExhausted
  | kdfError
  deriving DecidableEq, Repr

/-- `[u8; 12]`. -/
abbrev Nonce := Vector UInt8 12

/-- Produces unique 96-bit nonces. -/
structure NonceManager where
  /-- The high 8 bytes of each nonce. -/
  base : Vector UInt8 8
  /-- The low 4 bytes of each nonce. -/
  counter : UInt32
  deriving DecidableEq

namespace NonceManager

/-- Create a new nonce manager; `entropy` draws the base. -/
def new {m : Type → Type → Type} [∀ ε, Monad (m ε)] (entropy : m CryptoError (Vector UInt8 8)) :
    m CryptoError NonceManager := do
  let base ← entropy
  pure { base := base, counter := 0 }

/-- The nonce of a base and a counter value. -/
def nonceAt (base : Vector UInt8 8) (counter : UInt32) : Nonce :=
  ⟨(base.toList ++ Words.toBe 4 counter.toNat).toArray, by simp⟩

/-- Generate the next unique 96-bit nonce. -/
def next (mgr : NonceManager) : Outcome CryptoError Nonce × NonceManager :=
  if mgr.counter = 0xFFFFFFFF then
    (fail .keyExhausted, mgr)
  else
    let nonce := nonceAt mgr.base mgr.counter
    match add 32 mgr.counter.toNat 1 with
    | .ok counter => (.ok nonce, { mgr with counter := UInt32.ofNat counter })
    | .error e => (.error e, mgr)

/-! ## What a nonce is made of -/

theorem nonceAt_toList (base : Vector UInt8 8) (counter : UInt32) :
    (nonceAt base counter).toList = base.toList ++ Words.toBe 4 counter.toNat := by
  simp [nonceAt, Vector.toList]

/-- All nonces of a base start with it. -/
theorem nonceAt_take (base : Vector UInt8 8) (counter : UInt32) :
    (nonceAt base counter).toList.take 8 = base.toList := by
  rw [nonceAt_toList, List.take_left' (by simp)]

/-- **Distinct counters give distinct nonces.** -/
theorem nonceAt_injective {base : Vector UInt8 8} {a b : UInt32}
    (h : nonceAt base a = nonceAt base b) : a = b := by
  have hlist := congrArg Vector.toList h
  rw [nonceAt_toList, nonceAt_toList] at hlist
  exact UInt32.toNat_inj.mp (Words.toBe_injective a.toNat_lt b.toNat_lt
    (List.append_cancel_left hlist))

/-! ## What a draw does -/

/-- **The two outcomes of a draw**: exhausted and unchanged, or one nonce and one step. -/
theorem next_eq (mgr : NonceManager) :
    mgr.next = if mgr.counter = 0xFFFFFFFF then (fail .keyExhausted, mgr)
      else (.ok (nonceAt mgr.base mgr.counter), { mgr with counter := mgr.counter + 1 }) := by
  unfold next
  split
  · rfl
  · rename_i hne
    have hlt : mgr.counter.toNat + 1 < 2 ^ 32 := by
      have hmax : mgr.counter.toNat ≠ 0xFFFFFFFF := fun h => hne (UInt32.toNat_inj.mp h)
      have := mgr.counter.toNat_lt
      omega
    have hsucc : UInt32.ofNat (mgr.counter.toNat + 1) = mgr.counter + 1 := by
      apply UInt32.toNat_inj.mp
      rw [UInt32.toNat_ofNat_of_lt' hlt, UInt32.toNat_add]
      exact (Nat.mod_eq_of_lt hlt).symm
    simp only [add_of_lt hlt, hsucc]

/-- A draw that succeeds counts up by exactly one, without wrapping. -/
theorem counter_succ {mgr : NonceManager} (h : mgr.counter ≠ 0xFFFFFFFF) :
    (mgr.counter + 1).toNat = mgr.counter.toNat + 1 := by
  have hmax : mgr.counter.toNat ≠ 0xFFFFFFFF := fun heq => h (UInt32.toNat_inj.mp heq)
  have := mgr.counter.toNat_lt
  rw [UInt32.toNat_add]
  exact Nat.mod_eq_of_lt (by simp only [UInt32.toNat_one]; omega)

end NonceManager

end Stegosafe
