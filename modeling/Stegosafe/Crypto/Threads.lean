import Mathlib.Logic.Function.Basic
import Mathlib.Logic.Relation
import Stegosafe.Crypto.Aead

/-!
# One key, many threads

Any number of threads call `encrypt` and `decrypt` on one shared `AeadKey`. A
thread inside a call is in one `Phase`; `advance` takes it through the next step of
the call, and a world's threads advance in any order. Only the draw of a nonce
happens under the lock, so it is one step; everything before and after it can
interleave.

`draws`, `encrypted` and `decrypted` are ghost state: what every draw and every
finished call returned.
-/

namespace Stegosafe

open Checked Outcome

/-- Where a thread is in its call. -/
inductive Phase where
  | idle
  | encrypting (plaintext aad : Bytes)
  | compressed (data aad : Bytes)
  | drawn (nonce : Nonce) (data aad : Bytes)
  | decrypting (ciphertext aad : Bytes)

/-- A shared key and the threads that use it. -/
structure World (T : Type) where
  key : AeadKey
  threads : T → Phase
  draws : List (Outcome CryptoError Nonce)
  encrypted : List (Outcome CryptoError Bytes)
  decrypted : List (Outcome CryptoError Bytes)

namespace World

variable {T : Type}

/-- All threads idle, nothing done yet. -/
def start (key : AeadKey) : World T where
  key := key
  threads := fun _ => .idle
  draws := []
  encrypted := []
  decrypted := []

variable [DecidableEq T]

/-- Thread `t` enters a phase. -/
def goto (w : World T) (t : T) (phase : Phase) : World T :=
  { w with threads := Function.update w.threads t phase }

/-- Thread `t` returns from `encrypt`. -/
def finish (w : World T) (t : T) (result : Outcome CryptoError Bytes) : World T :=
  { w.goto t .idle with encrypted := w.encrypted ++ [result] }

/-- The critical section was run, and left the key behind. -/
def drew (w : World T) (result : Outcome CryptoError Nonce) (key : AeadKey) : World T :=
  { w with key := key, draws := w.draws ++ [result] }

/-- Thread `t` takes the next step of its call. -/
def advance (crates : AeadCrates) (w : World T) (t : T) : World T :=
  match w.threads t with
  | .idle => w
  | .encrypting plaintext aad =>
    match compress crates plaintext with
    | .ok data => w.goto t (.compressed data aad)
    | .error e => w.finish t (.error e)
  | .compressed data aad =>
    -- the one step under the lock
    match w.key.lockNext with
    | (.ok nonce, key) => (w.drew (.ok nonce) key).goto t (.drawn nonce data aad)
    | (.error e, key) => (w.drew (.error e) key).finish t (.error e)
  | .drawn nonce data aad => w.finish t (w.key.sealWith crates nonce data aad)
  | .decrypting ciphertext aad =>
    { w.goto t .idle with decrypted := w.decrypted ++ [w.key.decrypt crates ciphertext aad] }

/--
One step of the whole: an idle thread makes a call, or a thread advances.

Every step may meet other library functions, so a library call may fail at one time
and succeed on the same data at another.
-/
inductive Step : World T → World T → Prop where
  | encrypt {w : World T} (t : T) (plaintext aad : Bytes) : w.threads t = .idle →
      Step w (w.goto t (.encrypting plaintext aad))
  | decrypt {w : World T} (t : T) (ciphertext aad : Bytes) : w.threads t = .idle →
      Step w (w.goto t (.decrypting ciphertext aad))
  | advance {w : World T} (crates : AeadCrates) (t : T) : Step w (w.advance crates t)

/-- Any number of steps. -/
abbrev Steps : World T → World T → Prop := Relation.ReflTransGen Step

/-- Threads can advance in any order. -/
theorem steps_advance (crates : AeadCrates) (w : World T) (order : List T) :
    Steps w (order.foldl (advance crates) w) := by
  induction order generalizing w with
  | nil => exact .refl
  | cons t order ih => exact .head (.advance crates t) (ih _)

/-- The nonces drawn, in order. -/
def nonces (w : World T) : List Nonce := w.draws.filterMap Except.toOption

/-- The ciphertexts returned, in order. -/
def ciphertexts (w : World T) : List Bytes := w.encrypted.filterMap Except.toOption

/-! ## One phase at a time -/

section Advance

variable (crates : AeadCrates) {w : World T} {t : T}

theorem advance_idle (h : w.threads t = .idle) : w.advance crates t = w := by
  rw [advance, h]

theorem advance_encrypting {plaintext aad : Bytes} (h : w.threads t = .encrypting plaintext aad) :
    w.advance crates t = match compress crates plaintext with
      | .ok data => w.goto t (.compressed data aad)
      | .error e => w.finish t (.error e) := by
  rw [advance, h]

theorem advance_compressed_ok {data aad : Bytes} (h : w.threads t = .compressed data aad)
    {nonce : Nonce} {key : AeadKey} (hdraw : w.key.lockNext = (.ok nonce, key)) :
    w.advance crates t = (w.drew (.ok nonce) key).goto t (.drawn nonce data aad) := by
  rw [advance, h]
  dsimp only
  rw [hdraw]

theorem advance_compressed_error {data aad : Bytes} (h : w.threads t = .compressed data aad)
    {e : Fault CryptoError} {key : AeadKey} (hdraw : w.key.lockNext = (.error e, key)) :
    w.advance crates t = (w.drew (.error e) key).finish t (.error e) := by
  rw [advance, h]
  dsimp only
  rw [hdraw]

theorem advance_drawn {nonce : Nonce} {data aad : Bytes}
    (h : w.threads t = .drawn nonce data aad) :
    w.advance crates t = w.finish t (w.key.sealWith crates nonce data aad) := by
  rw [advance, h]

theorem advance_decrypting {ciphertext aad : Bytes}
    (h : w.threads t = .decrypting ciphertext aad) :
    w.advance crates t
      = { w.goto t .idle with
          decrypted := w.decrypted ++ [w.key.decrypt crates ciphertext aad] } := by
  rw [advance, h]

@[simp] theorem goto_self (w : World T) (t : T) (phase : Phase) :
    (w.goto t phase).threads t = phase := Function.update_self ..

@[simp] theorem finish_self (w : World T) (t : T) (result : Outcome CryptoError Bytes) :
    (w.finish t result).threads t = .idle := Function.update_self ..

/-- **A call nobody interleaves with is `AeadKey.encrypt`.** -/
theorem advance_encrypt {plaintext aad : Bytes} (h : w.threads t = .encrypting plaintext aad) :
    ∃ w₁ w₂ w₃, w.advance crates t = w₁ ∧ w₁.advance crates t = w₂ ∧ w₂.advance crates t = w₃
      ∧ w₃.key = (w.key.encrypt crates plaintext aad).2
      ∧ w₃.encrypted = w.encrypted ++ [(w.key.encrypt crates plaintext aad).1]
      ∧ w₃.threads t = .idle := by
  refine ⟨_, _, _, rfl, rfl, rfl, ?_⟩
  rw [advance_encrypting crates h, AeadKey.encrypt]
  cases compress crates plaintext with
  | error e =>
    -- the call is over after its first step, and the two that follow do nothing
    have hidle : (w.finish t (.error e)).threads t = .idle := finish_self ..
    rw [advance_idle crates hidle, advance_idle crates hidle]
    exact ⟨rfl, rfl, hidle⟩
  | ok data =>
    dsimp only
    rcases hdraw : w.key.lockNext with ⟨result, key⟩
    cases result with
    | error e =>
      rw [advance_compressed_error crates (goto_self ..) hdraw,
        advance_idle crates (finish_self ..)]
      exact ⟨rfl, rfl, finish_self ..⟩
    | ok nonce =>
      rw [advance_compressed_ok crates (goto_self ..) hdraw, advance_drawn crates (goto_self ..)]
      exact ⟨rfl, rfl, finish_self ..⟩

end Advance

end World

end Stegosafe
