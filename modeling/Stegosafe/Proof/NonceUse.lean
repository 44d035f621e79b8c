import Stegosafe.Crypto.Threads
import Stegosafe.Lib.Ledger

/-!
# No nonce is used twice

A nonce is a single-use ticket: the critical section issues it to one thread, and
that thread spends it on a ciphertext or drops it when sealing fails. `ledger` is
that view of a world. Issuing is fresh because the manager counts: the nonces
drawn so far are those of the counter values passed (`Counted`), and the next one
is that of the counter itself.

So every step of a world is a step of its ledger, and the ledger is sound however
the threads interleave.
-/

namespace Stegosafe.Proof

open Stegosafe Checked Outcome NonceManager

variable {T : Type}

/-- The nonce a thread has drawn and not used yet. -/
def heldNonce : Phase → Option Bytes
  | .drawn nonce _ _ => some nonce.toList
  | .idle | .encrypting _ _ | .compressed _ _ | .decrypting _ _ => none

/-- A world's nonces as tickets: issued by draws, spent on returned ciphertexts. -/
def ledger (w : World T) : Ledger T Bytes where
  issued := w.nonces.map Vector.toList
  held := heldNonce ∘ w.threads
  spent := w.ciphertexts.map fun c => c.take 12

/-- The draws so far, as the manager has counted them. -/
structure Counted (base : Vector UInt8 8) (w : World T) : Prop where
  healthy : w.key.nonceMgr.poisoned = false
  base_eq : w.key.nonceMgr.value.base = base
  /-- Every counter value passed has given its nonce, in order. -/
  nonces_eq : w.nonces = (List.range w.key.nonceMgr.value.counter.toNat).map fun i =>
    nonceAt base (UInt32.ofNat i)
  no_panic : ∀ p, .error (.panic p) ∉ w.draws
  /-- Exhaustion was only ever reported at the counter's last value. -/
  exhausted : .error (.err .keyExhausted) ∈ w.draws →
    w.key.nonceMgr.value.counter = 0xFFFFFFFF

/-! ## Bookkeeping -/

section Bookkeeping

variable (w : World T) (t : T)

theorem nonces_drew (result : Outcome CryptoError Nonce) (key : AeadKey) :
    (w.drew result key).nonces = w.nonces ++ result.toOption.toList := by
  simp only [World.nonces, World.drew, List.filterMap_append]
  cases result <;> rfl

@[simp] theorem ciphertexts_drew (result : Outcome CryptoError Nonce) (key : AeadKey) :
    (w.drew result key).ciphertexts = w.ciphertexts := rfl

variable [DecidableEq T]

@[simp] theorem nonces_goto (phase : Phase) : (w.goto t phase).nonces = w.nonces := rfl

@[simp] theorem nonces_finish (result : Outcome CryptoError Bytes) :
    (w.finish t result).nonces = w.nonces := rfl

@[simp] theorem ciphertexts_goto (phase : Phase) :
    (w.goto t phase).ciphertexts = w.ciphertexts := rfl

theorem ciphertexts_finish (result : Outcome CryptoError Bytes) :
    (w.finish t result).ciphertexts = w.ciphertexts ++ result.toOption.toList := by
  simp only [World.ciphertexts, World.finish, World.goto, List.filterMap_append]
  cases result <;> rfl

theorem held_goto (phase : Phase) :
    heldNonce ∘ (w.goto t phase).threads
      = Function.update (heldNonce ∘ w.threads) t (heldNonce phase) :=
  Function.comp_update ..

/-- Entering a phase that holds no nonce drops the nonce held before. -/
theorem ledger_goto {phase : Phase} (h : heldNonce phase = none) :
    (ledger w).Step (ledger (w.goto t phase)) := by
  have hdrop := Ledger.Step.drop (l := ledger w) t
  simp only [ledger, nonces_goto, ciphertexts_goto, held_goto, h] at hdrop ⊢
  exact hdrop

/-- So does returning an error. -/
theorem ledger_finish_error (e : Fault CryptoError) :
    (ledger w).Step (ledger (w.finish t (.error e))) := by
  have hdrop : (ledger w).Step (ledger (w.goto t .idle)) := ledger_goto w t rfl
  have hnone : (w.finish t (.error e)).ciphertexts = w.ciphertexts := by
    rw [ciphertexts_finish]
    exact List.append_nil _
  have hheld : heldNonce ∘ (w.finish t (.error e)).threads
      = heldNonce ∘ (w.goto t .idle).threads := rfl
  simp only [ledger, nonces_goto, ciphertexts_goto, nonces_finish, hnone, hheld] at hdrop ⊢
  exact hdrop

variable {w t}

/-- Returning a ciphertext spends the nonce it starts with. -/
theorem ledger_finish_ok {nonce : Nonce} {data aad out : Bytes}
    (h : w.threads t = .drawn nonce data aad) (hout : out.take 12 = nonce.toList) :
    (ledger w).Step (ledger (w.finish t (.ok out))) := by
  have hheld : (ledger w).held t = some nonce.toList := by
    simp only [ledger, Function.comp_apply, h, heldNonce]
  have hspend := Ledger.Step.spend t _ hheld
  have hone : (w.finish t (.ok out)).ciphertexts = w.ciphertexts ++ [out] := ciphertexts_finish ..
  have hempty : heldNonce ∘ (w.finish t (.ok out)).threads
      = Function.update (heldNonce ∘ w.threads) t none := held_goto w t .idle
  simp only [ledger, nonces_finish, hone, hempty, List.map_append, List.map_singleton, hout]
    at hspend ⊢
  exact hspend

/-- Drawing a nonce nobody has drawn issues it. -/
theorem ledger_drew {nonce : Nonce} {key : AeadKey} {data aad : Bytes}
    (hfresh : nonce ∉ w.nonces) :
    (ledger w).Step (ledger ((w.drew (.ok nonce) key).goto t (.drawn nonce data aad))) := by
  have hissue := Ledger.Step.issue (l := ledger w) t nonce.toList (by
    intro hmem
    obtain ⟨n, hn, heq⟩ := List.mem_map.mp hmem
    exact hfresh (Vector.toList_inj.mp heq ▸ hn))
  have hone : (w.drew (.ok nonce) key).nonces = w.nonces ++ [nonce] := nonces_drew ..
  have hheld : heldNonce ∘ ((w.drew (.ok nonce) key).goto t (.drawn nonce data aad)).threads
      = Function.update (heldNonce ∘ w.threads) t (some nonce.toList) := held_goto w t _
  simp only [ledger, nonces_goto, ciphertexts_goto, ciphertexts_drew, hone, hheld,
    List.map_append, List.map_singleton] at hissue ⊢
  exact hissue

end Bookkeeping

/-! ## The draws -/

section Draws

variable {base : Vector UInt8 8} {w w' : World T}

/-- Steps that leave the key and the draws alone leave the count alone. -/
theorem Counted.congr (h : Counted base w) (hkey : w'.key = w.key) (hdraws : w'.draws = w.draws) :
    Counted base w' := by
  have hnonces : w'.nonces = w.nonces := by simp only [World.nonces, hdraws]
  exact ⟨hkey ▸ h.healthy, hkey ▸ h.base_eq, by rw [hnonces, hkey]; exact h.nonces_eq,
    hdraws ▸ h.no_panic, by rw [hkey, hdraws]; exact h.exhausted⟩

theorem counted_start {bytes : Key} {entropy : Outcome CryptoError (Vector UInt8 8)}
    {key : AeadKey} (h : AeadKey.new bytes entropy = .ok key) :
    Counted key.nonceMgr.value.base (World.start (T := T) key) := by
  obtain ⟨mgr, hmgr, hkey⟩ := bind_eq_ok.mp h
  obtain ⟨drawn, -, hdrawn⟩ := bind_eq_ok.mp hmgr
  cases hdrawn
  cases hkey
  refine ⟨rfl, rfl, rfl, ?_, ?_⟩
  · intro p hp
    cases hp
  · intro he
    cases he

theorem Counted.counter_eq (h : Counted base w) :
    w.key.nonceMgr.value.counter.toNat = w.nonces.length := by
  rw [h.nonces_eq, List.length_map, List.length_range]

/-- The nonce of the counter itself has not been drawn. -/
theorem Counted.fresh (h : Counted base w) :
    nonceAt base w.key.nonceMgr.value.counter ∉ w.nonces := by
  rw [h.nonces_eq, List.mem_map]
  intro hmem
  obtain ⟨i, hi, heq⟩ := hmem
  -- its counter value would be one of those passed, all of which are smaller
  have hlt := w.key.nonceMgr.value.counter.toNat_lt
  rw [List.mem_range] at hi
  have hcounter := congrArg UInt32.toNat (nonceAt_injective heq)
  rw [UInt32.toNat_ofNat_of_lt' (Nat.lt_trans hi hlt)] at hcounter
  omega

/-- **The two outcomes of the critical section.** -/
theorem Counted.lockNext (h : Counted base w) :
    (w.key.nonceMgr.value.counter = 0xFFFFFFFF
        ∧ w.key.lockNext = (.error (.err .keyExhausted), w.key)
        ∧ Counted base (w.drew (.error (.err .keyExhausted)) w.key))
      ∨ ∃ key, w.key.lockNext = (.ok (nonceAt base w.key.nonceMgr.value.counter), key)
          ∧ nonceAt base w.key.nonceMgr.value.counter ∉ w.nonces
          ∧ Counted base (w.drew (.ok (nonceAt base w.key.nonceMgr.value.counter)) key) := by
  obtain ⟨⟨bytes, ⟨⟨base', counter⟩, poisoned⟩⟩, threads, draws, encrypted, decrypted⟩ := w
  obtain ⟨rfl, rfl, hnonces, hpanic, hexh⟩ := h
  rw [AeadKey.lockNext_eq rfl, next_eq]
  by_cases hmax : counter = 0xFFFFFFFF
  · -- the draw is refused and changes nothing but the record of it
    refine Or.inl ⟨hmax, by simp only [hmax, if_true]; rfl, rfl, rfl, ?_, ?_, fun _ => hmax⟩
    · rw [nonces_drew, hnonces]
      exact List.append_nil _
    · intro p hp
      rcases List.mem_append.mp hp with hp | hp
      · exact hpanic p hp
      · cases List.mem_singleton.mp hp
  · have hfresh := Counted.fresh ⟨rfl, rfl, hnonces, hpanic, hexh⟩
    refine Or.inr ⟨⟨bytes, ⟨⟨base', counter + 1⟩, false⟩⟩, by simp only [hmax, if_false], hfresh,
      rfl, rfl, ?_, ?_, ?_⟩
    · -- one more value passed, one more nonce drawn
      have hsucc : (counter + 1).toNat = counter.toNat + 1 :=
        counter_succ (show NonceManager.counter ⟨base', counter⟩ ≠ 0xFFFFFFFF from hmax)
      rw [nonces_drew, hnonces]
      simp only [World.drew, hsucc, List.range_succ,
        List.map_append, List.map_singleton, UInt32.ofNat_toNat]
      rfl
    · intro p hp
      rcases List.mem_append.mp hp with hp | hp
      · exact hpanic p hp
      · cases List.mem_singleton.mp hp
    · intro he
      rcases List.mem_append.mp he with he | he
      · exact absurd (hexh he) hmax
      · cases List.mem_singleton.mp he

end Draws

/-! ## Every step -/

section Steps

variable {base : Vector UInt8 8} {w w' : World T}

/-- Every returned ciphertext starts with a nonce that was drawn. -/
theorem ciphertext_nonce (hl : (ledger w).Sound) {c : Bytes} (hc : c ∈ w.ciphertexts) :
    ∃ nonce ∈ w.nonces, c.take 12 = nonce.toList := by
  have hspent : c.take 12 ∈ (ledger w).spent := List.mem_map_of_mem hc
  obtain ⟨nonce, hnonce, heq⟩ := List.mem_map.mp (hl.spent_issued hspent)
  exact ⟨nonce, hnonce, heq.symm⟩

variable [DecidableEq T]

/-- **A step of a world is a step of its ledger**, and keeps the count. -/
theorem step_ledger (hs : World.Step w w') (h : Counted base w) :
    Counted base w' ∧ (ledger w).Step (ledger w') := by
  cases hs with
  | encrypt t plaintext aad _ => exact ⟨h.congr rfl rfl, ledger_goto w t rfl⟩
  | decrypt t ciphertext aad _ => exact ⟨h.congr rfl rfl, ledger_goto w t rfl⟩
  | advance crates t =>
    cases hphase : w.threads t with
    | idle =>
      rw [World.advance_idle crates hphase]
      exact ⟨h, .stay _⟩
    | encrypting plaintext aad =>
      rw [World.advance_encrypting crates hphase]
      cases compress crates plaintext with
      | ok data => exact ⟨h.congr rfl rfl, ledger_goto w t rfl⟩
      | error e => exact ⟨h.congr rfl rfl, ledger_finish_error w t e⟩
    | compressed data aad =>
      rcases h.lockNext with ⟨-, hdraw, hcounted⟩ | ⟨key, hdraw, hfresh, hcounted⟩
      · rw [World.advance_compressed_error crates hphase hdraw]
        -- a refused draw issues nothing
        have hsame : ledger (w.drew (.error (.err .keyExhausted)) w.key) = ledger w := by
          have hnone : (w.drew (.error (.err .keyExhausted)) w.key).nonces = w.nonces :=
            (nonces_drew ..).trans (List.append_nil _)
          simp only [ledger, hnone, ciphertexts_drew]
          rfl
        exact ⟨hcounted.congr rfl rfl, hsame ▸ ledger_finish_error _ t _⟩
      · rw [World.advance_compressed_ok crates hphase hdraw]
        exact ⟨hcounted.congr rfl rfl, ledger_drew hfresh⟩
    | drawn nonce data aad =>
      rw [World.advance_drawn crates hphase]
      -- the nonce in hand is spent on what is returned, or dropped with the error
      cases hseal : w.key.sealWith crates nonce data aad with
      | error e => exact ⟨h.congr rfl rfl, ledger_finish_error w t e⟩
      | ok out =>
        obtain ⟨ct, -, rfl⟩ := (AeadKey.sealWith_eq_ok crates).mp hseal
        exact ⟨h.congr rfl rfl, ledger_finish_ok hphase (List.take_left' (by simp))⟩
    | decrypting ciphertext aad =>
      rw [World.advance_decrypting crates hphase]
      exact ⟨h.congr rfl rfl, ledger_goto w t rfl⟩

/-- Draws are only ever added. -/
theorem draws_grow (hs : World.Steps w w') : w.draws <+: w'.draws := by
  induction hs with
  | refl => exact List.prefix_refl _
  | tail _ hs ih =>
    refine ih.trans ?_
    cases hs with
    | encrypt => exact List.prefix_refl _
    | decrypt => exact List.prefix_refl _
    | advance crates t =>
      unfold World.advance
      repeat' split
      all_goals first
        | exact List.prefix_refl _
        | exact List.prefix_append _ _

/-- **Every world reached from the start is counted, and its ledger sound.** -/
theorem steps_sound (hs : World.Steps w w') (hc : Counted base w) (hl : (ledger w).Sound) :
    Counted base w' ∧ (ledger w').Sound := by
  induction hs with
  | refl => exact ⟨hc, hl⟩
  | tail _ hs ih =>
    obtain ⟨hc', hstep⟩ := step_ledger hs ih.1
    exact ⟨hc', Ledger.sound_step hstep ih.2⟩

end Steps

/--
**No nonce reuse under one key.**

In every world threads can reach on a fresh key, however they interleave and
whichever calls fail: the returned ciphertexts start with distinct nonces on one
base; the counter is the number of nonces drawn, of which there are at most
`2 ^ 32 - 1`, and no draw panics; and once a draw reported exhaustion, every later
one does, and leaves the key as it is.
-/
theorem no_nonce_reuse [DecidableEq T] (bytes : Key)
    (entropy : Outcome CryptoError (Vector UInt8 8)) (key : AeadKey) (w : World T)
    (hnew : AeadKey.new bytes entropy = .ok key) (hreach : World.Steps (World.start key) w) :
    (w.ciphertexts.map fun c => c.take 12).Nodup
      ∧ (∀ c ∈ w.ciphertexts, c.take 8 = key.nonceMgr.value.base.toList)
      ∧ w.key.nonceMgr.value.counter.toNat = w.nonces.length
      ∧ w.nonces.length ≤ 2 ^ 32 - 1
      ∧ (∀ p, .error (.panic p) ∉ w.draws)
      ∧ (.error (.err .keyExhausted) ∈ w.draws →
          ∀ (w' : World T) (crates : AeadCrates) (t : T) (data aad : Bytes), World.Steps w w' →
            w'.threads t = .compressed data aad →
            w'.advance crates t
              = (w'.drew (.error (.err .keyExhausted)) w'.key).finish t
                  (.error (.err .keyExhausted))) := by
  obtain ⟨hc, hl⟩ := steps_sound hreach (counted_start hnew) Ledger.sound_empty
  refine ⟨hl.spent_nodup, fun c hmem => ?_, hc.counter_eq, ?_, hc.no_panic, ?_⟩
  · obtain ⟨nonce, hnonce, htake⟩ := ciphertext_nonce hl hmem
    rw [hc.nonces_eq] at hnonce
    obtain ⟨i, -, rfl⟩ := List.mem_map.mp hnonce
    rw [← nonceAt_take key.nonceMgr.value.base (UInt32.ofNat i), ← htake, List.take_take]
    rfl
  · rw [← hc.counter_eq]
    exact Nat.le_sub_one_of_lt w.key.nonceMgr.value.counter.toNat_lt
  · intro hexh w' crates t data aad hsteps hphase
    obtain ⟨hc', -⟩ := steps_sound hsteps hc hl
    have hmax := hc'.exhausted ((draws_grow hsteps).subset hexh)
    rcases hc'.lockNext with ⟨-, hdraw, -⟩ | ⟨key', hdraw, hfresh, hcounted⟩
    · exact World.advance_compressed_error crates hphase hdraw
    · -- a counter at its last value draws nothing
      rw [AeadKey.lockNext_eq hc'.healthy, next_eq, if_pos hmax] at hdraw
      cases hdraw

/-- Two threads whose calls interleave at every step. -/
def twoCalls (crates : AeadCrates) (key : AeadKey) : World Bool :=
  let called := ((World.start key).goto true (.encrypting [1] [])).goto false (.encrypting [2] [])
  [true, false, true, false, false, true].foldl (World.advance crates) called

theorem twoCalls_steps (crates : AeadCrates) (key : AeadKey) :
    World.Steps (World.start key) (twoCalls crates key) :=
  ((Relation.ReflTransGen.refl.tail (.encrypt true [1] [] rfl)).tail
    (.encrypt false [2] [] rfl)).trans (World.steps_advance ..)

theorem no_nonce_reuse_twoCalls :
    ((twoCalls ⟨some, some, fun _ _ _ m => some m, fun _ _ _ m => some m⟩
      ⟨Vector.replicate 32 7, ⟨⟨Vector.replicate 8 1, 0⟩, false⟩⟩).ciphertexts.map
        fun c => c.take 12).Nodup :=
  (no_nonce_reuse (Vector.replicate 32 7) (.ok (Vector.replicate 8 1)) _ _ rfl
    (twoCalls_steps ..)).1

end Stegosafe.Proof
