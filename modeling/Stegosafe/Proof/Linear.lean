import Stegosafe.Crypto.Calls
import Stegosafe.Crypto.Threads
import Stegosafe.Lib.Atomic
import Stegosafe.Proof.Ciphertexts

/-!
# Shared keys are linearizable

The threads that share an `AeadKey` cannot tell it from a key whose `encrypt` and
`decrypt` happen at one moment each. For a call that draws a nonce that moment is the
critical section: what comes before it does not look at the manager, and what comes
after it has the nonce already. So the key refines the atomic object, step by step, and
every history has an explanation by calls made one after another.
-/

namespace Stegosafe.Proof

open Stegosafe Checked Outcome Atomic

/-- Calls and their returns. -/
abbrev CallEvent (T : Type) := Event T (Call Unit) (Outcome CryptoError Bytes)

section Recording

variable {T : Type} [DecidableEq T]

/-- What thread `t` returned, if its step ended a call. -/
def returnedBy (w w' : World T) (t : T) : List (CallEvent T) :=
  (w'.encrypted.drop w.encrypted.length ++ w'.decrypted.drop w.decrypted.length).map (.ret t)

/-- Runs of the threads with one choice of library functions, and their histories. -/
inductive Recorded (crates : AeadCrates) (key : AeadKey) : World T → List (CallEvent T) → Prop
    where
  | start : Recorded crates key (World.start key) []
  | encrypt {w : World T} {h : List (CallEvent T)} (t : T) (plaintext aad : Bytes) :
      Recorded crates key w h → w.threads t = .idle →
      Recorded crates key (w.goto t (.encrypting plaintext aad))
        (h ++ [.call t (.encrypt () plaintext aad)])
  | decrypt {w : World T} {h : List (CallEvent T)} (t : T) (ciphertext aad : Bytes) :
      Recorded crates key w h → w.threads t = .idle →
      Recorded crates key (w.goto t (.decrypting ciphertext aad))
        (h ++ [.call t (.decrypt () ciphertext aad)])
  | advance {w : World T} {h : List (CallEvent T)} (t : T) : Recorded crates key w h →
      Recorded crates key (w.advance crates t) (h ++ returnedBy w (w.advance crates t) t)

/-- The stage of the atomic object a phase stands for. -/
def StageOf (crates : AeadCrates) (key : AeadKey) :
    Phase → Stage (Call Unit) (Outcome CryptoError Bytes) → Prop
  | .idle, stage => stage = .idle
  | .encrypting plaintext aad, stage => stage = .called (.encrypt () plaintext aad)
  | .compressed data aad, stage => ∃ plaintext, compress crates plaintext = .ok data
      ∧ stage = .called (.encrypt () plaintext aad)
  | .drawn nonce data aad, stage => stage = .done (key.sealWith crates nonce data aad)
  | .decrypting ciphertext aad, stage => stage = .called (.decrypt () ciphertext aad)

/-- A world, and the atomic object in the state it stands for. -/
structure Refines (crates : AeadCrates) (key : AeadKey) (w : World T)
    (a : Object T (Call Unit) (Outcome CryptoError Bytes) AeadKey) : Prop where
  state : a.state = w.key
  bytes : w.key.key = key.key
  stages : ∀ t, StageOf crates key (w.threads t) (a.stage t)

variable {crates : AeadCrates} {key : AeadKey} {w : World T} {t : T}
  {a : Object T (Call Unit) (Outcome CryptoError Bytes) AeadKey}

omit [DecidableEq T] in
/-- Sealing looks at the bytes of the key only. -/
theorem sealWith_congr {k k' : AeadKey} (h : k.key = k'.key) (nonce : Nonce) (data aad : Bytes) :
    k.sealWith crates nonce data aad = k'.sealWith crates nonce data aad := by
  rw [AeadKey.sealWith, AeadKey.sealWith, h]

/-- Both sides move one thread. -/
theorem stages_update {phase : Phase} {stage : Stage (Call Unit) (Outcome CryptoError Bytes)}
    (hold : ∀ u, StageOf crates key (w.threads u) (a.stage u))
    (hnew : StageOf crates key phase stage) (u : T) :
    StageOf crates key (Function.update w.threads t phase u)
      (Function.update a.stage t stage u) := by
  by_cases hu : u = t
  · subst hu
    rw [Function.update_self, Function.update_self]
    exact hnew
  · rw [Function.update_of_ne hu, Function.update_of_ne hu]
    exact hold u

theorem returnedBy_goto (w : World T) (t : T) (phase : Phase) :
    returnedBy w (w.goto t phase) t = [] := by
  have hnone : ∀ l : List (Outcome CryptoError Bytes), l.drop l.length = [] :=
    fun l => List.drop_length
  change (w.encrypted.drop w.encrypted.length ++ w.decrypted.drop w.decrypted.length).map _ = []
  rw [hnone, hnone]
  rfl

theorem returnedBy_finish {w w' : World T} (hsame : w'.encrypted = w.encrypted)
    (hsame' : w'.decrypted = w.decrypted) (t : T) (result : Outcome CryptoError Bytes) :
    returnedBy w (w'.finish t result) t = [.ret t result] := by
  change ((w'.encrypted ++ [result]).drop w.encrypted.length
    ++ w'.decrypted.drop w.decrypted.length).map _ = _
  rw [hsame, hsame', List.drop_left, List.drop_length]
  rfl

/-- **The critical section is where a call takes effect.** -/
theorem refines_compressed {h : List (CallEvent T)} (hrun : Run (Call.on crates) key h a)
    (hrefines : Refines crates key w a) {data aad : Bytes}
    (hphase : w.threads t = .compressed data aad) :
    ∃ a', Run (Call.on crates) key (h ++ returnedBy w (w.advance crates t) t) a'
      ∧ Refines crates key (w.advance crates t) a' := by
  obtain ⟨hstate, hbytes, hstages⟩ := hrefines
  have hstage := hstages t
  rw [hphase] at hstage
  obtain ⟨plaintext, hcompress, hstage⟩ := hstage
  have hkey := AeadKey.lockNext_key w.key
  rcases hdraw : w.key.lockNext with ⟨result, k'⟩
  rw [hdraw] at hkey
  cases result with
  | ok nonce =>
    have hcall : Call.on crates a.state (.encrypt () plaintext aad)
        = (k'.sealWith crates nonce data aad, k') := by
      simp only [Call.on_encrypt, AeadKey.encrypt, hcompress, hstate, hdraw]
    rw [World.advance_compressed_ok crates hphase hdraw]
    have hnext := hrun.effect t hstage
    rw [hcall] at hnext
    have hnothing :
        returnedBy w ((w.drew (.ok nonce) k').goto t (.drawn nonce data aad)) t = [] :=
      returnedBy_goto w t .idle
    rw [hnothing, List.append_nil]
    have hnew : StageOf crates key (.drawn nonce data aad)
        (.done (k'.sealWith crates nonce data aad)) :=
      congrArg Stage.done (sealWith_congr (hkey.trans hbytes) nonce data aad)
    exact ⟨_, hnext, rfl, hkey.trans hbytes, stages_update hstages hnew⟩
  | error e =>
    have hcall : Call.on crates a.state (.encrypt () plaintext aad) = (.error e, k') := by
      simp only [Call.on_encrypt, AeadKey.encrypt, hcompress, hstate, hdraw]
    rw [World.advance_compressed_error crates hphase hdraw]
    have hnext := hrun.effect_ret hstage
    rw [hcall] at hnext
    have hreturned : returnedBy w ((w.drew (.error e) k').finish t (.error e)) t
        = [.ret t (.error e)] := returnedBy_finish rfl rfl t (.error e)
    rw [hreturned]
    exact ⟨_, hnext, rfl, hkey.trans hbytes, stages_update hstages rfl⟩

/-- **A step and what the atomic object does for it.** -/
theorem refines_advance {h : List (CallEvent T)} (hrun : Run (Call.on crates) key h a)
    (hrefines : Refines crates key w a) :
    ∃ a', Run (Call.on crates) key (h ++ returnedBy w (w.advance crates t) t) a'
      ∧ Refines crates key (w.advance crates t) a' := by
  obtain ⟨hstate, hbytes, hstages⟩ := hrefines
  have hstage := hstages t
  cases hphase : w.threads t with
  | idle =>
    rw [World.advance_idle crates hphase]
    refine ⟨a, ?_, hstate, hbytes, hstages⟩
    have hnothing : returnedBy w w t = [] := by
      rw [returnedBy, List.drop_length, List.drop_length]
      rfl
    rw [hnothing, List.append_nil]
    exact hrun
  | encrypting plaintext aad =>
    rw [hphase] at hstage
    rw [World.advance_encrypting crates hphase]
    cases hcompress : compress crates plaintext with
    | ok data =>
      dsimp only
      rw [returnedBy_goto, List.append_nil]
      refine ⟨a, hrun, hstate, hbytes, fun u => ?_⟩
      have hsame : Function.update a.stage t (a.stage t) = a.stage := Function.update_eq_self ..
      rw [← hsame]
      have hnew : StageOf crates key (.compressed data aad) (a.stage t) :=
        ⟨plaintext, hcompress, hstage⟩
      exact stages_update hstages hnew u
    | error e =>
      -- the call fails before it comes to the manager
      have hcall : Call.on crates a.state (.encrypt () plaintext aad) = (.error e, a.state) := by
        rw [Call.on_encrypt, AeadKey.encrypt, hcompress]
      have hnext := hrun.effect_ret hstage
      rw [hcall] at hnext
      dsimp only
      rw [returnedBy_finish rfl rfl]
      exact ⟨_, hnext, hstate, hbytes, stages_update hstages rfl⟩
  | compressed data aad => exact refines_compressed hrun ⟨hstate, hbytes, hstages⟩ hphase
  | drawn nonce data aad =>
    rw [hphase] at hstage
    rw [World.advance_drawn crates hphase, returnedBy_finish rfl rfl,
      sealWith_congr hbytes nonce data aad]
    exact ⟨_, hrun.ret t hstage, hstate, hbytes, stages_update hstages rfl⟩
  | decrypting ciphertext aad =>
    rw [hphase] at hstage
    have hnext := hrun.effect_ret hstage
    rw [Call.on_decrypt, hstate] at hnext
    rw [World.advance_decrypting crates hphase]
    have hreturned : returnedBy w { w.goto t .idle with
        decrypted := w.decrypted ++ [w.key.decrypt crates ciphertext aad] } t
          = [.ret t (w.key.decrypt crates ciphertext aad)] := by
      rw [returnedBy]
      dsimp only
      rw [List.drop_left]
      change (w.encrypted.drop w.encrypted.length ++ _).map _ = _
      rw [List.drop_length]
      rfl
    rw [hreturned]
    exact ⟨_, hnext, rfl, hbytes, stages_update hstages rfl⟩

theorem recorded_refines {h : List (CallEvent T)} (hrun : Recorded crates key w h) :
    ∃ a, Run (Call.on crates) key h a ∧ Refines crates key w a := by
  induction hrun with
  | start => exact ⟨_, .start, rfl, rfl, fun _ => rfl⟩
  | @encrypt w h t plaintext aad _ hidle ih =>
    obtain ⟨a, hrun, hstate, hbytes, hstages⟩ := ih
    have hstage := hstages t
    rw [hidle] at hstage
    exact ⟨_, hrun.call t _ hstage, hstate, hbytes, stages_update hstages rfl⟩
  | @decrypt w h t ciphertext aad _ hidle ih =>
    obtain ⟨a, hrun, hstate, hbytes, hstages⟩ := ih
    have hstage := hstages t
    rw [hidle] at hstage
    exact ⟨_, hrun.call t _ hstage, hstate, hbytes, stages_update hstages rfl⟩
  | @advance w h t _ ih =>
    obtain ⟨a, hrun, hrefines⟩ := ih
    exact refines_advance hrun hrefines

/--
**A shared key is linearizable.**

For every run of any number of threads on one key, with any library functions, there is
an order of the calls in which the key, used by one thread, returns the same results and
is left behind the same. The order agrees with each thread's own and with real time.
Where the library functions are lawful, each decryption in it of a ciphertext that some
call of it returned, with the same associated data, returns that call's plaintext.
-/
theorem aead_linearizable {h : List (CallEvent T)} (hrun : Recorded crates key w h) :
    ∃ order, Explains (Call.on crates) key h order w.key
      ∧ (LawfulAead crates → ∀ e ∈ order, ∀ plaintext aad c,
          e.op = .encrypt () plaintext aad → e.result = .ok c →
          ∀ e' ∈ order, e'.op = .decrypt () c aad → e'.result = .ok plaintext) := by
  obtain ⟨a, hatomic, hstate, -, -⟩ := recorded_refines hrun
  have hexplains := hatomic.explains
  rw [hstate] at hexplains
  refine ⟨a.order, hexplains, fun hlaw e he plaintext aad c hop hresult e' he' hop' => ?_⟩
  have hbytes : ∀ (k : AeadKey) (call : Call Unit), k.key = key.key →
      (Call.on crates k call).2.key = key.key := by
    intro k call hk
    exact (Call.perform_key crates (fun _ => k) call ()).trans hk
  obtain ⟨k, hk, hsealed⟩ := sequentially_mem hbytes rfl hexplains.sequential e he
  obtain ⟨k', hk', hopened⟩ := sequentially_mem hbytes rfl hexplains.sequential e' he'
  rw [hop, Call.on_encrypt, hresult] at hsealed
  rw [hopened, hop', Call.on_decrypt]
  exact (encrypt_roundTrip hlaw (hk'.trans hk.symm) hsealed.symm).2

end Recording

/-- A key nobody has used. -/
def freshKey : AeadKey := ⟨sampleWord, ⟨⟨Vector.replicate 8 1, 0⟩, false⟩⟩

/-- What it makes of one byte with this nonce. -/
def sealedByte (counter : UInt32) (b : UInt8) : Bytes :=
  (NonceManager.nonceAt (Vector.replicate 8 1) counter).toList ++ ([b] ++ zeroTag)

/-- Two encryptions at once, and the decryption of the one that was called first. -/
def sharedHistory : List (CallEvent Bool) :=
  [.call true (.encrypt () [2] []), .call false (.encrypt () [3] []),
    .ret true (.ok (sealedByte 1 2)), .call true (.decrypt () (sealedByte 1 2) []),
    .ret false (.ok (sealedByte 0 3)), .ret true (.ok [2])]

/-- The second call draws its nonce first. -/
theorem shared_recorded : ∃ w : World Bool,
    Recorded (referenceCrates sampleWord).toAeadCrates freshKey w sharedHistory := by
  have hcalls : Recorded (referenceCrates sampleWord).toAeadCrates freshKey _ _ :=
    .encrypt false [3] [] (.encrypt true [2] [] .start rfl) rfl
  have hdrawn := (((hcalls.advance false).advance false).advance true).advance true
  have hopening := (Recorded.decrypt true (sealedByte 1 2) [] (hdrawn.advance true) rfl)
  exact ⟨_, (hopening.advance false).advance true⟩

theorem aead_linearizable_shared : ∃ (w : World Bool) (order : _),
    Explains (Call.on (referenceCrates sampleWord).toAeadCrates) freshKey sharedHistory order w.key
      ∧ ∀ e ∈ order, e.op = .encrypt () [2] [] → e.result = .ok (sealedByte 1 2) →
          ∀ e' ∈ order, e'.op = .decrypt () (sealedByte 1 2) [] → e'.result = .ok [2] := by
  obtain ⟨w, hrun⟩ := shared_recorded
  obtain ⟨order, hexplains, hopens⟩ := aead_linearizable hrun
  refine ⟨w, order, hexplains, fun e he hop hresult => ?_⟩
  exact hopens (referenceCrates_lawful sampleWord).toLawfulAead e he [2] [] _ hop hresult

end Stegosafe.Proof
