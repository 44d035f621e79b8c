import Stegosafe.Crypto.Entropy

/-!
# What `fill` writes

Three loops with three block sizes make the bytes of a call: 8-byte words of the
hardware generator, a byte-wise XOR, 32-byte blocks of hash. Each is described entry
by entry, the block by a quotient and the place in it by a remainder, so that the
partial tails need no case of their own.
-/

namespace Stegosafe.Proof

open Stegosafe Checked Outcome EntropyOracle

/-! ## Hash blocks -/

/--
The loop from any round on: what is before its offset stays, the rest is hash.

The offset is where the counter's block starts, unless everything is written.
-/
theorem conditioning_loop_ok {sha : Sha256} {input out : Bytes} {c : Conditioning}
    (hblock : c.offset = 32 * c.counter ∨ c.output.length ≤ c.offset)
    (h : c.loop sha input = .ok out) :
    out.length = c.output.length ∧ ∀ j, out[j]?
      = if c.offset ≤ j ∧ j < c.output.length then
          (sha (Words.toLe 8 (j / 32) ++ input)).toList[j % 32]? else c.output[j]? := by
  induction c using Conditioning.loop.induct sha input with
  | case1 c hlt c' hround ih =>
    rw [Conditioning.loop, dif_pos hlt] at h
    split at h
    · rename_i c'' hround'
      cases hround.symm.trans hround'
      obtain ⟨hoffset, hcounter, hstore⟩ := Conditioning.round_eq_ok hround
      have hlen := storeSlice_length hstore
      have hstart : c.offset = 32 * c.counter := hblock.resolve_right (by omega)
      obtain ⟨hout, hentry⟩ := ih (by rw [hlen, hoffset, hcounter]; omega) h
      refine ⟨hout.trans hlen, fun j => ?_⟩
      rw [hentry j, hlen, storeSlice_getElem? hstore]
      by_cases hlast : c'.offset ≤ j ∧ j < c.output.length
      · rw [if_pos hlast, if_pos (by omega)]
      · rw [if_neg hlast]
        by_cases hnow : c.offset ≤ j ∧ j < c'.offset
        · -- this round's block is number `j / 32`, and `j` is its place `j % 32`
          have hdiv : j / 32 = c.counter := by omega
          have hmod : j % 32 = j - c.offset := by omega
          rw [if_pos hnow, if_pos (by omega), hdiv, hmod, List.getElem?_take_of_lt (by omega)]
        · rw [if_neg hnow, if_neg (by omega)]
    · cases h
  | case2 c hlt e hround =>
    rw [Conditioning.loop, dif_pos hlt] at h
    split at h
    · rename_i c'' hround'
      cases hround.symm.trans hround'
    · cases h
  | case3 c hge =>
    rw [Conditioning.loop, dif_neg hge] at h
    cases h
    refine ⟨rfl, fun j => ?_⟩
    rw [if_neg (by omega)]

/-- **Every byte of the output is a byte of a hash.** -/
theorem condition_ok {sha : Sha256} {input output out : Bytes}
    (h : condition sha input output = .ok out) :
    out.length = output.length ∧ ∀ j, j < output.length →
      out[j]? = (sha (Words.toLe 8 (j / 32) ++ input)).toList[j % 32]? := by
  obtain ⟨hlen, hentry⟩ := conditioning_loop_ok (Or.inl rfl) h
  refine ⟨hlen, fun j hj => ?_⟩
  rw [hentry j, if_pos ⟨Nat.zero_le j, hj⟩]

/-! ## Hardware words -/

/-- Byte `i` of a sequence of words. -/
def wordByte (words : List UInt64) (i : Nat) : Option UInt8 :=
  words[i / 8]?.bind fun val => (Words.toLe 8 val.toNat)[i % 8]?

theorem wordByte_cons_lt {val : UInt64} {words : List UInt64} {i : Nat} (hi : i < 8) :
    wordByte (val :: words) i = (Words.toLe 8 val.toNat)[i]? := by
  rw [wordByte, Nat.div_eq_of_lt hi, Nat.mod_eq_of_lt hi]
  rfl

theorem wordByte_cons_add (val : UInt64) (words : List UInt64) (i : Nat) :
    wordByte (val :: words) (i + 8) = wordByte words i := by
  rw [wordByte, Nat.add_div_right _ (by omega), Nat.add_mod_right, List.getElem?_cons_succ,
    wordByte]

/-- What `fillTrng` leaves behind, from `offset` on: the words' bytes, if there are enough. -/
structure Filled (words : List UInt64) (buf : Bytes) (offset : Nat) (filled : Bool)
    (out : Bytes) : Prop where
  length : out.length = buf.length
  enough : filled = true ↔ buf.length - offset ≤ 8 * words.length
  entry : filled = true → ∀ j, out[j]?
    = if offset ≤ j ∧ j < buf.length then wordByte words (j - offset) else buf[j]?

/-- No word is left, and some byte is missing. -/
theorem filled_nil {buf : Bytes} {offset : Nat} (h : offset < buf.length) :
    Filled [] buf offset false buf := by
  refine ⟨rfl, ?_, fun hfilled => by cases hfilled⟩
  rw [List.length_nil]
  constructor
  · intro hfilled
    cases hfilled
  · intro hle
    omega

theorem trngTail_ok {words : List UInt64} {buf out : Bytes} {offset : Nat} {filled : Bool}
    (hshort : buf.length < offset + 8) (h : trngTail buf offset words = .ok (filled, out)) :
    Filled words buf offset filled out := by
  unfold trngTail at h
  by_cases hlt : offset < buf.length
  · rw [if_pos hlt] at h
    cases words with
    | nil =>
      cases h
      exact filled_nil hlt
    | cons val words =>
      simp only [bind_eq_ok, sub_eq_ok, slice_eq_ok, List.drop_zero, Nat.sub_zero] at h
      obtain ⟨_, ⟨-, rfl⟩, _, ⟨-, rfl⟩, buf', hstore, heq⟩ := h
      cases heq
      refine ⟨storeSlice_length hstore, ?_, fun _ j => ?_⟩
      · rw [List.length_cons]
        exact ⟨fun _ => by omega, fun _ => rfl⟩
      · rw [storeSlice_getElem? hstore]
        by_cases hin : offset ≤ j ∧ j < buf.length
        · rw [if_pos hin, if_pos hin, wordByte_cons_lt (by omega),
            List.getElem?_take_of_lt (by omega)]
        · rw [if_neg hin, if_neg hin]
  · rw [if_neg hlt] at h
    cases h
    refine ⟨rfl, ⟨fun _ => by omega, fun _ => rfl⟩, fun _ j => ?_⟩
    rw [if_neg (by omega)]

/-- The loop from any word on. -/
theorem trngLoop_ok {words : List UInt64} {buf out : Bytes} {offset : Nat} {filled : Bool}
    (h : trngLoop buf offset words = .ok (filled, out)) :
    Filled words buf offset filled out := by
  induction words generalizing buf offset with
  | nil =>
    rw [trngLoop, bind_eq_ok] at h
    obtain ⟨stop, hstop, h⟩ := h
    obtain ⟨-, rfl⟩ := add_eq_ok.mp hstop
    by_cases hroom : offset + 8 ≤ buf.length
    · -- a whole word is missing, and there is none left
      rw [if_pos hroom] at h
      cases h
      exact filled_nil (by omega)
    · rw [if_neg hroom] at h
      exact trngTail_ok (by omega) h
  | cons val words ih =>
    rw [trngLoop, bind_eq_ok] at h
    obtain ⟨stop, hstop, h⟩ := h
    obtain ⟨-, rfl⟩ := add_eq_ok.mp hstop
    by_cases hroom : offset + 8 ≤ buf.length
    · rw [if_pos hroom, bind_eq_ok] at h
      obtain ⟨buf', hstore, h⟩ := h
      have hlen := storeSlice_length hstore
      obtain ⟨hout, henough, hentry⟩ := ih h
      refine ⟨hout.trans hlen, ?_, fun hfilled j => ?_⟩
      · rw [henough, hlen, List.length_cons]
        exact ⟨fun hle => by omega, fun hle => by omega⟩
      · rw [hentry hfilled j, hlen, storeSlice_getElem? hstore]
        by_cases hrest : offset + 8 ≤ j ∧ j < buf.length
        · have hshift : j - offset = j - (offset + 8) + 8 := by omega
          rw [if_pos hrest, if_pos (by omega), hshift, wordByte_cons_add]
        · rw [if_neg hrest]
          by_cases hnow : offset ≤ j ∧ j < offset + 8
          · rw [if_pos hnow, if_pos (by omega), wordByte_cons_lt (by omega)]
          · rw [if_neg hnow, if_neg (by omega)]
    · rw [if_neg hroom] at h
      exact trngTail_ok (by omega) h

/-! ## Raw entropy -/

theorem xorInto_getElem? {dst src : Bytes} (h : src.length = dst.length) (i : Nat) :
    (xorInto dst src)[i]? = dst[i]?.bind fun a => src[i]?.map fun b => a ^^^ b := by
  rw [xorInto, h, List.drop_length, List.append_nil, List.getElem?_zipWith]
  cases dst[i]? <;> cases src[i]? <;> rfl

/-- The hardware is available, and answers all the reads that `n` bytes take. -/
def WordsRead (oracle : EntropyOracle) (sources : Sources) (n : Nat) (words : List UInt64) : Prop :=
  oracle.state.value.trngAvailable = true ∧ sources.trng = some words
    ∧ (n + 7) / 8 ≤ words.length

/-- The bytes of the operating system, untouched or mixed with a word's byte each. -/
def RawOf (oracle : EntropyOracle) (sources : Sources) {n : Nat} (os : Vector UInt8 n)
    (raw : Bytes) : Prop :=
  ((¬ ∃ words, WordsRead oracle sources n words) ∧ raw = os.toList)
    ∨ ∃ words, WordsRead oracle sources n words ∧ raw.length = n
        ∧ ∀ i (hi : i < n), ∃ b, wordByte words i = some b ∧ raw[i]? = some (os[i] ^^^ b)

/-- A buffer filled from words is mixed in at every place. -/
theorem xorInto_filled {n : Nat} {os : Vector UInt8 n} {words : List UInt64} {trngBuf : Bytes}
    (h : Filled words (List.replicate n 0) 0 true trngBuf) :
    (xorInto os.toList trngBuf).length = n ∧ ∀ i (hi : i < n), ∃ b, wordByte words i = some b
      ∧ (xorInto os.toList trngBuf)[i]? = some (os[i] ^^^ b) := by
  obtain ⟨hlen, -, hentry⟩ := h
  rw [List.length_replicate] at hlen
  have hsame : trngBuf.length = os.toList.length := hlen.trans os.length_toList.symm
  refine ⟨?_, fun i hi => ?_⟩
  · rw [xorInto, hsame, List.drop_length, List.append_nil, List.length_zipWith, hsame,
      Nat.min_self, os.length_toList]
  · have hword := hentry rfl i
    rw [List.length_replicate, if_pos ⟨Nat.zero_le i, hi⟩, Nat.sub_zero] at hword
    have hin : i < trngBuf.length := by omega
    have hread : trngBuf[i]? = some trngBuf[i] := List.getElem?_eq_getElem hin
    refine ⟨_, hword.symm.trans hread, ?_⟩
    rw [xorInto_getElem? hsame, hread, Vector.getElem?_toList, Vector.getElem?_eq_getElem hi]
    rfl

/-- **Raw entropy is mixed in full or not at all.** -/
theorem fillRaw_ok {oracle : EntropyOracle} {sources : Sources} {n : Nat} {raw : Bytes}
    (h : oracle.fillRaw sources n = .ok raw) :
    ∃ os, sources.os n = some os ∧ RawOf oracle sources os raw := by
  rw [fillRaw, bind_eq_ok] at h
  obtain ⟨os, hos, h⟩ := h
  rw [bind_eq_ok] at h
  obtain ⟨state, hlock, h⟩ := h
  obtain ⟨-, rfl⟩ := lock_eq_ok.mp hlock
  refine ⟨os, okOr_eq_ok.mp hos, ?_⟩
  by_cases havail : oracle.state.value.trngAvailable
  · rw [if_pos havail, bind_eq_ok] at h
    obtain ⟨⟨filled, trngBuf⟩, hfill, h⟩ := h
    cases h
    cases htrng : sources.trng with
    | none =>
      -- no generator: nothing was filled
      rw [htrng] at hfill
      cases hfill
      refine Or.inl ⟨fun hread => ?_, rfl⟩
      obtain ⟨words, -, hwords, -⟩ := hread
      rw [htrng] at hwords
      cases hwords
    | some words =>
      rw [htrng] at hfill
      have hfilled := trngLoop_ok hfill
      have henough := hfilled.enough
      rw [List.length_replicate] at henough
      cases filled with
      | false =>
        -- a read failed, so there were too few words
        refine Or.inl ⟨fun hread => ?_, rfl⟩
        obtain ⟨words', -, hwords, hle⟩ := hread
        cases htrng.symm.trans hwords
        exact Bool.noConfusion (henough.mpr (by omega))
      | true =>
        have hall := henough.mp rfl
        exact Or.inr ⟨words, ⟨havail, htrng, by omega⟩, xorInto_filled hfilled⟩
  · rw [if_neg havail] at h
    cases h
    refine Or.inl ⟨fun hread => ?_, rfl⟩
    obtain ⟨words, htrue, -⟩ := hread
    exact havail htrue

/-! ## All loops end -/

/-- A loop over hash blocks returns. -/
theorem conditioning_loop_returns {sha : Sha256} {input : Bytes} {c : Conditioning}
    (hlen : c.output.length < 2 ^ 63) (hoffset : c.offset ≤ c.output.length)
    (hcounter : c.counter ≤ c.offset) : ∃ out, c.loop sha input = .ok out := by
  have hround : ∀ c : Conditioning, c.output.length < 2 ^ 63 → c.offset < c.output.length →
      c.counter ≤ c.offset → ∃ c', c.round sha input = .ok c' := by
    intro c hlen hlt hcounter
    have hhash : (sha (Words.toLe 8 c.counter ++ input)).toList.length = 32 :=
      Vector.length_toList ..
    have hchunk : (if c.output.length - c.offset < 32 then c.output.length - c.offset else 32)
        = min (c.output.length - c.offset) 32 := by
      split <;> omega
    rw [Conditioning.round, sub_of_le (by omega), ok_bind]
    dsimp only
    rw [hchunk, add_of_lt (by omega), ok_bind, slice_of_le (by omega), ok_bind,
      storeSlice_of_le (by omega) (by omega) (by rw [List.length_take]; omega), ok_bind,
      add_of_lt (by omega), ok_bind]
    exact ⟨_, rfl⟩
  induction c using Conditioning.loop.induct sha input with
  | case1 c hlt c' hstep ih =>
    obtain ⟨hoffset', hcounter', hstore⟩ := Conditioning.round_eq_ok hstep
    have hsame := storeSlice_length hstore
    obtain ⟨out, hout⟩ := ih (by omega) (by omega) (by omega)
    refine ⟨out, ?_⟩
    rw [Conditioning.loop, dif_pos hlt]
    split
    · rename_i c'' hstep'
      cases hstep.symm.trans hstep'
      exact hout
    · rename_i e hstep'
      cases hstep.symm.trans hstep'
  | case2 c hlt e hstep =>
    obtain ⟨c', hc'⟩ := hround c hlen hlt hcounter
    cases hstep.symm.trans hc'
  | case3 c hge =>
    rw [Conditioning.loop, dif_neg hge]
    exact ⟨_, rfl⟩

theorem trngTail_returns {words : List UInt64} {buf : Bytes} {offset : Nat}
    (hshort : buf.length < offset + 8) : ∃ r, trngTail buf offset words = .ok r := by
  unfold trngTail
  by_cases hlt : offset < buf.length
  · rw [if_pos hlt]
    cases words with
    | nil => exact ⟨_, rfl⟩
    | cons val words =>
      dsimp only
      rw [sub_of_le (by omega), ok_bind, slice_of_le (by rw [Words.toLe_length]; omega), ok_bind,
        storeSlice_of_le (by omega) (Nat.le_refl _)
          (by rw [List.length_take, Words.toLe_length]; omega), ok_bind]
      exact ⟨_, rfl⟩
  · rw [if_neg hlt]
    exact ⟨_, rfl⟩

/-- A loop over words returns. -/
theorem trngLoop_returns {words : List UInt64} {buf : Bytes} {offset : Nat}
    (hlen : buf.length < 2 ^ 63) (hoffset : offset ≤ buf.length) :
    ∃ r, trngLoop buf offset words = .ok r := by
  induction words generalizing buf offset with
  | nil =>
    rw [trngLoop, add_of_lt (by omega), ok_bind]
    by_cases hroom : offset + 8 ≤ buf.length
    · rw [if_pos hroom]
      exact ⟨_, rfl⟩
    · rw [if_neg hroom]
      exact trngTail_returns (by omega)
  | cons val words ih =>
    rw [trngLoop, add_of_lt (by omega), ok_bind]
    by_cases hroom : offset + 8 ≤ buf.length
    · have hstore : (storeSlice buf offset (offset + 8) (Words.toLe 8 val.toNat)
          : Outcome CryptoError Bytes) = .ok _ :=
        storeSlice_of_le (by omega) hroom (by rw [Words.toLe_length]; omega)
      have hsame := storeSlice_length hstore
      rw [if_pos hroom, hstore, ok_bind]
      exact ih (by omega) (by omega)
    · rw [if_neg hroom]
      exact trngTail_returns (by omega)

/-- A healthy oracle whose operating system answers draws raw entropy. -/
theorem fillRaw_answered {oracle : EntropyOracle} {sources : Sources} {n : Nat}
    {os : Vector UInt8 n} (hn : n < 2 ^ 63) (hhealthy : oracle.state.poisoned = false)
    (hos : sources.os n = some os) : ∃ raw, oracle.fillRaw sources n = .ok raw := by
  rw [fillRaw, hos, okOr, ok_bind, lock_eq_ok.mpr ⟨hhealthy, rfl⟩, ok_bind]
  by_cases havail : oracle.state.value.trngAvailable
  · rw [if_pos havail]
    cases sources.trng with
    | none => exact ⟨_, rfl⟩
    | some words =>
      obtain ⟨r, hr⟩ : ∃ r, trngLoop (List.replicate n 0) 0 words = .ok r :=
        trngLoop_returns (by rwa [List.length_replicate]) (Nat.zero_le _)
      rw [fillTrng, hr, ok_bind]
      exact ⟨_, rfl⟩
  · rw [if_neg havail]
    exact ⟨_, rfl⟩

/-- Without either it reports that entropy is unavailable. -/
theorem fillRaw_unavailable {oracle : EntropyOracle} {sources : Sources} {n : Nat}
    (h : oracle.state.poisoned = true ∨ sources.os n = none) :
    oracle.fillRaw sources n = .error (.err .entropyUnavailable) := by
  rw [fillRaw]
  cases hos : sources.os n with
  | none => rfl
  | some os =>
    have hpoisoned : oracle.state.poisoned = true := h.resolve_right (by simp [hos])
    rw [okOr, ok_bind, lock, if_pos hpoisoned]
    rfl

theorem fillRaw_returns {oracle : EntropyOracle} {sources : Sources} {n : Nat}
    (hn : n < 2 ^ 63) : Returns (oracle.fillRaw sources n) := by
  cases hpoisoned : oracle.state.poisoned with
  | true =>
    rw [fillRaw_unavailable (Or.inl hpoisoned)]
    exact returns_fail _
  | false =>
    cases hos : sources.os n with
    | none =>
      rw [fillRaw_unavailable (Or.inr hos)]
      exact returns_fail _
    | some os =>
      obtain ⟨raw, hraw⟩ := fillRaw_answered hn hpoisoned hos
      rw [hraw]
      exact returns_ok raw

theorem condition_returns (sha : Sha256) (input : Bytes) {output : Bytes}
    (hn : output.length < 2 ^ 63) : ∃ out, condition sha input output = .ok out :=
  conditioning_loop_returns hn (Nat.zero_le _) (Nat.le_refl _)

theorem drawOutput_returns {sha : Sha256} {oracle : EntropyOracle} {sources : Sources}
    {buf : Bytes} (hn : buf.length < 2 ^ 63) : Returns (oracle.drawOutput sha sources buf) := by
  refine Returns.bind (fillRaw_returns hn) fun raw _ => ?_
  obtain ⟨out, hout⟩ := condition_returns sha raw hn
  rw [hout]
  exact returns_ok _

theorem drawOutput_answered {oracle : EntropyOracle} {sources : Sources} {buf : Bytes}
    {os : Vector UInt8 buf.length} (sha : Sha256) (hn : buf.length < 2 ^ 63)
    (hhealthy : oracle.state.poisoned = false) (hos : sources.os buf.length = some os) :
    ∃ out, oracle.drawOutput sha sources buf = .ok out := by
  obtain ⟨raw, hraw⟩ := fillRaw_answered hn hhealthy hos
  rw [drawOutput, hraw, ok_bind]
  exact condition_returns sha raw hn

theorem drawOutput_os_ne_none {sha : Sha256} {oracle : EntropyOracle} {sources : Sources}
    {buf out : Bytes} (h : oracle.drawOutput sha sources buf = .ok out) :
    sources.os buf.length ≠ none := by
  intro hnone
  rw [drawOutput, fillRaw_unavailable (Or.inr hnone)] at h
  cases h

theorem checkSample_returns {oracle : EntropyOracle} {sources : Sources} :
    Returns (oracle.checkSample sources) :=
  Returns.bind (fillRaw_returns (by omega)) fun _ _ => returns_ok _

/-! ## The whole call -/

/-- What a call returns is what its first half drew. -/
theorem fill_ok {sha : Sha256} {oracle : EntropyOracle} {buf out : Bytes}
    {output sample : Sources} (hbuf : buf ≠ [])
    (h : (oracle.fill sha buf output sample).1 = .ok out) :
    oracle.drawOutput sha output buf = .ok out := by
  rw [fill, if_neg hbuf] at h
  cases hdraw : oracle.drawOutput sha output buf with
  | error e =>
    rw [hdraw] at h
    cases h
  | ok filled =>
    rw [hdraw] at h
    dsimp only at h
    split at h
    · cases h
    · cases h
      rfl

theorem count_returns (oracle : EntropyOracle) (bytes : Nat) : Returns (oracle.count bytes).1 := by
  cases hpoisoned : oracle.state.poisoned with
  | true =>
    rw [count, lock, if_pos hpoisoned]
    exact returns_fail _
  | false =>
    rw [count_eq hpoisoned]
    exact returns_ok _

theorem store_returns (oracle : EntropyOracle) (passed : Bool) :
    Returns (oracle.store passed).1 := by
  cases hpoisoned : oracle.state.poisoned with
  | true =>
    rw [EntropyOracle.store, lock, if_pos hpoisoned]
    exact returns_fail _
  | false =>
    rw [store_eq hpoisoned]
    exact returns_ok _

theorem fill_returns {sha : Sha256} {oracle : EntropyOracle} {buf : Bytes}
    {output sample : Sources} (hbuf : buf.length < 2 ^ 63) :
    Returns (oracle.fill sha buf output sample).1 := by
  intro p h
  unfold fill at h
  split at h
  · cases h
  · split at h
    · rename_i e hdraw
      cases h
      exact drawOutput_returns hbuf p hdraw
    · split at h
      · rename_i e oracle' hupdate
        cases h
        unfold updateCounterAndCheck at hupdate
        split at hupdate
        · rename_i e oracle' hcount
          cases hupdate
          exact count_returns oracle buf.length p (congrArg Prod.fst hcount)
        · cases hupdate
        · split at hupdate
          · rename_i hsample
            cases hupdate
            exact checkSample_returns p hsample
          · exact store_returns _ _ p (congrArg Prod.fst hupdate)
      · cases h

/--
**Entropy mixing is exact**, whatever the sources answer.

A call that returns has written, at every place of the buffer, the byte of a hash of
raw entropy that is never a partial mix. On any buffer a slice can be, it returns.
-/
theorem fill_exact (sha : Sha256) (oracle : EntropyOracle) (buf : Bytes)
    (output sample : Sources) :
    (∀ out, (oracle.fill sha buf output sample).1 = .ok out →
        out.length = buf.length
          ∧ (buf ≠ [] → ∃ os raw, output.os buf.length = some os ∧ RawOf oracle output os raw
              ∧ ∀ j, j < buf.length →
                  out[j]? = (sha (Words.toLe 8 (j / 32) ++ raw)).toList[j % 32]?))
      ∧ (buf.length < 2 ^ 63 → Returns (oracle.fill sha buf output sample).1) := by
  refine ⟨fun out h => ?_, fill_returns⟩
  by_cases hbuf : buf = []
  · rw [fill, if_pos hbuf] at h
    cases h
    exact ⟨rfl, fun hne => absurd hbuf hne⟩
  · have hdraw := fill_ok hbuf h
    rw [drawOutput, bind_eq_ok] at hdraw
    obtain ⟨raw, hraw, hcond⟩ := hdraw
    obtain ⟨os, hos, hmix⟩ := fillRaw_ok hraw
    obtain ⟨hlen, hentry⟩ := condition_ok hcond
    exact ⟨hlen, fun _ => ⟨os, raw, hos, hmix, hentry⟩⟩

/-- An operating system that answers with one byte over and over, and no hardware generator. -/
def flatSources (b : UInt8) : Sources where
  os n := some (Vector.replicate n b)
  trng := none

/-- A hash that says the same of everything. -/
def constantSha : Sha256 := fun _ => Vector.replicate 32 7

/-- An oracle with a hardware generator. -/
def mixingOracle : EntropyOracle where
  osPoolAvailable := true
  state := ⟨⟨true, 0, true, 0⟩, false⟩

/-- Ones from the operating system, and five words from the hardware. -/
def wordSources : Sources where
  os n := some (Vector.replicate n 1)
  trng := some (List.replicate 5 0x0807060504030201)

/-- A hash that shows its input. -/
def echoSha : Sha256 := fun input => Vector.ofFn fun i : Fin 32 => input.getD i 0

/-- Two blocks: the first holds its counter and 24 mixed bytes, the second starts with its own. -/
theorem fill_exact_blocks : ∃ out,
    (mixingOracle.fill echoSha (List.replicate 40 0) wordSources wordSources).1 = .ok out
      ∧ out = List.replicate 8 0 ++ (List.replicate 3 [0, 3, 2, 5, 4, 7, 6, 9]).flatten
          ++ [1, 0, 0, 0, 0, 0, 0, 0] := by
  let buf : Bytes := List.replicate 40 0
  obtain ⟨out, hout⟩ : ∃ out, mixingOracle.drawOutput echoSha wordSources buf = .ok out :=
    drawOutput_answered _ (by decide) rfl rfl
  have hfill : (mixingOracle.fill echoSha buf wordSources wordSources).1 = .ok out := by
    rw [fill, if_neg (by decide), hout]
    rfl
  obtain ⟨hlen, hbytes⟩ :=
    (fill_exact echoSha mixingOracle buf wordSources wordSources).1 out hfill
  obtain ⟨os, raw, hos, hraw, hbytes⟩ := hbytes (by decide)
  obtain rfl := Option.some.inj hos
  have hread : WordsRead mixingOracle wordSources buf.length
      (List.replicate 5 0x0807060504030201) := ⟨rfl, rfl, by decide⟩
  rcases hraw with ⟨hunread, -⟩ | ⟨words, ⟨-, hwords, -⟩, hrawLen, hmixed⟩
  · exact absurd ⟨_, hread⟩ hunread
  obtain rfl := Option.some.inj hwords
  -- every raw byte is one of a word, with its lowest bit turned over
  have hrawBytes : raw = (List.replicate 5 [0, 3, 2, 5, 4, 7, 6, 9]).flatten := by
    refine List.ext_getElem? fun i => ?_
    rcases Nat.lt_or_ge i 40 with hi | hi
    · obtain ⟨b, hb, hxor⟩ := hmixed i hi
      rw [hxor, Vector.getElem_replicate]
      have hword : ∀ i < 40, (wordByte (List.replicate 5 0x0807060504030201) i).map (1 ^^^ ·)
          = (List.replicate 5 [0, 3, 2, 5, 4, 7, 6, 9]).flatten[i]? := by decide +kernel
      rw [← hword i hi, hb]
      rfl
    · rw [List.getElem?_eq_none (hrawLen.trans_le hi), List.getElem?_eq_none hi]
  refine ⟨out, hfill, List.ext_getElem? fun j => ?_⟩
  rcases Nat.lt_or_ge j 40 with hj | hj
  · rw [hbytes j hj, hrawBytes]
    revert j
    decide +kernel
  · rw [List.getElem?_eq_none (hlen.trans_le hj), List.getElem?_eq_none hj]

end Stegosafe.Proof
