import Stegosafe.Proof.Mixing

/-!
# What each source contributes

Raw entropy is the bytes of the operating system under a mask, and the mask comes from
the hardware alone: the bytes of its words, or zeros where it is not used. So neither
source can undo the other. Whatever one of them answers, the other's answers and the
raw bytes are in one-to-one correspondence, and a uniform answer gives uniform bytes.
-/

namespace Stegosafe.Proof

open Stegosafe Checked Outcome EntropyOracle

/-- An operating system that answers these bytes, next to some hardware. -/
def answering {n : Nat} (os : Vector UInt8 n) (trng : Option (List UInt64)) : Sources where
  os m := if h : n = m then some (os.cast h) else none
  trng := trng

theorem answering_os {n : Nat} (os : Vector UInt8 n) (trng : Option (List UInt64)) :
    (answering os trng).os n = some os := by
  unfold answering
  exact dif_pos rfl

/-- Byte by byte. -/
def xorMask {n : Nat} (os mask : Vector UInt8 n) : Vector UInt8 n :=
  Vector.ofFn fun i => os[i] ^^^ mask[i]

theorem xorMask_xorMask {n : Nat} (os mask : Vector UInt8 n) :
    xorMask (xorMask os mask) mask = os := by
  ext i hi
  simp only [xorMask, Vector.getElem_ofFn, Fin.getElem_fin, UInt8.xor_assoc, UInt8.xor_self,
    UInt8.xor_zero]

theorem xorMask_comm {n : Nat} (os mask : Vector UInt8 n) : xorMask os mask = xorMask mask os := by
  ext i hi
  simp only [xorMask, Vector.getElem_ofFn, Fin.getElem_fin, UInt8.xor_comm]

theorem xorMask_injective {n : Nat} {os a b : Vector UInt8 n} (h : xorMask os a = xorMask os b) :
    a = b := by
  rw [xorMask_comm os a, xorMask_comm os b] at h
  rw [← xorMask_xorMask a os, h, xorMask_xorMask]

/-! ## The mask -/

/-- The first `n` bytes of a sequence of words. -/
def wordBytes (words : List UInt64) (n : Nat) : Vector UInt8 n :=
  Vector.ofFn fun i => (wordByte words i).getD 0

/-- What the hardware puts over `n` bytes. -/
def hardwareMask (oracle : EntropyOracle) (trng : Option (List UInt64)) (n : Nat) :
    Vector UInt8 n :=
  match trng with
  | some words =>
    if oracle.state.value.trngAvailable = true ∧ (n + 7) / 8 ≤ words.length then
      wordBytes words n
    else
      Vector.replicate n 0
  | none => Vector.replicate n 0

section Mask

variable {oracle : EntropyOracle} {trng : Option (List UInt64)} {n : Nat}

/-- Words that are all read are the mask. -/
theorem hardwareMask_read {words : List UInt64} (havail : oracle.state.value.trngAvailable = true)
    (henough : (n + 7) / 8 ≤ words.length) :
    hardwareMask oracle (some words) n = wordBytes words n := if_pos ⟨havail, henough⟩

/-- Otherwise there is none. -/
theorem hardwareMask_unread {sources : Sources}
    (h : ¬ ∃ words, WordsRead oracle sources n words) :
    hardwareMask oracle sources.trng n = Vector.replicate n 0 := by
  unfold hardwareMask
  cases htrng : sources.trng with
  | none => rfl
  | some words =>
    refine if_neg fun hread => h ⟨words, hread.1, htrng, hread.2⟩

/-- **Raw entropy is the operating system's bytes under the hardware's mask.** -/
theorem fillRaw_mask (hhealthy : oracle.state.poisoned = false) (hn : n < 2 ^ 63)
    (os : Vector UInt8 n) :
    oracle.fillRaw (answering os trng) n
      = .ok (xorMask os (hardwareMask oracle trng n)).toList := by
  obtain ⟨raw, hraw⟩ := fillRaw_answered hn hhealthy (answering_os os trng)
  obtain ⟨os', hos, hmix⟩ := fillRaw_ok hraw
  obtain rfl := Option.some.inj ((answering_os os trng).symm.trans hos)
  rw [hraw]
  refine congrArg Except.ok ?_
  rcases hmix with ⟨hunread, rfl⟩ | ⟨words, ⟨havail, htrng, henough⟩, hlen, hbytes⟩
  · have hmask : hardwareMask oracle trng n = Vector.replicate n 0 := hardwareMask_unread hunread
    rw [hmask]
    refine congrArg Vector.toList ?_
    ext i hi
    simp only [xorMask, Vector.getElem_ofFn, Fin.getElem_fin, Vector.getElem_replicate,
      UInt8.xor_zero]
  · obtain rfl : trng = some words := htrng
    rw [hardwareMask_read havail henough]
    refine List.ext_getElem (by rw [hlen, Vector.length_toList]) fun i hi _ => ?_
    obtain ⟨b, hb, hentry⟩ := hbytes i (hlen ▸ hi)
    rw [List.getElem?_eq_getElem hi] at hentry
    simp only [Vector.getElem_toList, xorMask, wordBytes, Vector.getElem_ofFn, Fin.getElem_fin, hb,
      Option.getD_some]
    exact Option.some.inj hentry

end Mask

/-! ## Words and their bytes -/

/-- Eight bytes of a mask as a word. -/
def wordAt {n : Nat} (mask : Vector UInt8 n) (j : Nat) : UInt64 :=
  UInt64.ofNat (Words.ofLe (List.ofFn fun b : Fin 8 => mask[8 * j + b]?.getD 0))

theorem toLe_wordAt {n : Nat} (mask : Vector UInt8 n) (j : Nat) :
    Words.toLe 8 (wordAt mask j).toNat = List.ofFn fun b : Fin 8 => mask[8 * j + b]?.getD 0 := by
  have hlt := Words.ofLe_lt (List.ofFn fun b : Fin 8 => mask[8 * j + b]?.getD 0)
  have hback := Words.toLe_ofLe (List.ofFn fun b : Fin 8 => mask[8 * j + b]?.getD 0)
  rw [List.length_ofFn] at hlt hback
  rw [wordAt, UInt64.toNat_ofNat_of_lt' hlt, hback]

/-- Every mask comes from words. -/
theorem wordBytes_wordAt {n : Nat} (mask : Vector UInt8 n) :
    wordBytes (List.ofFn fun j : Fin ((n + 7) / 8) => wordAt mask j) n = mask := by
  ext i hi
  have hword : i / 8 < (n + 7) / 8 := by omega
  have hplace : 8 * (i / 8) + i % 8 = i := Nat.div_add_mod i 8
  have hlow : i % 8 < 8 := Nat.mod_lt i (by omega)
  simp only [wordBytes, Vector.getElem_ofFn, wordByte]
  rw [List.getElem?_ofFn, dif_pos hword, Option.bind_some, toLe_wordAt, List.getElem?_ofFn,
    dif_pos hlow]
  simp only [hplace, Vector.getElem?_eq_getElem hi, Option.getD_some]

/-- And from one sequence of words only, if they are used up. -/
theorem wordBytes_injective {n : Nat} (hwhole : 8 ∣ n) {v w : Vector UInt64 ((n + 7) / 8)}
    (h : wordBytes v.toList n = wordBytes w.toList n) : v = w := by
  ext j hj
  refine Words.toLe_injective (k := 8) (UInt64.toNat_lt _) (UInt64.toNat_lt _)
    (List.ext_getElem (by simp) fun b hb _ => ?_)
  rw [Words.toLe_length] at hb
  have hplace : 8 * j + b < n := by omega
  have hbyte := congrArg (fun mask : Vector UInt8 n => mask[8 * j + b]) h
  have hdiv : (8 * j + b) / 8 = j := by omega
  have hmod : (8 * j + b) % 8 = b := by omega
  simpa [wordBytes, wordByte, hdiv, hmod, hj, hb] using hbyte

/--
**Neither source can undo the other.**

On an oracle with a healthy lock, for any answer of the hardware, each string of raw
bytes is what exactly one answer of the operating system gives. Where the hardware is in
use, for any answer of the operating system, each is what some words give, and what
exactly one sequence of words gives if no part of a word is left over.
-/
theorem mixing_bijective {oracle : EntropyOracle} (hhealthy : oracle.state.poisoned = false)
    {n : Nat} (hn : n < 2 ^ 63) :
    (∀ (trng : Option (List UInt64)) (raw : Vector UInt8 n), ∃! os : Vector UInt8 n,
        oracle.fillRaw (answering os trng) n = .ok raw.toList)
      ∧ (oracle.state.value.trngAvailable = true → ∀ os raw : Vector UInt8 n,
          ∃ words : Vector UInt64 ((n + 7) / 8),
            oracle.fillRaw (answering os (some words.toList)) n = .ok raw.toList
              ∧ (8 ∣ n → ∀ words' : Vector UInt64 ((n + 7) / 8),
                  oracle.fillRaw (answering os (some words'.toList)) n = .ok raw.toList →
                  words' = words)) := by
  constructor
  · intro trng raw
    refine ⟨xorMask raw (hardwareMask oracle trng n), ?_, fun os hos => ?_⟩
    · dsimp only
      rw [fillRaw_mask hhealthy hn, xorMask_xorMask]
    · dsimp only at hos
      rw [fillRaw_mask hhealthy hn] at hos
      rw [← Vector.toList_inj.mp (Except.ok.inj hos), xorMask_xorMask]
  · intro havail os raw
    have hmask : ∀ words : Vector UInt64 ((n + 7) / 8),
        oracle.fillRaw (answering os (some words.toList)) n
          = .ok (xorMask os (wordBytes words.toList n)).toList := by
      intro words
      rw [fillRaw_mask hhealthy hn,
        hardwareMask_read havail (Nat.le_of_eq words.length_toList.symm)]
    have hgives : oracle.fillRaw (answering os (some
        (Vector.ofFn fun j : Fin ((n + 7) / 8) => wordAt (xorMask os raw) j).toList)) n
          = .ok raw.toList := by
      rw [hmask, Vector.toList_ofFn, wordBytes_wordAt, xorMask_comm os raw, xorMask_comm os,
        xorMask_xorMask]
    refine ⟨_, hgives, fun hwhole words' hwords' => ?_⟩
    rw [hmask] at hgives hwords'
    have hsame := Vector.toList_inj.mp (Except.ok.inj (hwords'.trans hgives.symm))
    exact wordBytes_injective hwhole (xorMask_injective hsame)

/-- Both sources in use, on two words. -/
theorem mixing_bijective_words :
    (∃! os : Vector UInt8 16, mixingOracle.fillRaw (answering os wordSources.trng) 16
        = .ok (List.replicate 16 7))
      ∧ ∃ words : Vector UInt64 2, mixingOracle.fillRaw
          (answering (Vector.replicate 16 1) (some words.toList)) 16 = .ok (List.replicate 16 7)
        ∧ ∀ words' : Vector UInt64 2, mixingOracle.fillRaw
            (answering (Vector.replicate 16 1) (some words'.toList)) 16
              = .ok (List.replicate 16 7) → words' = words := by
  have hhealthy : mixingOracle.state.poisoned = false := rfl
  have hraw : (Vector.replicate 16 (7 : UInt8)).toList = List.replicate 16 7 :=
    Vector.toList_replicate
  obtain ⟨hos, hhardware⟩ := mixing_bijective hhealthy (show 16 < 2 ^ 63 by decide)
  obtain ⟨words, hgives, honly⟩ :=
    hhardware rfl (Vector.replicate 16 1) (Vector.replicate 16 7)
  rw [← hraw]
  exact ⟨hos _ (Vector.replicate 16 7), words, hgives, honly (by decide)⟩

end Stegosafe.Proof
