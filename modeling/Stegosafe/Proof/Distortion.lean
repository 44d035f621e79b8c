import Mathlib.Algebra.BigOperators.Group.List.Basic
import Stegosafe.Proof.Untouched

/-!
# How far a stego image is from its cover

A sample is changed exactly if the bit it already carries is not the bit the frame puts
there, and then by `2 ^ p`. So the distance between the two pictures is the distance
between two bit strings: the frame, and what the cover holds in bit plane `p` along the
technique's list.
-/

namespace Stegosafe.Proof

open Stegosafe Checked Outcome

/-- The samples along `ps` whose bit of plane `p` is not the frame's. -/
def flippedSamples (p : Nat) (raw : Bytes) (ps : List Nat) (framed : Bytes) : List Nat :=
  (((Bits.stream framed).zip ps).filter fun vi => raw[vi.2]?.map (Bits.get p) ≠ some vi.1).map
    Prod.snd

/-- The sum of the squared differences of all samples. -/
def squaredError (cover stego : RgbImage) : Nat :=
  ((List.range cover.raw.length).map fun i =>
    ((cover.raw.getD i 0).toNat - (stego.raw.getD i 0).toNat : Int).natAbs ^ 2).sum

section Flipped

variable {p : Nat} {cover stego : RgbImage}

/-- A frame flips no more samples than it has bits. -/
theorem flippedSamples_length (p : Nat) (raw : Bytes) (ps : List Nat) (framed : Bytes) :
    (flippedSamples p raw ps framed).length ≤ 8 * framed.length := by
  rw [flippedSamples, List.length_map]
  refine (List.length_filter_le _ _).trans ?_
  rw [List.length_zip, Bits.stream_length]
  exact Nat.min_le_left _ _

theorem flippedSamples_nodup (p : Nat) (c : Carrier cover.raw.length) (framed : Bytes) :
    (flippedSamples p cover.raw c.order framed).Nodup := by
  have hsub : (flippedSamples p cover.raw c.order framed).Sublist
      (((Bits.stream framed).zip c.order).map Prod.snd) := List.filter_sublist.map Prod.snd
  exact (Scatter.zip_snd_nodup c.nodup).sublist hsub

/-- What a frame's bit does to the sample it is put in. -/
theorem put_eq_iff (hp : p < 8) {v a : UInt8} (hv : Bits.IsBit v) :
    Bits.put p v a = a ↔ Bits.get p a = v := by
  constructor
  · intro h
    rw [← h]
    exact Bits.get_put_self hp hv a
  · intro h
    rw [← h]
    exact Bits.put_get hp a

/-- **The samples a frame changes are those whose bit it flips.** -/
theorem changed_perm_flipped (hp : p < 8) (c : Carrier cover.raw.length) (framed : Bytes) :
    (changedSamples cover (cover.withRaw (c.hide p framed cover.raw) (c.hide_length _ _ _))).Perm
      (flippedSamples p cover.raw c.order framed) := by
  -- a bit of the frame changes its sample exactly if it flips the bit there
  have hflip : ∀ {v : UInt8} {i : Nat}, (v, i) ∈ (Bits.stream framed).zip c.order →
      i < cover.raw.length ∧ ((c.hide p framed cover.raw)[i]? ≠ cover.raw[i]?
        ↔ cover.raw[i]?.map (Bits.get p) ≠ some v) := by
    intro v i hmem
    obtain ⟨hv, hi⟩ := List.of_mem_zip hmem
    have hlt := c.inside i hi
    have hhidden : (c.hide p framed cover.raw)[i]? = cover.raw[i]?.map (Bits.put p v) :=
      Scatter.scatter_mem (Scatter.zip_snd_nodup c.nodup) hmem
    refine ⟨hlt, not_congr ?_⟩
    rw [hhidden, List.getElem?_eq_getElem hlt, Option.map_some, Option.map_some,
      Option.some.injEq, Option.some.injEq]
    exact put_eq_iff hp (Bits.isBit_of_mem_stream hv)
  refine (List.perm_ext_iff_of_nodup (List.nodup_range.filter _)
    (flippedSamples_nodup p c framed)).mpr fun i => ?_
  refine mem_changedSamples.trans ?_
  rw [flippedSamples]
  simp only [List.mem_map, List.mem_filter, Prod.exists, exists_eq_right, decide_eq_true_eq]
  constructor
  · rintro ⟨-, hne⟩
    have hreach : i ∈ ((Bits.stream framed).zip c.order).map Prod.snd := by
      by_contra hout
      exact hne (Scatter.scatter_other hout)
    obtain ⟨⟨v, i'⟩, hmem, rfl⟩ := List.mem_map.mp hreach
    exact ⟨v, hmem, (hflip hmem).2.mp hne⟩
  · rintro ⟨v, hmem, hne⟩
    exact ⟨(hflip hmem).1, (hflip hmem).2.mpr hne⟩

/-- **Changed samples are all that differs**, each of them by `2 ^ p`. -/
theorem TouchesOnly.squaredError_eq {reach : List Nat} (h : TouchesOnly p reach cover stego) :
    squaredError cover stego = (2 ^ p) ^ 2 * (changedSamples cover stego).length := by
  have hterm : ∀ i ∈ List.range cover.raw.length,
      ((cover.raw.getD i 0).toNat - (stego.raw.getD i 0).toNat : Int).natAbs ^ 2
        = if stego.raw[i]? ≠ cover.raw[i]? then (2 ^ p) ^ 2 else 0 := by
    intro i hi
    rw [List.getD_eq_getElem?_getD, List.getD_eq_getElem?_getD]
    split
    · rename_i hne
      obtain ⟨a, b, ha, hb, hmove⟩ := h.changed_by i
        (mem_changedSamples.mpr ⟨List.mem_range.mp hi, hne⟩)
      rw [ha, hb, Option.getD_some, Option.getD_some]
      congr 1
      generalize 2 ^ p = step at hmove ⊢
      omega
    · rename_i heq
      rw [not_not.mp heq, Int.sub_self]
      rfl
  rw [squaredError, List.map_congr_left hterm, List.sum_map_ite, List.map_const',
    List.map_const', List.sum_replicate_nat, List.sum_replicate_nat, Nat.mul_zero, Nat.add_zero,
    Nat.mul_comm]
  rfl

end Flipped

/--
**The error of a stego image is the distance between two bit strings.**

For each technique, the samples that changed are those along its list whose bit was not
the frame's already, and the squared error of the picture is `4 ^ p` for each of them: at
most eight for every byte of the frame, and none if the cover holds the frame already.
-/
theorem distortion_exact {F : Type} [Scalar F] (hmac : Hmac) (id : TechniqueId)
    (cover stego : RgbImage) (payload : Bytes) (params : EmbedParams)
    (hplane : params.bitPlane ≤ 7)
    (hembed : (StegoEngine.techniqueOf F hmac id).embed cover payload params = .ok stego) :
    ∃ ps, positionList F hmac id cover params = .ok ps
      ∧ (changedSamples cover stego).Perm
          (flippedSamples (planeOf id params).toNat cover.raw ps (framePayload payload))
      ∧ squaredError cover stego = (2 ^ (planeOf id params).toNat) ^ 2
          * (flippedSamples (planeOf id params).toNat cover.raw ps (framePayload payload)).length
      ∧ squaredError cover stego
          ≤ (2 ^ (planeOf id params).toNat) ^ 2 * (8 * (payload.length + 4)) := by
  have hp : (planeOf id params).toNat < 8 := planeOf_lt hplane
  obtain ⟨c, hps, -, hfits, rfl⟩ := (technique_embed_eq_ok hp).mp hembed
  have htouch := hide_touchesOnly hp cover c (framePayload payload)
    (by rwa [framePayload_length])
  have hperm := changed_perm_flipped hp c (framePayload payload)
  have herror := htouch.squaredError_eq
  rw [hperm.length_eq] at herror
  refine ⟨c.order, hps, hperm, herror, ?_⟩
  rw [herror]
  have hcount := flippedSamples_length (planeOf id params).toNat cover.raw c.order
    (framePayload payload)
  rw [framePayload_length] at hcount
  exact Nat.mul_le_mul_left _ hcount

/-- A grey cover has no bit of plane 0 set, so the frame's ones are what changes. -/
theorem distortion_exact_grey : ∃ stego,
    LsbSequential.embed greyCover [0xA5] plainParams = .ok stego
      ∧ squaredError greyCover stego = 5 := by
  obtain ⟨ps, hps, -, herror, -⟩ := distortion_exact (F := ℚ) (fun _ _ => Vector.replicate 32 0)
    .lsbSequential greyCover _ [0xA5] plainParams (by decide) greyCover_embed
  rw [positionList_sequential] at hps
  obtain rfl := Except.ok.inj hps
  refine ⟨_, greyCover_embed, herror.trans ?_⟩
  decide +kernel

end Stegosafe.Proof
