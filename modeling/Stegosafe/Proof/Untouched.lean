import Stegosafe.Proof.RoundTrip

/-!
# What embedding leaves alone

A stego image differs from its cover only where the frame was written: in one bit
plane, at the first samples of the technique's list, of which there are eight for
every byte of the frame. Everything here is read off `Carrier.hide`, so nothing
depends on how a technique orders its samples.
-/

namespace Stegosafe.Proof

open Stegosafe Checked Outcome

/-- The samples at which two pictures differ. -/
def changedSamples (cover stego : RgbImage) : List Nat :=
  (List.range cover.raw.length).filter fun i => stego.raw[i]? ≠ cover.raw[i]?

/-- `stego` is `cover`, except in bit plane `p` of samples in `reach`. -/
structure TouchesOnly (p : Nat) (reach : List Nat) (cover stego : RgbImage) : Prop where
  width_eq : stego.width = cover.width
  height_eq : stego.height = cover.height
  /-- Every other bit of every sample is the cover's. -/
  bits_eq : ∀ (i : Nat) (a : UInt8), cover.raw[i]? = some a →
    ∃ b, stego.raw[i]? = some b ∧ ∀ q < 8, q ≠ p → Bits.get q b = Bits.get q a
  /-- Samples out of reach are the cover's. -/
  changed_mem : ∀ i ∈ changedSamples cover stego, i ∈ reach
  /-- A changed sample moves by exactly `2 ^ p`. -/
  changed_by : ∀ i ∈ changedSamples cover stego, ∃ a b, cover.raw[i]? = some a
    ∧ stego.raw[i]? = some b ∧ (b.toNat = a.toNat + 2 ^ p ∨ a.toNat = b.toNat + 2 ^ p)

theorem mem_changedSamples {cover stego : RgbImage} {i : Nat} :
    i ∈ changedSamples cover stego ↔
      i < cover.raw.length ∧ stego.raw[i]? ≠ cover.raw[i]? := by
  simp [changedSamples]

/-- Overwriting a bit with another value moves the byte by `2 ^ p`. -/
theorem put_moves {p : Nat} (hp : p < 8) {v a : UInt8} (hv : Bits.IsBit v)
    (hne : Bits.put p v a ≠ a) :
    (Bits.put p v a).toNat = a.toNat + 2 ^ p ∨ a.toNat = (Bits.put p v a).toNat + 2 ^ p := by
  have hmove := Bits.toNat_put hp hv a
  have hbit : Bits.get p a ≠ v := fun h => hne (h ▸ Bits.put_get hp a)
  -- the old bit is the other one, so the byte goes down for a zero and up for a one
  rcases hv with rfl | rfl
  · rcases Bits.isBit_get p a with h | h
    · exact absurd h hbit
    · rw [h] at hmove
      exact Or.inr (by simpa using hmove.symm)
  · rcases Bits.isBit_get p a with h | h
    · rw [h] at hmove
      exact Or.inl (by simpa using hmove)
    · exact absurd h hbit

/-- What hiding makes of one sample: the same byte, or one with bit `p` overwritten. -/
theorem hide_sample {size p : Nat} {c : Carrier size} {msg raw : Bytes} {i : Nat} {a : UInt8}
    (ha : raw[i]? = some a) (hfits : 8 * msg.length ≤ c.order.length) :
    (c.hide p msg raw)[i]? = some a
      ∨ i ∈ c.order.take (8 * msg.length)
          ∧ ∃ v, Bits.IsBit v ∧ (c.hide p msg raw)[i]? = some (Bits.put p v a) := by
  by_cases hi : i ∈ c.order.take (8 * msg.length)
  · -- sample `i` stands at a place `j` the message reaches, and takes its bit `j`
    obtain ⟨j, hj⟩ := List.getElem?_of_mem hi
    obtain ⟨hj', -⟩ := List.getElem?_eq_some_iff.mp hj
    have hlt : j < 8 * msg.length := by
      rw [List.length_take] at hj'
      omega
    rw [List.getElem?_take_of_lt hlt] at hj
    obtain ⟨v, hv⟩ : ∃ v, (Bits.stream msg)[j]? = some v :=
      ⟨_, List.getElem?_eq_getElem (by rwa [Bits.stream_length])⟩
    refine Or.inr ⟨hi, v, Bits.isBit_of_mem_stream (List.mem_of_getElem? hv), ?_⟩
    rw [Carrier.hide_at hj hv, ha]
    rfl
  · rw [Carrier.hide_other hi, ha]
    exact Or.inl rfl

/-- **Hiding touches one plane of the samples it reaches.** -/
theorem hide_touchesOnly {p : Nat} (hp : p < 8) (cover : RgbImage)
    (c : Carrier cover.raw.length) (msg : Bytes) (hfits : 8 * msg.length ≤ c.order.length) :
    TouchesOnly p (c.order.take (8 * msg.length)) cover
      (cover.withRaw (c.hide p msg cover.raw) (c.hide_length _ _ _)) where
  width_eq := rfl
  height_eq := rfl
  bits_eq i a ha := by
    rcases hide_sample ha hfits with hb | ⟨-, v, hv, hb⟩
    · exact ⟨a, hb, fun _ _ _ => rfl⟩
    · exact ⟨_, hb, fun q hq hne => Bits.get_put_ne hp hq hne hv a⟩
  changed_mem i hi := by
    obtain ⟨hlt, hne⟩ := mem_changedSamples.mp hi
    have ha := List.getElem?_eq_getElem hlt
    rcases hide_sample ha hfits with hb | ⟨hmem, -⟩
    · exact absurd (hb.trans ha.symm) hne
    · exact hmem
  changed_by i hi := by
    obtain ⟨hlt, hne⟩ := mem_changedSamples.mp hi
    have ha := List.getElem?_eq_getElem hlt
    rcases hide_sample ha hfits with hb | ⟨-, v, hv, hb⟩
    · exact absurd (hb.trans ha.symm) hne
    · refine ⟨_, _, ha, hb, put_moves hp hv fun heq => hne ?_⟩
      rw [ha]
      exact hb.trans (congrArg some heq)

/-- Changed samples are listed once, so there are no more of them than samples in reach. -/
theorem TouchesOnly.changed_length {p : Nat} {reach : List Nat} {cover stego : RgbImage}
    (h : TouchesOnly p reach cover stego) :
    (changedSamples cover stego).length ≤ reach.length :=
  (List.subperm_of_subset (List.nodup_range.filter _) h.changed_mem).length_le

/--
**Embedding touches nothing else.**

For each technique, the stego image has the cover's sides and differs from it only
in the technique's bit plane, at the first `8 * (payload.length + 4)` samples of
the technique's list; with a mask, only in active channels.
-/
theorem embed_touchesOnly {F : Type} [Scalar F] (hmac : Hmac) (id : TechniqueId)
    (cover stego : RgbImage) (payload : Bytes) (params : EmbedParams)
    (hplane : params.bitPlane ≤ 1)
    (hembed : (StegoEngine.techniqueOf F hmac id).embed cover payload params = .ok stego) :
    ∃ ps, positionList F hmac id cover params = .ok ps
      ∧ TouchesOnly (planeOf id params).toNat (ps.take (8 * (payload.length + 4))) cover stego
      ∧ (id ≠ .lsbRandomHmac →
          ∀ i ∈ changedSamples cover stego, params.channels.includesChannel (i % 3))
      ∧ (changedSamples cover stego).length ≤ 8 * (payload.length + 4) := by
  have hp : (planeOf id params).toNat < 8 := planeOf_lt (UInt8.le_trans hplane (by decide))
  obtain ⟨c, hps, -, hfits, rfl⟩ := (technique_embed_eq_ok hp).mp hembed
  have htouch := hide_touchesOnly hp cover c (framePayload payload)
    (by rwa [framePayload_length])
  rw [framePayload_length] at htouch
  refine ⟨c.order, hps, htouch, fun hid i hi => ?_, ?_⟩
  · exact positionList_active hid hps i (List.mem_of_mem_take (htouch.changed_mem i hi))
  · exact htouch.changed_length.trans (List.length_take_le _ _)

theorem embed_touchesOnly_grey : ∃ stego,
    LsbSequential.embed greyCover [0xA5] plainParams = .ok stego
      ∧ (changedSamples greyCover stego).length ≤ 40 := by
  obtain ⟨_, -, -, -, hcount⟩ := embed_touchesOnly (F := ℚ) (fun _ _ => Vector.replicate 32 0)
    .lsbSequential greyCover _ [0xA5] plainParams (by decide) greyCover_embed
  exact ⟨_, greyCover_embed, hcount⟩

end Stegosafe.Proof
