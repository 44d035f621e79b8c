import Stegosafe.Proof.RoundTrip

/-!
# Capacity

`capacity` divides the number of usable samples by eight and takes off the four
bytes of the length prefix; `embed` compares the bits of the frame with the length
of its position list. Both count the same samples, so they agree, with one
exception: the subtraction saturates, and a cover without room for the prefix
reports capacity zero but refuses even the empty payload.
-/

namespace Stegosafe.Proof

open Stegosafe Checked Outcome

/-! ## How many samples there are -/

/-- The samples a technique may use on an image. -/
def usableSamples (id : TechniqueId) (img : RgbImage) (params : EmbedParams) : Nat :=
  match id with
  | .lsbRandomHmac => img.width * img.height * 3
  | .lsbSequential | .edgeAdaptiveLsb => img.width * img.height * params.channels.activeCount

/-- A mask only leaves samples out. -/
theorem usableSamples_le (id : TechniqueId) (img : RgbImage) (params : EmbedParams) :
    usableSamples id img params ≤ img.raw.length := by
  rw [img.raw_length]
  cases id with
  | lsbRandomHmac => exact Nat.le_refl _
  | lsbSequential => exact Nat.mul_le_mul_left _ params.channels.activeCount_le
  | edgeAdaptiveLsb => exact Nat.mul_le_mul_left _ params.channels.activeCount_le

theorem pixelPositions_length (channels : ChannelMask) (px : Nat) :
    (EdgeAdaptiveLsb.pixelPositions channels px).length = channels.activeCount := by
  obtain ⟨r, g, b⟩ := channels
  rw [EdgeAdaptiveLsb.pixelPositions, List.length_map]
  cases r <;> cases g <;> cases b <;> rfl

/-- The filter of the sequential technique keeps every active channel of every pixel. -/
theorem sequentialOrder_length (n : Nat) (params : EmbedParams) :
    (sequentialOrder (n * 3) params).length = n * params.channels.activeCount := by
  rw [← (pixels_flatMap_perm n params).length_eq, List.length_flatMap]
  simp [pixelPositions_length]

section Techniques

variable {F : Type} [Scalar F] {hmac : Hmac}

theorem positionList_length {id : TechniqueId} {img : RgbImage} {params : EmbedParams}
    {ps : List Nat} (h : positionList F hmac id img params = .ok ps) :
    ps.length = usableSamples id img params := by
  cases id with
  | lsbSequential =>
    rw [positionList_sequential] at h
    cases h
    rw [img.raw_length, sequentialOrder_length, usableSamples]
  | lsbRandomHmac =>
    rw [positionList_random] at h
    cases h
    rw [keyedOrder_length, img.raw_length, usableSamples]
  | edgeAdaptiveLsb =>
    obtain ⟨-, rfl⟩ := positionList_edge_ok F hmac h
    rw [(edgeOrder_perm _ _ _ _).length_eq, sequentialOrder_length, usableSamples]

/-- What `capacity` computes, on the dimensions of any image. -/
theorem capacity_eq (id : TechniqueId) (img : RgbImage) (params : EmbedParams) :
    (StegoEngine.techniqueOf F hmac id).capacity img.width img.height params
      = .ok (usableSamples id img params / 8 - 4) := by
  obtain ⟨h1, h2⟩ := sides_ok img
  cases id with
  | lsbSequential =>
    change LsbSequential.capacity _ _ _ = _
    rw [LsbSequential.capacity, LsbSequential.positions, h1, ok_bind, h2, ok_bind]
    change (.ok ((sequentialOrder img.raw.length params).length / 8 - 4) : Outcome _ _) = _
    rw [img.raw_length, sequentialOrder_length, usableSamples]
  | lsbRandomHmac =>
    change LsbRandomHmac.capacity _ _ params = _
    rw [LsbRandomHmac.capacity, h1, ok_bind, h2, ok_bind, img.raw_length, usableSamples]
  | edgeAdaptiveLsb =>
    have hactive : img.width * img.height * params.channels.activeCount < 2 ^ 64 := by
      have hle := usableSamples_le .edgeAdaptiveLsb img params
      have hraw := img.raw_lt
      rw [usableSamples] at hle
      omega
    change EdgeAdaptiveLsb.capacity _ _ _ = _
    rw [EdgeAdaptiveLsb.capacity, h1, ok_bind, mul_of_lt hactive, ok_bind, usableSamples]

/-- **Embedding succeeds exactly when the frame's bits have a sample each.** -/
theorem technique_embed_fits {id : TechniqueId} {cover : RgbImage} {payload : Bytes}
    {params : EmbedParams} (hp : (planeOf id params).toNat < 8)
    (hsafe : id = .edgeAdaptiveLsb → EdgeSafe cover.width cover.height) :
    (∃ stego, (StegoEngine.techniqueOf F hmac id).embed cover payload params = .ok stego) ↔
      8 * (payload.length + 4) ≤ usableSamples id cover params := by
  obtain ⟨c, hps⟩ : ∃ c : Carrier cover.raw.length,
      positionList F hmac id cover params = .ok c.order := positionList_ok hsafe params
  have hlen := positionList_length hps
  constructor
  · intro h
    obtain ⟨stego, h⟩ := h
    obtain ⟨c', hps', -, hfits, -⟩ := (technique_embed_eq_ok hp).mp h
    rwa [← positionList_length hps']
  · intro hfits
    -- no more bits than the buffer has bytes, so their number fits its word
    have hroom := usableSamples_le id cover params
    have hraw := cover.raw_lt
    exact ⟨_, (technique_embed_eq_ok hp).mpr ⟨c, hps, by omega, by omega, rfl⟩⟩

/-- Otherwise it refuses the payload, unless the frame's bits leave their word. -/
theorem technique_embed_tooLarge {id : TechniqueId} {cover : RgbImage} {payload : Bytes}
    {params : EmbedParams} (hsafe : id = .edgeAdaptiveLsb → EdgeSafe cover.width cover.height)
    (hn : (payload.length + 4) * 8 < 2 ^ 64)
    (hlarge : usableSamples id cover params < 8 * (payload.length + 4)) :
    (StegoEngine.techniqueOf F hmac id).embed cover payload params = fail .payloadTooLarge := by
  by_cases hid : id = .lsbRandomHmac
  · subst hid
    rw [usableSamples, ← cover.raw_length] at hlarge
    change LsbRandomHmac.embed hmac cover payload params = _
    rw [random_embed_eq hn, if_neg (by omega)]
  · obtain ⟨c, hps⟩ : ∃ c : Carrier cover.raw.length,
        positionList F hmac id cover params = .ok c.order := positionList_ok hsafe params
    have hlen := positionList_length hps
    rw [masked_embed_eq hid, hps, ok_bind, embedAlong, framePayload_length, mul_of_lt hn, ok_bind,
      if_pos (by omega)]

end Techniques

/--
**Capacity is what embedding accepts**, on every cover with room for the prefix.

Whatever exceeds it is refused as too large.
-/
theorem capacity_exact {F : Type} [Scalar F] (hmac : Hmac) (id : TechniqueId) (cover : RgbImage)
    (payload : Bytes) (params : EmbedParams) (hwidth : 1 ≤ cover.width)
    (hheight : 1 ≤ cover.height) (harea : cover.width * cover.height < 2 ^ 31)
    (hplane : params.bitPlane ≤ 7) :
    ∃ cap, (StegoEngine.techniqueOf F hmac id).capacity cover.width cover.height params = .ok cap
      ∧ ((∃ stego, (StegoEngine.techniqueOf F hmac id).embed cover payload params = .ok stego) ↔
          payload.length ≤ cap ∧ 32 ≤ usableSamples id cover params)
      ∧ ((payload.length + 4) * 8 < 2 ^ 64 →
          ¬ (payload.length ≤ cap ∧ 32 ≤ usableSamples id cover params) →
          (StegoEngine.techniqueOf F hmac id).embed cover payload params
            = .error (.err .payloadTooLarge)) := by
  have hsafe : id = .edgeAdaptiveLsb → EdgeSafe cover.width cover.height :=
    fun _ => edgeSafe_of_lt hwidth hheight harea
  -- dividing by eight and taking four off loses nothing, once there are 32 samples
  have hfits : 8 * (payload.length + 4) ≤ usableSamples id cover params ↔
      payload.length ≤ usableSamples id cover params / 8 - 4
        ∧ 32 ≤ usableSamples id cover params := by omega
  refine ⟨_, capacity_eq id cover params, ?_, fun hn hlarge => ?_⟩
  · rw [← hfits]
    exact technique_embed_fits (planeOf_lt hplane) hsafe
  · rw [← hfits] at hlarge
    exact technique_embed_tooLarge hsafe hn (by omega)

theorem capacity_exact_grey : ∃ cap,
    (StegoEngine.techniqueOf ℚ (fun _ _ => Vector.replicate 32 0) .edgeAdaptiveLsb).capacity 5 3
        plainParams = .ok cap
      ∧ ((∃ stego, (StegoEngine.techniqueOf ℚ (fun _ _ => Vector.replicate 32 0)
            .edgeAdaptiveLsb).embed greyCover [0xA5] plainParams = .ok stego) ↔
          1 ≤ cap ∧ 32 ≤ usableSamples .edgeAdaptiveLsb greyCover plainParams) := by
  obtain ⟨cap, hcap, hok, -⟩ := capacity_exact (F := ℚ) (fun _ _ => Vector.replicate 32 0)
    .edgeAdaptiveLsb greyCover [0xA5] plainParams (by decide) (by decide) (by decide) (by decide)
  exact ⟨cap, hcap, hok⟩

/-- One pixel: no room for the prefix, but a capacity that the empty payload does not exceed. -/
def dotCover : RgbImage where
  width := 1
  height := 1
  raw := [0, 0, 0]
  width_lt := Nat.one_lt_two_pow (by omega)
  height_lt := Nat.one_lt_two_pow (by omega)
  raw_length := rfl
  raw_lt := Nat.lt_of_le_of_lt (Nat.le_refl 3) (by omega)

theorem capacity_refuses_empty :
    LsbSequential.capacity dotCover.width dotCover.height plainParams = .ok 0
      ∧ LsbSequential.embed dotCover [] plainParams = .error (.err .payloadTooLarge) := by
  decide +kernel

end Stegosafe.Proof
