import Stegosafe.Proof.Density

/-!
# Room for a payload

The engine draws the technique and the parameters from seeds before it looks at the
payload, so whether a payload fits is a matter of the draw: on one channel of the cover
at the worst, on all three at the best, and both ends are reached.
-/

namespace Stegosafe.Proof

open Stegosafe Checked Outcome Text

/-- The engine finds room for a payload in a cover. -/
def HasRoom (F : Type) [Scalar F] (hmac : Hmac) (cover : DynamicImage) (payload : Bytes)
    (techniqueSeed paramSeed : Key) : Prop :=
  ∃ stego result, (StegoEngine.new F hmac).embed F hmac cover payload techniqueSeed paramSeed
    = .ok (stego, result)

section Room

variable {F : Type} [Scalar F] {hmac : Hmac}

/-- Strong edges are pixels. -/
theorem strongEdges_le_area (img : RgbImage) :
    strongEdges F img ≤ img.width * img.height := by
  have hperm := (innerIndices_perm img.width img.height).length_eq
  rw [List.length_map] at hperm
  have hfilter := List.length_filter_le (fun i => decide (Inner img.width img.height i))
    (List.range (img.width * img.height))
  rw [List.length_range] at hfilter
  have hcount := List.countP_le_length (l := innerPixels img.width img.height)
    (p := fun p => Scalar.gt (densityMag (lumOf img : List F) img.width p.1 p.2) 30.0)
  rw [strongEdges]
  omega

/-- Below 2^31 pixels the engine always has a density to select by. -/
theorem density_exists {img : RgbImage} (hw : 1 ≤ img.width) (hh : 1 ≤ img.height)
    (harea : img.width * img.height < 2 ^ 31) :
    ∃ density : F, computeEdgeDensity F img = .ok density :=
  computeEdgeDensity_ok ⟨by omega, hh, Or.inl hw⟩
    (Nat.lt_of_le_of_lt (strongEdges_le_area img) harea)

/-- The samples the engine may use, once it has drawn the technique and the parameters. -/
def drawnSamples (hmac : Hmac) (cover : RgbImage) (density : F) (techniqueSeed paramSeed : Key) :
    Nat :=
  usableSamples (selectTechnique hmac techniqueSeed density) cover (randomizeParams hmac paramSeed)

/-- **The engine embeds exactly what fits the technique and the parameters it drew.** -/
theorem hasRoom_iff {cover : DynamicImage} {payload : Bytes} {techniqueSeed paramSeed : Key}
    {density : F} (hsafe : EdgeSafe cover.toRgb8.width cover.toRgb8.height)
    (hdensity : computeEdgeDensity F cover.toRgb8 = .ok density) :
    HasRoom F hmac cover payload techniqueSeed paramSeed
      ↔ 8 * (payload.length + 4)
          ≤ drawnSamples hmac cover.toRgb8 density techniqueSeed paramSeed := by
  have hp : (planeOf (selectTechnique hmac techniqueSeed density)
      (randomizeParams hmac paramSeed)).toNat < 8 := planeOf_lt
    (UInt8.le_trans (randomizeParams_bitPlane hmac paramSeed) (show (1 : UInt8) ≤ 7 by decide))
  have hfits : (∃ stego, (StegoEngine.techniqueOf F hmac
      (selectTechnique hmac techniqueSeed density)).embed cover.toRgb8 payload
        (randomizeParams hmac paramSeed) = .ok stego) ↔ _ :=
    technique_embed_fits hp fun _ => hsafe
  rw [drawnSamples, ← hfits]
  constructor
  · intro h
    obtain ⟨stego, result, h⟩ := h
    obtain ⟨density', hdensity', img, himg, -, -⟩ := engine_embed_eq_ok.mp h
    cases hdensity.symm.trans hdensity'
    exact ⟨img, himg⟩
  · intro h
    obtain ⟨img, himg⟩ := h
    exact ⟨_, _, engine_embed_eq_ok.mpr ⟨density, hdensity, img, himg, rfl, rfl⟩⟩

/-- At least one channel is drawn, and at most three. -/
theorem drawnSamples_bounds (hmac : Hmac) (cover : RgbImage) (density : F)
    (techniqueSeed paramSeed : Key) :
    cover.width * cover.height ≤ drawnSamples hmac cover density techniqueSeed paramSeed
      ∧ drawnSamples hmac cover density techniqueSeed paramSeed
          ≤ cover.width * cover.height * 3 := by
  have hactive := randomizeParams_active hmac paramSeed
  have hthree := ChannelMask.activeCount_le (randomizeParams hmac paramSeed).channels
  constructor
  · unfold drawnSamples usableSamples
    split
    · omega
    · exact Nat.le_mul_of_pos_right _ (by omega)
    · exact Nat.le_mul_of_pos_right _ (by omega)
  · unfold drawnSamples usableSamples
    split
    · exact Nat.le_refl _
    · exact Nat.mul_le_mul_left _ hthree
    · exact Nat.mul_le_mul_left _ hthree

/-- The first two candidates are always there. -/
theorem selectTechnique_constant (b : UInt8) (hb : b < 2) (density : F) (techniqueSeed : Key) :
    selectTechnique (fun _ _ => Vector.replicate 32 b) techniqueSeed density
      = if b = 0 then .lsbSequential else .lsbRandomHmac := by
  have hlen : b.toNat < (candidates density).length := by
    have hnat := UInt8.lt_iff_toNat_lt.mp hb
    rw [candidates, List.length_append]
    exact Nat.lt_of_lt_of_le hnat (Nat.le_add_right 2 _)
  have hselector : (Vector.replicate 32 b)[0].toNat % (candidates density).length = b.toNat := by
    rw [Vector.getElem_replicate]
    exact Nat.mod_eq_of_lt hlen
  simp only [selectTechnique, hselector]
  have htwo : b = 0 ∨ b = 1 := by
    have hnat := UInt8.lt_iff_toNat_lt.mp hb
    change b.toNat < 2 at hnat
    rw [← UInt8.toNat_inj, ← UInt8.toNat_inj]
    change b.toNat = 0 ∨ b.toNat = 1
    omega
  rcases htwo with rfl | rfl
  · rfl
  · rfl

/-- Hashes of zeros draw the sequential technique on the red channel. -/
theorem drawnSamples_worst (cover : RgbImage) (density : F) (techniqueSeed paramSeed : Key) :
    drawnSamples (fun _ _ => Vector.replicate 32 0) cover density techniqueSeed paramSeed
      = cover.width * cover.height := by
  rw [drawnSamples, selectTechnique_constant 0 (by decide)]
  exact Nat.mul_one _

/-- Hashes of ones draw the keyed technique, which uses every channel. -/
theorem drawnSamples_best (cover : RgbImage) (density : F) (techniqueSeed paramSeed : Key) :
    drawnSamples (fun _ _ => Vector.replicate 32 1) cover density techniqueSeed paramSeed
      = cover.width * cover.height * 3 := by
  rw [drawnSamples, selectTechnique_constant 1 (by decide)]
  rfl

end Room

/--
**How much the engine takes.**

On a cover with pixels, and fewer than 2^31 of them, a payload is embedded whatever HMAC
and the seeds draw exactly if its frame fits one channel, and for some draw exactly if it
fits all three. In a draw for which it does not fit, the engine says that it is too large.
-/
theorem engine_room (F : Type) [Scalar F] (cover : DynamicImage) (payload : Bytes)
    (hw : 1 ≤ cover.toRgb8.width) (hh : 1 ≤ cover.toRgb8.height)
    (harea : cover.toRgb8.width * cover.toRgb8.height < 2 ^ 31) :
    ((∀ hmac techniqueSeed paramSeed, HasRoom F hmac cover payload techniqueSeed paramSeed)
        ↔ 8 * (payload.length + 4) ≤ cover.toRgb8.width * cover.toRgb8.height)
      ∧ ((∃ hmac techniqueSeed paramSeed, HasRoom F hmac cover payload techniqueSeed paramSeed)
          ↔ 8 * (payload.length + 4) ≤ cover.toRgb8.width * cover.toRgb8.height * 3)
      ∧ ∀ hmac techniqueSeed paramSeed,
          ¬ HasRoom F hmac cover payload techniqueSeed paramSeed →
          (payload.length + 4) * 8 < 2 ^ 64 →
          (StegoEngine.new F hmac).embed F hmac cover payload techniqueSeed paramSeed
            = .error (.err .payloadTooLarge) := by
  obtain ⟨density, hdensity⟩ := density_exists (F := F) hw hh harea
  have hsafe : EdgeSafe cover.toRgb8.width cover.toRgb8.height :=
    ⟨by omega, hh, Or.inl hw⟩
  refine ⟨?_, ?_, ?_⟩
  · constructor
    · intro h
      have hworst := (hasRoom_iff hsafe hdensity).mp
        (h (fun _ _ => Vector.replicate 32 0) (Vector.replicate 32 0) (Vector.replicate 32 0))
      rwa [drawnSamples_worst] at hworst
    · intro h hmac techniqueSeed paramSeed
      obtain ⟨hlow, -⟩ :=
        drawnSamples_bounds hmac cover.toRgb8 density techniqueSeed paramSeed
      exact (hasRoom_iff hsafe hdensity).mpr (Nat.le_trans h hlow)
  · constructor
    · intro h
      obtain ⟨hmac, techniqueSeed, paramSeed, h⟩ := h
      obtain ⟨-, hhigh⟩ :=
        drawnSamples_bounds hmac cover.toRgb8 density techniqueSeed paramSeed
      exact Nat.le_trans ((hasRoom_iff hsafe hdensity).mp h) hhigh
    · intro h
      refine ⟨fun _ _ => Vector.replicate 32 1, Vector.replicate 32 0, Vector.replicate 32 0, ?_⟩
      rw [hasRoom_iff hsafe hdensity, drawnSamples_best]
      exact h
  · intro hmac techniqueSeed paramSeed hroom hn
    rw [hasRoom_iff hsafe hdensity, drawnSamples] at hroom
    have hlarge : (StegoEngine.techniqueOf F hmac
        (selectTechnique hmac techniqueSeed density)).embed cover.toRgb8 payload
          (randomizeParams hmac paramSeed) = fail .payloadTooLarge :=
      technique_embed_tooLarge (fun _ => hsafe) hn (Nat.lt_of_not_le hroom)
    rw [StegoEngine.embed]
    dsimp only
    rw [hdensity, ok_bind, StegoEngine.new_techniques, okOr, ok_bind, hlarge]
    rfl

/-- Fifteen pixels have room for nothing at the worst, and for one byte at the best. -/
theorem engine_room_grey :
    ¬ (∀ hmac techniqueSeed paramSeed,
        HasRoom ℚ hmac (.imageRgb8 greyCover) [0xA5] techniqueSeed paramSeed)
      ∧ ∃ hmac techniqueSeed paramSeed,
          HasRoom ℚ hmac (.imageRgb8 greyCover) [0xA5] techniqueSeed paramSeed := by
  obtain ⟨hworst, hbest, -⟩ := engine_room ℚ (.imageRgb8 greyCover) [0xA5] (by decide) (by decide)
    (by decide)
  exact ⟨fun h => absurd (hworst.mp h) (by decide), hbest.mpr (by decide)⟩

end Stegosafe.Proof
