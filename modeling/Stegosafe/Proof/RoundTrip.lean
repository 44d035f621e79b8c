import Stegosafe.Proof.Positions

/-!
# Hiding and finding again

The sequential and the keyed technique order their samples by the image's
dimensions alone, and hiding leaves these as they are. So the extractor walks the
embedder's carrier, along which the frame is held: it finds the payload. A frame
of another length cannot be held there as well, because the first four bytes of
two frames held at once agree.

The other direction needs no such independence. Whatever an extractor found, on
an image nobody ever embedded into, hiding it again writes what is already there,
for all three techniques.
-/

namespace Stegosafe.Proof

open Stegosafe Checked Outcome

section Techniques

variable {F : Type} [Scalar F] {hmac : Hmac}

/-- Two frames held at once are frames of payloads of one length. -/
theorem frame_length_unique {size p : Nat} {c : Carrier size} {raw a b : Bytes}
    (ha : a.length < 2 ^ 32) (hb : b.length < 2 ^ 32) (hca : c.Holds p raw (framePayload a))
    (hcb : c.Holds p raw (framePayload b)) : a.length = b.length := by
  refine framePayload_take_injective ha hb ?_
  -- the shorter frame is a prefix of the longer, and both are at least four bytes long
  rcases Nat.le_total a.length b.length with hle | hle
  · have hpre := Carrier.holds_prefix hca hcb (by simpa using hle)
    rw [hpre, List.take_take, Nat.min_eq_left (by simp)]
  · have hpre := Carrier.holds_prefix hcb hca (by simpa using hle)
    rw [hpre, List.take_take, Nat.min_eq_left (by simp)]

/-- Apart from the edge-adaptive technique, the list depends on the dimensions only. -/
theorem positionList_withRaw {id : TechniqueId} (hid : id ≠ .edgeAdaptiveLsb) (img : RgbImage)
    (raw : Bytes) (h : raw.length = img.raw.length) (params : EmbedParams) :
    positionList F hmac id (img.withRaw raw h) params = positionList F hmac id img params := by
  cases id with
  | lsbSequential => rfl
  | lsbRandomHmac => rfl
  | edgeAdaptiveLsb => exact absurd rfl hid

/-- What embedding leaves on the stego image: the frame, held along the extractor's own list. -/
theorem technique_embed_holds {id : TechniqueId} (hid : id ≠ .edgeAdaptiveLsb)
    {cover stego : RgbImage} {payload : Bytes} {params : EmbedParams}
    (hp : (planeOf id params).toNat < 8)
    (h : (StegoEngine.techniqueOf F hmac id).embed cover payload params = .ok stego) :
    ∃ c : Carrier stego.raw.length, positionList F hmac id stego params = .ok c.order
      ∧ c.Holds (planeOf id params).toNat stego.raw (framePayload payload) := by
  obtain ⟨c, hps, -, hfits, rfl⟩ := (technique_embed_eq_ok hp).mp h
  have hlen := c.hide_length (planeOf id params).toNat (framePayload payload) cover.raw
  -- the extractor's list is the embedder's, because the dimensions are the cover's
  refine ⟨⟨c.order, c.nodup, fun i hi => hlen.symm ▸ c.inside i hi⟩, ?_, ?_⟩
  · rw [positionList_withRaw hid, hps]
  · have hholds : c.Holds (planeOf id params).toNat
        (c.hide (planeOf id params).toNat (framePayload payload) cover.raw)
        (framePayload payload) :=
      Carrier.holds_hide hp rfl (by rwa [framePayload_length])
    exact hholds

/-- **What was embedded is extracted.** -/
theorem technique_roundTrip {id : TechniqueId} (hid : id ≠ .edgeAdaptiveLsb)
    {cover stego : RgbImage} {payload : Bytes} {params : EmbedParams}
    (hp : (planeOf id params).toNat < 8) (hlen : payload.length < 2 ^ 32)
    (h : (StegoEngine.techniqueOf F hmac id).embed cover payload params = .ok stego) :
    (StegoEngine.techniqueOf F hmac id).extract stego payload.length params = .ok payload := by
  obtain ⟨c, hps, hholds⟩ := technique_embed_holds hid hp h
  exact (technique_extract_eq_ok hp).mpr ⟨c, hps, rfl, hlen, hholds⟩

/-- **No other length is**: extraction returns an error there. -/
theorem technique_length_bound {id : TechniqueId} (hid : id ≠ .edgeAdaptiveLsb)
    {cover stego : RgbImage} {payload : Bytes} {params : EmbedParams}
    (hp : (planeOf id params).toNat < 8) (hlen : payload.length < 2 ^ 32)
    (h : (StegoEngine.techniqueOf F hmac id).embed cover payload params = .ok stego)
    {n : Nat} (hne : n ≠ payload.length) (hn : (n + 4) * 8 < 2 ^ 64) :
    ∃ e, (StegoEngine.techniqueOf F hmac id).extract stego n params = .error (.err e) := by
  obtain ⟨c, hps, hholds⟩ := technique_embed_holds hid hp h
  cases hres : (StegoEngine.techniqueOf F hmac id).extract stego n params with
  | ok q =>
    -- a payload of another length would be a second frame held along the same carrier
    obtain ⟨c', hps', rfl, hq, hholds'⟩ := (technique_extract_eq_ok hp).mp hres
    obtain rfl : c = c' := Carrier.ext (Except.ok.inj (hps.symm.trans hps'))
    exact absurd (frame_length_unique hq hlen hholds' hholds) hne
  | error fault =>
    cases fault with
    | err e => exact ⟨e, rfl⟩
    | panic p =>
      exact absurd hres (technique_extract_ne_panic hp hn (fun he => absurd he hid) p)

end Techniques

/--
**The sequential and the keyed technique round-trip, and bind the length.**

The sequential one for every mask and every bit plane of a byte; the keyed one for
every key and every HMAC, ties or not.
-/
theorem sequential_keyed_roundTrip (hmac : Hmac) (technique : EmbeddingTechnique)
    (cover stego : RgbImage) (payload : Bytes) (params : EmbedParams)
    (htech : technique = LsbSequential.technique ∧ params.bitPlane ≤ 7
      ∨ technique = LsbRandomHmac.technique hmac)
    (hlen : payload.length < 2 ^ 32)
    (hembed : technique.embed cover payload params = .ok stego) :
    technique.extract stego payload.length params = .ok payload
      ∧ ∀ n, n ≠ payload.length → (n + 4) * 8 < 2 ^ 64 →
          ∃ e, technique.extract stego n params = .error (.err e) := by
  -- neither technique looks at magnitudes, so any arithmetic will do
  obtain ⟨id, hid, hp, rfl⟩ : ∃ id, id ≠ .edgeAdaptiveLsb ∧ (planeOf id params).toNat < 8
      ∧ technique = StegoEngine.techniqueOf ℚ hmac id := by
    rcases htech with ⟨rfl, hplane⟩ | rfl
    · exact ⟨.lsbSequential, by decide, Nat.lt_succ_of_le (UInt8.le_iff_toNat_le.mp hplane), rfl⟩
    · exact ⟨.lsbRandomHmac, by decide, Nat.zero_lt_succ 7, rfl⟩
  exact ⟨technique_roundTrip hid hp hlen hembed,
    fun n hne hn => technique_length_bound hid hp hlen hembed hne hn⟩

/-- The sequential technique writes every frame that fits. -/
theorem sequential_embed_ok (F : Type) [Scalar F] (hmac : Hmac) (cover : RgbImage)
    (payload : Bytes) (params : EmbedParams) (hplane : params.bitPlane.toNat < 8)
    (hn : (payload.length + 4) * 8 < 2 ^ 64)
    (hfits : 8 * (payload.length + 4) ≤ (sequentialOrder cover.raw.length params).length) :
    (StegoEngine.techniqueOf F hmac .lsbSequential).embed cover payload params
      = .ok (cover.withRaw
          ((sequentialCarrier cover.raw.length params).hide params.bitPlane.toNat
            (framePayload payload) cover.raw)
          (Carrier.hide_length _ _ _ _)) := by
  have hp : (planeOf .lsbSequential params).toNat < 8 := hplane
  exact (technique_embed_eq_ok hp).mpr
    ⟨sequentialCarrier _ params, positionList_sequential .., hn, hfits, rfl⟩

/-- A grey picture of five by three pixels. -/
def greyCover : RgbImage where
  width := 5
  height := 3
  raw := List.replicate 45 128
  width_lt := by decide
  height_lt := by decide
  raw_length := by decide
  raw_lt := by decide

/-- Five columns of three pixels, rising ever more steeply. -/
def rampCover : RgbImage where
  width := 5
  height := 3
  raw := (List.replicate 3 [0, 0, 0, 0, 0, 0, 40, 40, 40, 160, 160, 160, 255, 255, 255]).flatten
  width_lt := by decide
  height_lt := by decide
  raw_length := by decide
  raw_lt := by decide

/-- Parameters with every channel active, in the lowest plane. -/
def plainParams : EmbedParams := .legacy (Vector.replicate 32 0)

/-- The picture with one byte hidden in it. -/
def greyStego : RgbImage :=
  greyCover.withRaw ((sequentialCarrier 45 plainParams).hide 0 (framePayload [0xA5]) greyCover.raw)
    (Carrier.hide_length _ _ _ _)

theorem greyCover_embed : LsbSequential.embed greyCover [0xA5] plainParams = .ok greyStego := by
  decide +kernel

theorem greyStego_extract : LsbSequential.extract greyStego 1 plainParams = .ok [0xA5] := by
  decide +kernel

theorem sequential_keyed_roundTrip_grey : ∃ stego,
    LsbSequential.embed greyCover [0xA5] plainParams = .ok stego
      ∧ LsbSequential.extract stego 1 plainParams = .ok [0xA5] :=
  ⟨_, greyCover_embed, (sequential_keyed_roundTrip (fun _ _ => Vector.replicate 32 0)
    LsbSequential.technique _ _ _ _ (Or.inl ⟨rfl, by decide⟩) (by decide) greyCover_embed).1⟩

/--
**Encode undoes decode.**

Whatever image a payload is extracted from, embedding it again gives back that
image, bit for bit.
-/
theorem embed_extracted {F : Type} [Scalar F] (hmac : Hmac) (id : TechniqueId) (img : RgbImage)
    (n : Nat) (params : EmbedParams) (payload : Bytes) (hplane : params.bitPlane ≤ 7)
    (hextract : (StegoEngine.techniqueOf F hmac id).extract img n params = .ok payload) :
    payload.length = n
      ∧ (StegoEngine.techniqueOf F hmac id).embed img payload params = .ok img := by
  have hp : (planeOf id params).toNat < 8 := planeOf_lt hplane
  obtain ⟨c, hps, hpn, hn, hholds⟩ := (technique_extract_eq_ok hp).mp hextract
  refine ⟨hpn, (technique_embed_eq_ok hp).mpr ⟨c, hps, by omega, ?_, ?_⟩⟩
  · simpa using hholds.1
  · exact RgbImage.ext rfl rfl (Carrier.hide_of_holds hp hholds).symm

theorem embed_extracted_grey : greyStego.raw ≠ greyCover.raw
    ∧ LsbSequential.embed greyStego [0xA5] plainParams = .ok greyStego := by
  obtain ⟨-, hagain⟩ := embed_extracted (F := ℚ) (fun _ _ => Vector.replicate 32 0) .lsbSequential
    greyStego 1 plainParams [0xA5] (by decide) greyStego_extract
  exact ⟨by decide +kernel, hagain⟩

/-! ## The engine -/

section Engine

variable {F : Type} [Scalar F] {hmac : Hmac}

/-- **What the engine embeds, and what it reports.** -/
theorem engine_embed_eq_ok {cover stego : DynamicImage} {payload : Bytes}
    {techniqueSeed paramSeed : Key} {result : EmbedResult} :
    (StegoEngine.new F hmac).embed F hmac cover payload techniqueSeed paramSeed
        = .ok (stego, result) ↔
      ∃ density : F, computeEdgeDensity F cover.toRgb8 = .ok density ∧ ∃ img,
        (StegoEngine.techniqueOf F hmac (selectTechnique hmac techniqueSeed density)).embed
            cover.toRgb8 payload (randomizeParams hmac paramSeed) = .ok img
          ∧ stego = .imageRgb8 img
          ∧ result = ⟨(selectTechnique hmac techniqueSeed density).name,
              (randomizeParams hmac paramSeed).toMeta⟩ := by
  simp only [StegoEngine.embed, bind_eq_ok, StegoEngine.new_techniques, okOr_eq_ok,
    Option.some.injEq, exists_eq_left', Except.ok.injEq, Prod.mk.injEq]
  constructor
  · intro h
    obtain ⟨density, hdensity, img, himg, rfl, rfl⟩ := h
    exact ⟨density, hdensity, img, himg, rfl, rfl⟩
  · intro h
    obtain ⟨density, hdensity, img, himg, rfl, rfl⟩ := h
    exact ⟨density, hdensity, img, himg, rfl, rfl⟩

/-- The engine extracts with the technique named. -/
theorem engine_extract_eq (id : TechniqueId) (stego : DynamicImage) (params : EmbedParams)
    (n : Nat) :
    (StegoEngine.new F hmac).extract stego id.name params n
      = (StegoEngine.techniqueOf F hmac id).extract stego.toRgb8 n params := by
  have hid : TechniqueId.fromName id.name = some id := TechniqueId.fromName_eq_some.mpr rfl
  rw [StegoEngine.extract, hid]
  simp only [okOr, ok_bind, StegoEngine.new_techniques]

end Engine

end Stegosafe.Proof
