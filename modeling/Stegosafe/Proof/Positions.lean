import Mathlib.Data.List.Nodup
import Mathlib.Data.List.Pairwise
import Stegosafe.Proof.Carrier

/-!
# Every position list is a carrier

`positionList` is the list of samples a technique visits on an image, in visiting
order: ascending for the sequential technique, by keyed score for the random one,
by edge magnitude for the edge-adaptive one. Whatever the parameters and the key,
it has no duplicates and stays inside the buffer, so it is a `Carrier`.

With that the three techniques are one: `technique_embed_eq_ok` and
`technique_extract_eq_ok` describe all of them by hiding and finding a frame
along the list.
-/

namespace Stegosafe.Proof

open Stegosafe Checked Outcome

/-! ## Cutting a carrier -/

namespace Carrier

variable {size : Nat}

/-- The first `k` samples of a carrier. -/
def take (c : Carrier size) (k : Nat) : Carrier size where
  order := c.order.take k
  nodup := c.nodup.sublist (List.take_sublist _ _)
  inside i hi := c.inside i (List.mem_of_mem_take hi)

/-- A message that fits the cut is hidden the same way without it. -/
theorem hide_take {c : Carrier size} {k p : Nat} {msg raw : Bytes} (h : 8 * msg.length ≤ k) :
    (c.take k).hide p msg raw = c.hide p msg raw := by
  have hzip : (Bits.stream msg).zip (c.order.take k) = (Bits.stream msg).zip c.order := by
    rw [List.zip_eq_zip_take_min, @List.zip_eq_zip_take_min _ _ _ c.order, List.take_take]
    simp only [List.length_take, Bits.stream_length]
    congr 2 <;> omega
  rw [hide, hide, take, hzip]

theorem holds_take {c : Carrier size} {k p : Nat} {msg raw : Bytes} (h : 8 * msg.length ≤ k) :
    (c.take k).Holds p raw msg ↔ c.Holds p raw msg := by
  rw [Holds, Holds, take, List.take_take, Nat.min_eq_left h, List.length_take]
  constructor
  · intro hcut
    exact ⟨by omega, hcut.2⟩
  · intro hwhole
    exact ⟨by omega, hwhole.2⟩

end Carrier

/-! ## The lists -/

section Lists

variable {F : Type} [Scalar F]

/-- The edge-adaptive order over given luminances. -/
def edgeOrder (w h : Nat) (lum : List F) (params : EmbedParams) : List Nat :=
  (Sorting.sortBy EdgeAdaptiveLsb.comparePriority (sobelMap w h lum).zipIdx).flatMap fun mp =>
    EdgeAdaptiveLsb.pixelPositions params.channels mp.2

/-- The order over a given edge map. -/
def priorityOrder (edgeMap : List F) (params : EmbedParams) : List Nat :=
  (Sorting.sortBy EdgeAdaptiveLsb.comparePriority edgeMap.zipIdx).flatMap fun mp =>
    EdgeAdaptiveLsb.pixelPositions params.channels mp.2

/-- The keyed order over `channelCount` samples. -/
def keyedOrder (hmac : Hmac) (key : Key) (channelCount : Nat) : List Nat :=
  (Sorting.sortBy LsbRandomHmac.compareScored (LsbRandomHmac.scored hmac key channelCount)).map
    Prod.snd

/-- The ascending order over the samples of the active channels. -/
def sequentialOrder (channelCount : Nat) (params : EmbedParams) : List Nat :=
  (List.range channelCount).filter fun i => params.channels.includesChannel (i % 3)

variable (F) (hmac : Hmac)

/-- The samples a technique visits on an image, in the order it visits them. -/
def positionList (id : TechniqueId) (img : RgbImage) (params : EmbedParams) :
    Outcome StegoError (List Nat) :=
  match id with
  | .lsbSequential => LsbSequential.positions img.width img.height params
  | .lsbRandomHmac => do
      let area ← mul 64 img.width img.height
      let channelCount ← mul 64 area 3
      LsbRandomHmac.placementPositions hmac params.placementKey channelCount channelCount
  | .edgeAdaptiveLsb => do
      let edgeMap : List F ← computeEdgeMap img
      EdgeAdaptiveLsb.priorityPositions edgeMap img.width img.height params

/-- The bit plane a technique works in. -/
def planeOf (id : TechniqueId) (params : EmbedParams) : UInt8 :=
  match id with
  | .lsbRandomHmac => 0
  | .lsbSequential | .edgeAdaptiveLsb => params.bitPlane

theorem planeOf_lt {id : TechniqueId} {params : EmbedParams} (h : params.bitPlane ≤ 7) :
    (planeOf id params).toNat < 8 := by
  have hlt := Nat.lt_succ_of_le (UInt8.le_iff_toNat_le.mp h)
  cases id with
  | lsbRandomHmac => exact Nat.zero_lt_succ 7
  | lsbSequential => exact hlt
  | edgeAdaptiveLsb => exact hlt

/-- The products of an image's sides never overflow. -/
theorem sides_ok (img : RgbImage) :
    (mul 64 img.width img.height : Outcome StegoError Nat) = .ok (img.width * img.height)
      ∧ (mul 64 (img.width * img.height) 3 : Outcome StegoError Nat) = .ok img.raw.length := by
  have harea := img.area_lt
  have hraw := img.raw_lt
  have hlen := img.raw_length
  refine ⟨mul_of_lt (by omega), ?_⟩
  rw [mul_of_lt (by omega), hlen]

theorem positionList_sequential (img : RgbImage) (params : EmbedParams) :
    positionList F hmac .lsbSequential img params
      = .ok (sequentialOrder img.raw.length params) := by
  obtain ⟨h1, h2⟩ := sides_ok img
  simp only [positionList, LsbSequential.positions, h1, h2, ok_bind, sequentialOrder]

theorem placementPositions_eq {key : Key} {channelCount needed : Nat}
    (h : needed ≤ channelCount) :
    LsbRandomHmac.placementPositions hmac key channelCount needed
      = .ok ((keyedOrder hmac key channelCount).take needed) := by
  rw [LsbRandomHmac.placementPositions, if_neg (Nat.not_lt.mpr h), keyedOrder, List.map_take]

@[simp] theorem keyedOrder_length (key : Key) (channelCount : Nat) :
    (keyedOrder hmac key channelCount).length = channelCount := by
  simp [keyedOrder, LsbRandomHmac.scored]

theorem positionList_random (img : RgbImage) (params : EmbedParams) :
    positionList F hmac .lsbRandomHmac img params
      = .ok (keyedOrder hmac params.placementKey img.raw.length) := by
  obtain ⟨h1, h2⟩ := sides_ok img
  simp only [positionList, h1, h2, ok_bind, placementPositions_eq hmac (Nat.le_refl _)]
  rw [List.take_of_length_le (by simp)]

variable {F} in
/-- The casts and the `take` of `priorityPositions` change nothing on a map of fitting size. -/
theorem priorityPositions_of_length {w h : Nat} (harea : w * h < 2 ^ 32) {edgeMap : List F}
    (hlen : edgeMap.length = w * h) (params : EmbedParams) :
    EdgeAdaptiveLsb.priorityPositions edgeMap w h params
      = .ok (priorityOrder edgeMap params) := by
  have hcast : (edgeMap.zipIdx.take (w * h)).map (fun mi => (mi.1, mi.2 % 2 ^ 32))
      = edgeMap.zipIdx := by
    rw [List.take_of_length_le (by simp [hlen])]
    -- a pixel's index is below the area, which fits 32 bits
    refine (List.map_congr_left fun mi hmi => ?_).trans (List.map_id _)
    have hlt := List.snd_lt_of_mem_zipIdx hmi
    rw [hlen, Nat.add_zero (w * h)] at hlt
    rw [Nat.mod_eq_of_lt (by omega)]
    rfl
  have hactive : w * h * params.channels.activeCount < 2 ^ 64 := by
    have := Nat.mul_le_mul_left (w * h) params.channels.activeCount_le
    omega
  rw [EdgeAdaptiveLsb.priorityPositions, mul_of_lt (by omega), ok_bind]
  dsimp only
  rw [hcast, mul_of_lt hactive, ok_bind, priorityOrder]

variable {F} in
theorem priorityPositions_eq {w h : Nat} (hsafe : EdgeSafe w h) (lum : List F)
    (params : EmbedParams) :
    EdgeAdaptiveLsb.priorityPositions (sobelMap w h lum) w h params
      = .ok (edgeOrder w h lum params) :=
  priorityPositions_of_length hsafe.1 (sobelMap_length w h lum) params

theorem positionList_edge {img : RgbImage} (hsafe : EdgeSafe img.width img.height)
    (params : EmbedParams) :
    positionList F hmac .edgeAdaptiveLsb img params
      = .ok (edgeOrder img.width img.height (lumOf img : List F) params) := by
  rw [positionList, computeEdgeMap_eq hsafe, ok_bind, priorityPositions_eq hsafe]

theorem positionList_edge_ok {img : RgbImage} {params : EmbedParams} {ps : List Nat}
    (h : positionList F hmac .edgeAdaptiveLsb img params = .ok ps) :
    EdgeSafe img.width img.height
      ∧ ps = edgeOrder img.width img.height (lumOf img : List F) params := by
  have hok := bind_eq_ok.mp h
  obtain ⟨edgeMap, hmap, -⟩ := hok
  have hsafe := (computeEdgeMap_ok hmap).1
  rw [positionList_edge F hmac hsafe] at h
  cases h
  exact ⟨hsafe, rfl⟩

end Lists

/-! ## No duplicates, nothing out of range -/

theorem mem_sequentialOrder {n i : Nat} {params : EmbedParams} :
    i ∈ sequentialOrder n params ↔ i < n ∧ params.channels.includesChannel (i % 3) := by
  simp [sequentialOrder]

theorem sequentialOrder_nodup (n : Nat) (params : EmbedParams) :
    (sequentialOrder n params).Nodup := List.nodup_range.filter _

/-- The sequential technique's list, as a carrier. -/
def sequentialCarrier (size : Nat) (params : EmbedParams) : Carrier size where
  order := sequentialOrder size params
  nodup := sequentialOrder_nodup size params
  inside _ hi := (mem_sequentialOrder.mp hi).1

/-- The keyed order is a permutation of all samples, whatever the scores are. -/
theorem keyedOrder_perm (hmac : Hmac) (key : Key) (n : Nat) :
    (keyedOrder hmac key n).Perm (List.range n) := by
  have hperm := (Sorting.sortBy_perm LsbRandomHmac.compareScored
    (LsbRandomHmac.scored hmac key n)).map Prod.snd
  have hsnd : (LsbRandomHmac.scored hmac key n).map Prod.snd = List.range n := by
    rw [LsbRandomHmac.scored, List.map_map]
    exact List.map_id _
  rwa [hsnd] at hperm

/-- The keyed technique's list, as a carrier. -/
def keyedCarrier (hmac : Hmac) (key : Key) (size : Nat) : Carrier size where
  order := keyedOrder hmac key size
  nodup := (keyedOrder_perm hmac key size).nodup_iff.mpr List.nodup_range
  inside _ hi := List.mem_range.mp ((keyedOrder_perm hmac key size).mem_iff.mp hi)

theorem mem_pixelPositions {channels : ChannelMask} {px i : Nat} :
    i ∈ EdgeAdaptiveLsb.pixelPositions channels px ↔
      i / 3 = px ∧ channels.includesChannel (i % 3) := by
  simp only [EdgeAdaptiveLsb.pixelPositions, List.mem_map, List.mem_filter, List.mem_range]
  constructor
  · intro h
    obtain ⟨ch, ⟨hch, hact⟩, rfl⟩ := h
    have hdiv : (px * 3 + ch) / 3 = px := by omega
    have hmod : (px * 3 + ch) % 3 = ch := by omega
    exact ⟨hdiv, hmod.symm ▸ hact⟩
  · intro h
    obtain ⟨rfl, hact⟩ := h
    exact ⟨i % 3, ⟨Nat.mod_lt _ (by omega), hact⟩, by omega⟩

theorem pixelPositions_nodup (channels : ChannelMask) (px : Nat) :
    (EdgeAdaptiveLsb.pixelPositions channels px).Nodup :=
  (List.nodup_range.filter _).map fun _ _ h => Nat.add_left_cancel h

section Edges

variable {F : Type} [Scalar F]

/-- The samples of the pixels, in whatever order these come, are those of the sequential list. -/
theorem pixels_flatMap_perm (n : Nat) (params : EmbedParams) :
    ((List.range n).flatMap (EdgeAdaptiveLsb.pixelPositions params.channels)).Perm
      (sequentialOrder (n * 3) params) := by
  -- the samples of different pixels are different, because a sample knows its pixel
  have hnodup : ((List.range n).flatMap
      (EdgeAdaptiveLsb.pixelPositions params.channels)).Nodup := by
    rw [List.nodup_flatMap]
    refine ⟨fun px _ => pixelPositions_nodup _ px, List.nodup_range.imp fun {a b} hne i ha hb => ?_⟩
    exact hne ((mem_pixelPositions.mp ha).1.symm.trans (mem_pixelPositions.mp hb).1)
  refine (List.perm_ext_iff_of_nodup hnodup (sequentialOrder_nodup _ params)).mpr fun i => ?_
  simp only [mem_sequentialOrder, List.mem_flatMap, List.mem_range, mem_pixelPositions]
  constructor
  · intro h
    obtain ⟨px, hpx, rfl, hact⟩ := h
    exact ⟨by omega, hact⟩
  · intro h
    obtain ⟨hi, hact⟩ := h
    exact ⟨i / 3, by omega, rfl, hact⟩

/-- Sorting by magnitude rearranges the sequential list. -/
theorem priorityOrder_perm (edgeMap : List F) (params : EmbedParams) :
    (priorityOrder edgeMap params).Perm (sequentialOrder (edgeMap.length * 3) params) := by
  have hperm := ((Sorting.sortBy_perm EdgeAdaptiveLsb.comparePriority
    edgeMap.zipIdx).map Prod.snd).flatMap_right
      (EdgeAdaptiveLsb.pixelPositions params.channels)
  rw [List.flatMap_map, List.zipIdx_map_snd, ← List.range_eq_range'] at hperm
  exact hperm.trans (pixels_flatMap_perm _ params)

theorem edgeOrder_perm (w h : Nat) (lum : List F) (params : EmbedParams) :
    (edgeOrder w h lum params).Perm (sequentialOrder (w * h * 3) params) := by
  have hperm := priorityOrder_perm (sobelMap w h lum) params
  rwa [sobelMap_length] at hperm

theorem mem_edgeOrder {w h i : Nat} {lum : List F} {params : EmbedParams} :
    i ∈ edgeOrder w h lum params ↔
      i < w * h * 3 ∧ params.channels.includesChannel (i % 3) := by
  rw [(edgeOrder_perm w h lum params).mem_iff, mem_sequentialOrder]

theorem edgeOrder_nodup (w h : Nat) (lum : List F) (params : EmbedParams) :
    (edgeOrder w h lum params).Nodup :=
  (edgeOrder_perm w h lum params).nodup_iff.mpr (sequentialOrder_nodup _ params)

/-- How many samples a list visits does not depend on the picture's content. -/
theorem edgeOrder_length (w h : Nat) (lum lum' : List F) (params : EmbedParams) :
    (edgeOrder w h lum params).length = (edgeOrder w h lum' params).length :=
  ((edgeOrder_perm w h lum params).trans (edgeOrder_perm w h lum' params).symm).length_eq

end Edges

section Techniques

variable {F : Type} [Scalar F] {hmac : Hmac}

/-- **Every position list is a carrier of the image's buffer.** -/
theorem positionList_carrier {id : TechniqueId} {img : RgbImage} {params : EmbedParams}
    {ps : List Nat} (h : positionList F hmac id img params = .ok ps) :
    ∃ c : Carrier img.raw.length, c.order = ps := by
  cases id with
  | lsbSequential =>
    rw [positionList_sequential] at h
    cases h
    exact ⟨sequentialCarrier img.raw.length params, rfl⟩
  | lsbRandomHmac =>
    rw [positionList_random] at h
    cases h
    exact ⟨keyedCarrier hmac params.placementKey img.raw.length, rfl⟩
  | edgeAdaptiveLsb =>
    obtain ⟨hsafe, rfl⟩ := positionList_edge_ok F hmac h
    refine ⟨⟨_, edgeOrder_nodup _ _ _ _, fun i hi => ?_⟩, rfl⟩
    rw [img.raw_length]
    exact (mem_edgeOrder.mp hi).1

/-- There is one, unless the edge detector cannot index the image. -/
theorem positionList_ok {id : TechniqueId} {img : RgbImage}
    (hsafe : id = .edgeAdaptiveLsb → EdgeSafe img.width img.height) (params : EmbedParams) :
    ∃ c : Carrier img.raw.length, positionList F hmac id img params = .ok c.order := by
  obtain ⟨ps, hps⟩ : ∃ ps, positionList F hmac id img params = .ok ps := by
    cases id with
    | lsbSequential => exact ⟨_, positionList_sequential F hmac img params⟩
    | lsbRandomHmac => exact ⟨_, positionList_random F hmac img params⟩
    | edgeAdaptiveLsb => exact ⟨_, positionList_edge F hmac (hsafe rfl) params⟩
  obtain ⟨c, rfl⟩ := positionList_carrier hps
  exact ⟨c, hps⟩

/-- The two techniques that take a mask visit active channels only. -/
theorem positionList_active {id : TechniqueId} {img : RgbImage} {params : EmbedParams}
    {ps : List Nat} (hid : id ≠ .lsbRandomHmac)
    (h : positionList F hmac id img params = .ok ps) :
    ∀ i ∈ ps, params.channels.includesChannel (i % 3) := by
  intro i hi
  cases id with
  | lsbSequential =>
    rw [positionList_sequential] at h
    cases h
    exact (mem_sequentialOrder.mp hi).2
  | lsbRandomHmac => exact absurd rfl hid
  | edgeAdaptiveLsb =>
    obtain ⟨hsafe, rfl⟩ := positionList_edge_ok F hmac h
    exact (mem_edgeOrder.mp hi).2

/-! ## The techniques along their lists -/

/-- The techniques that take a mask embed along the whole list. -/
theorem masked_embed_eq {id : TechniqueId} (hid : id ≠ .lsbRandomHmac) (cover : RgbImage)
    (payload : Bytes) (params : EmbedParams) :
    (StegoEngine.techniqueOf F hmac id).embed cover payload params
      = (positionList F hmac id cover params >>= fun ps =>
          embedAlong cover payload ps (planeOf id params)) := by
  cases id with
  | lsbSequential => rfl
  | lsbRandomHmac => exact absurd rfl hid
  | edgeAdaptiveLsb =>
    simp only [StegoEngine.techniqueOf, EdgeAdaptiveLsb.technique, EdgeAdaptiveLsb.embed,
      positionList, planeOf, bind_assoc]

/-- The techniques that take a mask extract along the whole list. -/
theorem masked_extract_eq {id : TechniqueId} (hid : id ≠ .lsbRandomHmac) (stego : RgbImage)
    (n : Nat) (params : EmbedParams) :
    (StegoEngine.techniqueOf F hmac id).extract stego n params
      = (positionList F hmac id stego params >>= fun ps =>
          extractAlong stego n ps (planeOf id params)) := by
  cases id with
  | lsbSequential => rfl
  | lsbRandomHmac => exact absurd rfl hid
  | edgeAdaptiveLsb =>
    simp only [StegoEngine.techniqueOf, EdgeAdaptiveLsb.technique, EdgeAdaptiveLsb.extract,
      positionList, planeOf, bind_assoc]

/-- The keyed technique writes along its list, cut to the frame. -/
theorem random_embed_eq {cover : RgbImage} {payload : Bytes} {params : EmbedParams}
    (hn : (payload.length + 4) * 8 < 2 ^ 64) :
    LsbRandomHmac.embed hmac cover payload params
      = if (payload.length + 4) * 8 ≤ cover.raw.length then
          writeFrame cover
            ((keyedCarrier hmac params.placementKey cover.raw.length).take
              ((payload.length + 4) * 8)).order (framePayload payload) 0
        else fail .payloadTooLarge := by
  obtain ⟨h1, h2⟩ := sides_ok cover
  simp only [LsbRandomHmac.embed, h1, h2, ok_bind, framePayload_length, mul_of_lt hn]
  split
  · rename_i hfits
    rw [placementPositions_eq hmac hfits, ok_bind]
    rfl
  · rw [LsbRandomHmac.placementPositions, if_pos (by omega)]
    rfl

/-- The keyed technique reads along its list, cut to the expected frame. -/
theorem random_extract_eq {stego : RgbImage} {n : Nat} {params : EmbedParams}
    (hn : (n + 4) * 8 < 2 ^ 64) :
    LsbRandomHmac.extract hmac stego n params
      = if (n + 4) * 8 ≤ stego.raw.length then
          extractAlong stego n
            ((keyedCarrier hmac params.placementKey stego.raw.length).take ((n + 4) * 8)).order 0
        else fail .payloadTooLarge := by
  obtain ⟨h1, h2⟩ := sides_ok stego
  have hadd : (add 64 n 4 : Outcome StegoError Nat) = .ok (n + 4) := add_of_lt (by omega)
  simp only [LsbRandomHmac.extract, h1, h2, ok_bind, hadd, mul_of_lt hn]
  split
  · rename_i hfits
    rw [placementPositions_eq hmac hfits, ok_bind, extractAlong, hadd, ok_bind]
    rfl
  · rw [LsbRandomHmac.placementPositions, if_pos (by omega)]
    rfl

/-- What the keyed technique leaves behind: the cut is not noticed by hiding the frame. -/
theorem random_embed_eq_ok {cover stego : RgbImage} {payload : Bytes} {params : EmbedParams} :
    LsbRandomHmac.embed hmac cover payload params = .ok stego ↔
      (payload.length + 4) * 8 < 2 ^ 64 ∧ 8 * (payload.length + 4) ≤ cover.raw.length
        ∧ stego = cover.withRaw
            ((keyedCarrier hmac params.placementKey cover.raw.length).hide 0
              (framePayload payload) cover.raw) (Carrier.hide_length ..) := by
  have hcut : 8 * (framePayload payload).length ≤ (payload.length + 4) * 8 := by
    rw [framePayload_length, Nat.mul_comm]
  constructor
  · intro h
    -- it multiplies before it asks for room, so the product has fit its word
    have hn : (payload.length + 4) * 8 < 2 ^ 64 := by
      simp only [LsbRandomHmac.embed, framePayload_length, bind_eq_ok, mul_eq_ok] at h
      obtain ⟨_, -, _, -, _, ⟨hn, -⟩, -⟩ := h
      exact hn
    rw [random_embed_eq hn] at h
    split at h
    · rename_i hfits
      have hstego := (writeFrame_eq_ok (by decide)).mp h
      simp only [Carrier.hide_take hcut] at hstego
      exact ⟨hn, by omega, hstego⟩
    · cases h
  · intro h
    obtain ⟨hn, hfits, hstego⟩ := h
    rw [random_embed_eq hn, if_pos (by omega), writeFrame_eq_ok (by decide)]
    simp only [Carrier.hide_take hcut]
    exact hstego

/-- **Embedding hides the payload's frame along the technique's list.** -/
theorem technique_embed_eq_ok {id : TechniqueId} {cover stego : RgbImage} {payload : Bytes}
    {params : EmbedParams} (hp : (planeOf id params).toNat < 8) :
    (StegoEngine.techniqueOf F hmac id).embed cover payload params = .ok stego ↔
      ∃ c : Carrier cover.raw.length, positionList F hmac id cover params = .ok c.order
        ∧ (payload.length + 4) * 8 < 2 ^ 64 ∧ 8 * (payload.length + 4) ≤ c.order.length
        ∧ stego = cover.withRaw
            (c.hide (planeOf id params).toNat (framePayload payload) cover.raw)
            (c.hide_length _ _ _) := by
  by_cases hid : id = .lsbRandomHmac
  · subst hid
    have hlen : (keyedCarrier hmac params.placementKey cover.raw.length).order.length
        = cover.raw.length := keyedOrder_length ..
    change LsbRandomHmac.embed hmac cover payload params = _ ↔ _
    simp only [positionList_random, planeOf, random_embed_eq_ok]
    constructor
    · intro h
      obtain ⟨hn, hfits, hstego⟩ := h
      exact ⟨keyedCarrier hmac params.placementKey cover.raw.length, rfl, hn, by omega, hstego⟩
    · intro h
      obtain ⟨c, hc, hn, hfits, hstego⟩ := h
      obtain rfl : keyedCarrier hmac params.placementKey cover.raw.length = c :=
        Carrier.ext (Except.ok.inj hc)
      exact ⟨hn, by omega, hstego⟩
  · rw [masked_embed_eq hid, bind_eq_ok]
    constructor
    · intro h
      obtain ⟨ps, hps, h⟩ := h
      obtain ⟨c, rfl⟩ := positionList_carrier hps
      exact ⟨c, hps, (embedAlong_eq_ok hp).mp h⟩
    · intro h
      obtain ⟨c, hps, h⟩ := h
      exact ⟨_, hps, (embedAlong_eq_ok hp).mpr h⟩

/-- What the keyed technique finds: the cut list and the whole one hold the same frame. -/
theorem random_extract_eq_ok {stego : RgbImage} {n : Nat} {payload : Bytes}
    {params : EmbedParams} :
    LsbRandomHmac.extract hmac stego n params = .ok payload ↔
      payload.length = n ∧ n < 2 ^ 32
        ∧ (keyedCarrier hmac params.placementKey stego.raw.length).Holds 0 stego.raw
            (framePayload payload) := by
  have hlen : (keyedCarrier hmac params.placementKey stego.raw.length).order.length
      = stego.raw.length := keyedOrder_length ..
  have hcut : payload.length = n → 8 * (framePayload payload).length ≤ (n + 4) * 8 := by
    intro h
    subst h
    rw [framePayload_length, Nat.mul_comm]
  constructor
  · intro h
    have hn : (n + 4) * 8 < 2 ^ 64 := by
      simp only [LsbRandomHmac.extract, bind_eq_ok, add_eq_ok, mul_eq_ok] at h
      obtain ⟨_, -, _, -, _, ⟨-, rfl⟩, _, ⟨hn, -⟩, -⟩ := h
      exact hn
    rw [random_extract_eq hn] at h
    split at h
    · obtain ⟨hpn, hlt, hholds⟩ := (extractAlong_eq_ok (by decide)).mp h
      exact ⟨hpn, hlt, (Carrier.holds_take (hcut hpn)).mp hholds⟩
    · cases h
  · intro h
    obtain ⟨hpn, hlt, hholds⟩ := h
    have hfits := hholds.1
    rw [framePayload_length] at hfits
    rw [random_extract_eq (by omega), if_pos (by omega), extractAlong_eq_ok (by decide)]
    exact ⟨hpn, hlt, (Carrier.holds_take (hcut hpn)).mpr hholds⟩

/-- **Extraction finds the frame of a payload of the expected length along the list**, or fails. -/
theorem technique_extract_eq_ok {id : TechniqueId} {stego : RgbImage} {n : Nat} {payload : Bytes}
    {params : EmbedParams} (hp : (planeOf id params).toNat < 8) :
    (StegoEngine.techniqueOf F hmac id).extract stego n params = .ok payload ↔
      ∃ c : Carrier stego.raw.length, positionList F hmac id stego params = .ok c.order
        ∧ payload.length = n ∧ n < 2 ^ 32
        ∧ c.Holds (planeOf id params).toNat stego.raw (framePayload payload) := by
  by_cases hid : id = .lsbRandomHmac
  · subst hid
    change LsbRandomHmac.extract hmac stego n params = _ ↔ _
    simp only [positionList_random, planeOf, random_extract_eq_ok]
    constructor
    · intro h
      exact ⟨keyedCarrier hmac params.placementKey stego.raw.length, rfl, h⟩
    · intro h
      obtain ⟨c, hc, h⟩ := h
      obtain rfl : keyedCarrier hmac params.placementKey stego.raw.length = c :=
        Carrier.ext (Except.ok.inj hc)
      exact h
  · rw [masked_extract_eq hid, bind_eq_ok]
    constructor
    · intro h
      obtain ⟨ps, hps, h⟩ := h
      obtain ⟨c, rfl⟩ := positionList_carrier hps
      exact ⟨c, hps, (extractAlong_eq_ok hp).mp h⟩
    · intro h
      obtain ⟨c, hps, h⟩ := h
      exact ⟨_, hps, (extractAlong_eq_ok hp).mpr h⟩

/--
Extraction returns or fails, unless the expected size leaves its word or, for the
edge-adaptive technique, the dimensions do.
-/
theorem technique_extract_ne_panic {id : TechniqueId} {stego : RgbImage} {n : Nat}
    {params : EmbedParams} (hp : (planeOf id params).toNat < 8) (hn : (n + 4) * 8 < 2 ^ 64)
    (hsafe : id = .edgeAdaptiveLsb → EdgeSafe stego.width stego.height) (p : Panic) :
    (StegoEngine.techniqueOf F hmac id).extract stego n params ≠ .error (.panic p) := by
  by_cases hid : id = .lsbRandomHmac
  · subst hid
    change LsbRandomHmac.extract hmac stego n params ≠ _
    rw [random_extract_eq hn]
    split
    · exact extractAlong_ne_panic (by decide) hn p
    · intro h
      cases h
  · obtain ⟨c, hps⟩ : ∃ c : Carrier stego.raw.length,
        positionList F hmac id stego params = .ok c.order := positionList_ok hsafe params
    rw [masked_extract_eq hid, hps]
    exact extractAlong_ne_panic hp hn p

/-- Outside these sizes and dimensions it panics. -/
theorem technique_extract_panic {id : TechniqueId} {stego : RgbImage} {n : Nat}
    {params : EmbedParams}
    (h : 2 ^ 64 ≤ (n + 4) * 8 ∨ id = .edgeAdaptiveLsb ∧ ¬ EdgeSafe stego.width stego.height) :
    (StegoEngine.techniqueOf F hmac id).extract stego n params = .error (.panic .overflow) := by
  by_cases hunsafe : id = .edgeAdaptiveLsb ∧ ¬ EdgeSafe stego.width stego.height
  · obtain ⟨rfl, hunsafe⟩ := hunsafe
    change EdgeAdaptiveLsb.extract F stego n params = _
    rw [EdgeAdaptiveLsb.extract, computeEdgeMap, edgeMapOf_unsafe hunsafe]
    rfl
  -- the map is fine, so it is the expected size
  have hn : 2 ^ 64 ≤ (n + 4) * 8 := h.resolve_right hunsafe
  by_cases hid : id = .lsbRandomHmac
  · subst hid
    change LsbRandomHmac.extract hmac stego n params = _
    obtain ⟨h1, h2⟩ := sides_ok stego
    rw [LsbRandomHmac.extract, h1, ok_bind, h2, ok_bind]
    by_cases hadd : n + 4 < 2 ^ 64
    · rw [add_of_lt hadd, ok_bind, mul, if_neg (by omega)]
      rfl
    · rw [add, if_neg hadd]
      rfl
  · have hsafe : id = .edgeAdaptiveLsb → EdgeSafe stego.width stego.height := by
      intro hedge
      by_contra hs
      exact hunsafe ⟨hedge, hs⟩
    obtain ⟨c, hps⟩ : ∃ c : Carrier stego.raw.length,
        positionList F hmac id stego params = .ok c.order := positionList_ok hsafe params
    rw [masked_extract_eq hid, hps]
    exact extractAlong_panic hn

end Techniques

end Stegosafe.Proof
