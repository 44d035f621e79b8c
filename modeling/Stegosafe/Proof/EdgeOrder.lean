import Mathlib.Tactic.Linarith
import Mathlib.Tactic.Ring
import Stegosafe.Proof.RoundTrip

/-!
# When the edge-adaptive technique reads back what it wrote

The edge-adaptive extractor sorts by the magnitudes of the stego image, which are
not those of the cover: every bit written moves the luminance of its pixel, and
with it the magnitudes of the neighbours. So the order of reading is another one
than the order of writing, and on some pictures the frame comes out permuted.

Magnitudes are exact here. `shiftedLum` computes, from the cover and the frame,
the luminances the extractor will see; `OrderKept` says that the order they induce
passes the frame's bits in the frame's own sequence. The technique round-trips
exactly there.
-/

namespace Stegosafe.Proof

open Stegosafe Checked Outcome

section Shift

variable (cover : RgbImage) (payload : Bytes) (params : EmbedParams)

/-- The order in which the embedder visits the samples. -/
def writeOrder : List Nat := edgeOrder cover.width cover.height (lumOf cover : List ℚ) params

/-- The bits to hide. -/
def frameBits : Bytes := Bits.stream (framePayload payload)

/-- The bit a sample is to carry: one of the frame's if the embedder gets to it, else its own. -/
def intendedBit (s : Nat) : UInt8 :=
  ((frameBits payload)[(writeOrder cover params).idxOf s]?).getD
    (Bits.get params.bitPlane.toNat (cover.raw.getD s 0))

/-- How far carrying that bit moves the sample's value. -/
def sampleShift (s : Nat) : ℚ :=
  ((intendedBit cover payload params s).toNat
    - (Bits.get params.bitPlane.toNat (cover.raw.getD s 0)).toNat) * 2 ^ params.bitPlane.toNat

/-- The cover's luminances, each moved by the shifts of its three samples. -/
def shiftedLum : List ℚ :=
  (List.range (cover.width * cover.height)).map fun px =>
    luminance (cover.raw.getD (3 * px) 0) (cover.raw.getD (3 * px + 1) 0)
        (cover.raw.getD (3 * px + 2) 0)
      + (0.299 * sampleShift cover payload params (3 * px)
        + 0.587 * sampleShift cover payload params (3 * px + 1)
        + 0.114 * sampleShift cover payload params (3 * px + 2))

/-- The order in which the extractor will visit the samples. -/
def readOrder : List Nat :=
  edgeOrder cover.width cover.height (shiftedLum cover payload params) params

/--
If the frame fits, the samples the extractor visits first are to carry the frame's
bits, in sequence.

Every place either keeps its sample, or is taken by a sample that is to carry the
same bit.
-/
def OrderKept : Prop :=
  (frameBits payload).length ≤ (writeOrder cover params).length →
    ((readOrder cover payload params).take (frameBits payload).length).map
      (intendedBit cover payload params) = frameBits payload

instance : Decidable (OrderKept cover payload params) := by
  unfold OrderKept
  infer_instance

theorem writeOrder_nodup : (writeOrder cover params).Nodup := edgeOrder_nodup _ _ _ _

/-- The write order, as a carrier. -/
def writeCarrier : Carrier cover.raw.length where
  order := writeOrder cover params
  nodup := writeOrder_nodup cover params
  inside i hi := by
    rw [cover.raw_length]
    exact (mem_edgeOrder.mp hi).1

/-- The cover with the frame hidden along the write order. -/
def edgeStego : RgbImage :=
  cover.withRaw
    ((writeCarrier cover params).hide params.bitPlane.toNat (framePayload payload) cover.raw)
    (Carrier.hide_length _ _ _ _)

@[simp] theorem edgeStego_raw_length :
    (edgeStego cover payload params).raw.length = cover.raw.length := Carrier.hide_length _ _ _ _

/-- The read order, as a carrier of the stego image. -/
def readCarrier : Carrier (edgeStego cover payload params).raw.length where
  order := readOrder cover payload params
  nodup := edgeOrder_nodup _ _ _ _
  inside i hi := by
    rw [edgeStego_raw_length, cover.raw_length]
    exact (mem_edgeOrder.mp hi).1

theorem frameBits_length : (frameBits payload).length = 8 * (payload.length + 4) := by
  rw [frameBits, Bits.stream_length, framePayload_length]

theorem readOrder_length : (readOrder cover payload params).length
    = (writeOrder cover params).length := edgeOrder_length _ _ _ _ _

end Shift

/-- Luminance in exact arithmetic. -/
theorem luminance_rat (r g b : UInt8) :
    (luminance r g b : ℚ) = 0.299 * r.toNat + 0.587 * g.toNat + 0.114 * b.toNat := by
  simp only [luminance, Scalar.ofInt, Int.cast_natCast]

/-! ## What the stego image carries -/

section Stego

variable {cover : RgbImage} {payload : Bytes} {params : EmbedParams}

theorem isBit_intendedBit (s : Nat) : Bits.IsBit (intendedBit cover payload params s) := by
  unfold intendedBit
  cases hv : (frameBits payload)[(writeOrder cover params).idxOf s]? with
  | none => exact Bits.isBit_get _ _
  | some v => exact Bits.isBit_of_mem_stream (List.mem_of_getElem? hv)

/-- A sample at place `j` of the write order is to carry bit `j` of the frame. -/
theorem intendedBit_at {j s : Nat} {v : UInt8} (hs : (writeOrder cover params)[j]? = some s)
    (hv : (frameBits payload)[j]? = some v) : intendedBit cover payload params s = v := by
  obtain ⟨hj, rfl⟩ := List.getElem?_eq_some_iff.mp hs
  rw [intendedBit, (writeOrder_nodup cover params).idxOf_getElem, hv]
  rfl

/-- A sample the embedder does not get to is to carry its own bit. -/
theorem intendedBit_other {s : Nat}
    (hs : (frameBits payload).length ≤ (writeOrder cover params).idxOf s) :
    intendedBit cover payload params s
      = Bits.get params.bitPlane.toNat (cover.raw.getD s 0) := by
  rw [intendedBit, List.getElem?_eq_none hs, Option.getD_none]

/-- Being among the first `n` samples of a list is having an index below `n`. -/
theorem idxOf_lt_of_mem_take {n s : Nat} (hs : s ∈ (writeOrder cover params).take n) :
    (writeOrder cover params).idxOf s < n := by
  obtain ⟨j, hjs⟩ := List.getElem?_of_mem hs
  obtain ⟨hj, hget⟩ := List.getElem?_eq_some_iff.mp hjs
  rw [List.length_take] at hj
  rw [List.getElem_take] at hget
  rw [← hget, (writeOrder_nodup cover params).idxOf_getElem]
  omega

variable (hp : params.bitPlane.toNat < 8)
  (hfits : (frameBits payload).length ≤ (writeOrder cover params).length)

include hp hfits

/-- **After hiding, every sample carries the bit it is to carry.** -/
theorem edgeStego_sample {s : Nat} (hs : s < cover.raw.length) :
    (edgeStego cover payload params).raw[s]?
      = some (Bits.put params.bitPlane.toNat (intendedBit cover payload params s)
          (cover.raw.getD s 0)) := by
  have hraw : cover.raw[s]? = some (cover.raw.getD s 0) := by
    rw [List.getD_eq_getElem?_getD, List.getElem?_eq_getElem hs]
    rfl
  rw [edgeStego, RgbImage.withRaw]
  rcases Nat.lt_or_ge ((writeOrder cover params).idxOf s) (frameBits payload).length with hj | hj
  · -- the embedder gets to the sample, and writes the bit at its place
    have hlt := Nat.lt_of_lt_of_le hj hfits
    have hplace : (writeOrder cover params)[(writeOrder cover params).idxOf s]? = some s := by
      rw [List.getElem?_eq_getElem hlt, List.getElem_idxOf]
    have hv := List.getElem?_eq_getElem hj
    rw [intendedBit_at hplace hv, Carrier.hide_at (c := writeCarrier cover params) hplace hv, hraw]
    rfl
  · -- it does not, and putting back a sample's own bit changes nothing
    have hout : s ∉ (writeOrder cover params).take (8 * (framePayload payload).length) := by
      intro hmem
      have hlt := idxOf_lt_of_mem_take hmem
      rw [frameBits, Bits.stream_length] at hj
      omega
    rw [Carrier.hide_other (c := writeCarrier cover params) hout, hraw, intendedBit_other hj,
      Bits.put_get hp]

/-- A sample's value moves by its shift. -/
theorem edgeStego_value {s : Nat} (hs : s < cover.raw.length) :
    (((edgeStego cover payload params).raw.getD s 0).toNat : ℚ)
      = (cover.raw.getD s 0).toNat + sampleShift cover payload params s := by
  have hbit : Bits.IsBit (intendedBit cover payload params s) := isBit_intendedBit s
  have hmove := Bits.toNat_put hp hbit (cover.raw.getD s 0)
  have hcast := congrArg (fun n : Nat => (n : ℚ)) hmove
  push_cast at hcast
  rw [List.getD_eq_getElem?_getD, edgeStego_sample hp hfits hs, Option.getD_some, sampleShift,
    sub_mul]
  linarith

/-- **The luminances of the stego image are the shifted ones.** -/
theorem lumOf_edgeStego :
    lumOf (edgeStego cover payload params) = shiftedLum cover payload params := by
  have hlen := cover.raw_length
  apply List.ext_getElem?
  intro px
  rcases Nat.lt_or_ge px (cover.width * cover.height) with hpx | hpx
  · -- luminance is linear, so it moves by the weighted shifts of the three samples
    have hchunk := RgbImage.chunks_getElem? (edgeStego cover payload params).raw px
      (by rw [edgeStego_raw_length]; omega)
    rw [lumOf, RgbImage.pixels, List.getElem?_map, hchunk, shiftedLum, List.getElem?_map,
      List.getElem?_range hpx, Option.map_some, Option.map_some, Option.some.injEq]
    simp only [luminance_rat, edgeStego_value hp hfits (show 3 * px < cover.raw.length by omega),
      edgeStego_value hp hfits (show 3 * px + 1 < cover.raw.length by omega),
      edgeStego_value hp hfits (show 3 * px + 2 < cover.raw.length by omega)]
    ring
  · rw [List.getElem?_eq_none (by rw [lumOf_length]; exact hpx),
      List.getElem?_eq_none (by simpa [shiftedLum] using hpx)]

/-- Reading the stego image's plane reads intended bits. -/
theorem gather_edgeStego {idx : List Nat} (hidx : ∀ s ∈ idx, s < cover.raw.length) :
    Scatter.gather (Bits.get params.bitPlane.toNat) (edgeStego cover payload params).raw idx
      = (idx.map (intendedBit cover payload params)).map some := by
  rw [Scatter.gather, List.map_map]
  refine List.map_congr_left fun s hs => ?_
  rw [edgeStego_sample hp hfits (hidx s hs), Option.map_some,
    Bits.get_put_self hp (isBit_intendedBit s)]
  rfl

/-- The frame is held along the read order exactly if the order is kept. -/
theorem readCarrier_holds :
    (readCarrier cover payload params).Holds params.bitPlane.toNat
        (edgeStego cover payload params).raw (framePayload payload)
      ↔ OrderKept cover payload params := by
  have hin : ∀ s ∈ (readOrder cover payload params).take (frameBits payload).length,
      s < cover.raw.length := by
    intro s hs
    have hs' := (readCarrier cover payload params).inside s (List.mem_of_mem_take hs)
    rwa [edgeStego_raw_length] at hs'
  have hgather := gather_edgeStego hp hfits hin
  rw [frameBits_length] at hgather
  rw [Carrier.Holds, framePayload_length, OrderKept, frameBits_length]
  constructor
  · intro h _
    obtain ⟨-, hheld⟩ := h
    exact List.map_injective_iff.mpr (Option.some_injective _) (hgather.symm.trans hheld)
  · intro hkept
    have hfits' : 8 * (payload.length + 4) ≤ (writeOrder cover params).length := by
      rwa [frameBits_length] at hfits
    exact ⟨(readOrder_length cover payload params).symm ▸ hfits',
      hgather.trans (congrArg (List.map some) (hkept hfits'))⟩

end Stego

/-! ## The technique -/

/-- Keeping the samples of the frame in their order is more than enough. -/
theorem orderKept_of_take {cover : RgbImage} {payload : Bytes} {params : EmbedParams}
    (h : (readOrder cover payload params).take (frameBits payload).length
      = (writeOrder cover params).take (frameBits payload).length) :
    OrderKept cover payload params := by
  intro hfits
  rw [h]
  apply List.ext_getElem?
  intro i
  rcases Nat.lt_or_ge i (frameBits payload).length with hi | hi
  · have hv := List.getElem?_eq_getElem hi
    have hs := List.getElem?_eq_getElem (Nat.lt_of_lt_of_le hi hfits)
    rw [List.getElem?_map, List.getElem?_take_of_lt hi, hs, Option.map_some, hv,
      intendedBit_at hs hv]
  · rw [List.getElem?_eq_none (by simp; omega), List.getElem?_eq_none hi]

section Technique

variable {cover : RgbImage} {payload : Bytes} {params : EmbedParams}
  (hsafe : EdgeSafe cover.width cover.height) (hp : params.bitPlane.toNat < 8)
  (hlen : payload.length < 2 ^ 32)

include hsafe hp hlen

/-- Embedding succeeds if the frame fits, and makes one image only. -/
theorem edge_embed_eq_ok {stego : RgbImage} :
    EdgeAdaptiveLsb.embed ℚ cover payload params = .ok stego ↔
      (frameBits payload).length ≤ (writeOrder cover params).length
        ∧ stego = edgeStego cover payload params := by
  -- the technique uses no HMAC, so any will do
  let hmac : Hmac := fun _ _ => Vector.replicate 32 0
  have hps := positionList_edge ℚ hmac hsafe params
  have hplane : (planeOf .edgeAdaptiveLsb params).toNat < 8 := hp
  change (StegoEngine.techniqueOf ℚ hmac .edgeAdaptiveLsb).embed cover payload params = _ ↔ _
  rw [technique_embed_eq_ok hplane, frameBits_length]
  constructor
  · intro h
    obtain ⟨c, hc, -, hfits, hstego⟩ := h
    obtain rfl : writeCarrier cover params = c :=
      Carrier.ext (Except.ok.inj (hps.symm.trans hc))
    exact ⟨hfits, hstego⟩
  · intro h
    obtain ⟨hfits, hstego⟩ := h
    exact ⟨writeCarrier cover params, hps, by omega, hfits, hstego⟩

/-- Extraction from that image gives the payload back exactly if the order is kept. -/
theorem edge_extract_eq_ok
    (hfits : (frameBits payload).length ≤ (writeOrder cover params).length) :
    EdgeAdaptiveLsb.extract ℚ (edgeStego cover payload params) payload.length params = .ok payload
      ↔ OrderKept cover payload params := by
  let hmac : Hmac := fun _ _ => Vector.replicate 32 0
  have hsafe' : EdgeSafe (edgeStego cover payload params).width
      (edgeStego cover payload params).height := hsafe
  have hps := positionList_edge ℚ hmac hsafe' params
  -- the extractor's order is the one `readOrder` computes from cover and frame
  rw [lumOf_edgeStego hp hfits] at hps
  have hplane : (planeOf .edgeAdaptiveLsb params).toNat < 8 := hp
  change (StegoEngine.techniqueOf ℚ hmac .edgeAdaptiveLsb).extract _ _ params = _ ↔ _
  rw [technique_extract_eq_ok hplane, ← readCarrier_holds hp hfits]
  constructor
  · intro h
    obtain ⟨c, hc, -, -, hholds⟩ := h
    obtain rfl : readCarrier cover payload params = c :=
      Carrier.ext (Except.ok.inj (hps.symm.trans hc))
    exact hholds
  · intro hholds
    exact ⟨readCarrier cover payload params, hps, rfl, hlen, hholds⟩

end Technique

end Stegosafe.Proof
