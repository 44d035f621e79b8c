import Mathlib.Algebra.Order.Field.Rat
import Mathlib.Algebra.Order.Group.MinMax
import Mathlib.Algebra.Order.Ring.Abs
import Stegosafe.Proof.EdgeOrder
import Stegosafe.Proof.Orders

/-!
# Margins between edges

The edge-adaptive technique reads back what it wrote if no bit it writes can bring two
pixels of the cover within each other's reach. Writing moves the luminance of a pixel by
the weights of the samples whose bits change (`stir`), and with it the magnitudes of the
pixels around, by twice the stirs of their neighbours at most (`sway`). The magnitude of a
border pixel is zero and stays so.

A cover is `Steady` if each pixel that takes bits of the frame stays ahead of every pixel
behind it, whatever their magnitudes become within their sways. Then the extractor visits
the samples of the frame in the order they were written in (`readOrder_take`), and the
technique round-trips (`edge_roundTrip_of_steady`).
-/

namespace Stegosafe.Proof

open Stegosafe Checked Outcome Sorting

/-! ## Magnitudes -/

section Manhattan

variable {K : Type} [AddCommGroup K] [LinearOrder K] [IsOrderedAddMonoid K]

/-- The Manhattan norm is the larger one of the sum and the difference. -/
theorem manhattan_eq_max (a b : K) : |a| + |b| = max |a + b| |a - b| := by
  refine le_antisymm ?_ (max_le (abs_add_le a b) (abs_sub a b))
  rcases le_total 0 a with ha | ha
  · rcases le_total 0 b with hb | hb
    · rw [abs_of_nonneg ha, abs_of_nonneg hb]
      exact le_max_of_le_left (le_abs_self _)
    · rw [abs_of_nonneg ha, abs_of_nonpos hb, ← sub_eq_add_neg]
      exact le_max_of_le_right (le_abs_self _)
  · rcases le_total 0 b with hb | hb
    · rw [abs_of_nonpos ha, abs_of_nonneg hb, abs_sub_comm, neg_add_eq_sub]
      exact le_max_of_le_right (le_abs_self _)
    · rw [abs_of_nonpos ha, abs_of_nonpos hb, ← abs_neg (a + b), neg_add]
      exact le_max_of_le_left (le_abs_self _)

theorem manhattan_within {a b a' b' s : K} (hsum : |(a' + b') - (a + b)| ≤ s)
    (hdiff : |(a' - b') - (a - b)| ≤ s) : |(|a'| + |b'|) - (|a| + |b|)| ≤ s := by
  rw [manhattan_eq_max, manhattan_eq_max]
  refine (abs_max_sub_max_le_max _ _ _ _).trans (max_le ?_ ?_)
  · exact (abs_abs_sub_abs_le _ _).trans hsum
  · exact (abs_abs_sub_abs_le _ _).trans hdiff

end Manhattan

/-- How far the magnitude of pixel `(x, y)` moves at most, by how far its neighbours do. -/
def sobelSway (stirs : List ℚ) (w x y : Nat) : ℚ :=
  2 * (lumNear stirs w x y 0 (-1) + lumNear stirs w x y (-1) 0 + lumNear stirs w x y 1 0
    + lumNear stirs w x y 0 1
    + max (lumNear stirs w x y (-1) (-1) + lumNear stirs w x y 1 1)
      (lumNear stirs w x y 1 (-1) + lumNear stirs w x y (-1) 1))

/-- The same for every pixel of a picture: those on the border do not move. -/
def swayMap (w h : Nat) (stirs : List ℚ) : List ℚ :=
  (List.range (w * h)).map fun i =>
    if Inner w h i then sobelSway stirs w (i % w) (i / w) else 0

/-- No luminance differs by more than its stir. -/
def Within (stirs lum lum' : List ℚ) : Prop :=
  ∀ i, |lum'.getD i 0.0 - lum.getD i 0.0| ≤ stirs.getD i 0.0

theorem abs_rat (q : ℚ) : Scalar.abs q = |q| := by
  change (if q < 0 then -q else q) = |q|
  split
  · exact (abs_of_neg ‹_›).symm
  · exact (abs_of_nonneg (not_lt.mp ‹_›)).symm

/-- **A magnitude moves by its sway at most.** -/
theorem sobelMag_within {stirs lum lum' : List ℚ} (h : Within stirs lum lum') (w x y : Nat) :
    |sobelMag lum' w x y - sobelMag lum w x y| ≤ sobelSway stirs w x y := by
  have hnear : ∀ dx dy, |lumNear lum' w x y dx dy - lumNear lum w x y dx dy|
      ≤ lumNear stirs w x y dx dy := fun dx dy => h _
  have hnw := abs_le.mp (hnear (-1) (-1))
  have hn := abs_le.mp (hnear 0 (-1))
  have hne := abs_le.mp (hnear 1 (-1))
  have hw := abs_le.mp (hnear (-1) 0)
  have he := abs_le.mp (hnear 1 0)
  have hsw := abs_le.mp (hnear (-1) 1)
  have hs := abs_le.mp (hnear 0 1)
  have hse := abs_le.mp (hnear 1 1)
  simp only [sobelMag, abs_rat]
  refine manhattan_within ?_ ?_
  · -- the sum of the kernels is blind to one diagonal, the difference to the other
    have hmax := le_max_left
      (lumNear stirs w x y (-1) (-1) + lumNear stirs w x y 1 1)
      (lumNear stirs w x y 1 (-1) + lumNear stirs w x y (-1) 1)
    rw [sobelSway, abs_le]
    constructor <;> linarith
  · have hmax := le_max_right
      (lumNear stirs w x y (-1) (-1) + lumNear stirs w x y 1 1)
      (lumNear stirs w x y 1 (-1) + lumNear stirs w x y (-1) 1)
    rw [sobelSway, abs_le]
    constructor <;> linarith

theorem sobelMap_within {stirs lum lum' : List ℚ} (h : Within stirs lum lum') (w ht i : Nat) :
    |(sobelMap w ht lum').getD i 0 - (sobelMap w ht lum).getD i 0|
      ≤ (swayMap w ht stirs).getD i 0 := by
  simp only [sobelMap, swayMap, List.getD_eq_getElem?_getD, List.getElem?_map]
  rcases Nat.lt_or_ge i (w * ht) with hi | hi
  · rw [List.getElem?_range hi]
    simp only [Option.map_some, Option.getD_some]
    split
    · exact sobelMag_within h w _ _
    · rw [sub_self, abs_zero]
  · rw [List.getElem?_eq_none (by rwa [List.length_range])]
    simp only [Option.map_none, Option.getD_none, sub_self, abs_zero, le_refl]

/-! ## Steady covers -/

/-- Whatever ranks they get, `i` from `low` on and `j` up to `high`, `i` is ahead of `j`. -/
def Ahead (low high : Nat → ℚ) (i j : Nat) : Prop := high j < low i ∨ low i = high j ∧ i < j

instance (low high : Nat → ℚ) (i j : Nat) : Decidable (Ahead low high i j) := by
  unfold Ahead
  infer_instance

theorem Ahead.of_bounds {low high rank : Nat → ℚ} {i j : Nat} (h : Ahead low high i j)
    (hlow : low i ≤ rank i) (hhigh : rank j ≤ high j) : Ahead rank rank i j := by
  rcases h with hlt | ⟨heq, hij⟩
  · exact Or.inl (lt_of_le_of_lt hhigh (lt_of_lt_of_le hlt hlow))
  · rcases lt_or_eq_of_le (hhigh.trans (heq.ge.trans hlow)) with hlt | hsame
    · exact Or.inl hlt
    · exact Or.inr ⟨hsame.symm, hij⟩

section Steady

variable (cover : RgbImage) (payload : Bytes) (params : EmbedParams)

/-- How far the frame moves each luminance: by the weights of the samples it changes. -/
def stirs : List ℚ :=
  (List.range (cover.width * cover.height)).map fun px =>
    0.299 * |sampleShift cover payload params (3 * px)|
      + 0.587 * |sampleShift cover payload params (3 * px + 1)|
      + 0.114 * |sampleShift cover payload params (3 * px + 2)|

/-- The magnitude of a pixel of the cover. -/
def magnitude (px : Nat) : ℚ := (sobelMap cover.width cover.height (lumOf cover)).getD px 0

/-- How far the frame moves it at most. -/
def sway (px : Nat) : ℚ :=
  (swayMap cover.width cover.height (stirs cover payload params)).getD px 0

/--
Each pixel that takes bits of the frame stays ahead of those behind it, even if their
magnitudes move towards each other by all their sways.
-/
def Steady : Prop :=
  ∀ s ∈ (writeOrder cover params).take (frameBits payload).length,
    ∀ px < cover.width * cover.height, Ahead (magnitude cover) (magnitude cover) (s / 3) px →
      Ahead (fun px => magnitude cover px - sway cover payload params px)
        (fun px => magnitude cover px + sway cover payload params px) (s / 3) px

instance : Decidable (Steady cover payload params) := by
  unfold Steady
  infer_instance

end Steady

section Kept

variable {cover : RgbImage} {payload : Bytes} {params : EmbedParams}

/-- **No luminance moves by more than its stir.** -/
theorem shiftedLum_within (cover : RgbImage) (payload : Bytes) (params : EmbedParams) :
    Within (stirs cover payload params) (lumOf cover) (shiftedLum cover payload params) := by
  intro px
  rcases Nat.lt_or_ge px (cover.width * cover.height) with hpx | hpx
  · have hchunk := RgbImage.chunks_getElem? cover.raw px (by rw [cover.raw_length]; omega)
    simp only [List.getD_eq_getElem?_getD, shiftedLum, stirs, List.getElem?_map,
      List.getElem?_range hpx, lumOf, RgbImage.pixels, hchunk, Option.map_some, Option.getD_some,
      add_sub_cancel_left]
    refine (abs_add_three _ _ _).trans (le_of_eq ?_)
    rw [abs_mul, abs_mul, abs_mul, abs_of_nonneg (show (0 : ℚ) ≤ 0.299 by norm_num),
      abs_of_nonneg (show (0 : ℚ) ≤ 0.587 by norm_num),
      abs_of_nonneg (show (0 : ℚ) ≤ 0.114 by norm_num)]
  · have hnone : ∀ {lum : List ℚ}, lum.length = cover.width * cover.height → lum[px]? = none :=
      fun hlen => List.getElem?_eq_none (hlen ▸ hpx)
    rw [List.getD_eq_getElem?_getD, List.getD_eq_getElem?_getD, List.getD_eq_getElem?_getD,
      hnone (lumOf_length cover), hnone (by simp [shiftedLum]), hnone (by simp [stirs]),
      Option.getD_none, sub_self, abs_zero]
    norm_num

/-- The magnitudes of the stego image stay within the sways of the cover's. -/
theorem magnitude_within (px : Nat) :
    magnitude cover px - sway cover payload params px
        ≤ (sobelMap cover.width cover.height (shiftedLum cover payload params)).getD px 0
      ∧ (sobelMap cover.width cover.height (shiftedLum cover payload params)).getD px 0
        ≤ magnitude cover px + sway cover payload params px := by
  have hwithin := abs_le.mp (sobelMap_within (shiftedLum_within cover payload params)
    cover.width cover.height px)
  rw [magnitude, sway]
  constructor <;> linarith

/-- The order of the technique, in terms of `Ahead`. -/
theorem pixelBefore_iff {lum : List ℚ} {w h i j : Nat} :
    PixelBefore id (sobelMap w h lum) i j ↔ i < w * h ∧ j < w * h
      ∧ Ahead ((sobelMap w h lum).getD · 0) ((sobelMap w h lum).getD · 0) i j := by
  have hentry : ∀ {px : Nat} {q : ℚ}, (sobelMap w h lum)[px]? = some q ↔
      px < w * h ∧ (sobelMap w h lum).getD px 0 = q := by
    intro px q
    rw [List.getD_eq_getElem?_getD, ← sobelMap_length w h lum]
    constructor
    · intro hq
      exact ⟨(List.getElem?_eq_some_iff.mp hq).1, by rw [hq]; rfl⟩
    · rintro ⟨hlt, rfl⟩
      rw [List.getElem?_eq_getElem hlt]
      rfl
  simp only [PixelBefore, Ahead, hentry, id_eq]
  constructor
  · rintro ⟨_, _, ⟨hi, rfl⟩, ⟨hj, rfl⟩, hij⟩
    exact ⟨hi, hj, hij⟩
  · rintro ⟨hi, hj, hij⟩
    exact ⟨_, _, ⟨hi, rfl⟩, ⟨hj, rfl⟩, hij⟩

/-- **On a steady cover the frame is read in the order it was written in.** -/
theorem readOrder_take (h : Steady cover payload params) :
    (readOrder cover payload params).take (frameBits payload).length
      = (writeOrder cover params).take (frameBits payload).length := by
  have hwrite := priorityOrder_arranges
    (linearBy_rat (sobelMap cover.width cover.height (lumOf cover))) params
  have hread := priorityOrder_arranges
    (linearBy_rat (sobelMap cover.width cover.height (shiftedLum cover payload params))) params
  rw [sobelMap_length] at hwrite hread
  refine hwrite.take_eq hread _ fun a ha b hb hab => ?_
  rcases hab with hpx | hsame
  · -- the pixels stay in order
    obtain ⟨ha', hb', hahead⟩ := pixelBefore_iff.mp hpx
    have hkept : Ahead
        ((sobelMap cover.width cover.height (shiftedLum cover payload params)).getD · 0)
        ((sobelMap cover.width cover.height (shiftedLum cover payload params)).getD · 0)
        (a / 3) (b / 3) :=
      (h a ha (b / 3) hb' hahead).of_bounds (magnitude_within (a / 3)).1
        (magnitude_within (b / 3)).2
    exact Or.inl (pixelBefore_iff.mpr ⟨ha', hb', hkept⟩)
  · exact Or.inr hsame

end Kept

/-! ## Covers that are steady for every payload -/

section Spread

variable (cover : RgbImage) (payload : Bytes) (params : EmbedParams)

/-- A sample moves by one bit of its plane at most. -/
theorem abs_sampleShift_le (s : Nat) :
    |sampleShift cover payload params s| ≤ 2 ^ params.bitPlane.toNat := by
  have hpow : (0 : ℚ) ≤ 2 ^ params.bitPlane.toNat := by positivity
  have hone : ∀ {a b : UInt8}, Bits.IsBit a → Bits.IsBit b →
      |(a.toNat : ℚ) - (b.toNat : ℚ)| ≤ 1 := by
    rintro a b (rfl | rfl) (rfl | rfl) <;> simp
  rw [sampleShift, abs_mul, abs_of_nonneg hpow]
  calc _ ≤ 1 * (2 : ℚ) ^ params.bitPlane.toNat :=
        mul_le_mul_of_nonneg_right (hone (isBit_intendedBit s) (Bits.isBit_get _ _)) hpow
    _ = 2 ^ params.bitPlane.toNat := one_mul _

/-- And so does a luminance, the weights being shares of one. -/
theorem stirs_le (px : Nat) :
    (stirs cover payload params).getD px 0.0 ≤ 2 ^ params.bitPlane.toNat := by
  rcases Nat.lt_or_ge px (cover.width * cover.height) with hpx | hpx
  · simp only [List.getD_eq_getElem?_getD, stirs, List.getElem?_map, List.getElem?_range hpx,
      Option.map_some, Option.getD_some]
    have hred := abs_sampleShift_le cover payload params (3 * px)
    have hgreen := abs_sampleShift_le cover payload params (3 * px + 1)
    have hblue := abs_sampleShift_le cover payload params (3 * px + 2)
    linarith
  · rw [List.getD_eq_getElem?_getD, List.getElem?_eq_none (by simpa [stirs] using hpx),
      Option.getD_none]
    have hpow : (0 : ℚ) ≤ 2 ^ params.bitPlane.toNat := by positivity
    linarith

/-- The magnitude of a border pixel is zero, and stays so. -/
theorem magnitude_border {px : Nat} (hborder : ¬ Inner cover.width cover.height px) :
    magnitude cover px = 0 ∧ sway cover payload params px = 0 := by
  simp only [magnitude, sway, sobelMap, swayMap, List.getD_eq_getElem?_getD, List.getElem?_map]
  rcases Nat.lt_or_ge px (cover.width * cover.height) with hpx | hpx
  · rw [List.getElem?_range hpx]
    simp only [Option.map_some, Option.getD_some, if_neg hborder]
    norm_num
  · rw [List.getElem?_eq_none (by rwa [List.length_range])]
    simp

/-- **No magnitude moves by more than twelve bits of the plane.** -/
theorem sway_le (px : Nat) :
    sway cover payload params px ≤ 12 * 2 ^ params.bitPlane.toNat := by
  by_cases hinner : Inner cover.width cover.height px
  · have hpx : px < cover.width * cover.height := by
      obtain ⟨-, hx, -, hy⟩ := hinner
      rw [Nat.mul_comm]
      exact (Nat.div_lt_iff_lt_mul (by omega)).mp (by omega)
    have hnear : ∀ dx dy, lumNear (stirs cover payload params) cover.width (px % cover.width)
        (px / cover.width) dx dy ≤ 2 ^ params.bitPlane.toNat :=
      fun dx dy => stirs_le cover payload params _
    have hdiagonals := max_le (add_le_add (hnear (-1) (-1)) (hnear 1 1))
      (add_le_add (hnear 1 (-1)) (hnear (-1) 1))
    have hn := hnear 0 (-1)
    have hw := hnear (-1) 0
    have he := hnear 1 0
    have hs := hnear 0 1
    simp only [sway, swayMap, List.getD_eq_getElem?_getD, List.getElem?_map,
      List.getElem?_range hpx, Option.map_some, Option.getD_some, if_pos hinner]
    rw [sobelSway]
    linarith
  · rw [(magnitude_border cover payload params hinner).2]
    positivity

/-- The magnitudes inside are further from each other, and from zero, than a plane moves them. -/
def Spread (cover : RgbImage) (plane : Nat) : Prop :=
  ∀ i < cover.width * cover.height, Inner cover.width cover.height i →
    12 * 2 ^ plane < magnitude cover i
      ∧ ∀ j < cover.width * cover.height, Inner cover.width cover.height j → i ≠ j →
          24 * 2 ^ plane < |magnitude cover i - magnitude cover j|

instance (cover : RgbImage) (plane : Nat) : Decidable (Spread cover plane) := by
  unfold Spread
  infer_instance

variable {cover payload params}

/-- **Spread covers are steady**, whatever is embedded. -/
theorem Spread.steady (h : Spread cover params.bitPlane.toNat) : Steady cover payload params := by
  intro s hs px hpx hahead
  have hpow : (0 : ℚ) < 2 ^ params.bitPlane.toNat := by positivity
  have hpixel : s / 3 < cover.width * cover.height := by
    have hsample := (mem_edgeOrder.mp (List.mem_of_mem_take hs)).1
    omega
  have hsway := sway_le cover payload params (s / 3)
  have hsway' := sway_le cover payload params px
  by_cases hinner : Inner cover.width cover.height (s / 3)
  · obtain ⟨hzero, hfar⟩ := h _ hpixel hinner
    refine Or.inl ?_
    dsimp only
    by_cases hinner' : Inner cover.width cover.height px
    · -- both inside: they are apart, so the one in front has the larger magnitude
      rcases hahead with hlt | ⟨hsame, hindex⟩
      · have happart := hfar px hpx hinner' (by rintro rfl; exact lt_irrefl _ hlt)
        rw [abs_of_pos (sub_pos.mpr hlt)] at happart
        linarith
      · have happart := hfar px hpx hinner' (Nat.ne_of_lt hindex)
        rw [hsame, sub_self, abs_zero] at happart
        linarith
    · obtain ⟨hmag, hstill⟩ := magnitude_border cover payload params hinner'
      rw [hmag, hstill]
      linarith
  · obtain ⟨hmag, hstill⟩ := magnitude_border cover payload params hinner
    by_cases hinner' : Inner cover.width cover.height px
    · -- no pixel inside is behind one of the border
      obtain ⟨hzero, -⟩ := h px hpx hinner'
      rcases hahead with hlt | ⟨hsame, -⟩
      · linarith
      · linarith
    · obtain ⟨hmag', hstill'⟩ := magnitude_border cover payload params hinner'
      rcases hahead with hlt | ⟨-, hindex⟩
      · linarith
      · refine Or.inr ⟨?_, hindex⟩
        dsimp only
        rw [hmag, hstill, hmag', hstill']
        norm_num

end Spread

/--
**The edge-adaptive technique round-trips on steady covers.**

On covers with positive sides and fewer than `2 ^ 31` pixels, in the two planes
the parameters use.
-/
theorem edge_roundTrip_of_steady (cover : RgbImage) (payload : Bytes) (params : EmbedParams)
    (hw : 1 ≤ cover.width) (hh : 1 ≤ cover.height) (harea : cover.width * cover.height < 2 ^ 31)
    (hplane : params.bitPlane ≤ 1) (hlen : payload.length < 2 ^ 32)
    (hsteady : Steady cover payload params) (stego : RgbImage)
    (hembed : EdgeAdaptiveLsb.embed ℚ cover payload params = .ok stego) :
    EdgeAdaptiveLsb.extract ℚ stego payload.length params = .ok payload := by
  have hsafe := edgeSafe_of_lt hw hh harea
  have hp : params.bitPlane.toNat < 8 :=
    show (planeOf .edgeAdaptiveLsb params).toNat < 8 from
      planeOf_lt (UInt8.le_trans hplane (by decide))
  obtain ⟨hfits, rfl⟩ := (edge_embed_eq_ok hsafe hp hlen).mp hembed
  exact (edge_extract_eq_ok hsafe hp hlen hfits).mpr (orderKept_of_take (readOrder_take hsteady))

theorem edge_roundTrip_of_steady_ramp : ∃ stego,
    EdgeAdaptiveLsb.embed ℚ rampCover [0xA5] plainParams = .ok stego
      ∧ stego.raw ≠ rampCover.raw
      ∧ EdgeAdaptiveLsb.extract ℚ stego 1 plainParams = .ok [0xA5] := by
  have hembed : EdgeAdaptiveLsb.embed ℚ rampCover [0xA5] plainParams
      = .ok (edgeStego rampCover [0xA5] plainParams) :=
    (edge_embed_eq_ok (by decide) (by decide) (by decide)).mpr ⟨by decide +kernel, rfl⟩
  exact ⟨_, hembed, by decide +kernel, edge_roundTrip_of_steady rampCover [0xA5] plainParams
    (by decide) (by decide) (by decide) (by decide) (by decide) (by decide +kernel) _ hembed⟩

/-- A white picture of four by four pixels. -/
def whiteCover : RgbImage where
  width := 4
  height := 4
  raw := List.replicate 48 255
  width_lt := by decide
  height_lt := by decide
  raw_length := by decide
  raw_lt := by decide

/--
Hiding one zero byte in a white picture darkens pixels whose neighbours had no
edge before, and the extractor starts with those.
-/
theorem edge_roundTrip_fails : ¬ ∀ (cover : RgbImage) (payload : Bytes) (params : EmbedParams)
    (stego : RgbImage), 1 ≤ cover.width → 1 ≤ cover.height →
    cover.width * cover.height < 2 ^ 31 → 1 ≤ params.channels.activeCount →
    params.bitPlane ≤ 1 → payload.length < 2 ^ 32 →
    EdgeAdaptiveLsb.embed ℚ cover payload params = .ok stego →
    EdgeAdaptiveLsb.extract ℚ stego payload.length params = .ok payload := by
  intro h
  have hembed : EdgeAdaptiveLsb.embed ℚ whiteCover [0] plainParams
      = .ok (edgeStego whiteCover [0] plainParams) := by
    decide +kernel
  have hextract : EdgeAdaptiveLsb.extract ℚ (edgeStego whiteCover [0] plainParams) 1 plainParams
      = .error (.err .malformedImage) := by
    decide +kernel
  have hok := h whiteCover [0] plainParams _ (by decide) (by decide) (by decide) (by decide)
    (by decide) (by decide) hembed
  cases hextract.symm.trans hok

end Stegosafe.Proof
