import Mathlib.Tactic.Linarith
import Stegosafe.Proof.Lengths

/-!
# The two Sobel passes

The selector walks the raw buffer with absolute coordinates, the edge-adaptive
technique a luminance table with signed offsets. On the dimensions where their
32-bit arithmetic is exact both look up the same pixels, and in exact arithmetic
they compute the same magnitudes, so the density counts what the map shows.

What can go wrong is the arithmetic: the map's loops need a row and a column to
subtract one from, the products need 32 bits, and the counter, whose type nobody
wrote down, needs 31.
-/

namespace Stegosafe.Proof

open Stegosafe Checked Outcome

section Density

variable {F : Type} [Scalar F]

/-- The luminance of a pixel, as the table has it. -/
theorem lumOf_getElem? {img : RgbImage} {i : Nat} (hi : i < img.width * img.height) :
    (lumOf img : List F)[i]? = some (luminance (img.raw.getD (3 * i) 0)
      (img.raw.getD (3 * i + 1) 0) (img.raw.getD (3 * i + 2) 0)) := by
  have hraw := img.raw_length
  rw [lumOf, List.getElem?_map, RgbImage.pixels,
    RgbImage.chunks_getElem? img.raw i (by omega), Option.map_some]

theorem pixelIndex_lt {w h x y : Nat} (hx : x < w) (hy : y < h) : y * w + x < w * h := by
  have hrow : y * w + w ≤ w * h := by
    calc y * w + w = w * (y + 1) := by rw [Nat.mul_comm y w, Nat.mul_succ]
      _ ≤ w * h := Nat.mul_le_mul_left w hy
  omega

/-- The selector's lookup reads the table's entry of the same pixel. -/
theorem getLuma_eq {img : RgbImage} {x y : Nat} (harea : img.width * img.height < 2 ^ 32)
    (hx : x < img.width) (hy : y < img.height) :
    getLuma img x y = .ok ((lumOf img : List F).getD (y * img.width + x) 0.0) := by
  have hi := pixelIndex_lt hx hy
  have hraw := img.raw_length
  have hlum := lumOf_getElem? (F := F) hi
  have hindex : ∀ j, j < img.raw.length →
      (index img.raw j : Outcome StegoError UInt8) = .ok (img.raw.getD j 0) := by
    intro j hj
    rw [index_of_lt hj, List.getD_eq_getElem?_getD, List.getElem?_eq_getElem hj,
      Option.getD_some]
  have hcomm := Nat.mul_comm (y * img.width + x) 3
  rw [List.getD_eq_getElem?_getD, hlum, Option.getD_some, getLuma, mul_of_lt (by omega), ok_bind,
    add_of_lt (by omega), ok_bind, mul_of_lt (by omega), ok_bind, hindex _ (by omega), ok_bind,
    add_of_lt (by omega), ok_bind, hindex _ (by omega), ok_bind, add_of_lt (by omega), ok_bind,
    hindex _ (by omega), ok_bind, hcomm]
  rfl

/-- The selector's magnitude of pixel `(x, y)`, from the table. -/
def densityMag (lum : List F) (w x y : Nat) : F :=
  Scalar.abs (lumNear lum w x y 1 (-1) - lumNear lum w x y (-1) (-1)
      + 2.0 * lumNear lum w x y 1 0 - 2.0 * lumNear lum w x y (-1) 0
      + lumNear lum w x y 1 1 - lumNear lum w x y (-1) 1)
    + Scalar.abs (lumNear lum w x y (-1) 1 - lumNear lum w x y (-1) (-1)
      + 2.0 * lumNear lum w x y 0 1 - 2.0 * lumNear lum w x y 0 (-1)
      + lumNear lum w x y 1 1 - lumNear lum w x y 1 (-1))

/-- Inside, the selector's neighbours are those at the signed offsets. -/
theorem densityMagnitude_eq {img : RgbImage} {x y : Nat}
    (harea : img.width * img.height < 2 ^ 32) (hx : 1 ≤ x ∧ x + 1 < img.width)
    (hy : 1 ≤ y ∧ y + 1 < img.height) :
    densityMagnitude img x y = .ok (densityMag (lumOf img : List F) img.width x y) := by
  have luma : ∀ (x' y' : Nat) (dx dy : Int), x' < img.width → y' < img.height →
      (x' : Int) = x + dx → (y' : Int) = y + dy →
      getLuma img x' y' = .ok (lumNear (lumOf img : List F) img.width x y dx dy) := by
    intro x' y' dx dy hx' hy' hdx hdy
    rw [getLuma_eq harea hx' hy', lumNear, ← hdx, ← hdy, Int.toNat_natCast, Int.toNat_natCast]
  have hw := img.width_lt
  have hh := img.height_lt
  simp only [densityMagnitude, sub_of_le hx.1, sub_of_le hy.1,
    add_of_lt (show x + 1 < 2 ^ 32 by omega), add_of_lt (show y + 1 < 2 ^ 32 by omega), ok_bind,
    luma (x - 1) (y - 1) (-1) (-1) (by omega) (by omega) (by omega) (by omega),
    luma x (y - 1) 0 (-1) (by omega) (by omega) (by omega) (by omega),
    luma (x + 1) (y - 1) 1 (-1) (by omega) (by omega) (by omega) (by omega),
    luma (x - 1) y (-1) 0 (by omega) (by omega) (by omega) (by omega),
    luma (x + 1) y 1 0 (by omega) (by omega) (by omega) (by omega),
    luma (x - 1) (y + 1) (-1) 1 (by omega) (by omega) (by omega) (by omega),
    luma x (y + 1) 0 1 (by omega) (by omega) (by omega) (by omega),
    luma (x + 1) (y + 1) 1 1 (by omega) (by omega) (by omega) (by omega)]
  rfl

variable (F) in
/-- How many pixels off the border have a Sobel magnitude above 30. -/
def strongEdges (img : RgbImage) : Nat :=
  (innerPixels img.width img.height).countP fun p =>
    Scalar.gt (densityMag (lumOf img : List F) img.width p.1 p.2) 30.0

theorem innerPixels_eq_nil {w h : Nat} (hthin : w < 3 ∨ h < 3) : innerPixels w h = [] := by
  refine List.eq_nil_iff_forall_not_mem.mpr fun p hp => ?_
  have := mem_innerPixels.mp hp
  omega

theorem strongEdges_of_thin {img : RgbImage} (hthin : img.width < 3 ∨ img.height < 3) :
    strongEdges F img = 0 := by
  rw [strongEdges, innerPixels_eq_nil hthin, List.countP_nil]

variable (F) in
/-- One round of the selector's loops. -/
def countRound (img : RgbImage) (highEdgeCount : Int) (p : Nat × Nat) : Outcome StegoError Int := do
  let magnitude : F ← densityMagnitude img p.1 p.2
  if Scalar.gt magnitude 30.0 then
    addSigned 32 highEdgeCount 1
  else
    .ok highEdgeCount

/-- The rounds count the strong edges, as far as the counter goes. -/
theorem countRounds_eq {img : RgbImage} (harea : img.width * img.height < 2 ^ 32) :
    (innerPixels img.width img.height).foldlM (countRound F img) 0
      = if ((strongEdges F img : Nat) : Int) < 2 ^ 31 then .ok (strongEdges F img : Int)
        else abort .overflow := by
  have hround : ∀ n : Int, ∀ p ∈ innerPixels img.width img.height, countRound F img n p
      = if Scalar.gt (densityMag (lumOf img : List F) img.width p.1 p.2) 30.0 then addSigned 32 n 1
        else .ok n := by
    intro n p hp
    obtain ⟨hx, hy⟩ := mem_innerPixels.mp hp
    rw [countRound, densityMagnitude_eq harea hx hy, ok_bind]
  have hcount := foldlM_count (k := 0) hround (by omega)
  rwa [Nat.zero_add] at hcount

/-- **The density is the share of strong edges**, if their number fits the counter. -/
theorem computeEdgeDensity_eq {img : RgbImage} (hw : 3 ≤ img.width) (hh : 3 ≤ img.height)
    (harea : img.width * img.height < 2 ^ 32) :
    computeEdgeDensity F img
      = if strongEdges F img < 2 ^ 31 then
          .ok (Scalar.ofInt (strongEdges F img) / Scalar.ofInt (img.width * img.height : Nat))
        else abort .overflow := by
  -- the two loops are one over the inner pixels
  have hloops : computeEdgeDensity F img
      = ((innerPixels img.width img.height).foldlM (countRound F img) 0 >>= fun n =>
          .ok (Scalar.ofInt n / Scalar.ofInt (img.width * img.height : Nat))) := by
    rw [computeEdgeDensity, if_neg (by omega), mul_of_lt harea, ok_bind, sub_of_le (by omega),
      ok_bind]
    simp only [sub_of_le (show 1 ≤ img.width by omega), ok_bind, innerPixels, foldlM_flatMap,
      List.foldlM_map, countRound]
  rw [hloops, countRounds_eq harea]
  by_cases hfits : strongEdges F img < 2 ^ 31
  · rw [if_pos (by omega), if_pos hfits, ok_bind]
  · rw [if_neg (by omega), if_neg hfits]
    rfl

end Density

/-! ## The density counts what the map shows -/

/-- In exact arithmetic the selector's terms, reordered, are the technique's. -/
theorem densityMag_rat (lum : List ℚ) (w x y : Nat) :
    densityMag lum w x y = sobelMag lum w x y := by
  unfold densityMag sobelMag
  have hgx : lumNear lum w x y 1 (-1) - lumNear lum w x y (-1) (-1)
        + 2.0 * lumNear lum w x y 1 0 - 2.0 * lumNear lum w x y (-1) 0
        + lumNear lum w x y 1 1 - lumNear lum w x y (-1) 1
      = -lumNear lum w x y (-1) (-1) + lumNear lum w x y 1 (-1)
        + -2.0 * lumNear lum w x y (-1) 0 + 2.0 * lumNear lum w x y 1 0
        + -lumNear lum w x y (-1) 1 + lumNear lum w x y 1 1 := by linarith
  have hgy : lumNear lum w x y (-1) 1 - lumNear lum w x y (-1) (-1)
        + 2.0 * lumNear lum w x y 0 1 - 2.0 * lumNear lum w x y 0 (-1)
        + lumNear lum w x y 1 1 - lumNear lum w x y 1 (-1)
      = -lumNear lum w x y (-1) (-1) - 2.0 * lumNear lum w x y 0 (-1)
        - lumNear lum w x y 1 (-1) + lumNear lum w x y (-1) 1
        + 2.0 * lumNear lum w x y 0 1 + lumNear lum w x y 1 1 := by linarith
  exact congrArg₂ (fun gx gy => Scalar.abs gx + Scalar.abs gy) hgx hgy

theorem innerPixels_nodup (w h : Nat) : (innerPixels w h).Nodup := by
  rw [innerPixels, List.nodup_flatMap]
  constructor
  · intro y _
    have hrow : (List.range' 1 (w - 1 - 1)).Nodup := List.nodup_range'
    exact hrow.map fun _ _ h => (Prod.mk.inj h).1
  · have hrows : (List.range' 1 (h - 1 - 1)).Nodup := List.nodup_range'
    refine hrows.imp fun {y y'} hne p hp hp' => hne ?_
    obtain ⟨x, -, rfl⟩ := List.mem_map.mp hp
    obtain ⟨x', -, heq⟩ := List.mem_map.mp hp'
    exact (Prod.mk.inj heq).2.symm

/-- The loops visit every pixel off the border, once. -/
theorem innerIndices_perm (w h : Nat) :
    ((innerPixels w h).map fun p => p.2 * w + p.1).Perm
      ((List.range (w * h)).filter fun i => Inner w h i) := by
  have hinj : ∀ p ∈ innerPixels w h, ∀ q ∈ innerPixels w h,
      p.2 * w + p.1 = q.2 * w + q.1 → p = q := by
    intro p hp q hq heq
    obtain ⟨⟨-, hpx⟩, -⟩ := mem_innerPixels.mp hp
    obtain ⟨⟨-, hqx⟩, -⟩ := mem_innerPixels.mp hq
    obtain ⟨hpmod, hpdiv⟩ := pixelIndex (y := p.2) (show p.1 < w by omega)
    obtain ⟨hqmod, hqdiv⟩ := pixelIndex (y := q.2) (show q.1 < w by omega)
    rw [heq] at hpmod hpdiv
    exact Prod.ext (hpmod.symm.trans hqmod) (hpdiv.symm.trans hqdiv)
  refine (List.perm_ext_iff_of_nodup ((innerPixels_nodup w h).map_on hinj)
    (List.nodup_range.filter _)).mpr fun i => ?_
  rw [mem_innerIndices, List.mem_filter, List.mem_range, decide_eq_true_eq]
  constructor
  · intro hinner
    obtain ⟨hx, hx', hy, hy'⟩ := hinner
    refine ⟨?_, hx, hx', hy, hy'⟩
    have hi := pixelIndex_lt (show i % w < w by omega) (show i / w < h by omega)
    rwa [Nat.mul_comm, Nat.div_add_mod] at hi
  · intro h
    exact h.2

/-- **The strong edges are the map's entries above 30.** -/
theorem strongEdges_eq_countP (img : RgbImage) :
    strongEdges ℚ img
      = (sobelMap img.width img.height (lumOf img : List ℚ)).countP fun m => 30 < m := by
  have hgt : ∀ m : ℚ, Scalar.gt m 30.0 = decide (30 < m) := by
    intro m
    change decide ((30.0 : ℚ) < m) = _
    norm_num
  rw [sobelMap, List.countP_map, strongEdges]
  -- off the border both look at the same magnitude, on it the map has a zero
  have hentry : (fun m : ℚ => decide (30 < m)) ∘ (fun i =>
        if Inner img.width img.height i then
          sobelMag (lumOf img) img.width (i % img.width) (i / img.width)
        else 0.0)
      = fun i => decide (30 < sobelMag (lumOf img : List ℚ) img.width (i % img.width)
          (i / img.width)) && decide (Inner img.width img.height i) := by
    funext i
    by_cases hinner : Inner img.width img.height i
    · simp [hinner]
    · simp [hinner]
      norm_num
  rw [hentry, ← List.countP_filter, ← (innerIndices_perm _ _).countP_eq, List.countP_map]
  refine List.countP_congr fun p hp => ?_
  obtain ⟨⟨-, hx⟩, -⟩ := mem_innerPixels.mp hp
  obtain ⟨hmod, hdiv⟩ := pixelIndex (y := p.2) (show p.1 < img.width by omega)
  rw [hgt, densityMag_rat, Function.comp_apply, hmod, hdiv]

theorem strongEdges_le (img : RgbImage) : strongEdges ℚ img ≤ img.width * img.height := by
  rw [strongEdges_eq_countP]
  exact List.countP_le_length.trans (Nat.le_of_eq (sobelMap_length _ _ _))

/--
**The selector and the technique measure the same edges.**

Times the number of pixels, the density is the number of entries of the map above
30; both are zero on images with a side shorter than 3.
-/
theorem density_counts_map (img : RgbImage) (hwidth : 1 ≤ img.width) (hheight : 1 ≤ img.height)
    (harea : img.width * img.height < 2 ^ 31) :
    ∃ (density : ℚ) (edgeMap : List ℚ), computeEdgeDensity ℚ img = .ok density
      ∧ computeEdgeMap img = .ok edgeMap
      ∧ density * (img.width * img.height : Nat) = (edgeMap.countP fun m => 30 < m : Nat)
      ∧ (img.width < 3 ∨ img.height < 3 →
          density = 0 ∧ (edgeMap.countP fun m => 30 < m) = 0) := by
  have hmap := computeEdgeMap_eq (F := ℚ) (edgeSafe_of_lt hwidth hheight harea)
  by_cases hthin : img.width < 3 ∨ img.height < 3
  · -- the selector returns early, and the map has no inner pixels
    have hzero := strongEdges_of_thin (F := ℚ) hthin
    rw [strongEdges_eq_countP] at hzero
    refine ⟨0.0, _, ?_, hmap, ?_, fun _ => ⟨?_, hzero⟩⟩
    · rw [computeEdgeDensity, if_pos hthin]
    · rw [hzero]
      norm_num
    · norm_num
  · have hle := strongEdges_le img
    have hdensity : computeEdgeDensity ℚ img = _ :=
      computeEdgeDensity_eq (by omega) (by omega) (by omega)
    rw [if_pos (by omega)] at hdensity
    refine ⟨_, _, hdensity, hmap, ?_, fun h => absurd h hthin⟩
    rw [← strongEdges_eq_countP]
    have hpos : ((img.width * img.height : Nat) : ℚ) ≠ 0 := by
      have := Nat.mul_le_mul hwidth hheight
      exact Nat.cast_ne_zero.mpr (by omega)
    change ((strongEdges ℚ img : Int) : ℚ) / (((img.width * img.height : Nat) : Int) : ℚ)
      * ((img.width * img.height : Nat) : ℚ) = _
    rw [Int.cast_natCast, Int.cast_natCast, div_mul_cancel₀ _ hpos]

/-- Three of fifteen pixels are edges. -/
theorem density_counts_map_ramp : ∃ density : ℚ, computeEdgeDensity ℚ rampCover = .ok density
    ∧ density * 15 = 3 := by
  obtain ⟨density, edgeMap, hdensity, hmap, hcount, -⟩ :=
    density_counts_map rampCover (by decide) (by decide) (by decide)
  have hedges : (computeEdgeMap rampCover).map (fun m : List ℚ => m.countP fun m => 30 < m)
      = .ok 3 := by
    decide +kernel
  rw [hmap] at hedges
  have hthree : (edgeMap.countP fun m => 30 < m) = 3 := Except.ok.inj hedges
  rw [hthree] at hcount
  exact ⟨density, hdensity, hcount⟩

/-! ## Where both passes are safe -/

section Safety

variable (F : Type) [Scalar F] (hmac : Hmac)

/-- What the two passes owe their callers on an image. -/
structure SobelSafe (img : RgbImage) : Prop where
  /-- The map has an entry for every pixel: its magnitude, or zero on the border. -/
  map : ∃ edgeMap : List F, computeEdgeMap img = .ok edgeMap
    ∧ edgeMap.length = img.width * img.height
    ∧ ∀ x y, x < img.width → y < img.height → edgeMap[y * img.width + x]?
        = some (if 1 ≤ x ∧ x + 1 < img.width ∧ 1 ≤ y ∧ y + 1 < img.height then
            sobelMag (lumOf img) img.width x y else 0.0)
  /-- The technique looks up the luminance of the neighbour it means. -/
  near : ∀ x y, 1 ≤ x ∧ x + 1 < img.width → 1 ≤ y ∧ y + 1 < img.height →
    ∀ (dx dy : Int) (x' y' : Nat), -1 ≤ dx ∧ dx ≤ 1 → -1 ≤ dy ∧ dy ≤ 1 →
      (x' : Int) = x + dx → (y' : Int) = y + dy →
      ∃ l : F, (lumOf img)[y' * img.width + x']? = some l
        ∧ lumAt (lumOf img) img.width x y dx dy = .ok l
  /-- So does the selector. -/
  luma : ∀ x y, x < img.width → y < img.height →
    ∃ l : F, (lumOf img)[y * img.width + x]? = some l ∧ getLuma img x y = .ok l
  density : ∃ d, computeEdgeDensity F img = .ok d
  /-- Embedding a payload whose frame can be counted in bits ends without a panic. -/
  embeds : ∀ payload techniqueSeed paramSeed, (payload.length + 4) * 8 < 2 ^ 64 →
    Returns ((StegoEngine.new F hmac).embed F hmac (.imageRgb8 img) payload techniqueSeed paramSeed)
  /-- So does extracting one, with any technique. -/
  extracts : ∀ (id : TechniqueId) params n, params.bitPlane ≤ 7 → (n + 4) * 8 < 2 ^ 64 →
    Returns ((StegoEngine.new F hmac).extract (.imageRgb8 img) id.name params n)

variable {F hmac}

/-- Embedding with any technique returns, if its position list does. -/
theorem technique_embed_returns {id : TechniqueId} {cover : RgbImage} {payload : Bytes}
    {params : EmbedParams} (hp : (planeOf id params).toNat < 8)
    (hsafe : id = .edgeAdaptiveLsb → EdgeSafe cover.width cover.height)
    (hn : (payload.length + 4) * 8 < 2 ^ 64) :
    Returns ((StegoEngine.techniqueOf F hmac id).embed cover payload params) := by
  by_cases hfits : 8 * (payload.length + 4) ≤ usableSamples id cover params
  · obtain ⟨stego, hstego⟩ : ∃ stego,
        (StegoEngine.techniqueOf F hmac id).embed cover payload params = .ok stego :=
      (technique_embed_fits hp hsafe).mpr hfits
    rw [hstego]
    exact returns_ok stego
  · rw [technique_embed_tooLarge hsafe hn (by omega)]
    exact returns_fail _

/-- The density is there on safe dimensions, if the counter has room. -/
theorem computeEdgeDensity_ok {img : RgbImage} (hsafe : EdgeSafe img.width img.height)
    (hcount : strongEdges F img < 2 ^ 31) : ∃ d, computeEdgeDensity F img = .ok d := by
  by_cases hthin : img.width < 3 ∨ img.height < 3
  · exact ⟨0.0, by rw [computeEdgeDensity, if_pos hthin]⟩
  · rw [computeEdgeDensity_eq (by omega) (by omega) hsafe.1, if_pos hcount]
    exact ⟨_, rfl⟩

/-- Embedding draws its parameters itself, so it returns if the density does. -/
theorem engine_embed_returns {img : RgbImage} (hsafe : EdgeSafe img.width img.height)
    (hcount : strongEdges F img < 2 ^ 31) {payload : Bytes} (techniqueSeed paramSeed : Key)
    (hn : (payload.length + 4) * 8 < 2 ^ 64) :
    Returns ((StegoEngine.new F hmac).embed F hmac (.imageRgb8 img) payload techniqueSeed
      paramSeed) := by
  have hplane := UInt8.le_trans (randomizeParams_bitPlane hmac paramSeed)
    (show (1 : UInt8) ≤ 7 by decide)
  unfold StegoEngine.embed
  refine Returns.bind ?_ fun density _ => Returns.bind returns_okOr fun technique htech => ?_
  · obtain ⟨d, hd⟩ := computeEdgeDensity_ok hsafe hcount
    change Returns (computeEdgeDensity F img)
    rw [hd]
    exact returns_ok d
  · rw [StegoEngine.new_techniques, okOr_eq_ok, Option.some.injEq] at htech
    subst htech
    exact (technique_embed_returns (planeOf_lt hplane) (fun _ => hsafe) hn).bind
      fun _ _ => returns_ok _

/-- The entry of the map at a pixel's index is that pixel's. -/
theorem sobelMap_getElem? {w h x y : Nat} (lum : List F) (hx : x < w) (hy : y < h) :
    (sobelMap w h lum)[y * w + x]?
      = some (if 1 ≤ x ∧ x + 1 < w ∧ 1 ≤ y ∧ y + 1 < h then sobelMag lum w x y else 0.0) := by
  obtain ⟨hmod, hdiv⟩ := pixelIndex (y := y) hx
  have hinner : Inner w h (y * w + x) ↔ 1 ≤ x ∧ x + 1 < w ∧ 1 ≤ y ∧ y + 1 < h := by
    rw [Inner, hmod, hdiv]
  rw [sobelMap, List.getElem?_map, List.getElem?_range (pixelIndex_lt hx hy), Option.map_some]
  simp only [hinner, hmod, hdiv]

/--
**The Sobel passes are safe on exactly the images whose dimensions their arithmetic
can handle**, and whose strong edges fit the counter.
-/
theorem sobelSafe_iff (F : Type) [Scalar F] (hmac : Hmac) (img : RgbImage) :
    SobelSafe F hmac img ↔ EdgeSafe img.width img.height ∧ strongEdges F img < 2 ^ 31 := by
  constructor
  · intro h
    obtain ⟨edgeMap, hmap, -⟩ := h.map
    have hsafe := (computeEdgeMap_ok hmap).1
    refine ⟨hsafe, ?_⟩
    by_cases hthin : img.width < 3 ∨ img.height < 3
    · rw [strongEdges_of_thin hthin]
      omega
    · obtain ⟨d, hd⟩ := h.density
      rw [computeEdgeDensity_eq (by omega) (by omega) hsafe.1] at hd
      split at hd
      · assumption
      · cases hd
  · intro h
    obtain ⟨hsafe, hcount⟩ := h
    have hentry : ∀ {i : Nat}, i < img.width * img.height →
        (lumOf img : List F)[i]? = some ((lumOf img : List F).getD i 0.0) := by
      intro i hi
      rw [List.getD_eq_getElem?_getD, lumOf_getElem? hi, Option.getD_some]
    constructor
    case map =>
      exact ⟨_, computeEdgeMap_eq hsafe, sobelMap_length _ _ _,
        fun x y hx hy => sobelMap_getElem? _ hx hy⟩
    case near =>
      intro x y hx hy dx dy x' y' hdx hdy hx' hy'
      have hnear := lumAt_eq (lumOf_length (F := F) img) hsafe.1 hx hy hdx hdy
      rw [lumNear, ← hx', ← hy', Int.toNat_natCast, Int.toNat_natCast] at hnear
      exact ⟨_, hentry (pixelIndex_lt (by omega) (by omega)), hnear⟩
    case luma =>
      intro x y hx hy
      exact ⟨_, hentry (pixelIndex_lt hx hy), getLuma_eq hsafe.1 hx hy⟩
    case density => exact computeEdgeDensity_ok hsafe hcount
    case embeds =>
      intro payload techniqueSeed paramSeed hn
      exact engine_embed_returns hsafe hcount techniqueSeed paramSeed hn
    case extracts =>
      intro id params n hplane hn p
      rw [engine_extract_eq]
      exact technique_extract_ne_panic (planeOf_lt hplane) hn (fun _ => hsafe) p

end Safety

/-- No pixels at all. -/
def emptyImage : RgbImage where
  width := 0
  height := 0
  raw := []
  width_lt := by omega
  height_lt := by omega
  raw_length := rfl
  raw_lt := by
    rw [List.length_nil]
    omega

theorem emptyImage_panics :
    (computeEdgeMap emptyImage : Outcome StegoError (List ℚ)) = .error (.panic .overflow)
      ∧ (StegoEngine.new ℚ fun _ _ => Vector.replicate 32 0).extract (.imageRgb8 emptyImage)
          "edge-adaptive-lsb-v1" plainParams 0 = .error (.panic .overflow) := by
  have hunsafe : ¬ EdgeSafe emptyImage.width emptyImage.height := by decide
  constructor
  · exact edgeMapOf_unsafe hunsafe
  · exact (engine_extract_eq .edgeAdaptiveLsb _ _ _).trans
      (technique_extract_panic (Or.inr ⟨rfl, hunsafe⟩))

end Stegosafe.Proof
