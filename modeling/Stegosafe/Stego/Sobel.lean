import Mathlib.Data.Rat.Defs
import Mathlib.Algebra.Order.Ring.Unbundled.Rat
import Stegosafe.Lib.Scatter
import Stegosafe.Stego.Image

/-!
# Edge strength

The two Sobel passes of the crate, over any type with the operations they use:
`computeEdgeMap`, which the edge-adaptive technique sorts by, and
`computeEdgeDensity`, which the selector reads. `ℚ` is the exact instance.

Coordinates are 32-bit words and indices 64-bit ones, so every sum and product
may panic. `edgeMapOf_eq` says on which dimensions none does, and what the map is
there: zero on the border, the Sobel magnitude inside.
-/

namespace Stegosafe

open Checked Outcome

/-- The operations on `f32` the Sobel code uses. -/
class Scalar (F : Type) extends Add F, Sub F, Neg F, Mul F, Div F, OfScientific F where
  /-- An integer `as f32`. -/
  ofInt : Int → F
  abs : F → F
  /-- `a > b`. -/
  gt : F → F → Bool
  partialCmp : F → F → Option Ordering

/-- Exact arithmetic. -/
instance : Scalar ℚ where
  ofInt z := z
  abs q := if q < 0 then -q else q
  gt a b := decide (b < a)
  partialCmp a b := some (if a < b then .lt else if b < a then .gt else .eq)

variable {F : Type} [Scalar F]

/-- Convert an RGB triple to a scalar luminance value. -/
def luminance (r g b : UInt8) : F :=
  0.299 * Scalar.ofInt r.toNat + 0.587 * Scalar.ofInt g.toNat + 0.114 * Scalar.ofInt b.toNat

/-- The luminance of every pixel, row by row. -/
def lumOf (img : RgbImage) : List F := img.pixels.map fun p => luminance p.1 p.2.1 p.2.2

/-- The neighbour of pixel `(x, y)` at offset `(dx, dy)`. -/
def lumAt (lum : List F) (w x y : Nat) (dx dy : Int) : Outcome StegoError F := do
  let row ← addSigned 32 (toSigned 32 y) dy
  let start ← mul 64 (toUnsigned 64 row) w
  let col ← addSigned 32 (toSigned 32 x) dx
  let i ← add 64 start (toUnsigned 64 col)
  index lum i

/-- The Sobel magnitude at `(x, y)`: the Manhattan norm of the two kernels. -/
def sobelAt (lum : List F) (w x y : Nat) : Outcome StegoError F := do
  let gx := -(← lumAt lum w x y (-1) (-1)) + (← lumAt lum w x y 1 (-1))
    + -2.0 * (← lumAt lum w x y (-1) 0)
    + 2.0 * (← lumAt lum w x y 1 0)
    + -(← lumAt lum w x y (-1) 1)
    + (← lumAt lum w x y 1 1)
  let gy := -(← lumAt lum w x y (-1) (-1)) - 2.0 * (← lumAt lum w x y 0 (-1))
    - (← lumAt lum w x y 1 (-1))
    + (← lumAt lum w x y (-1) 1)
    + 2.0 * (← lumAt lum w x y 0 1)
    + (← lumAt lum w x y 1 1)
  .ok (Scalar.abs gx + Scalar.abs gy)

/-- The loops of `computeEdgeMap`, over precomputed luminances. -/
def edgeMapOf (w h : Nat) (lum : List F) : Outcome StegoError (List F) := do
  let size ← mul 32 w h
  let hEnd ← sub h 1
  (List.range' 1 (hEnd - 1)).foldlM (fun magnitudes y => do
    -- the bound of the inner loop, computed anew in every row
    let wEnd ← sub w 1
    (List.range' 1 (wEnd - 1)).foldlM (fun magnitudes x => do
      let magnitude ← sobelAt lum w x y
      let row ← mul 32 y w
      let i ← add 32 row x
      store magnitudes i magnitude) magnitudes) (List.replicate size 0.0)

/-- Compute per-pixel Sobel edge magnitude. Border pixels are assigned magnitude 0.0. -/
def computeEdgeMap (img : RgbImage) : Outcome StegoError (List F) :=
  edgeMapOf img.width img.height (lumOf img)

/-- `get_luma`, the selector's own luminance lookup. -/
def getLuma (img : RgbImage) (x y : Nat) : Outcome StegoError F := do
  let row ← mul 32 y img.width
  let px ← add 32 row x
  let idx ← mul 64 px 3
  let r ← index img.raw idx
  let g ← index img.raw (← add 64 idx 1)
  let b ← index img.raw (← add 64 idx 2)
  .ok (0.299 * Scalar.ofInt r.toNat + 0.587 * Scalar.ofInt g.toNat
    + 0.114 * Scalar.ofInt b.toNat)

/-- The selector's Sobel magnitude at `(x, y)`. -/
def densityMagnitude (img : RgbImage) (x y : Nat) : Outcome StegoError F := do
  let p00 ← getLuma img (← sub x 1) (← sub y 1)
  let p10 ← getLuma img x (← sub y 1)
  let p20 ← getLuma img (← add 32 x 1) (← sub y 1)
  let p01 ← getLuma img (← sub x 1) y
  let p21 ← getLuma img (← add 32 x 1) y
  let p02 ← getLuma img (← sub x 1) (← add 32 y 1)
  let p12 ← getLuma img x (← add 32 y 1)
  let p22 ← getLuma img (← add 32 x 1) (← add 32 y 1)
  let gx : F := p20 - p00 + 2.0 * p21 - 2.0 * p01 + p22 - p02
  let gy : F := p02 - p00 + 2.0 * p12 - 2.0 * p10 + p22 - p20
  .ok (Scalar.abs gx + Scalar.abs gy)

variable (F) in
/-- The share of pixels whose Sobel magnitude exceeds 30. -/
def computeEdgeDensity (img : RgbImage) : Outcome StegoError F := do
  let w := img.width
  let h := img.height
  if w < 3 ∨ h < 3 then
    .ok 0.0
  else do
    let totalPixels ← mul 32 w h
    let hEnd ← sub h 1
    let highEdgeCount ← (List.range' 1 (hEnd - 1)).foldlM (fun highEdgeCount y => do
      let wEnd ← sub w 1
      (List.range' 1 (wEnd - 1)).foldlM (fun highEdgeCount x => do
        let magnitude : F ← densityMagnitude img x y
        if Scalar.gt magnitude 30.0 then
          addSigned 32 highEdgeCount 1
        else
          .ok highEdgeCount) highEdgeCount) 0
    .ok (Scalar.ofInt highEdgeCount / Scalar.ofInt totalPixels)

/-! ## The map on the dimensions where nothing overflows -/

/-- The dimensions on which the loops of `computeEdgeMap` stay inside their integer types. -/
def EdgeSafe (w h : Nat) : Prop := w * h < 2 ^ 32 ∧ 1 ≤ h ∧ (1 ≤ w ∨ h ≤ 2)

instance (w h : Nat) : Decidable (EdgeSafe w h) := by
  unfold EdgeSafe
  infer_instance

/-- The neighbour lookup without its checks. -/
def lumNear (lum : List F) (w x y : Nat) (dx dy : Int) : F :=
  lum.getD ((y + dy).toNat * w + (x + dx).toNat) 0.0

/-- The Sobel magnitude of pixel `(x, y)`. -/
def sobelMag (lum : List F) (w x y : Nat) : F :=
  Scalar.abs (-lumNear lum w x y (-1) (-1) + lumNear lum w x y 1 (-1)
      + -2.0 * lumNear lum w x y (-1) 0 + 2.0 * lumNear lum w x y 1 0
      + -lumNear lum w x y (-1) 1 + lumNear lum w x y 1 1)
    + Scalar.abs (-lumNear lum w x y (-1) (-1) - 2.0 * lumNear lum w x y 0 (-1)
      - lumNear lum w x y 1 (-1) + lumNear lum w x y (-1) 1
      + 2.0 * lumNear lum w x y 0 1 + lumNear lum w x y 1 1)

/-- The pixel at index `i` is neither in the first nor in the last row or column. -/
def Inner (w h i : Nat) : Prop := 1 ≤ i % w ∧ i % w + 1 < w ∧ 1 ≤ i / w ∧ i / w + 1 < h

instance (w h i : Nat) : Decidable (Inner w h i) := by
  unfold Inner
  infer_instance

/-- The edge map: zero on the border, the Sobel magnitude inside. -/
def sobelMap (w h : Nat) (lum : List F) : List F :=
  (List.range (w * h)).map fun i => if Inner w h i then sobelMag lum w (i % w) (i / w) else 0.0

@[simp] theorem sobelMap_length (w h : Nat) (lum : List F) :
    (sobelMap w h lum).length = w * h := by simp [sobelMap]

/-- Inside, a neighbour's coordinates fit their words and its index fits the buffer. -/
theorem lumAt_eq {lum : List F} {w h x y : Nat} {dx dy : Int} (hlen : lum.length = w * h)
    (harea : w * h < 2 ^ 32) (hx : 1 ≤ x ∧ x + 1 < w) (hy : 1 ≤ y ∧ y + 1 < h)
    (hdx : -1 ≤ dx ∧ dx ≤ 1) (hdy : -1 ≤ dy ∧ dy ≤ 1) :
    lumAt lum w x y dx dy = .ok (lumNear lum w x y dx dy) := by
  have hw : w * 3 ≤ w * h := Nat.mul_le_mul_left w (by omega)
  have hh : 3 * h ≤ w * h := Nat.mul_le_mul_right h (by omega)
  obtain ⟨r, hr⟩ : ∃ r : Nat, (y : Int) + dy = r := ⟨(y + dy).toNat, by omega⟩
  obtain ⟨c, hc⟩ : ∃ c : Nat, (x : Int) + dx = c := ⟨(x + dx).toNat, by omega⟩
  -- the neighbour's row is a whole row of the buffer
  have hrow : r * w + w ≤ w * h := by
    calc r * w + w = w * (r + 1) := by rw [Nat.mul_comm r w, Nat.mul_succ]
      _ ≤ w * h := Nat.mul_le_mul_left w (by omega)
  have hi : r * w + c < lum.length := by omega
  rw [lumAt, toSigned_of_lt (by omega), toSigned_of_lt (by omega),
    addSigned_of_bounds (by omega) (by omega), ok_bind, hr, toUnsigned_natCast,
    mul_of_lt (by omega), ok_bind, addSigned_of_bounds (by omega) (by omega), ok_bind, hc,
    toUnsigned_natCast, add_of_lt (by omega), ok_bind, index_of_lt hi, lumNear, hr, hc,
    Int.toNat_natCast, Int.toNat_natCast, List.getD_eq_getElem?_getD,
    List.getElem?_eq_getElem hi, Option.getD_some]

theorem sobelAt_eq {lum : List F} {w h x y : Nat} (hlen : lum.length = w * h)
    (harea : w * h < 2 ^ 32) (hx : 1 ≤ x ∧ x + 1 < w) (hy : 1 ≤ y ∧ y + 1 < h) :
    sobelAt lum w x y = .ok (sobelMag lum w x y) := by
  have near : ∀ dx dy : Int, -1 ≤ dx ∧ dx ≤ 1 → -1 ≤ dy ∧ dy ≤ 1 →
      lumAt lum w x y dx dy = .ok (lumNear lum w x y dx dy) :=
    fun dx dy hdx hdy => lumAt_eq hlen harea hx hy hdx hdy
  simp only [sobelAt, near (-1) (-1) (by omega) (by omega), near 1 (-1) (by omega) (by omega),
    near (-1) 0 (by omega) (by omega), near 1 0 (by omega) (by omega),
    near (-1) 1 (by omega) (by omega), near 1 1 (by omega) (by omega),
    near 0 (-1) (by omega) (by omega), near 0 1 (by omega) (by omega), ok_bind]
  rfl

/-- The pixels the inner loop visits in row `y`. -/
theorem mem_inner {n k : Nat} (h : k ∈ List.range' 1 (n - 1 - 1)) : 1 ≤ k ∧ k + 1 < n := by
  rw [List.mem_range'_1] at h
  omega

/-- One row of the map, in place. -/
theorem edgeRow_eq {lum : List F} {w h y : Nat} (hlen : lum.length = w * h)
    (harea : w * h < 2 ^ 32) (hy : 1 ≤ y ∧ y + 1 < h) {magnitudes : List F}
    (hm : magnitudes.length = w * h) :
    (List.range' 1 (w - 1 - 1)).foldlM (fun magnitudes x => do
        let magnitude ← sobelAt lum w x y
        let row ← mul 32 y w
        let i ← add 32 row x
        store magnitudes i magnitude) magnitudes
      = .ok ((List.range' 1 (w - 1 - 1)).foldl
          (fun magnitudes x => magnitudes.set (y * w + x) (sobelMag lum w x y)) magnitudes)
    ∧ ((List.range' 1 (w - 1 - 1)).foldl
        (fun magnitudes x => magnitudes.set (y * w + x) (sobelMag lum w x y)) magnitudes).length
        = w * h := by
  refine foldlM_eq_ok (fun m : List F => m.length = w * h) hm fun m hm x hx => ⟨?_, by simpa⟩
  have hx' := mem_inner hx
  have hrow : y * w + w ≤ w * h := by
    calc y * w + w = w * (y + 1) := by rw [Nat.mul_comm y w, Nat.mul_succ]
      _ ≤ w * h := Nat.mul_le_mul_left w (by omega)
  rw [sobelAt_eq hlen harea hx' hy, ok_bind, mul_of_lt (by omega), ok_bind,
    add_of_lt (by omega), ok_bind, store_of_lt (by omega)]

/-- The pixels the loops visit, in order. -/
def innerPixels (w h : Nat) : List (Nat × Nat) :=
  (List.range' 1 (h - 1 - 1)).flatMap fun y => (List.range' 1 (w - 1 - 1)).map fun x => (x, y)

theorem mem_innerPixels {w h : Nat} {p : Nat × Nat} :
    p ∈ innerPixels w h ↔ (1 ≤ p.1 ∧ p.1 + 1 < w) ∧ (1 ≤ p.2 ∧ p.2 + 1 < h) := by
  obtain ⟨x, y⟩ := p
  simp only [innerPixels, List.mem_flatMap, List.mem_map, List.mem_range'_1, Prod.mk.injEq]
  constructor
  · intro h
    obtain ⟨y', hy, x', hx, rfl, rfl⟩ := h
    omega
  · intro h
    obtain ⟨hx, hy⟩ := h
    exact ⟨y, by omega, x, by omega, rfl, rfl⟩

/-- The index of pixel `(x, y)` determines the pixel. -/
theorem pixelIndex {w x y : Nat} (hx : x < w) : (y * w + x) % w = x ∧ (y * w + x) / w = y := by
  have hw : 0 < w := by omega
  rw [Nat.mul_comm, Nat.mul_add_mod, Nat.mod_eq_of_lt hx, Nat.mul_add_div hw,
    Nat.div_eq_of_lt hx]
  simp

/-- The indices the loops write are those of the inner pixels. -/
theorem mem_innerIndices {w h i : Nat} :
    i ∈ (innerPixels w h).map (fun p => p.2 * w + p.1) ↔ Inner w h i := by
  rw [List.mem_map]
  constructor
  · intro h
    obtain ⟨p, hp, rfl⟩ := h
    obtain ⟨hx, hy⟩ := mem_innerPixels.mp hp
    obtain ⟨hmod, hdiv⟩ := pixelIndex (y := p.2) (show p.1 < w by omega)
    rw [Inner, hmod, hdiv]
    exact ⟨hx.1, hx.2, hy⟩
  · intro h
    obtain ⟨hx1, hx2, hy⟩ := h
    refine ⟨(i % w, i / w), mem_innerPixels.mpr ⟨⟨hx1, hx2⟩, hy⟩, ?_⟩
    rw [Nat.mul_comm]
    exact Nat.div_add_mod i w

/-- **On safe dimensions the loops never panic, and compute the edge map.** -/
theorem edgeMapOf_eq {lum : List F} {w h : Nat} (hlen : lum.length = w * h)
    (hsafe : EdgeSafe w h) : edgeMapOf w h lum = .ok (sobelMap w h lum) := by
  obtain ⟨harea, hh, hw⟩ := hsafe
  have hloop := (foldlM_eq_ok (ε := StegoError) (fun m : List F => m.length = w * h)
    (f := fun magnitudes y => do
      let wEnd ← sub w 1
      (List.range' 1 (wEnd - 1)).foldlM (fun magnitudes x => do
        let magnitude ← sobelAt lum w x y
        let row ← mul 32 y w
        let i ← add 32 row x
        store magnitudes i magnitude) magnitudes)
    (g := fun magnitudes y => (List.range' 1 (w - 1 - 1)).foldl
      (fun magnitudes x => magnitudes.set (y * w + x) (sobelMag lum w x y)) magnitudes)
    (l := List.range' 1 (h - 1 - 1)) (b := List.replicate (w * h) 0.0)
    (by simp) fun m hm y hy => by
      have hy' := mem_inner hy
      rw [sub_of_le (by omega), ok_bind]
      exact edgeRow_eq hlen harea hy' hm).1
  rw [edgeMapOf, mul_of_lt harea, ok_bind, sub_of_le hh, ok_bind, hloop]
  -- the two nested folds are one over the inner pixels, whose stores hit different entries
  refine congrArg Except.ok (List.ext_getElem? fun i => ?_)
  have hflat : (List.range' 1 (h - 1 - 1)).foldl (fun magnitudes y =>
        (List.range' 1 (w - 1 - 1)).foldl
          (fun magnitudes x => magnitudes.set (y * w + x) (sobelMag lum w x y)) magnitudes)
        (List.replicate (w * h) 0.0)
      = (innerPixels w h).foldl (fun magnitudes p =>
          magnitudes.set (p.2 * w + p.1) (sobelMag lum w p.1 p.2))
          (List.replicate (w * h) 0.0) := by
    simp only [innerPixels, List.foldl_flatMap, List.foldl_map]
  rw [hflat, Scatter.foldl_set_getElem? fun i => sobelMag lum w (i % w) (i / w)]
  · simp only [mem_innerIndices, sobelMap, List.getElem?_map, List.getElem?_replicate]
    by_cases hi : i < w * h <;> by_cases hin : Inner w h i <;> simp [hi, hin]
  · intro p hp
    obtain ⟨⟨-, hx⟩, -⟩ := mem_innerPixels.mp hp
    obtain ⟨hmod, hdiv⟩ := pixelIndex (y := p.2) (show p.1 < w by omega)
    rw [hmod, hdiv]

/-- **On all other dimensions they panic.** -/
theorem edgeMapOf_unsafe {lum : List F} {w h : Nat} (hsafe : ¬ EdgeSafe w h) :
    edgeMapOf w h lum = .error (.panic .overflow) := by
  unfold edgeMapOf
  by_cases harea : w * h < 2 ^ 32
  · rw [mul_of_lt harea, ok_bind]
    by_cases hh : 1 ≤ h
    · -- only zero columns under at least three rows are left: the first row underflows
      have hw : ¬ 1 ≤ w ∧ ¬ h ≤ 2 := by
        constructor <;> intro hc <;> exact hsafe ⟨harea, hh, by tauto⟩
      obtain ⟨k, hk⟩ : ∃ k, h - 1 - 1 = k + 1 := ⟨h - 3, by omega⟩
      rw [sub_of_le hh, ok_bind, hk, List.range'_succ, List.foldlM_cons, sub, if_neg hw.1]
      rfl
    · rw [sub, if_neg hh]
      rfl
  · rw [mul, if_neg harea]
    rfl

theorem lumOf_length (img : RgbImage) : (lumOf img : List F).length = img.width * img.height := by
  simp [lumOf]

/-- `computeEdgeMap` on the images whose dimensions are safe. -/
theorem computeEdgeMap_eq {img : RgbImage} (hsafe : EdgeSafe img.width img.height) :
    (computeEdgeMap img : Outcome StegoError (List F))
      = .ok (sobelMap img.width img.height (lumOf img)) :=
  edgeMapOf_eq (lumOf_length img) hsafe

/-- The map, whenever there is one, has an entry for every pixel. -/
theorem computeEdgeMap_ok {img : RgbImage} {edgeMap : List F}
    (h : computeEdgeMap img = .ok edgeMap) :
    EdgeSafe img.width img.height ∧ edgeMap = sobelMap img.width img.height (lumOf img) := by
  by_cases hsafe : EdgeSafe img.width img.height
  · rw [computeEdgeMap_eq hsafe] at h
    cases h
    exact ⟨hsafe, rfl⟩
  · rw [computeEdgeMap, edgeMapOf_unsafe hsafe] at h
    cases h

/-- Images of positive sides and fewer than `2 ^ 31` pixels are safe. -/
theorem edgeSafe_of_lt {w h : Nat} (hw : 1 ≤ w) (hh : 1 ≤ h) (harea : w * h < 2 ^ 31) :
    EdgeSafe w h := ⟨by omega, hh, Or.inl hw⟩

end Stegosafe
