import Stegosafe.Lib.Checked

/-!
# Images and the errors of the stego crate

`RgbImage` is an image buffer of three bytes a pixel, row by row. Its fields carry
what the type promises: the sides are 32-bit, the buffer holds exactly the pixels,
and a buffer never exceeds what an allocation may hold.
-/

namespace Stegosafe

open Checked

/-- `&[u8]` and `Vec<u8>`. -/
abbrev Bytes := List UInt8

/-- `[u8; 32]`. -/
abbrev Key := Vector UInt8 32

/-- `stegosafe_stego::StegoError`. -/
inductive StegoError where
  | payloadTooLarge
  | malformedImage
  | invalidParams (reason : String)
  | unsupportedTechnique (name : String)
  | internalError (reason : String)
  deriving DecidableEq, Repr

/-- `image::RgbImage`. -/
structure RgbImage where
  width : Nat
  height : Nat
  raw : Bytes
  width_lt : width < 2 ^ 32
  height_lt : height < 2 ^ 32
  raw_length : raw.length = width * height * 3
  raw_lt : raw.length < 2 ^ 63
  deriving DecidableEq

namespace RgbImage

theorem ext {a b : RgbImage} (hw : a.width = b.width) (hh : a.height = b.height)
    (hr : a.raw = b.raw) : a = b := by
  cases a; cases b; cases hw; cases hh; cases hr; rfl

/-- The image with its buffer replaced by one of the same length. -/
def withRaw (img : RgbImage) (raw : Bytes) (h : raw.length = img.raw.length) : RgbImage where
  width := img.width
  height := img.height
  raw := raw
  width_lt := img.width_lt
  height_lt := img.height_lt
  raw_length := h.trans img.raw_length
  raw_lt := h ▸ img.raw_lt

/-- A buffer cut into pixels. -/
def chunks : Bytes → List (UInt8 × UInt8 × UInt8)
  | r :: g :: b :: rest => (r, g, b) :: chunks rest
  | _ => []

/-- `pixels()`. -/
def pixels (img : RgbImage) : List (UInt8 × UInt8 × UInt8) := chunks img.raw

theorem chunks_length : ∀ {n : Nat} {raw : Bytes}, raw.length = n * 3 → (chunks raw).length = n
  | 0, [], _ => rfl
  | n + 1, r :: g :: b :: rest, h => by
      rw [chunks, List.length_cons, chunks_length (n := n) (by simpa [Nat.succ_mul] using h)]
  | 0, _ :: _, h => by simp at h
  | n + 1, [], h => by simp at h
  | n + 1, [_], h => by simp only [List.length_cons, List.length_nil] at h; omega
  | n + 1, [_, _], h => by simp only [List.length_cons, List.length_nil] at h; omega

theorem chunks_getElem? : ∀ (raw : Bytes) (p : Nat), 3 * p + 2 < raw.length →
    (chunks raw)[p]? = some (raw.getD (3 * p) 0, raw.getD (3 * p + 1) 0, raw.getD (3 * p + 2) 0)
  | r :: g :: b :: rest, 0, _ => by simp [chunks]
  | r :: g :: b :: rest, p + 1, h => by
      rw [chunks, List.getElem?_cons_succ, chunks_getElem? rest p (by simp at h; omega)]
      simp [show 3 * (p + 1) = 3 * p + 1 + 1 + 1 by omega]
  | [], p, h => by simp at h
  | [_], p, h => by simp at h
  | [_, _], p, h => by simp only [List.length_cons, List.length_nil] at h; omega

@[simp] theorem pixels_length (img : RgbImage) : img.pixels.length = img.width * img.height :=
  chunks_length img.raw_length

theorem area_lt (img : RgbImage) : img.width * img.height < 2 ^ 63 := by
  have h := img.raw_lt
  rw [img.raw_length] at h
  omega

end RgbImage

/--
`image::DynamicImage`: an image of any colour type.

A picture that is not RGB8 enters the program only through its RGB8 conversion,
which is what the second case holds.
-/
inductive DynamicImage where
  | imageRgb8 (img : RgbImage)
  | other (converted : RgbImage)
  deriving DecidableEq

/-- `to_rgb8`. -/
def DynamicImage.toRgb8 : DynamicImage → RgbImage
  | imageRgb8 img => img
  | other converted => converted

end Stegosafe
