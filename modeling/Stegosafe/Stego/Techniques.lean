import Stegosafe.Lib.Sort
import Stegosafe.Stego.Params
import Stegosafe.Stego.Sobel
import Stegosafe.Stego.Util

/-!
# The three embedding techniques

Each technique turns the image dimensions, the parameters and, for the
edge-adaptive one, the picture itself into an ordered list of sample positions,
and hides a framed payload in one bit plane along that list.

The sequential and the edge-adaptive technique differ in the list only;
`embedAlong` and `extractAlong` are their common bodies. The keyed technique cuts
its list to the frame's size and refuses there, so it keeps its own.
-/

namespace Stegosafe

open Checked Outcome Text

/-- Identifies a specific embedding technique. -/
inductive TechniqueId where
  | lsbSequential
  | lsbRandomHmac
  | edgeAdaptiveLsb
  deriving DecidableEq, Repr

namespace TechniqueId

/-- Stable string name stored in metadata. -/
def name : TechniqueId → String
  | lsbSequential => "lsb-sequential-v1"
  | lsbRandomHmac => "lsb-random-hmac-v1"
  | edgeAdaptiveLsb => "edge-adaptive-lsb-v1"

/-- Parse a technique name back into a `TechniqueId`. -/
def fromName (name : String) : Option TechniqueId :=
  if name = "lsb-sequential-v1" then some lsbSequential
  else if name = "lsb-random-hmac-v1" then some lsbRandomHmac
  else if name = "edge-adaptive-lsb-v1" then some edgeAdaptiveLsb
  else none

theorem fromName_eq_some {s : String} {id : TechniqueId} : fromName s = some id ↔ s = id.name := by
  constructor
  · intro h
    unfold fromName at h
    split at h
    · cases h; assumption
    · split at h
      · cases h; assumption
      · split at h
        · cases h; assumption
        · cases h
  · intro h
    subst h
    cases id <;> decide

end TechniqueId

/-- Overwrite an image's buffer by a call that keeps its length. -/
def RgbImage.rewrite (img : RgbImage) (write : Bytes → Outcome StegoError Bytes)
    (h : ∀ raw raw', write raw = .ok raw' → raw'.length = raw.length) :
    Outcome StegoError RgbImage :=
  match hw : write img.raw with
  | .ok raw => .ok (img.withRaw raw (h _ _ hw))
  | .error e => .error e

/-- Write `framed` into a copy of `cover`, along `positions`. -/
def writeFrame (cover : RgbImage) (positions : List Nat) (framed : Bytes) (bitPlane : UInt8) :
    Outcome StegoError RgbImage :=
  cover.rewrite (fun raw => writeBitsAtPositions raw positions framed bitPlane)
    fun _ _ h => writeBitsAtPositions_length h

/-- The body of `embed` once the positions are known. -/
def embedAlong (cover : RgbImage) (payload : Bytes) (positions : List Nat) (bitPlane : UInt8) :
    Outcome StegoError RgbImage := do
  let framed := framePayload payload
  let neededBits ← mul 64 framed.length 8
  if positions.length < neededBits then
    fail .payloadTooLarge
  else
    writeFrame cover positions framed bitPlane

/-- The body of `extract` once the positions are known. -/
def extractAlong (stego : RgbImage) (expectedLen : Nat) (positions : List Nat)
    (bitPlane : UInt8) : Outcome StegoError Bytes := do
  let totalBytes ← add 64 expectedLen 4
  let data ← readBitsAtPositions stego.raw positions totalBytes bitPlane
  validateFrame data expectedLen

/-- A steganographic embedding / extraction algorithm. -/
structure EmbeddingTechnique where
  id : TechniqueId
  capacity : Nat → Nat → EmbedParams → Outcome StegoError Nat
  embed : RgbImage → Bytes → EmbedParams → Outcome StegoError RgbImage
  extract : RgbImage → Nat → EmbedParams → Outcome StegoError Bytes

/-! ## Sequential LSB -/

namespace LsbSequential

/-- The ordered list of channel-byte positions that participate in embedding. -/
def positions (width height : Nat) (params : EmbedParams) : Outcome StegoError (List Nat) := do
  let area ← mul 64 width height
  let totalChannels ← mul 64 area 3
  .ok ((List.range totalChannels).filter fun i => params.channels.includesChannel (i % 3))

def capacity (width height : Nat) (params : EmbedParams) : Outcome StegoError Nat := do
  let ps ← positions width height params
  let usableBytes := ps.length / 8
  .ok (usableBytes - 4)

def embed (cover : RgbImage) (payload : Bytes) (params : EmbedParams) :
    Outcome StegoError RgbImage := do
  let ps ← positions cover.width cover.height params
  embedAlong cover payload ps params.bitPlane

def extract (stego : RgbImage) (expectedLen : Nat) (params : EmbedParams) :
    Outcome StegoError Bytes := do
  let ps ← positions stego.width stego.height params
  extractAlong stego expectedLen ps params.bitPlane

/-- The technique object. -/
def technique : EmbeddingTechnique := ⟨.lsbSequential, capacity, embed, extract⟩

end LsbSequential

/-! ## Keyed random placement -/

namespace LsbRandomHmac

section Keyed

variable (hmac : Hmac)

/-- The positions with their scores, in index order. -/
def scored (key : Key) (channelCount : Nat) : List (Key × Nat) :=
  (List.range channelCount).map fun index =>
    (hmac key.toList (utf8 "stegosafe-placement-v1:" ++ Words.toBe 8 index), index)

/-- By score, then by index. -/
def compareScored (a b : Key × Nat) : Ordering :=
  match compare a.1.toList b.1.toList with
  | .eq => compare a.2 b.2
  | other => other

/-- Generate HMAC-scored placement positions. -/
def placementPositions (key : Key) (channelCount needed : Nat) : Outcome StegoError (List Nat) :=
  if channelCount < needed then
    fail .payloadTooLarge
  else
    .ok (((Sorting.sortBy compareScored (scored hmac key channelCount)).take needed).map Prod.snd)

def capacity (width height : Nat) (_params : EmbedParams) : Outcome StegoError Nat := do
  let area ← mul 64 width height
  let channelCount ← mul 64 area 3
  let usableBytes := channelCount / 8
  .ok (usableBytes - 4)

def embed (cover : RgbImage) (payload : Bytes) (params : EmbedParams) :
    Outcome StegoError RgbImage := do
  let area ← mul 64 cover.width cover.height
  let channelCount ← mul 64 area 3
  let framed := framePayload payload
  let neededBits ← mul 64 framed.length 8
  let ps ← placementPositions hmac params.placementKey channelCount neededBits
  -- bit plane 0, whatever the parameters say
  writeFrame cover ps framed 0

def extract (stego : RgbImage) (expectedLen : Nat) (params : EmbedParams) :
    Outcome StegoError Bytes := do
  let area ← mul 64 stego.width stego.height
  let channelCount ← mul 64 area 3
  let totalBytes ← add 64 expectedLen 4
  let neededBits ← mul 64 totalBytes 8
  let ps ← placementPositions hmac params.placementKey channelCount neededBits
  let data ← readBitsAtPositions stego.raw ps totalBytes 0
  validateFrame data expectedLen

/-- The technique object. -/
def technique : EmbeddingTechnique := ⟨.lsbRandomHmac, capacity, embed hmac, extract hmac⟩

end Keyed

end LsbRandomHmac

/-! ## Edge-adaptive LSB -/

namespace EdgeAdaptiveLsb

section Edges

variable {F : Type} [Scalar F]

/-- By descending magnitude, then by ascending pixel index. -/
def comparePriority (a b : F × Nat) : Ordering :=
  ((Scalar.partialCmp b.1 a.1).getD .eq).then (compare a.2 b.2)

/-- The channel positions of one pixel that the mask includes. -/
def pixelPositions (channels : ChannelMask) (px : Nat) : List Nat :=
  let base := px * 3
  ((List.range 3).filter fun ch => channels.includesChannel ch).map fun ch => base + ch

/--
The channel-byte positions sorted by descending edge magnitude of the owning
pixel, with ties broken by ascending pixel index.
-/
def priorityPositions (edgeMap : List F) (width height : Nat) (params : EmbedParams) :
    Outcome StegoError (List Nat) := do
  let pixelCount ← mul 64 width height
  let priority := (edgeMap.zipIdx.take pixelCount).map fun mi => (mi.1, mi.2 % 2 ^ 32)
  -- the capacity the result is allocated with
  let _ ← mul 64 pixelCount params.channels.activeCount
  .ok ((Sorting.sortBy comparePriority priority).flatMap fun mp =>
    pixelPositions params.channels mp.2)

def capacity (width height : Nat) (params : EmbedParams) : Outcome StegoError Nat := do
  let pixelCount ← mul 64 width height
  let usableChannels ← mul 64 pixelCount params.channels.activeCount
  let usableBytes := usableChannels / 8
  .ok (usableBytes - 4)

variable (F)

def embed (cover : RgbImage) (payload : Bytes) (params : EmbedParams) :
    Outcome StegoError RgbImage := do
  let edgeMap : List F ← computeEdgeMap cover
  let ps ← priorityPositions edgeMap cover.width cover.height params
  embedAlong cover payload ps params.bitPlane

def extract (stego : RgbImage) (expectedLen : Nat) (params : EmbedParams) :
    Outcome StegoError Bytes := do
  let edgeMap : List F ← computeEdgeMap stego
  let ps ← priorityPositions edgeMap stego.width stego.height params
  extractAlong stego expectedLen ps params.bitPlane

/-- The technique object. -/
def technique : EmbeddingTechnique := ⟨.edgeAdaptiveLsb, capacity, embed F, extract F⟩

end Edges

end EdgeAdaptiveLsb

end Stegosafe
