import Stegosafe.Lib.Text
import Stegosafe.Stego.Image

/-!
# Embedding parameters

The parameters of an embedding, in the rich form the techniques use and in the
form the metadata file stores, and their derivation from a seed.

HMAC-SHA-256 is a parameter: any function from a key and a message to 32 bytes.
-/

namespace Stegosafe

open Text

/-- HMAC-SHA-256, as a function of key and message. -/
abbrev Hmac := Bytes → Bytes → Key

/-- Selects which colour channels participate in embedding. -/
structure ChannelMask where
  red : Bool
  green : Bool
  blue : Bool
  deriving DecidableEq, Repr

namespace ChannelMask

/-- All three channels active. -/
def all : ChannelMask := ⟨true, true, true⟩

/-- Number of active channels. -/
def activeCount (mask : ChannelMask) : Nat :=
  mask.red.toNat + mask.green.toNat + mask.blue.toNat

/-- Whether the channel at `channelOffset` (mod 3: 0=R, 1=G, 2=B) is active. -/
def includesChannel (mask : ChannelMask) (channelOffset : Nat) : Bool :=
  match channelOffset % 3 with
  | 0 => mask.red
  | 1 => mask.green
  | _ => mask.blue

/-- Serialise to a compact tag such as `"rgb"`, `"rg"`, `"b"`. -/
def toTag (mask : ChannelMask) : String :=
  (if mask.red then "r" else "") ++ (if mask.green then "g" else "")
    ++ (if mask.blue then "b" else "")

/-- Parse from a tag string; `none` if the tag would result in zero active channels. -/
def fromTag (s : String) : Option ChannelMask :=
  let mask : ChannelMask :=
    { red := s.toList.contains 'r'
      green := s.toList.contains 'g'
      blue := s.toList.contains 'b' }
  if mask.activeCount = 0 then none else some mask

theorem activeCount_le (mask : ChannelMask) : mask.activeCount ≤ 3 := by
  have hle : ∀ b : Bool, b.toNat ≤ 1 := Bool.toNat_le
  have hr := hle mask.red
  have hg := hle mask.green
  have hb := hle mask.blue
  unfold activeCount
  omega

/-- A tag reads back as the mask it was written from. -/
theorem fromTag_toTag {mask : ChannelMask} (h : mask.activeCount ≠ 0) :
    fromTag mask.toTag = some mask := by
  obtain ⟨r, g, b⟩ := mask
  cases r <;> cases g <;> cases b <;> first | rfl | exact absurd rfl h

/-- `fromTag` looks for letters anywhere, so a longer tag is accepted too. -/
theorem fromTag_append {s : String} {mask : ChannelMask} (h : fromTag s = some mask) (t : String) :
    ∃ mask', fromTag (s ++ t) = some mask' := by
  simp only [fromTag, Option.ite_none_left_eq_some] at h
  obtain ⟨hactive, -⟩ := h
  refine ⟨_, if_neg fun hzero => hactive ?_⟩
  simp only [activeCount, String.toList_append, List.contains_append] at hzero ⊢
  have mono : ∀ a b : Bool, a.toNat ≤ (a || b).toNat := by decide
  have hr := mono (s.toList.contains 'r') (t.toList.contains 'r')
  have hg := mono (s.toList.contains 'g') (t.toList.contains 'g')
  have hb := mono (s.toList.contains 'b') (t.toList.contains 'b')
  omega

end ChannelMask

/-- Serialisable subset of `EmbedParams` stored in the metadata file. -/
structure EmbedParamsMeta where
  channels : String
  bitPlane : UInt8
  deriving DecidableEq, Repr

/-- Embedding parameters carrying the full key material. -/
structure EmbedParams where
  channels : ChannelMask
  bitPlane : UInt8
  placementKey : Key
  deriving DecidableEq

namespace EmbedParams

/-- Convert to the serialisable metadata variant. -/
def toMeta (params : EmbedParams) : EmbedParamsMeta :=
  { channels := params.channels.toTag, bitPlane := params.bitPlane }

/-- Reconstruct from serialised metadata plus the placement key. -/
def fromMeta (pm : EmbedParamsMeta) (placementKey : Key) : Option EmbedParams := do
  let channels ← ChannelMask.fromTag pm.channels
  if pm.bitPlane > 1 then
    none
  else
    some { channels := channels, bitPlane := pm.bitPlane, placementKey := placementKey }

/-- Backward-compatible defaults: all channels, LSB, with the given key. -/
def legacy (placementKey : Key) : EmbedParams :=
  { channels := .all, bitPlane := 0, placementKey := placementKey }

/-- What metadata `fromMeta` accepts, and what it makes of it. -/
theorem fromMeta_eq_some {pm : EmbedParamsMeta} {key : Key} {params : EmbedParams} :
    fromMeta pm key = some params ↔
      ChannelMask.fromTag pm.channels = some params.channels ∧ pm.bitPlane ≤ 1
        ∧ params.bitPlane = pm.bitPlane ∧ params.placementKey = key := by
  obtain ⟨channels, bitPlane, placementKey⟩ := params
  unfold fromMeta
  cases ChannelMask.fromTag pm.channels with
  | none => simp
  | some mask =>
    by_cases h : pm.bitPlane > 1
    · have : ¬ pm.bitPlane ≤ 1 := UInt8.not_le.mpr h
      simp [h, this]
    · have : pm.bitPlane ≤ 1 := UInt8.not_lt.mp h
      simp [h, this, eq_comm]

end EmbedParams

section Derivation

variable (hmac : Hmac)

/-- The seven valid channel combinations. -/
def channelCombos : Vector (Bool × Bool × Bool) 7 :=
  #v[(true, false, false), (false, true, false), (false, false, true), (true, true, false),
    (true, false, true), (false, true, true), (true, true, true)]

/-- Derive embedding parameters deterministically from `paramSeed`. -/
def randomizeParams (paramSeed : Key) : EmbedParams :=
  let chHash := hmac paramSeed.toList (utf8 "stegosafe-param-channels-v1")
  let chIdx := (chHash.get 0).toNat % 7
  let rgb := channelCombos.get ⟨chIdx, Nat.mod_lt _ (by decide)⟩
  let channels : ChannelMask := { red := rgb.1, green := rgb.2.1, blue := rgb.2.2 }
  let bpHash := hmac paramSeed.toList (utf8 "stegosafe-param-bitplane-v1")
  let bitPlane : UInt8 := if bpHash.get 0 < 204 then 0 else 1
  let placementKey := hmac paramSeed.toList (utf8 "stegosafe-param-placement-v1")
  { channels := channels, bitPlane := bitPlane, placementKey := placementKey }

/-- Derive the placement key from `paramSeed`. -/
def derivePlacementKey (paramSeed : Key) : Key :=
  hmac paramSeed.toList (utf8 "stegosafe-param-placement-v1")

theorem randomizeParams_active (paramSeed : Key) :
    (randomizeParams hmac paramSeed).channels.activeCount ≠ 0 := by
  have key : ∀ i : Fin 7, ChannelMask.activeCount
      ⟨(channelCombos.get i).1, (channelCombos.get i).2.1, (channelCombos.get i).2.2⟩ ≠ 0 := by
    decide
  exact key _

theorem randomizeParams_bitPlane (paramSeed : Key) :
    (randomizeParams hmac paramSeed).bitPlane ≤ 1 := by
  simp only [randomizeParams]
  split <;> decide

/-- **The stored form of the derived parameters is enough to rebuild them.** -/
theorem fromMeta_randomizeParams (paramSeed : Key) :
    EmbedParams.fromMeta (randomizeParams hmac paramSeed).toMeta (derivePlacementKey hmac paramSeed)
      = some (randomizeParams hmac paramSeed) := by
  rw [EmbedParams.fromMeta_eq_some]
  exact ⟨ChannelMask.fromTag_toTag (randomizeParams_active hmac paramSeed),
    randomizeParams_bitPlane hmac paramSeed, rfl, rfl⟩

end Derivation

end Stegosafe
