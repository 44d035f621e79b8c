import Stegosafe.Stego.Techniques

/-!
# Technique selection and the engine

The selector picks a technique from a seed and the cover's edge density; the
engine embeds with the technique picked, and extracts with the technique named.
-/

namespace Stegosafe

open Checked Outcome Text

section Selection

variable {F : Type} [Scalar F]

/-- The techniques a cover of the given edge density is eligible for. -/
def candidates (edgeDensity : F) : List TechniqueId :=
  [.lsbSequential, .lsbRandomHmac]
    ++ if Scalar.gt edgeDensity 0.15 then [.edgeAdaptiveLsb] else []

theorem candidates_pos (edgeDensity : F) : 0 < (candidates edgeDensity).length := by
  simp [candidates]

/-- Select a technique deterministically. -/
def selectTechnique (hmac : Hmac) (techniqueSeed : Key) (edgeDensity : F) : TechniqueId :=
  let hash := hmac techniqueSeed.toList (utf8 "stegosafe-technique-select-v1")
  let selector := hash[0]
  (candidates edgeDensity).get
    ⟨selector.toNat % (candidates edgeDensity).length, Nat.mod_lt _ (candidates_pos edgeDensity)⟩

end Selection

/-- What the engine reports about an embedding. -/
structure EmbedResult where
  techniqueName : String
  paramsMeta : EmbedParamsMeta
  deriving DecidableEq, Repr

/-- The registered techniques. -/
structure StegoEngine where
  techniques : TechniqueId → Option EmbeddingTechnique

namespace StegoEngine

variable (F : Type) [Scalar F] (hmac : Hmac)

/-- `insert`. -/
def register (engine : StegoEngine) (id : TechniqueId) (technique : EmbeddingTechnique) :
    StegoEngine :=
  ⟨fun other => if other = id then some technique else engine.techniques other⟩

/-- An engine with the three techniques registered. -/
def new : StegoEngine :=
  ((StegoEngine.mk fun _ => none).register .lsbSequential LsbSequential.technique
    |>.register .lsbRandomHmac (LsbRandomHmac.technique hmac)
    |>.register .edgeAdaptiveLsb (EdgeAdaptiveLsb.technique F))

def embed (engine : StegoEngine) (cover : DynamicImage) (payload : Bytes)
    (techniqueSeed paramSeed : Key) : Outcome StegoError (DynamicImage × EmbedResult) := do
  let rgb := cover.toRgb8
  let params := randomizeParams hmac paramSeed
  let edgeDensity ← computeEdgeDensity F rgb
  let techniqueId := selectTechnique hmac techniqueSeed edgeDensity
  let technique ← okOr (engine.techniques techniqueId)
    (.internalError "technique not registered")
  let resultRgb ← technique.embed rgb payload params
  .ok (.imageRgb8 resultRgb, { techniqueName := techniqueId.name, paramsMeta := params.toMeta })

def extract (engine : StegoEngine) (stego : DynamicImage) (techniqueName : String)
    (params : EmbedParams) (expectedLen : Nat) : Outcome StegoError Bytes := do
  let techniqueId ← okOr (TechniqueId.fromName techniqueName) (.unsupportedTechnique techniqueName)
  let technique ← okOr (engine.techniques techniqueId) (.unsupportedTechnique techniqueName)
  let rgb := stego.toRgb8
  technique.extract rgb expectedLen params

/-- The technique registered under an identifier. -/
def techniqueOf : TechniqueId → EmbeddingTechnique
  | .lsbSequential => LsbSequential.technique
  | .lsbRandomHmac => LsbRandomHmac.technique hmac
  | .edgeAdaptiveLsb => EdgeAdaptiveLsb.technique F

/-- Every technique is registered. -/
theorem new_techniques (id : TechniqueId) :
    (new F hmac).techniques id = some (techniqueOf F hmac id) := by
  cases id <;> rfl

end StegoEngine

end Stegosafe
