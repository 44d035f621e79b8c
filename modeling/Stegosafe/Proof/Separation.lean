import Stegosafe.Lib.Alike
import Stegosafe.Proof.Reference

/-!
# One HMAC, two uses

Keyed placement and metadata authentication ask the same function, and for metadata of old
versions under the same key. Every question opens with a label, and none of the labels of
the engine opens with the one of the MAC. So the answers to the MAC's questions have no
bearing on anything else: with other answers there `embed` comes to its writes with the same
stego image and the same record but for the MAC, and `extract` finds the same plaintext, if
it accepts the record at all (`mac_separate`).
-/

namespace Stegosafe.Proof

open Stegosafe Checked Outcome Text

/-- What the input of a metadata MAC opens with. -/
def metadataLabel : Bytes := utf8 "stegosafe-metadata-v1\n"

/-- Two functions that agree on every input that does not open with the label. -/
def AgreeOutside (label : Bytes) (hmac hmac' : Hmac) : Prop :=
  ∀ key input, ¬ label <+: input → hmac' key input = hmac key input

/-- **The input of a MAC opens with its label**, whatever the record holds. -/
theorem metadataMacInput_label (metadata : Metadata) (context : String) (payload : Bytes) :
    metadataLabel <+: metadataMacInput metadata context payload := by
  simp only [metadataMacInput, metadataHeader, List.append_assoc]
  exact List.prefix_append _ _

section Engine

variable {F : Type} [Scalar F] {hmac hmac' : Hmac}

/-- A score's input opens with another label. -/
theorem scored_congr (h : AgreeOutside metadataLabel hmac hmac') (key : Key) (n : Nat) :
    LsbRandomHmac.scored hmac' key n = LsbRandomHmac.scored hmac key n := by
  refine List.map_congr_left fun index _ => ?_
  rw [h]
  intro hstarts
  -- the label is no longer than the one of the placement, so it would be a part of that
  have hlabel := List.prefix_of_prefix_length_le hstarts
    (List.prefix_append (utf8 "stegosafe-placement-v1:") (Words.toBe 8 index)) (by decide)
  exact absurd hlabel (by decide)

theorem randomizeParams_congr (h : AgreeOutside metadataLabel hmac hmac') (paramSeed : Key) :
    randomizeParams hmac' paramSeed = randomizeParams hmac paramSeed := by
  simp only [randomizeParams, h _ (utf8 "stegosafe-param-channels-v1") (by decide),
    h _ (utf8 "stegosafe-param-bitplane-v1") (by decide),
    h _ (utf8 "stegosafe-param-placement-v1") (by decide)]

theorem derivePlacementKey_congr (h : AgreeOutside metadataLabel hmac hmac') (paramSeed : Key) :
    derivePlacementKey hmac' paramSeed = derivePlacementKey hmac paramSeed :=
  h _ (utf8 "stegosafe-param-placement-v1") (by decide)

theorem selectTechnique_congr (h : AgreeOutside metadataLabel hmac hmac') (techniqueSeed : Key)
    (density : F) :
    selectTechnique hmac' techniqueSeed density = selectTechnique hmac techniqueSeed density := by
  simp only [selectTechnique, h _ (utf8 "stegosafe-technique-select-v1") (by decide)]

/-- **Keyed placement asks the function under its own label.** -/
theorem placementPositions_congr (h : AgreeOutside metadataLabel hmac hmac') (key : Key)
    (channelCount needed : Nat) :
    LsbRandomHmac.placementPositions hmac' key channelCount needed
      = LsbRandomHmac.placementPositions hmac key channelCount needed := by
  unfold LsbRandomHmac.placementPositions
  rw [scored_congr h]

theorem random_technique_congr (h : AgreeOutside metadataLabel hmac hmac') :
    LsbRandomHmac.technique hmac' = LsbRandomHmac.technique hmac := by
  have hembed : LsbRandomHmac.embed hmac' = LsbRandomHmac.embed hmac := by
    funext cover payload params
    unfold LsbRandomHmac.embed
    simp only [placementPositions_congr h]
  have hextract : LsbRandomHmac.extract hmac' = LsbRandomHmac.extract hmac := by
    funext stego n params
    unfold LsbRandomHmac.extract
    simp only [placementPositions_congr h]
  rw [LsbRandomHmac.technique, LsbRandomHmac.technique, hembed, hextract]

theorem engine_congr (h : AgreeOutside metadataLabel hmac hmac') :
    StegoEngine.new F hmac' = StegoEngine.new F hmac := by
  unfold StegoEngine.new
  rw [random_technique_congr h]

theorem engine_embed_congr (h : AgreeOutside metadataLabel hmac hmac') (cover : DynamicImage)
    (payload : Bytes) (techniqueSeed paramSeed : Key) :
    (StegoEngine.new F hmac').embed F hmac' cover payload techniqueSeed paramSeed
      = (StegoEngine.new F hmac).embed F hmac cover payload techniqueSeed paramSeed := by
  rw [engine_congr h]
  unfold StegoEngine.embed
  simp only [randomizeParams_congr h, selectTechnique_congr h]

end Engine

section Commands

variable {F : Type} [Scalar F] {crates : Crates} {hmac' : Hmac}

/-- Before the image is searched nothing is authenticated. -/
theorem extractSetup_congr (h : AgreeOutside metadataLabel crates.hmac hmac') (env : ExtractEnv)
    (args : ExtractArgs) (disk : Disk) :
    extractSetup { crates with hmac := hmac' } env args disk
      = extractSetup crates env args disk := by
  have hparams : ∀ metadata keys, extractParams { crates with hmac := hmac' } metadata keys
      = extractParams crates metadata keys := by
    intro metadata keys
    unfold extractParams
    simp only [derivePlacementKey_congr h]
  unfold extractSetup extractSteps
  simp only [hparams]
  rfl

theorem embedPrepare_separate (h : AgreeOutside metadataLabel crates.hmac hmac') (env : EmbedEnv)
    (args : EmbedArgs) (disk : Disk) :
    Alike (fun a b => a.1 = b.1 ∧ { a.2 with mac := "" } = { b.2 with mac := "" })
      (embedPrepare F crates env args disk)
      (embedPrepare F { crates with hmac := hmac' } env args disk) := by
  unfold embedPrepare
  refine .after _ fun _ _ => .after _ fun secret _ => .after _ fun sessionNonce _ =>
    .after _ fun kdf _ => .after _ fun rootKey _ => .after _ fun keys _ =>
    .after _ fun payload _ => .after _ fun encrypted _ => .after _ fun cover _ => ?_
  simp only [engine_embed_congr h]
  refine .after _ fun embedded _ => ?_
  exact .value ⟨rfl, rfl⟩

/-- What is accepted under both is the same plaintext. -/
theorem extractPlaintext_separate (h : AgreeOutside metadataLabel crates.hmac hmac')
    {env : ExtractEnv} {args : ExtractArgs} {disk : Disk} {plaintext plaintext' : Bytes}
    (hplain : extractPlaintext F crates env args disk = .ok plaintext)
    (hplain' : extractPlaintext F { crates with hmac := hmac' } env args disk = .ok plaintext') :
    plaintext = plaintext' := by
  obtain ⟨metadata, keys, params, stego, payload, tag, hsetup, hfound, -, -, hdec⟩ :=
    extractPlaintext_eq_ok.mp hplain
  obtain ⟨metadata', keys', params', stego', payload', tag', hsetup', hfound', -, -, hdec'⟩ :=
    extractPlaintext_eq_ok.mp hplain'
  rw [extractSetup_congr h, hsetup] at hsetup'
  cases hsetup'
  have hengine : StegoEngine.new F hmac' = StegoEngine.new F crates.hmac := engine_congr h
  have hpayload : (StegoEngine.new F hmac').extract stego metadata.embedding params
      metadata.encryptedLen.toNat = .ok payload' := hfound'
  rw [hengine, hfound] at hpayload
  cases hpayload
  exact Except.ok.inj (hdec.symm.trans hdec')

/--
**The MAC's questions are nobody else's.**

Every input that is authenticated opens with the label of the metadata. Change HMAC on all
inputs that do, and `embed`, up to its writes, fails with the same error or has the same
stego image to write and the same record but for its MAC; and a pair that `extract` accepts
under both gives one plaintext.
-/
theorem mac_separate (F : Type) [Scalar F] (crates : Crates) (hmac' : Hmac)
    (hagree : AgreeOutside metadataLabel crates.hmac hmac') :
    (∀ metadata context payload, metadataLabel <+: metadataMacInput metadata context payload)
      ∧ (∀ env args disk,
        Alike (fun a b => a.1 = b.1 ∧ { a.2 with mac := "" } = { b.2 with mac := "" })
          (embedPrepare F crates env args disk)
          (embedPrepare F { crates with hmac := hmac' } env args disk))
      ∧ ∀ env args disk plaintext plaintext',
        extractPlaintext F crates env args disk = .ok plaintext →
        extractPlaintext F { crates with hmac := hmac' } env args disk = .ok plaintext' →
        plaintext = plaintext' := by
  refine ⟨metadataMacInput_label, embedPrepare_separate hagree, ?_⟩
  intro env args disk plaintext plaintext' hplain hplain'
  exact extractPlaintext_separate hagree hplain hplain'

end Commands

/-- The sample's function with other MACs. -/
def relabelledHmac : Hmac := fun _ input =>
  if metadataLabel <+: input then Vector.replicate 32 7 else sampleWord

/-- The sample run, authenticated otherwise, writes the same picture. -/
theorem mac_separate_sample : ∃ a b,
    embedPrepare ℚ (referenceCrates sampleWord) (sampleEnv 1 3) (sampleArgs samplePng) sampleDisk
        = .ok a
      ∧ embedPrepare ℚ { referenceCrates sampleWord with hmac := relabelledHmac } (sampleEnv 1 3)
          (sampleArgs samplePng) sampleDisk = .ok b
      ∧ a.1 = b.1 := by
  have hagree : AgreeOutside metadataLabel (referenceCrates sampleWord).hmac relabelledHmac := by
    intro key input houtside
    exact if_neg houtside
  obtain ⟨-, hembed, -⟩ := mac_separate ℚ (referenceCrates sampleWord) relabelledHmac hagree
  have hvalid : (sampleTrace 1 3).Valid ℚ (referenceCrates sampleWord) (sampleEnv 1 3)
      (sampleArgs samplePng) sampleDisk := sampleTrace_valid (by decide) rfl fun _ _ => rfl
  have hprep := embedPrepare_eq_ok.mpr ⟨sampleTrace 1 3, hvalid, rfl, rfl⟩
  obtain ⟨b, hother, hstego, -⟩ :=
    (hembed (sampleEnv 1 3) (sampleArgs samplePng) sampleDisk).of_ok hprep
  exact ⟨_, b, hprep, hother, hstego⟩

end Stegosafe.Proof
