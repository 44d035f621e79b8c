import Stegosafe.Lib.Alike
import Stegosafe.Proof.Layers
import Stegosafe.Proof.Reference
import Stegosafe.Proof.Untouched

/-!
# What a stego image tells about its payload

Two runs of `embed` that meet the same world, on disks that differ in the payload only,
compared call by call up to their writes. If the two payloads compress to the same length,
the runs end in the same way: they fail with the same error, or both succeed, with one set
of keys, one technique and one list of samples. Their metadata differs in the MAC at most,
and their stego images in the technique's plane at most, at the samples the frame takes
(`embed_oblivious`). The writes see what differs, so they may tell the two apart.
-/

namespace Stegosafe.Proof

open Stegosafe Checked Outcome Text

/-- AES-256-GCM tells messages apart by their lengths only, when it refuses and in what it adds. -/
def SealsByLength (crates : AeadCrates) : Prop :=
  ∀ (key : Key) (nonce aad m m' : Bytes), m.length = m'.length →
    Option.Rel (fun ct ct' => ct.length = ct'.length) (crates.gcmSeal key nonce aad m)
      (crates.gcmSeal key nonce aad m')

/-- Payloads of one compressed length. -/
def SameSize (crates : AeadCrates) (payload payload' : Bytes) : Prop :=
  Option.Rel (fun z z' => z.length = z'.length) (crates.encodeAll payload)
    (crates.encodeAll payload')

/-- **Ciphertexts of payloads of one size have one length.** -/
theorem encrypt_alike {crates : AeadCrates} (hseal : SealsByLength crates)
    {payload payload' : Bytes} (hsize : SameSize crates payload payload') (k : AeadKey)
    (aad : Bytes) :
    Alike (fun ct ct' => ct.length = ct'.length) (k.encrypt crates payload aad).1
      (k.encrypt crates payload' aad).1 := by
  have hcompress : Alike (fun z z' => z.length = z'.length) (compress crates payload)
      (compress crates payload') := Alike.okOr hsize _
  unfold AeadKey.encrypt
  generalize compress crates payload = x, compress crates payload' = x' at hcompress
  cases hcompress with
  | fault e => exact .fault e
  | value hlen =>
    dsimp only
    cases k.lockNext with
    | mk result k' =>
      cases result with
      | error e => exact .fault e
      | ok nonce =>
        refine (Alike.okOr (hseal _ _ _ _ _ hlen) _).bind fun ct ct' hct => .value ?_
        rw [List.length_append, List.length_append, hct]

section Embedding

variable {F : Type} [Scalar F] {hmac : Hmac}

/-- Writing never fails. -/
theorem writeFrame_ok {bitPlane : UInt8} (hp : bitPlane.toNat < 8) (cover : RgbImage)
    (ps : List Nat) (framed : Bytes) : ∃ stego, writeFrame cover ps framed bitPlane = .ok stego :=
  ⟨_, rewrite_eq_ok.mpr ⟨_, writeBitsAtPositions_eq hp _ _ _, rfl⟩⟩

theorem writeFrame_alike {bitPlane : UInt8} (hp : bitPlane.toNat < 8) (cover : RgbImage)
    (ps : List Nat) (framed framed' : Bytes) :
    Alike (fun _ _ => True) (writeFrame cover ps framed bitPlane)
      (writeFrame cover ps framed' bitPlane) := by
  obtain ⟨stego, hstego⟩ := writeFrame_ok hp cover ps framed
  obtain ⟨stego', hstego'⟩ := writeFrame_ok hp cover ps framed'
  rw [hstego, hstego']
  exact .value trivial

/-- **Whether a technique refuses depends on the payload's length only.** -/
theorem technique_embed_ends {id : TechniqueId} {cover : RgbImage} {a b : Bytes}
    {params : EmbedParams} (hp : (planeOf id params).toNat < 8) (hlen : a.length = b.length) :
    Alike (fun _ _ => True) ((StegoEngine.techniqueOf F hmac id).embed cover a params)
      ((StegoEngine.techniqueOf F hmac id).embed cover b params) := by
  have hframes : (framePayload a).length = (framePayload b).length := by
    rw [framePayload_length, framePayload_length, hlen]
  by_cases hid : id = .lsbRandomHmac
  · subst hid
    change Alike _ (LsbRandomHmac.embed hmac cover a params)
      (LsbRandomHmac.embed hmac cover b params)
    refine .after _ fun area _ => .after _ fun channelCount _ => ?_
    dsimp only
    rw [hframes]
    exact .after _ fun _ _ => .after _ fun ps _ => writeFrame_alike (by decide) cover ps _ _
  · rw [masked_embed_eq hid, masked_embed_eq hid]
    refine .after _ fun ps _ => ?_
    unfold embedAlong
    dsimp only
    rw [hframes]
    refine .after _ fun needed _ => ?_
    split
    · exact .fault _
    · exact writeFrame_alike hp cover ps _ _

/-- **What two frames of one length leave of a picture** differs where they were written. -/
theorem hide_touches_hidden {p : Nat} (hp : p < 8) (cover : RgbImage)
    (c : Carrier cover.raw.length) (a b : Bytes) (hlen : a.length = b.length)
    (hfits : 8 * b.length ≤ c.order.length) :
    TouchesOnly p (c.order.take (8 * b.length))
      (cover.withRaw (c.hide p a cover.raw) (c.hide_length _ _ _))
      (cover.withRaw (c.hide p b cover.raw) (c.hide_length _ _ _)) := by
  have hsize : (c.hide p a cover.raw).length = cover.raw.length := c.hide_length _ _ _
  let stego := cover.withRaw (c.hide p a cover.raw) hsize
  let d : Carrier stego.raw.length := ⟨c.order, c.nodup, fun i hi => hsize.symm ▸ c.inside i hi⟩
  have htouch := hide_touchesOnly hp stego d b hfits
  -- the second frame covers the first one, so the picture under it is the cover as well
  have hover : d.hide p b stego.raw = c.hide p b cover.raw := by
    rw [Carrier.hide_congr (show d.order = c.order from rfl)]
    exact Carrier.hide_hide hp (Nat.le_of_eq hlen)
  have hstego : stego.withRaw (d.hide p b stego.raw) (d.hide_length _ _ _)
      = cover.withRaw (c.hide p b cover.raw) (c.hide_length _ _ _) := RgbImage.ext rfl rfl hover
  rw [hstego] at htouch
  exact htouch

/-- One of two pictures, told apart from the other in the samples of one frame only. -/
def SamePicture (F : Type) [Scalar F] (hmac : Hmac) (cover : RgbImage) (id : TechniqueId)
    (params : EmbedParams) (n : Nat) (stego stego' : RgbImage) : Prop :=
  ∃ ps, positionList F hmac id cover params = .ok ps
    ∧ TouchesOnly (planeOf id params).toNat (ps.take (8 * (n + 4))) stego stego'

theorem technique_embed_same {id : TechniqueId} {cover stego stego' : RgbImage} {a b : Bytes}
    {params : EmbedParams} (hp : (planeOf id params).toNat < 8) (hlen : a.length = b.length)
    (ha : (StegoEngine.techniqueOf F hmac id).embed cover a params = .ok stego)
    (hb : (StegoEngine.techniqueOf F hmac id).embed cover b params = .ok stego') :
    SamePicture F hmac cover id params a.length stego stego' := by
  obtain ⟨c, hps, -, -, rfl⟩ := (technique_embed_eq_ok hp).mp ha
  obtain ⟨c', hps', hn, hfits, rfl⟩ := (technique_embed_eq_ok hp).mp hb
  have horder : c'.order = c.order := Except.ok.inj (hps'.symm.trans hps)
  have hframe : (framePayload b).length = b.length + 4 := framePayload_length b
  have htouch := hide_touches_hidden hp cover c (framePayload a) (framePayload b)
    (by rw [framePayload_length, framePayload_length, hlen]) (by rw [hframe, ← horder]; exact hfits)
  rw [hframe, ← hlen] at htouch
  refine ⟨c.order, hps, ?_⟩
  convert htouch using 2
  exact Carrier.hide_congr horder

/-- The engine picks technique and parameters before it looks at the payload. -/
theorem engine_embed_ends (hmac : Hmac) (cover : DynamicImage) {a b : Bytes}
    (techniqueSeed paramSeed : Key) (hlen : a.length = b.length) :
    Alike (fun _ _ => True)
      ((StegoEngine.new F hmac).embed F hmac cover a techniqueSeed paramSeed)
      ((StegoEngine.new F hmac).embed F hmac cover b techniqueSeed paramSeed) := by
  have hplane := randomizeParams_bitPlane hmac paramSeed
  refine .after _ fun density _ => .after _ fun technique htechnique => ?_
  rw [okOr_eq_ok, StegoEngine.new_techniques, Option.some.injEq] at htechnique
  subst htechnique
  have hp : (planeOf (selectTechnique hmac techniqueSeed density)
      (randomizeParams hmac paramSeed)).toNat < 8 :=
    planeOf_lt (UInt8.le_trans hplane (by decide))
  exact (technique_embed_ends hp hlen).bind fun _ _ _ => .value trivial

end Embedding

/-! ## The command -/

/--
Two runs that differ in the bits of a frame: one set of keys, one cover, one record but for
the MAC, and stego images that differ in the plane and at the samples where the run's own
technique writes frames of this length with the run's own parameters.
-/
structure SameShape (F : Type) [Scalar F] (crates : Crates) (context : String)
    (t t' : EmbedTrace) : Prop where
  keys_eq : t'.keys = t.keys
  cover_eq : t'.cover = t.cover
  record_eq : { t'.metadata crates context with mac := "" }
    = { t.metadata crates context with mac := "" }
  picture : ∃ id stego stego', t.stego = .imageRgb8 stego ∧ t'.stego = .imageRgb8 stego'
    ∧ t.result.techniqueName = TechniqueId.name id
    ∧ SamePicture F crates.hmac t.cover.toRgb8 id
        (randomizeParams crates.hmac t.keys.paramSeed) t.encrypted.length stego stego'

section Command

variable {F : Type} [Scalar F] {crates : Crates} {env : EmbedEnv} {args : EmbedArgs}
  {disk disk' : Disk}

/-- **How a run ends depends on the payload's size only**, up to its writes. -/
theorem embedPrepare_ends (hseal : SealsByLength crates.toAeadCrates)
    (hsecret : loadSecret env.readsSecret env.warns disk args.secretFile args.secret
      = loadSecret env.readsSecret env.warns disk' args.secretFile args.secret)
    (hcover : openImage crates env.readsCover disk args.cover
      = openImage crates env.readsCover disk' args.cover)
    (hpayload : Alike (SameSize crates.toAeadCrates) (readFile env.readsPayload disk args.payload)
      (readFile env.readsPayload disk' args.payload)) :
    Alike (fun _ _ => True) (embedPrepare F crates env args disk)
      (embedPrepare F crates env args disk') := by
  unfold embedPrepare embedSteps
  simp only [lift_outcome, mapErr_outcome, inContext_outcome]
  rw [← hsecret, ← hcover]
  refine .after _ fun _ _ => .after _ fun secret _ => .after _ fun sessionNonce _ =>
    .after _ fun kdf _ => .after _ fun rootKey _ => .after _ fun keys _ => ?_
  refine hpayload.mapErr.bind fun payload payload' hsize => ?_
  have hencrypt := encrypt_alike hseal hsize keys.encKey (utf8 args.context)
  refine hencrypt.mapErr.mapErr.bind fun encrypted encrypted' hlen => ?_
  refine .after _ fun cover _ => ?_
  have hengine := engine_embed_ends (F := F) crates.hmac cover keys.techniqueSeed
    keys.paramSeed hlen
  exact hengine.mapErr.mapErr.bind fun _ _ _ => .value trivial

variable {t t' : EmbedTrace}

/-- **Their results have one shape**, if their payloads have one size. -/
theorem EmbedTrace.Valid.same_shape (hseal : SealsByLength crates.toAeadCrates)
    (ht : t.Valid F crates env args disk) (ht' : t'.Valid F crates env args disk')
    (hsecret : loadSecret env.readsSecret env.warns disk args.secretFile args.secret
      = loadSecret env.readsSecret env.warns disk' args.secretFile args.secret)
    (hcover : openImage crates env.readsCover disk args.cover
      = openImage crates env.readsCover disk' args.cover)
    (hsize : SameSize crates.toAeadCrates t.payload t'.payload) :
    SameShape F crates args.context t t' := by
  obtain ⟨-, hnonce, hsalt, -, hkeys⟩ := ht.same_keys ht' hsecret
  have hkdf : t'.kdf = t.kdf := by rw [EmbedTrace.kdf, EmbedTrace.kdf, hsalt]
  have hcovers : t'.cover = t.cover :=
    Except.ok.inj (ht'.cover_ok.symm.trans (hcover.symm.trans ht.cover_ok))
  -- the ciphertexts are as long as each other
  have hencrypt := encrypt_alike hseal hsize t.keys.encKey (utf8 args.context)
  have hencrypted' := ht'.encrypted_ok
  rw [hkeys] at hencrypted'
  rw [ht.encrypted_ok, hencrypted'] at hencrypt
  have hlen : t.encrypted.length = t'.encrypted.length := by
    cases hencrypt with
    | value h => exact h
  -- the engine computes one density, so it picks one technique
  obtain ⟨density, hdensity, stego, hembed, hstego, hresult⟩ := engine_embed_eq_ok.mp ht.stego_ok
  have hengine' := ht'.stego_ok
  rw [hkeys, hcovers] at hengine'
  obtain ⟨density', hdensity', stego', hembed', hstego', hresult'⟩ :=
    engine_embed_eq_ok.mp hengine'
  obtain rfl : density = density' := Except.ok.inj (hdensity.symm.trans hdensity')
  have hplane : (planeOf (selectTechnique crates.hmac t.keys.techniqueSeed density)
      (randomizeParams crates.hmac t.keys.paramSeed)).toNat < 8 :=
    planeOf_lt (UInt8.le_trans (randomizeParams_bitPlane crates.hmac t.keys.paramSeed) (by decide))
  refine ⟨hkeys, hcovers, ?_, _, stego, stego', hstego, hstego', ?_,
    technique_embed_same hplane hlen hembed hembed'⟩
  · dsimp only [EmbedTrace.metadata, EmbedTrace.unsigned]
    rw [hnonce, hkdf, hresult, hresult', hlen]
  · rw [hresult]

end Command

/--
**What `embed` has to write tells payloads of one size apart in a frame's bits and the MAC only.**

On two disks with the same secret and cover and with payloads that compress to the same
length, the run up to its writes fails with the same error, or it succeeds on both with
results of the same shape.
-/
theorem embed_oblivious (F : Type) [Scalar F] (crates : Crates)
    (hseal : SealsByLength crates.toAeadCrates) (env : EmbedEnv) (args : EmbedArgs)
    (disk disk' : Disk)
    (hsecret : loadSecret env.readsSecret env.warns disk args.secretFile args.secret
      = loadSecret env.readsSecret env.warns disk' args.secretFile args.secret)
    (hcover : openImage crates env.readsCover disk args.cover
      = openImage crates env.readsCover disk' args.cover)
    (hpayload : Alike (SameSize crates.toAeadCrates) (readFile env.readsPayload disk args.payload)
      (readFile env.readsPayload disk' args.payload)) :
    Alike (fun a b => ∃ t t' : EmbedTrace, t.Valid F crates env args disk
        ∧ t'.Valid F crates env args disk'
        ∧ a = (t.stego, t.metadata crates args.context)
        ∧ b = (t'.stego, t'.metadata crates args.context) ∧ SameShape F crates args.context t t')
      (embedPrepare F crates env args disk) (embedPrepare F crates env args disk') := by
  refine (embedPrepare_ends hseal hsecret hcover hpayload).imp fun a b ha hb _ => ?_
  obtain ⟨t, ht, hstego, hrecord⟩ := embedPrepare_eq_ok.mp ha
  obtain ⟨t', ht', hstego', hrecord'⟩ := embedPrepare_eq_ok.mp hb
  have hsize : SameSize crates.toAeadCrates t.payload t'.payload := by
    rw [ht.payload_ok, ht'.payload_ok] at hpayload
    cases hpayload with
    | value h => exact h
  exact ⟨t, t', ht, ht', Prod.ext hstego hrecord, Prod.ext hstego' hrecord',
    ht.same_shape hseal ht' hsecret hcover hsize⟩

theorem referenceCrates_sealsByLength (word : Key) :
    SealsByLength (referenceCrates word).toAeadCrates := by
  intro key nonce aad m m' hlen
  refine .some ?_
  rw [List.length_append, List.length_append, hlen]

/-- The sample's disk with another payload. -/
def otherDisk : Disk := Function.update sampleDisk ⟨"", some "payload.bin"⟩ (some [0x5A])

/-- Another byte, and the same record but for its MAC. -/
theorem embed_oblivious_sample : ∃ a b,
    embedPrepare ℚ (referenceCrates sampleWord) (sampleEnv 1 3) (sampleArgs samplePng) sampleDisk
        = .ok a
      ∧ embedPrepare ℚ (referenceCrates sampleWord) (sampleEnv 1 3) (sampleArgs samplePng) otherDisk
        = .ok b
      ∧ { a.2 with mac := "" } = { b.2 with mac := "" } := by
  have hcover : openImage (referenceCrates sampleWord) true sampleDisk ⟨"", some "cover.png"⟩
      = openImage (referenceCrates sampleWord) true otherDisk ⟨"", some "cover.png"⟩ := by
    rw [openImage, openImage, readFile, readFile, otherDisk, Function.update_of_ne (by decide)]
  have hpayload : Alike (SameSize (referenceCrates sampleWord).toAeadCrates)
      (readFile true sampleDisk ⟨"", some "payload.bin"⟩)
      (readFile true otherDisk ⟨"", some "payload.bin"⟩) := by
    have hread : readFile true sampleDisk ⟨"", some "payload.bin"⟩ = .ok [0xA5] :=
      readFile_eq_ok.mpr ⟨rfl, rfl⟩
    have hread' : readFile true otherDisk ⟨"", some "payload.bin"⟩ = .ok [0x5A] :=
      readFile_eq_ok.mpr ⟨rfl, Function.update_self ..⟩
    rw [hread, hread']
    exact .value (.some rfl)
  have halike := embed_oblivious ℚ (referenceCrates sampleWord)
    (referenceCrates_sealsByLength sampleWord) (sampleEnv 1 3) (sampleArgs samplePng) sampleDisk
    otherDisk rfl hcover hpayload
  have hvalid : (sampleTrace 1 3).Valid ℚ (referenceCrates sampleWord) (sampleEnv 1 3)
      (sampleArgs samplePng) sampleDisk := sampleTrace_valid (by decide) rfl fun _ _ => rfl
  have hprep := embedPrepare_eq_ok.mpr ⟨sampleTrace 1 3, hvalid, rfl, rfl⟩
  obtain ⟨b, hother, t, t', -, -, ha, rfl, hshape⟩ := halike.of_ok hprep
  obtain ⟨-, hrecord⟩ := Prod.mk.inj ha
  refine ⟨_, _, hprep, hother, ?_⟩
  rw [hrecord]
  exact hshape.record_eq.symm

end Stegosafe.Proof
