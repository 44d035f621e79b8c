import Stegosafe.Proof.Capacity

/-!
# Lengths

Two lengths travel beside the bytes. The frame carries the payload's, cut to 32
bits, so it reads back for the payloads whose length fits 32 bits. The extractor is
told one, a 64-bit word nobody has checked, and multiplies it by eight before it
compares: from 2 ^ 61 - 4 on the product leaves the word. Below that every length
is answered, and nothing larger than the picture's samples is ever allocated.
-/

namespace Stegosafe.Proof

open Stegosafe Checked Outcome

/-! ## The length in the frame -/

/-- The prefix of a payload too long for it names another length. -/
theorem validateFrame_of_ge {p t : Bytes} (h : 2 ^ 32 ≤ p.length) :
    validateFrame (framePayload p ++ t) p.length = .error (.err .malformedImage) := by
  have htake : (framePayload p ++ t).take 4 = Words.toBe 4 (p.length % 2 ^ 32) := by
    rw [List.take_append_of_le_length (by simp), framePayload_take]
  have hmod : p.length % 2 ^ 32 < 2 ^ 32 := Nat.mod_lt _ (by omega)
  unfold validateFrame
  rw [if_neg (by simp; omega), htake, Words.ofBe_toBe_of_lt hmod]
  dsimp only
  rw [if_pos (by omega)]
  rfl

/-- **A frame decodes to its payload below 2 ^ 32 bytes, and nothing but a frame decodes.** -/
theorem frame_law (p t d : Bytes) (n : Nat) :
    (validateFrame (framePayload p ++ t) p.length = .ok p ↔ p.length < 2 ^ 32)
      ∧ ∀ q, validateFrame d n = .ok q → q.length = n ∧ ∃ t, d = framePayload q ++ t := by
  refine ⟨?_, ?_⟩
  · rw [validateFrame_eq_ok]
    exact ⟨fun h => h.2.1, fun h => ⟨rfl, h, t, rfl⟩⟩
  · intro q h
    obtain ⟨hq, -, ht⟩ := validateFrame_eq_ok.mp h
    exact ⟨hq, ht⟩

/-- A payload of 2 ^ 32 bytes is framed as an empty one. -/
theorem frame_law_fails :
    (List.replicate (2 ^ 32) (0 : UInt8)).length < 2 ^ 60
      ∧ validateFrame (framePayload (List.replicate (2 ^ 32) 0) ++ [])
          (List.replicate (2 ^ 32) (0 : UInt8)).length = .error (.err .malformedImage) := by
  constructor
  · rw [List.length_replicate]
    omega
  · exact validateFrame_of_ge (by rw [List.length_replicate])

/-! ## The length the extractor is told -/

/-- `readBitsAtPositions` up to its buffer: the size it asks for. -/
def readRequest (positions : List Nat) (totalBytes : Nat) : Outcome StegoError Nat := do
  let totalBits ← mul 64 totalBytes 8
  if positions.length < totalBits then
    fail .malformedImage
  else
    .ok totalBytes

/-- The rest of `readBitsAtPositions`: the buffer filled. -/
def readInto (raw : Bytes) (positions : List Nat) (bitPlane : UInt8) (size : Nat) :
    Outcome StegoError Bytes :=
  (positions.take (size * 8)).zipIdx.foldlM
    (fun result pi => readBit raw bitPlane.toNat result pi.1 pi.2) (List.replicate size 0)

theorem readBitsAtPositions_eq_request (raw : Bytes) (positions : List Nat) (totalBytes : Nat)
    (bitPlane : UInt8) :
    readBitsAtPositions raw positions totalBytes bitPlane
      = (readRequest positions totalBytes >>= readInto raw positions bitPlane) := by
  unfold readBitsAtPositions readRequest mul
  split
  · simp only [ok_bind]
    split
    · rfl
    · rfl
  · rfl

section Extraction

variable (F : Type) [Scalar F] (hmac : Hmac)

/-- Extraction up to the buffer of its result: the samples it will read, and the size. -/
def extractRequest (id : TechniqueId) (img : RgbImage) (params : EmbedParams) (n : Nat) :
    Outcome StegoError (List Nat × Nat) :=
  match id with
  | .lsbRandomHmac => do
      let area ← mul 64 img.width img.height
      let channelCount ← mul 64 area 3
      let totalBytes ← add 64 n 4
      let neededBits ← mul 64 totalBytes 8
      let ps ← LsbRandomHmac.placementPositions hmac params.placementKey channelCount neededBits
      let size ← readRequest ps totalBytes
      .ok (ps, size)
  | .lsbSequential | .edgeAdaptiveLsb => do
      let ps ← positionList F hmac id img params
      let totalBytes ← add 64 n 4
      let size ← readRequest ps totalBytes
      .ok (ps, size)

/-- Extraction is its request, then the buffer filled and the frame taken off. -/
theorem extract_eq_request (id : TechniqueId) (img : RgbImage) (params : EmbedParams) (n : Nat) :
    (StegoEngine.techniqueOf F hmac id).extract img n params
      = (extractRequest F hmac id img params n >>= fun request => do
          let data ← readInto img.raw request.1 (planeOf id params) request.2
          validateFrame data n) := by
  by_cases hid : id = .lsbRandomHmac
  · subst hid
    change LsbRandomHmac.extract hmac img n params = _
    simp only [LsbRandomHmac.extract, extractRequest, planeOf, readBitsAtPositions_eq_request,
      bind_assoc, ok_bind]
  · rw [masked_extract_eq hid]
    cases id with
    | lsbRandomHmac => exact absurd rfl hid
    | lsbSequential =>
      simp only [extractAlong, extractRequest, readBitsAtPositions_eq_request, bind_assoc, ok_bind]
    | edgeAdaptiveLsb =>
      simp only [extractAlong, extractRequest, readBitsAtPositions_eq_request, bind_assoc, ok_bind]

/-- The size asked for, in bits, is at most the number of samples to read. -/
theorem extractRequest_size {id : TechniqueId} {img : RgbImage} {params : EmbedParams} {n : Nat}
    {ps : List Nat} {size : Nat} (h : extractRequest F hmac id img params n = .ok (ps, size)) :
    size ≤ ps.length / 8 := by
  have hread : ∀ {total : Nat}, readRequest ps total = .ok size → size ≤ ps.length / 8 := by
    intro total h
    rw [readRequest, bind_eq_ok] at h
    obtain ⟨bits, hbits, h⟩ := h
    obtain ⟨-, rfl⟩ := mul_eq_ok.mp hbits
    split at h
    · cases h
    · cases h
      omega
  cases id with
  | lsbRandomHmac =>
    simp only [extractRequest, bind_eq_ok, Except.ok.injEq, Prod.mk.injEq] at h
    obtain ⟨_, -, _, -, _, -, _, -, _, -, _, hrequest, rfl, rfl⟩ := h
    exact hread hrequest
  | lsbSequential =>
    simp only [extractRequest, bind_eq_ok, Except.ok.injEq, Prod.mk.injEq] at h
    obtain ⟨_, -, _, -, _, hrequest, rfl, rfl⟩ := h
    exact hread hrequest
  | edgeAdaptiveLsb =>
    simp only [extractRequest, bind_eq_ok, Except.ok.injEq, Prod.mk.injEq] at h
    obtain ⟨_, -, _, -, _, hrequest, rfl, rfl⟩ := h
    exact hread hrequest

/-- A size that does not fit the samples is an error, if it can be asked for at all. -/
theorem technique_extract_refused {id : TechniqueId} {stego : RgbImage} {n : Nat}
    {params : EmbedParams} (hp : (planeOf id params).toNat < 8) (hn : (n + 4) * 8 < 2 ^ 64)
    (hsafe : id = .edgeAdaptiveLsb → EdgeSafe stego.width stego.height)
    (hlarge : usableSamples id stego params < 8 * (n + 4)) :
    ∃ e, (StegoEngine.techniqueOf F hmac id).extract stego n params = .error (.err e) := by
  cases hres : (StegoEngine.techniqueOf F hmac id).extract stego n params with
  | ok q =>
    -- what was found is a frame held by the samples, so they were enough
    obtain ⟨c, hps, hq, -, hholds⟩ := (technique_extract_eq_ok hp).mp hres
    have hfits := hholds.1
    rw [framePayload_length, hq, positionList_length hps] at hfits
    omega
  | error fault =>
    cases fault with
    | err e => exact ⟨e, rfl⟩
    | panic p => exact absurd hres (technique_extract_ne_panic hp hn hsafe p)

/--
Extraction told the length `n` ends without a panic, asks for no buffer larger than
its samples, and refuses a length they cannot hold.
-/
structure LengthSafe (id : TechniqueId) (stego : DynamicImage) (params : EmbedParams) (n : Nat) :
    Prop where
  returns : Returns ((StegoEngine.new F hmac).extract stego id.name params n)
  request : ∀ ps size, extractRequest F hmac id stego.toRgb8 params n = .ok (ps, size) →
    size ≤ ps.length / 8
  refused : usableSamples id stego.toRgb8 params < 8 * (n + 4) →
    ∃ e, (StegoEngine.new F hmac).extract stego id.name params n = .error (.err e)

end Extraction

/-- The parameters the extractor can be given, by metadata or by default. -/
def Built (params : EmbedParams) : Prop :=
  (∃ pm key, EmbedParams.fromMeta pm key = some params) ∨ ∃ key, params = .legacy key

theorem Built.bitPlane_le {params : EmbedParams} (h : Built params) : params.bitPlane ≤ 7 := by
  rcases h with ⟨pm, key, hmeta⟩ | ⟨key, rfl⟩
  · obtain ⟨-, hle, heq, -⟩ := EmbedParams.fromMeta_eq_some.mp hmeta
    rw [heq]
    exact UInt8.le_trans hle (by decide)
  · change (0 : UInt8) ≤ 7
    decide

/-- On images of positive sides only the area can leave its word. -/
theorem edgeSafe_iff_of_pos {w h : Nat} (hw : 1 ≤ w) (hh : 1 ≤ h) :
    EdgeSafe w h ↔ w * h < 2 ^ 32 := by
  constructor
  · intro hsafe
    exact hsafe.1
  · intro harea
    exact ⟨harea, hh, Or.inl hw⟩

/--
**Extraction is safe for every claimed length whose bits fit a word**, and for no other.

The edge-adaptive technique needs the number of pixels to fit 32 bits as well.
-/
theorem extract_lengthSafe_iff (F : Type) [Scalar F] (hmac : Hmac) (id : TechniqueId)
    (stego : DynamicImage) (params : EmbedParams) (n : Nat) (hwidth : 1 ≤ stego.toRgb8.width)
    (hheight : 1 ≤ stego.toRgb8.height) (hbuilt : Built params) :
    LengthSafe F hmac id stego params n ↔
      (n + 4) * 8 < 2 ^ 64
        ∧ (id = .edgeAdaptiveLsb → stego.toRgb8.width * stego.toRgb8.height < 2 ^ 32) := by
  rw [← edgeSafe_iff_of_pos hwidth hheight]
  have hp : (planeOf id params).toNat < 8 := planeOf_lt hbuilt.bitPlane_le
  have hengine : (StegoEngine.new F hmac).extract stego id.name params n = _ :=
    engine_extract_eq id stego params n
  constructor
  · intro h
    -- outside the condition the call panics
    by_contra hbad
    refine h.returns .overflow (hengine.trans (technique_extract_panic ?_))
    by_cases hfits : (n + 4) * 8 < 2 ^ 64
    · right
      by_contra hedge
      refine hbad ⟨hfits, fun hid => ?_⟩
      by_contra hunsafe
      exact hedge ⟨hid, hunsafe⟩
    · left
      omega
  · intro h
    obtain ⟨hfits, hsafe⟩ := h
    refine ⟨fun p => ?_, fun ps size => extractRequest_size F hmac, fun hlarge => ?_⟩
    · rw [hengine]
      exact technique_extract_ne_panic hp hfits hsafe p
    · rw [hengine]
      exact technique_extract_refused F hmac hp hfits hsafe hlarge

theorem extract_lengthSafe_grey :
    LengthSafe ℚ (fun _ _ => Vector.replicate 32 0) .lsbSequential (.imageRgb8 greyCover)
      plainParams 1 :=
  (extract_lengthSafe_iff ℚ (fun _ _ => Vector.replicate 32 0) .lsbSequential
    (.imageRgb8 greyCover) plainParams 1 (by decide) (by decide)
    (Or.inr ⟨Vector.replicate 32 0, rfl⟩)).mpr ⟨by decide, fun h => by cases h⟩

/-- The length 2 ^ 61 - 4, told with any image, ends the program. -/
theorem extract_length_panics :
    (StegoEngine.new ℚ fun _ _ => Vector.replicate 32 0).extract (.imageRgb8 greyCover)
      "lsb-sequential-v1" plainParams (2 ^ 61 - 4) = .error (.panic .overflow) :=
  (engine_extract_eq .lsbSequential _ _ _).trans (technique_extract_panic (Or.inl (by omega)))

end Stegosafe.Proof
