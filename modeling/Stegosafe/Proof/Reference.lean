import Stegosafe.Proof.Commands
import Stegosafe.Proof.RoundTrip

/-!
# A choice of libraries

Libraries simple enough to compute with that keep every promise of `LawfulCrates`:
no compression, sealing that only appends a tag, keyed functions that ignore their
inputs, raw images under two extensions, and records as length-prefixed fields.

They show that the promises can be kept at once, and the runs in later modules are
runs on them.
-/

namespace Stegosafe.Proof

open Stegosafe Checked Outcome Text

/-! ## Raw images -/

/-- The sides, then the samples. -/
def encodeRaw (img : RgbImage) : Bytes :=
  Words.toBe 4 img.width ++ (Words.toBe 4 img.height ++ img.raw)

def decodeRaw (bytes : Bytes) : Option RgbImage :=
  let width := Words.ofBe (bytes.take 4)
  let height := Words.ofBe ((bytes.drop 4).take 4)
  let raw := (bytes.drop 4).drop 4
  if h : width < 2 ^ 32 ∧ height < 2 ^ 32 ∧ raw.length = width * height * 3
      ∧ raw.length < 2 ^ 63 then
    some ⟨width, height, raw, h.1, h.2.1, h.2.2.1, h.2.2.2⟩
  else
    none

theorem decodeRaw_encodeRaw (img : RgbImage) : decodeRaw (encodeRaw img) = some img := by
  have hw : Words.ofBe (Words.toBe 4 img.width) = img.width :=
    Words.ofBe_toBe_of_lt img.width_lt
  have hh : Words.ofBe (Words.toBe 4 img.height) = img.height :=
    Words.ofBe_toBe_of_lt img.height_lt
  unfold decodeRaw encodeRaw
  simp only [List.take_left' (Words.toBe_length 4 _), List.drop_left' (Words.toBe_length 4 _),
    hw, hh]
  rw [dif_pos ⟨img.width_lt, img.height_lt, img.raw_length, img.raw_lt⟩]

/-! ## Records as fields -/

/-- A text after its length, which ends in a line break. -/
def field (s : String) : Bytes := utf8 (toString (utf8 s).length) ++ newline :: utf8 s

theorem field_inj {s t : String} {x y : Bytes} (h : field s ++ x = field t ++ y) :
    s = t ∧ x = y := by
  simp only [field, List.append_assoc, List.cons_append] at h
  -- the line is the length, and the length says where the text ends
  obtain ⟨hlen, htail⟩ :=
    line_inj (newline_notMem_toString _) (newline_notMem_toString _) h
  have hlen' := toString_injective (utf8_injective hlen)
  obtain ⟨hs, hxy⟩ := List.append_inj htail hlen'
  exact ⟨utf8_injective hs, hxy⟩

theorem fields_inj : ∀ {ss ts : List String}, ss.length = ts.length →
    ss.flatMap field = ts.flatMap field → ss = ts
  | [], [], _, _ => rfl
  | [], _ :: _, hlen, _ => nomatch hlen
  | _ :: _, [], hlen, _ => nomatch hlen
  | s :: ss, t :: ts, hlen, h => by
      obtain ⟨rfl, htail⟩ := field_inj h
      rw [fields_inj (Nat.succ.inj hlen) htail]

/-- The fields of a record. -/
def recordFields (m : Metadata) : List String :=
  [toString m.version.toNat, m.sessionNonce, m.kdf.algorithm, m.kdf.salt,
    toString m.kdf.memoryCostKib.toNat, toString m.kdf.timeCost.toNat,
    toString m.kdf.parallelism.toNat, toString m.kdf.outputLen.toNat, m.embedding,
    toString m.encryptedLen.toNat, m.mac]
  ++ match m.embedParams with
    | none => ["", ""]
    | some p => [p.channels, toString p.bitPlane.toNat]

def encodeRecord (m : Metadata) : Bytes := (recordFields m).flatMap field

theorem recordFields_length (m : Metadata) : (recordFields m).length = 13 := by
  unfold recordFields
  cases m.embedParams <;> rfl

theorem toString_ne_empty (n : Nat) : toString n ≠ "" := by
  intro h
  have hlist := congrArg String.toList h
  rw [Nat.toString_eq_ofList_toDigits, String.toList_ofList] at hlist
  exact Nat.toDigits_ne_nil hlist

theorem recordFields_injective {a b : Metadata} (h : recordFields a = recordFields b) : a = b := by
  obtain ⟨version, nonce, ⟨algorithm, salt, memory, time, par, out⟩, embedding, params, len,
    mac⟩ := a
  obtain ⟨version', nonce', ⟨algorithm', salt', memory', time', par', out'⟩, embedding', params',
    len', mac'⟩ := b
  simp only [recordFields, List.cons_append, List.nil_append, List.cons.injEq] at h
  obtain ⟨h1, rfl, rfl, rfl, h2, h3, h4, h5, rfl, h6, rfl, h7⟩ := h
  obtain rfl := UInt8.toNat_inj.mp (toString_injective h1)
  obtain rfl := UInt32.toNat_inj.mp (toString_injective h2)
  obtain rfl := UInt32.toNat_inj.mp (toString_injective h3)
  obtain rfl := UInt32.toNat_inj.mp (toString_injective h4)
  obtain rfl := UInt64.toNat_inj.mp (toString_injective h5)
  obtain rfl := UInt64.toNat_inj.mp (toString_injective h6)
  -- a plane's number is never empty, so records with parameters are not those without
  have hparams : params = params' := by
    cases params with
    | none =>
      cases params' with
      | none => rfl
      | some p =>
        simp only [List.cons.injEq] at h7
        exact absurd h7.2.1.symm (toString_ne_empty _)
    | some p =>
      cases params' with
      | none =>
        simp only [List.cons.injEq] at h7
        exact absurd h7.2.1 (toString_ne_empty _)
      | some p' =>
        obtain ⟨channels, plane⟩ := p
        obtain ⟨channels', plane'⟩ := p'
        simp only [List.cons.injEq, and_true] at h7
        obtain ⟨rfl, hplane⟩ := h7
        obtain rfl := UInt8.toNat_inj.mp (toString_injective hplane)
        rfl
  rw [hparams]

theorem encodeRecord_injective {a b : Metadata} (h : encodeRecord a = encodeRecord b) : a = b :=
  recordFields_injective
    (fields_inj ((recordFields_length a).trans (recordFields_length b).symm) h)

open Classical in
/-- The record an encoding comes from. -/
noncomputable def decodeRecord (bytes : Bytes) : Option Metadata :=
  if h : ∃ m, encodeRecord m = bytes then some h.choose else none

theorem decodeRecord_encodeRecord (m : Metadata) : decodeRecord (encodeRecord m) = some m := by
  have h : ∃ m', encodeRecord m' = encodeRecord m := ⟨m, rfl⟩
  rw [decodeRecord, dif_pos h]
  exact congrArg some (encodeRecord_injective h.choose_spec)

/-! ## The libraries -/

/-- A tag of sixteen zeros. -/
def zeroTag : Bytes := List.replicate 16 0

/-- The reference libraries; every keyed function returns `word`. -/
noncomputable def referenceCrates (word : Key) : Crates where
  encodeAll := some
  decodeAll := some
  gcmSeal _ _ _ msg := some (msg ++ zeroTag)
  gcmOpen _ _ _ ct :=
    if ct.drop (ct.length - 16) = zeroTag then some (ct.take (ct.length - 16)) else none
  hmac _ _ := word
  hkdfExpand _ _ _ := some word
  argon2Params _ _ _ _ := true
  argon2Hash _ _ _ _ _ := some word
  toVecPretty m := some (encodeRecord m)
  fromSlice := decodeRecord
  imageEncode ext img :=
    if ext = some "png" ∨ ext = some "bmp" then some (encodeRaw img.toRgb8) else none
  imageDecode _ bytes := (decodeRaw bytes).map .imageRgb8

/-- **The reference libraries keep every promise.** -/
theorem referenceCrates_lawful (word : Key) : LawfulCrates (referenceCrates word) where
  meta_none _ := by simp [referenceCrates]
  no_extension _ := by simp [referenceCrates]
  json_lossless {m text} h := by
    simp only [referenceCrates, Option.some.injEq] at h
    subst h
    exact decodeRecord_encodeRecord m
  gcm_open_seal {key nonce aad msg ct} h := by
    simp only [referenceCrates, Option.some.injEq] at h
    subst h
    have hlen : (msg ++ zeroTag).length - 16 = msg.length := by simp [zeroTag]
    simp only [referenceCrates, hlen, List.drop_left, List.take_left, if_true]
  gcm_tag {key nonce aad msg ct} h := by
    simp only [referenceCrates, Option.some.injEq] at h
    subst h
    simp [zeroTag]
  zstd_lossless h := by
    simp only [referenceCrates, Option.some.injEq] at h ⊢
    exact h.symm

theorem referenceCrates_lossless (word : Key) (ext : Option String) :
    LosslessFormat (referenceCrates word) ext := by
  intro img bytes h
  simp only [referenceCrates, Option.ite_none_right_eq_some, Option.some.injEq] at h
  obtain ⟨-, rfl⟩ := h
  refine ⟨.imageRgb8 img, ?_, rfl⟩
  simp only [referenceCrates, DynamicImage.toRgb8, decodeRaw_encodeRaw, Option.map_some]

/-! ## A run -/

/--
What every keyed function returns: it makes all channels active and selects the
first technique.
-/
def sampleWord : Key := Vector.replicate 32 6

/-- A grey picture of two by fifty pixels. -/
def sampleCover : RgbImage where
  width := 2
  height := 50
  raw := List.replicate 300 128
  width_lt := by decide
  height_lt := by decide
  raw_length := List.length_replicate
  raw_lt := by rw [List.length_replicate]; decide

/-- A cover and a payload of one byte. -/
def sampleDisk : Disk := fun path =>
  if path.fileName = some "cover.png" then some (encodeRaw sampleCover)
  else if path.fileName = some "payload.bin" then some [0xA5]
  else none

/-- Where a sample run writes. -/
def samplePng : Path := ⟨"", some "out.png"⟩

/-- Embed the one into the other. -/
def sampleArgs (output : Path) : EmbedArgs where
  cover := ⟨"", some "cover.png"⟩
  payload := ⟨"", some "payload.bin"⟩
  output := output
  secretFile := none
  secret := some "secret"
  context := "session-1"

/-- Nothing fails; the session nonce repeats `b`, and the nonce base `c`. -/
def sampleEnv (b c : UInt8) : EmbedEnv where
  entropy := .ok ()
  sessionNonce := .ok (Vector.replicate 12 b)
  salt := .ok (Vector.replicate 16 2)
  nonceBase := .ok (Vector.replicate 8 c)
  readsSecret := true
  readsPayload := true
  readsCover := true
  savesStego := .sound
  writesMetadata := .sound
  prints := true
  warns := true

/-- The ciphertext of a sample run. -/
def sampleEncrypted (c : UInt8) : Bytes :=
  (NonceManager.nonceAt (Vector.replicate 8 c) 0).toList ++ ([0xA5] ++ zeroTag)

theorem sampleEncrypted_length (c : UInt8) : (sampleEncrypted c).length = 29 := by
  simp [sampleEncrypted, zeroTag]

/-- The embedding parameters of a sample run. -/
def sampleParams : EmbedParams := ⟨.all, 0, sampleWord⟩

/-- The stego image of a sample run. -/
def sampleStego (c : UInt8) : RgbImage :=
  sampleCover.withRaw
    ((sequentialCarrier sampleCover.raw.length sampleParams).hide 0
      (framePayload (sampleEncrypted c)) sampleCover.raw)
    (Carrier.hide_length _ _ _ _)

/-- The keys of a sample run. -/
def sampleKeys (c : UInt8) : SessionKeys :=
  ⟨⟨sampleWord, ⟨⟨Vector.replicate 8 c, 0⟩, false⟩⟩, ⟨sampleWord⟩, sampleWord, sampleWord⟩

theorem sample_encrypt (c : UInt8) :
    ((sampleKeys c).encKey.encrypt (referenceCrates sampleWord).toAeadCrates [0xA5]
      (utf8 "session-1")).1 = .ok (sampleEncrypted c) := rfl

theorem sample_technique (c : UInt8) :
    (StegoEngine.techniqueOf ℚ (referenceCrates sampleWord).hmac .lsbSequential).embed sampleCover
      (sampleEncrypted c) sampleParams = .ok (sampleStego c) := by
  refine sequential_embed_ok ℚ _ sampleCover (sampleEncrypted c) sampleParams (by decide) ?_ ?_
  · rw [sampleEncrypted_length]
    decide
  · rw [sampleEncrypted_length]
    decide +kernel

theorem sample_engine (c : UInt8) : (StegoEngine.new ℚ (referenceCrates sampleWord).hmac).embed ℚ
    (referenceCrates sampleWord).hmac (.imageRgb8 sampleCover) (sampleEncrypted c) sampleWord
      sampleWord = .ok (.imageRgb8 (sampleStego c), ⟨"lsb-sequential-v1", ⟨"rgb", 0⟩⟩) := by
  have hselect : selectTechnique (referenceCrates sampleWord).hmac sampleWord (0.0 : ℚ)
      = .lsbSequential := by
    decide +kernel
  have hparams : randomizeParams (referenceCrates sampleWord).hmac sampleWord = sampleParams := by
    decide +kernel
  refine engine_embed_eq_ok.mpr ⟨0.0, rfl, sampleStego c, ?_, rfl, ?_⟩
  · rw [hselect, hparams, DynamicImage.toRgb8]
    exact sample_technique c
  · rw [hselect, hparams]
    decide

/-- The ciphertext can be read off the stego image. -/
theorem sampleStego_injective {c d : UInt8} (h : sampleStego c = sampleStego d) :
    sampleEncrypted c = sampleEncrypted d := by
  have hp : (planeOf .lsbSequential sampleParams).toNat < 8 := by decide
  have hlen : ∀ e, (sampleEncrypted e).length < 2 ^ 32 := fun e => by
    rw [sampleEncrypted_length]
    decide
  have hc := technique_roundTrip (by decide) hp (hlen c) (sample_technique c)
  have hd := technique_roundTrip (by decide) hp (hlen d) (sample_technique d)
  rw [h, sampleEncrypted_length] at hc
  rw [sampleEncrypted_length] at hd
  exact Except.ok.inj (hc.symm.trans hd)

/-- The values of a sample run. -/
def sampleTrace (b c : UInt8) : EmbedTrace where
  secret := utf8 "secret"
  sessionNonce := Vector.replicate 12 b
  salt := Vector.replicate 16 2
  rootKey := sampleWord
  keys := sampleKeys c
  payload := [0xA5]
  encrypted := sampleEncrypted c
  cover := .imageRgb8 sampleCover
  stego := .imageRgb8 (sampleStego c)
  result := ⟨"lsb-sequential-v1", ⟨"rgb", 0⟩⟩

/-- **The run is one**, with any session nonce but zero, on any disk with the same inputs. -/
theorem sampleTrace_valid {b c : UInt8}
    (hb : (Vector.replicate 12 b).toList.all (· == 0) = false) {env : EmbedEnv}
    (henv : { env with savesStego := .sound, writesMetadata := .sound, prints := true }
      = sampleEnv b c) {output : Path} {disk : Disk}
    (hdisk : ∀ p, sampleDisk p ≠ none → disk p = sampleDisk p) :
    (sampleTrace b c).Valid ℚ (referenceCrates sampleWord) env (sampleArgs output) disk := by
  obtain ⟨⟨readsSecret, readsPayload, readsCover, saves, writes, prints, warns⟩, entropy, nonce,
    salt, base⟩ := env
  cases henv
  exact
    { entropy := rfl
      secret_ok := rfl
      nonce_ok := by
        simp only [generateSessionNonce, inContext_outcome, mapErr_outcome, returned, mapErr_ok,
          withContext, ok_bind, hb]
        rfl
      salt_ok := rfl
      rootKey_ok := by
        simp only [deriveRootKey, EmbedTrace.kdf, hexField_encode]
        rfl
      keys_ok := deriveSessionKeys_eq_ok.mpr ⟨rfl, hb, rfl, rfl, rfl, rfl, _, rfl, rfl⟩
      payload_ok := readFile_eq_ok.mpr
        ⟨rfl, hdisk _ (show sampleDisk ⟨"", some "payload.bin"⟩ ≠ none by decide)⟩
      encrypted_ok := sample_encrypt c
      cover_ok := openImage_eq_ok.mpr ⟨encodeRaw sampleCover, rfl,
        hdisk _ (show sampleDisk ⟨"", some "cover.png"⟩ ≠ none from Option.some_ne_none _), by
        simp only [referenceCrates, decodeRaw_encodeRaw, Option.map_some, sampleTrace]⟩
      stego_ok := sample_engine c }

/-- The files a sample run leaves. -/
noncomputable def sampleWritten (b c : UInt8) (output : Path) (disk : Disk) : Disk :=
  Function.update (Function.update disk output (some (encodeRaw (sampleStego c))))
    (output.withExtension "meta")
    (some (encodeRecord ((sampleTrace b c).metadata (referenceCrates sampleWord) "session-1")))

theorem sampleWritten_meta (b c : UInt8) (output : Path) (disk : Disk) :
    sampleWritten b c output disk (output.withExtension "meta")
      = some (encodeRecord ((sampleTrace b c).metadata (referenceCrates sampleWord) "session-1")) :=
  Function.update_self ..

theorem sampleWritten_output (b c : UInt8) (output : Path)
    (h : output ≠ output.withExtension "meta") (disk : Disk) :
    sampleWritten b c output disk output = some (encodeRaw (sampleStego c)) := by
  rw [sampleWritten, Function.update_of_ne h, Function.update_self]

theorem sample_save {ext : Option String} (h : ext = some "png" ∨ ext = some "bmp") (c : UInt8) :
    (referenceCrates sampleWord).imageEncode ext (.imageRgb8 (sampleStego c))
      = some (encodeRaw (sampleStego c)) := if_pos h

theorem sample_embed {b c : UInt8} (hb : (Vector.replicate 12 b).toList.all (· == 0) = false)
    {output : Path} (hext : output.extension = some "png" ∨ output.extension = some "bmp")
    {disk : Disk} (hdisk : ∀ p, sampleDisk p ≠ none → disk p = sampleDisk p) :
    embed ℚ (referenceCrates sampleWord) (sampleEnv b c) (sampleArgs output) disk
      = (.ok (), sampleWritten b c output disk) := by
  have hvalid : (sampleTrace b c).Valid ℚ (referenceCrates sampleWord) (sampleEnv b c)
      (sampleArgs output) disk := sampleTrace_valid hb rfl hdisk
  have hprep := embedPrepare_eq_ok.mpr ⟨sampleTrace b c, hvalid, rfl, rfl⟩
  rw [embed, hprep]
  dsimp only [embedWrite, saveImage, sampleTrace]
  rw [show (sampleArgs output).output = output from rfl, sample_save hext]
  rfl

/-- The ciphertext of any run on a sample's inputs is short. -/
theorem sample_encrypted_length {b c : UInt8} {output : Path} {t : EmbedTrace}
    (h : t.Valid ℚ (referenceCrates sampleWord) (sampleEnv b c) (sampleArgs output) sampleDisk) :
    t.encrypted.length = 29 := by
  obtain ⟨compressed, nonce, ct, hcomp, hct, hlen, hout⟩ := h.encrypted_parts
  have hpayload : some [0xA5] = some t.payload := (readFile_eq_ok.mp h.payload_ok).2
  cases hpayload.trans hcomp
  have hct' : [0xA5] ++ zeroTag = ct := Option.some.inj hct
  rw [hout, List.length_append, hlen, ← hct']
  rfl

/-- Extract from the image at `stego` with the sample's secret and context. -/
def sampleExtractArgs (stego output : Path) : ExtractArgs where
  stego := stego
  output := output
  secretFile := none
  secret := some "secret"
  context := "session-1"

/-- Nothing fails. -/
def sampleExtractEnv : ExtractEnv where
  entropy := .ok ()
  nonceBase := .ok (Vector.replicate 8 4)
  readsMetadata := true
  readsSecret := true
  readsStego := true
  writesPayload := .sound
  prints := true
  warns := true

end Stegosafe.Proof
