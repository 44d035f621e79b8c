import Stegosafe.Proof.Authenticity
import Stegosafe.Proof.Density
import Stegosafe.Proof.Live

/-!
# The program does not panic

Sums, products, indices and shifts are checked all along, so a run could panic in any of
them: in the entropy oracle, in the edge detector, in the frame's bit count. It does not,
as long as pictures have fewer than `2 ^ 31` pixels and lengths stay below `2 ^ 60`
(`main_returns`), whatever the machine answers, whatever the files hold and whatever the
libraries compute. Every failure is then an error that `main` reports, but one: messages go
through macros that panic if the stream cannot be written.
-/

namespace Stegosafe.Proof

open Stegosafe Checked Outcome Text

/-- A picture with pixels, and fewer of them than a signed word counts. -/
def Moderate (img : RgbImage) : Prop :=
  1 ≤ img.width ∧ 1 ≤ img.height ∧ img.width * img.height < 2 ^ 31

/-- What a command reads stays within the limits. -/
def WithinLimits (crates : Crates) : Invocation → Disk → Prop
  | .embed m args, disk =>
      (∀ payload compressed, readFile m.readsPayload disk args.payload = .ok payload →
        crates.encodeAll payload = some compressed → compressed.length < 2 ^ 60)
      ∧ ∀ cover, openImage crates m.readsCover disk args.cover = .ok cover →
          Moderate cover.toRgb8
  | .extract m args, disk =>
      (∀ metadata, readMetadata crates m.readsMetadata disk (args.stego.withExtension "meta")
        = .ok metadata → metadata.encryptedLen.toNat < 2 ^ 60)
      ∧ ∀ stego, openImage crates m.readsStego disk args.stego = .ok stego →
          Moderate stego.toRgb8

section Limits

variable {F : Type} [Scalar F] {crates : Crates}

theorem Moderate.edgeSafe {img : RgbImage} (h : Moderate img) :
    EdgeSafe img.width img.height := edgeSafe_of_lt h.1 h.2.1 h.2.2

/-- There are no more strong edges than pixels. -/
theorem Moderate.strongEdges_lt {img : RgbImage} (h : Moderate img) :
    strongEdges F img < 2 ^ 31 := by
  have hcount : strongEdges F img ≤ (innerPixels img.width img.height).length :=
    List.countP_le_length
  have hinner : (innerPixels img.width img.height).length
      = (img.height - 1 - 1) * (img.width - 1 - 1) := by simp [innerPixels]
  have hle : (img.height - 1 - 1) * (img.width - 1 - 1) ≤ img.height * img.width :=
    Nat.mul_le_mul (by omega) (by omega)
  have harea := h.2.2
  rw [Nat.mul_comm] at harea
  omega

/-! ## Encryption -/

theorem next_returns (mgr : NonceManager) : Returns mgr.next.1 := by
  rw [NonceManager.next_eq]
  split
  · exact returns_fail _
  · exact returns_ok _

/-- A key with a healthy lock does not panic. -/
theorem encrypt_returns {k : AeadKey} (hhealthy : k.nonceMgr.poisoned = false)
    (payload aad : Bytes) : Returns (k.encrypt crates.toAeadCrates payload aad).1 := by
  have hcompress : Returns (compress crates.toAeadCrates payload) := returns_okOr
  have hlock : Returns k.lockNext.1 := by
    rw [AeadKey.lockNext_eq hhealthy]
    exact next_returns _
  unfold AeadKey.encrypt
  generalize compress crates.toAeadCrates payload = x at hcompress ⊢
  generalize k.lockNext = y at hlock ⊢
  cases x with
  | error e => exact hcompress
  | ok compressed =>
    obtain ⟨result, k'⟩ := y
    cases result with
    | error e =>
      obtain ⟨e', rfl⟩ := hlock.error rfl
      exact returns_fail e'
    | ok nonce => exact returns_okOr.bind fun _ _ => returns_ok _

/-- A ciphertext is 28 bytes longer than what it seals. -/
theorem encrypt_length (hlaw : LawfulAead crates.toAeadCrates) {k : AeadKey}
    {payload aad encrypted : Bytes}
    (h : (k.encrypt crates.toAeadCrates payload aad).1 = .ok encrypted) :
    ∃ compressed, crates.encodeAll payload = some compressed
      ∧ encrypted.length = compressed.length + 28 := by
  obtain ⟨compressed, hcompressed, nonce, -, hsealed⟩ :=
    (AeadKey.encrypt_eq_ok crates.toAeadCrates).mp h
  obtain ⟨ct, hct, rfl⟩ := (AeadKey.sealWith_eq_ok crates.toAeadCrates).mp hsealed
  have htag := hlaw.gcm_tag hct
  refine ⟨compressed, hcompressed, ?_⟩
  rw [List.length_append, Vector.length_toList]
  omega

/-! ## The commands -/

theorem generateSessionNonce_returns {entropy : Outcome CryptoError Nonce} (h : Returns entropy) :
    Returns (generateSessionNonce entropy) := by
  refine (withContext_returns h.mapErr).bind fun nonce _ => ?_
  split
  · exact returns_fail _
  · exact returns_ok _

theorem openImage_returns {io : Bool} {disk : Disk} {path : Path} :
    Returns (openImage crates io disk path) :=
  readFile_returns.mapErr.bind fun _ _ => returns_okOr

/-- **`embed` comes to its first write or returns an error**, if its files are within the limits. -/
theorem embedPrepare_panics (hlaw : LawfulAead crates.toAeadCrates) {env : EmbedEnv}
    {args : EmbedArgs} {disk : Disk}
    (hpayload : ∀ payload compressed, readFile env.readsPayload disk args.payload = .ok payload →
      crates.encodeAll payload = some compressed → compressed.length < 2 ^ 60)
    (hcover : ∀ cover, openImage crates env.readsCover disk args.cover = .ok cover →
      Moderate cover.toRgb8) :
    PanicsOnly (Unprintable env.warns) (embedPrepare F crates env args disk) := by
  unfold embedPrepare embedSteps
  refine (withContext_returns returns_returned.mapErr).panicsOnly.bind fun _ _ => ?_
  refine (loadSecret_panics.imp fun p hp => hp.1).bind fun secret _ => Returns.panicsOnly ?_
  refine (generateSessionNonce_returns returns_returned).bind fun sessionNonce _ => ?_
  refine (returns_returned.mapErr.bind fun _ _ => returns_ok _).bind fun kdf _ => ?_
  refine (withContext_returns deriveRootKey_returns).bind fun rootKey _ => ?_
  refine (withContext_returns (deriveSessionKeys_returns returns_returned).mapErr).bind
    fun keys hkeys => ?_
  refine (withContext_returns readFile_returns).bind fun payload hread => ?_
  -- the keys are fresh, so the lock is healthy
  obtain ⟨-, -, -, -, -, -, base, -, hmgr⟩ :=
    deriveSessionKeys_eq_ok.mp (mapErr_eq_ok.mp (withContext_eq_ok.mp hkeys))
  have hhealthy : keys.encKey.nonceMgr.poisoned = false := by rw [hmgr]
  refine (withContext_returns (encrypt_returns hhealthy _ _).mapErr).bind
    fun encrypted hencrypted => ?_
  obtain ⟨compressed, hcompressed, hlen⟩ :=
    encrypt_length hlaw (mapErr_eq_ok.mp (withContext_eq_ok.mp hencrypted))
  have hsmall := hpayload payload compressed (withContext_eq_ok.mp hread) hcompressed
  refine (withContext_returns openImage_returns).bind fun cover hopened => ?_
  have hmoderate := hcover cover (withContext_eq_ok.mp hopened)
  have hengine : Returns ((StegoEngine.new F crates.hmac).embed F crates.hmac
      (.imageRgb8 cover.toRgb8) encrypted keys.techniqueSeed keys.paramSeed) :=
    engine_embed_returns hmoderate.edgeSafe hmoderate.strongEdges_lt _ _ (by omega)
  refine (withContext_returns (Returns.mapErr hengine)).bind fun embedded _ => ?_
  refine Returns.bind ?_ fun _ _ => returns_ok _
  unfold metadataMac
  exact returns_ok _

/-- Its end panics only if its message cannot be printed. -/
theorem embedWrite_panics (system : EmbedSystem) (output : Path) (stego : DynamicImage)
    (metadata : Metadata) (disk : Disk) : PanicsOnly (Unprintable system.prints)
      (embedWrite crates system output stego metadata disk).1 := by
  rcases embedWrite_cases crates system output stego metadata disk with
    ⟨e, hw⟩ | ⟨e, image, disk', -, -, -, hw⟩ | ⟨image, text, -, -, hw⟩
  · rw [hw]
    exact (returns_fail e).panicsOnly
  · rw [hw]
    exact (returns_fail e).panicsOnly
  · rw [hw]
    exact printLine_panics _

/-- A message of the command cannot be printed: of its success, or of a warning. -/
def Unreported : Invocation → Panic → Prop
  | .embed m _, p => Unprintable m.prints p ∨ Unprintable m.warns p
  | .extract m _, p => Unprintable m.prints p ∨ Unprintable m.warns p

theorem embed_panics {m : EmbedMachine} {args : EmbedArgs} {env : EmbedEnv} {disk : Disk}
    (henv : env.toEmbedSystem = m.toEmbedSystem)
    (h : PanicsOnly (Unprintable m.warns) (embedPrepare F crates env args disk)) :
    PanicsOnly (Unreported (.embed m args)) (embed F crates env args disk).1 := by
  unfold embed
  cases hprep : embedPrepare F crates env args disk with
  | error e =>
    intro p hp
    cases hp
    exact Or.inr (h p hprep)
  | ok prepared =>
    dsimp only
    rw [henv]
    exact (embedWrite_panics _ _ _ _ _).imp fun p hp => Or.inl hp

theorem extract_panics {m : ExtractMachine} {args : ExtractArgs} {env : ExtractEnv} {disk : Disk}
    (henv : env.toExtractSystem = m.toExtractSystem)
    (h : PanicsOnly (Unprintable m.warns) (extractPlaintext F crates env args disk)) :
    PanicsOnly (Unreported (.extract m args)) (extract F crates env args disk).1 := by
  unfold extract
  cases hplain : extractPlaintext F crates env args disk with
  | error e =>
    intro p hp
    cases hp
    exact Or.inr (h p hplain)
  | ok plaintext =>
    dsimp only
    rw [henv]
    exact (extractWrite_panics _ _ _ _).imp fun p hp => Or.inl hp

/-- What is within the limits does not overrun the extractor. -/
theorem not_overruns {env : ExtractEnv} {args : ExtractArgs} {disk : Disk}
    (hlen : ∀ metadata, readMetadata crates env.readsMetadata disk
      (args.stego.withExtension "meta") = .ok metadata → metadata.encryptedLen.toNat < 2 ^ 60)
    (hstego : ∀ stego, openImage crates env.readsStego disk args.stego = .ok stego →
      Moderate stego.toRgb8) : ¬ Overruns crates env args disk := by
  rintro ⟨metadata, keys, params, stego, id, hsetup, -, hover⟩
  obtain ⟨-, hmetadata, -, -, -, hopened⟩ := extractSetup_eq_ok.mp hsetup
  have hsmall := hlen metadata hmetadata
  rcases hover with hbits | ⟨-, hunsafe⟩
  · omega
  · exact hunsafe (hstego stego hopened).edgeSafe

/--
**The program does not panic** on files within the limits, as long as it can print.

Whatever the sources of entropy answer, whichever reads and writes fail and whatever the
libraries make of the files, as long as sealing adds a tag of 16 bytes, each command
succeeds or reports an error. The one panic left is that of a message on a stream that
cannot be written.
-/
theorem main_returns (F : Type) [Scalar F] (crates : Crates)
    (hlaw : LawfulAead crates.toAeadCrates) (sha : Sha256) (i : Invocation) (disk : Disk)
    (hlimits : WithinLimits crates i disk) :
    PanicsOnly (Unreported i) (Live.main F crates sha i disk).1 := by
  cases i with
  | embed m args =>
    obtain ⟨hpayload, hcover⟩ := hlimits
    change PanicsOnly _ (Live.embed F crates sha m args disk).1
    rw [embed_answers]
    have hsystem := embedEnv_system sha m
    refine embed_panics hsystem ?_
    rw [← hsystem] at hpayload hcover ⊢
    exact embedPrepare_panics hlaw hpayload hcover
  | extract m args =>
    obtain ⟨hlen, hstego⟩ := hlimits
    change PanicsOnly _ (Live.extract F crates sha m args disk).1
    rw [extract_answers]
    refine extract_panics rfl ((extractPlaintext_panics (not_overruns hlen hstego)).imp ?_)
    rintro p ⟨rfl, hmute⟩
    exact ⟨rfl, hmute.1⟩

end Limits

/-- The sample's files are within the limits. -/
theorem sample_limits : WithinLimits (referenceCrates sampleWord)
    (.embed sampleMachine (sampleArgs samplePng)) sampleDisk := by
  refine ⟨fun payload compressed hread hcompressed => ?_, fun cover hopened => ?_⟩
  · obtain ⟨-, hpayload⟩ := readFile_eq_ok.mp hread
    obtain rfl : [0xA5] = payload := Option.some.inj hpayload
    obtain rfl : [0xA5] = compressed := Option.some.inj hcompressed
    decide
  · obtain ⟨raw, -, hraw, hdecoded⟩ := openImage_eq_ok.mp hopened
    obtain rfl : encodeRaw sampleCover = raw := Option.some.inj hraw
    simp only [referenceCrates, decodeRaw_encodeRaw, Option.map_some, Option.some.injEq]
      at hdecoded
    subst hdecoded
    exact ⟨by decide, by decide, by decide⟩

theorem main_returns_sample : Returns (Live.main ℚ (referenceCrates sampleWord) sampleSha
    (.embed sampleMachine (sampleArgs samplePng)) sampleDisk).1 := by
  refine (main_returns ℚ (referenceCrates sampleWord)
    (referenceCrates_lawful sampleWord).toLawfulAead sampleSha _ sampleDisk
    sample_limits).returns fun p hp => ?_
  rcases hp with ⟨-, hmute⟩ | ⟨-, hmute⟩
  · cases hmute
  · cases hmute

end Stegosafe.Proof
