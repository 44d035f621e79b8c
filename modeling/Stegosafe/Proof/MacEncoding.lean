import Stegosafe.Proof.Commands

/-!
# The bytes the MAC covers

Which triples of record, context and payload have the same MAC input. The lines up to
`embedding` are peeled one by one: their values are digits, hex or fixed names once the
checks of `extract` have passed. The channels tag is not of that kind, because `from_tag`
only looks for letters in it. A tag may therefore go on past the end of its line and spell
out the lines that follow another tag (`Imitates`); this is the only way two triples that
differ can collide (`macInput_cases`).
-/

namespace Stegosafe.Proof

open Stegosafe Checked Outcome Text

/-- A record, with what its MAC covers besides it. -/
structure Presented where
  metadata : Metadata
  context : String
  payload : Bytes

/-- What `extract` has checked when it comes to the MAC, but for the MAC field itself. -/
structure Presented.Accepted (p : Presented) : Prop where
  version : p.metadata.version = metadataVersion
  algorithm : p.metadata.kdf.algorithm = kdfAlgorithm
  outputLen : p.metadata.kdf.outputLen = rootKeyLen
  salt : ∃ salt : Vector UInt8 argon2SaltLen, Hex.decode p.metadata.kdf.salt = some salt.toList
  nonce : ∃ nonce : Nonce, Hex.decode p.metadata.sessionNonce = some nonce.toList
  technique : ∃ id, TechniqueId.fromName p.metadata.embedding = some id
  params : ∀ pm, p.metadata.embedParams = some pm →
    ∃ key params, EmbedParams.fromMeta pm key = some params
  length : p.payload.length = p.metadata.encryptedLen.toNat
  nonempty : p.metadata.encryptedLen ≠ 0

namespace Presented

/-- The bytes the MAC is computed over. -/
def macInput (p : Presented) : Bytes := metadataMacInput p.metadata p.context p.payload

/-- Equal but for the MAC field. -/
def Agree (a b : Presented) : Prop :=
  { a.metadata with mac := b.metadata.mac } = b.metadata ∧ a.context = b.context
    ∧ a.payload = b.payload

/-- A line before its break. -/
def lineText (label value : String) : String := label ++ ":" ++ value

/-- The text between a channels tag and the context. -/
def tagTail (bitPlane : UInt8) (len : UInt64) : String :=
  "\n" ++ lineText "embed_bit_plane" (toString bitPlane.toNat)
    ++ "\n" ++ lineText "encrypted_len" (toString len.toNat) ++ "\n" ++ lineText "context" ""

/-- What the MAC covers from the context on. -/
def closing (p : Presented) : Bytes := utf8 (p.context ++ "\n") ++ utf8 "payload:\n" ++ p.payload

/-- Equal on the lines up to `embedding`. -/
def SameHeader (a b : Metadata) : Prop :=
  a.version = b.version ∧ a.sessionNonce = b.sessionNonce ∧ a.kdf = b.kdf
    ∧ a.embedding = b.embedding

/--
`b` imitates `a`: after `a`'s own tag, `b`'s tag goes on with `a`'s plane and length and
some text, and `a`'s context and payload are that text with `b`'s later lines and payload.
-/
def Imitates (b a : Presented) : Prop :=
  SameHeader a.metadata b.metadata ∧ ∃ pa pb text,
    a.metadata.embedParams = some pa ∧ b.metadata.embedParams = some pb
      ∧ pb.channels = pa.channels ++ tagTail pa.bitPlane a.metadata.encryptedLen ++ text
      ∧ a.closing = utf8 (text ++ tagTail pb.bitPlane b.metadata.encryptedLen) ++ b.closing

theorem SameHeader.symm {a b : Metadata} (h : SameHeader a b) : SameHeader b a :=
  ⟨h.1.symm, h.2.1.symm, h.2.2.1.symm, h.2.2.2.symm⟩

theorem Agree.symm {a b : Presented} (h : Agree a b) : Agree b a :=
  ⟨by rw [← h.1], h.2.1.symm, h.2.2.symm⟩

end Presented

open Presented

/-! ## Lines -/

theorem metadataLine_eq (label value : String) (rest : Bytes) :
    metadataLine label value ++ rest = utf8 (label ++ ":") ++ (utf8 value ++ newline :: rest) := by
  simp only [metadataLine, utf8_append, utf8_newline, List.append_assoc, List.singleton_append]

/-- Two equal strings that start with a line of the same label share the line. -/
theorem metadataLine_inj {label v w : String} {x y : Bytes} (hv : newline ∉ utf8 v)
    (hw : newline ∉ utf8 w) (h : metadataLine label v ++ x = metadataLine label w ++ y) :
    v = w ∧ x = y := by
  rw [metadataLine_eq, metadataLine_eq] at h
  obtain ⟨hvw, hxy⟩ := line_inj hv hw (List.append_cancel_left h)
  exact ⟨utf8_injective hvw, hxy⟩

theorem metadataLine_nat_inj {label : String} {m n : Nat} {x y : Bytes}
    (h : metadataLine label (toString m) ++ x = metadataLine label (toString n) ++ y) :
    m = n ∧ x = y := by
  obtain ⟨hmn, hxy⟩ := metadataLine_inj (newline_notMem_toString _) (newline_notMem_toString _) h
  exact ⟨toString_injective hmn, hxy⟩

theorem technique_newline_notMem {name : String} {id : TechniqueId}
    (h : TechniqueId.fromName name = some id) : newline ∉ utf8 name := by
  rw [TechniqueId.fromName_eq_some.mp h]
  cases id <;> decide

/-- **The lines up to `embedding` are peeled.** -/
theorem metadataHeader_inj {a b : Presented} (ha : a.Accepted) (hb : b.Accepted) {x y : Bytes}
    (h : metadataHeader a.metadata ++ x = metadataHeader b.metadata ++ y) :
    SameHeader a.metadata b.metadata ∧ x = y := by
  obtain ⟨saltA, hsaltA⟩ := ha.salt
  obtain ⟨saltB, hsaltB⟩ := hb.salt
  obtain ⟨nonceA, hnonceA⟩ := ha.nonce
  obtain ⟨nonceB, hnonceB⟩ := hb.nonce
  obtain ⟨idA, hidA⟩ := ha.technique
  obtain ⟨idB, hidB⟩ := hb.technique
  simp only [metadataHeader, List.append_assoc] at h
  -- the first line is fixed; the others fall one by one, each by what the checks say of it
  replace h := List.append_cancel_left h
  obtain ⟨-, h⟩ := metadataLine_nat_inj h
  obtain ⟨hnonce, h⟩ :=
    metadataLine_inj (Hex.newline_notMem hnonceA) (Hex.newline_notMem hnonceB) h
  rw [ha.algorithm, hb.algorithm] at h
  replace h := List.append_cancel_left h
  obtain ⟨hsalt, h⟩ := metadataLine_inj (Hex.newline_notMem hsaltA) (Hex.newline_notMem hsaltB) h
  obtain ⟨hmemory, h⟩ := metadataLine_nat_inj h
  obtain ⟨htime, h⟩ := metadataLine_nat_inj h
  obtain ⟨hpar, h⟩ := metadataLine_nat_inj h
  obtain ⟨-, h⟩ := metadataLine_nat_inj h
  obtain ⟨hname, h⟩ :=
    metadataLine_inj (technique_newline_notMem hidA) (technique_newline_notMem hidB) h
  have hkdf : a.metadata.kdf = b.metadata.kdf := by
    have halg := ha.algorithm.trans hb.algorithm.symm
    have hout := ha.outputLen.trans hb.outputLen.symm
    revert halg hout hsalt hmemory htime hpar
    obtain ⟨algA, sA, mA, tA, pA, oA⟩ := a.metadata.kdf
    obtain ⟨algB, sB, mB, tB, pB, oB⟩ := b.metadata.kdf
    intro hsalt hmemory htime hpar halg hout
    simp only [KdfMetadata.mk.injEq]
    exact ⟨halg, hsalt, UInt32.toNat_inj.mp hmemory, UInt32.toNat_inj.mp htime,
      UInt32.toNat_inj.mp hpar, hout⟩
  exact ⟨⟨ha.version.trans hb.version.symm, hnonce, hkdf, hname⟩, h⟩

/-! ## After the header -/

/-- The lines between a channels tag and the context, and the rest. -/
theorem tagTail_eq (bitPlane : UInt8) (len : UInt64) (rest : Bytes) :
    utf8 (tagTail bitPlane len) ++ rest
      = newline :: (utf8 (lineText "embed_bit_plane" (toString bitPlane.toNat))
          ++ newline :: (utf8 (lineText "encrypted_len" (toString len.toNat))
            ++ newline :: (utf8 (lineText "context" "") ++ rest))) := by
  simp only [tagTail, utf8_append, utf8_newline, List.append_assoc, List.cons_append,
    List.nil_append]

/-- The MAC input of a record without embedding parameters. -/
theorem macInput_none {p : Presented} (h : p.metadata.embedParams = none) :
    p.macInput = metadataHeader p.metadata
      ++ (metadataLine "encrypted_len" (toString p.metadata.encryptedLen.toNat)
        ++ (utf8 (lineText "context" "") ++ p.closing)) := by
  simp only [macInput, metadataMacInput, metadataParams, h, closing, metadataLine, lineText,
    utf8_append, utf8_newline, utf8_empty, List.append_assoc, List.nil_append]

/-- The MAC input of a record with embedding parameters. -/
theorem macInput_some {p : Presented} {pm : EmbedParamsMeta}
    (h : p.metadata.embedParams = some pm) :
    p.macInput = metadataHeader p.metadata
      ++ (utf8 (lineText "embed_channels" "")
        ++ (utf8 pm.channels
          ++ (utf8 (tagTail pm.bitPlane p.metadata.encryptedLen) ++ p.closing))) := by
  simp only [macInput, metadataMacInput, metadataParams, h, closing, metadataLine, lineText,
    tagTail, utf8_append, utf8_newline, utf8_empty, List.append_assoc, List.nil_append]

theorem newline_notMem_lineText (label : String) (hlabel : newline ∉ utf8 label) (n : Nat) :
    newline ∉ utf8 (lineText label (toString n)) := by
  have hcolon : newline ∉ utf8 ":" := by decide
  simp only [lineText, utf8_append, List.mem_append, not_or]
  exact ⟨⟨hlabel, hcolon⟩, newline_notMem_toString n⟩

theorem newline_notMem_planeLine (n : Nat) :
    newline ∉ utf8 (lineText "embed_bit_plane" (toString n)) :=
  newline_notMem_lineText _ (by decide) n

theorem newline_notMem_lengthLine (n : Nat) :
    newline ∉ utf8 (lineText "encrypted_len" (toString n)) :=
  newline_notMem_lineText _ (by decide) n

/-- Lines of labels that start differently are different. -/
theorem lineText_ne {l m v w : String} {x y : Bytes} (hl : 2 ≤ (utf8 l).length)
    (hm : 2 ≤ (utf8 m).length) (hne : (utf8 l).take 2 ≠ (utf8 m).take 2) :
    utf8 (lineText l v) ++ x ≠ utf8 (lineText m w) ++ y := by
  intro h
  simp only [lineText, utf8_append, List.append_assoc] at h
  have htake := congrArg (List.take 2) h
  rw [List.take_append_of_le_length hl, List.take_append_of_le_length hm] at htake
  exact hne htake

/--
**How far a longer tag goes.**

A string in which the lines after a tag start later than in another is the other's
lines up to the context, or ends with the tag itself.
-/
theorem tagTail_cases {pa pb : UInt8} {na nb : UInt64} {d x y : Bytes}
    (h : utf8 (tagTail pa na) ++ x = d ++ (utf8 (tagTail pb nb) ++ y)) :
    d = [] ∨ ∃ z, d = utf8 (tagTail pa na) ++ z ∧ x = z ++ (utf8 (tagTail pb nb) ++ y) := by
  rw [tagTail_eq pb] at h ⊢
  rw [tagTail_eq pa] at h
  cases d with
  | nil => exact Or.inl rfl
  | cons c d =>
    -- `d` starts with the line break of the tail it delays
    rw [List.cons_append] at h
    obtain ⟨rfl, htail⟩ := List.cons.inj h
    have hplane := newline_notMem_planeLine pa.toNat
    have hlen := newline_notMem_lengthLine na.toNat
    -- it cannot end before the plane's line, nor before the length's
    rcases break_line hplane htail.symm with hsame | ⟨d₁, rfl, h₁⟩
    · exact absurd hsame (lineText_ne (by decide) (by decide) (by decide))
    rcases break_line hlen h₁ with hsame | ⟨d₂, rfl, h₂⟩
    · exact absurd hsame (lineText_ne (by decide) (by decide) (by decide))
    obtain ⟨z, rfl, hz⟩ := break_past (by decide) h₂
    exact Or.inr ⟨z, (tagTail_eq pa na z).symm, hz.symm⟩

/-- The end determines context and payload, once the payload's length is known. -/
theorem closing_inj {a b : Presented} (hlen : a.payload.length = b.payload.length)
    (h : a.closing = b.closing) : a.context = b.context ∧ a.payload = b.payload := by
  obtain ⟨htext, hpayload⟩ := List.append_inj' h hlen
  have hcontext := utf8_injective (List.append_cancel_right htext)
  exact ⟨String.append_left_inj _ |>.mp hcontext, hpayload⟩

/-! ## Collisions -/

theorem agree_of {a b : Presented} (ha : a.Accepted) (hb : b.Accepted)
    (hsame : SameHeader a.metadata b.metadata)
    (hparams : a.metadata.embedParams = b.metadata.embedParams)
    (hlen : a.metadata.encryptedLen = b.metadata.encryptedLen) (hclosing : a.closing = b.closing) :
    Agree a b := by
  obtain ⟨hcontext, hpayload⟩ :=
    closing_inj (by rw [ha.length, hb.length, hlen]) hclosing
  refine ⟨?_, hcontext, hpayload⟩
  obtain ⟨hversion, hnonce, hkdf, hname⟩ := hsame
  revert hversion hnonce hkdf hname hparams hlen
  obtain ⟨versionA, nonceA, kdfA, nameA, paramsA, lenA, macA⟩ := a.metadata
  intro hversion hnonce hkdf hname hparams hlen
  subst hversion hnonce hkdf hname hparams hlen
  rfl

/-- Records with and without embedding parameters differ after the header. -/
theorem lengthLine_ne_channels (len : UInt64) (x y : Bytes) :
    metadataLine "encrypted_len" (toString len.toNat) ++ x
      ≠ utf8 (lineText "embed_channels" "") ++ y := by
  rw [metadataLine_eq, ← List.append_assoc, ← utf8_append]
  exact lineText_ne (by decide) (by decide) (by decide)

/-- One tag goes past the other, or they are the same. -/
theorem tags_cases {a b : Presented} (ha : a.Accepted) (hb : b.Accepted)
    (hsame : SameHeader a.metadata b.metadata) {pa pb : EmbedParamsMeta}
    (hpa : a.metadata.embedParams = some pa) (hpb : b.metadata.embedParams = some pb) {d : Bytes}
    (hd : utf8 pb.channels = utf8 pa.channels ++ d)
    (h : utf8 (tagTail pa.bitPlane a.metadata.encryptedLen) ++ a.closing
      = d ++ (utf8 (tagTail pb.bitPlane b.metadata.encryptedLen) ++ b.closing)) :
    Agree a b ∨ Imitates b a := by
  rcases tagTail_cases h with rfl | ⟨z, rfl, hz⟩
  · -- the same tag: the lines after it are peeled like those before
    refine Or.inl ?_
    rw [List.nil_append, tagTail_eq, tagTail_eq] at h
    obtain ⟨hplane, h⟩ := line_inj (newline_notMem_planeLine _) (newline_notMem_planeLine _)
      (List.cons.inj h).2
    obtain ⟨hlen, h⟩ := line_inj (newline_notMem_lengthLine _) (newline_notMem_lengthLine _) h
    have hchannels : pb.channels = pa.channels :=
      utf8_injective (hd.trans (List.append_nil _))
    have hplane := UInt8.toNat_inj.mp (toString_injective (String.append_right_inj _ |>.mp
      (utf8_injective hplane)))
    have hlen := UInt64.toNat_inj.mp (toString_injective (String.append_right_inj _ |>.mp
      (utf8_injective hlen)))
    refine agree_of ha hb hsame ?_ hlen (List.append_cancel_left h)
    rw [hpa, hpb, Option.some.injEq, EmbedParamsMeta.mk.injEq]
    exact ⟨hchannels.symm, hplane⟩
  · -- a longer tag: it holds the first one's tail, and what follows that is text too
    refine Or.inr ⟨hsame, pa, pb, ?_⟩
    obtain ⟨rest, hrest, hutf8⟩ := exists_utf8_of_append hd
    obtain ⟨text, rfl, rfl⟩ := exists_utf8_of_append hutf8
    refine ⟨text, hpa, hpb, by rw [hrest, String.append_assoc], ?_⟩
    rw [hz, utf8_append, List.append_assoc]

/-- **The collisions of the MAC input**: none but the imitations. -/
theorem macInput_cases {a b : Presented} (ha : a.Accepted) (hb : b.Accepted)
    (h : a.macInput = b.macInput) : Agree a b ∨ Imitates b a ∨ Imitates a b := by
  cases hpa : a.metadata.embedParams with
  | none =>
    rw [macInput_none hpa] at h
    cases hpb : b.metadata.embedParams with
    | none =>
      rw [macInput_none hpb] at h
      obtain ⟨hsame, h⟩ := metadataHeader_inj ha hb h
      obtain ⟨hlen, h⟩ := metadataLine_nat_inj h
      exact Or.inl (agree_of ha hb hsame (hpa.trans hpb.symm) (UInt64.toNat_inj.mp hlen)
        (List.append_cancel_left h))
    | some pb =>
      rw [macInput_some hpb] at h
      obtain ⟨-, h⟩ := metadataHeader_inj ha hb h
      exact absurd h (lengthLine_ne_channels _ _ _)
  | some pa =>
    rw [macInput_some hpa] at h
    cases hpb : b.metadata.embedParams with
    | none =>
      rw [macInput_none hpb] at h
      obtain ⟨-, h⟩ := metadataHeader_inj ha hb h
      exact absurd h.symm (lengthLine_ne_channels _ _ _)
    | some pb =>
      rw [macInput_some hpb] at h
      obtain ⟨hsame, h⟩ := metadataHeader_inj ha hb h
      -- two tags, each followed by its tail: one of them is a prefix of the other
      rcases List.append_eq_append_iff.mp (List.append_cancel_left h) with
        ⟨d, hd, h⟩ | ⟨d, hd, h⟩
      · exact (tags_cases ha hb hsame hpa hpb hd h).imp id Or.inl
      · rcases tags_cases hb ha hsame.symm hpb hpa hd h with hagree | himitates
        · exact Or.inl hagree.symm
        · exact Or.inr (Or.inr himitates)

theorem Presented.Imitates.macInput_eq {a b : Presented} (h : Imitates b a) :
    a.macInput = b.macInput := by
  obtain ⟨⟨hversion, hnonce, hkdf, hname⟩, pa, pb, text, hpa, hpb, htag, hclosing⟩ := h
  have hheader : metadataHeader a.metadata = metadataHeader b.metadata := by
    rw [metadataHeader, metadataHeader, hversion, hnonce, hkdf, hname]
  rw [macInput_some hpa, macInput_some hpb, hheader, htag, hclosing]
  simp only [utf8_append, List.append_assoc]

/-- The imitated one has more to say from the context on. -/
theorem Presented.Imitates.closing_ne {a b : Presented} (h : Imitates b a) :
    a.closing ≠ b.closing := by
  obtain ⟨-, pa, pb, text, -, -, -, hclosing⟩ := h
  intro heq
  have hlength := congrArg List.length (hclosing.symm.trans heq)
  rw [utf8_append, List.append_assoc, tagTail_eq] at hlength
  simp only [List.length_append, List.length_cons] at hlength
  omega

theorem Presented.Imitates.not_agree {a b : Presented} (h : Imitates b a) : ¬ Agree a b := by
  obtain ⟨-, pa, pb, text, hpa, hpb, htag, -⟩ := h
  intro hagree
  obtain ⟨hfields, -, -⟩ := hagree
  have hparams : some pa = some pb := by
    rw [← hpa, ← hpb, ← hfields]
  rw [Option.some.injEq] at hparams
  -- the imitating tag is longer
  have hlength := congrArg String.length ((congrArg EmbedParamsMeta.channels hparams).trans htag)
  simp only [String.length_append, tagTail, lineText] at hlength
  have hbreak : "\n".length = 1 := by decide
  omega

/-- Only a tag with a line break imitates. -/
theorem Presented.Imitates.newline_mem {a b : Presented} (h : Imitates b a) {pb : EmbedParamsMeta}
    (hpb : b.metadata.embedParams = some pb) : newline ∈ utf8 pb.channels := by
  obtain ⟨-, pa, pb', text, -, hpb', htag, -⟩ := h
  obtain rfl : pb = pb' := Option.some.inj (hpb.symm.trans hpb')
  rw [htag, utf8_append, utf8_append, List.append_assoc, tagTail_eq]
  exact List.mem_append_right _ List.mem_cons_self

/-- A record with the given tag and plane, and its context and payload. -/
def tagged (channels : String) (bitPlane : UInt8) (len : UInt64) (context : String) :
    Presented where
  metadata :=
    { version := metadataVersion
      sessionNonce := Hex.encode (Vector.replicate 12 1).toList
      kdf :=
        { algorithm := kdfAlgorithm
          salt := Hex.encode (Vector.replicate 16 2).toList
          memoryCostKib := argon2MemoryKib
          timeCost := argon2TimeCost
          parallelism := argon2Parallelism
          outputLen := rootKeyLen }
      embedding := TechniqueId.lsbSequential.name
      embedParams := some ⟨channels, bitPlane⟩
      encryptedLen := len
      mac := "" }
  context := context
  payload := List.replicate len.toNat 0

theorem tagged_accepted {channels : String} {bitPlane : UInt8} {len : UInt64} {context : String}
    {mask : ChannelMask} (htag : ChannelMask.fromTag channels = some mask)
    (hplane : bitPlane ≤ 1) (hlen : len ≠ 0) : (tagged channels bitPlane len context).Accepted where
  version := rfl
  algorithm := rfl
  outputLen := rfl
  salt := ⟨_, Hex.decode_encode _⟩
  nonce := ⟨_, Hex.decode_encode _⟩
  technique := ⟨.lsbSequential, TechniqueId.fromName_eq_some.mpr rfl⟩
  params := by
    intro pm hpm
    cases hpm
    exact ⟨Vector.replicate 32 0, ⟨mask, bitPlane, _⟩,
      EmbedParams.fromMeta_eq_some.mpr ⟨htag, hplane, rfl, rfl⟩⟩
  length := List.length_replicate
  nonempty := hlen

/-- The tag that goes past the end of its line collides with the one that does not. -/
theorem tagged_collision (channels text : String) (pa pb : UInt8) (len : UInt64) :
    (tagged (channels ++ tagTail pa len ++ text) pb len "").Imitates
      (tagged channels pa len (text ++ tagTail pb len)) := by
  refine ⟨⟨rfl, rfl, rfl, rfl⟩, ⟨channels, pa⟩, ⟨_, pb⟩, text, rfl, rfl, rfl, ?_⟩
  simp only [closing, tagged, utf8_append, utf8_empty, List.append_assoc, List.nil_append]

/--
**The MAC encoding tells two triples apart, unless one imitates the other.**

For any two triples that have passed the checks before the MAC: equal MAC inputs
come from equal triples exactly when neither channels tag spells out the lines that
follow the other.
-/
theorem macInput_injective_iff {a b : Presented} (ha : a.Accepted) (hb : b.Accepted) :
    (a.macInput = b.macInput → Agree a b) ↔ ¬ Imitates a b ∧ ¬ Imitates b a := by
  constructor
  · intro h
    exact ⟨fun himitates => himitates.not_agree (h himitates.macInput_eq.symm).symm,
      fun himitates => himitates.not_agree (h himitates.macInput_eq)⟩
  · intro hno heq
    obtain ⟨hab, hba⟩ := hno
    -- of the three ways to collide only agreement is left
    rcases macInput_cases ha hb heq with hagree | himitates | himitates
    · exact hagree
    · exact absurd himitates hba
    · exact absurd himitates hab

theorem macInput_injective_red_green :
    (tagged "r" 0 1 "session-1").macInput ≠ (tagged "g" 0 1 "session-1").macInput := by
  have hred : ChannelMask.fromTag "r" = some ⟨true, false, false⟩ := by decide
  have hgreen : ChannelMask.fromTag "g" = some ⟨false, true, false⟩ := by decide
  intro heq
  have hagree := (macInput_injective_iff (tagged_accepted hred (by decide) (by decide))
    (tagged_accepted hgreen (by decide) (by decide))).mpr
      ⟨fun h => absurd (h.newline_mem rfl) (by decide),
        fun h => absurd (h.newline_mem rfl) (by decide)⟩ heq
  exact absurd (congrArg Metadata.embedParams hagree.1) (by decide)

/-- Records that differ in tag, plane and context, with one MAC input. -/
theorem macInput_collision :
    let a := tagged "r" 0 1 "D\nembed_bit_plane:1\nencrypted_len:1\ncontext:"
    let b := tagged "r\nembed_bit_plane:0\nencrypted_len:1\ncontext:D" 1 1 ""
    a.Accepted ∧ b.Accepted ∧ a.macInput = b.macInput ∧ ¬ Agree a b := by
  intro a b
  have ha : a = tagged "r" 0 1 ("D" ++ tagTail 1 1) := congrArg (tagged "r" 0 1) (by decide)
  have hb : b = tagged ("r" ++ tagTail 0 1 ++ "D") 1 1 "" :=
    congrArg (tagged · 1 1 "") (by decide)
  have hcollision := tagged_collision "r" "D" 0 1 1
  rw [← ha, ← hb] at hcollision
  exact ⟨tagged_accepted (show ChannelMask.fromTag "r" = some ⟨true, false, false⟩ by decide)
      (by decide) (by decide),
    tagged_accepted (show ChannelMask.fromTag _ = some ⟨true, false, true⟩ by decide)
      (by decide) (by decide), hcollision.macInput_eq, hcollision.not_agree⟩

/--
**What a check on tags has to exclude.**

Over the records whose tag is one of `tags`, the encoding is injective exactly when no
accepted tag of `tags` goes on past another with a plane, a length and the label of the
context.
-/
theorem macInput_injective_on_iff (tags : Set String) :
    (∀ a b : Presented, a.Accepted → b.Accepted →
        (∀ pm, a.metadata.embedParams = some pm → pm.channels ∈ tags) →
        (∀ pm, b.metadata.embedParams = some pm → pm.channels ∈ tags) →
        a.macInput = b.macInput → Agree a b) ↔
      ∀ s ∈ tags, ∀ t ∈ tags, ∀ bitPlane len text, bitPlane ≤ 1 → len ≠ 0 →
        (ChannelMask.fromTag s).isSome → t ≠ s ++ tagTail bitPlane len ++ text := by
  constructor
  · intro h s hs _ ht bitPlane len text hplane hlen hmask hgoesOn
    subst hgoesOn
    -- the two tags, beside contexts chosen to match, make a collision
    obtain ⟨mask, hmask⟩ := Option.isSome_iff_exists.mp hmask
    obtain ⟨mask', hmask'⟩ := ChannelMask.fromTag_append hmask (tagTail bitPlane len ++ text)
    rw [← String.append_assoc] at hmask'
    have himitates := tagged_collision s text bitPlane 0 len
    refine himitates.not_agree (h _ _ (tagged_accepted hmask hplane hlen)
      (tagged_accepted hmask' (by decide) hlen) ?_ ?_ himitates.macInput_eq)
    · intro pm hpm
      cases hpm
      exact hs
    · intro pm hpm
      cases hpm
      exact ht
  · intro h a b ha hb hta htb heq
    have key : ∀ {a b : Presented}, a.Accepted →
        (∀ pm, a.metadata.embedParams = some pm → pm.channels ∈ tags) →
        (∀ pm, b.metadata.embedParams = some pm → pm.channels ∈ tags) → ¬ Imitates b a := by
      intro a b ha hta htb himitates
      obtain ⟨-, pa, pb, text, hpa, hpb, htag, -⟩ := himitates
      obtain ⟨key, params, hparams⟩ := ha.params pa hpa
      obtain ⟨hmask, hplane, -, -⟩ := EmbedParams.fromMeta_eq_some.mp hparams
      exact h _ (hta pa hpa) _ (htb pb hpb) _ _ _ hplane ha.nonempty
        (Option.isSome_iff_exists.mpr ⟨_, hmask⟩) htag
    exact (macInput_cases ha hb heq).resolve_right fun himitates =>
      himitates.elim (key ha hta htb) (key hb htb hta)

end Stegosafe.Proof
