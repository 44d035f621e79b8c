import Stegosafe.Proof.RoundTrip

/-!
# Several payloads in one cover

Embedding writes the bits of one plane along one list and leaves the rest, so what a
second embedding does to a first is a question of shared bits. In no shared bit the two
are layers: they can be written in any order, and each is read as if it were alone
(`layers_independent`). In the same bits the later one wins, and of a longer earlier
payload the end stays readable (`reembed_overwrites`).

The same view tells what an extractor looks at: the bits of one frame, and of these only
the first 32 can make it fail (`extract_reads`).
-/

namespace Stegosafe.Proof

open Stegosafe Checked Outcome

/-! ## Two messages in one buffer -/

namespace Carrier

variable {size : Nat} {c d : Carrier size} {p q : Nat} {a b raw : Bytes}

/-- The bits that write a message are bits, on samples the message reaches. -/
theorem mem_zip_stream {u : UInt8 × Nat} (hu : u ∈ (Bits.stream a).zip c.order) :
    Bits.IsBit u.1 ∧ u.2 ∈ c.order.take (8 * a.length) := by
  have hsnd := List.mem_map_of_mem (f := Prod.snd) hu
  rw [Scatter.zip_map_snd, Bits.stream_length] at hsnd
  exact ⟨Bits.isBit_of_mem_stream (List.of_mem_zip hu).1, hsnd⟩

theorem hide_congr {size' : Nat} {c' : Carrier size'} (h : c.order = c'.order) :
    c.hide p a raw = c'.hide p a raw := by
  rw [hide, hide, h]

/-- **Messages that share no bit are hidden in either order.** -/
theorem hide_comm (hp : p < 8) (hq : q < 8)
    (h : p ≠ q ∨ (c.order.take (8 * a.length)).Disjoint (d.order.take (8 * b.length))) :
    d.hide q b (c.hide p a raw) = c.hide p a (d.hide q b raw) := by
  refine Scatter.scatter_comm fun u hu w hw hsame x => ?_
  obtain ⟨hbit, hreach⟩ := mem_zip_stream hu
  obtain ⟨hbit', hreach'⟩ := mem_zip_stream hw
  rcases h with hplane | hdisjoint
  · exact Bits.put_comm hp hq hplane hbit hbit' x
  · -- one sample cannot be reached by both
    exact absurd (hsame ▸ hreach') fun hmem => hdisjoint hreach hmem

/-- **Hiding in other bits keeps what is held.** -/
theorem Holds.hide_apart (hp : p < 8) (hq : q < 8) (hsize : raw.length = size)
    (hheld : c.Holds p raw a)
    (h : p ≠ q ∨ (c.order.take (8 * a.length)).Disjoint (d.order.take (8 * b.length))) :
    c.Holds p (d.hide q b raw) a := by
  have hsame : d.hide q b raw = c.hide p a (d.hide q b raw) := by
    rw [← hide_comm hp hq h, hide_of_holds hp hheld]
  rw [hsame]
  exact holds_hide hp ((d.hide_length q b raw).trans hsize) hheld.1

/-- **Of two messages hidden in the same bits, a longer second one leaves nothing of the first.** -/
theorem hide_hide (hp : p < 8) (hle : a.length ≤ b.length) :
    c.hide p b (c.hide p a raw) = c.hide p b raw := by
  refine Scatter.scatter_absorb (fun u hu => ?_) fun u hu w hw x => ?_
  · rw [Scatter.zip_map_snd, Bits.stream_length]
    exact List.take_subset_take_left _ (Nat.mul_le_mul_left 8 hle) (mem_zip_stream hu).2
  · exact Bits.put_put hp (mem_zip_stream hw).1 (mem_zip_stream hu).1 x

/-- The carrier without its first `k` samples. -/
def drop (c : Carrier size) (k : Nat) : Carrier size where
  order := c.order.drop k
  nodup := c.nodup.sublist (List.drop_sublist _ _)
  inside i hi := c.inside i (List.mem_of_mem_drop hi)

/-- What holds a string holds its end, after the samples of the beginning. -/
theorem Holds.drop (hheld : c.Holds p raw a) {k : Nat} (hk : k ≤ a.length) :
    (c.drop (8 * k)).Holds p raw (a.drop k) := by
  obtain ⟨hfits, hgather⟩ := hheld
  rw [Holds, Carrier.drop, List.length_drop, List.length_drop]
  refine ⟨by omega, ?_⟩
  have hend := congrArg (List.drop (8 * k)) hgather
  rw [← List.map_drop, ← Bits.stream_drop] at hend
  rw [← hend, Scatter.gather, Scatter.gather, ← List.map_drop, List.drop_take]
  congr 3
  omega

/-- A shorter message hidden over a longer one leaves the end of the longer one. -/
theorem holds_end (hp : p < 8) (hsize : raw.length = size)
    (hfits : 8 * a.length ≤ c.order.length) (hle : b.length ≤ a.length) :
    (c.drop (8 * b.length)).Holds p (c.hide p b (c.hide p a raw)) (a.drop b.length) := by
  have hheld : (c.drop (8 * b.length)).Holds p (c.hide p a raw) (a.drop b.length) :=
    (holds_hide hp hsize hfits).drop hle
  refine hheld.hide_apart hp hp ((c.hide_length p a raw).trans hsize) (Or.inr ?_)
  -- what `b` reaches ends where the rest of the carrier starts
  have hsplit : (c.order.take (8 * b.length) ++ c.order.drop (8 * b.length)).Nodup := by
    rw [List.take_append_drop]
    exact c.nodup
  have hdisjoint := (List.nodup_append'.mp hsplit).2.2
  intro i hi hi'
  exact hdisjoint hi' (List.mem_of_mem_take hi)

end Carrier

/-! ## Layers -/

/-- A payload, the technique that hides it, and the parameters. -/
structure Layer where
  id : TechniqueId
  payload : Bytes
  params : EmbedParams

/-- The bit plane a layer is written in. -/
def Layer.plane (l : Layer) : Nat := (planeOf l.id l.params).toNat

/-- The picture does not decide where the layer goes. -/
structure Layer.Sound (l : Layer) : Prop where
  id_ne : l.id ≠ .edgeAdaptiveLsb
  plane_le : l.params.bitPlane ≤ 7

theorem Layer.Sound.plane_lt {l : Layer} (h : l.Sound) : l.plane < 8 := planeOf_lt h.plane_le

section Layers

variable (F : Type) [Scalar F] (hmac : Hmac)

/-- Embed one layer after another. -/
def embedLayers (cover : RgbImage) (layers : List Layer) : Outcome StegoError RgbImage :=
  layers.foldlM
    (fun img l => (StegoEngine.techniqueOf F hmac l.id).embed img l.payload l.params) cover

variable (cover : RgbImage)

/-- The samples of a layer, in the order they are written. -/
def layerCarrier (l : Layer) : Carrier cover.raw.length where
  order := (positionList F hmac l.id cover l.params).toOption.getD []
  nodup := by
    cases hps : positionList F hmac l.id cover l.params with
    | error e => exact List.nodup_nil
    | ok ps =>
      obtain ⟨c, rfl⟩ := positionList_carrier hps
      exact c.nodup
  inside := by
    cases hps : positionList F hmac l.id cover l.params with
    | error e =>
      intro i hi
      cases hi
    | ok ps =>
      obtain ⟨c, rfl⟩ := positionList_carrier hps
      exact c.inside

/-- The samples a layer reaches. -/
def layerReach (l : Layer) : List Nat :=
  (layerCarrier F hmac cover l).order.take (8 * (l.payload.length + 4))

/-- Two layers that share no bit: other planes, or other samples. -/
def LayersApart (l m : Layer) : Prop :=
  l.plane ≠ m.plane ∨ (layerReach F hmac cover l).Disjoint (layerReach F hmac cover m)

/-- A layer, written into a buffer. -/
def stamp (raw : Bytes) (l : Layer) : Bytes :=
  (layerCarrier F hmac cover l).hide l.plane (framePayload l.payload) raw

@[simp] theorem stamp_length (raw : Bytes) (l : Layer) :
    (stamp F hmac cover raw l).length = raw.length := Carrier.hide_length _ _ _ _

@[simp] theorem stamps_length (raw : Bytes) (layers : List Layer) :
    (layers.foldl (stamp F hmac cover) raw).length = raw.length := by
  induction layers generalizing raw with
  | nil => rfl
  | cons l layers ih => rw [List.foldl_cons, ih, stamp_length]

/-- There is room for a layer. -/
def LayerFits (l : Layer) : Prop :=
  (l.payload.length + 4) * 8 < 2 ^ 64
    ∧ 8 * (l.payload.length + 4) ≤ (layerCarrier F hmac cover l).order.length

instance : Std.Symm (LayersApart F hmac cover) where
  symm l m h := by
    rcases h with hplane | hdisjoint
    · exact Or.inl hplane.symm
    · exact Or.inr fun i hi hi' => hdisjoint hi' hi

variable {F hmac cover}

/-- On any picture of the cover's size a sound layer goes where it goes on the cover. -/
theorem layerCarrier_order {l : Layer} (hl : l.Sound) {raw : Bytes}
    (h : raw.length = cover.raw.length) :
    positionList F hmac l.id (cover.withRaw raw h) l.params
      = .ok (layerCarrier F hmac cover l).order := by
  have hsafe : l.id = .edgeAdaptiveLsb → EdgeSafe cover.width cover.height :=
    fun hid => absurd hid hl.id_ne
  obtain ⟨c, hps⟩ : ∃ c : Carrier cover.raw.length,
      positionList F hmac l.id cover l.params = .ok c.order := positionList_ok hsafe l.params
  have horder : (positionList F hmac l.id cover l.params).toOption.getD [] = c.order := by
    rw [hps]
    rfl
  rw [positionList_withRaw hl.id_ne, hps, ← horder]
  rfl

/-- **Embedding a layer stamps it**, if there is room for it. -/
theorem embed_layer_eq_ok {l : Layer} (hl : l.Sound) {raw : Bytes}
    {h : raw.length = cover.raw.length} {img : RgbImage} :
    (StegoEngine.techniqueOf F hmac l.id).embed (cover.withRaw raw h) l.payload l.params = .ok img
      ↔ LayerFits F hmac cover l
        ∧ img = cover.withRaw (stamp F hmac cover raw l) ((stamp_length ..).trans h) := by
  have horder : positionList F hmac l.id (cover.withRaw raw h) l.params
      = .ok (layerCarrier F hmac cover l).order := layerCarrier_order hl h
  rw [technique_embed_eq_ok hl.plane_lt]
  constructor
  · intro hembed
    obtain ⟨c, hps, hlt, hfits, himg⟩ := hembed
    have hsame : c.order = (layerCarrier F hmac cover l).order :=
      Except.ok.inj (hps.symm.trans horder)
    refine ⟨⟨hlt, hsame ▸ hfits⟩, himg.trans (RgbImage.ext rfl rfl ?_)⟩
    exact Carrier.hide_congr hsame
  · intro hembed
    obtain ⟨⟨hlt, hfits⟩, himg⟩ := hembed
    obtain ⟨c, hc⟩ := positionList_carrier horder
    refine ⟨c, by rw [hc, horder], hlt, by rwa [hc], himg.trans (RgbImage.ext rfl rfl ?_)⟩
    exact Carrier.hide_congr hc.symm

/-- **Embedding layers stamps them one after another**, if there is room for each. -/
theorem embedLayers_eq_ok {layers : List Layer} (hsound : ∀ l ∈ layers, l.Sound) {raw : Bytes}
    {h : raw.length = cover.raw.length} {img : RgbImage} :
    embedLayers F hmac (cover.withRaw raw h) layers = .ok img
      ↔ (∀ l ∈ layers, LayerFits F hmac cover l)
        ∧ img = cover.withRaw (layers.foldl (stamp F hmac cover) raw)
            ((stamps_length ..).trans h) := by
  induction layers generalizing raw with
  | nil =>
    rw [embedLayers, List.foldlM_nil]
    constructor
    · intro hembed
      cases hembed
      refine ⟨?_, rfl⟩
      intro l hl
      cases hl
    · intro hembed
      rw [hembed.2]
      rfl
  | cons l layers ih =>
    have hl := hsound l List.mem_cons_self
    have hrest : ∀ m ∈ layers, m.Sound := fun m hm => hsound m (List.mem_cons_of_mem _ hm)
    rw [embedLayers, List.foldlM_cons, bind_eq_ok, List.forall_mem_cons]
    constructor
    · intro hembed
      obtain ⟨first, hfirst, hembed⟩ := hembed
      obtain ⟨hfits, rfl⟩ := (embed_layer_eq_ok hl).mp hfirst
      obtain ⟨hfits', himg⟩ := (ih hrest).mp hembed
      exact ⟨⟨hfits, hfits'⟩, himg⟩
    · intro hembed
      obtain ⟨⟨hfits, hfits'⟩, himg⟩ := hembed
      exact ⟨_, (embed_layer_eq_ok hl).mpr ⟨hfits, rfl⟩, (ih hrest).mpr ⟨hfits', himg⟩⟩

/-- Layers apart are stamped in either order. -/
theorem stamp_comm {l m : Layer} (hl : l.Sound) (hm : m.Sound) (h : LayersApart F hmac cover l m)
    (raw : Bytes) : stamp F hmac cover (stamp F hmac cover raw l) m
      = stamp F hmac cover (stamp F hmac cover raw m) l := by
  refine Carrier.hide_comm hl.plane_lt hm.plane_lt ?_
  rw [framePayload_length, framePayload_length]
  exact h

/-- What a buffer holds of one layer, layers apart from it leave alone. -/
theorem stamps_keep {l : Layer} (hl : l.Sound) {layers : List Layer}
    (hsound : ∀ m ∈ layers, m.Sound) (hapart : ∀ m ∈ layers, LayersApart F hmac cover l m)
    {raw : Bytes} (hsize : raw.length = cover.raw.length)
    (hheld : (layerCarrier F hmac cover l).Holds l.plane raw (framePayload l.payload)) :
    (layerCarrier F hmac cover l).Holds l.plane (layers.foldl (stamp F hmac cover) raw)
      (framePayload l.payload) := by
  induction layers generalizing raw with
  | nil => exact hheld
  | cons m layers ih =>
    rw [List.forall_mem_cons] at hsound hapart
    refine ih hsound.2 hapart.2 ((stamp_length ..).trans hsize) ?_
    refine hheld.hide_apart hl.plane_lt hsound.1.plane_lt hsize ?_
    rw [framePayload_length, framePayload_length]
    exact hapart.1

/-- **A buffer holds every layer stamped into it.** -/
theorem stamps_hold {layers : List Layer} (hsound : ∀ l ∈ layers, l.Sound)
    (hapart : layers.Pairwise (LayersApart F hmac cover))
    (hfits : ∀ l ∈ layers, LayerFits F hmac cover l) {raw : Bytes}
    (hsize : raw.length = cover.raw.length) :
    ∀ l ∈ layers, (layerCarrier F hmac cover l).Holds l.plane
      (layers.foldl (stamp F hmac cover) raw) (framePayload l.payload) := by
  induction layers generalizing raw with
  | nil =>
    intro l hl
    cases hl
  | cons l layers ih =>
    rw [List.forall_mem_cons] at hsound hfits
    rw [List.pairwise_cons] at hapart
    have hstamped : (stamp F hmac cover raw l).length = cover.raw.length :=
      (stamp_length ..).trans hsize
    rw [List.forall_mem_cons]
    refine ⟨?_, ih hsound.2 hapart.2 hfits.2 hstamped⟩
    -- the first layer is held as soon as it is stamped, and the others keep it
    refine stamps_keep hsound.1 hsound.2 hapart.1 hstamped ?_
    exact Carrier.holds_hide hsound.1.plane_lt hsize
      (by rw [framePayload_length]; exact hfits.1.2)

/-- The layers may be stamped in any order. -/
theorem stamps_perm {layers layers' : List Layer} (hperm : layers'.Perm layers)
    (hsound : ∀ l ∈ layers, l.Sound) (hapart : layers.Pairwise (LayersApart F hmac cover))
    (raw : Bytes) :
    layers'.foldl (stamp F hmac cover) raw = layers.foldl (stamp F hmac cover) raw := by
  refine (hperm.symm.foldl_eq' (fun l hl m hm raw => ?_) raw).symm
  -- a layer commutes with itself, and any two others are apart
  by_cases hsame : l = m
  · rw [hsame]
  · exact stamp_comm (hsound l hl) (hsound m hm) (hapart.forall hl hm hsame) raw

end Layers

/--
**Layers are independent.**

Layers of the sequential and the keyed technique, in planes of a byte and with payloads
below `2 ^ 32` bytes, that share no bit can be embedded in any order into the same stego
image, and from it each is extracted as if it were alone.
-/
theorem layers_independent {F : Type} [Scalar F] (hmac : Hmac) (cover stego : RgbImage)
    (layers : List Layer) (hsound : ∀ l ∈ layers, l.Sound)
    (hlen : ∀ l ∈ layers, l.payload.length < 2 ^ 32)
    (hapart : layers.Pairwise (LayersApart F hmac cover))
    (hembed : embedLayers F hmac cover layers = .ok stego) :
    (∀ l ∈ layers, (StegoEngine.techniqueOf F hmac l.id).extract stego l.payload.length l.params
        = .ok l.payload)
      ∧ ∀ layers' : List Layer, layers'.Perm layers →
          embedLayers F hmac cover layers' = .ok stego := by
  have hcover : cover = cover.withRaw cover.raw rfl := rfl
  rw [hcover] at hembed
  obtain ⟨hfits, rfl⟩ := (embedLayers_eq_ok hsound).mp hembed
  constructor
  · intro l hl
    have hsize : (layers.foldl (stamp F hmac cover) cover.raw).length = cover.raw.length :=
      stamps_length ..
    have horder : positionList F hmac l.id (cover.withRaw _ hsize) l.params
        = .ok (layerCarrier F hmac cover l).order := layerCarrier_order (hsound l hl) hsize
    obtain ⟨c, hc⟩ := positionList_carrier horder
    refine (technique_extract_eq_ok (hsound l hl).plane_lt).mpr
      ⟨c, by rw [hc, horder], rfl, hlen l hl, ?_⟩
    have hheld := stamps_hold hsound hapart hfits rfl l hl
    rw [Carrier.Holds] at hheld ⊢
    rwa [hc]
  · intro layers' hperm
    have hsound' : ∀ l ∈ layers', l.Sound := fun l hl => hsound l (hperm.subset hl)
    rw [hcover]
    refine (embedLayers_eq_ok hsound').mpr ⟨fun l hl => hfits l (hperm.subset hl), ?_⟩
    exact RgbImage.ext rfl rfl (stamps_perm hperm hsound hapart cover.raw).symm

/-- Keyed in the lowest plane, and sequential in the one above. -/
def twoLayers : List Layer :=
  [⟨.lsbRandomHmac, [0xA5], plainParams⟩,
    ⟨.lsbSequential, [0x5A], { plainParams with bitPlane := 1 }⟩]

theorem twoLayers_sound : ∀ l ∈ twoLayers, l.Sound := by
  rw [twoLayers, List.forall_mem_cons, List.forall_mem_singleton]
  exact ⟨⟨by decide, by decide⟩, ⟨by decide, by decide⟩⟩

/-- Five by three pixels have room for both. -/
theorem twoLayers_fit : ∀ l ∈ twoLayers, LayerFits ℚ (fun _ _ => Vector.replicate 32 0)
    greyCover l := by
  have horder : ∀ l ∈ twoLayers, positionList ℚ (fun _ _ => Vector.replicate 32 0) l.id greyCover
      l.params = .ok (layerCarrier ℚ (fun _ _ => Vector.replicate 32 0) greyCover l).order :=
    fun l hl => layerCarrier_order (twoLayers_sound l hl) (rfl : greyCover.raw.length = _)
  rw [twoLayers, List.forall_mem_cons, List.forall_mem_singleton] at horder ⊢
  obtain ⟨hkeyed, hsequential⟩ := horder
  rw [positionList_random] at hkeyed
  rw [positionList_sequential] at hsequential
  refine ⟨⟨by decide, ?_⟩, ⟨by decide, ?_⟩⟩
  · rw [← Except.ok.inj hkeyed, keyedOrder_length]
    decide
  · rw [← Except.ok.inj hsequential]
    decide

theorem layers_independent_grey : ∃ stego,
    embedLayers ℚ (fun _ _ => Vector.replicate 32 0) greyCover twoLayers.reverse = .ok stego
      ∧ LsbSequential.extract stego 1 { plainParams with bitPlane := 1 } = .ok [0x5A] := by
  have hembed := (embedLayers_eq_ok twoLayers_sound
    (h := (rfl : greyCover.raw.length = _))).mpr ⟨twoLayers_fit, rfl⟩
  have hapart : twoLayers.Pairwise
      (LayersApart ℚ (fun _ _ => Vector.replicate 32 0) greyCover) := by
    rw [twoLayers, List.pairwise_pair]
    exact Or.inl (by decide)
  obtain ⟨hextract, hperm⟩ := layers_independent _ greyCover _ twoLayers twoLayers_sound
    (by decide) hapart hembed
  exact ⟨_, hperm _ twoLayers.reverse_perm, hextract _ (List.mem_cons_of_mem _ List.mem_cons_self)⟩

/--
**A second embedding overwrites the first.**

With the same technique and parameters, a payload at least as long leaves nothing of an
earlier one: the stego image is the one of the later payload alone. A shorter payload
leaves the end of the earlier one where it was, readable in the same plane.
-/
theorem reembed_overwrites {F : Type} [Scalar F] (hmac : Hmac) (id : TechniqueId)
    (cover first second : RgbImage) (a b : Bytes) (params : EmbedParams)
    (hid : id ≠ .edgeAdaptiveLsb) (hplane : params.bitPlane ≤ 7)
    (hfirst : (StegoEngine.techniqueOf F hmac id).embed cover a params = .ok first)
    (hsecond : (StegoEngine.techniqueOf F hmac id).embed first b params = .ok second) :
    (a.length ≤ b.length →
        (StegoEngine.techniqueOf F hmac id).embed cover b params = .ok second)
      ∧ (b.length ≤ a.length → ∃ ps, positionList F hmac id second params = .ok ps
          ∧ readBitsAtPositions second.raw (ps.drop (8 * (b.length + 4))) (a.length - b.length)
              (planeOf id params) = .ok (a.drop b.length)) := by
  let l : Layer := ⟨id, a, params⟩
  let m : Layer := ⟨id, b, params⟩
  have hl : l.Sound := ⟨hid, hplane⟩
  have hm : m.Sound := ⟨hid, hplane⟩
  obtain ⟨hfits, rfl⟩ := (embed_layer_eq_ok hl (h := (rfl : cover.raw.length = _))).mp hfirst
  obtain ⟨hfits', rfl⟩ := (embed_layer_eq_ok hm).mp hsecond
  constructor
  · intro hle
    have hover : stamp F hmac cover (stamp F hmac cover cover.raw l) m
        = stamp F hmac cover cover.raw m :=
      Carrier.hide_hide hl.plane_lt
        (by rw [framePayload_length, framePayload_length]; exact Nat.add_le_add_right hle 4)
    refine (embed_layer_eq_ok hm (h := (rfl : cover.raw.length = _))).mpr
      ⟨hfits', RgbImage.ext rfl rfl ?_⟩
    exact hover
  · intro hle
    have hend := Carrier.holds_end (c := layerCarrier F hmac cover l) hl.plane_lt
      (rfl : cover.raw.length = _) (by rw [framePayload_length]; exact hfits.2)
      (show (framePayload b).length ≤ (framePayload a).length by
        rw [framePayload_length, framePayload_length]; omega)
    have hframe : (framePayload a).drop (framePayload b).length = a.drop b.length := by
      rw [framePayload_length, Nat.add_comm, framePayload, ← List.drop_drop,
        List.drop_left' (Words.toBe_length _ _)]
    rw [hframe, framePayload_length] at hend
    refine ⟨_, layerCarrier_order hm _, ?_⟩
    refine (readBits_carrier (c := (layerCarrier F hmac cover l).drop (8 * (b.length + 4)))
      hl.plane_lt).mpr ⟨?_, List.length_drop, hend⟩
    have hlt := hfits.1
    change (a.length + 4) * 8 < 2 ^ 64 at hlt
    omega

/-- A grey picture with room for two bytes. -/
def greyRows : RgbImage where
  width := 6
  height := 3
  raw := List.replicate 54 128
  width_lt := by decide
  height_lt := greyCover.height_lt
  raw_length := by decide
  raw_lt := by decide

/-- One byte over two leaves the second there; two bytes over one leave nothing of it. -/
theorem reembed_overwrites_grey : ∃ long short mixed again,
    LsbSequential.embed greyRows [0xA5, 0x3C] plainParams = .ok long
      ∧ LsbSequential.embed greyRows [0x5A] plainParams = .ok short
      ∧ LsbSequential.embed long [0x5A] plainParams = .ok mixed
      ∧ LsbSequential.embed short [0xA5, 0x3C] plainParams = .ok again
      ∧ (∃ ps, positionList ℚ (fun _ _ => Vector.replicate 32 0) .lsbSequential mixed plainParams
          = .ok ps ∧ readBitsAtPositions mixed.raw (ps.drop 40) 1 0 = .ok [0x3C])
      ∧ LsbSequential.embed greyRows [0xA5, 0x3C] plainParams = .ok again := by
  have hembed : ∀ (cover : RgbImage) (payload : Bytes), cover.raw.length = 54 →
      payload.length ≤ 2 → ∃ stego, stego.raw.length = 54
        ∧ LsbSequential.embed cover payload plainParams = .ok stego := by
    intro cover payload hcover hpayload
    refine ⟨_, ?_, sequential_embed_ok ℚ (fun _ _ => Vector.replicate 32 0) cover payload
      plainParams (by decide) (by omega) ?_⟩
    · rw [RgbImage.withRaw, Carrier.hide_length, hcover]
    · have hlen : (sequentialOrder 54 plainParams).length = 54 := by decide
      rw [hcover, hlen]
      omega
  obtain ⟨long, hlongSize, hlong⟩ := hembed greyRows [0xA5, 0x3C] rfl (by decide)
  obtain ⟨short, hshortSize, hshort⟩ := hembed greyRows [0x5A] rfl (by decide)
  obtain ⟨mixed, -, hmixed⟩ := hembed long [0x5A] hlongSize (by decide)
  obtain ⟨again, -, hagain⟩ := hembed short [0xA5, 0x3C] hshortSize (by decide)
  have hend := (reembed_overwrites (F := ℚ) (fun _ _ => Vector.replicate 32 0) .lsbSequential
    greyRows long mixed _ _ plainParams (by decide) (by decide) hlong hmixed).2 (by decide)
  have hnothing := (reembed_overwrites (F := ℚ) (fun _ _ => Vector.replicate 32 0) .lsbSequential
    greyRows short again _ _ plainParams (by decide) (by decide) hshort hagain).1 (by decide)
  exact ⟨long, short, mixed, again, hlong, hshort, hmixed, hagain, hend, hnothing⟩

/-! ## What extraction looks at -/

section Reads

variable {size p : Nat} {c : Carrier size} {raw raw' msg : Bytes}

/-- Two buffers whose bits agree along a carrier hold the same there. -/
theorem holds_iff_bits (h : c.Holds p raw msg) :
    c.Holds p raw' msg ↔ ∀ i ∈ c.order.take (8 * msg.length),
      raw'[i]?.map (Bits.get p) = raw[i]?.map (Bits.get p) := by
  rw [Carrier.Holds, ← h.2, Scatter.gather, Scatter.gather, List.map_inj_left]
  exact and_iff_right h.1

/-- Every buffer of the right size holds something of each length there is room for. -/
theorem holds_exists (hp : p < 8) (hsize : raw.length = size) {n : Nat}
    (hn : n * 8 < 2 ^ 64) (hfits : n * 8 ≤ c.order.length) :
    ∃ data : Bytes, data.length = n ∧ c.Holds p raw data := by
  have hplane : (UInt8.ofNat p).toNat = p := UInt8.toNat_ofNat_of_lt' (Nat.lt_trans hp (by decide))
  obtain ⟨data, hdata⟩ : ∃ data,
      readBitsAtPositions raw c.order n (UInt8.ofNat p) = .ok data :=
    readBitsAtPositions_inside (by omega) hn hfits fun i hi => hsize ▸ c.inside i hi
  obtain ⟨-, hlen, hheld⟩ := (readBits_carrier (c := c) (by omega)).mp hdata
  rw [hplane] at hheld
  exact ⟨data, hlen, hheld⟩

end Reads

/-- Along a list an image has, extraction finds the frames that are held. -/
theorem technique_extract_along {F : Type} [Scalar F] {hmac : Hmac} {id : TechniqueId}
    {img : RgbImage} {n : Nat} {params : EmbedParams} {q : Bytes}
    (hp : (planeOf id params).toNat < 8) (hn : n < 2 ^ 32) {d : Carrier img.raw.length}
    (hd : positionList F hmac id img params = .ok d.order) :
    (StegoEngine.techniqueOf F hmac id).extract img n params = .ok q ↔
      q.length = n ∧ d.Holds (planeOf id params).toNat img.raw (framePayload q) := by
  rw [technique_extract_eq_ok hp, hd]
  constructor
  · intro h
    obtain ⟨d', hd', hq, -, hheld⟩ := h
    obtain rfl : d = d' := Carrier.ext (Except.ok.inj hd')
    exact ⟨hq, hheld⟩
  · intro h
    exact ⟨d, rfl, h.1, hn, h.2⟩

/-- Whatever follows the header of a frame is a payload, if its length is right. -/
theorem framePayload_of_header {data payload : Bytes} (hlt : payload.length < 2 ^ 32)
    (hlen : data.length = payload.length + 4)
    (hheader : data.take 4 = (framePayload payload).take 4) :
    data = framePayload (data.drop 4) := by
  have hbody : (data.drop 4).length = payload.length := by
    rw [List.length_drop]
    omega
  conv_lhs => rw [← List.take_append_drop 4 data]
  rw [hheader, framePayload_take, framePayload_of_lt (by omega), hbody, Nat.mod_eq_of_lt hlt]

/--
**What extraction looks at.**

Say a payload of `n` bytes is extracted from a stego image, and another image has the
same position list. Extraction from the other image returns something exactly if the
first 32 bits along the list are the stego image's, and the same payload exactly if the
bits of the whole frame are. Nothing else of the image matters, and a change of a later
bit of the frame is not noticed.
-/
theorem extract_reads {F : Type} [Scalar F] (hmac : Hmac) (id : TechniqueId)
    (stego img : RgbImage) (n : Nat) (params : EmbedParams) (payload : Bytes) (ps : List Nat)
    (hplane : params.bitPlane ≤ 7)
    (hextract : (StegoEngine.techniqueOf F hmac id).extract stego n params = .ok payload)
    (hstego : positionList F hmac id stego params = .ok ps)
    (himg : positionList F hmac id img params = .ok ps) :
    ((∃ q, (StegoEngine.techniqueOf F hmac id).extract img n params = .ok q) ↔
        ∀ i ∈ ps.take 32, img.raw[i]?.map (Bits.get (planeOf id params).toNat)
          = stego.raw[i]?.map (Bits.get (planeOf id params).toNat))
      ∧ ((StegoEngine.techniqueOf F hmac id).extract img n params = .ok payload ↔
          ∀ i ∈ ps.take (8 * (n + 4)), img.raw[i]?.map (Bits.get (planeOf id params).toNat)
            = stego.raw[i]?.map (Bits.get (planeOf id params).toNat)) := by
  have hp : (planeOf id params).toNat < 8 := planeOf_lt hplane
  obtain ⟨c, hc, rfl, hlt, hheld⟩ := (technique_extract_eq_ok hp).mp hextract
  obtain rfl : c.order = ps := Except.ok.inj (hc.symm.trans hstego)
  obtain ⟨d, hd⟩ := positionList_carrier himg
  have hlist : positionList F hmac id img params = .ok d.order := by rw [himg, hd]
  -- the two images are read along one list
  have hframe : d.Holds (planeOf id params).toNat stego.raw (framePayload payload) := by
    rw [Carrier.Holds, hd]
    exact hheld
  have hheader : d.Holds (planeOf id params).toNat stego.raw ((framePayload payload).take 4) :=
    hframe.take (by rw [framePayload_length]; omega)
  have hfour : ((framePayload payload).take 4).length = 4 := by
    rw [List.length_take, framePayload_length]
    omega
  have hsame : ∀ q : Bytes, q.length = payload.length →
      (framePayload q).take 4 = (framePayload payload).take 4 := by
    intro q hq
    rw [framePayload_take, framePayload_take, hq]
  have hbits : d.Holds _ img.raw _ ↔ _ := holds_iff_bits hheader
  rw [hfour, hd] at hbits
  refine ⟨?_, ?_⟩
  · rw [← hbits]
    constructor
    · intro h
      obtain ⟨q, hq⟩ := h
      obtain ⟨hqlen, hqheld⟩ := (technique_extract_along hp hlt hlist).mp hq
      rw [← hsame q hqlen]
      exact hqheld.take (by rw [framePayload_length]; omega)
    · intro h
      -- whatever follows the header is a payload of the right length
      obtain ⟨data, hdata, hdheld⟩ := holds_exists (n := payload.length + 4) hp rfl (by omega)
        (by rw [Nat.mul_comm, ← framePayload_length payload]; exact hframe.1)
      have hfour : data.take 4 = (framePayload payload).take 4 :=
        (hdheld.take (by omega)).unique h (by rw [hfour, List.length_take]; omega)
      rw [framePayload_of_header hlt hdata hfour] at hdheld
      have hbody : (data.drop 4).length = payload.length := by
        rw [List.length_drop]
        omega
      exact ⟨_, (technique_extract_along hp hlt hlist).mpr ⟨hbody, hdheld⟩⟩
  · have hall : d.Holds _ img.raw _ ↔ _ := holds_iff_bits hframe
    rw [framePayload_length, hd] at hall
    rw [technique_extract_along hp hlt hlist, ← hall]
    exact and_iff_right rfl

/-- A picture that shares no more than the header with the stego image holds another byte. -/
theorem extract_reads_grey :
    let img := greyCover.withRaw (greyStego.raw.take 32 ++ List.replicate 13 1) (by decide +kernel)
    (∃ q, LsbSequential.extract img 1 plainParams = .ok q)
      ∧ LsbSequential.extract img 1 plainParams ≠ .ok [0xA5] := by
  intro img
  obtain ⟨hsome, hsame⟩ := extract_reads (F := ℚ) (fun _ _ => Vector.replicate 32 0) .lsbSequential
    greyStego img 1 plainParams [0xA5] (sequentialOrder 45 plainParams) (by decide)
    greyStego_extract (positionList_sequential ℚ _ _ _) (positionList_sequential ℚ _ _ _)
  refine ⟨hsome.mpr (by decide +kernel), fun hread => ?_⟩
  exact absurd (hsame.mp hread) (by decide +kernel)

end Stegosafe.Proof
