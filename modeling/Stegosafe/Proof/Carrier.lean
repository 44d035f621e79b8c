import Stegosafe.Stego.Engine

/-!
# Carriers

What a technique is for, apart from how it orders its samples. A `Carrier` is a
duplicate-free list of samples of a buffer; `hide` writes a byte string into one
bit plane along it, and `Holds` says that a plane of a buffer starts, along the
carrier, with a given byte string. Hiding establishes `Holds`, changes nothing
that already holds, and two strings held at once agree as far as both reach.

The helpers write and read along a carrier by hiding and finding what is held, so
`embedAlong` and `extractAlong` are exactly hiding a frame, and finding one.
-/

namespace Stegosafe.Proof

open Stegosafe Checked Outcome

/-- A duplicate-free list of samples of a buffer of the given size. -/
@[ext] structure Carrier (size : Nat) where
  order : List Nat
  nodup : order.Nodup
  inside : ∀ i ∈ order, i < size

namespace Carrier

variable {size : Nat}

/-- Write `msg` into bit plane `p` of `raw`, along the carrier. -/
def hide (c : Carrier size) (p : Nat) (msg raw : Bytes) : Bytes :=
  Scatter.scatter (Bits.put p) ((Bits.stream msg).zip c.order) raw

/-- Along the carrier, bit plane `p` of `raw` starts with `msg`. -/
def Holds (c : Carrier size) (p : Nat) (raw msg : Bytes) : Prop :=
  8 * msg.length ≤ c.order.length
    ∧ Scatter.gather (Bits.get p) raw (c.order.take (8 * msg.length))
        = (Bits.stream msg).map some

@[simp] theorem hide_length (c : Carrier size) (p : Nat) (msg raw : Bytes) :
    (c.hide p msg raw).length = raw.length := Scatter.scatter_length _ _ _

/-- **What was hidden is held.** -/
theorem holds_hide {c : Carrier size} {p : Nat} (hp : p < 8) {msg raw : Bytes}
    (hsize : raw.length = size) (hfits : 8 * msg.length ≤ c.order.length) :
    c.Holds p (c.hide p msg raw) msg := by
  refine ⟨hfits, ?_⟩
  have h : Scatter.gather (Bits.get p) (c.hide p msg raw) (c.order.take (Bits.stream msg).length)
      = (Bits.stream msg).map some :=
    Scatter.gather_scatter c.nodup (fun i hi => hsize ▸ c.inside i hi) (by simpa using hfits)
      fun v hv a => Bits.get_put_self hp (Bits.isBit_of_mem_stream hv) a
  rwa [Bits.stream_length] at h

/-- **Hiding what is held changes nothing.** -/
theorem hide_of_holds {c : Carrier size} {p : Nat} (hp : p < 8) {msg raw : Bytes}
    (h : c.Holds p raw msg) : c.hide p msg raw = raw :=
  Scatter.scatter_gather (fun a => Bits.put_get hp a) (by rw [Bits.stream_length]; exact h.2)

/-- What holds a string holds its first bytes. -/
theorem Holds.take {c : Carrier size} {p : Nat} {raw msg : Bytes} (h : c.Holds p raw msg) {k : Nat}
    (hk : k ≤ msg.length) : c.Holds p raw (msg.take k) := by
  obtain ⟨hfits, hgather⟩ := h
  rw [Holds, List.length_take_of_le hk]
  refine ⟨by omega, ?_⟩
  have htake := congrArg (List.take (8 * k)) hgather
  rwa [← Scatter.gather_take, List.take_take, Nat.min_eq_left (by omega), ← List.map_take,
    ← Bits.stream_take] at htake

/-- At most one string of each length is held. -/
theorem Holds.unique {c : Carrier size} {p : Nat} {raw msg msg' : Bytes} (h : c.Holds p raw msg)
    (h' : c.Holds p raw msg') (hlen : msg.length = msg'.length) : msg = msg' := by
  have hread := h.2
  rw [hlen, h'.2] at hread
  exact Bits.stream_injective (List.map_injective_iff.mpr (Option.some_injective _) hread.symm)

/-- **Of two strings held at once, the shorter is a prefix of the longer.** -/
theorem holds_prefix {c : Carrier size} {p : Nat} {raw short long : Bytes}
    (hs : c.Holds p raw short) (hl : c.Holds p raw long) (hle : short.length ≤ long.length) :
    short = long.take short.length :=
  hs.unique (hl.take hle) (List.length_take_of_le hle).symm

/-- A sample hiding does not reach keeps its byte. -/
theorem hide_other {c : Carrier size} {p : Nat} {msg raw : Bytes} {i : Nat}
    (h : i ∉ c.order.take (8 * msg.length)) : (c.hide p msg raw)[i]? = raw[i]? :=
  Scatter.scatter_zip_other (by rwa [Bits.stream_length])

/-- The sample at place `j` of the carrier takes bit `j` of the message. -/
theorem hide_at {c : Carrier size} {p : Nat} {msg raw : Bytes} {i j : Nat} {v : UInt8}
    (hi : c.order[j]? = some i) (hv : (Bits.stream msg)[j]? = some v) :
    (c.hide p msg raw)[i]? = raw[i]?.map (Bits.put p v) :=
  Scatter.scatter_zip_getElem? c.nodup hv hi

end Carrier

/-! ## The helpers along a carrier -/

/-- Writing along a carrier hides the data. -/
theorem writeBits_carrier {size : Nat} {bitPlane : UInt8} (hp : bitPlane.toNat < 8)
    (c : Carrier size) (raw data : Bytes) :
    writeBitsAtPositions raw c.order data bitPlane = .ok (c.hide bitPlane.toNat data raw) :=
  writeBitsAtPositions_eq hp raw c.order data

/-- Reading along a carrier finds the string of that length it holds. -/
theorem readBits_carrier {size : Nat} {bitPlane : UInt8} (hp : bitPlane.toNat < 8)
    {c : Carrier size} {raw data : Bytes} {n : Nat} :
    readBitsAtPositions raw c.order n bitPlane = .ok data ↔
      n * 8 < 2 ^ 64 ∧ data.length = n ∧ c.Holds bitPlane.toNat raw data := by
  rw [readBitsAtPositions_eq_ok hp]
  constructor
  · intro h
    obtain ⟨hlt, hfits, rfl, hgather⟩ := h
    exact ⟨hlt, rfl, hfits, hgather⟩
  · intro h
    obtain ⟨hlt, rfl, hfits, hgather⟩ := h
    exact ⟨hlt, hfits, rfl, hgather⟩

/--
**Writing and reading at positions are inverse.**

Along positions inside the buffer, none of them twice, whatever was written is read
back, and so are its first bytes. Whatever is read, along any positions, may be written
back. The number of positions is a `usize`.
-/
theorem write_read_inverse (raw : Bytes) (positions : List Nat) (bitPlane : UInt8)
    (hplane : bitPlane ≤ 7) :
    (∀ data : Bytes, positions.Nodup → (∀ i ∈ positions, i < raw.length) →
        8 * data.length ≤ positions.length → positions.length < 2 ^ 64 →
        ∃ raw', writeBitsAtPositions raw positions data bitPlane = .ok raw'
          ∧ readBitsAtPositions raw' positions data.length bitPlane = .ok data
          ∧ ∀ k, k ≤ data.length →
              readBitsAtPositions raw' positions k bitPlane = .ok (data.take k))
      ∧ ∀ n data, readBitsAtPositions raw positions n bitPlane = .ok data →
          writeBitsAtPositions raw positions data bitPlane = .ok raw := by
  have hp : bitPlane.toNat < 8 := Nat.lt_succ_of_le (UInt8.le_iff_toNat_le.mp hplane)
  refine ⟨?_, fun n data => write_of_read hp⟩
  intro data hnodup hinside hfits hlen
  let c : Carrier raw.length := ⟨positions, hnodup, hinside⟩
  have hheld : c.Holds bitPlane.toNat (c.hide bitPlane.toNat data raw) data :=
    Carrier.holds_hide hp rfl hfits
  refine ⟨_, writeBits_carrier hp c raw data, ?_, ?_⟩
  · exact (readBits_carrier hp).mpr ⟨by omega, rfl, hheld⟩
  · intro k hk
    exact (readBits_carrier hp).mpr ⟨by omega, List.length_take_of_le hk, hheld.take hk⟩

/-- Eight cells, written backwards in the second plane. -/
theorem write_read_inverse_byte : ∃ raw',
    writeBitsAtPositions [0, 255, 1, 254, 2, 253, 3, 252] [7, 6, 5, 4, 3, 2, 1, 0] [0xA5] 1
        = .ok raw'
      ∧ readBitsAtPositions raw' [7, 6, 5, 4, 3, 2, 1, 0] 1 1 = .ok [0xA5] := by
  obtain ⟨raw', hwrite, hread, -⟩ :=
    (write_read_inverse [0, 255, 1, 254, 2, 253, 3, 252] [7, 6, 5, 4, 3, 2, 1, 0] 1 (by decide)).1
      [0xA5] (by decide) (by decide) (by decide) (by decide)
  exact ⟨raw', hwrite, hread⟩

/-! ## The techniques' bodies -/

theorem rewrite_eq_ok {img img' : RgbImage} {write : Bytes → Outcome StegoError Bytes}
    {h : ∀ raw raw', write raw = .ok raw' → raw'.length = raw.length} :
    img.rewrite write h = .ok img' ↔
      ∃ raw', ∃ hw : write img.raw = .ok raw', img' = img.withRaw raw' (h _ _ hw) := by
  unfold RgbImage.rewrite
  constructor
  · intro heq
    split at heq
    · rename_i raw' hw
      cases heq
      exact ⟨raw', hw, rfl⟩
    · cases heq
  · intro h
    obtain ⟨raw', hw, rfl⟩ := h
    split
    · rename_i raw'' hw'
      cases hw.symm.trans hw'
      rfl
    · rename_i e he
      cases hw.symm.trans he

theorem writeFrame_eq_ok {cover stego : RgbImage} {c : Carrier cover.raw.length}
    {framed : Bytes} {bitPlane : UInt8} (hp : bitPlane.toNat < 8) :
    writeFrame cover c.order framed bitPlane = .ok stego ↔
      stego = cover.withRaw (c.hide bitPlane.toNat framed cover.raw) (c.hide_length _ _ _) := by
  rw [writeFrame, rewrite_eq_ok]
  constructor
  · intro h
    obtain ⟨raw', hw, rfl⟩ := h
    rw [writeBits_carrier hp] at hw
    cases hw
    rfl
  · intro h
    subst h
    exact ⟨_, writeBits_carrier hp c _ _, rfl⟩

/-- **`embedAlong` hides the frame of the payload**, if the carrier has room for it. -/
theorem embedAlong_eq_ok {cover stego : RgbImage} {c : Carrier cover.raw.length}
    {payload : Bytes} {bitPlane : UInt8} (hp : bitPlane.toNat < 8) :
    embedAlong cover payload c.order bitPlane = .ok stego ↔
      (payload.length + 4) * 8 < 2 ^ 64 ∧ 8 * (payload.length + 4) ≤ c.order.length
        ∧ stego = cover.withRaw (c.hide bitPlane.toNat (framePayload payload) cover.raw)
            (c.hide_length _ _ _) := by
  rw [embedAlong, framePayload_length, bind_eq_ok]
  constructor
  · intro h
    obtain ⟨neededBits, hmul, h⟩ := h
    obtain ⟨hlt, rfl⟩ := mul_eq_ok.mp hmul
    split at h
    · cases h
    · exact ⟨hlt, by omega, (writeFrame_eq_ok hp).mp h⟩
  · intro h
    obtain ⟨hlt, hfits, hstego⟩ := h
    refine ⟨_, mul_of_lt hlt, ?_⟩
    rw [if_neg (by omega)]
    exact (writeFrame_eq_ok hp).mpr hstego

/-- **`extractAlong` finds the frame of a payload of the expected length**, or fails. -/
theorem extractAlong_eq_ok {stego : RgbImage} {c : Carrier stego.raw.length} {n : Nat}
    {bitPlane : UInt8} (hp : bitPlane.toNat < 8) {payload : Bytes} :
    extractAlong stego n c.order bitPlane = .ok payload ↔
      payload.length = n ∧ n < 2 ^ 32
        ∧ c.Holds bitPlane.toNat stego.raw (framePayload payload) := by
  rw [extractAlong, bind_eq_ok]
  constructor
  · intro h
    obtain ⟨totalBytes, hadd, h⟩ := h
    obtain ⟨-, rfl⟩ := add_eq_ok.mp hadd
    rw [bind_eq_ok] at h
    obtain ⟨data, hread, hvalid⟩ := h
    obtain ⟨-, hlen, hheld⟩ := (readBits_carrier hp).mp hread
    obtain ⟨hpn, hn, t, ht⟩ := validateFrame_eq_ok.mp hvalid
    -- the data read is as long as the frame, so nothing follows the frame
    have htail : t = [] := by
      have hlen' := congrArg List.length ht
      rw [List.length_append, framePayload_length, hlen] at hlen'
      exact List.length_eq_zero_iff.mp (by omega)
    rw [htail, List.append_nil] at ht
    subst ht
    exact ⟨hpn, hn, hheld⟩
  · intro h
    obtain ⟨rfl, hn, hheld⟩ := h
    refine ⟨payload.length + 4, add_of_lt (by omega), bind_eq_ok.mpr ⟨framePayload payload, ?_, ?_⟩⟩
    · exact (readBits_carrier hp).mpr ⟨by omega, framePayload_length _, hheld⟩
    · exact validateFrame_eq_ok.mpr ⟨rfl, hn, [], (List.append_nil _).symm⟩

/-- Extraction along a carrier never panics, unless the expected size leaves its word. -/
theorem extractAlong_ne_panic {stego : RgbImage} {c : Carrier stego.raw.length} {n : Nat}
    {bitPlane : UInt8} (hp : bitPlane.toNat < 8) (hn : (n + 4) * 8 < 2 ^ 64) (p : Panic) :
    extractAlong stego n c.order bitPlane ≠ .error (.panic p) := by
  rw [extractAlong, add_of_lt (by omega), ok_bind]
  by_cases hfits : (n + 4) * 8 ≤ c.order.length
  · -- a carrier's samples are all there to be read
    obtain ⟨data, hdata⟩ := readBitsAtPositions_inside hp hn hfits c.inside
    rw [hdata, ok_bind]
    exact validateFrame_ne_panic (by omega) p
  · rw [readBitsAtPositions, mul_of_lt hn, ok_bind, if_pos (by omega)]
    intro h
    cases h

/-- A size whose bits leave their word panics, along any list. -/
theorem extractAlong_panic {stego : RgbImage} {positions : List Nat} {n : Nat} {bitPlane : UInt8}
    (hn : 2 ^ 64 ≤ (n + 4) * 8) :
    extractAlong stego n positions bitPlane = .error (.panic .overflow) := by
  unfold extractAlong
  by_cases hadd : n + 4 < 2 ^ 64
  · rw [add_of_lt hadd, ok_bind, readBitsAtPositions, mul, if_neg (by omega)]
    rfl
  · rw [add, if_neg hadd]
    rfl

end Stegosafe.Proof
