import Stegosafe.Lib.Bits
import Stegosafe.Lib.Scatter
import Stegosafe.Lib.Words
import Stegosafe.Stego.Image

/-!
# Bit-level I/O on pixel buffers

The four helpers every technique shares, as `util.rs` has them, and one
specification each:

* a framed payload is its length, as four big-endian bytes, then the payload;
* `validateFrame` accepts exactly the frames, with anything after them;
* `writeBitsAtPositions` is a scatter of the data's bits into one bit plane;
* `readBitsAtPositions` is a gather from it.

Shifts are checked: a `u8` shifted by eight or more panics.
-/

namespace Stegosafe

open Checked Outcome

/-- `a << n` on `u8`. -/
def shl8 (a : UInt8) (n : Nat) : Outcome StegoError UInt8 :=
  if n < 8 then .ok (a <<< UInt8.ofNat n) else abort .overflow

/-- `a >> n` on `u8`. -/
def shr8 (a : UInt8) (n : Nat) : Outcome StegoError UInt8 :=
  if n < 8 then .ok (a >>> UInt8.ofNat n) else abort .overflow

/-- Iterate bits MSB-first within each byte. -/
def bitsFromBytes (data : Bytes) : Bytes :=
  data.flatMap fun byte => (List.range 8).reverse.map fun i => (byte >>> UInt8.ofNat i) &&& 1

/-- Prepend a 4-byte big-endian length prefix to `payload`. -/
def framePayload (payload : Bytes) : Bytes :=
  let len := payload.length % 2 ^ 32
  Words.toBe 4 len ++ payload

/-- Verify the 4-byte length prefix matches `expectedLen` and return the payload without it. -/
def validateFrame (data : Bytes) (expectedLen : Nat) : Outcome StegoError Bytes :=
  if data.length < 4 then
    fail .malformedImage
  else
    let storedLen := Words.ofBe (data.take 4)
    if storedLen ≠ expectedLen then
      fail .malformedImage
    else do
      let needed ← add 64 4 expectedLen
      if data.length < needed then
        fail .malformedImage
      else
        .ok ((data.drop 4).take expectedLen)

/-- One round of the writing loop: overwrite the chosen bit of `raw[pos]`, if there is one. -/
def writeBit (bitPlane : Nat) (clear : UInt8) (raw : Bytes) (bit : UInt8) (pos : Nat) :
    Outcome StegoError Bytes :=
  if pos < raw.length then do
    let old ← index raw pos
    let shifted ← shl8 bit bitPlane
    store raw pos ((old &&& clear) ||| shifted)
  else
    .ok raw

/-- Write bits from `data` into `raw` at the given `positions`, in one bit plane. -/
def writeBitsAtPositions (raw : Bytes) (positions : List Nat) (data : Bytes) (bitPlane : UInt8) :
    Outcome StegoError Bytes := do
  let mask ← shl8 1 bitPlane.toNat
  let clear := ~~~mask
  ((bitsFromBytes data).zip positions).foldlM
    (fun raw bp => writeBit bitPlane.toNat clear raw bp.1 bp.2) raw

/-- One round of the reading loop: or bit `i` of the result with the chosen bit of `raw[pos]`. -/
def readBit (raw : Bytes) (bitPlane : Nat) (result : Bytes) (pos i : Nat) :
    Outcome StegoError Bytes :=
  if raw.length ≤ pos then
    fail .malformedImage
  else do
    let value ← index raw pos
    let shifted ← shr8 value bitPlane
    let bit := shifted &&& 1
    let byteIdx := i / 8
    let bitIdx := 7 - i % 8
    let old ← index result byteIdx
    let placed ← shl8 bit bitIdx
    store result byteIdx (old ||| placed)

/-- Read bits from `raw` at the given `positions` and reassemble them into `totalBytes` bytes. -/
def readBitsAtPositions (raw : Bytes) (positions : List Nat) (totalBytes : Nat)
    (bitPlane : UInt8) : Outcome StegoError Bytes := do
  let totalBits ← mul 64 totalBytes 8
  if positions.length < totalBits then
    fail .malformedImage
  else
    (positions.take totalBits).zipIdx.foldlM
      (fun result pi => readBit raw bitPlane.toNat result pi.1 pi.2) (List.replicate totalBytes 0)

/-! ## Framing -/

@[simp] theorem framePayload_length (payload : Bytes) :
    (framePayload payload).length = payload.length + 4 := by
  simp [framePayload, Nat.add_comm]

theorem framePayload_of_lt {payload : Bytes} (h : payload.length < 2 ^ 32) :
    framePayload payload = Words.toBe 4 payload.length ++ payload := by
  simp only [framePayload, Nat.mod_eq_of_lt h]

/-- The first four bytes of a frame are the payload's length, cut to 32 bits. -/
theorem framePayload_take (payload : Bytes) :
    (framePayload payload).take 4 = Words.toBe 4 (payload.length % 2 ^ 32) := by
  rw [framePayload, List.take_left' (Words.toBe_length _ _)]

/-- What `validateFrame` accepts is a frame of the expected length, whatever follows it. -/
theorem frame_of_validateFrame {data : Bytes} {n : Nat} {q : Bytes}
    (h : validateFrame data n = .ok q) :
    q.length = n ∧ n < 2 ^ 32 ∧ ∃ t, data = framePayload q ++ t := by
  unfold validateFrame at h
  split at h
  · cases h
  · rename_i hlen
    dsimp only at h
    split at h
    · cases h
    · rename_i hstored
      rw [bind_eq_ok] at h
      obtain ⟨needed, hneeded, h⟩ := h
      obtain ⟨-, rfl⟩ := add_eq_ok.mp hneeded
      split at h
      · cases h
      · rename_i hfits
        cases h
        have htake : (data.take 4).length = 4 := by simp; omega
        have hpre : Words.ofBe (data.take 4) = n := not_not.mp hstored
        have hlt : n < 2 ^ 32 := by
          have := Words.ofBe_lt (data.take 4)
          rw [htake, hpre] at this
          exact this
        have hq : ((data.drop 4).take n).length = n := by simp; omega
        -- what follows the frame is what the two slices left over
        refine ⟨hq, hlt, data.drop (4 + n), ?_⟩
        have hword : Words.toBe 4 n = data.take 4 := by
          have hround := Words.toBe_ofBe (data.take 4)
          rwa [htake, hpre] at hround
        rw [framePayload_of_lt (by rw [hq]; exact hlt), hq, hword, ← List.drop_drop,
          List.append_assoc, List.take_append_drop, List.take_append_drop]

/-- On a frame of a length that fits 32 bits every branch of the checks is decided. -/
theorem validateFrame_framePayload {q t : Bytes} (hlt : q.length < 2 ^ 32) :
    validateFrame (framePayload q ++ t) q.length = .ok q := by
  have htake : (framePayload q ++ t).take 4 = Words.toBe 4 q.length := by
    rw [List.take_append_of_le_length (by simp), framePayload_take, Nat.mod_eq_of_lt hlt]
  have hdrop : ((framePayload q ++ t).drop 4).take q.length = q := by
    rw [framePayload_of_lt hlt, List.append_assoc, List.drop_left' (Words.toBe_length _ _)]
    simp
  have hword : Words.ofBe (Words.toBe 4 q.length) = q.length :=
    Words.ofBe_toBe_of_lt hlt
  have hadd : (add 64 4 q.length : Outcome StegoError Nat) = .ok (4 + q.length) :=
    add_of_lt (by omega)
  have hlen : ¬ (framePayload q ++ t).length < 4 := by simp; omega
  have hfits : ¬ (framePayload q ++ t).length < 4 + q.length := by simp; omega
  simp only [validateFrame, hlen, htake, hword, hadd, hfits, hdrop, ok_bind, if_false, ne_eq,
    not_true_eq_false]

/-- **`validateFrame` accepts exactly the frames of the expected length**, whatever follows them. -/
theorem validateFrame_eq_ok {data : Bytes} {n : Nat} {q : Bytes} :
    validateFrame data n = .ok q ↔
      q.length = n ∧ n < 2 ^ 32 ∧ ∃ t, data = framePayload q ++ t := by
  constructor
  · exact frame_of_validateFrame
  · intro h
    obtain ⟨rfl, hlt, t, rfl⟩ := h
    exact validateFrame_framePayload hlt

theorem validateFrame_ne_panic {data : Bytes} {n : Nat} (h : n + 4 < 2 ^ 64) (p : Panic) :
    validateFrame data n ≠ .error (.panic p) := by
  unfold validateFrame
  rw [add_of_lt (by omega), ok_bind]
  dsimp only
  split
  · intro h
    cases h
  · split
    · intro h
      cases h
    · split <;> (intro h; cases h)

/-- Frames of different lengths start differently. -/
theorem framePayload_take_injective {p q : Bytes} (hp : p.length < 2 ^ 32)
    (hq : q.length < 2 ^ 32) (h : (framePayload p).take 4 = (framePayload q).take 4) :
    p.length = q.length := by
  rw [framePayload_take, framePayload_take, Nat.mod_eq_of_lt hp, Nat.mod_eq_of_lt hq] at h
  exact Words.toBe_injective hp hq h

/-! ## Writing -/

theorem writeBit_eq {p : Nat} (hp : p < 8) (raw : Bytes) (bit : UInt8) (pos : Nat) :
    writeBit p (~~~((1 : UInt8) <<< UInt8.ofNat p)) raw bit pos
      = .ok (raw.modify pos (Bits.put p bit)) := by
  unfold writeBit
  split
  · rename_i hpos
    rw [index_of_lt hpos, ok_bind, shl8, if_pos hp, ok_bind, store_of_lt hpos,
      List.modify_eq_set_getElem?, List.getElem?_eq_getElem hpos]
    rfl
  · rename_i hpos
    rw [List.modify_eq_self (Nat.le_of_not_lt hpos)]

/-- **Writing is a scatter of the data's bits into one bit plane.** -/
theorem writeBitsAtPositions_eq {bitPlane : UInt8} (hp : bitPlane.toNat < 8) (raw : Bytes)
    (positions : List Nat) (data : Bytes) :
    writeBitsAtPositions raw positions data bitPlane
      = .ok (Scatter.scatter (Bits.put bitPlane.toNat) ((Bits.stream data).zip positions) raw) := by
  rw [writeBitsAtPositions, shl8, if_pos hp, ok_bind]
  refine (foldlM_eq_ok (fun _ => True) trivial fun raw _ bp _ => ⟨?_, trivial⟩).1
  exact writeBit_eq hp raw bp.1 bp.2

/-- Writing never changes the size of the buffer. -/
theorem writeBitsAtPositions_length {raw raw' : Bytes} {positions : List Nat} {data : Bytes}
    {bitPlane : UInt8} (h : writeBitsAtPositions raw positions data bitPlane = .ok raw') :
    raw'.length = raw.length := by
  rw [writeBitsAtPositions, bind_eq_ok] at h
  obtain ⟨mask, -, h⟩ := h
  refine foldlM_preserves (fun r => r.length = raw.length) ?_ h rfl
  intro b bp b' hstep hb
  unfold writeBit at hstep
  split at hstep
  · simp only [bind_eq_ok] at hstep
    obtain ⟨old, -, shifted, -, hstore⟩ := hstep
    rw [store_length hstore, hb]
  · cases hstep
    exact hb

/-! ## Reading -/

theorem readBit_eq {raw result : Bytes} {p pos i : Nat} {v : UInt8} (hp : p < 8)
    (hv : raw[pos]?.map (Bits.get p) = some v) (hi : i < 8 * result.length) :
    readBit raw p result pos i
      = .ok (result.modify (i / 8) (· ||| (v <<< UInt8.ofNat (7 - i % 8)))) := by
  obtain ⟨b, hb, rfl⟩ := Option.map_eq_some_iff.mp hv
  have hpos : pos < raw.length := (List.getElem?_eq_some_iff.mp hb).1
  have hbyte : i / 8 < result.length := by omega
  rw [readBit, if_neg (Nat.not_le.mpr hpos), index_eq_ok.mpr hb, ok_bind, shr8, if_pos hp,
    ok_bind]
  dsimp only
  rw [index_of_lt hbyte, ok_bind, shl8, if_pos (by omega), ok_bind, store_of_lt hbyte,
    List.modify_eq_set_getElem?, List.getElem?_eq_getElem hbyte]
  rfl

/-- A round that succeeds has read inside the buffer. -/
theorem readBit_inRange {raw result result' : Bytes} {p pos i : Nat}
    (h : readBit raw p result pos i = .ok result') : pos < raw.length := by
  unfold readBit at h
  split at h
  · cases h
  · omega

/--
The reading loop from round `k` on: the first `k` bits of the result are final,
the others still zero.
-/
theorem readLoop_eq {raw : Bytes} {p : Nat} (hp : p < 8) :
    ∀ {ps : List Nat} {vals result done : Bytes} {k m : Nat},
      Scatter.gather (Bits.get p) raw ps = vals.map some →
      Bits.stream result = done ++ List.replicate m 0 → done.length = k → ps.length ≤ m →
      ∃ result', (ps.zipIdx k).foldlM (fun r pi => readBit raw p r pi.1 pi.2) result = .ok result'
        ∧ result'.length = result.length
        ∧ Bits.stream result' = done ++ vals ++ List.replicate (m - ps.length) 0
  | [], vals, result, done, k, m, hg, hs, _, _ => by
      have : vals = [] := by simpa [Scatter.gather] using hg
      subst this
      exact ⟨result, rfl, rfl, by simpa using hs⟩
  | pos :: ps, [], result, done, k, m, hg, _, _, _ => by simp [Scatter.gather] at hg
  | pos :: ps, v :: vals, result, done, k, 0, _, _, _, hm => by simp at hm
  | pos :: ps, v :: vals, result, done, k, m + 1, hg, hs, hk, hm => by
      rw [Scatter.gather, List.map_cons, List.map_cons, List.cons.injEq] at hg
      have hlen := congrArg List.length hs
      simp only [Bits.stream_length, List.length_append, List.length_replicate, hk] at hlen
      have hbit : Bits.IsBit v := by
        obtain ⟨b, -, rfl⟩ := Option.map_eq_some_iff.mp hg.1
        exact Bits.isBit_get p b
      -- this round turns the first of the zeros into `v`
      have hs' : Bits.stream (result.modify (k / 8) (· ||| (v <<< UInt8.ofNat (7 - k % 8))))
          = (done ++ [v]) ++ List.replicate m 0 := by
        have hright := Bits.modify_append_right done (List.replicate (m + 1) 0) 0 (· ||| v)
        rw [hk, Nat.add_zero k] at hright
        rw [Bits.stream_modify_or hbit, hs, hright]
        simp [List.replicate_succ]
      obtain ⟨result', h1, h2, h3⟩ := readLoop_eq hp (k := k + 1) hg.2 hs' (by simp [hk])
        (Nat.le_of_succ_le_succ hm)
      refine ⟨result', ?_, by rw [h2, List.length_modify], ?_⟩
      · rw [List.zipIdx_cons, List.foldlM_cons, readBit_eq hp hg.1 (by omega), ok_bind]
        exact h1
      · simpa using h3

/-- **Reading is a gather from one bit plane**, in range or not at all. -/
theorem readBitsAtPositions_eq_ok {raw : Bytes} {positions : List Nat} {n : Nat}
    {bitPlane : UInt8} (hp : bitPlane.toNat < 8) {data : Bytes} :
    readBitsAtPositions raw positions n bitPlane = .ok data ↔
      n * 8 < 2 ^ 64 ∧ 8 * n ≤ positions.length ∧ data.length = n
        ∧ Scatter.gather (Bits.get bitPlane.toNat) raw (positions.take (8 * n))
            = (Bits.stream data).map some := by
  have hzero : Bits.stream (List.replicate n 0) = [] ++ List.replicate (8 * n) 0 := by
    rw [Bits.stream_replicate_zero, List.nil_append]
  have hcomm : n * 8 = 8 * n := Nat.mul_comm n 8
  rw [readBitsAtPositions, bind_eq_ok]
  constructor
  · intro h
    obtain ⟨totalBits, hmul, h⟩ := h
    obtain ⟨hlt, rfl⟩ := mul_eq_ok.mp hmul
    split at h
    · cases h
    · rename_i hfits
      have hlen : (positions.take (8 * n)).length = 8 * n := by simp; omega
      rw [hcomm] at h
      -- every round succeeded, so every position was in range
      have hin : ∀ pos ∈ positions.take (8 * n), pos < raw.length :=
        foldlM_zipIdx_mem (fun _ _ _ _ => readBit_inRange) h
      obtain ⟨vals, hvals⟩ : ∃ vals : Bytes, Scatter.gather (Bits.get bitPlane.toNat) raw
          (positions.take (8 * n)) = vals.map some := Scatter.gather_of_inRange _ hin
      obtain ⟨result', h1, h2, h3⟩ := readLoop_eq hp hvals hzero List.length_nil (Nat.le_of_eq hlen)
      rw [h1] at h
      cases h
      rw [hlen, Nat.sub_self, List.replicate_zero, List.append_nil, List.nil_append] at h3
      exact ⟨hlt, by omega, by simpa using h2, by rw [hvals, h3]⟩
  · intro h
    obtain ⟨hlt, hfits, hdata, hg⟩ := h
    refine ⟨n * 8, mul_of_lt hlt, ?_⟩
    have hlen : (positions.take (8 * n)).length = 8 * n := by simp; omega
    obtain ⟨result', h1, h2, h3⟩ := readLoop_eq hp hg hzero List.length_nil (Nat.le_of_eq hlen)
    rw [hlen, Nat.sub_self, List.replicate_zero, List.append_nil, List.nil_append] at h3
    rw [if_neg (by omega), hcomm, h1, Bits.stream_injective h3]

/-- **Writing back what was read changes nothing**, wherever the positions are. -/
theorem write_of_read {raw : Bytes} {positions : List Nat} {n : Nat} {bitPlane : UInt8}
    (hp : bitPlane.toNat < 8) {data : Bytes}
    (h : readBitsAtPositions raw positions n bitPlane = .ok data) :
    writeBitsAtPositions raw positions data bitPlane = .ok raw := by
  obtain ⟨-, -, hlen, hgather⟩ := (readBitsAtPositions_eq_ok hp).mp h
  rw [← hlen, ← Bits.stream_length] at hgather
  rw [writeBitsAtPositions_eq hp, Scatter.scatter_gather (fun a => Bits.put_get hp a) hgather]

/-- Positions inside the buffer are read without an error, if there are enough of them. -/
theorem readBitsAtPositions_inside {raw : Bytes} {positions : List Nat} {n : Nat}
    {bitPlane : UInt8} (hp : bitPlane.toNat < 8) (hn : n * 8 < 2 ^ 64)
    (hfits : n * 8 ≤ positions.length) (hin : ∀ i ∈ positions, i < raw.length) :
    ∃ data, readBitsAtPositions raw positions n bitPlane = .ok data := by
  have hlen : (positions.take (n * 8)).length = n * 8 := by simpa using hfits
  obtain ⟨vals, hvals⟩ := Scatter.gather_of_inRange (Bits.get bitPlane.toNat) fun i hi =>
    hin i (List.mem_of_mem_take (i := n * 8) hi)
  have hzero : Bits.stream (List.replicate n 0) = [] ++ List.replicate (8 * n) 0 :=
    Bits.stream_replicate_zero n
  obtain ⟨data, hloop, -, -⟩ :=
    readLoop_eq hp hvals hzero List.length_nil (by rw [hlen, Nat.mul_comm])
  exact ⟨data, by rw [readBitsAtPositions, mul_of_lt hn, ok_bind, if_neg (by omega), hloop]⟩

end Stegosafe
