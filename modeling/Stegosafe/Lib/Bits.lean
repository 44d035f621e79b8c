import Mathlib.Algebra.Ring.Nat
import Mathlib.Data.List.Basic
import Mathlib.Data.List.Flatten

/-!
# Bytes as bits

A byte string is also a bit string, most significant bit first. `stream` is that
view. Facts about writers and readers of bytes that work bit by bit become facts
about lists of bits, because the view is injective and an `or` into a byte is an
`or` into one position of the stream.

`get` and `put` are the other half: reading and overwriting one chosen bit of a
byte. Bits are bytes equal to `0` or `1`, as programs on bytes have them.
-/

namespace Bits

/-- A byte that stands for one bit. -/
def IsBit (v : UInt8) : Prop := v = 0 ∨ v = 1

/-- Bit `p` of `b`. -/
def get (p : Nat) (b : UInt8) : UInt8 := (b >>> UInt8.ofNat p) &&& 1

/-- `b` with bit `p` overwritten by `v`. -/
def put (p : Nat) (v b : UInt8) : UInt8 :=
  (b &&& ~~~((1 : UInt8) <<< UInt8.ofNat p)) ||| (v <<< UInt8.ofNat p)

/-- The bits of a byte, most significant first. -/
def ofByte (b : UInt8) : List UInt8 := (List.range 8).reverse.map fun i => get i b

/-- The bits of a byte string, byte by byte. -/
def stream (data : List UInt8) : List UInt8 := data.flatMap ofByte

/-! ## One byte -/

/-- A statement about bytes is one about 256 values. -/
theorem forall_byte {P : UInt8 → Prop} (h : ∀ i : Fin 256, P (UInt8.ofFin i)) (b : UInt8) :
    P b := by
  have hb : UInt8.ofFin b.toFin = b := rfl
  exact hb ▸ h b.toFin

theorem isBit_get (p : Nat) (b : UInt8) : IsBit (get p b) := by
  have key : ∀ x : UInt8, IsBit (x &&& 1) :=
    forall_byte (by unfold IsBit; decide +kernel)
  exact key _

/-- Reading a bit of a byte is reading it off the byte's bit vector. -/
theorem get_eq {p : Nat} (hp : p < 8) (b : UInt8) :
    get p b = if b.toBitVec.getLsbD p then 1 else 0 := by
  have key : ∀ b : UInt8, ∀ p : Fin 8, get p b = if b.toBitVec.getLsbD p then 1 else 0 :=
    forall_byte (by decide +kernel)
  exact key b ⟨p, hp⟩

theorem getLsbD_put {p q : Nat} (hp : p < 8) (hq : q < 8) {v : UInt8} (hv : IsBit v)
    (b : UInt8) :
    (put p v b).toBitVec.getLsbD q = if q = p then v == 1 else b.toBitVec.getLsbD q := by
  by_cases hqp : q = p
  · subst hqp
    rcases hv with rfl | rfl <;> simp [put, hq, Nat.mod_eq_of_lt hp]
  · -- either `q` is below the shift, or it reads past the one bit shifted in
    have hpast : ¬ q < p → q - p ≠ 0 := by omega
    rcases hv with rfl | rfl <;> by_cases hlt : q < p <;>
      simp [put, hq, hqp, hlt, hpast, Nat.mod_eq_of_lt hp]

theorem get_put_self {p : Nat} (hp : p < 8) {v : UInt8} (hv : IsBit v) (b : UInt8) :
    get p (put p v b) = v := by
  rw [get_eq hp, getLsbD_put hp hp hv, if_pos rfl]
  rcases hv with rfl | rfl <;> rfl

theorem get_put_ne {p q : Nat} (hp : p < 8) (hq : q < 8) (hne : q ≠ p) {v : UInt8}
    (hv : IsBit v) (b : UInt8) : get q (put p v b) = get q b := by
  rw [get_eq hq, get_eq hq, getLsbD_put hp hq hv, if_neg hne]

/-- Bytes with the same bits are the same. -/
theorem eq_of_get {a b : UInt8} (h : ∀ p < 8, get p a = get p b) : a = b := by
  apply UInt8.eq_of_toBitVec_eq
  apply BitVec.eq_of_getLsbD_eq
  intro p hp
  have hbit := h p hp
  rw [get_eq hp, get_eq hp] at hbit
  cases ha : a.toBitVec.getLsbD p <;> cases hb : b.toBitVec.getLsbD p <;> simp_all

/-- Writing back the bit that is there changes nothing. -/
theorem put_get {p : Nat} (hp : p < 8) (b : UInt8) : put p (get p b) b = b := by
  apply eq_of_get
  intro q hq
  -- bit `p` is what was just written, every other bit was left alone
  rcases Nat.decEq q p with hne | rfl
  · exact get_put_ne hp hq hne (isBit_get p b) b
  · exact get_put_self hp (isBit_get q b) b

/-- Of two bits written in one place, the second stays. -/
theorem put_put {p : Nat} (hp : p < 8) {v w : UInt8} (hv : IsBit v) (hw : IsBit w) (b : UInt8) :
    put p v (put p w b) = put p v b := by
  apply eq_of_get
  intro q hq
  rcases Nat.decEq q p with hne | rfl
  · rw [get_put_ne hp hq hne hv, get_put_ne hp hq hne hw, get_put_ne hp hq hne hv]
  · rw [get_put_self hp hv, get_put_self hp hv]

/-- Bits written in two places are written in either order. -/
theorem put_comm {p q : Nat} (hp : p < 8) (hq : q < 8) (hne : p ≠ q) {v w : UInt8} (hv : IsBit v)
    (hw : IsBit w) (b : UInt8) : put p v (put q w b) = put q w (put p v b) := by
  apply eq_of_get
  intro r hr
  rcases Nat.decEq r p with hrp | rfl
  · rw [get_put_ne hp hr hrp hv]
    rcases Nat.decEq r q with hrq | rfl
    · rw [get_put_ne hq hr hrq hw, get_put_ne hq hr hrq hw, get_put_ne hp hr hrp hv]
    · rw [get_put_self hq hw, get_put_self hq hw]
  · rw [get_put_self hp hv, get_put_ne hq hr hne hw, get_put_self hp hv]

/-- Overwriting a bit moves the byte's value by the difference of the bits, times `2 ^ p`. -/
theorem toNat_put {p : Nat} (hp : p < 8) {v : UInt8} (hv : IsBit v) (b : UInt8) :
    (put p v b).toNat + (get p b).toNat * 2 ^ p = b.toNat + v.toNat * 2 ^ p := by
  have key : ∀ b : UInt8, ∀ p : Fin 8,
      (put p 0 b).toNat + (get p b).toNat * 2 ^ p.val = b.toNat + (0 : UInt8).toNat * 2 ^ p.val
      ∧ (put p 1 b).toNat + (get p b).toNat * 2 ^ p.val
          = b.toNat + (1 : UInt8).toNat * 2 ^ p.val :=
    forall_byte (by decide +kernel)
  rcases hv with rfl | rfl
  · exact (key b ⟨p, hp⟩).1
  · exact (key b ⟨p, hp⟩).2

@[simp] theorem ofByte_length (b : UInt8) : (ofByte b).length = 8 := by simp [ofByte]

theorem ofByte_getElem? (b : UInt8) {j : Nat} (hj : j < 8) :
    (ofByte b)[j]? = some (get (7 - j) b) := by
  simp [ofByte, hj]

/-- A byte is determined by its list of bits. -/
theorem ofByte_injective {a b : UInt8} (h : ofByte a = ofByte b) : a = b := by
  apply eq_of_get
  intro p hp
  have hbit := congrArg (·[7 - p]?) h
  simp only [ofByte_getElem? _ (show 7 - p < 8 by omega), Option.some.injEq,
    show 7 - (7 - p) = p by omega] at hbit
  exact hbit

theorem get_or_shift {p q : Nat} (hp : p < 8) (hq : q < 8) {v : UInt8} (hv : IsBit v)
    (b : UInt8) :
    get q (b ||| (v <<< UInt8.ofNat p)) = if q = p then get q b ||| v else get q b := by
  rw [get_eq hq, get_eq hq]
  by_cases hqp : q = p
  · subst hqp
    rcases hv with rfl | rfl
    · simp
    · cases b.toBitVec.getLsbD q <;> simp [hq, Nat.mod_eq_of_lt hp]
  · have hpast : ¬ q < p → q - p ≠ 0 := by omega
    rcases hv with rfl | rfl <;> by_cases hlt : q < p <;>
      simp [hq, hqp, hlt, hpast, Nat.mod_eq_of_lt hp]

/-- An `or` of a shifted bit into a byte is an `or` into one position of its bits. -/
theorem ofByte_or {j : Nat} (hj : j < 8) {v : UInt8} (hv : IsBit v) (b : UInt8) :
    ofByte (b ||| (v <<< UInt8.ofNat (7 - j))) = (ofByte b).modify j (· ||| v) := by
  apply List.ext_getElem?
  intro k
  rcases Nat.lt_or_ge k 8 with hk | hk
  · rw [ofByte_getElem? _ hk, get_or_shift (by omega) (by omega) hv, List.getElem?_modify,
      ofByte_getElem? _ hk]
    by_cases hjk : j = k
    · simp [hjk]
    · have : 7 - k ≠ 7 - j := by omega
      simp [hjk, this]
  · rw [List.getElem?_eq_none (by simpa using hk), List.getElem?_eq_none (by simpa using hk)]

/-! ## The stream of a byte string -/

@[simp] theorem stream_nil : stream [] = [] := rfl

@[simp] theorem stream_cons (b : UInt8) (data : List UInt8) :
    stream (b :: data) = ofByte b ++ stream data := rfl

@[simp] theorem stream_length (data : List UInt8) : (stream data).length = 8 * data.length := by
  induction data with
  | nil => rfl
  | cons b data ih => simp [ih]; omega

theorem isBit_of_mem_stream {data : List UInt8} {v : UInt8} (h : v ∈ stream data) : IsBit v := by
  obtain ⟨b, -, hb⟩ := List.mem_flatMap.mp h
  obtain ⟨i, -, rfl⟩ := List.mem_map.mp hb
  exact isBit_get i b

/-- **A byte string is determined by its bits.** -/
theorem stream_injective : ∀ {a b : List UInt8}, stream a = stream b → a = b
  | [], [], _ => rfl
  | [], b :: bs, h => by
      have := congrArg List.length h
      simp only [stream_length, List.length_nil, List.length_cons] at this
      omega
  | a :: as, [], h => by
      have := congrArg List.length h
      simp only [stream_length, List.length_nil, List.length_cons] at this
      omega
  | a :: as, b :: bs, h => by
      obtain ⟨hhead, htail⟩ := List.append_inj h (by simp)
      rw [ofByte_injective hhead, stream_injective htail]

theorem stream_take (data : List UInt8) (n : Nat) :
    stream (data.take n) = (stream data).take (8 * n) := by
  induction data generalizing n with
  | nil => simp
  | cons b data ih =>
    cases n with
    | zero => simp
    | succ n =>
      rw [List.take_succ_cons, stream_cons, stream_cons, ih, List.take_append, ofByte_length,
        show 8 * (n + 1) - 8 = 8 * n by omega,
        List.take_of_length_le (show (ofByte b).length ≤ 8 * (n + 1) by rw [ofByte_length]; omega)]

theorem stream_drop (data : List UInt8) (n : Nat) :
    stream (data.drop n) = (stream data).drop (8 * n) := by
  induction data generalizing n with
  | nil => simp
  | cons b data ih =>
    cases n with
    | zero => simp
    | succ n =>
      rw [List.drop_succ_cons, stream_cons, ih, List.drop_append, ofByte_length,
        show 8 * (n + 1) - 8 = 8 * n by omega,
        List.drop_of_length_le (show (ofByte b).length ≤ 8 * (n + 1) by rw [ofByte_length]; omega),
        List.nil_append]

theorem stream_replicate_zero (n : Nat) :
    stream (List.replicate n 0) = List.replicate (8 * n) 0 := by
  induction n with
  | zero => rfl
  | succ n ih =>
    have h0 : ofByte 0 = List.replicate 8 0 := by decide
    rw [List.replicate_succ, stream_cons, ih, h0, List.replicate_append_replicate]
    congr 1
    omega

theorem modify_append_left {α : Type} {l₁ l₂ : List α} {i : Nat} (f : α → α)
    (h : i < l₁.length) : (l₁ ++ l₂).modify i f = l₁.modify i f ++ l₂ := by
  apply List.ext_getElem?
  intro k
  rcases Nat.lt_or_ge k l₁.length with hk | hk
  · rw [List.getElem?_append_left (by simpa using hk), List.getElem?_modify,
      List.getElem?_modify, List.getElem?_append_left hk]
  · rw [List.getElem?_append_right (by simpa using hk), List.getElem?_modify_ne _ _ (by omega),
      List.getElem?_append_right hk, List.length_modify]

theorem modify_append_right {α : Type} (l₁ l₂ : List α) (i : Nat) (f : α → α) :
    (l₁ ++ l₂).modify (l₁.length + i) f = l₁ ++ l₂.modify i f := by
  apply List.ext_getElem?
  intro k
  rcases Nat.lt_or_ge k l₁.length with hk | hk
  · rw [List.getElem?_modify_ne _ _ (by omega), List.getElem?_append_left hk,
      List.getElem?_append_left hk]
  · obtain ⟨m, rfl⟩ := Nat.exists_eq_add_of_le hk
    rw [List.getElem?_modify, List.getElem?_append_right hk, List.getElem?_append_right hk,
      List.getElem?_modify]
    simp

/--
Or-ing bit `v` into position `7 - i % 8` of byte `i / 8` or-s it into position `i`
of the stream.
-/
theorem stream_modify_or {v : UInt8} (hv : IsBit v) (data : List UInt8) (i : Nat) :
    stream (data.modify (i / 8) (· ||| (v <<< UInt8.ofNat (7 - i % 8))))
      = (stream data).modify i (· ||| v) := by
  induction data generalizing i with
  | nil => simp
  | cons b data ih =>
    rcases Nat.lt_or_ge i 8 with hi | hi
    · -- the bit lies in the first byte
      have h0 : i / 8 = 0 := by omega
      have h1 : i % 8 = i := by omega
      rw [h0, h1, List.modify_zero_cons, stream_cons, stream_cons, ofByte_or hi hv,
        modify_append_left _ (by simpa using hi)]
    · -- it lies past the first byte, so the first eight places of the stream stay
      obtain ⟨k, rfl⟩ := Nat.exists_eq_add_of_le hi
      have h0 : (8 + k) / 8 = k / 8 + 1 := by omega
      have h1 : (8 + k) % 8 = k % 8 := by omega
      have hright := modify_append_right (ofByte b) (stream data) k (· ||| v)
      rw [ofByte_length] at hright
      rw [h0, h1, List.modify_succ_cons, stream_cons, stream_cons, ih, hright]

end Bits
