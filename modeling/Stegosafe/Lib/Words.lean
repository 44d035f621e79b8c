import Mathlib.Data.List.Induction
import Mathlib.Algebra.Order.Group.Nat

/-!
# Words as bytes

`toBe k n` is the `k`-byte big-endian encoding of `n`, truncated to `k` bytes as a
cast to a `k`-byte word is; `ofBe` reads one back. `toLe k n` is the little-endian
encoding, and `ofLe` reads it.
-/

namespace Words

/-- The low `k` bytes of `n`, most significant first. -/
def toBe : Nat → Nat → List UInt8
  | 0, _ => []
  | k + 1, n => toBe k (n / 256) ++ [UInt8.ofNat n]

/-- The number a big-endian byte string stands for. -/
def ofBe (bytes : List UInt8) : Nat := bytes.foldl (fun n b => 256 * n + b.toNat) 0

/-- The low `k` bytes of `n`, least significant first. -/
def toLe : Nat → Nat → List UInt8
  | 0, _ => []
  | k + 1, n => UInt8.ofNat n :: toLe k (n / 256)

@[simp] theorem toLe_length (k n : Nat) : (toLe k n).length = k := by
  induction k generalizing n with
  | zero => rfl
  | succ k ih => rw [toLe, List.length_cons, ih]

@[simp] theorem toBe_length (k n : Nat) : (toBe k n).length = k := by
  induction k generalizing n with
  | zero => rfl
  | succ k ih => simp [toBe, ih]

theorem ofBe_snoc (bytes : List UInt8) (b : UInt8) :
    ofBe (bytes ++ [b]) = 256 * ofBe bytes + b.toNat := by
  simp [ofBe, List.foldl_append]

theorem ofBe_toBe (k n : Nat) : ofBe (toBe k n) = n % 256 ^ k := by
  induction k generalizing n with
  | zero => simp [toBe, ofBe, Nat.mod_one]
  | succ k ih =>
    have hb : (UInt8.ofNat n).toNat = n % 256 := by simp
    rw [toBe, ofBe_snoc, ih, hb, Nat.pow_succ, Nat.mul_comm (256 ^ k) 256, Nat.mod_mul,
      Nat.add_comm]

theorem ofBe_toBe_of_lt {k n : Nat} (h : n < 256 ^ k) : ofBe (toBe k n) = n := by
  rw [ofBe_toBe, Nat.mod_eq_of_lt h]

/-- Reading a word and writing it again gives the same bytes. -/
theorem toBe_ofBe (bytes : List UInt8) : toBe bytes.length (ofBe bytes) = bytes := by
  induction bytes using List.reverseRecOn with
  | nil => rfl
  | append_singleton bytes b ih =>
    have hlt : b.toNat < 256 := b.toNat_lt
    have hdiv : (256 * ofBe bytes + b.toNat) / 256 = ofBe bytes := by omega
    have hbyte : UInt8.ofNat (256 * ofBe bytes + b.toNat) = b := by
      apply UInt8.toNat_inj.mp
      rw [UInt8.toNat_ofNat']
      omega
    rw [List.length_append, List.length_singleton, ofBe_snoc, toBe, hdiv, ih, hbyte]

theorem ofBe_lt (bytes : List UInt8) : ofBe bytes < 256 ^ bytes.length := by
  induction bytes using List.reverseRecOn with
  | nil => simp [ofBe]
  | append_singleton bytes b ih =>
    have hlt : b.toNat < 256 := b.toNat_lt
    rw [ofBe_snoc, List.length_append, List.length_singleton, Nat.pow_succ]
    omega

/-- Distinct words have distinct encodings, as long as they fit. -/
theorem toBe_injective {k m n : Nat} (hm : m < 256 ^ k) (hn : n < 256 ^ k)
    (h : toBe k m = toBe k n) : m = n := by
  rw [← ofBe_toBe_of_lt hm, ← ofBe_toBe_of_lt hn, h]

/-! ## The other way round -/

/-- The number a little-endian byte string stands for. -/
def ofLe (bytes : List UInt8) : Nat := ofBe bytes.reverse

theorem toLe_reverse (k n : Nat) : (toLe k n).reverse = toBe k n := by
  induction k generalizing n with
  | zero => rfl
  | succ k ih => rw [toLe, List.reverse_cons, ih, toBe]

theorem toLe_ofLe (bytes : List UInt8) : toLe bytes.length (ofLe bytes) = bytes := by
  have hback := toBe_ofBe bytes.reverse
  rw [List.length_reverse, ← toLe_reverse] at hback
  exact List.reverse_inj.mp hback

theorem ofLe_lt (bytes : List UInt8) : ofLe bytes < 256 ^ bytes.length := by
  have hlt := ofBe_lt bytes.reverse
  rwa [List.length_reverse] at hlt

theorem toLe_injective {k m n : Nat} (hm : m < 256 ^ k) (hn : n < 256 ^ k)
    (h : toLe k m = toLe k n) : m = n := by
  have hback := congrArg List.reverse h
  rw [toLe_reverse, toLe_reverse] at hback
  exact toBe_injective hm hn hback

end Words
