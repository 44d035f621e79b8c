import Stegosafe.Lib.Text

/-!
# Hexadecimal text

`encode` writes two lower-case digits a byte; `decode` reads digits of either case
and refuses everything else. Decoding inverts encoding, and a text that decodes is
made of digits, two for every byte.
-/

namespace Hex

/-- The lower-case digit of a value below 16. -/
def digit (n : Nat) : Char := if n < 10 then Char.ofNat (48 + n) else Char.ofNat (87 + n)

/-- The value of a digit of either case. -/
def val (c : Char) : Option Nat :=
  if 'A' ≤ c ∧ c ≤ 'F' then some (c.toNat - 55)
  else if 'a' ≤ c ∧ c ≤ 'f' then some (c.toNat - 87)
  else if '0' ≤ c ∧ c ≤ '9' then some (c.toNat - 48)
  else none

/-- Two digits a byte, the high one first. -/
def encodeChars (data : List UInt8) : List Char :=
  data.flatMap fun b => [digit (b.toNat / 16), digit (b.toNat % 16)]

def encode (data : List UInt8) : String := String.ofList (encodeChars data)

def decodeChars : List Char → Option (List UInt8)
  | [] => some []
  | [_] => none
  | hi :: lo :: rest => do
      let h ← val hi
      let l ← val lo
      let data ← decodeChars rest
      some (UInt8.ofNat (16 * h + l) :: data)

def decode (s : String) : Option (List UInt8) := decodeChars s.toList

theorem val_digit {n : Nat} (h : n < 16) : val (digit n) = some n := by
  have key : ∀ i : Fin 16, val (digit i) = some i.val := by decide
  exact key ⟨n, h⟩

theorem decodeChars_encodeChars (data : List UInt8) :
    decodeChars (encodeChars data) = some data := by
  induction data with
  | nil => rfl
  | cons b data ih =>
    have hb := b.toNat_lt
    -- the byte is put together again from its two digits
    have hbyte : UInt8.ofNat (16 * (b.toNat / 16) + b.toNat % 16) = b := by
      rw [Nat.div_add_mod, UInt8.ofNat_toNat]
    have hhi := val_digit (show b.toNat / 16 < 16 by omega)
    have hlo := val_digit (show b.toNat % 16 < 16 by omega)
    rw [encodeChars, List.flatMap_cons, ← encodeChars, List.cons_append, List.cons_append,
      List.nil_append, decodeChars, hhi, hlo, ih]
    exact congrArg (fun byte => some (byte :: data)) hbyte

/-- **Decoding inverts encoding.** -/
@[simp] theorem decode_encode (data : List UInt8) : decode (encode data) = some data := by
  rw [decode, encode, String.toList_ofList, decodeChars_encodeChars]

theorem encode_ne_empty {data : List UInt8} (h : data ≠ []) : encode data ≠ "" := by
  intro heq
  have hdec := decode_encode data
  rw [heq] at hdec
  exact h (Option.some.inj hdec).symm

/-- What decodes is made of digits. -/
theorem val_of_mem : ∀ {cs : List Char} {data : List UInt8}, decodeChars cs = some data →
    ∀ c ∈ cs, val c ≠ none
  | [], _, _, _, hc => nomatch hc
  | hi :: lo :: rest, data, h, c, hc => by
      simp only [decodeChars, Option.bind_eq_bind, Option.bind_eq_some_iff] at h
      obtain ⟨a, ha, b, hb, tail, htail, -⟩ := h
      rcases List.mem_cons.mp hc with rfl | hc
      · rw [ha]
        exact Option.some_ne_none _
      · rcases List.mem_cons.mp hc with rfl | hc
        · rw [hb]
          exact Option.some_ne_none _
        · exact val_of_mem htail c hc

/-- Hexadecimal text has no line break. -/
theorem newline_notMem {s : String} {data : List UInt8} (h : decode s = some data) :
    Text.newline ∉ Text.utf8 s :=
  Text.newline_notMem fun hmem => val_of_mem h _ hmem (by decide)

end Hex
