import Mathlib.Data.List.Basic

/-!
# Text as bytes

`utf8` is the byte string of a text; it is injective and turns concatenation into
concatenation. The decimal form of a number is a text of digits, so it holds no
line break, and it determines the number.

A line is a text without a line break, followed by one. Of two byte strings that
start with a line and are equal, the lines are equal and so is what follows them:
this is how a parser of lines peels a text, and all it relies on.
-/

namespace Text

/-- The UTF-8 bytes of a text. -/
def utf8 (s : String) : List UInt8 := s.toByteArray.data.toList

@[simp] theorem utf8_append (s t : String) : utf8 (s ++ t) = utf8 s ++ utf8 t := by
  simp [utf8, String.toByteArray_append]

@[simp] theorem utf8_empty : utf8 "" = [] := rfl

theorem utf8_injective {s t : String} (h : utf8 s = utf8 t) : s = t := by
  apply String.toByteArray_inj.mp
  exact ByteArray.ext (Array.toList_inj.mp h)

/-- Character by character. -/
theorem utf8_eq_flatMap (s : String) : utf8 s = s.toList.flatMap String.utf8EncodeChar := by
  have h : s.toByteArray = s.toList.utf8Encode := String.utf8Encode_toList.symm
  rw [utf8, h, List.utf8Encode]
  simp [List.data_toByteArray]

/-! ## Line breaks -/

/-- The byte of a line break. -/
def newline : UInt8 := 10

theorem utf8_newline : utf8 "\n" = [newline] := by decide

/-- Only the line break itself encodes to a string with its byte. -/
theorem newline_mem_encodeChar {c : Char} (h : newline ∈ String.utf8EncodeChar c) : c = '\n' := by
  have hbyte : ∀ {n : Nat}, newline = UInt8.ofNat n → n % 256 = 10 := by
    intro n hn
    have := congrArg UInt8.toNat hn
    rw [UInt8.toNat_ofNat'] at this
    exact this.symm
  have hv : c.val.toNat = 10 := by
    unfold String.utf8EncodeChar at h
    dsimp only at h
    split at h
    · have := hbyte (List.mem_singleton.mp h)
      omega
    · -- every byte of a longer encoding has its top bit set
      split at h
      · simp only [List.mem_cons, List.not_mem_nil, or_false] at h
        rcases h with h | h <;> (have hmod := hbyte h; omega)
      · split at h
        · simp only [List.mem_cons, List.not_mem_nil, or_false] at h
          rcases h with h | h | h <;> (have hmod := hbyte h; omega)
        · simp only [List.mem_cons, List.not_mem_nil, or_false] at h
          rcases h with h | h | h | h <;> (have hmod := hbyte h; omega)
  exact Char.ext (UInt32.toNat_inj.mp hv)

/-- A text without a line break has no such byte. -/
theorem newline_notMem {s : String} (h : '\n' ∉ s.toList) : newline ∉ utf8 s := by
  rw [utf8_eq_flatMap]
  intro hmem
  obtain ⟨c, hc, hbyte⟩ := List.mem_flatMap.mp hmem
  exact h (newline_mem_encodeChar hbyte ▸ hc)

/-- **Peeling a line**: two strings that start with a line share it if they are equal. -/
theorem line_inj : ∀ {a b x y : List UInt8}, newline ∉ a → newline ∉ b →
    a ++ newline :: x = b ++ newline :: y → a = b ∧ x = y
  | [], [], _, _, _, _, h => ⟨rfl, List.cons.inj h |>.2⟩
  | [], c :: b, _, _, _, hb, h => by
      obtain ⟨hc, -⟩ := List.cons.inj h
      exact absurd (hc ▸ List.mem_cons_self) hb
  | c :: a, [], _, _, ha, _, h => by
      obtain ⟨hc, -⟩ := List.cons.inj h
      exact absurd (hc ▸ List.mem_cons_self) ha
  | c :: a, d :: b, _, _, ha, hb, h => by
      obtain ⟨hc, htail⟩ := List.cons.inj h
      obtain ⟨hab, hxy⟩ := line_inj (fun hmem => ha (List.mem_cons_of_mem _ hmem))
        (fun hmem => hb (List.mem_cons_of_mem _ hmem)) htail
      exact ⟨by rw [hc, hab], hxy⟩

/-- A string whose last part starts with a line break goes past any part of a line. -/
theorem break_past {u d r w : List UInt8} (hu : newline ∉ u) (h : d ++ newline :: r = u ++ w) :
    ∃ z, d = u ++ z ∧ z ++ newline :: r = w := by
  rcases List.append_eq_append_iff.mp h with ⟨rest, hrest, htail⟩ | ⟨z, hz, hw⟩
  · cases rest with
    | nil => exact ⟨[], by simpa using hrest.symm, htail⟩
    | cons c rest =>
      obtain ⟨rfl, -⟩ := List.cons.inj htail
      exact absurd (hrest ▸ List.mem_append_right _ List.mem_cons_self) hu
  · exact ⟨z, hz, hw.symm⟩

/-- Of a whole line, it ends with the line or goes past its break. -/
theorem break_line {u d r v : List UInt8} (hu : newline ∉ u)
    (h : d ++ newline :: r = u ++ newline :: v) :
    r = v ∨ ∃ z, d = u ++ newline :: z ∧ z ++ newline :: r = v := by
  obtain ⟨z, rfl, hz⟩ := break_past hu h
  cases z with
  | nil => exact Or.inl (List.cons.inj hz).2
  | cons c z =>
    obtain ⟨rfl, htail⟩ := List.cons.inj hz
    exact Or.inr ⟨z, rfl, htail⟩

/-- **What follows a text in a text is a text.** -/
theorem exists_utf8_of_append {s t : String} {z : List UInt8} (h : utf8 t = utf8 s ++ z) :
    ∃ u, t = s ++ u ∧ utf8 u = z := by
  have hbytes : s.toList.utf8Encode ++ z.toByteArray = t.toList.utf8Encode := by
    rw [String.utf8Encode_toList, String.utf8Encode_toList]
    apply ByteArray.ext
    apply Array.toList_inj.mp
    simp only [ByteArray.data_append, Array.toList_append, List.data_toByteArray]
    exact h.symm
  obtain ⟨rest, hrest⟩ := List.isPrefix_of_utf8Encode_append_eq_utf8Encode _ hbytes
  have ht : t = s ++ String.ofList rest := by
    rw [← String.ofList_toList (s := t), ← hrest, String.ofList_append, String.ofList_toList]
  refine ⟨String.ofList rest, ht, ?_⟩
  rw [ht, utf8_append] at h
  exact List.append_cancel_left h

/-! ## Decimal numbers -/

theorem newline_notMem_toString (n : Nat) : newline ∉ utf8 (toString n) := by
  refine newline_notMem ?_
  rw [Nat.toString_eq_ofList_toDigits, String.toList_ofList]
  intro h
  have hdigit := Nat.isDigit_of_mem_toDigits (by decide) (by decide) h
  exact absurd hdigit (by decide)

/-- A number is determined by its decimal form. -/
theorem toString_injective {m n : Nat} (h : toString m = toString n) : m = n := by
  have hdigits : Nat.toDigits 10 m = Nat.toDigits 10 n := by
    have := congrArg String.toList h
    rwa [Nat.toString_eq_ofList_toDigits, Nat.toString_eq_ofList_toDigits, String.toList_ofList,
      String.toList_ofList] at this
  have hnum := congrArg (fun ds => Nat.ofDigitChars 10 ds 0) hdigits
  simpa using hnum

end Text
