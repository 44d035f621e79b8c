import Mathlib.Algebra.Ring.Int.Defs
import Mathlib.Algebra.Ring.Nat
import Mathlib.Data.List.Basic

/-!
# Calls that return, fail or panic

A call of a program with checked machine arithmetic ends in one of three ways:
it returns a value, it returns an error of its own error type, or it panics,
because a sum left its integer type or an index left its buffer. `Outcome`
keeps the three apart, so "returns an error" and "stops the program" are
different statements. A program may be written for any kind of computation that
ends like this, whatever else it does (`Computes`).

Integers are natural numbers (or integers, for signed words) together with
operations that panic as soon as a result does not fit its width.
-/

namespace Checked

/-- Why a call panicked. -/
inductive Panic where
  | overflow
  | indexOutOfBounds
  /-- A message could not be printed. -/
  | print
  deriving DecidableEq, Repr

/-- What a call can end in besides a value: an error it returns, or a panic. -/
inductive Fault (ε : Type) where
  | err (e : ε)
  | panic (p : Panic)
  deriving DecidableEq, Repr

/-- The result of a call. -/
abbrev Outcome (ε α : Type) := Except (Fault ε) α

variable {ε δ α β : Type}

namespace Outcome

/-- Return the error `e`. -/
def fail (e : ε) : Outcome ε α := .error (.err e)

/-- Stop with a panic. -/
def abort (p : Panic) : Outcome ε α := .error (.panic p)

/-- Turn a missing value into the error `e`. -/
def okOr (o : Option α) (e : ε) : Outcome ε α :=
  match o with
  | some a => .ok a
  | none => fail e

/-- The outcome of a call that never panics. -/
def returned : Except ε α → Outcome ε α
  | .ok a => .ok a
  | .error e => fail e

@[simp] theorem returned_eq_ok {x : Except ε α} {a : α} : returned x = .ok a ↔ x = .ok a := by
  cases x <;> simp [returned, fail]

@[simp] theorem returned_ne_panic {x : Except ε α} {p : Panic} :
    returned x ≠ .error (.panic p) := by
  cases x <;> simp [returned, fail]

/-- Rewrite the error, leaving values and panics alone. -/
def mapErr (f : ε → δ) : Outcome ε α → Outcome δ α
  | .ok a => .ok a
  | .error (.err e) => .error (.err (f e))
  | .error (.panic p) => .error (.panic p)

@[simp] theorem mapErr_ok (f : ε → δ) (a : α) :
    mapErr f (.ok a : Outcome ε α) = .ok a := rfl

@[simp] theorem mapErr_eq_ok {f : ε → δ} {x : Outcome ε α} {a : α} :
    mapErr f x = .ok a ↔ x = .ok a := by
  cases x with
  | ok b => simp
  | error e => cases e <;> simp [mapErr]

@[simp] theorem mapErr_eq_panic {f : ε → δ} {x : Outcome ε α} {p : Panic} :
    mapErr f x = .error (.panic p) ↔ x = .error (.panic p) := by
  cases x with
  | ok b => simp [mapErr]
  | error e => cases e <;> simp [mapErr]

@[simp] theorem okOr_eq_ok {o : Option α} {e : ε} {a : α} :
    okOr o e = .ok a ↔ o = some a := by
  cases o <;> simp [okOr, fail]

/-- A missing value is an error, never a panic. -/
@[simp] theorem okOr_ne_panic {o : Option α} {e : ε} {p : Panic} :
    okOr o e ≠ .error (.panic p) := by
  cases o <;> simp [okOr, fail]

@[simp] theorem ok_bind (a : α) (f : α → Outcome ε β) :
    ((.ok a : Outcome ε α) >>= f) = f a := rfl

@[simp] theorem error_bind (e : Fault ε) (f : α → Outcome ε β) :
    ((.error e : Outcome ε α) >>= f) = .error e := rfl

/-- A sequence of two calls returns exactly when both do. -/
theorem bind_eq_ok {x : Outcome ε α} {f : α → Outcome ε β} {b : β} :
    (x >>= f) = .ok b ↔ ∃ a, x = .ok a ∧ f a = .ok b := by
  cases x with
  | ok a => simp
  | error e => simp

/-- A sequence of two calls ends in a fault exactly when the first does, or the second does. -/
theorem bind_eq_error {x : Outcome ε α} {f : α → Outcome ε β} {e : Fault ε} :
    (x >>= f) = .error e ↔ x = .error e ∨ ∃ a, x = .ok a ∧ f a = .error e := by
  cases x with
  | ok a => simp
  | error e' => simp

/-- The call returns, a value or an error. -/
def Returns (x : Outcome ε α) : Prop := ∀ p, x ≠ .error (.panic p)

theorem returns_ok (a : α) : Returns (.ok a : Outcome ε α) := fun _ h => nomatch h

theorem returns_fail (e : ε) : Returns (fail e : Outcome ε α) := fun _ h => nomatch h

theorem returns_okOr {o : Option α} {e : ε} : Returns (okOr o e) := fun _ => okOr_ne_panic

theorem returns_returned {x : Except ε α} : Returns (returned x) := fun _ => returned_ne_panic

theorem Returns.mapErr {f : ε → δ} {x : Outcome ε α} (h : Returns x) :
    Returns (Outcome.mapErr f x) := fun p hp => h p (mapErr_eq_panic.mp hp)

/-- **A sequence of two calls returns if both do.** -/
theorem Returns.bind {x : Outcome ε α} {f : α → Outcome ε β} (hx : Returns x)
    (hf : ∀ a, x = .ok a → Returns (f a)) : Returns (x >>= f) := by
  intro p hp
  rcases bind_eq_error.mp hp with hp | ⟨a, ha, hp⟩
  · exact hx p hp
  · exact hf a ha p hp

/-- What returns, but no value, returns an error. -/
theorem Returns.error {x : Outcome ε α} {e : Fault ε} (h : Returns x) (hx : x = .error e) :
    ∃ e', e = .err e' := by
  cases e with
  | err e' => exact ⟨e', rfl⟩
  | panic p => exact absurd hx (h p)

/-- The call panics for these reasons only. -/
def PanicsOnly (cause : Panic → Prop) (x : Outcome ε α) : Prop :=
  ∀ p, x = .error (.panic p) → cause p

section PanicsOnly

variable {cause : Panic → Prop} {x : Outcome ε α}

theorem Returns.panicsOnly (h : Returns x) : PanicsOnly cause x := by
  intro p hp
  exact absurd hp (h p)

theorem PanicsOnly.mapErr {f : ε → δ} (h : PanicsOnly cause x) :
    PanicsOnly cause (Outcome.mapErr f x) := fun p hp => h p (mapErr_eq_panic.mp hp)

/-- **A sequence of two calls panics for the reasons they do.** -/
theorem PanicsOnly.bind {f : α → Outcome ε β} (hx : PanicsOnly cause x)
    (hf : ∀ a, x = .ok a → PanicsOnly cause (f a)) : PanicsOnly cause (x >>= f) := by
  intro p hp
  rcases bind_eq_error.mp hp with hp | ⟨a, ha, hp⟩
  · exact hx p hp
  · exact hf a ha p hp

theorem PanicsOnly.imp {cause' : Panic → Prop} (h : PanicsOnly cause x)
    (himp : ∀ p, cause p → cause' p) : PanicsOnly cause' x := fun p hp => himp p (h p hp)

/-- What panics for no reason returns. -/
theorem PanicsOnly.returns (h : PanicsOnly cause x) (hnone : ∀ p, ¬ cause p) : Returns x :=
  fun p hp => hnone p (h p hp)

end PanicsOnly

end Outcome

/-! ## Computations -/

/-- Computations that end in an outcome. -/
class Computes (m : Type → Type → Type) [∀ ε, Monad (m ε)] where
  /-- A call with no more to it than its outcome. -/
  lift {ε α : Type} : Outcome ε α → m ε α
  /-- `map_err`. -/
  mapErr {ε δ α : Type} : (ε → δ) → m ε α → m δ α

instance : Computes Outcome where
  lift x := x
  mapErr := Outcome.mapErr

@[simp] theorem pure_outcome (a : α) : (pure a : Outcome ε α) = .ok a := rfl

@[simp] theorem lift_outcome (x : Outcome ε α) : (Computes.lift x : Outcome ε α) = x := rfl

@[simp] theorem mapErr_outcome (f : ε → δ) (x : Outcome ε α) :
    (Computes.mapErr f x : Outcome δ α) = Outcome.mapErr f x := rfl

open Outcome

/-! ## Checked arithmetic -/

/-- `a + b` in a `w`-bit unsigned word. -/
def add (w a b : Nat) : Outcome ε Nat :=
  if a + b < 2 ^ w then .ok (a + b) else abort .overflow

/-- `a * b` in a `w`-bit unsigned word. -/
def mul (w a b : Nat) : Outcome ε Nat :=
  if a * b < 2 ^ w then .ok (a * b) else abort .overflow

/-- `a - b` in an unsigned word of any width. -/
def sub (a b : Nat) : Outcome ε Nat :=
  if b ≤ a then .ok (a - b) else abort .overflow

/-- `a.saturating_add(b)` in a `w`-bit unsigned word. -/
def satAdd (w a b : Nat) : Nat := min (a + b) (2 ^ w - 1)

/-- `a + b` in a `w`-bit two's complement word. -/
def addSigned (w : Nat) (a b : Int) : Outcome ε Int :=
  if -2 ^ (w - 1) ≤ a + b ∧ a + b < 2 ^ (w - 1) then .ok (a + b) else abort .overflow

/-- Reinterpret a `w`-bit unsigned word as a signed one. -/
def toSigned (w n : Nat) : Int :=
  if n < 2 ^ (w - 1) then n else n - 2 ^ w

/-- Reinterpret a signed integer as a `w`-bit unsigned word. -/
def toUnsigned (w : Nat) (z : Int) : Nat :=
  if 0 ≤ z then z.toNat else (2 ^ w + z).toNat

theorem add_of_lt {w a b : Nat} (h : a + b < 2 ^ w) :
    (add w a b : Outcome ε Nat) = .ok (a + b) := if_pos h

theorem mul_of_lt {w a b : Nat} (h : a * b < 2 ^ w) :
    (mul w a b : Outcome ε Nat) = .ok (a * b) := if_pos h

theorem sub_of_le {a b : Nat} (h : b ≤ a) :
    (sub a b : Outcome ε Nat) = .ok (a - b) := if_pos h

theorem addSigned_of_bounds {w : Nat} {a b : Int} (hlo : -2 ^ (w - 1) ≤ a + b)
    (hhi : a + b < 2 ^ (w - 1)) : (addSigned w a b : Outcome ε Int) = .ok (a + b) :=
  if_pos ⟨hlo, hhi⟩

theorem toSigned_of_lt {w n : Nat} (h : n < 2 ^ (w - 1)) : toSigned w n = n := if_pos h

@[simp] theorem toUnsigned_natCast (w n : Nat) : toUnsigned w n = n := by
  simp [toUnsigned]

@[simp] theorem add_eq_ok {w a b n : Nat} :
    (add w a b : Outcome ε Nat) = .ok n ↔ a + b < 2 ^ w ∧ a + b = n := by
  by_cases h : a + b < 2 ^ w <;> simp [add, abort, h]

@[simp] theorem mul_eq_ok {w a b n : Nat} :
    (mul w a b : Outcome ε Nat) = .ok n ↔ a * b < 2 ^ w ∧ a * b = n := by
  by_cases h : a * b < 2 ^ w <;> simp [mul, abort, h]

@[simp] theorem sub_eq_ok {a b n : Nat} :
    (sub a b : Outcome ε Nat) = .ok n ↔ b ≤ a ∧ a - b = n := by
  by_cases h : b ≤ a <;> simp [sub, abort, h]

/-! ## Checked buffers -/

/-- `l[i]`. -/
def index (l : List α) (i : Nat) : Outcome ε α :=
  match l[i]? with
  | some a => .ok a
  | none => abort .indexOutOfBounds

/-- `l[i] = a`. -/
def store (l : List α) (i : Nat) (a : α) : Outcome ε (List α) :=
  if i < l.length then .ok (l.set i a) else abort .indexOutOfBounds

@[simp] theorem index_eq_ok {l : List α} {i : Nat} {a : α} :
    (index l i : Outcome ε α) = .ok a ↔ l[i]? = some a := by
  unfold index
  split <;> simp_all [abort]

theorem index_of_lt {l : List α} {i : Nat} (h : i < l.length) :
    (index l i : Outcome ε α) = .ok l[i] :=
  index_eq_ok.mpr (List.getElem?_eq_getElem h)

theorem store_of_lt {l : List α} {i : Nat} {a : α} (h : i < l.length) :
    (store l i a : Outcome ε (List α)) = .ok (l.set i a) := if_pos h

theorem store_length {l l' : List α} {i : Nat} {a : α}
    (h : (store l i a : Outcome ε (List α)) = .ok l') : l'.length = l.length := by
  unfold store at h
  split at h
  · cases h; simp
  · cases h

/-- `&l[start..stop]`. -/
def slice (l : List α) (start stop : Nat) : Outcome ε (List α) :=
  if start ≤ stop ∧ stop ≤ l.length then .ok ((l.drop start).take (stop - start))
  else abort .indexOutOfBounds

/-- `l[start..stop].copy_from_slice(src)`. -/
def storeSlice (l : List α) (start stop : Nat) (src : List α) : Outcome ε (List α) :=
  if start ≤ stop ∧ stop ≤ l.length ∧ src.length = stop - start then
    .ok (l.take start ++ src ++ l.drop stop)
  else
    abort .indexOutOfBounds

theorem slice_eq_ok {l l' : List α} {start stop : Nat} :
    (slice l start stop : Outcome ε (List α)) = .ok l' ↔
      (start ≤ stop ∧ stop ≤ l.length) ∧ (l.drop start).take (stop - start) = l' := by
  by_cases h : start ≤ stop ∧ stop ≤ l.length <;> simp [slice, abort, h]

theorem slice_of_le {l : List α} {n : Nat} (h : n ≤ l.length) :
    (slice l 0 n : Outcome ε (List α)) = .ok (l.take n) := by
  rw [slice, if_pos ⟨Nat.zero_le n, h⟩, List.drop_zero, Nat.sub_zero]

theorem storeSlice_of_le {l src : List α} {start stop : Nat} (hle : start ≤ stop)
    (hstop : stop ≤ l.length) (hlen : src.length = stop - start) :
    (storeSlice l start stop src : Outcome ε (List α))
      = .ok (l.take start ++ src ++ l.drop stop) := if_pos ⟨hle, hstop, hlen⟩

theorem storeSlice_eq_ok {l l' src : List α} {start stop : Nat} :
    (storeSlice l start stop src : Outcome ε (List α)) = .ok l' ↔
      (start ≤ stop ∧ stop ≤ l.length ∧ src.length = stop - start)
        ∧ l.take start ++ src ++ l.drop stop = l' := by
  by_cases h : start ≤ stop ∧ stop ≤ l.length ∧ src.length = stop - start <;>
    simp [storeSlice, abort, h]

theorem storeSlice_length {l l' src : List α} {start stop : Nat}
    (h : (storeSlice l start stop src : Outcome ε (List α)) = .ok l') :
    l'.length = l.length := by
  obtain ⟨hfits, rfl⟩ := storeSlice_eq_ok.mp h
  simp only [List.length_append, List.length_take, List.length_drop]
  omega

/-- **A copied slice, entry by entry**: the source's inside, the old ones outside. -/
theorem storeSlice_getElem? {l l' src : List α} {start stop : Nat}
    (h : (storeSlice l start stop src : Outcome ε (List α)) = .ok l') (j : Nat) :
    l'[j]? = if start ≤ j ∧ j < stop then src[j - start]? else l[j]? := by
  obtain ⟨⟨hle, hstop, hlen⟩, rfl⟩ := storeSlice_eq_ok.mp h
  have htake : (l.take start).length = start := by
    rw [List.length_take]
    omega
  by_cases hlo : start ≤ j
  · by_cases hhi : j < stop
    · rw [if_pos ⟨hlo, hhi⟩, List.append_assoc, List.getElem?_append_right (by omega), htake,
        List.getElem?_append_left (by omega)]
    · rw [if_neg (by omega), List.getElem?_append_right (by rw [List.length_append]; omega),
        List.length_append, htake, hlen, List.getElem?_drop]
      congr 1
      omega
  · rw [if_neg (by omega), List.append_assoc, List.getElem?_append_left (by omega),
      List.getElem?_take_of_lt (by omega)]

/-! ## Loops -/

/--
**A loop whose body never fails is a fold.**

`Inv` is what the body needs of the state it starts from, and leaves behind.
-/
theorem foldlM_eq_ok (Inv : β → Prop) {f : β → α → Outcome ε β} {g : β → α → β}
    {l : List α} {b : β} (hb : Inv b)
    (h : ∀ b, Inv b → ∀ a ∈ l, f b a = .ok (g b a) ∧ Inv (g b a)) :
    l.foldlM f b = .ok (l.foldl g b) ∧ Inv (l.foldl g b) := by
  induction l generalizing b with
  | nil => exact ⟨rfl, hb⟩
  | cons a l ih =>
    -- the first round keeps the invariant, so the rest of the loop starts with it
    obtain ⟨hok, hinv⟩ := h b hb a List.mem_cons_self
    rw [List.foldlM_cons, hok]
    exact ih hinv fun b hb a ha => h b hb a (List.mem_cons_of_mem _ ha)

/-- A loop of loops is one loop. -/
theorem foldlM_flatMap {γ : Type} {f : β → γ → Outcome ε β} {g : α → List γ} {l : List α} {b : β} :
    (l.flatMap g).foldlM f b = l.foldlM (fun b a => (g a).foldlM f b) b := by
  induction l generalizing b with
  | nil => rfl
  | cons a l ih => simp only [List.flatMap_cons, List.foldlM_append, List.foldlM_cons, ih]

/--
**A counting loop returns the count, if it fits the counter**, and overflows otherwise.
-/
theorem foldlM_count {w : Nat} {p : α → Bool} {f : Int → α → Outcome ε Int} {l : List α}
    (h : ∀ n, ∀ a ∈ l, f n a = if p a then addSigned w n 1 else .ok n) {k : Nat}
    (hk : (k : Int) < 2 ^ (w - 1)) :
    l.foldlM f k = if ((k + l.countP p : Nat) : Int) < 2 ^ (w - 1)
      then .ok ((k + l.countP p : Nat) : Int) else abort .overflow := by
  induction l generalizing k with
  | nil =>
    rw [List.countP_nil, Nat.add_zero, if_pos hk]
    rfl
  | cons a l ih =>
    have hl : ∀ n, ∀ a ∈ l, f n a = if p a then addSigned w n 1 else .ok n :=
      fun n a ha => h n a (List.mem_cons_of_mem _ ha)
    rw [List.foldlM_cons, h _ a List.mem_cons_self]
    by_cases hp : p a
    · rw [if_pos hp, List.countP_cons_of_pos hp]
      have hpos : (0 : Int) < 2 ^ (w - 1) := Int.pow_pos (by omega)
      by_cases hk1 : ((k + 1 : Nat) : Int) < 2 ^ (w - 1)
      · -- there is room for one more, and the loop goes on from there
        rw [addSigned_of_bounds (by omega) (by omega), ok_bind]
        have hrest := ih hl hk1
        rw [show k + 1 + l.countP p = k + (l.countP p + 1) by omega] at hrest
        exact hrest
      · rw [addSigned, if_neg (by omega), if_neg (by omega)]
        rfl
    · rw [if_neg hp, ok_bind, List.countP_cons_of_neg hp]
      exact ih hl hk

/-- What every step of a loop keeps, the whole loop keeps. -/
theorem foldlM_preserves (Inv : β → Prop) {f : β → α → Outcome ε β}
    (h : ∀ b a b', f b a = .ok b' → Inv b → Inv b') :
    ∀ {l : List α} {b b' : β}, l.foldlM f b = .ok b' → Inv b → Inv b'
  | [], _, _, hl, hb => by
      cases hl
      exact hb
  | a :: l, _, _, hl, hb => by
      rw [List.foldlM_cons, bind_eq_ok] at hl
      obtain ⟨b₁, h₁, h₂⟩ := hl
      exact foldlM_preserves Inv h h₂ (h _ _ _ h₁ hb)

/--
A loop over numbered elements that returns has, of each element, what its step
needs of it.
-/
theorem foldlM_zipIdx_mem {P : α → Prop} {f : β → α × Nat → Outcome ε β}
    (h : ∀ b a k b', f b (a, k) = .ok b' → P a) :
    ∀ {l : List α} {k : Nat} {b b' : β}, (l.zipIdx k).foldlM f b = .ok b' → ∀ a ∈ l, P a
  | [], _, _, _, _, _, ha => by cases ha
  | x :: l, k, b, b', hl, a, ha => by
      rw [List.zipIdx_cons, List.foldlM_cons, bind_eq_ok] at hl
      obtain ⟨b₁, h₁, h₂⟩ := hl
      rcases List.mem_cons.mp ha with rfl | ha
      · exact h _ _ _ _ h₁
      · exact foldlM_zipIdx_mem h h₂ a ha

end Checked
