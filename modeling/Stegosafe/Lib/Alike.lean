import Stegosafe.Lib.Checked

/-!
# Two runs side by side

Rules for comparing two runs of one program on different data. `Alike R x y` says that the
two calls end in the same way: in the same fault, or both with a value, and then the values
are related by `R`. A program is compared call by call (`Alike.bind`), so what the two runs
may tell an observer apart by is what the relation at the end leaves open.
-/

namespace Checked

open Outcome

/-- Both calls end in one fault, or both return and `R` relates the values. -/
inductive Alike {ε α β : Type} (R : α → β → Prop) : Outcome ε α → Outcome ε β → Prop where
  | fault (e : Fault ε) : Alike R (.error e) (.error e)
  | value {a : α} {b : β} : R a b → Alike R (.ok a) (.ok b)

namespace Alike

variable {ε δ α β γ κ : Type} {R : α → β → Prop} {S : γ → κ → Prop} {x : Outcome ε α}
  {y : Outcome ε β}

/-- A call that both runs make. -/
theorem refl (x : Outcome ε α) : Alike Eq x x := by
  cases x with
  | ok a => exact .value rfl
  | error e => exact .fault e

/-- **One call after another.** -/
theorem bind {f : α → Outcome ε γ} {g : β → Outcome ε κ} (h : Alike R x y)
    (hnext : ∀ a b, R a b → Alike S (f a) (g b)) : Alike S (x >>= f) (y >>= g) := by
  cases h with
  | fault e => exact .fault e
  | value hab => exact hnext _ _ hab

/-- After a call that both runs make. -/
theorem after {f : α → Outcome ε γ} {g : α → Outcome ε κ} (x : Outcome ε α)
    (hnext : ∀ a, x = .ok a → Alike S (f a) (g a)) : Alike S (x >>= f) (x >>= g) := by
  cases x with
  | ok a => exact hnext a rfl
  | error e => exact .fault e

/-- What the values are known to be may be used for what they are related by. -/
theorem imp {S : α → β → Prop} (h : Alike R x y)
    (himp : ∀ a b, x = .ok a → y = .ok b → R a b → S a b) : Alike S x y := by
  cases h with
  | fault e => exact .fault e
  | value hab => exact .value (himp _ _ rfl rfl hab)

/-- If the first run returns, so does the second. -/
theorem of_ok {a : α} (h : Alike R x y) (hx : x = .ok a) : ∃ b, y = .ok b ∧ R a b := by
  subst hx
  cases h with
  | value hab => exact ⟨_, rfl, hab⟩

theorem mapErr {f : ε → δ} (h : Alike R x y) :
    Alike R (Outcome.mapErr f x) (Outcome.mapErr f y) := by
  cases h with
  | fault e =>
    cases e with
    | err e => exact .fault _
    | panic p => exact .fault _
  | value hab => exact .value hab

theorem okOr {o : Option α} {o' : Option β} (h : Option.Rel R o o') (e : ε) :
    Alike R (Outcome.okOr o e) (Outcome.okOr o' e) := by
  cases h with
  | none => exact .fault _
  | some hab => exact .value hab

end Alike

end Checked
