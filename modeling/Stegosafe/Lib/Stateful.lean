import Stegosafe.Lib.Checked

/-!
# Calls that leave a state behind

A call on a shared state ends in an outcome and leaves a state behind, also when it
fails: what was done before the failure stays done. Calls that do not look at the state
are lifted, and what a sequence of calls returns is computed call by call (`bind_fst`).

`Ends` is a triple with two postconditions, one for the states calls that return leave
behind, one for those that fail.
-/

namespace Checked

/-- A call on a state. -/
def Stateful (σ ε α : Type) := σ → Outcome ε α × σ

namespace Stateful

variable {σ ε δ α β : Type}

/-- Make the call. -/
def run (x : Stateful σ ε α) (s : σ) : Outcome ε α × σ := x s

instance : Monad (Stateful σ ε) where
  pure a := fun s => (.ok a, s)
  bind x f := fun s =>
    match x.run s with
    | (.ok a, s) => (f a).run s
    | (.error e, s) => (.error e, s)

/-- A call that does not touch the state. -/
def lift (x : Outcome ε α) : Stateful σ ε α := fun s => (x, s)

/-- `map_err`. -/
def mapErr (f : ε → δ) (x : Stateful σ ε α) : Stateful σ δ α := fun s =>
  (Outcome.mapErr f (x.run s).1, (x.run s).2)

instance : Computes (Stateful σ) where
  lift := lift
  mapErr := mapErr

section Run

variable {x : Stateful σ ε α} {f : α → Stateful σ ε β} {s s' : σ}

@[simp] theorem run_pure (a : α) (s : σ) : (pure a : Stateful σ ε α).run s = (.ok a, s) := rfl

@[simp] theorem run_lift (y : Outcome ε α) (s : σ) :
    (lift y : Stateful σ ε α).run s = (y, s) := rfl

@[simp] theorem run_mapErr (f : ε → δ) (x : Stateful σ ε α) (s : σ) :
    (x.mapErr f).run s = (Outcome.mapErr f (x.run s).1, (x.run s).2) := rfl

theorem run_bind (x : Stateful σ ε α) (f : α → Stateful σ ε β) (s : σ) :
    (x >>= f).run s = match x.run s with
      | (.ok a, s) => (f a).run s
      | (.error e, s) => (.error e, s) := rfl

theorem bind_ok {a : α} (h : x.run s = (.ok a, s')) : (x >>= f).run s = (f a).run s' := by
  rw [run_bind, h]

theorem bind_error {e : Fault ε} (h : x.run s = (.error e, s')) :
    (x >>= f).run s = (.error e, s') := by
  rw [run_bind, h]

/-- What a sequence returns, from what its parts return. -/
theorem bind_fst {y : Outcome ε α} {g : α → Outcome ε β} (hx : (x.run s).1 = y)
    (hf : ∀ a, y = .ok a → ((f a).run (x.run s).2).1 = g a) :
    ((x >>= f).run s).1 = y >>= g := by
  rcases hresult : x.run s with ⟨result, s'⟩
  rw [hresult] at hx hf
  subst hx
  cases result with
  | ok a =>
    rw [bind_ok hresult]
    exact hf a rfl
  | error e =>
    rw [bind_error hresult]
    rfl

/-- A last part that leaves the state alone. -/
theorem bind_snd (hf : ∀ a s, ((f a).run s).2 = s) : ((x >>= f).run s).2 = (x.run s).2 := by
  rcases hresult : x.run s with ⟨result, s'⟩
  cases result with
  | ok a =>
    rw [bind_ok hresult]
    exact hf a s'
  | error e => rw [bind_error hresult]

end Run

/-! ## Triples -/

/-- Where the call ends: in `good` if it returns, in `bad` if not. -/
def Ends (x : Stateful σ ε α) (s : σ) (good : α → σ → Prop) (bad : σ → Prop) : Prop :=
  match x.run s with
  | (.ok a, s') => good a s'
  | (.error _, s') => bad s'

section Ends

variable {x : Stateful σ ε α} {f : α → Stateful σ ε β} {s : σ} {good : α → σ → Prop}
  {bad : σ → Prop}

theorem ends_pure {a : α} (h : good a s) : (pure a : Stateful σ ε α).Ends s good bad := h

theorem ends_lift {y : Outcome ε α} (hgood : ∀ a, good a s) (hbad : bad s) :
    (lift y : Stateful σ ε α).Ends s good bad := by
  cases y with
  | ok a => exact hgood a
  | error e => exact hbad

theorem Ends.mapErr {g : ε → δ} (h : x.Ends s good bad) : (x.mapErr g).Ends s good bad := by
  unfold Ends at h ⊢
  rw [run_mapErr]
  rcases hresult : x.run s with ⟨result, s'⟩
  rw [hresult] at h
  cases result with
  | ok a => exact h
  | error e =>
    cases e with
    | err e => exact h
    | panic p => exact h

theorem Ends.bind {good' : β → σ → Prop} (hx : x.Ends s good bad)
    (hf : ∀ a s', good a s' → (f a).Ends s' good' bad) : (x >>= f).Ends s good' bad := by
  unfold Ends at hx ⊢
  rcases hresult : x.run s with ⟨result, s'⟩
  rw [hresult] at hx
  cases result with
  | ok a =>
    rw [bind_ok hresult]
    exact hf a s' hx
  | error e =>
    rw [bind_error hresult]
    exact hx

/-- A call that returns ends in `good`. -/
theorem Ends.of_ok (h : x.Ends s good bad) {a : α} (hx : (x.run s).1 = .ok a) :
    good a (x.run s).2 := by
  unfold Ends at h
  rcases hresult : x.run s with ⟨result, s'⟩
  rw [hresult] at h hx
  dsimp only at hx
  subst hx
  exact h

/-- A weaker end for failures. -/
theorem Ends.weaken {bad' : σ → Prop} (h : x.Ends s good bad) (himp : ∀ s', bad s' → bad' s') :
    x.Ends s good bad' := by
  unfold Ends at h ⊢
  rcases hresult : x.run s with ⟨result, s'⟩
  rw [hresult] at h
  cases result with
  | ok a => exact h
  | error e => exact himp s' h

end Ends

end Stateful

end Checked
