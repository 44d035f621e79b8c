import Mathlib.Logic.Function.Basic
import Mathlib.Data.List.Basic

/-!
# Atomic objects

An object with a sequential meaning, used by many threads: a thread makes a call, the
call takes effect at one moment, and later it returns. What the outside sees is the
history of calls and returns; the effects are hidden. A program whose histories are
histories of this object is linearizable: `Explains` is what that means, an order of
the operations in which the object used by one thread gives the same results, that
agrees with the order each thread made its calls in and with real time.

A program refines the object by naming the step of each call that takes effect.
-/

namespace Atomic

variable {T Op R S : Type}

/-- What the outside sees. -/
inductive Event (T Op R : Type) where
  | call (t : T) (op : Op)
  | ret (t : T) (r : R)

/-- An operation that took effect, and what it returns. -/
structure Effect (T Op R : Type) where
  thread : T
  op : Op
  result : R

/-- Where a thread is in its call. -/
inductive Stage (Op R : Type) where
  | idle
  | called (op : Op)
  | done (r : R)

/-- The object and its threads. -/
structure Object (T Op R S : Type) where
  state : S
  stage : T → Stage Op R
  order : List (Effect T Op R)

/-- Operations one after another. -/
def sequentially (perform : S → Op → R × S) (s : S) : List Op → List R × S
  | [] => ([], s)
  | op :: ops =>
    let now := perform s op
    let rest := sequentially perform now.2 ops
    (now.1 :: rest.1, rest.2)

theorem sequentially_concat (perform : S → Op → R × S) (s : S) (ops : List Op) (op : Op) :
    sequentially perform s (ops ++ [op])
      = ((sequentially perform s ops).1 ++ [(perform (sequentially perform s ops).2 op).1],
          (perform (sequentially perform s ops).2 op).2) := by
  induction ops generalizing s with
  | nil => rfl
  | cons first ops ih =>
    rw [List.cons_append, sequentially, sequentially]
    dsimp only
    rw [ih, List.cons_append]

/-- The runs of the object on a state, each with its history. -/
inductive Run [DecidableEq T] (perform : S → Op → R × S) (s : S) :
    List (Event T Op R) → Object T Op R S → Prop where
  | start : Run perform s [] ⟨s, fun _ => .idle, []⟩
  | call {h : List (Event T Op R)} {a : Object T Op R S} (t : T) (op : Op) :
      Run perform s h a → a.stage t = .idle →
      Run perform s (h ++ [.call t op])
        { a with stage := Function.update a.stage t (.called op) }
  | effect {h : List (Event T Op R)} {a : Object T Op R S} (t : T) {op : Op} :
      Run perform s h a → a.stage t = .called op →
      Run perform s h
        { state := (perform a.state op).2
          stage := Function.update a.stage t (.done (perform a.state op).1)
          order := a.order ++ [⟨t, op, (perform a.state op).1⟩] }
  | ret {h : List (Event T Op R)} {a : Object T Op R S} (t : T) {r : R} :
      Run perform s h a → a.stage t = .done r →
      Run perform s (h ++ [.ret t r]) { a with stage := Function.update a.stage t .idle }

namespace Event

def thread : Event T Op R → T
  | call t _ => t
  | ret t _ => t

def isCall : Event T Op R → Bool
  | call _ _ => true
  | ret _ _ => false

def isRet : Event T Op R → Bool
  | call _ _ => false
  | ret _ _ => true

end Event

/-- A call and its return. -/
def Effect.events (e : Effect T Op R) : List (Event T Op R) :=
  [.call e.thread e.op, .ret e.thread e.result]

section Threads

variable [DecidableEq T]

/-- The events of one thread. -/
def eventsOf (t : T) (h : List (Event T Op R)) : List (Event T Op R) :=
  h.filter fun e => e.thread = t

/-- The operations of one thread. -/
def effectsOf (t : T) (order : List (Effect T Op R)) : List (Effect T Op R) :=
  order.filter fun e => e.thread = t

/-- How often a thread called. -/
def calls (t : T) (h : List (Event T Op R)) : Nat := (eventsOf t h).countP Event.isCall

/-- How often it returned. -/
def returns (t : T) (h : List (Event T Op R)) : Nat := (eventsOf t h).countP Event.isRet

/--
**An order of operations explains a history.**

Used by one thread in this order, the object returns the same results and is left in the
same state. The operations of each thread are its calls in its own order, each with the
result it returned; at most the last call has not returned yet, and may or may not have
taken effect. At every moment there is a point in the order with all operations that
have returned before it, and all that were not called yet after it.
-/
structure Explains (perform : S → Op → R × S) (s : S) (h : List (Event T Op R))
    (order : List (Effect T Op R)) (s' : S) : Prop where
  sequential : sequentially perform s (order.map Effect.op) = (order.map Effect.result, s')
  threads : ∀ t, eventsOf t h = (effectsOf t order).flatMap Effect.events
    ∨ (∃ op, eventsOf t h = (effectsOf t order).flatMap Effect.events ++ [.call t op])
    ∨ ∃ r, eventsOf t h ++ [.ret t r] = (effectsOf t order).flatMap Effect.events
  realTime : ∀ n, ∃ k, ∀ t, returns t (h.take n) ≤ (effectsOf t (order.take k)).length
    ∧ (effectsOf t (order.take k)).length ≤ calls t (h.take n)

/-! ## One thread -/

/-- The events of a thread, by its stage. -/
def Traced (h : List (Event T Op R)) (order : List (Effect T Op R)) (t : T) :
    Stage Op R → Prop
  | .idle => eventsOf t h = (effectsOf t order).flatMap Effect.events
  | .called op => eventsOf t h = (effectsOf t order).flatMap Effect.events ++ [.call t op]
  | .done r => eventsOf t h ++ [.ret t r] = (effectsOf t order).flatMap Effect.events

theorem eventsOf_append (t : T) (h h' : List (Event T Op R)) :
    eventsOf t (h ++ h') = eventsOf t h ++ eventsOf t h' := List.filter_append ..

theorem eventsOf_call (t : T) (op : Op) :
    eventsOf t [.call t op] = ([.call t op] : List (Event T Op R)) :=
  List.filter_cons_of_pos (decide_eq_true rfl)

theorem eventsOf_ret (t : T) (r : R) :
    eventsOf t [.ret t r] = ([.ret t r] : List (Event T Op R)) :=
  List.filter_cons_of_pos (decide_eq_true rfl)

theorem eventsOf_other {t : T} {e : Event T Op R} (he : e.thread ≠ t) : eventsOf t [e] = [] :=
  List.filter_cons_of_neg (by simpa using he)

theorem effectsOf_append (t : T) (order order' : List (Effect T Op R)) :
    effectsOf t (order ++ order') = effectsOf t order ++ effectsOf t order' :=
  List.filter_append ..

theorem effectsOf_mk (t : T) (op : Op) (r : R) :
    effectsOf t [⟨t, op, r⟩] = [⟨t, op, r⟩] := List.filter_cons_of_pos (decide_eq_true rfl)

theorem effectsOf_other {t : T} {e : Effect T Op R} (he : e.thread ≠ t) : effectsOf t [e] = [] :=
  List.filter_cons_of_neg (by simpa using he)

omit [DecidableEq T] in
/-- Complete operations are called and returned once each. -/
theorem countP_events (es : List (Effect T Op R)) :
    (es.flatMap Effect.events).countP Event.isCall = es.length
      ∧ (es.flatMap Effect.events).countP Event.isRet = es.length := by
  induction es with
  | nil => exact ⟨rfl, rfl⟩
  | cons e es ih =>
    obtain ⟨hcalls, hrets⟩ := ih
    rw [List.flatMap_cons, List.countP_append, List.countP_append, hcalls, hrets,
      List.length_cons, Nat.add_comm es.length]
    exact ⟨rfl, rfl⟩

/-- A thread has taken effect as often as it returned, or once more for its last call. -/
theorem Traced.counts {h : List (Event T Op R)} {order : List (Effect T Op R)} {t : T}
    {stage : Stage Op R} (htraced : Traced h order t stage) :
    returns t h ≤ (effectsOf t order).length ∧ (effectsOf t order).length ≤ calls t h := by
  obtain ⟨hcalls, hrets⟩ := countP_events (effectsOf t order)
  unfold returns calls
  cases stage with
  | idle =>
    rw [show eventsOf t h = _ from htraced, hcalls, hrets]
    exact ⟨Nat.le_refl _, Nat.le_refl _⟩
  | called op =>
    rw [show eventsOf t h = _ from htraced, List.countP_append, List.countP_append, hcalls, hrets]
    exact ⟨Nat.le_refl _, Nat.le_add_right ..⟩
  | done r =>
    -- the return is still missing
    rw [← show eventsOf t h ++ _ = _ from htraced, List.countP_append] at hcalls hrets
    rw [← hrets]
    exact ⟨Nat.le_add_right .., by rw [hrets, ← hcalls]; exact Nat.le_refl _⟩

end Threads

/-! ## Whole runs -/

section Runs

variable [DecidableEq T] {perform : S → Op → R × S} {s : S} {h : List (Event T Op R)}
  {a : Object T Op R S}

/-- A call may return at the moment it takes effect. -/
theorem Run.effect_ret (hrun : Run perform s h a) {t : T} {op : Op}
    (hcalled : a.stage t = .called op) :
    Run perform s (h ++ [.ret t (perform a.state op).1])
      { state := (perform a.state op).2
        stage := Function.update a.stage t .idle
        order := a.order ++ [⟨t, op, (perform a.state op).1⟩] } := by
  have hret := (hrun.effect t hcalled).ret t (Function.update_self ..)
  dsimp only at hret
  rwa [Function.update_idem] at hret

/-- Used by one thread, the object comes to the same. -/
theorem Run.sequential (hrun : Run perform s h a) :
    sequentially perform s (a.order.map Effect.op) = (a.order.map Effect.result, a.state) := by
  induction hrun with
  | start => rfl
  | call t op _ _ ih => exact ih
  | effect t _ _ ih =>
    rw [List.map_append, List.map_singleton, sequentially_concat, ih, List.map_append,
      List.map_singleton]
  | ret t _ _ ih => exact ih

/-- A thread other than the one that moved is where it was. -/
theorem traced_other {order order' : List (Effect T Op R)} {h' : List (Event T Op R)}
    {stage : T → Stage Op R} {t u : T} {next : Stage Op R} (hu : u ≠ t)
    (hevents : eventsOf u h' = eventsOf u h) (heffects : effectsOf u order' = effectsOf u order)
    (hold : Traced h order u (stage u)) : Traced h' order' u (Function.update stage t next u) := by
  rw [Function.update_of_ne hu]
  cases hstage : stage u with
  | _ =>
    rw [hstage] at hold
    simpa only [Traced, hevents, heffects] using hold

theorem Run.traced (hrun : Run perform s h a) (u : T) : Traced h a.order u (a.stage u) := by
  induction hrun with
  | start => rfl
  | @call h a t op _ hidle ih =>
    by_cases hu : u = t
    · subst hu
      rw [hidle] at ih
      dsimp only
      rw [Function.update_self, Traced, eventsOf_append, eventsOf_call]
      exact congrArg (· ++ _) ih
    · refine traced_other hu ?_ rfl ih
      rw [eventsOf_append, eventsOf_other (Ne.symm hu), List.append_nil]
  | @effect h a t op _ hcalled ih =>
    by_cases hu : u = t
    · subst hu
      rw [hcalled] at ih
      dsimp only
      rw [Function.update_self, Traced, effectsOf_append, effectsOf_mk, List.flatMap_append,
        show eventsOf u h = _ from ih, List.append_assoc]
      rfl
    · refine traced_other hu rfl ?_ ih
      rw [effectsOf_append, effectsOf_other (Ne.symm hu), List.append_nil]
  | @ret h a t r _ hdone ih =>
    by_cases hu : u = t
    · subst hu
      rw [hdone] at ih
      dsimp only
      rw [Function.update_self, Traced, eventsOf_append, eventsOf_ret]
      exact ih
    · refine traced_other hu ?_ rfl ih
      rw [eventsOf_append, eventsOf_other (Ne.symm hu), List.append_nil]

/-- A moment of the history and the point in the order that belongs to it. -/
def Cut (h : List (Event T Op R)) (order : List (Effect T Op R)) (n k : Nat) : Prop :=
  k ≤ order.length ∧ ∀ t, returns t (h.take n) ≤ (effectsOf t (order.take k)).length
    ∧ (effectsOf t (order.take k)).length ≤ calls t (h.take n)

/-- The last moment is explained by the whole order. -/
theorem Run.cut_last (hrun : Run perform s h a) {n : Nat} (hn : h.length ≤ n) :
    Cut h a.order n a.order.length := by
  refine ⟨Nat.le_refl _, fun t => ?_⟩
  rw [List.take_of_length_le hn, List.take_length]
  exact (hrun.traced t).counts

/-- Earlier moments stay explained as the history goes on. -/
theorem cut_event {order : List (Effect T Op R)} {e : Event T Op R} {n k : Nat}
    (hn : n ≤ h.length) (hcut : Cut h order n k) : Cut (h ++ [e]) order n k := by
  rw [Cut, List.take_append_of_le_length hn]
  exact hcut

theorem Run.cut (hrun : Run perform s h a) (n : Nat) : ∃ k, Cut h a.order n k := by
  induction hrun with
  | start =>
    refine ⟨0, Nat.le_refl 0, fun t => ?_⟩
    rw [List.take_nil]
    exact ⟨Nat.le_refl 0, Nat.le_refl 0⟩
  | @call h a t op hrun hidle ih =>
    rcases Nat.lt_or_ge h.length n with hlt | hge
    · refine ⟨_, (hrun.call t op hidle).cut_last ?_⟩
      rw [List.length_append]
      exact hlt
    · obtain ⟨k, hcut⟩ := ih
      exact ⟨k, cut_event hge hcut⟩
  | @effect h a t op hrun hcalled ih =>
    obtain ⟨k, hk, hcut⟩ := ih
    refine ⟨k, ?_, ?_⟩
    · rw [List.length_append]
      exact Nat.le_add_right_of_le hk
    · rw [List.take_append_of_le_length hk]
      exact hcut
  | @ret h a t r hrun hdone ih =>
    rcases Nat.lt_or_ge h.length n with hlt | hge
    · refine ⟨_, (hrun.ret t hdone).cut_last ?_⟩
      rw [List.length_append]
      exact hlt
    · obtain ⟨k, hcut⟩ := ih
      exact ⟨k, cut_event hge hcut⟩

/-- **Every history of the object is explained** by the order of the effects. -/
theorem Run.explains (hrun : Run perform s h a) : Explains perform s h a.order a.state where
  sequential := hrun.sequential
  threads := by
    intro t
    have htraced := hrun.traced t
    cases hstage : a.stage t with
    | idle =>
      rw [hstage] at htraced
      exact Or.inl htraced
    | called op =>
      rw [hstage] at htraced
      exact Or.inr (Or.inl ⟨op, htraced⟩)
    | done r =>
      rw [hstage] at htraced
      exact Or.inr (Or.inr ⟨r, htraced⟩)
  realTime := by
    intro n
    obtain ⟨k, -, hcut⟩ := hrun.cut n
    exact ⟨k, hcut⟩

end Runs

/-- What keeps under every operation holds where each of them took effect. -/
theorem sequentially_mem {perform : S → Op → R × S} {keeps : S → Prop}
    (hstep : ∀ s op, keeps s → keeps (perform s op).2) {order : List (Effect T Op R)} {s s' : S}
    (hs : keeps s)
    (h : sequentially perform s (order.map Effect.op) = (order.map Effect.result, s')) :
    ∀ e ∈ order, ∃ s₁, keeps s₁ ∧ e.result = (perform s₁ e.op).1 := by
  induction order generalizing s with
  | nil =>
    intro e he
    cases he
  | cons first order ih =>
    rw [List.map_cons, sequentially, List.map_cons, Prod.mk.injEq, List.cons.injEq] at h
    obtain ⟨⟨hfirst, hresults⟩, hstate⟩ := h
    intro e he
    rcases List.mem_cons.mp he with rfl | he
    · exact ⟨s, hs, hfirst.symm⟩
    · exact ih (hstep s first.op hs) (Prod.ext hresults hstate) e he

end Atomic
