import Mathlib.Data.List.Nodup
import Mathlib.Logic.Function.Basic

/-!
# Single-use tickets

A ledger of tickets that are issued to holders and spent by them. A holder gets a
ticket nobody was issued before, and either spends it or drops it. Whatever the
order of the steps, no ticket is ever spent twice.

A program that hands out unique numbers and uses each once refines this: its
issuing is fresh, and the rest follows from `Sound`.
-/

variable {T N : Type}

/-- Tickets `N` in the hands of holders `T`. -/
structure Ledger (T N : Type) where
  /-- All tickets ever issued, in order. -/
  issued : List N
  /-- The ticket each holder has at the moment. -/
  held : T → Option N
  /-- All tickets ever spent, in order. -/
  spent : List N

namespace Ledger

/-- No ticket issued yet. -/
def empty : Ledger T N := ⟨[], fun _ => none, []⟩

/-- What can happen to a ledger. -/
inductive Step [DecidableEq T] : Ledger T N → Ledger T N → Prop where
  | stay (l : Ledger T N) : Step l l
  | issue {l : Ledger T N} (t : T) (n : N) : n ∉ l.issued →
      Step l { l with issued := l.issued ++ [n], held := Function.update l.held t (some n) }
  | spend {l : Ledger T N} (t : T) (n : N) : l.held t = some n →
      Step l { l with held := Function.update l.held t none, spent := l.spent ++ [n] }
  | drop {l : Ledger T N} (t : T) :
      Step l { l with held := Function.update l.held t none }

/-- What holds of every ledger reached from the empty one. -/
structure Sound (l : Ledger T N) : Prop where
  issued_nodup : l.issued.Nodup
  held_issued : ∀ {t n}, l.held t = some n → n ∈ l.issued
  held_unique : ∀ {t u n}, l.held t = some n → l.held u = some n → t = u
  held_unspent : ∀ {t n}, l.held t = some n → n ∉ l.spent
  spent_issued : ∀ {n}, n ∈ l.spent → n ∈ l.issued
  spent_nodup : l.spent.Nodup

theorem sound_empty : (empty : Ledger T N).Sound where
  issued_nodup := List.nodup_nil
  held_issued h := nomatch h
  held_unique h := nomatch h
  held_unspent h := nomatch h
  spent_issued h := nomatch h
  spent_nodup := List.nodup_nil

/-- A holder whose hand is emptied holds nothing; the others keep what they have. -/
theorem held_update_none [DecidableEq T] {l : Ledger T N} {t u : T} {n : N}
    (h : Function.update l.held t none u = some n) : u ≠ t ∧ l.held u = some n := by
  rcases eq_or_ne u t with rfl | hne
  · rw [Function.update_self] at h
    cases h
  · rw [Function.update_of_ne hne] at h
    exact ⟨hne, h⟩

/-- A holder that takes a ticket holds it; the others keep what they have. -/
theorem held_update_some [DecidableEq T] {l : Ledger T N} {t u : T} {n m : N}
    (h : Function.update l.held t (some n) u = some m) :
    (u = t ∧ m = n) ∨ (u ≠ t ∧ l.held u = some m) := by
  rcases eq_or_ne u t with rfl | hne
  · rw [Function.update_self] at h
    exact Or.inl ⟨rfl, (Option.some.inj h).symm⟩
  · rw [Function.update_of_ne hne] at h
    exact Or.inr ⟨hne, h⟩

/-- A fresh ticket is issued. -/
theorem Sound.issue [DecidableEq T] {l : Ledger T N} (h : l.Sound) (t : T) {n : N}
    (hn : n ∉ l.issued) :
    Sound { l with issued := l.issued ++ [n], held := Function.update l.held t (some n) } where
  issued_nodup := List.nodup_append'.mpr ⟨h.issued_nodup, List.nodup_singleton n,
    List.disjoint_singleton.mpr hn⟩
  held_issued := by
    intro u m hu
    rcases held_update_some hu with ⟨rfl, rfl⟩ | ⟨-, hu⟩
    · exact List.mem_append_right _ (List.mem_singleton_self _)
    · exact List.mem_append_left _ (h.held_issued hu)
  held_unique := by
    intro u v m hu hv
    -- the new ticket is in one hand only, because it is in no old one
    rcases held_update_some hu with ⟨rfl, rfl⟩ | ⟨-, hu'⟩
    · rcases held_update_some hv with ⟨rfl, -⟩ | ⟨-, hv'⟩
      · rfl
      · exact absurd (h.held_issued hv') hn
    · rcases held_update_some hv with ⟨rfl, hm⟩ | ⟨-, hv'⟩
      · exact absurd (hm ▸ h.held_issued hu') hn
      · exact h.held_unique hu' hv'
  held_unspent := by
    intro u m hu hm
    rcases held_update_some hu with ⟨rfl, rfl⟩ | ⟨-, hu⟩
    · exact hn (h.spent_issued hm)
    · exact h.held_unspent hu hm
  spent_issued hm := List.mem_append_left _ (h.spent_issued hm)
  spent_nodup := h.spent_nodup

/-- A held ticket is dropped. -/
theorem Sound.drop [DecidableEq T] {l : Ledger T N} (h : l.Sound) (t : T) :
    Sound { l with held := Function.update l.held t none } where
  issued_nodup := h.issued_nodup
  held_issued hu := h.held_issued (held_update_none hu).2
  held_unique hu hv := h.held_unique (held_update_none hu).2 (held_update_none hv).2
  held_unspent hu := h.held_unspent (held_update_none hu).2
  spent_issued := h.spent_issued
  spent_nodup := h.spent_nodup

/-- A held ticket is spent. -/
theorem Sound.spend [DecidableEq T] {l : Ledger T N} (h : l.Sound) {t : T} {n : N}
    (ht : l.held t = some n) :
    Sound { l with held := Function.update l.held t none, spent := l.spent ++ [n] } where
  issued_nodup := h.issued_nodup
  held_issued := (h.drop t).held_issued
  held_unique := (h.drop t).held_unique
  held_unspent := by
    intro u m hu hm
    obtain ⟨hne, hu'⟩ := held_update_none hu
    rcases List.mem_append.mp hm with hm | hm
    · exact h.held_unspent hu' hm
    · obtain rfl := List.mem_singleton.mp hm
      exact hne (h.held_unique hu' ht)
  spent_issued := by
    intro m hm
    rcases List.mem_append.mp hm with hm | hm
    · exact h.spent_issued hm
    · obtain rfl := List.mem_singleton.mp hm
      exact h.held_issued ht
  spent_nodup := List.nodup_append'.mpr ⟨h.spent_nodup, List.nodup_singleton n,
    List.disjoint_singleton.mpr (h.held_unspent ht)⟩

/-- **Every step keeps a ledger sound.** -/
theorem sound_step [DecidableEq T] {l l' : Ledger T N} (hs : Step l l') (h : l.Sound) :
    l'.Sound := by
  cases hs with
  | stay => exact h
  | issue t n hn => exact h.issue t hn
  | spend t n ht => exact h.spend ht
  | drop t => exact h.drop t

end Ledger
