import Mathlib.Data.List.Sort

/-!
# Sorting by a comparator

`sortBy cmp` orders a list by a three-way comparator, as library sorts do. Which
of several equal elements comes first is a property of this implementation, but
that the result is a permutation of the input is not. When the comparator is a
linear order no two elements are equal: the result is then the one ascending
permutation of the input, whatever the algorithm.
-/

namespace Sorting

variable {α β : Type}

/-- `l` in ascending order of `cmp`. -/
def sortBy (cmp : α → α → Ordering) (l : List α) : List α :=
  l.insertionSort fun a b => cmp a b ≠ .gt

theorem sortBy_perm (cmp : α → α → Ordering) (l : List α) : (sortBy cmp l).Perm l :=
  List.perm_insertionSort _ l

@[simp] theorem sortBy_length (cmp : α → α → Ordering) (l : List α) :
    (sortBy cmp l).length = l.length := (sortBy_perm cmp l).length_eq

/-- Sorting looks at an element only through what its comparator compares. -/
theorem sortBy_map {cmp : α → α → Ordering} {cmp' : β → β → Ordering} {key : α → β} {l : List α}
    (h : ∀ a ∈ l, ∀ b ∈ l, cmp a b = cmp' (key a) (key b)) :
    (sortBy cmp l).map key = sortBy cmp' (l.map key) :=
  List.map_insertionSort _ _ key l fun a ha b hb => by rw [h a ha b hb]

section Linear

variable {cmp : α → α → Ordering} [Std.TransCmp cmp]

theorem sortBy_pairwise (l : List α) : (sortBy cmp l).Pairwise fun a b => cmp a b ≠ .gt := by
  have htotal : Std.Total fun a b => cmp a b ≠ .gt := by
    refine ⟨fun a b => ?_⟩
    have hswap : cmp b a = (cmp a b).swap := Std.OrientedCmp.eq_swap
    rw [hswap]
    cases cmp a b <;> simp
  have htrans : IsTrans α fun a b => cmp a b ≠ .gt := by
    refine ⟨fun a b c hab hbc => ?_⟩
    have hac : (cmp a c).isLE :=
      Std.TransCmp.isLE_trans (Ordering.isLE_iff_ne_gt.mpr hab) (Ordering.isLE_iff_ne_gt.mpr hbc)
    exact Ordering.isLE_iff_ne_gt.mp hac
  exact List.pairwise_insertionSort _ l

/-- **By a linear order, a list without duplicates is sorted strictly.** -/
theorem sortBy_pairwise_lt [Std.LawfulEqCmp cmp] {l : List α} (h : l.Nodup) :
    (sortBy cmp l).Pairwise fun a b => cmp a b = .lt := by
  have hnodup : (sortBy cmp l).Nodup := (sortBy_perm cmp l).nodup_iff.mpr h
  refine (hnodup.and (sortBy_pairwise l)).imp fun {a b} hab => ?_
  obtain ⟨hne, hle⟩ := hab
  cases hcmp : cmp a b with
  | lt => rfl
  | eq => exact absurd (Std.LawfulEqCmp.eq_of_compare hcmp) hne
  | gt => exact absurd hcmp hle

end Linear

/-- **A strict order arranges given elements in at most one way.** -/
theorem sorted_unique {r : α → α → Prop} (hasymm : ∀ a b, r a b → ¬ r b a) {l l' : List α}
    (hl : l.Pairwise r) (hl' : l'.Pairwise r) (hperm : l.Perm l') : l = l' :=
  List.Perm.eq_of_pairwise (fun a b _ _ hab hba => absurd hba (hasymm a b hab)) hl hl' hperm

/-- `order` arranges `items` by `before`, and no other list does. -/
structure Arranges (before : α → α → Prop) (items order : List α) : Prop where
  perm : order.Perm items
  sorted : order.Pairwise before
  unique : ∀ other, other.Perm items → other.Pairwise before → other = order

/-- By a strict order, every sorted permutation is the only one. -/
theorem arranges_of_sorted {before : α → α → Prop} (hasymm : ∀ a b, before a b → ¬ before b a)
    {items order : List α} (hperm : order.Perm items) (hsorted : order.Pairwise before) :
    Arranges before items order where
  perm := hperm
  sorted := hsorted
  unique _ hperm' hsorted' :=
    sorted_unique hasymm hsorted' hsorted (hperm'.trans hperm.symm)

open Classical in
/-- **Two arrangements begin alike**, if the second keeps the items the first begins with ahead. -/
theorem Arranges.take_eq {before before' : α → α → Prop} {items order order' : List α}
    (h : Arranges before items order) (h' : Arranges before' items order') (n : Nat)
    (hkeep : ∀ a ∈ order.take n, ∀ b ∈ order, before a b → before' a b) :
    order'.take n = order.take n := by
  obtain ⟨hfirst, -, hcross⟩ := List.pairwise_append.mp
    ((List.take_append_drop n order).symm ▸ h.sorted)
  have hperm : order'.Perm order := h'.perm.trans h.perm.symm
  -- the first items, and behind them what else the second order has
  have hwhole : (order.take n ++ order'.diff (order.take n)).Perm order' :=
    List.subperm_append_diff_self_of_count_le fun a _ => by
      rw [hperm.count_eq]
      exact (List.take_sublist n order).count_le a
  have hrest : (order'.diff (order.take n)).Perm (order.drop n) := by
    refine (List.perm_append_left_iff (order.take n)).mp ?_
    rw [List.take_append_drop]
    exact hwhole.trans hperm
  have horder : order.take n ++ order'.diff (order.take n) = order' := by
    refine h'.unique _ (hwhole.trans h'.perm) (List.pairwise_append.mpr ⟨?_, ?_, ?_⟩)
    · exact hfirst.imp_of_mem fun ha hb hab => hkeep _ ha _ (List.mem_of_mem_take hb) hab
    · exact h'.sorted.sublist (List.diff_sublist _ _)
    · intro a ha b hb
      have hb := hrest.mem_iff.mp hb
      exact hkeep a ha b (List.mem_of_mem_drop hb) (hcross a ha b hb)
  have hstarts : order.take n <+: order' := horder ▸ List.prefix_append ..
  have hlen : (order.take n).length = (order'.take n).length := by
    rw [List.length_take, List.length_take, hperm.length_eq]
  exact (List.prefix_of_prefix_length_le hstarts (List.take_prefix n order') hlen.le).eq_of_length
    hlen |>.symm

end Sorting
