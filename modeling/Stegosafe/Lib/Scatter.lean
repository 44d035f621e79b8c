import Mathlib.Data.List.Basic
import Mathlib.Data.List.Nodup

/-!
# Writing and reading cells along a list of indices

`scatter` overwrites the cells a list of indices names, one value each, in list
order; `gather` reads the cells a list of indices names. An index outside the
cells is skipped by the one and read as `none` by the other.

Along a duplicate-free list of indices the two are inverse: what was scattered is
gathered (`gather_scatter`), and scattering what was gathered changes nothing
(`scatter_gather`). The second needs no assumption on the indices at all.

Two scatters commute where no cell takes clashing updates (`scatter_comm`), and one
that reaches every cell of an earlier one leaves nothing of it (`scatter_absorb`).
-/

namespace Scatter

variable {α β : Type}

/-- Update the cell each pair names, in list order. -/
def scatter (put : β → α → α) (ups : List (β × Nat)) (cells : List α) : List α :=
  ups.foldl (fun cells u => cells.modify u.2 (put u.1)) cells

/-- Read the cells the indices name. -/
def gather (get : α → β) (cells : List α) (idx : List Nat) : List (Option β) :=
  idx.map fun i => cells[i]?.map get

@[simp] theorem scatter_cons (put : β → α → α) (u : β × Nat) (ups : List (β × Nat))
    (cells : List α) :
    scatter put (u :: ups) cells = scatter put ups (cells.modify u.2 (put u.1)) := rfl

@[simp] theorem scatter_length (put : β → α → α) (ups : List (β × Nat)) (cells : List α) :
    (scatter put ups cells).length = cells.length := by
  induction ups generalizing cells with
  | nil => rfl
  | cons u ups ih => simp [ih]

/-- A cell no pair names keeps its value. -/
theorem scatter_other {put : β → α → α} {ups : List (β × Nat)} {cells : List α} {i : Nat}
    (h : i ∉ ups.map Prod.snd) : (scatter put ups cells)[i]? = cells[i]? := by
  induction ups generalizing cells with
  | nil => rfl
  | cons u ups ih =>
    rw [List.map_cons, List.mem_cons, not_or] at h
    rw [scatter_cons, ih h.2, List.getElem?_modify_ne _ _ (Ne.symm h.1)]

/-- A cell that exactly one pair names is updated by that pair. -/
theorem scatter_mem {put : β → α → α} {ups : List (β × Nat)} {cells : List α} {v : β} {i : Nat}
    (hnd : (ups.map Prod.snd).Nodup) (h : (v, i) ∈ ups) :
    (scatter put ups cells)[i]? = cells[i]?.map (put v) := by
  induction ups generalizing cells with
  | nil => cases h
  | cons u ups ih =>
    rw [List.map_cons, List.nodup_cons] at hnd
    rcases List.mem_cons.mp h with rfl | h
    · -- the first pair updates the cell, and no later one names it
      rw [scatter_cons, scatter_other hnd.1, List.getElem?_modify_eq]
      rfl
    · have hne : u.2 ≠ i := fun he => hnd.1 (he ▸ List.mem_map_of_mem h)
      rw [scatter_cons, ih hnd.2 h, List.getElem?_modify_ne _ _ hne]

/-- Pairs that put back what is there change nothing. -/
theorem scatter_eq_self {put : β → α → α} {ups : List (β × Nat)} {cells : List α}
    (h : ∀ u ∈ ups, ∀ a, cells[u.2]? = some a → put u.1 a = a) :
    scatter put ups cells = cells := by
  induction ups generalizing cells with
  | nil => rfl
  | cons u ups ih =>
    have hu : cells.modify u.2 (put u.1) = cells := by
      apply List.ext_getElem?
      intro k
      rcases Nat.decEq u.2 k with hk | rfl
      · rw [List.getElem?_modify_ne _ _ hk]
      · rw [List.getElem?_modify_eq]
        cases hc : cells[u.2]? with
        | none => rfl
        | some a => exact congrArg some (h u List.mem_cons_self a hc)
    rw [scatter_cons, hu]
    exact ih fun w hw => h w (List.mem_cons_of_mem _ hw)

/--
Stores whose value depends on the index alone: a cell some store names holds that
value, whichever store came last.
-/
theorem foldl_set_getElem? {γ : Type} {loc : γ → Nat} {val : γ → α} (out : Nat → α) (i : Nat) :
    ∀ {l : List γ} {cells : List α}, (∀ p ∈ l, val p = out (loc p)) →
      (l.foldl (fun c p => c.set (loc p) (val p)) cells)[i]?
        = if i ∈ l.map loc then cells[i]?.map fun _ => out i else cells[i]?
  | [], _, _ => by simp
  | p :: l, cells, h => by
      have hp := h p List.mem_cons_self
      rw [List.foldl_cons, foldl_set_getElem? out i fun q hq => h q (List.mem_cons_of_mem _ hq),
        List.map_cons]
      rcases Nat.decEq (loc p) i with hi | hi
      · have : i ∈ loc p :: l.map loc ↔ i ∈ l.map loc := by simp [Ne.symm hi]
        simp only [this, List.getElem?_set_ne hi]
      · -- the store itself hits the cell; later ones can only write the same value
        rw [if_pos (show i ∈ loc p :: l.map loc by simp [hi]), hp, hi]
        rcases Nat.lt_or_ge i cells.length with hlt | hge
        · simp [hlt]
        · simp [hge]

@[simp] theorem gather_length (get : α → β) (cells : List α) (idx : List Nat) :
    (gather get cells idx).length = idx.length := by simp [gather]

theorem gather_take (get : α → β) (cells : List α) (idx : List Nat) (n : Nat) :
    gather get cells (idx.take n) = (gather get cells idx).take n := by
  simp [gather, List.map_take]

/-- Indices inside the cells are all read. -/
theorem gather_of_inRange (get : α → β) {cells : List α} {idx : List Nat}
    (h : ∀ i ∈ idx, i < cells.length) : ∃ vals : List β, gather get cells idx = vals.map some := by
  induction idx with
  | nil => exact ⟨[], rfl⟩
  | cons i idx ih =>
    obtain ⟨vals, hvals⟩ := ih fun j hj => h j (List.mem_cons_of_mem _ hj)
    refine ⟨get (cells.get ⟨i, h i List.mem_cons_self⟩) :: vals, ?_⟩
    rw [gather, List.map_cons, ← gather, hvals,
      List.getElem?_eq_getElem (h i List.mem_cons_self)]
    rfl

/-! ## Values zipped with indices -/

/-- The indices a zip really uses. -/
theorem zip_map_snd (vals : List β) (idx : List Nat) :
    (vals.zip idx).map Prod.snd = idx.take vals.length := by
  induction vals generalizing idx with
  | nil => simp
  | cons v vals ih => cases idx <;> simp [ih]

theorem zip_snd_nodup {vals : List β} {idx : List Nat} (hnd : idx.Nodup) :
    ((vals.zip idx).map Prod.snd).Nodup := by
  rw [zip_map_snd]
  exact hnd.sublist (List.take_sublist _ _)

/-- An index the zip uses takes the value it is zipped with. -/
theorem scatter_zip_getElem? {put : β → α → α} {vals : List β} {idx : List Nat} {cells : List α}
    (hnd : idx.Nodup) {j i : Nat} {v : β} (hv : vals[j]? = some v) (hi : idx[j]? = some i) :
    (scatter put (vals.zip idx) cells)[i]? = cells[i]?.map (put v) := by
  refine scatter_mem (zip_snd_nodup hnd) (List.mem_of_getElem? (i := j) ?_)
  rw [List.getElem?_zip_eq_some]
  exact ⟨hv, hi⟩

/-- An index the zip does not reach keeps its value. -/
theorem scatter_zip_other {put : β → α → α} {vals : List β} {idx : List Nat} {cells : List α}
    {i : Nat} (h : i ∉ idx.take vals.length) :
    (scatter put (vals.zip idx) cells)[i]? = cells[i]? :=
  scatter_other (by rwa [zip_map_snd])

/-- **What was scattered along a duplicate-free list is gathered along it.** -/
theorem gather_scatter {put : β → α → α} {get : α → β} {vals : List β} {idx : List Nat}
    {cells : List α} (hnd : idx.Nodup) (hin : ∀ i ∈ idx, i < cells.length)
    (hlen : vals.length ≤ idx.length) (hgp : ∀ v ∈ vals, ∀ a, get (put v a) = v) :
    gather get (scatter put (vals.zip idx) cells) (idx.take vals.length) = vals.map some := by
  apply List.ext_getElem?
  intro j
  rcases Nat.lt_or_ge j vals.length with hj | hj
  · have hi : j < idx.length := by omega
    have hcell : idx[j] < cells.length := hin _ (List.getElem_mem hi)
    -- both sides have value `j` there
    have hread : (scatter put (vals.zip idx) cells)[idx[j]]? = cells[idx[j]]?.map (put vals[j]) :=
      scatter_zip_getElem? hnd (List.getElem?_eq_getElem hj) (List.getElem?_eq_getElem hi)
    rw [gather, List.getElem?_map, List.getElem?_take_of_lt hj, List.getElem?_eq_getElem hi,
      Option.map_some, hread, List.getElem?_eq_getElem hcell, List.getElem?_map,
      List.getElem?_eq_getElem hj]
    simp [hgp _ (List.getElem_mem hj)]
  · rw [List.getElem?_eq_none (by simp; omega), List.getElem?_eq_none (by simpa using hj)]

/-- **Scattering what was gathered changes nothing**, whatever the indices are. -/
theorem scatter_gather {put : β → α → α} {get : α → β} {vals : List β} {idx : List Nat}
    {cells : List α} (hpg : ∀ a, put (get a) a = a)
    (h : gather get cells (idx.take vals.length) = vals.map some) :
    scatter put (vals.zip idx) cells = cells := by
  apply scatter_eq_self
  intro u hu a ha
  obtain ⟨v, i⟩ := u
  -- the pair stands at some place `j` of the zip, and place `j` of what was gathered is its value
  obtain ⟨j, hj⟩ := List.getElem?_of_mem hu
  rw [List.getElem?_zip_eq_some] at hj
  have hjlt : j < vals.length := (List.getElem?_eq_some_iff.mp hj.1).1
  have hread := congrArg (·[j]?) h
  simp only [gather, List.getElem?_map, List.getElem?_take_of_lt hjlt, hj.1, hj.2,
    Option.map_some, ha, Option.some.injEq] at hread
  rw [← hread]
  exact hpg a

/-! ## Two scatters, one after the other -/

/-- An update that clashes with none of a scatter may as well come after it. -/
theorem scatter_modify {put : β → α → α} {f : α → α} {ups : List (β × Nat)} {cells : List α}
    {i : Nat} (h : ∀ u ∈ ups, u.2 = i → ∀ a, f (put u.1 a) = put u.1 (f a)) :
    scatter put ups (cells.modify i f) = (scatter put ups cells).modify i f := by
  induction ups generalizing cells with
  | nil => rfl
  | cons u ups ih =>
    have hrest : ∀ w ∈ ups, w.2 = i → ∀ a, f (put w.1 a) = put w.1 (f a) :=
      fun w hw => h w (List.mem_cons_of_mem _ hw)
    have hfirst : (cells.modify i f).modify u.2 (put u.1)
        = (cells.modify u.2 (put u.1)).modify i f := by
      by_cases hi : u.2 = i
      · have hswap : f ∘ put u.1 = put u.1 ∘ f := funext (h u List.mem_cons_self hi)
        rw [hi, List.modify_modify_eq, List.modify_modify_eq, hswap]
      · exact List.modify_modify_ne _ _ _ (Ne.symm hi)
    rw [scatter_cons, scatter_cons, hfirst]
    exact ih hrest

/-- **Scatters that never clash commute.** -/
theorem scatter_comm {put put' : β → α → α} {ups ups' : List (β × Nat)} {cells : List α}
    (h : ∀ u ∈ ups, ∀ u' ∈ ups', u.2 = u'.2 →
      ∀ a, put u.1 (put' u'.1 a) = put' u'.1 (put u.1 a)) :
    scatter put' ups' (scatter put ups cells) = scatter put ups (scatter put' ups' cells) := by
  induction ups generalizing cells with
  | nil => rfl
  | cons u ups ih =>
    have hfirst : scatter put' ups' (cells.modify u.2 (put u.1))
        = (scatter put' ups' cells).modify u.2 (put u.1) :=
      scatter_modify fun u' hu' hi => h u List.mem_cons_self u' hu' hi.symm
    rw [scatter_cons, scatter_cons, ← hfirst]
    exact ih fun w hw => h w (List.mem_cons_of_mem _ hw)

/-- An update of a cell the scatter reaches is lost. -/
theorem scatter_modify_absorb {put : β → α → α} {f : α → α} {ups : List (β × Nat)}
    {cells : List α} {i : Nat} (hi : i ∈ ups.map Prod.snd)
    (h : ∀ u ∈ ups, ∀ a, put u.1 (f a) = put u.1 a) :
    scatter put ups (cells.modify i f) = scatter put ups cells := by
  induction ups generalizing cells with
  | nil => cases hi
  | cons u ups ih =>
    have hput : put u.1 ∘ f = put u.1 := funext (h u List.mem_cons_self)
    rw [scatter_cons, scatter_cons]
    by_cases hui : u.2 = i
    · rw [hui, List.modify_modify_eq, hput]
    · have hrest : i ∈ ups.map Prod.snd := by
        rw [List.map_cons, List.mem_cons] at hi
        exact hi.resolve_left (Ne.symm hui)
      rw [List.modify_modify_ne _ _ _ (Ne.symm hui)]
      exact ih hrest fun w hw => h w (List.mem_cons_of_mem _ hw)

/-- **A scatter that reaches every cell of an earlier one leaves nothing of it.** -/
theorem scatter_absorb {put : β → α → α} {ups ups' : List (β × Nat)} {cells : List α}
    (hreach : ∀ u ∈ ups, u.2 ∈ ups'.map Prod.snd)
    (h : ∀ u ∈ ups, ∀ u' ∈ ups', ∀ a, put u'.1 (put u.1 a) = put u'.1 a) :
    scatter put ups' (scatter put ups cells) = scatter put ups' cells := by
  induction ups generalizing cells with
  | nil => rfl
  | cons u ups ih =>
    have hfirst : scatter put ups' (cells.modify u.2 (put u.1)) = scatter put ups' cells :=
      scatter_modify_absorb (hreach u List.mem_cons_self) (h u List.mem_cons_self)
    rw [scatter_cons, ih (fun w hw => hreach w (List.mem_cons_of_mem _ hw))
      fun w hw => h w (List.mem_cons_of_mem _ hw)]
    exact hfirst

end Scatter
