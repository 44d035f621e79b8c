import Mathlib.Data.Fintype.CardEmbedding
import Mathlib.Logic.Equiv.Fintype
import Mathlib.SetTheory.Cardinal.Finite
import Stegosafe.Lib.Sort

/-!
# Relabelling

Items that are arranged by their scores, where the items take their scores along when they
are relabelled. What is arranged by the scores of the relabelled items is the first
arrangement, relabelled (`Arranges.relabel`).

Some permutation takes any sequence of items to any other of its length (`exists_perm_map`).
So each sequence is placed by as many tables of distinct scores as any other, and their
number is that of all tables over that of all sequences (`card_placed`): if scores are
drawn at random and come out distinct, no sequence is more likely than another.
-/

open Equiv

namespace Sorting

variable {ι S α β : Type}

/-! ## The arrangement -/

/-- **The arrangement of relabelled items is the relabelled arrangement.** -/
theorem Arranges.relabel {before : α → α → Prop} {before' : β → β → Prop} {items order : List α}
    {items' order' : List β} (h : Arranges before items order)
    (h' : Arranges before' items' order') {f : α → β} (hitems : (items.map f).Perm items')
    (hbefore : ∀ a ∈ items, ∀ b ∈ items, before a b → before' (f a) (f b)) :
    order' = order.map f := by
  refine (h'.unique _ ((h.perm.map f).trans hitems) (List.pairwise_map.mpr ?_)).symm
  refine h.sorted.imp_of_mem fun {a b} ha hb hab => ?_
  exact hbefore a (h.perm.mem_iff.mp ha) b (h.perm.mem_iff.mp hb) hab

/-- Some permutation takes one list without duplicates to another. -/
theorem exists_perm_map {a b : List α} (ha : a.Nodup) (hb : b.Nodup)
    (hlen : a.length = b.length) : ∃ σ : Perm α, a.map σ = b := by
  have hplaces : Function.Injective fun i : Fin a.length => b.get (i.cast hlen) :=
    (List.nodup_iff_injective_get.mp hb).comp (Fin.cast_injective hlen)
  obtain ⟨σ, hσ⟩ := Perm.exists_extending_pair a.get (fun i => b.get (i.cast hlen))
    (List.nodup_iff_injective_get.mp ha) hplaces
  refine ⟨σ, List.ext_getElem (by rw [List.length_map, hlen]) fun i hi _ => ?_⟩
  rw [List.getElem_map]
  rw [List.length_map] at hi
  exact hσ ⟨i, hi⟩

/-! ## Counting -/

/-- **Fibres that can be carried onto each other share the whole equally.** -/
theorem card_fiber [Finite α] [Finite β] (f : α → β)
    (hcarry : ∀ b b', ∃ e : Perm α, ∀ a, f a = b ↔ f (e a) = b') (b : β) :
    Nat.card β * Nat.card {a // f a = b} = Nat.card α := by
  have := Fintype.ofFinite β
  have hsame : ∀ b', Nat.card {a // f a = b'} = Nat.card {a // f a = b} := by
    intro b'
    obtain ⟨e, he⟩ := hcarry b' b
    exact Nat.card_congr (e.subtypeEquiv he)
  calc Nat.card β * Nat.card {a // f a = b}
      = ∑ _b' : β, Nat.card {a // f a = b} := by
        rw [Finset.sum_const, Finset.card_univ, Nat.card_eq_fintype_card, nsmul_eq_mul, Nat.cast_id]
    _ = ∑ b' : β, Nat.card {a // f a = b'} := Finset.sum_congr rfl fun b' _ => (hsame b').symm
    _ = Nat.card ((b' : β) × {a // f a = b'}) := Nat.card_sigma.symm
    _ = Nat.card α := Nat.card_congr (sigmaFiberEquiv f)

/-- The sequences of distinct items, of one length. -/
abbrev Sequence (ι : Type) (m : Nat) := {items : List ι // items.Nodup ∧ items.length = m}

/-- They are the embeddings of their places. -/
def sequenceEquiv (ι : Type) (m : Nat) : (Fin m ↪ ι) ≃ Sequence ι m where
  toFun place := ⟨List.ofFn place, List.nodup_ofFn.mpr place.injective, List.length_ofFn⟩
  invFun items := ⟨fun i => items.1.get (i.cast items.2.2.symm),
    (List.nodup_iff_injective_get.mp items.2.1).comp (Fin.cast_injective _)⟩
  left_inv place := by
    ext i
    simp
  right_inv items := by
    obtain ⟨items, hnodup, rfl⟩ := items
    exact Subtype.ext (List.ofFn_get items)

theorem card_sequence [Finite ι] (m : Nat) :
    Nat.card (Sequence ι m) = (Nat.card ι).descFactorial m := by
  have := Fintype.ofFinite ι
  rw [← Nat.card_congr (sequenceEquiv ι m), Nat.card_eq_fintype_card, Fintype.card_embedding_eq,
    Fintype.card_fin, Nat.card_eq_fintype_card]

instance [Finite ι] (m : Nat) : Finite (Sequence ι m) := Finite.of_equiv _ (sequenceEquiv ι m)

theorem card_embedding [Finite ι] [Finite S] :
    Nat.card (ι ↪ S) = (Nat.card S).descFactorial (Nat.card ι) := by
  have := Fintype.ofFinite ι
  have := Fintype.ofFinite S
  rw [Nat.card_eq_fintype_card, Fintype.card_embedding_eq, Nat.card_eq_fintype_card,
    Nat.card_eq_fintype_card]

/--
**Every sequence is placed by as many tables of distinct scores as any other.**

`placed` is the first `m` items by their scores. All it must do is to follow the items when
they are relabelled.
-/
theorem card_placed [Finite ι] [Finite S] {m : Nat} (placed : (ι → S) → List ι)
    (hsequence : ∀ scores, (placed scores).Nodup ∧ (placed scores).length = m)
    (hfollows : ∀ (scores : ι → S) (σ : Perm ι), Function.Injective scores →
      placed (scores ∘ σ.symm) = (placed scores).map σ)
    {first : List ι} (hfirst : first.Nodup ∧ first.length = m) :
    (Nat.card ι).descFactorial m
        * Nat.card {scores : ι → S // Function.Injective scores ∧ placed scores = first}
      = (Nat.card S).descFactorial (Nat.card ι) := by
  let place (scores : ι ↪ S) : Sequence ι m := ⟨placed scores, hsequence scores⟩
  have hcarry : ∀ b b', ∃ e : Perm (ι ↪ S), ∀ scores,
      place scores = b ↔ place (e scores) = b' := by
    intro b b'
    obtain ⟨σ, hσ⟩ := exists_perm_map b.2.1 b'.2.1 (b.2.2.trans b'.2.2.symm)
    refine ⟨embeddingCongr σ (Equiv.refl S), fun scores => ?_⟩
    have hmoved : placed (embeddingCongr σ (Equiv.refl S) scores) = (placed scores).map σ :=
      hfollows scores σ scores.injective
    rw [Subtype.ext_iff, Subtype.ext_iff]
    change placed scores = b.1 ↔ placed _ = b'.1
    rw [hmoved, ← hσ, (List.map_injective_iff.mpr σ.injective).eq_iff]
  have hfiber : {scores : ι → S // Function.Injective scores ∧ placed scores = first}
      ≃ {scores // place scores = ⟨first, hfirst⟩} :=
    (subtypeSubtypeEquivSubtypeInter Function.Injective fun scores => placed scores = first).symm
      |>.trans ((subtypeInjectiveEquivEmbedding ι S).subtypeEquiv fun _ => by
        rw [Subtype.ext_iff]
        rfl)
  rw [Nat.card_congr hfiber, ← card_sequence, card_fiber place hcarry, card_embedding]

end Sorting
