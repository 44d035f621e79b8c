import Mathlib.GroupTheory.Perm.ViaEmbedding
import Stegosafe.Lib.Relabel
import Stegosafe.Proof.Orders

/-!
# The keyed placement favours no samples

Where the keyed technique hides is for HMAC to decide: each sample has a score, and the
samples with the lowest scores are taken, in that order. The list depends on the scores
alone, and any scores could be the answers of some HMAC. If HMAC is as good as random, its
scores are a table drawn from all there are; and given that no two scores are the same,
every sequence of samples is equally likely to be taken: each is placed by the same number
of tables (`placement_uniform`).

Where two scores are the same the lower index comes first, and that does favour samples.
-/

namespace Stegosafe.Proof

open Stegosafe Checked Outcome Text Sorting

/-- What HMAC is asked about a sample. -/
def placementQuestion (i : Nat) : Bytes := utf8 "stegosafe-placement-v1:" ++ Words.toBe 8 i

theorem placementQuestion_injective {i j : Nat} (hi : i < 2 ^ 64) (hj : j < 2 ^ 64)
    (h : placementQuestion i = placementQuestion j) : i = j :=
  Words.toBe_injective hi hj (List.append_cancel_left h)

section Scores

variable {n : Nat}

/-- An HMAC that gives the first samples these scores. -/
noncomputable def scoring (scores : Fin n → Key) : Hmac := fun _ =>
  Function.extend (fun i : Fin n => placementQuestion i) scores fun _ => Vector.replicate 32 0

/-- **Any scores could be the answers of HMAC.** -/
theorem placementScore_scoring (hn : n ≤ 2 ^ 64) (scores : Fin n → Key) (key : Key) (i : Fin n) :
    placementScore (scoring scores) key i = scores i := by
  have hinj : Function.Injective fun i : Fin n => placementQuestion i := fun i j h => Fin.ext
    (placementQuestion_injective (Nat.lt_of_lt_of_le i.isLt hn) (Nat.lt_of_lt_of_le j.isLt hn) h)
  rw [placementScore, scoring]
  exact hinj.extend_apply scores _ i

variable {hmac hmac' : Hmac} {key key' : Key}

/-- The list is made of the scores, and of nothing else. -/
theorem keyedOrder_congr
    (h : ∀ i : Fin n, placementScore hmac' key' i = placementScore hmac key i) :
    keyedOrder hmac' key' n = keyedOrder hmac key n := by
  have hscored : LsbRandomHmac.scored hmac' key' n = LsbRandomHmac.scored hmac key n := by
    refine List.map_congr_left fun i hi => ?_
    exact congrArg (·, i) (h ⟨i, List.mem_range.mp hi⟩)
  rw [keyedOrder, keyedOrder, hscored]

/-- Without ties a sample comes before another by its score alone. -/
theorem ScoreBefore.lt_of_injective
    (hties : Function.Injective fun i : Fin n => placementScore hmac key i) {i j : Nat}
    (hi : i < n) (hj : j < n) (h : ScoreBefore hmac key i j) :
    compare (placementScore hmac key i).toList (placementScore hmac key j).toList = .lt := by
  rcases h with hlt | ⟨htie, hlt⟩
  · exact hlt
  · have hsame := congrArg Fin.val (@hties ⟨i, hi⟩ ⟨j, hj⟩ htie)
    exact absurd hsame (Nat.ne_of_lt hlt)

/-- The samples, with the first ones permuted. -/
noncomputable def moveSamples (σ : Equiv.Perm (Fin n)) : Equiv.Perm Nat :=
  σ.viaEmbedding Fin.valEmbedding

theorem moveSamples_val (σ : Equiv.Perm (Fin n)) (i : Fin n) : moveSamples σ i = σ i :=
  Equiv.Perm.viaEmbedding_apply σ Fin.valEmbedding i

theorem range_move (σ : Equiv.Perm (Fin n)) :
    ((List.range n).map (moveSamples σ)).Perm (List.range n) := by
  have hrange : List.range n = (List.finRange n).map Fin.val := by simp
  rw [hrange, List.map_map]
  have hmove : ⇑(moveSamples σ) ∘ Fin.val = Fin.val ∘ σ := funext (moveSamples_val σ)
  rw [hmove, ← List.map_map]
  exact σ.map_finRange_perm.map Fin.val

/-- **If the samples take their scores along, the list moves with them.** -/
theorem keyedOrder_move (σ : Equiv.Perm (Fin n))
    (hscores : ∀ i : Fin n, placementScore hmac' key' (σ i) = placementScore hmac key i)
    (hties : Function.Injective fun i : Fin n => placementScore hmac key i) :
    keyedOrder hmac' key' n = (keyedOrder hmac key n).map (moveSamples σ) := by
  have hmoved : ∀ i (hi : i < n),
      placementScore hmac' key' (moveSamples σ i) = placementScore hmac key i := by
    intro i hi
    rw [show i = (⟨i, hi⟩ : Fin n) from rfl, moveSamples_val]
    exact hscores ⟨i, hi⟩
  refine (keyedOrder_arranges n).relabel (keyedOrder_arranges n) (range_move σ) ?_
  intro i hi j hj hbefore
  have hi := List.mem_range.mp hi
  have hj := List.mem_range.mp hj
  have hlt := hbefore.lt_of_injective hties hi hj
  rw [← hmoved i hi, ← hmoved j hj] at hlt
  exact Or.inl hlt

/-- The samples that these scores place. -/
theorem exists_placed (hn : n ≤ 2 ^ 64) {m : Nat} (hm : m ≤ n) (scores : Fin n → Key) :
    ∃ placed : List (Fin n), (placed.Nodup ∧ placed.length = m)
      ∧ ∀ hmac key, (∀ i : Fin n, placementScore hmac key i = scores i) →
        (keyedOrder hmac key n).take m = placed.map Fin.val := by
  let key : Key := Vector.replicate 32 0
  have horder : Sorting.Arranges (ScoreBefore (scoring scores) key) (List.range n)
      (keyedOrder (scoring scores) key n) := keyedOrder_arranges n
  have hlt : ∀ i ∈ (keyedOrder (scoring scores) key n).take m, i < n := fun i hi =>
    List.mem_range.mp (horder.perm.mem_iff.mp (List.mem_of_mem_take hi))
  have hnodup : ((keyedOrder (scoring scores) key n).take m).Nodup :=
    (horder.perm.nodup_iff.mpr List.nodup_range).sublist (List.take_sublist m _)
  have hlen : ((keyedOrder (scoring scores) key n).take m).length = m := by simp [hm]
  generalize htaken : (keyedOrder (scoring scores) key n).take m = taken at hlt hnodup hlen
  lift taken to List (Fin n) using hlt
  rw [List.length_map] at hlen
  refine ⟨taken, ⟨List.Nodup.of_map _ hnodup, hlen⟩, fun hmac' key' hscores => ?_⟩
  rw [← htaken, keyedOrder_congr fun i => ?_]
  rw [hscores, placementScore_scoring hn]

end Scores

/-- There are `2 ^ 256` scores. -/
theorem card_key : Nat.card Key = 2 ^ 256 := by
  have hbyte : Nat.card UInt8 = 2 ^ 8 := by
    rw [Nat.card_congr ⟨UInt8.toFin, UInt8.ofFin, fun _ => rfl, fun _ => rfl⟩, Nat.card_fin]
    rfl
  have hbytes : Key ≃ (Fin 32 → UInt8) :=
    ⟨fun v i => v[i], Vector.ofFn, fun v => by ext; simp, fun f => by ext; simp⟩
  rw [Nat.card_congr hbytes, Nat.card_fun, hbyte, Nat.card_fin, ← pow_mul]

/--
**Given no ties, every sequence of samples is equally likely.**

What is placed is a function of the scores of the samples, and any table of scores is that
of some HMAC. There are `(2 ^ 256).descFactorial n` tables without ties and
`n.descFactorial m` sequences of `m` distinct samples, and each sequence is placed by its
even share of the tables.
-/
theorem placement_uniform {n m : Nat} (hn : n ≤ 2 ^ 64) (hm : m ≤ n) :
    ∃ placed : (Fin n → Key) → List (Fin n),
      (∀ hmac key, LsbRandomHmac.placementPositions hmac key n m
        = .ok ((placed fun i : Fin n => placementScore hmac key i).map Fin.val))
      ∧ (∀ (scores : Fin n → Key) (key : Key), ∃ hmac : Hmac, ∀ i : Fin n,
          placementScore hmac key i = scores i)
      ∧ Nat.card {scores : Fin n → Key // Function.Injective scores} = (2 ^ 256).descFactorial n
      ∧ ∀ first : List (Fin n), first.Nodup → first.length = m →
        n.descFactorial m
            * Nat.card {scores : Fin n → Key // Function.Injective scores ∧ placed scores = first}
          = (2 ^ 256).descFactorial n := by
  choose placed hsequence hplaced using exists_placed hn hm
  have : Finite Key := Nat.finite_of_card_ne_zero (by rw [card_key]; decide)
  have hfollows : ∀ (scores : Fin n → Key) (σ : Equiv.Perm (Fin n)), Function.Injective scores →
      placed (scores ∘ σ.symm) = (placed scores).map σ := by
    intro scores σ hties
    let key : Key := Vector.replicate 32 0
    have hscores := placementScore_scoring hn scores key
    have hscores' := placementScore_scoring hn (scores ∘ σ.symm) key
    have hmove : keyedOrder (scoring (scores ∘ σ.symm)) key n
        = (keyedOrder (scoring scores) key n).map (moveSamples σ) := by
      refine keyedOrder_move σ (fun i => ?_) ?_
      · rw [hscores, hscores', Function.comp_apply, Equiv.symm_apply_apply]
      · rwa [funext hscores]
    have htaken := hplaced (scores ∘ σ.symm) _ key hscores'
    rw [hmove, ← List.map_take, hplaced scores _ key hscores, List.map_map] at htaken
    refine (List.map_injective_iff.mpr Fin.val_injective ?_).symm
    rw [← htaken, List.map_map]
    exact congrArg (List.map · (placed scores)) (funext fun i => (moveSamples_val σ i).symm)
  refine ⟨placed, fun hmac key => ?_, fun scores key => ?_, ?_, fun first hnodup hlen => ?_⟩
  · rw [placementPositions_eq hmac hm, hplaced _ hmac key fun _ => rfl]
  · exact ⟨scoring scores, placementScore_scoring hn scores key⟩
  · rw [Nat.card_congr (Equiv.subtypeInjectiveEquivEmbedding (Fin n) Key), card_embedding,
      card_key, Nat.card_fin]
  · have hshare := card_placed placed hsequence hfollows ⟨hnodup, hlen⟩
    rwa [Nat.card_fin, card_key] at hshare

/-- Two of three samples: one table in six places them in this order. -/
theorem placement_uniform_pair : ∃ placed : (Fin 3 → Key) → List (Fin 3),
    (∀ hmac key, LsbRandomHmac.placementPositions hmac key 3 2
      = .ok ((placed fun i : Fin 3 => placementScore hmac key i).map Fin.val))
    ∧ 6 * Nat.card {scores : Fin 3 → Key // Function.Injective scores ∧ placed scores = [2, 0]}
      = (2 ^ 256).descFactorial 3 := by
  obtain ⟨placed, hplaced, -, -, hshare⟩ :=
    placement_uniform (n := 3) (m := 2) (by decide) (by decide)
  exact ⟨placed, hplaced, hshare [2, 0] (by decide) rfl⟩

end Stegosafe.Proof
