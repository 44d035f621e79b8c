import Stegosafe.Proof.Positions

/-!
# The orders are exact

Both sorts of the crate are unstable, so what they return is determined only if no
two elements compare equal. The index tie-breaks see to that: samples are ordered
by falling magnitude, then by index; keyed positions by score, then by index; and
both are strict orders, which arrange given elements in one way only.
-/

namespace Stegosafe.Proof

open Stegosafe Checked Outcome Sorting Text

/-! ## By magnitude -/

section Magnitudes

variable {F L : Type} [LinearOrder L]

/-- Pixel `i` comes before `j`: it has the larger magnitude, or the same and the lower index. -/
def PixelBefore (rank : F → L) (edgeMap : List F) (i j : Nat) : Prop :=
  ∃ a b, edgeMap[i]? = some a ∧ edgeMap[j]? = some b
    ∧ (rank b < rank a ∨ rank a = rank b ∧ i < j)

/-- Sample `p` comes before sample `q`: by pixel, and inside a pixel by channel. -/
def SampleBefore (rank : F → L) (edgeMap : List F) (p q : Nat) : Prop :=
  PixelBefore rank edgeMap (p / 3) (q / 3) ∨ p / 3 = q / 3 ∧ p < q

theorem pixelBefore_asymm {rank : F → L} {edgeMap : List F} (i j : Nat)
    (h : PixelBefore rank edgeMap i j) : ¬ PixelBefore rank edgeMap j i := by
  intro h'
  obtain ⟨a, b, ha, hb, hab⟩ := h
  obtain ⟨b', a', hb', ha', hba⟩ := h'
  cases ha.symm.trans ha'
  cases hb.symm.trans hb'
  rcases hab with hlt | ⟨heq, hij⟩
  · rcases hba with hlt' | ⟨heq', -⟩
    · exact lt_asymm hlt hlt'
    · exact ne_of_lt hlt heq'
  · rcases hba with hlt' | ⟨-, hji⟩
    · exact ne_of_lt hlt' heq
    · omega

theorem pixelBefore_irrefl {rank : F → L} {edgeMap : List F} (i : Nat) :
    ¬ PixelBefore rank edgeMap i i := fun h => pixelBefore_asymm i i h h

theorem sampleBefore_asymm {rank : F → L} {edgeMap : List F} (p q : Nat)
    (h : SampleBefore rank edgeMap p q) : ¬ SampleBefore rank edgeMap q p := by
  intro h'
  rcases h with hpx | ⟨heq, hpq⟩
  · rcases h' with hpx' | ⟨heq', -⟩
    · exact pixelBefore_asymm _ _ hpx hpx'
    · rw [heq'] at hpx
      exact pixelBefore_irrefl _ hpx
  · rcases h' with hpx' | ⟨-, hqp⟩
    · rw [heq] at hpx'
      exact pixelBefore_irrefl _ hpx'
    · omega

/-- What the comparator of `priorityPositions` looks at: the rank of the magnitude, the index. -/
def comparePixels (a b : L × Nat) : Ordering :=
  compareLex (fun a b => compareOn Prod.fst b a) (compareOn Prod.snd) a b

instance : Std.TransCmp (comparePixels : L × Nat → L × Nat → Ordering) :=
  inferInstanceAs (Std.TransCmp (compareLex (fun a b => compareOn Prod.fst b a)
    (compareOn Prod.snd)))

theorem comparePixels_eq_lt {a b : L × Nat} :
    comparePixels a b = .lt ↔ b.1 < a.1 ∨ a.1 = b.1 ∧ a.2 < b.2 := by
  rw [comparePixels, compareLex, Ordering.then_eq_lt, compareOn, compareOn, compare_lt_iff_lt,
    compare_eq_iff_eq, compare_lt_iff_lt, eq_comm (a := b.1)]

instance : Std.LawfulEqCmp (comparePixels : L × Nat → L × Nat → Ordering) where
  compare_self := Std.ReflCmp.compare_self
  eq_of_compare {a b} h := by
    rw [comparePixels, compareLex, Ordering.then_eq_eq, compareOn, compareOn, compare_eq_iff_eq,
      compare_eq_iff_eq] at h
    exact Prod.ext h.1.symm h.2

/-- `partial_cmp` orders the entries of the map linearly, by `rank`. -/
def LinearBy [Scalar F] (rank : F → L) (edgeMap : List F) : Prop :=
  ∀ a ∈ edgeMap, ∀ b ∈ edgeMap, Scalar.partialCmp a b = some (compare (rank a) (rank b))

/-- Exact magnitudes are ordered by themselves. -/
theorem linearBy_rat (edgeMap : List ℚ) : LinearBy id edgeMap := by
  intro a _ b _
  refine congrArg some ?_
  by_cases hlt : a < b
  · rw [if_pos hlt]
    exact (compare_lt_iff_lt.mpr hlt).symm
  · rw [if_neg hlt]
    by_cases hgt : b < a
    · rw [if_pos hgt]
      exact (compare_gt_iff_gt.mpr hgt).symm
    · rw [if_neg hgt]
      exact (compare_eq_iff_eq.mpr (le_antisymm (not_lt.mp hgt) (not_lt.mp hlt))).symm

/-- The sorted pixels, strictly by falling magnitude and then by index. -/
theorem sortedPixels_pairwise [Scalar F] {rank : F → L} {edgeMap : List F}
    (h : LinearBy rank edgeMap) :
    (sortBy EdgeAdaptiveLsb.comparePriority edgeMap.zipIdx).Pairwise fun a b =>
      PixelBefore rank edgeMap a.2 b.2 := by
  have hcmp : ∀ a ∈ edgeMap.zipIdx, ∀ b ∈ edgeMap.zipIdx, EdgeAdaptiveLsb.comparePriority a b
      = comparePixels (rank a.1, a.2) (rank b.1, b.2) := by
    intro a ha b hb
    rw [EdgeAdaptiveLsb.comparePriority, h _ (List.fst_mem_of_mem_zipIdx hb) _
      (List.fst_mem_of_mem_zipIdx ha)]
    rfl
  -- no index occurs twice, so no two of the pairs compared are equal
  have hnodup : (edgeMap.zipIdx.map fun mi => (rank mi.1, mi.2)).Nodup := by
    refine List.Nodup.of_map Prod.snd ?_
    rw [List.map_map]
    change (edgeMap.zipIdx.map Prod.snd).Nodup
    rw [List.zipIdx_map_snd]
    exact List.nodup_range'
  have hsorted : (sortBy comparePixels (edgeMap.zipIdx.map fun mi => (rank mi.1, mi.2))).Pairwise
      fun a b => comparePixels a b = .lt := sortBy_pairwise_lt hnodup
  rw [← sortBy_map hcmp, List.pairwise_map] at hsorted
  refine List.Pairwise.imp_of_mem (fun {a b} ha hb hab => ?_) hsorted
  have hentry : ∀ mi ∈ sortBy EdgeAdaptiveLsb.comparePriority edgeMap.zipIdx,
      edgeMap[mi.2]? = some mi.1 := fun mi hmi =>
    List.mem_zipIdx_iff_getElem?.mp ((sortBy_perm _ _).mem_iff.mp hmi)
  exact ⟨a.1, b.1, hentry a ha, hentry b hb, comparePixels_eq_lt.mp hab⟩

theorem pixelPositions_sorted (channels : ChannelMask) (px : Nat) :
    (EdgeAdaptiveLsb.pixelPositions channels px).Pairwise (· < ·) := by
  rw [EdgeAdaptiveLsb.pixelPositions, List.pairwise_map]
  exact (List.pairwise_lt_range.filter _).imp fun h => Nat.add_lt_add_left h _

/-- Flattened to their channels, sorted pixels give sorted samples. -/
theorem flatten_sorted {rank : F → L} {edgeMap : List F} {channels : ChannelMask}
    {pixels : List (F × Nat)}
    (h : pixels.Pairwise fun a b => PixelBefore rank edgeMap a.2 b.2) :
    (pixels.flatMap fun mp => EdgeAdaptiveLsb.pixelPositions channels mp.2).Pairwise
      (SampleBefore rank edgeMap) := by
  rw [List.pairwise_flatMap]
  constructor
  · -- inside a pixel the channels ascend
    intro mp _
    refine List.Pairwise.imp_of_mem (fun {p q} hp hq hpq => Or.inr ⟨?_, hpq⟩)
      (pixelPositions_sorted channels mp.2)
    rw [(mem_pixelPositions.mp hp).1, (mem_pixelPositions.mp hq).1]
  · -- between two pixels the samples follow them
    refine h.imp fun {a b} hab p hp q hq => Or.inl ?_
    rwa [(mem_pixelPositions.mp hp).1, (mem_pixelPositions.mp hq).1]

/-- **The edge-adaptive list is the sequential one, arranged by magnitude.** -/
theorem priorityOrder_arranges [Scalar F] {rank : F → L} {edgeMap : List F}
    (h : LinearBy rank edgeMap) (params : EmbedParams) :
    Arranges (SampleBefore rank edgeMap) (sequentialOrder (edgeMap.length * 3) params)
      (priorityOrder edgeMap params) :=
  arranges_of_sorted sampleBefore_asymm (priorityOrder_perm edgeMap params)
    (flatten_sorted (sortedPixels_pairwise h))

end Magnitudes

/-! ## By score -/

section Scores

variable (hmac : Hmac) (key : Key)

/-- The score of a sample. -/
def placementScore (i : Nat) : Key :=
  hmac key.toList (utf8 "stegosafe-placement-v1:" ++ Words.toBe 8 i)

/-- Sample `i` comes before sample `j`: it has the lower score, or the same and the lower index. -/
def ScoreBefore (i j : Nat) : Prop :=
  compare (placementScore hmac key i).toList (placementScore hmac key j).toList = .lt
    ∨ placementScore hmac key i = placementScore hmac key j ∧ i < j

variable {hmac key}

theorem compareScored_eq_lt {a b : Key × Nat} :
    LsbRandomHmac.compareScored a b = .lt ↔
      compare a.1.toList b.1.toList = .lt ∨ a.1 = b.1 ∧ a.2 < b.2 := by
  have hkey : compare a.1.toList b.1.toList = .eq ↔ a.1 = b.1 := by
    rw [Std.LawfulEqOrd.compare_eq_iff_eq, Vector.toList_inj]
  unfold LsbRandomHmac.compareScored
  rw [← hkey, ← compare_lt_iff_lt (a := a.2)]
  cases compare a.1.toList b.1.toList <;> simp

/-- `compareScored` as the library's lexicographic comparator. -/
theorem compareScored_eq : LsbRandomHmac.compareScored
    = compareLex (compareOn fun a => a.1.toList) (compareOn Prod.snd) := by
  funext a b
  rw [LsbRandomHmac.compareScored, compareLex, compareOn, compareOn]
  cases compare a.1.toList b.1.toList <;> rfl

instance : Std.TransCmp LsbRandomHmac.compareScored := by
  rw [compareScored_eq]
  infer_instance

instance : Std.LawfulEqCmp LsbRandomHmac.compareScored where
  compare_self := Std.ReflCmp.compare_self
  eq_of_compare {a b} h := by
    rw [compareScored_eq, compareLex, Ordering.then_eq_eq, compareOn, compareOn,
      Std.LawfulEqOrd.compare_eq_iff_eq, Std.LawfulEqOrd.compare_eq_iff_eq] at h
    exact Prod.ext (Vector.toList_inj.mp h.1) h.2

theorem scoreBefore_asymm (i j : Nat) (h : ScoreBefore hmac key i j) :
    ¬ ScoreBefore hmac key j i := by
  rw [ScoreBefore, ← compareScored_eq_lt (a := (_, i)) (b := (_, j))] at h
  rw [ScoreBefore, ← compareScored_eq_lt (a := (_, j)) (b := (_, i))]
  intro h'
  exact Std.OrientedCmp.not_lt_of_lt h h'

theorem mem_scored {n : Nat} {si : Key × Nat} (h : si ∈ LsbRandomHmac.scored hmac key n) :
    si.1 = placementScore hmac key si.2 := by
  obtain ⟨i, -, rfl⟩ := List.mem_map.mp h
  rfl

/-- **The keyed list is all samples, arranged by score.** -/
theorem keyedOrder_arranges (n : Nat) :
    Arranges (ScoreBefore hmac key) (List.range n) (keyedOrder hmac key n) := by
  refine arranges_of_sorted scoreBefore_asymm (keyedOrder_perm hmac key n) ?_
  have hnodup : (LsbRandomHmac.scored hmac key n).Nodup :=
    List.nodup_range.map fun _ _ h => (Prod.mk.inj h).2
  rw [keyedOrder, List.pairwise_map]
  refine List.Pairwise.imp_of_mem (fun {a b} ha hb hab => ?_) (sortBy_pairwise_lt hnodup)
  rw [ScoreBefore, ← mem_scored ((sortBy_perm _ _).mem_iff.mp ha),
    ← mem_scored ((sortBy_perm _ _).mem_iff.mp hb)]
  exact compareScored_eq_lt.mp hab

end Scores

/-! ## The two lists the techniques walk -/

theorem sequentialPositions_eq {width height : Nat} (harea : width * height < 2 ^ 32)
    (params : EmbedParams) :
    LsbSequential.positions width height params
      = .ok (sequentialOrder (width * height * 3) params) := by
  rw [LsbSequential.positions, mul_of_lt (by omega), ok_bind, mul_of_lt (by omega), ok_bind,
    sequentialOrder]

/--
**Position orders are exact and duplicate-free.**

The edge-adaptive list rearranges the sequential one, in the one order of falling
magnitude, pixel index and channel; the keyed one is cut from the one order of
score and index.
-/
theorem position_orders {F L : Type} [Scalar F] [LinearOrder L] (hmac : Hmac)
    (width height : Nat) (params : EmbedParams) (edgeMap : List F) (rank : F → L)
    (harea : width * height < 2 ^ 32) (hlen : edgeMap.length = width * height)
    (hlinear : LinearBy rank edgeMap) :
    (∃ sequential priority,
      LsbSequential.positions width height params = .ok sequential
        ∧ sequential.Pairwise (· < ·)
        ∧ (∀ i, i ∈ sequential ↔
            i < 3 * width * height ∧ params.channels.includesChannel (i % 3) = true)
        ∧ EdgeAdaptiveLsb.priorityPositions edgeMap width height params = .ok priority
        ∧ Arranges (SampleBefore rank edgeMap) sequential priority)
      ∧ ∀ (key : Key) (channelCount : Nat), ∃ order,
          Arranges (ScoreBefore hmac key) (List.range channelCount) order
            ∧ (∀ needed, LsbRandomHmac.placementPositions hmac key channelCount needed
                = if needed > channelCount then fail .payloadTooLarge
                  else .ok (order.take needed))
            ∧ ∀ needed needed' ps ps', needed ≤ needed' →
                LsbRandomHmac.placementPositions hmac key channelCount needed = .ok ps →
                LsbRandomHmac.placementPositions hmac key channelCount needed' = .ok ps' →
                ps <+: ps' := by
  constructor
  · refine ⟨_, _, sequentialPositions_eq harea params, List.pairwise_lt_range.filter _,
      fun i => ?_, priorityPositions_of_length harea hlen params, ?_⟩
    · rw [mem_sequentialOrder, Nat.mul_comm (width * height), ← Nat.mul_assoc]
    · rw [← hlen]
      exact priorityOrder_arranges hlinear params
  · intro key channelCount
    have hplace : ∀ needed, LsbRandomHmac.placementPositions hmac key channelCount needed
        = if needed > channelCount then fail .payloadTooLarge
          else .ok ((keyedOrder hmac key channelCount).take needed) := by
      intro needed
      by_cases h : needed > channelCount
      · rw [LsbRandomHmac.placementPositions, if_pos h, if_pos h]
      · rw [placementPositions_eq hmac (Nat.not_lt.mp h), if_neg h]
    refine ⟨_, keyedOrder_arranges channelCount, hplace, fun needed needed' ps ps' hle h h' => ?_⟩
    rw [hplace] at h h'
    split at h
    · cases h
    · split at h'
      · cases h'
      · cases h
        cases h'
        exact List.take_prefix_take_left hle

/-- Two pixels of one row, the second the stronger edge. -/
theorem position_orders_pair : ∃ priority,
    EdgeAdaptiveLsb.priorityPositions [(1 : ℚ), 2] 2 1 (.legacy (Vector.replicate 32 0))
        = .ok priority
      ∧ ∀ other, other.Perm priority → other.Pairwise (SampleBefore id [(1 : ℚ), 2]) →
          other = priority := by
  obtain ⟨⟨_, priority, -, -, -, hpriority, harranges⟩, -⟩ :=
    position_orders (fun _ _ => Vector.replicate 32 0) 2 1 (.legacy (Vector.replicate 32 0))
      [(1 : ℚ), 2] id (by decide) rfl (linearBy_rat _)
  exact ⟨priority, hpriority,
    fun other hperm => harranges.unique other (hperm.trans harranges.perm)⟩

end Stegosafe.Proof
