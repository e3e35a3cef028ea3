import Kyro.Lib.Categorical
import Mathlib.MeasureTheory.Measure.Lebesgue.Basic

/-!
# Drawing with a uniform number

A number between zero and one, spread over the mass of weighted values, falls into the piece of each
value with the share of its weight.
-/

namespace Categorical

open MeasureTheory

variable {ι : Type*}

section Walk

variable {K : Type*} [AddCommGroup K]

theorem mass_append (ws vs : List (ι × K)) : mass (ws ++ vs) = mass ws + mass vs := by
  rw [mass, List.map_append, List.sum_append]
  rfl

variable [LinearOrder K]

theorem mem_of_walk {r : K} {ws : List (ι × K)} {i : ι} (h : walk r ws = some i) :
    i ∈ ws.map (·.1) := by
  induction ws generalizing r with
  | nil => cases h
  | cons w ws ih =>
      rw [walk] at h
      split at h
      · cases h
        exact List.mem_cons_self
      · exact List.mem_cons_of_mem _ (ih h)

variable [IsOrderedAddMonoid K]

theorem mass_nonneg {ws : List (ι × K)} (h : ∀ w ∈ ws, 0 ≤ w.2) : 0 ≤ mass ws := by
  refine List.sum_nonneg fun x hx => ?_
  obtain ⟨w, hw, rfl⟩ := List.mem_map.mp hx
  exact h w hw

/-- The piece of a value. -/
theorem walk_eq_iff {front back : List (ι × K)} {w : ι × K}
    (hnodup : ((front ++ w :: back).map (·.1)).Nodup) (hnonneg : ∀ v ∈ front, 0 ≤ v.2) {r : K} :
    (0 < r ∧ walk r (front ++ w :: back) = some w.1) ↔
      (0 < r ∧ mass front < r ∧ r ≤ mass front + w.2) := by
  refine and_congr_right fun hr => ?_
  induction front generalizing r with
  | nil =>
      have hback : w.1 ∉ back.map (·.1) := (List.nodup_cons.mp hnodup).1
      rw [List.nil_append, walk, mass_nil, zero_add]
      split
      · rename_i hle
        exact iff_of_true rfl ⟨hr, sub_nonpos.mp hle⟩
      · rename_i hlt
        exact iff_of_false (fun h => hback (mem_of_walk h)) fun h => hlt (sub_nonpos.mpr h.2)
  | cons v front ih =>
      rw [List.cons_append, List.map_cons, List.nodup_cons] at hnodup
      have hother : v.1 ≠ w.1 := by
        intro heq
        apply hnodup.1
        rw [heq]
        exact List.mem_map_of_mem (List.mem_append_right _ List.mem_cons_self)
      have hfront : ∀ u ∈ front, 0 ≤ u.2 := fun u hu => hnonneg u (.tail v hu)
      rw [List.cons_append, walk, mass_cons]
      split
      · rename_i hle
        refine iff_of_false (fun h => hother (Option.some.inj h)) fun h => ?_
        have hmass := mass_nonneg hfront
        exact absurd h.1 (not_lt.mpr ((sub_nonpos.mp hle).trans (le_add_of_nonneg_right hmass)))
      · rename_i hlt
        rw [ih hnodup.2 hfront (not_le.mp hlt), lt_sub_iff_add_lt', sub_le_iff_le_add', add_assoc]

end Walk

/-- The draws that take a value have its share of the mass. -/
theorem volume_walk {front back : List (ι × ℝ)} {w : ι × ℝ}
    (hnodup : ((front ++ w :: back).map (·.1)).Nodup)
    (hnonneg : ∀ v ∈ front ++ w :: back, 0 ≤ v.2) (hmass : 0 < mass (front ++ w :: back)) :
    volume {u : ℝ | 0 ≤ u ∧ u < 1 ∧
        walk (u * mass (front ++ w :: back)) (front ++ w :: back) = some w.1} =
      ENNReal.ofReal (w.2 / mass (front ++ w :: back)) := by
  have hfront : ∀ v ∈ front, 0 ≤ v.2 := fun v hv => hnonneg v (List.mem_append_left _ hv)
  have hbefore : 0 ≤ mass front := mass_nonneg hfront
  have htotal : mass front + w.2 ≤ mass (front ++ w :: back) := by
    have hback : 0 ≤ mass back :=
      mass_nonneg fun v hv => hnonneg v (List.mem_append_right _ (.tail w hv))
    rw [mass_append, mass_cons, ← add_assoc]
    exact le_add_of_nonneg_right hback
  set m := mass (front ++ w :: back) with hm
  -- up to its ends, the set is the piece of the value, scaled to the unit interval
  have hpiece : {u : ℝ | 0 ≤ u ∧ u < 1 ∧ walk (u * m) (front ++ w :: back) = some w.1} =ᵐ[volume]
      Set.Ioc (mass front / m) ((mass front + w.2) / m) := by
    refine Filter.eventuallyEq_set.mpr ?_
    filter_upwards [measure_eq_zero_iff_ae_notMem.mp (Real.volume_singleton (a := 0)),
      measure_eq_zero_iff_ae_notMem.mp (Real.volume_singleton (a := 1))] with u hzero hone
    have hiff := walk_eq_iff hnodup hfront (r := u * m)
    rw [Set.mem_Ioc, div_lt_iff₀ hmass, le_div_iff₀ hmass]
    constructor
    · rintro ⟨hnonneg, -, hwalk⟩
      have hpos : 0 < u * m := mul_pos (lt_of_le_of_ne hnonneg (Ne.symm hzero)) hmass
      exact (hiff.mp ⟨hpos, hwalk⟩).2
    · rintro ⟨hlt, hle⟩
      have hpos : 0 < u * m := hbefore.trans_lt hlt
      have hunit : u ≤ 1 := by
        have hscaled : u * m ≤ 1 * m := (hle.trans htotal).trans_eq (one_mul m).symm
        exact le_of_mul_le_mul_right hscaled hmass
      exact ⟨(pos_of_mul_pos_left hpos hmass.le).le, lt_of_le_of_ne hunit hone,
        (hiff.mpr ⟨hpos, hlt, hle⟩).2⟩
  rw [measure_congr hpiece, Real.volume_Ioc, ← sub_div, add_sub_cancel_left]

/-- No draw takes a value that is not listed. -/
theorem volume_walk_of_not_mem {ws : List (ι × ℝ)} {i : ι} (h : i ∉ ws.map (·.1)) :
    volume {u : ℝ | 0 ≤ u ∧ u < 1 ∧ walk (u * mass ws) ws = some i} = 0 := by
  rw [measure_eq_zero_iff_ae_notMem]
  exact Filter.Eventually.of_forall fun u hu => h (mem_of_walk hu.2.2)

end Categorical
