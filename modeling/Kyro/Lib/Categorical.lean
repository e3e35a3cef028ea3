import Mathlib.Algebra.BigOperators.Group.List.Basic
import Mathlib.Algebra.BigOperators.Ring.List
import Mathlib.Algebra.Order.BigOperators.Group.List
import Mathlib.Algebra.Order.Field.Basic

/-!
# Drawing from a list of weights

Weighted values divide the interval from zero to their mass, one piece for each value. A walk along
the list takes the value whose piece ends at or behind a given number: for a number above zero that
is a value with a positive weight, and for zero it is the first value, whatever its weight. A
nucleus is the shortest front of a descending arrangement whose mass exceeds a bound.
-/

namespace Categorical

variable {ι K : Type*}

section Order

variable [LinearOrder K]

/-- A descending arrangement, stable. -/
def descending (ws : List (ι × K)) : List (ι × K) := ws.mergeSort fun v w => decide (w.2 ≤ v.2)

theorem descending_pairwise (ws : List (ι × K)) :
    (descending ws).Pairwise fun v w => w.2 ≤ v.2 := by
  have htrans : ∀ u v w : ι × K, decide (v.2 ≤ u.2) = true → decide (w.2 ≤ v.2) = true →
      decide (w.2 ≤ u.2) = true := by
    intro u v w huv hvw
    exact decide_eq_true ((of_decide_eq_true hvw).trans (of_decide_eq_true huv))
  have htotal : ∀ v w : ι × K, (decide (w.2 ≤ v.2) || decide (v.2 ≤ w.2)) = true := by
    intro v w
    rw [Bool.or_eq_true, decide_eq_true_eq, decide_eq_true_eq]
    exact le_total ..
  exact (List.pairwise_mergeSort htrans htotal ws).imp of_decide_eq_true

end Order

variable [AddCommGroup K]

/-- The sum of the weights. -/
def mass (ws : List (ι × K)) : K := (ws.map (·.2)).sum

@[simp] theorem mass_nil : mass ([] : List (ι × K)) = 0 := rfl

@[simp] theorem mass_cons (w : ι × K) (ws : List (ι × K)) : mass (w :: ws) = w.2 + mass ws := rfl

variable [LinearOrder K]

/-! ### Walks -/

/-- The first value at which the weights use up `r`. -/
def walk (r : K) : List (ι × K) → Option ι
  | [] => none
  | w :: ws => if r - w.2 ≤ 0 then some w.1 else walk (r - w.2) ws

theorem walk_cons_of_le [IsOrderedAddMonoid K] {r : K} {w : ι × K} (h : r ≤ w.2)
    (ws : List (ι × K)) : walk r (w :: ws) = some w.1 := if_pos (sub_nonpos.mpr h)

/-- The piece of the value that a walk takes. -/
theorem exists_walk [IsOrderedAddMonoid K] {r : K} (hpos : 0 < r) {ws : List (ι × K)}
    (hr : r ≤ mass ws) :
    ∃ front w back, ws = front ++ w :: back ∧ walk r ws = some w.1 ∧ mass front < r ∧
      r ≤ mass front + w.2 := by
  induction ws generalizing r with
  | nil => exact absurd hr (not_le.mpr hpos)
  | cons w ws ih =>
      by_cases hw : r ≤ w.2
      · exact ⟨[], w, ws, rfl, walk_cons_of_le hw ws, hpos, by rwa [mass_nil, zero_add]⟩
      · have hrest : 0 < r - w.2 := sub_pos.mpr (not_le.mp hw)
        have hle : r - w.2 ≤ mass ws := sub_le_iff_le_add'.mpr hr
        obtain ⟨front, v, back, rfl, hwalk, hbefore, hafter⟩ := ih hrest hle
        refine ⟨w :: front, v, back, rfl, ?_, ?_, ?_⟩
        · rw [walk, if_neg (not_le.mpr hrest), hwalk]
        · rw [mass_cons]
          exact lt_sub_iff_add_lt'.mp hbefore
        · rw [mass_cons, add_assoc]
          exact sub_le_iff_le_add'.mp hafter

/-- A walk to a number above zero takes a value that is possible. -/
theorem exists_walk_pos [IsOrderedAddMonoid K] {r : K} (hpos : 0 < r) {ws : List (ι × K)}
    (hr : r ≤ mass ws) : ∃ w ∈ ws, walk r ws = some w.1 ∧ 0 < w.2 := by
  obtain ⟨front, w, back, rfl, hwalk, hbefore, hafter⟩ := exists_walk hpos hr
  exact ⟨w, List.mem_append_right _ List.mem_cons_self, hwalk,
    pos_of_lt_add_right (hbefore.trans_le hafter)⟩

/-! ### Distributions -/

section Normalized

variable {F : Type*} [Field F]

/-- The weights in relation to their mass. -/
def normalized (ws : List (ι × F)) : List (ι × F) := ws.map fun w => (w.1, w.2 / mass ws)

theorem map_fst_normalized (ws : List (ι × F)) : (normalized ws).map (·.1) = ws.map (·.1) := by
  rw [normalized, List.map_map]
  rfl

theorem mass_normalized {ws : List (ι × F)} (h : mass ws ≠ 0) : mass (normalized ws) = 1 := by
  have hsum : mass (normalized ws) = (ws.map fun w => w.2 * (mass ws)⁻¹).sum := by
    rw [mass, normalized, List.map_map]
    exact congrArg List.sum (List.map_congr_left fun w _ => div_eq_mul_inv w.2 _)
  rw [hsum, List.sum_map_mul_right]
  exact mul_inv_cancel₀ h

end Normalized

/-! ### Nuclei -/

/-- How many values it takes for the mass to exceed `p`, all of them if it never does. -/
def cutOff (p c : K) : List (ι × K) → ℕ
  | [] => 0
  | w :: ws => if p < c + w.2 then 1 else cutOff p (c + w.2) ws + 1

/-- Every front short of the cut is within the bound, and the cut exceeds it or is the whole. -/
theorem cutOff_spec (p c : K) (ws : List (ι × K)) :
    (p < c + mass (ws.take (cutOff p c ws)) ∨ ws.length ≤ cutOff p c ws) ∧
      ∀ j, 0 < j → j < cutOff p c ws → c + mass (ws.take j) ≤ p := by
  induction ws generalizing c with
  | nil => exact ⟨Or.inr (Nat.le_refl 0), fun j _ hj => absurd hj (Nat.not_lt_zero j)⟩
  | cons w ws ih =>
      rw [cutOff]
      split
      · rename_i hexceeds
        refine ⟨Or.inl ?_, fun j hpos hj => absurd hpos (Nat.not_lt.mpr (Nat.le_of_lt_succ hj))⟩
        rwa [List.take_succ_cons, List.take_zero, mass_cons, mass_nil, add_zero]
      · rename_i hwithin
        obtain ⟨hcut, hshort⟩ := ih (c + w.2)
        refine ⟨?_, ?_⟩
        · rw [List.take_succ_cons, mass_cons, ← add_assoc, List.length_cons]
          exact hcut.imp_right Nat.succ_le_succ
        · intro j hpos hj
          obtain ⟨i, rfl⟩ := Nat.exists_eq_succ_of_ne_zero hpos.ne'
          rw [Nat.succ_eq_add_one, List.take_succ_cons, mass_cons, ← add_assoc]
          cases i with
          | zero =>
              rw [List.take_zero, mass_nil, add_zero]
              exact not_lt.mp hwithin
          | succ i => exact hshort _ i.succ_pos (Nat.lt_of_succ_lt_succ hj)

theorem cutOff_pos (p c : K) {ws : List (ι × K)} (h : ws ≠ []) : 0 < cutOff p c ws := by
  cases ws with
  | nil => exact absurd rfl h
  | cons w ws =>
      rw [cutOff]
      split <;> exact Nat.succ_pos _

/-- The shortest front, of at least one value, of a descending arrangement whose mass exceeds the
bound, or the whole arrangement if none does. -/
structure IsNucleus (p : K) (ws front : List (ι × K)) : Prop where
  ne_nil : front ≠ []
  arranged : ∃ back, (front ++ back).Perm ws ∧ (front ++ back).Pairwise (fun v w => w.2 ≤ v.2) ∧
    (p < mass front ∨ back = [])
  shortest : ∀ j, 0 < j → j < front.length → mass (front.take j) ≤ p

/-- The front that the walk over the descending arrangement cuts off. -/
def nucleus (p : K) (ws : List (ι × K)) : List (ι × K) :=
  (descending ws).take (cutOff p 0 (descending ws))

theorem mem_of_mem_nucleus {p : K} {ws : List (ι × K)} {w : ι × K} (hw : w ∈ nucleus p ws) :
    w ∈ ws := List.mem_mergeSort.mp (List.mem_of_mem_take hw)

theorem isNucleus_nucleus (p : K) {ws : List (ι × K)} (hne : ws ≠ []) :
    IsNucleus p ws (nucleus p ws) := by
  have hperm : (descending ws).Perm ws := List.mergeSort_perm ..
  have hsortedNe : descending ws ≠ [] := fun hnil => hne (List.perm_nil.mp (hnil ▸ hperm.symm))
  obtain ⟨hcut, hshort⟩ := cutOff_spec p 0 (descending ws)
  have happend : nucleus p ws ++ (descending ws).drop (cutOff p 0 (descending ws)) =
      descending ws := List.take_append_drop ..
  refine ⟨?_, ⟨_, happend.symm ▸ hperm, happend.symm ▸ descending_pairwise ws, ?_⟩, ?_⟩
  · rw [ne_eq, nucleus, List.take_eq_nil_iff, not_or]
    exact ⟨(cutOff_pos p 0 hsortedNe).ne', hsortedNe⟩
  · rw [zero_add] at hcut
    exact hcut.imp_right List.drop_eq_nil_of_le
  · intro j hpos hj
    rw [nucleus, List.length_take] at hj
    have hlt : j < cutOff p 0 (descending ws) := hj.trans_le (Nat.min_le_left ..)
    rw [nucleus, List.take_take, Nat.min_eq_left hlt.le, ← zero_add (mass _)]
    exact hshort j hpos hlt

variable {p : K} {ws front : List (ι × K)}

/-- The first value of a nucleus is one of the likeliest. -/
theorem IsNucleus.le_head (h : IsNucleus p ws front) {w : ι × K} {rest : List (ι × K)}
    (hfront : front = w :: rest) {v : ι × K} (hv : v ∈ ws) : v.2 ≤ w.2 := by
  obtain ⟨back, hperm, hsorted, _⟩ := h.arranged
  have hmem := hperm.mem_iff.mpr hv
  rw [hfront, List.cons_append] at hmem hsorted
  rcases List.mem_cons.mp hmem with rfl | hmem
  · exact le_refl _
  · exact (List.pairwise_cons.mp hsorted).1 v hmem

/-- A walk along a nucleus takes a value that is possible, also to zero. -/
theorem IsNucleus.exists_walk [IsOrderedAddMonoid K] (h : IsNucleus p ws front)
    (hpossible : ∃ w ∈ ws, 0 < w.2) {r : K} (hr : 0 ≤ r) (hle : r ≤ mass front) :
    ∃ w ∈ front, walk r front = some w.1 ∧ 0 < w.2 := by
  rcases hr.eq_or_lt with rfl | hpos
  · obtain ⟨w, rest, rfl⟩ := List.exists_cons_of_ne_nil h.ne_nil
    obtain ⟨v, hv, hvpos⟩ := hpossible
    have hwpos := hvpos.trans_le (h.le_head rfl hv)
    exact ⟨w, List.mem_cons_self, walk_cons_of_le hwpos.le rest, hwpos⟩
  · exact exists_walk_pos hpos hle

end Categorical
