import Kyro.Proof.Sampler.Candidates
import Mathlib.Data.Rat.Cast.Order

/-!
# Draws from a distribution

The loops of `sample_token` on a list of numbers are walks along weights and the nucleus of them, so
each branch draws from the distribution of the candidates. A draw above zero, and every draw from a
nucleus, takes a token that is possible.
-/

namespace Kyro.Sampler

open ExactFloat Categorical

variable {K : Type}

/-! ### The loops on a distribution -/

theorem mergeSort_asEntries [LinearOrder K] (ws : List (ℕ × K)) :
    (asEntries ws).mergeSort (fun a b => compareDown a b != some .gt) =
      asEntries (descending ws) := by
  refine (List.map_mergeSort fun v _ w _ => ?_).symm
  have hcompare : compareDown (v.1, finite v.2) (w.1, finite w.2) = some (compare w.2 v.2) := rfl
  rw [hcompare]
  rcases lt_trichotomy w.2 v.2 with hlt | heq | hgt
  · rw [decide_eq_true hlt.le, compare_lt_iff_lt.mpr hlt]
    rfl
  · rw [decide_eq_true heq.le, compare_eq_iff_eq.mpr heq]
    rfl
  · rw [decide_eq_false (not_le.mpr hgt), compare_gt_iff_gt.mpr hgt]
    rfl

variable [Field K] [LinearOrder K]

theorem pick_asEntries (r : K) (ws : List (ℕ × K)) :
    pick (finite r) (asEntries ws) = walk r ws := by
  induction ws generalizing r with
  | nil => rfl
  | cons w ws ih =>
      have hstep : pick (finite r) (asEntries (w :: ws)) =
          if finite r - finite w.2 ≤ 0 then some w.1
          else pick (finite r - finite w.2) (asEntries ws) := rfl
      rw [hstep, walk, finite_sub_finite, ih]
      exact if_congr finite_le_finite rfl rfl

theorem cutOff_asEntries (p c : K) (ws : List (ℕ × K)) :
    cutOff (finite p) (finite c) (asEntries ws) = Categorical.cutOff p c ws := by
  induction ws generalizing c with
  | nil => rfl
  | cons w ws ih =>
      have hstep : cutOff (finite p) (finite c) (asEntries (w :: ws)) =
          if finite p < finite (c + w.2) then 1
          else cutOff (finite p) (finite (c + w.2)) (asEntries ws) + 1 := rfl
      rw [hstep, Categorical.cutOff, ih]
      exact if_congr finite_lt_finite rfl rfl

/-- The front that the nucleus branch draws from. -/
theorem take_cutOff_asEntries (p : K) (ws : List (ℕ × K)) :
    (asEntries (descending ws)).take (cutOff (finite p) 0 (asEntries (descending ws))) =
      asEntries (nucleus p ws) := by
  have hcut := cutOff_asEntries p 0 (descending ws)
  have hzero : (0 : ExactFloat K) = finite 0 := rfl
  rw [hzero, hcut]
  exact List.map_take.symm

theorem sampleNucleus_nil (draw : Draw K) (topP : ℚ) :
    sampleNucleus draw topP [] = .error .index := by
  rw [sampleNucleus, if_pos (comparable_of_ne_nan fun _ hentry => by cases hentry),
    List.mergeSort_nil]
  rfl

/-! ### The candidates -/

section Candidates

variable (sampler : Sampler K) (temperature : ℚ) (topK : Option ℕ) (logits : List (ExactFloat K))

/-- The scaled logits that `top_k` keeps, with their ids. -/
def candidates : List (Entry K) :=
  sampler.selected topK ((logits.map (· / finite (temperature : K))).mapIdx Prod.mk)

/-- The probabilities of the candidates. -/
def distribution : List (ℕ × K) :=
  probabilities sampler.exp (sampler.candidates temperature topK logits)

end Candidates

theorem map_snd_mapIdx {α : Type} (xs : List α) : (xs.mapIdx Prod.mk).map (·.2) = xs := by
  apply List.ext_getElem?
  intro i
  rw [List.getElem?_map, List.getElem?_mapIdx]
  cases xs[i]? <;> rfl

theorem map_fst_mapIdx {α : Type} (xs : List α) :
    (xs.mapIdx Prod.mk).map (·.1) = List.range xs.length := by
  apply List.ext_getElem
  · simp
  · intro i hi _
    simp

theorem candidates_nodup (sampler : Sampler K) (temperature : ℚ) (topK : Option ℕ)
    (logits : List (ExactFloat K)) :
    ((sampler.candidates temperature topK logits).map (·.1)).Nodup := by
  have hall : (((logits.map (· / finite (temperature : K))).mapIdx Prod.mk).map (·.1)).Nodup := by
    rw [map_fst_mapIdx]
    exact List.nodup_range
  rw [candidates]
  cases topK with
  | none => exact hall
  | some k =>
      rw [selected]
      split
      · have hperm := (sampler.select_perm k
          ((logits.map (· / finite (temperature : K))).mapIdx Prod.mk)).map (·.1)
        exact (hperm.nodup_iff.mpr hall).sublist ((List.take_sublist ..).map _)
      · exact hall

theorem map_fst_distribution (sampler : Sampler K) (temperature : ℚ) (topK : Option ℕ)
    (logits : List (ExactFloat K)) : (sampler.distribution temperature topK logits).map (·.1) =
      (sampler.candidates temperature topK logits).map (·.1) :=
  map_fst_probabilities sampler.exp _

section Ids

variable (sampler : Sampler K) {temperature : ℚ} {topK : Option ℕ} {n : ℕ}
  {logits : List (ExactFloat K)}

theorem exists_candidate {w : ℕ × K} (hw : w ∈ sampler.distribution temperature topK logits) :
    ∃ entry ∈ sampler.candidates temperature topK logits, entry.1 = w.1 := by
  have hid : w.1 ∈ (sampler.distribution temperature topK logits).map (·.1) :=
    List.mem_map_of_mem hw
  rw [map_fst_distribution] at hid
  exact List.mem_map.mp hid

theorem distribution_lt (h : Weighted n (sampler.candidates temperature topK logits)) {w : ℕ × K}
    (hw : w ∈ sampler.distribution temperature topK logits) : w.1 < n := by
  obtain ⟨entry, hentry, heq⟩ := exists_candidate sampler hw
  exact heq ▸ h.lt entry hentry

/-- An id has one probability. -/
theorem distribution_unique {v w : ℕ × K}
    (hv : v ∈ sampler.distribution temperature topK logits)
    (hw : w ∈ sampler.distribution temperature topK logits) (heq : v.1 = w.1) : v = w := by
  have hnodup := candidates_nodup sampler temperature topK logits
  rw [← map_fst_distribution] at hnodup
  exact List.inj_on_of_nodup_map hnodup hv hw heq

end Ids

theorem sampleToken_of_kept {sampler : Sampler K} {temperature : ℚ} {topK : Option ℕ}
    {logits : List (ExactFloat K)} (hne : logits ≠ []) (htemperature : 0 < temperature)
    {kept : List (Entry K)}
    (hkept : keepTopK sampler topK ((logits.map (· / finite (temperature : K))).mapIdx Prod.mk) =
      .ok kept) (draw : Draw K) (topP : ℚ) :
    sampler.sampleToken draw temperature topP topK logits =
      if topP < 1 then
        sampleNucleus draw topP (softmax sampler.exp kept) >>= fun id => .ok (UInt32.ofNat id)
      else .ok (UInt32.ofNat (sampleAll draw (softmax sampler.exp kept))) := by
  rw [sampleToken, if_neg (by rw [List.isEmpty_iff]; exact hne), if_neg (not_le.mpr htemperature)]
  dsimp only
  rw [hkept]
  rfl

variable [IsStrictOrderedRing K]

/-! ### The draws -/

/-- The branch for `top_p < 1.0` draws a possible token from a nucleus. -/
theorem sampleNucleus_asEntries (draw : Draw K) (topP : ℚ) {ws : List (ℕ × K)}
    (hpossible : ∃ w ∈ ws, 0 < w.2) (hnonneg : ∀ w ∈ ws, 0 ≤ w.2) :
    ∃ w ∈ nucleus (topP : K) ws, 0 < w.2 ∧
      sampleNucleus draw topP (asEntries ws) = .ok w.1 := by
  have hne : ws ≠ [] := by
    obtain ⟨w, hw, _⟩ := hpossible
    exact List.ne_nil_of_mem hw
  have hnucleus := isNucleus_nucleus (topP : K) hne
  have hcomparable : Comparable (asEntries ws) := by
    apply comparable_of_ne_nan
    intro entry hentry
    obtain ⟨w, _, rfl⟩ := List.mem_map.mp hentry
    exact fun hnan => by cases hnan
  have hmass : 0 ≤ mass (nucleus (topP : K) ws) := by
    apply List.sum_nonneg
    intro x hx
    obtain ⟨w, hw, rfl⟩ := List.mem_map.mp hx
    exact hnonneg w (mem_of_mem_nucleus hw)
  obtain ⟨w, hw, hwalk, hpos⟩ := hnucleus.exists_walk hpossible
    (mul_nonneg draw.unit_nonneg hmass) (mul_le_of_le_one_left hmass draw.unit_lt_one.le)
  have hmul : ∀ a b : K, finite a * finite b = finite (a * b) := fun _ _ => rfl
  refine ⟨w, hw, hpos, ?_⟩
  rw [sampleNucleus, if_pos hcomparable]
  dsimp only
  rw [mergeSort_asEntries, take_cutOff_asEntries, sum_asEntries, hmul, pick_asEntries, hwalk]

/-- The other branch draws a possible token for a draw above zero. -/
theorem sampleAll_asEntries (draw : Draw K) {ws : List (ℕ × K)} (hmass : mass ws = 1)
    (hpos : 0 < draw.unit) : ∃ w ∈ ws, 0 < w.2 ∧ sampleAll draw (asEntries ws) = w.1 := by
  obtain ⟨w, hw, hwalk, hwpos⟩ := exists_walk_pos hpos (hmass.symm ▸ draw.unit_lt_one.le)
  refine ⟨w, hw, hwpos, ?_⟩
  rw [sampleAll, pick_asEntries, hwalk]

/-- And the first token for the draw zero. -/
theorem sampleAll_zero {draw : Draw K} (hzero : draw.unit = 0) {w : ℕ × K} (hw : 0 ≤ w.2)
    (ws : List (ℕ × K)) : sampleAll draw (asEntries (w :: ws)) = w.1 := by
  rw [sampleAll, hzero, pick_asEntries, walk_cons_of_le hw]

/-- Every draw takes a token of the distribution. -/
theorem sampleAll_mem (draw : Draw K) {ws : List (ℕ × K)} (hnonneg : ∀ w ∈ ws, 0 ≤ w.2)
    (hmass : mass ws = 1) : ∃ w ∈ ws, sampleAll draw (asEntries ws) = w.1 := by
  rcases draw.unit_nonneg.eq_or_lt with hzero | hpos
  · cases ws with
    | nil => exact absurd hmass zero_ne_one
    | cons w ws =>
        exact ⟨w, List.mem_cons_self, sampleAll_zero hzero.symm (hnonneg w List.mem_cons_self) ws⟩
  · obtain ⟨w, hw, _, hsample⟩ := sampleAll_asEntries draw hmass hpos
    exact ⟨w, hw, hsample⟩

section Branches

variable (sampler : Sampler K) {temperature : ℚ} {topK : Option ℕ} {n : ℕ}
  {logits : List (ExactFloat K)}

theorem weighted_scaled (h : Masked n logits) (htemperature : 0 < temperature) :
    Weighted n ((logits.map (· / finite (temperature : K))).mapIdx Prod.mk) :=
  weighted_mapIdx (masked_div h (Rat.cast_pos.mpr htemperature))

/-- The branches of `sample_token` on the distribution. -/
theorem sampleToken_eq (h : Masked n logits) (htemperature : 0 < temperature)
    (htopK : topK ≠ some 0) (draw : Draw K) (topP : ℚ) :
    sampler.sampleToken draw temperature topP topK logits =
      if topP < 1 then
        sampleNucleus draw topP (asEntries (sampler.distribution temperature topK logits)) >>=
          fun id => .ok (UInt32.ofNat id)
      else .ok (UInt32.ofNat
        (sampleAll draw (asEntries (sampler.distribution temperature topK logits)))) := by
  have hscaled := weighted_scaled h htemperature
  rw [distribution, candidates, ← softmax_eq sampler (selected_weighted sampler hscaled htopK)]
  exact sampleToken_of_kept h.ne_nil htemperature (keepTopK_eq sampler hscaled topK) draw topP

end Branches

end Kyro.Sampler
