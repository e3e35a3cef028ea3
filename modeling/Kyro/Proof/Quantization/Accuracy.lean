import Kyro.Proof.Quantization.Layout

/-!
# The accuracy of four-bit weights

The zero point is clamped to the codes, so the codes of a group reach from zero for weights of one
sign: they lose a weight that lies more than one step beyond the length of the group's scale.
-/

namespace Kyro.Quantization.Int4Linear

open Fill

/-! ### Groups of weights -/

/-- The largest difference of two weights. -/
def spread (weights : List ℚ) : ℚ :=
  (weights.flatMap fun a => weights.map fun b => a - b).foldl max 0

section Spread

variable {weights : List ℚ}

theorem least_le {v : ℚ} (hv : v ∈ weights) : least weights ≤ v :=
  (Rounding.foldl_min_spec f32Max weights).2 v (.tail _ hv)

theorem le_largest {v : ℚ} (hv : v ∈ weights) : v ≤ largest weights :=
  (Rounding.foldl_max_spec (-f32Max) weights).2 v (.tail _ hv)

theorem least_mem (hne : weights ≠ []) (hrange : ∀ v ∈ weights, |v| ≤ f32Max) :
    least weights ∈ weights := by
  obtain ⟨v, hv⟩ := List.exists_mem_of_ne_nil weights hne
  rcases List.mem_cons.mp (Rounding.foldl_min_spec f32Max weights).1 with heq | hmem
  · have hle : f32Max ≤ v := heq ▸ least_le hv
    have hvmax : least weights = v := heq.trans (le_antisymm hle (abs_le.mp (hrange v hv)).2)
    rwa [hvmax]
  · exact hmem

theorem largest_mem (hne : weights ≠ []) (hrange : ∀ v ∈ weights, |v| ≤ f32Max) :
    largest weights ∈ weights := by
  obtain ⟨v, hv⟩ := List.exists_mem_of_ne_nil weights hne
  rcases List.mem_cons.mp (Rounding.foldl_max_spec (-f32Max) weights).1 with heq | hmem
  · have hle : v ≤ -f32Max := heq ▸ le_largest hv
    have hvmin : largest weights = v := heq.trans (le_antisymm (abs_le.mp (hrange v hv)).1 hle)
    rwa [hvmin]
  · exact hmem

/-- The loop over a group of floats finds its extremes. -/
theorem largest_sub_least (hne : weights ≠ []) (hrange : ∀ v ∈ weights, |v| ≤ f32Max) :
    largest weights - least weights = spread weights := by
  have hleast := least_mem hne hrange
  have hlargest := largest_mem hne hrange
  obtain ⟨hmem, hbound⟩ :=
    Rounding.foldl_max_spec 0 (weights.flatMap fun a => weights.map fun b => a - b)
  apply le_antisymm
  · exact hbound _ (.tail _ (List.mem_flatMap.mpr ⟨_, hlargest, List.mem_map.mpr ⟨_, hleast, rfl⟩⟩))
  · rw [spread]
    rcases List.mem_cons.mp hmem with heq | hpair
    · rw [heq]
      exact sub_nonneg.mpr (least_le hlargest)
    · obtain ⟨a, ha, hpair⟩ := List.mem_flatMap.mp hpair
      obtain ⟨b, hb, heq⟩ := List.mem_map.mp hpair
      rw [← heq]
      exact sub_le_sub (le_largest ha) (least_le hb)

end Spread

/-! ### Steps -/

theorem scaleOf_pos (minVal maxVal : ℚ) : 0 < scaleOf minVal maxVal := by
  rw [scaleOf]
  split
  · rename_i hlt
    have hpos : (0 : ℚ) < 1 / 10 ^ 10 := by norm_num
    linarith
  · norm_num

/-- The scale is long enough for the group. -/
theorem sub_le_scaleOf (minVal maxVal : ℚ) : maxVal - minVal ≤ 15 * scaleOf minVal maxVal := by
  rw [scaleOf]
  split
  · linarith
  · rename_i hle
    have hsmall : (1 : ℚ) / 10 ^ 10 ≤ 15 := by norm_num
    linarith

/-- A weight of a group whose codes are computed with its extremes. -/
theorem abs_sub_code_le_iff {minVal maxVal v : ℚ} (hmin : minVal ≤ v) (hmax : v ≤ maxVal) :
    |v - (ofU8 (codeOf (scaleOf minVal maxVal) (zeroPointOf minVal (scaleOf minVal maxVal)) v) -
      ofU8 (zeroPointOf minVal (scaleOf minVal maxVal))) * scaleOf minVal maxVal| ≤
        scaleOf minVal maxVal ↔ |v| ≤ 16 * scaleOf minVal maxVal := by
  have hpos := scaleOf_pos minVal maxVal
  have hlength := sub_le_scaleOf minVal maxVal
  generalize scaleOf minVal maxVal = scale at hpos hlength ⊢
  have hzero : ofU8 (zeroPointOf minVal scale) = Rounding.level 15 (-(minVal / scale)) := by
    rw [← neg_div]
    exact ofU8_asU8_level (by decide) _
  have hcode : ofU8 (codeOf scale (zeroPointOf minVal scale) v) =
      Rounding.level 15 (v / scale + ofU8 (zeroPointOf minVal scale)) :=
    ofU8_asU8_level (by decide) _
  have hscaled : v / scale * scale = v := div_mul_cancel₀ v hpos.ne'
  have hleast : minVal / scale ≤ v / scale := div_le_div_of_nonneg_right hmin hpos.le
  have hrange : v / scale ≤ minVal / scale + (15 : ℕ) := by
    rw [div_add' _ _ _ hpos.ne', Nat.cast_ofNat]
    exact div_le_div_of_nonneg_right (by linarith) hpos.le
  have hlevels := Rounding.abs_sub_level_le_one_iff hleast hrange
  have hsteps : ∀ x y : ℚ, |x| ≤ y ↔ |x * scale| ≤ y * scale := by
    intro x y
    rw [abs_mul, abs_of_pos hpos, mul_le_mul_iff_left₀ hpos]
  rw [hcode, hzero]
  rw [hsteps, hsteps (v / scale), sub_mul, hscaled, one_mul, Nat.cast_ofNat] at hlevels
  rw [hlevels]
  norm_num

/-! ### The error of a weight -/

/-- The weight that is read back is at most one step of its group away. -/
def OneStep (weight : Tensor ℚ) (groupSize r c : ℕ) : Prop :=
  ∃ layer t, quantize weight groupSize = .ok (some layer) ∧
    layer.unpackWeights = .ok (some t) ∧
    |weight.entry [r, c] - t.entry [r, c]| ≤ layer.scales.entry [r, c / groupSize]

theorem scales_entry {w : ℕ → ℕ → ℚ} {m n groupSize r c : ℕ} (hsize : 0 < groupSize) (hr : r < m)
    (hc : c < n) : (quantized w m n groupSize).scales.entry [r, c / groupSize] =
      scaleAt w n groupSize r (c / groupSize) := by
  show (slice _ _ _).entry _ = _
  rw [slice_entry, getD_matrix _ hr (group_lt hsize hc)]

theorem oneStep_iff_scale {weight : Tensor ℚ} {m n groupSize r c : ℕ}
    (hdims : weight.dims = [m, n]) (heven : 2 ∣ n) (hsize : 0 < groupSize) (hr : r < m)
    (hc : c < n) : OneStep weight groupSize r c ↔ |weight.entry [r, c]| ≤
      16 * scaleAt (fun r c => weight.entry [r, c]) n groupSize r (c / groupSize) := by
  let w : ℕ → ℕ → ℚ := fun r c => weight.entry [r, c]
  have hfit : (m * n + 1) / 2 = m * ((n + 1) / 2) := packed_fit m heven
  have hquantize := quantize_eq hdims (w := w) rfl hsize hfit
  obtain ⟨t, hunpack, _, hentry⟩ := unpackWeights_quantized (w := w) heven
    (Nat.zero_lt_of_lt hr) hsize
  have hscale := scales_entry (w := w) hsize hr hc
  have hmem : weight.entry [r, c] ∈ groupWeights w n groupSize r (c / groupSize) :=
    List.mem_map.mpr ⟨c, mem_columns_group hsize hc, rfl⟩
  have hcode : OneStep weight groupSize r c ↔ |w r c - (ofU8 (codeAt w n groupSize r c) -
      ofU8 (zeroPointAt w n groupSize r (c / groupSize))) *
        scaleAt w n groupSize r (c / groupSize)| ≤ scaleAt w n groupSize r (c / groupSize) := by
    constructor
    · rintro ⟨layer, t', hlayer, ht', hle⟩
      cases hquantize.symm.trans hlayer
      cases hunpack.symm.trans ht'
      rwa [hscale, hentry r hr c hc] at hle
    · intro hle
      refine ⟨_, t, hquantize, hunpack, ?_⟩
      rwa [hscale, hentry r hr c hc]
  exact hcode.trans (abs_sub_code_le_iff (least_le hmem) (le_largest hmem))

/-- A weight is at most one step beyond the length of the scale of a group. -/
def InReach (weights : List ℚ) (v : ℚ) : Prop :=
  if 1 / 10 ^ 10 < spread weights then 15 * |v| ≤ 16 * spread weights else |v| ≤ 16

instance (weights : List ℚ) (v : ℚ) : Decidable (InReach weights v) :=
  inferInstanceAs (Decidable
    (if 1 / 10 ^ 10 < spread weights then 15 * |v| ≤ 16 * spread weights else |v| ≤ 16))

theorem inReach_iff {weights : List ℚ} (hne : weights ≠ [])
    (hrange : ∀ v ∈ weights, |v| ≤ f32Max) (v : ℚ) :
    |v| ≤ 16 * scaleOf (least weights) (largest weights) ↔ InReach weights v := by
  rw [InReach, scaleOf, largest_sub_least hne hrange]
  split
  · rw [← mul_le_mul_iff_right₀ (show (0 : ℚ) < 15 by norm_num)]
    ring_nf
  · rw [mul_one]

/-- **The error of a weight is at most the scale of its group exactly if the weight is in reach of
the group's scale.** -/
theorem oneStep_iff {weight : Tensor ℚ} {m n groupSize : ℕ} (hdims : weight.dims = [m, n])
    (heven : 2 ∣ n) (hsize : 1 ≤ groupSize)
    (hrange : ∀ r < m, ∀ c < n, |weight.entry [r, c]| ≤ f32Max) {r c : ℕ} (hr : r < m)
    (hc : c < n) : OneStep weight groupSize r c ↔
      InReach (groupWeights (fun r c => weight.entry [r, c]) n groupSize r (c / groupSize))
        (weight.entry [r, c]) := by
  rw [oneStep_iff_scale hdims heven hsize hr hc]
  apply inReach_iff
  · exact List.ne_nil_of_mem (List.mem_map.mpr ⟨c, mem_columns_group hsize hc, rfl⟩)
  · intro v hv
    obtain ⟨c', hc', rfl⟩ := List.mem_map.mp hv
    exact hrange r hr c' (mem_columns.mp hc').2.2

/-- One row of two weights. -/
def pair (a b : ℚ) : Tensor ℚ := ⟨[1, 2], fun idx => if idx = [0, 0] then a else b⟩

theorem oneStep_pair : OneStep (pair (-1) 1) 2 0 0 := by
  refine (oneStep_iff (m := 1) (n := 2) rfl (by decide) (by decide) ?_ (by decide)
    (by decide)).mpr ?_
  · intro r hr c _
    simp only [pair]
    split
    · norm_num [f32Max]
    · norm_num [f32Max]
  · decide +kernel

/-- A group far from zero: both codes are clamped. -/
theorem not_oneStep_pair : ¬ OneStep (pair 10 11) 2 0 0 := by
  rw [oneStep_iff_scale (m := 1) (n := 2) rfl (by decide) (by decide) (by decide) (by decide)]
  decide +kernel

end Kyro.Quantization.Int4Linear
