import Kyro.Proof.Quantization.Int8
import Kyro.Proof.Quantization.Accuracy
import Mathlib.Algebra.BigOperators.Ring.Finset
import Mathlib.Algebra.Order.BigOperators.Group.Finset

/-!
# A quantized layer and the layer it replaces

A quantized layer takes the inputs that a layer with the weights themselves takes, as long as they
are F16, and its outputs are off by what the weights are off, times the inputs. That is the error of
their codes and the rounding of what the codes stand for. Both layers take matrices only: an input
with a dimension for the batch is not accepted.
-/

namespace Kyro.Quantization

/-- The bias of an output. -/
def biasAt (bias : Option (Tensor ℚ)) (r : ℕ) : ℚ := (bias.map fun b => b.entry [r]).getD 0

section Project

variable {weight weight' x : Tensor ℚ} {bias : Option (Tensor ℚ)} {m n k : ℕ}

theorem project_eq (hweight : weight.dims = [m, k]) (hbias : ∀ b ∈ bias, b.dims = [m])
    (hx : x.dims = [n, k]) :
    ∃ y, project weight bias x = some y ∧ y.dims = [n, m] ∧ ∀ i < n, ∀ r < m,
      y.entry [i, r] =
        ∑ c ∈ Finset.range k, x.entry [i, c] * weight.entry [r, c] + biasAt bias r := by
  obtain ⟨wt, hwt, hwtDims, hwtEntry⟩ := Tensor.t_matrix hweight
  obtain ⟨res, hres, hresDims, hresEntry⟩ := Tensor.matmul_matrix hx hwtDims
  have hentry : ∀ i r, res.entry [i, r] =
      ∑ c ∈ Finset.range k, x.entry [i, c] * weight.entry [r, c] := by
    intro i r
    rw [hresEntry]
    apply Finset.sum_congr rfl
    intro c _
    rw [hwtEntry]
  rw [project, hwt]
  dsimp only [Option.bind_eq_bind, Option.bind_some]
  rw [hres, Option.bind_some]
  cases bias with
  | none =>
      refine ⟨res, rfl, hresDims, fun i _ r _ => ?_⟩
      rw [hentry, biasAt, Option.map_none, Option.getD_none, add_zero]
  | some b =>
      obtain ⟨y, hy, hyDims, hyEntry⟩ :=
        Tensor.broadcastWith_row (· + ·) hresDims (hbias b rfl)
      refine ⟨y, hy, hyDims, fun i hi r hr => ?_⟩
      rw [hyEntry i hi r hr, hentry]
      rfl

theorem project_none (hweight : weight.dims = [m, k]) (hx : ∀ n, x.dims ≠ [n, k]) :
    project weight bias x = none := by
  obtain ⟨wt, hwt, hwtDims, _⟩ := Tensor.t_matrix hweight
  rw [project, hwt]
  dsimp only [Option.bind_eq_bind, Option.bind_some]
  rw [Tensor.matmul_matrix_none hwtDims hx]
  rfl

theorem project_isSome_iff (hweight : weight.dims = [m, k]) (hbias : ∀ b ∈ bias, b.dims = [m]) :
    (project weight bias x).isSome ↔ ∃ n, x.dims = [n, k] := by
  by_cases hx : ∃ n, x.dims = [n, k]
  · obtain ⟨n, hx⟩ := hx
    obtain ⟨y, hy, _⟩ := project_eq hweight hbias hx
    rw [hy]
    exact ⟨fun _ => ⟨n, hx⟩, fun _ => rfl⟩
  · rw [project_none hweight fun n h => hx ⟨n, h⟩]
    exact ⟨fun h => absurd h Bool.false_ne_true, fun h => absurd h hx⟩

/-- Weights that are close to each other give the same shapes, and outputs that are close. -/
theorem project_close {error : ℕ → ℕ → ℚ} (hweight : weight.dims = [m, k])
    (hweight' : weight'.dims = [m, k]) (hbias : ∀ b ∈ bias, b.dims = [m])
    (hclose : ∀ r < m, ∀ c < k, |weight.entry [r, c] - weight'.entry [r, c]| ≤ error r c) :
    Tensor.shape? (project weight' bias x) = Tensor.shape? (project weight bias x) ∧
    ∀ n y plain, x.dims = [n, k] → project weight' bias x = some y →
      project weight bias x = some plain → ∀ i < n, ∀ r < m,
        |plain.entry [i, r] - y.entry [i, r]| ≤
          ∑ c ∈ Finset.range k, |x.entry [i, c]| * error r c := by
  constructor
  · by_cases hx : ∃ n, x.dims = [n, k]
    · obtain ⟨n, hx⟩ := hx
      obtain ⟨y, hy, hydims, _⟩ := project_eq hweight' hbias hx
      obtain ⟨plain, hplain, hplainDims, _⟩ := project_eq hweight hbias hx
      rw [hy, hplain, Tensor.shape?_some, Tensor.shape?_some, hydims, hplainDims]
    · have hnone : ∀ n, x.dims ≠ [n, k] := fun n h => hx ⟨n, h⟩
      rw [project_none hweight' hnone, project_none hweight hnone]
  · intro n y plain hx hy hplain i hi r hr
    obtain ⟨y', hy', _, hyEntry⟩ := project_eq hweight' hbias hx
    obtain ⟨plain', hplain', _, hplainEntry⟩ := project_eq hweight hbias hx
    cases hy.symm.trans hy'
    cases hplain.symm.trans hplain'
    rw [hyEntry i hi r hr, hplainEntry i hi r hr, add_sub_add_right_eq_sub,
      ← Finset.sum_sub_distrib]
    apply (Finset.abs_sum_le_sum_abs _ _).trans
    apply Finset.sum_le_sum
    intro c hc
    rw [← mul_sub, abs_mul]
    exact mul_le_mul_of_nonneg_left (hclose r hr c (Finset.mem_range.mp hc)) (abs_nonneg _)

end Project

/-! ### Weights as F16 -/

theorem abs_sub_f16_le (x : ℚ) : |x - f16 x| ≤ (|x| + 1 / 2 ^ 14) / 2 ^ 11 := by
  have hle := Rounding.abs_sub_toFormat_le 10 (-14) x Nat.one_lt_two
  norm_num at hle ⊢
  exact hle

/-- Ties go to the even neighbour. -/
example : f16 2049 = 2048 ∧ f16 2051 = 2052 := by decide +kernel

/-- A weight that is off, and rounded. -/
theorem abs_sub_f16_le_of_close {v u error bound : ℚ} (hclose : |v - u| ≤ error)
    (hbound : |u| ≤ bound) : |v - f16 u| ≤ error + (bound + 1 / 2 ^ 14) / 2 ^ 11 := by
  have hround : (|u| + 1 / 2 ^ 14) / 2 ^ 11 ≤ (bound + 1 / 2 ^ 14) / 2 ^ 11 :=
    div_le_div_of_nonneg_right (by linarith) (by norm_num)
  calc |v - f16 u| ≤ |v - u| + |u - f16 u| := abs_sub_le v u (f16 u)
    _ ≤ error + (bound + 1 / 2 ^ 14) / 2 ^ 11 :=
      add_le_add hclose ((abs_sub_f16_le u).trans hround)

theorem fitsF16_iff {t : Tensor ℚ} {m k : ℕ} (hdims : t.dims = [m, k]) :
    FitsF16 t ↔ ∀ r < m, ∀ c < k, |t.entry [r, c]| ≤ f16Max := by
  rw [FitsF16, flatten_matrix hdims]
  exact Fill.forall_mem_matrix

section ProjectF16

variable {weight weight' x : Tensor ℚ} {bias : Option (Tensor ℚ)} {dtype : FloatType} {m k : ℕ}

theorem projectF16_isSome_iff (hweight : weight.dims = [m, k]) (hbias : ∀ b ∈ bias, b.dims = [m]) :
    (projectF16 weight bias dtype x).isSome ↔ dtype = .f16 ∧ ∃ n, x.dims = [n, k] := by
  have hrounded : (weight.map f16).dims = [m, k] := hweight
  rw [projectF16]
  by_cases hdtype : dtype = .f16
  · rw [if_pos hdtype, project_isSome_iff hrounded hbias]
    exact (and_iff_right hdtype).symm
  · rw [if_neg hdtype]
    exact ⟨fun h => absurd h Bool.false_ne_true, fun h => absurd h.1 hdtype⟩

theorem eq_f16_of_projectF16 {y : Tensor ℚ} (h : projectF16 weight bias dtype x = some y) :
    dtype = .f16 ∧ project (weight.map f16) bias x = some y := by
  rw [projectF16] at h
  split at h
  · exact ⟨‹_›, h⟩
  · cases h

/-- Weights that are close to others and bounded: so are the outputs. -/
theorem projectF16_close (dtype : FloatType) (x : Tensor ℚ) {error bound : ℕ → ℕ → ℚ}
    (hweight : weight.dims = [m, k]) (hweight' : weight'.dims = [m, k])
    (hbias : ∀ b ∈ bias, b.dims = [m])
    (hclose : ∀ r < m, ∀ c < k, |weight.entry [r, c] - weight'.entry [r, c]| ≤ error r c)
    (hbound : ∀ r < m, ∀ c < k, |weight'.entry [r, c]| ≤ bound r c) :
    (dtype = .f16 → Tensor.shape? (projectF16 weight' bias dtype x) =
      Tensor.shape? (project weight bias x)) ∧
    ∀ n y plain, x.dims = [n, k] → projectF16 weight' bias dtype x = some y →
      project weight bias x = some plain → ∀ i < n, ∀ r < m,
        |plain.entry [i, r] - y.entry [i, r]| ≤ ∑ c ∈ Finset.range k,
          |x.entry [i, c]| * (error r c + (bound r c + 1 / 2 ^ 14) / 2 ^ 11) := by
  have hrounded : (weight'.map f16).dims = [m, k] := hweight'
  obtain ⟨hshape, hnear⟩ := project_close (x := x) hweight hrounded hbias
    fun r hr c hc => abs_sub_f16_le_of_close (hclose r hr c hc) (hbound r hr c hc)
  constructor
  · rintro rfl
    rw [projectF16, if_pos rfl]
    exact hshape
  · intro n y plain hx hy hplain
    exact hnear n y plain hx (eq_f16_of_projectF16 hy).2 hplain

end ProjectF16

namespace Int8Linear

/-- The weights of a quantized matrix, one by one. -/
theorem unpackWeights_quantize {weight : Tensor ℚ} {m k : ℕ} (hdims : weight.dims = [m, k]) :
    ∃ layer scale t, quantize weight = some layer ∧ layer.scale.flatten = [scale] ∧
      layer.unpackWeights = some t ∧ t.dims = [m, k] ∧
      (∀ r < m, ∀ c < k, |weight.entry [r, c] - t.entry [r, c]| ≤ scale / 2) ∧
      (∀ r < m, ∀ c < k, |t.entry [r, c]| ≤ 127 * scale) ∧
      (FitsF16 weight → 127 * scale ≤ f16Max) := by
  obtain ⟨layer, hlayer, hlayerDims, hcodes, e, hscaleEq, hscale⟩ := quantize_eq weight
  obtain ⟨t, ht, htDims, htFlatten⟩ := unpackWeights_eq hscaleEq
  have hpos := scaleOf_pos (absMax weight.flatten)
  have hdims' : t.dims = [m, k] := by
    rw [htDims, hlayerDims, hdims]
    rfl
  have hweights : t.flatten =
      weight.flatten.map (reconstructed (scaleOf (absMax weight.flatten))) := by
    rw [htFlatten, hcodes, codes, List.map_map]
    refine List.map_congr_left fun v hv => ?_
    change (ofU8 (asU8 _) - 128) * e [0] = _
    rw [ofU8_code hpos (abs_le_scale hv), hscale, reconstructed]
  have hentry : ∀ r < m, ∀ c < k, t.entry [r, c] =
      reconstructed (scaleOf (absMax weight.flatten)) (weight.entry [r, c]) := by
    intro r hr c hc
    generalize scaleOf (absMax weight.flatten) = scale at hweights ⊢
    have hcell : t.flatten[r * k + c]? =
        (weight.flatten.map (reconstructed scale))[r * k + c]? := by rw [hweights]
    rw [List.getElem?_map, flatten_matrix hdims', flatten_matrix hdims,
      Fill.getElem?_matrix _ hr hc, Fill.getElem?_matrix _ hr hc] at hcell
    exact Option.some.inj hcell
  refine ⟨layer, scaleOf (absMax weight.flatten), t, hlayer, ?_, ht, hdims', ?_, ?_, ?_⟩
  · rw [hscaleEq, ← hscale]
    rfl
  · intro r hr c hc
    rw [hentry r hr c hc]
    exact abs_sub_reconstructed_le hpos _
  · intro r hr c hc
    have hmem : weight.entry [r, c] ∈ weight.flatten := by
      rw [flatten_matrix hdims]
      exact List.mem_of_getElem? (Fill.getElem?_matrix _ hr hc)
    rw [hentry r hr c hc]
    exact abs_reconstructed_le hpos (abs_le_scale hmem)
  · intro hfits
    rcases (absMax_nonneg weight.flatten).eq_or_lt with hzero | hmax
    · rw [← hzero]
      norm_num [scaleOf, f16Max]
    · obtain ⟨v, hv, habs⟩ := exists_abs_eq_absMax hmax
      rw [scaleOf_of_pos hmax, ← habs]
      exact hfits v hv

/-- **An eight-bit layer stands for the layer that it was made of**, where F16 has room for the
weights: none of its weights is too large either, it gives outputs of the same shape for the same
inputs of this type, with or without a bias, and each output is off by at most half a step and the
rounding of a weight for every unit of the inputs. -/
theorem forward_half_step {weight : Tensor ℚ} {m k : ℕ} (hdims : weight.dims = [m, k])
    (hfits : FitsF16 weight) {bias : Option (Tensor ℚ)} (hbias : ∀ b ∈ bias, b.dims = [m]) :
    ∃ layer scale t, quantize weight = some layer ∧ layer.scale.flatten = [scale] ∧
      layer.unpackWeights = some t ∧ FitsF16 t ∧ ∀ (dtype : FloatType) (x : Tensor ℚ),
        ((layer.forward bias dtype x).isSome ↔ dtype = .f16 ∧ ∃ n, x.dims = [n, k]) ∧
        (dtype = .f16 → Tensor.shape? (layer.forward bias dtype x) =
          Tensor.shape? (project weight bias x)) ∧
        ∀ n y plain, x.dims = [n, k] → layer.forward bias dtype x = some y →
          project weight bias x = some plain → ∀ i < n, ∀ r < m,
            |plain.entry [i, r] - y.entry [i, r]| ≤
              (scale / 2 + (127 * scale + 1 / 2 ^ 14) / 2 ^ 11) *
                ∑ c ∈ Finset.range k, |x.entry [i, c]| := by
  obtain ⟨layer, scale, t, hlayer, hscale, ht, htDims, hclose, hbound, hroom⟩ :=
    unpackWeights_quantize hdims
  have htFits : FitsF16 t :=
    (fitsF16_iff htDims).mpr fun r hr c hc => (hbound r hr c hc).trans (hroom hfits)
  refine ⟨layer, scale, t, hlayer, hscale, ht, htFits, fun dtype x => ?_⟩
  have hforward : layer.forward bias dtype x = projectF16 t bias dtype x := by
    rw [forward, ht]
    rfl
  obtain ⟨hshape, hnear⟩ := projectF16_close dtype x hdims htDims hbias hclose hbound
  rw [hforward]
  refine ⟨projectF16_isSome_iff htDims hbias, hshape, fun n y plain hx hy hplain i hi r hr => ?_⟩
  have hle := hnear n y plain hx hy hplain i hi r hr
  rwa [← Finset.sum_mul, mul_comm] at hle

/-- An F32 input is refused, an F16 one taken. -/
theorem forward_half_step_column : ∃ layer, quantize ⟨[2, 1], fun _ => 3⟩ = some layer ∧
    (layer.forward none .f32 ⟨[1, 1], fun _ => 1⟩).isSome = false ∧
    (layer.forward none .f16 ⟨[1, 1], fun _ => 1⟩).isSome = true := by
  have hdims : (⟨[2, 1], fun _ => 3⟩ : Tensor ℚ).dims = [2, 1] := rfl
  have hfits : FitsF16 ⟨[2, 1], fun _ => 3⟩ :=
    (fitsF16_iff hdims).mpr fun _ _ _ _ => by norm_num [f16Max]
  have hbias : ∀ b ∈ (none : Option (Tensor ℚ)), b.dims = [2] := by
    intro b hb
    cases hb
  obtain ⟨layer, _, _, hlayer, _, _, _, hforward⟩ := forward_half_step hdims hfits hbias
  refine ⟨layer, hlayer, Bool.eq_false_iff.mpr fun h => ?_, ?_⟩
  · cases ((hforward .f32 _).1.mp h).1
  · exact (hforward .f16 _).1.mpr ⟨rfl, 1, rfl⟩

end Int8Linear

namespace Int4Linear

/-- The scale of a group of bounded weights. -/
theorem scaleOf_le {weights : List ℚ} {bound : ℚ} (hne : weights ≠ []) (hbound : 15 ≤ 2 * bound)
    (hmax : bound ≤ f32Max) (hweights : ∀ v ∈ weights, |v| ≤ bound) :
    scaleOf (least weights) (largest weights) ≤ 2 * bound / 15 := by
  have hrange : ∀ v ∈ weights, |v| ≤ f32Max := fun v hv => (hweights v hv).trans hmax
  have hleast := abs_le.mp (hweights _ (least_mem hne hrange))
  have hlargest := abs_le.mp (hweights _ (largest_mem hne hrange))
  rw [scaleOf]
  split
  · linarith
  · linarith

/-- The weights of a quantized matrix, one by one, where they are in reach and not too large. -/
theorem unpackWeights_one_step {weight : Tensor ℚ} {m k groupSize : ℕ} (hdims : weight.dims = [m, k])
    (hm : 0 < m) (heven : 2 ∣ k) (hsize : 1 ≤ groupSize)
    (hrange : ∀ r < m, ∀ c < k, |weight.entry [r, c]| ≤ 15 * f16Max / 17)
    (hreach : ∀ r < m, ∀ c < k,
      InReach (groupWeights (fun r c => weight.entry [r, c]) k groupSize r (c / groupSize))
        (weight.entry [r, c])) :
    ∃ layer t, quantize weight groupSize = .ok (some layer) ∧
      layer.unpackWeights = .ok (some t) ∧ t.dims = [m, k] ∧
      ∀ r < m, ∀ c < k,
        |weight.entry [r, c] - t.entry [r, c]| ≤ layer.scales.entry [r, c / groupSize] ∧
        layer.scales.entry [r, c / groupSize] ≤ 2 * f16Max / 17 := by
  obtain ⟨t, hunpack, htDims, _⟩ :=
    unpackWeights_quantized (w := fun r c => weight.entry [r, c]) heven hm hsize
  have hquantize := quantize_eq hdims (w := fun r c => weight.entry [r, c]) rfl hsize
    (packed_fit m heven)
  have hmax : 15 * f16Max / 17 ≤ f32Max := by norm_num [f16Max, f32Max]
  refine ⟨_, t, hquantize, hunpack, htDims, fun r hr c hc => ?_⟩
  have hne : groupWeights (fun r c => weight.entry [r, c]) k groupSize r (c / groupSize) ≠ [] :=
    List.ne_nil_of_mem (List.mem_map.mpr ⟨c, mem_columns_group hsize hc, rfl⟩)
  have hweights : ∀ v ∈ groupWeights (fun r c => weight.entry [r, c]) k groupSize r
      (c / groupSize), |v| ≤ 15 * f16Max / 17 := by
    intro v hv
    obtain ⟨c', hc', rfl⟩ := List.mem_map.mp hv
    exact hrange r hr c' (mem_columns.mp hc').2.2
  constructor
  · have hstep : OneStep weight groupSize r c := by
      rw [oneStep_iff_scale hdims heven hsize hr hc]
      exact (inReach_iff hne (fun v hv => (hweights v hv).trans hmax) _).mpr (hreach r hr c hc)
    obtain ⟨layer, t', hlayer, ht', hle⟩ := hstep
    cases hquantize.symm.trans hlayer
    cases hunpack.symm.trans ht'
    exact hle
  · have hscale := scaleOf_le hne (by norm_num [f16Max]) hmax hweights
    rw [scales_entry hsize hr hc, scaleAt]
    linarith

/-- **A four-bit layer stands for the layer that it was made of**, where every weight is in reach of
the scale of its group and F16 has room for one step more than the weights: none of its weights is
too large, it gives outputs of the same shape for the same inputs of this type, with or without a
bias, and each output is off by at most one step of its group and the rounding of a weight for every
unit of the inputs. -/
theorem forward_one_step {weight : Tensor ℚ} {m k groupSize : ℕ} (hdims : weight.dims = [m, k])
    (hm : 0 < m) (heven : 2 ∣ k) (hsize : 1 ≤ groupSize)
    (hrange : ∀ r < m, ∀ c < k, |weight.entry [r, c]| ≤ 15 * f16Max / 17)
    (hreach : ∀ r < m, ∀ c < k,
      InReach (groupWeights (fun r c => weight.entry [r, c]) k groupSize r (c / groupSize))
        (weight.entry [r, c]))
    {bias : Option (Tensor ℚ)} (hbias : ∀ b ∈ bias, b.dims = [m]) :
    ∃ layer t, quantize weight groupSize = .ok (some layer) ∧
      layer.unpackWeights = .ok (some t) ∧ FitsF16 t ∧
      ∀ (dtype : FloatType) (x : Tensor ℚ), ∃ result, layer.forward bias dtype x = .ok result ∧
        (result.isSome ↔ dtype = .f16 ∧ ∃ n, x.dims = [n, k]) ∧
        (dtype = .f16 → Tensor.shape? result = Tensor.shape? (project weight bias x)) ∧
        ∀ n y plain, x.dims = [n, k] → result = some y → project weight bias x = some plain →
          ∀ i < n, ∀ r < m, |plain.entry [i, r] - y.entry [i, r]| ≤
            ∑ c ∈ Finset.range k, |x.entry [i, c]| * (layer.scales.entry [r, c / groupSize] +
              (|weight.entry [r, c]| + layer.scales.entry [r, c / groupSize] + 1 / 2 ^ 14) /
                2 ^ 11) := by
  obtain ⟨layer, t, hquantize, hunpack, htDims, hstep⟩ :=
    unpackWeights_one_step hdims hm heven hsize hrange hreach
  have hclose := fun r hr c hc => (hstep r hr c hc).1
  have hbound : ∀ r < m, ∀ c < k, |t.entry [r, c]| ≤ |weight.entry [r, c]| +
      layer.scales.entry [r, c / groupSize] := by
    intro r hr c hc
    have hle := hclose r hr c hc
    have htriangle := abs_sub_abs_le_abs_sub (t.entry [r, c]) (weight.entry [r, c])
    rw [abs_sub_comm] at htriangle
    linarith
  have htFits : FitsF16 t := by
    rw [fitsF16_iff htDims]
    intro r hr c hc
    have hle := hbound r hr c hc
    have hweight := hrange r hr c hc
    have hscale := (hstep r hr c hc).2
    linarith
  refine ⟨layer, t, hquantize, hunpack, htFits, fun dtype x => ⟨projectF16 t bias dtype x, ?_,
    projectF16_isSome_iff htDims hbias, projectF16_close dtype x hdims htDims hbias hclose hbound⟩⟩
  rw [forward, hunpack]
  rfl

theorem forward_one_step_pair : ∃ layer, quantize (pair (-1) 1) 2 = .ok (some layer) ∧
    ∃ y, layer.forward none .f16 ⟨[1, 2], fun _ => 1⟩ = .ok (some y) := by
  have hdims : (pair (-1) 1).dims = [1, 2] := rfl
  have hrange : ∀ r < 1, ∀ c < 2, |(pair (-1) 1).entry [r, c]| ≤ 15 * f16Max / 17 := by
    intro r _ c _
    simp only [pair]
    split
    · norm_num [f16Max]
    · norm_num [f16Max]
  have hreach : ∀ r < 1, ∀ c < 2,
      InReach (groupWeights (fun r c => (pair (-1) 1).entry [r, c]) 2 2 r (c / 2))
        ((pair (-1) 1).entry [r, c]) := by
    decide +kernel
  have hbias : ∀ b ∈ (none : Option (Tensor ℚ)), b.dims = [1] := by
    intro b hb
    cases hb
  obtain ⟨layer, _, hlayer, _, _, hforward⟩ := forward_one_step hdims (by decide) (by decide)
    (by decide) hrange hreach hbias
  obtain ⟨result, hresult, hsome, _⟩ := hforward .f16 ⟨[1, 2], fun _ => 1⟩
  obtain ⟨y, rfl⟩ := Option.isSome_iff_exists.mp (hsome.mpr ⟨rfl, 1, rfl⟩)
  exact ⟨layer, hlayer, y, hresult⟩

end Int4Linear
end Kyro.Quantization
