import Kyro.Model.Quantization

/-!
# Eight-bit weights

The largest weight is mapped to one end of the range, so no code is clamped and the reconstructed
weights have the scale and the codes of the weights.
-/

namespace Kyro.Quantization.Int8Linear

/-! ### The scale -/

section Scale

variable {weights : List ℚ} {a v : ℚ}

theorem abs_le_absMax (hv : v ∈ weights) : |v| ≤ absMax weights :=
  (Rounding.foldl_max_spec 0 _).2 _ (.tail _ (List.mem_map_of_mem hv))

theorem absMax_nonneg (weights : List ℚ) : 0 ≤ absMax weights :=
  (Rounding.foldl_max_spec 0 _).2 _ List.mem_cons_self

theorem exists_abs_eq_absMax (h : 0 < absMax weights) : ∃ v ∈ weights, |v| = absMax weights := by
  rcases List.mem_cons.mp (Rounding.foldl_max_spec 0 (weights.map abs)).1 with hzero | hmem
  · exact absurd hzero h.ne'
  · exact List.mem_map.mp hmem

/-- The largest magnitude is determined by what it bounds. -/
theorem absMax_eq (ha : 0 ≤ a) (hbound : ∀ v ∈ weights, |v| ≤ a)
    (hattained : a = 0 ∨ ∃ v ∈ weights, |v| = a) : absMax weights = a := by
  apply le_antisymm
  · rcases List.mem_cons.mp (Rounding.foldl_max_spec 0 (weights.map abs)).1 with hzero | hmem
    · exact hzero.trans_le ha
    · obtain ⟨v, hv, heq⟩ := List.mem_map.mp hmem
      exact heq.symm.trans_le (hbound v hv)
  · rcases hattained with rfl | ⟨v, hv, rfl⟩
    · exact absMax_nonneg weights
    · exact abs_le_absMax hv

theorem scaleOf_pos (a : ℚ) : 0 < scaleOf a := by
  rw [scaleOf]
  split
  · rename_i ha
    exact div_pos ha (by norm_num)
  · norm_num

theorem scaleOf_of_pos (h : 0 < a) : 127 * scaleOf a = a := by
  rw [scaleOf, if_pos h]
  exact mul_div_cancel₀ a (by norm_num)

theorem abs_le_scale (hv : v ∈ weights) : |v| ≤ 127 * scaleOf (absMax weights) := by
  have hle := abs_le_absMax hv
  rcases (absMax_nonneg weights).eq_or_lt with hzero | hpos
  · have hscale := scaleOf_pos (absMax weights)
    linarith
  · rwa [scaleOf_of_pos hpos]

end Scale

/-! ### Codes -/

section Code

variable {scale v : ℚ}

/-- The code of a weight, before the clamp. -/
theorem exists_rounded (hscale : 0 < scale) (hv : |v| ≤ 127 * scale) :
    ∃ k : ℕ, rounded scale v = k ∧ 1 ≤ k ∧ k ≤ 255 := by
  obtain ⟨k, hk⟩ := Rounding.exists_round (v / scale + 128)
  have hround := abs_le.mp (Rounding.abs_sub_round_le (v / scale + 128))
  have hrange : |v / scale| ≤ 127 := by
    rwa [abs_div, abs_of_pos hscale, div_le_iff₀ hscale]
  obtain ⟨hlo, hhi⟩ := abs_le.mp hrange
  rw [hk] at hround
  have hpos : (0 : ℚ) < k := by linarith [hround.2]
  have hlt : (k : ℚ) < (256 : ℤ) := by
    push_cast
    linarith [hround.1]
  have hpos' : 0 < k := by exact_mod_cast hpos
  have hlt' : k < 256 := by exact_mod_cast hlt
  lift k to ℕ using hpos'.le
  exact ⟨k, by rw [rounded, hk, Int.cast_natCast], by omega, by omega⟩

theorem clamp_rounded (hscale : 0 < scale) (hv : |v| ≤ 127 * scale) :
    Rounding.clamp 0 255 (rounded scale v) = rounded scale v := by
  obtain ⟨k, hk, _, hle⟩ := exists_rounded hscale hv
  rw [hk]
  exact Rounding.clamp_of_mem (Nat.cast_nonneg k) (by exact_mod_cast hle)

theorem ofU8_code (hscale : 0 < scale) (hv : |v| ≤ 127 * scale) :
    ofU8 (asU8 (Rounding.clamp 0 255 (rounded scale v))) = rounded scale v := by
  rw [clamp_rounded hscale hv]
  obtain ⟨k, hk, _, hle⟩ := exists_rounded hscale hv
  rw [hk, ofU8_asU8_natCast hle]

/-- The weight that a code stands for. -/
def reconstructed (scale v : ℚ) : ℚ := (rounded scale v - 128) * scale

theorem abs_sub_reconstructed_le (hscale : 0 < scale) (v : ℚ) :
    |v - reconstructed scale v| ≤ scale / 2 := by
  have hsteps : v - reconstructed scale v = (v / scale + 128 - rounded scale v) * scale := by
    rw [reconstructed, sub_mul (v / scale + 128), add_mul, div_mul_cancel₀ v hscale.ne']
    ring
  rw [hsteps, abs_mul, abs_of_pos hscale]
  calc |v / scale + 128 - rounded scale v| * scale ≤ 1 / 2 * scale :=
        mul_le_mul_of_nonneg_right (Rounding.abs_sub_round_le _) hscale.le
    _ = scale / 2 := by ring

/-- The code of a reconstructed weight is its own. -/
theorem rounded_reconstructed (hscale : 0 < scale) (v : ℚ) :
    rounded scale (reconstructed scale v) = rounded scale v := by
  obtain ⟨k, hk⟩ := Rounding.exists_round (v / scale + 128)
  have hsame : reconstructed scale v / scale + 128 = k := by
    rw [reconstructed, mul_div_cancel_right₀ _ hscale.ne', sub_add_cancel, rounded, hk]
  rw [rounded, hsame, Rounding.round_intCast, rounded, hk]

theorem abs_reconstructed_le (hscale : 0 < scale) (hv : |v| ≤ 127 * scale) :
    |reconstructed scale v| ≤ 127 * scale := by
  obtain ⟨k, hk, hge, hle⟩ := exists_rounded hscale hv
  have hge' : (1 : ℚ) ≤ k := by exact_mod_cast hge
  have hle' : (k : ℚ) ≤ 255 := by exact_mod_cast hle
  rw [reconstructed, hk, abs_mul, abs_of_pos hscale]
  apply mul_le_mul_of_nonneg_right _ hscale.le
  exact abs_le.mpr ⟨by linarith, by linarith⟩

/-- An end of the range is reconstructed exactly. -/
theorem reconstructed_end (hscale : 0 < scale) (hv : |v| = 127 * scale) :
    reconstructed scale v = v := by
  have hwhole : ∃ n : ℤ, v / scale + 128 = n := by
    rcases (abs_eq (by positivity)).mp hv with rfl | rfl
    · refine ⟨255, ?_⟩
      rw [mul_div_cancel_right₀ _ hscale.ne']
      norm_num
    · refine ⟨1, ?_⟩
      rw [neg_div, mul_div_cancel_right₀ _ hscale.ne']
      norm_num
  obtain ⟨n, hn⟩ := hwhole
  rw [reconstructed, rounded, hn, Rounding.round_intCast, ← hn, add_sub_cancel_right,
    div_mul_cancel₀ v hscale.ne']

end Code

theorem absMax_reconstructed (weights : List ℚ) :
    absMax (weights.map (reconstructed (scaleOf (absMax weights)))) = absMax weights := by
  have hscale := scaleOf_pos (absMax weights)
  rcases (absMax_nonneg weights).eq_or_lt with hzero | hpos
  · -- All weights are zero, and so are the reconstructed ones.
    rw [← hzero] at hscale ⊢
    refine absMax_eq le_rfl (fun u hu => ?_) (.inl rfl)
    obtain ⟨v, hv, rfl⟩ := List.mem_map.mp hu
    have hv0 : v = 0 := abs_nonpos_iff.mp (hzero ▸ abs_le_absMax hv)
    obtain ⟨k, hk⟩ : ∃ n : ℤ, v / scaleOf 0 + 128 = n := ⟨128, by rw [hv0]; norm_num⟩
    rw [reconstructed, rounded, hk, Rounding.round_intCast, ← hk, hv0]
    norm_num
  · refine absMax_eq hpos.le (fun u hu => ?_) (.inr ?_)
    · obtain ⟨v, hv, rfl⟩ := List.mem_map.mp hu
      exact (abs_reconstructed_le hscale (abs_le_scale hv)).trans_eq (scaleOf_of_pos hpos)
    · obtain ⟨v, hv, habs⟩ := exists_abs_eq_absMax hpos
      have hend : reconstructed (scaleOf (absMax weights)) v = v :=
        reconstructed_end hscale (habs.trans (scaleOf_of_pos hpos).symm)
      exact ⟨_, List.mem_map_of_mem hv, by rw [hend, habs]⟩

/-! ### Layers -/

/-- The codes of a list of weights. -/
def codes (weights : List ℚ) : List UInt8 :=
  weights.map fun v => asU8 (Rounding.clamp 0 255 (rounded (scaleOf (absMax weights)) v))

theorem quantize_eq (weight : Tensor ℚ) : ∃ layer, quantize weight = some layer ∧
    layer.weight.dims = weight.dims ∧ layer.weight.flatten = codes weight.flatten ∧
    ∃ e, layer.scale = ⟨[1], e⟩ ∧ e [0] = scaleOf (absMax weight.flatten) := by
  have hlength : (codes weight.flatten).length = weight.dims.prod := by
    rw [codes, List.length_map, Tensor.length_flatten]
  let layer : Int8Linear :=
    { weight := ⟨weight.dims, fun idx =>
        (codes weight.flatten).getD (Tensor.offset weight.dims idx) 0⟩
      scale := ⟨[1], fun idx =>
        [scaleOf (absMax weight.flatten)].getD (Tensor.offset [1] idx) 0⟩ }
  refine ⟨layer, ?_, rfl, Tensor.flatten_slice hlength, _, rfl, rfl⟩
  show ((Tensor.fromSlice (codes weight.flatten) weight.dims).bind fun qweight =>
    (Tensor.fromSlice [scaleOf (absMax weight.flatten)] [1]).bind fun scaleT => _) = _
  rw [Tensor.fromSlice_eq_some hlength, Tensor.fromSlice_eq_some rfl]
  rfl

theorem unpackWeights_eq {layer : Int8Linear} {e : List ℕ → ℚ} (he : layer.scale = ⟨[1], e⟩) :
    ∃ t, layer.unpackWeights = some t ∧
      t.dims = List.replicate (1 - layer.weight.dims.length) 1 ++ layer.weight.dims ∧
      t.flatten = layer.weight.flatten.map fun b => (ofU8 b - 128) * e [0] := by
  let w : Tensor ℚ := ⟨layer.weight.dims, fun idx => ofU8 (layer.weight.entry idx)⟩
  obtain ⟨centered, hcentered, hdims, hflatten⟩ := w.broadcastWith_single (· - ·)
    fun idx => [(128 : ℚ)].getD (Tensor.offset [1] idx) 0
  obtain ⟨t, ht, htdims, htflatten⟩ := centered.broadcastWith_single (· * ·) e
  refine ⟨t, ?_, ?_, ?_⟩
  · rw [unpackWeights, Tensor.fromSlice_eq_some rfl, Option.bind_eq_bind, Option.bind_some,
      hcentered, Option.bind_some, he, ht]
  · have hrank : 1 - centered.dims.length = 0 := by
      rw [hdims, List.length_append, List.length_replicate]
      omega
    rw [htdims, hrank, hdims]
    rfl
  · rw [htflatten, hflatten, Tensor.flatten_comp, List.map_map, List.map_map]
    rfl

/-- **Eight bits are accurate to half a step**, no code is clamped, and the weights that are read
back are quantized to the same codes with the same scale. -/
theorem quantize_unpackWeights (weight : Tensor ℚ) :
    ∃ layer scale t again, quantize weight = some layer ∧ layer.scale.flatten = [scale] ∧
      layer.unpackWeights = some t ∧ (weight.dims ≠ [] → t.dims = weight.dims) ∧
      List.Forall₂ (fun v u => |v - u| ≤ scale / 2) weight.flatten t.flatten ∧
      (∀ v ∈ weight.flatten, Rounding.clamp 0 255 (rounded scale v) = rounded scale v) ∧
      quantize t = some again ∧ again.weight.flatten = layer.weight.flatten ∧
      again.scale.flatten = layer.scale.flatten := by
  obtain ⟨layer, hlayer, hdims, hcodes, e, hscaleEq, hscale⟩ := quantize_eq weight
  obtain ⟨t, ht, htdims, htflatten⟩ := unpackWeights_eq hscaleEq
  obtain ⟨again, hagain, _, hagainCodes, e', hscaleEq', hscale'⟩ := quantize_eq t
  have hpos := scaleOf_pos (absMax weight.flatten)
  have hweights : t.flatten =
      weight.flatten.map (reconstructed (scaleOf (absMax weight.flatten))) := by
    rw [htflatten, hcodes, codes, List.map_map]
    refine List.map_congr_left fun v hv => ?_
    show (ofU8 (asU8 _) - 128) * e [0] = _
    rw [ofU8_code hpos (abs_le_scale hv), hscale, reconstructed]
  have hmax : absMax t.flatten = absMax weight.flatten := by
    rw [hweights, absMax_reconstructed]
  have hflattenScale : layer.scale.flatten = [scaleOf (absMax weight.flatten)] := by
    rw [hscaleEq, ← hscale]
    rfl
  refine ⟨layer, scaleOf (absMax weight.flatten), t, again, hlayer, hflattenScale, ht, ?_, ?_, ?_,
    hagain, ?_, ?_⟩
  · intro hne
    have hrank : 1 - weight.dims.length = 0 := by
      have hlength := List.length_pos_of_ne_nil hne
      omega
    rw [htdims, hdims, hrank]
    rfl
  · rw [hweights, List.forall₂_map_right_iff, List.forall₂_same]
    exact fun v _ => abs_sub_reconstructed_le hpos v
  · exact fun v hv => clamp_rounded hpos (abs_le_scale hv)
  · rw [hagainCodes, hcodes, codes, codes, hmax, hweights, List.map_map]
    refine List.map_congr_left fun v _ => ?_
    show asU8 (Rounding.clamp 0 255 (rounded _ (reconstructed _ v))) = _
    rw [rounded_reconstructed hpos]
  · rw [hflattenScale, hscaleEq', ← hmax, ← hscale']
    rfl

end Kyro.Quantization.Int8Linear
