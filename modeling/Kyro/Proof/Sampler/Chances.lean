import Kyro.Lib.Uniform
import Kyro.Proof.Sampler.Safety

/-!
# The chance of a token

Over a uniform draw, `sample_token` takes each token that the filters leave with the share of its
softmax weight among them, and no other token.
-/

namespace Kyro.Sampler

open ExactFloat Categorical MeasureTheory

section Kept

variable {K : Type} [Field K] [LinearOrder K] (sampler : Sampler K) (temperature topP : ℚ)
  (topK : Option ℕ) (logits : List (ExactFloat K))

/-- The candidates that the draw is from, with their probabilities. -/
def kept : List (ℕ × K) :=
  if topP < 1 then nucleus (topP : K) (sampler.distribution temperature topK logits)
  else sampler.distribution temperature topK logits

def keptIds : List ℕ := (sampler.kept temperature topP topK logits).map (·.1)

variable {sampler temperature topP topK logits}

theorem mem_of_mem_kept {w : ℕ × K} (hw : w ∈ sampler.kept temperature topP topK logits) :
    w ∈ sampler.distribution temperature topK logits := by
  rw [kept] at hw
  split at hw
  · exact mem_of_mem_nucleus hw
  · exact hw

theorem keptIds_nodup : (sampler.keptIds temperature topP topK logits).Nodup := by
  have hall : ((sampler.distribution temperature topK logits).map (·.1)).Nodup := by
    rw [map_fst_distribution]
    exact candidates_nodup ..
  rw [keptIds, kept]
  split
  · have hperm := (List.mergeSort_perm (sampler.distribution temperature topK logits)
      fun v w => decide (w.2 ≤ v.2)).map (·.1)
    exact (hperm.nodup_iff.mpr hall).sublist ((List.take_sublist ..).map _)
  · exact hall

/-- Without filters every token is kept. -/
theorem keptIds_all (h : 1 ≤ topP) :
    sampler.keptIds temperature topP none logits = List.range logits.length := by
  rw [keptIds, kept, if_neg (not_lt.mpr h), map_fst_distribution, candidates, selected,
    map_fst_mapIdx, List.length_map]

end Kept

section Draws

variable {K : Type} [Field K] [LinearOrder K] [IsStrictOrderedRing K] {sampler : Sampler K}
  {temperature topP : ℚ} {topK : Option ℕ} {n : ℕ} {logits : List (ExactFloat K)}

theorem kept_nonneg (h : Weighted n (sampler.candidates temperature topK logits)) (topP : ℚ) :
    ∀ w ∈ sampler.kept temperature topP topK logits, 0 ≤ w.2 :=
  fun w hw => probabilities_nonneg sampler h w (mem_of_mem_kept hw)

theorem mass_kept_pos (h : Weighted n (sampler.candidates temperature topK logits)) (topP : ℚ) :
    0 < mass (sampler.kept temperature topP topK logits) := by
  have hpossible := exists_probability_pos sampler h
  have hwhole : 0 < mass (sampler.distribution temperature topK logits) :=
    (mass_probabilities sampler h).symm ▸ one_pos
  have hnonneg := kept_nonneg h topP
  rw [kept] at hnonneg ⊢
  split
  · rename_i htopP
    rw [if_pos htopP] at hnonneg
    obtain ⟨v, hv, hpos⟩ := hpossible
    have hnucleus : IsNucleus (topP : K) (sampler.distribution temperature topK logits) _ :=
      isNucleus_nucleus _ (List.ne_nil_of_mem hv)
    obtain ⟨w, rest, hfront⟩ := List.exists_cons_of_ne_nil hnucleus.ne_nil
    rw [hfront] at hnonneg ⊢
    rw [mass_cons]
    exact add_pos_of_pos_of_nonneg (hpos.trans_le (hnucleus.le_head hfront hv))
      (mass_nonneg fun u hu => hnonneg u (.tail w hu))
  · exact hwhole

/-- Where a walk along the kept candidates ends, there the sampler ends. -/
theorem sampleToken_of_walk (h : Masked n logits) (htemperature : 0 < temperature)
    (htopK : topK ≠ some 0) {draw : Draw K} {id : ℕ}
    (hwalk : walk (draw.unit * mass (sampler.kept temperature topP topK logits))
      (sampler.kept temperature topP topK logits) = some id) :
    sampler.sampleToken draw temperature topP topK logits = .ok (UInt32.ofNat id) := by
  have hweighted : Weighted n (sampler.candidates temperature topK logits) :=
    selected_weighted sampler (weighted_scaled h htemperature) htopK
  rw [sampleToken_eq sampler h htemperature htopK]
  rw [kept] at hwalk
  split
  · rename_i htopP
    rw [if_pos htopP] at hwalk
    have hcomparable :
        Comparable (asEntries (sampler.distribution temperature topK logits)) := by
      apply comparable_of_ne_nan
      intro entry hentry
      obtain ⟨w, _, rfl⟩ := List.mem_map.mp hentry
      exact fun hnan => by cases hnan
    have hmul : ∀ a b : K, finite a * finite b = finite (a * b) := fun _ _ => rfl
    rw [sampleNucleus, if_pos hcomparable]
    dsimp only
    rw [mergeSort_asEntries, take_cutOff_asEntries, sum_asEntries, hmul, pick_asEntries, hwalk]
    rfl
  · rename_i htopP
    have hmass : mass (sampler.distribution temperature topK logits) = 1 :=
      mass_probabilities sampler hweighted
    rw [if_neg htopP, hmass, mul_one] at hwalk
    rw [sampleAll, pick_asEntries, hwalk]

/-- A draw above zero takes a token exactly if the walk does. -/
theorem sampleToken_iff_walk (h : Masked n logits) (hn : n ≤ 2 ^ 32)
    (htemperature : 0 < temperature) (htopK : topK ≠ some 0) {draw : Draw K}
    (hpos : 0 < draw.unit) {id : ℕ} (hid : id < n) :
    sampler.sampleToken draw temperature topP topK logits = .ok (UInt32.ofNat id) ↔
      walk (draw.unit * mass (sampler.kept temperature topP topK logits))
        (sampler.kept temperature topP topK logits) = some id := by
  have hweighted : Weighted n (sampler.candidates temperature topK logits) :=
    selected_weighted sampler (weighted_scaled h htemperature) htopK
  refine ⟨fun hsample => ?_, sampleToken_of_walk h htemperature htopK⟩
  have hmass := mass_kept_pos hweighted topP
  obtain ⟨w, hw, hwalk, -⟩ := exists_walk_pos (mul_pos hpos hmass)
    (mul_le_of_le_one_left hmass.le draw.unit_lt_one.le)
  rw [sampleToken_of_walk h htemperature htopK hwalk] at hsample
  have hw : w.1 < n := distribution_lt sampler hweighted (mem_of_mem_kept hw)
  have heq := congrArg UInt32.toNat (Except.ok.inj hsample)
  rw [UInt32.toNat_ofNat', UInt32.toNat_ofNat', Nat.mod_eq_of_lt (hw.trans_le hn),
    Nat.mod_eq_of_lt (hid.trans_le hn)] at heq
  rw [hwalk, heq]

end Draws

/-! ### Softmax weights -/

/-- `exp(logit / temperature)`, which is nothing for a masked token. -/
noncomputable def softWeight (temperature : ℚ) (logits : List (ExactFloat ℝ)) (id : ℕ) : ℝ :=
  match logits[id]? with
  | some (finite a) => Real.exp (a / temperature)
  | _ => 0

section Weights

variable {sampler : Sampler ℝ} {temperature topP : ℚ} {topK : Option ℕ} {n : ℕ}
  {logits : List (ExactFloat ℝ)}

/-- The probabilities are the softmax weights up to a factor. -/
theorem exists_factor (hexp : sampler.exp = Real.exp) (h : Masked n logits)
    (htemperature : 0 < temperature) (htopK : topK ≠ some 0) :
    ∃ c : ℝ, 0 < c ∧ ∀ w ∈ sampler.distribution temperature topK logits,
      w.2 = c * softWeight temperature logits w.1 := by
  have hscaled := weighted_scaled h htemperature
  have hweighted : Weighted n (sampler.candidates temperature topK logits) :=
    selected_weighted sampler hscaled htopK
  have htotal := mass_weights_pos sampler hweighted
  obtain ⟨m, hm, -⟩ := hweighted.exists_largest
  have hpos : (0 : ℝ) < temperature := Rat.cast_pos.mpr htemperature
  refine ⟨(Real.exp m)⁻¹ / mass (weights sampler.exp (sampler.candidates temperature topK logits)),
    div_pos (inv_pos.mpr (Real.exp_pos m)) htotal, fun w hw => ?_⟩
  obtain ⟨v, hv, rfl⟩ := List.mem_map.mp hw
  obtain ⟨entry, hentry, rfl⟩ := List.mem_map.mp hv
  obtain ⟨i, hi, rfl⟩ := List.mem_mapIdx.mp (mem_of_mem_selected sampler hentry)
  rw [List.length_map] at hi
  dsimp only
  rw [hm, List.getElem_map, softWeight, List.getElem?_eq_getElem hi, hexp, div_mul_eq_mul_div]
  congr 1
  cases hlogit : logits[i] with
  | finite a =>
      have hvalue : (finite a / finite (temperature : ℝ) - finite m).exp Real.exp =
          finite (Real.exp (a / temperature - m)) := by
        rw [finite_div_finite hpos.ne', finite_sub_finite]
        rfl
      rw [hvalue]
      dsimp only [ExactFloat.number]
      rw [Real.exp_sub, div_eq_inv_mul]
  | negInf =>
      have hvalue : (negInf / finite (temperature : ℝ) - finite m).exp Real.exp = finite 0 := by
        rw [negInf_div_finite hpos.le]
        rfl
      rw [hvalue, mul_zero]
      rfl
  | posInf =>
      have hlog := h.isLog _ (List.getElem_mem hi)
      rw [hlogit] at hlog
      cases hlog
  | nan =>
      have hlog := h.isLog _ (List.getElem_mem hi)
      rw [hlogit] at hlog
      cases hlog

/-- The share of a kept candidate is that of its softmax weight. -/
theorem share_kept (hexp : sampler.exp = Real.exp) (h : Masked n logits)
    (htemperature : 0 < temperature) (htopK : topK ≠ some 0) {w : ℕ × ℝ}
    (hw : w ∈ sampler.kept temperature topP topK logits) :
    w.2 / mass (sampler.kept temperature topP topK logits) =
      softWeight temperature logits w.1 /
        ((sampler.keptIds temperature topP topK logits).map
          (softWeight temperature logits)).sum := by
  obtain ⟨c, hc, hfactor⟩ := exists_factor hexp h htemperature htopK
  have hmass : mass (sampler.kept temperature topP topK logits) =
      c * ((sampler.keptIds temperature topP topK logits).map
        (softWeight temperature logits)).sum := by
    rw [mass, keptIds, List.map_map, ← List.sum_map_mul_left]
    exact congrArg List.sum (List.map_congr_left fun v hv => hfactor v (mem_of_mem_kept hv))
  rw [hfactor w (mem_of_mem_kept hw), hmass, mul_div_mul_left _ _ hc.ne']

/-- **The chance of a token.** Among the tokens that the filters leave each one is drawn with the
share of its softmax weight, and no other token is drawn. -/
theorem sampleToken_chance (hexp : sampler.exp = Real.exp) (h : Masked n logits)
    (hn : n ≤ 2 ^ 32) (htemperature : 0 < temperature) (htopK : topK ≠ some 0) (index : Fin 100)
    {id : ℕ} (hid : id < n) :
    volume {u : ℝ | ∃ (hnonneg : 0 ≤ u) (hlt : u < 1),
        sampler.sampleToken ⟨index, u, hnonneg, hlt⟩ temperature topP topK logits =
          .ok (UInt32.ofNat id)} =
      ENNReal.ofReal (if id ∈ sampler.keptIds temperature topP topK logits then
        softWeight temperature logits id /
          ((sampler.keptIds temperature topP topK logits).map
            (softWeight temperature logits)).sum
      else 0) := by
  have hweighted : Weighted n (sampler.candidates temperature topK logits) :=
    selected_weighted sampler (weighted_scaled h htemperature) htopK
  have hwalks : {u : ℝ | ∃ (hnonneg : 0 ≤ u) (hlt : u < 1),
        sampler.sampleToken ⟨index, u, hnonneg, hlt⟩ temperature topP topK logits =
          .ok (UInt32.ofNat id)} =ᵐ[volume]
      {u : ℝ | 0 ≤ u ∧ u < 1 ∧ walk (u * mass (sampler.kept temperature topP topK logits))
        (sampler.kept temperature topP topK logits) = some id} := by
    refine Filter.eventuallyEq_set.mpr ?_
    filter_upwards [measure_eq_zero_iff_ae_notMem.mp (Real.volume_singleton (a := 0))] with u hzero
    constructor
    · rintro ⟨hnonneg, hlt, hsample⟩
      have hpos : 0 < u := lt_of_le_of_ne hnonneg (Ne.symm hzero)
      exact ⟨hnonneg, hlt, (sampleToken_iff_walk h hn htemperature htopK hpos hid).mp hsample⟩
    · rintro ⟨hnonneg, hlt, hwalk⟩
      exact ⟨hnonneg, hlt, sampleToken_of_walk h htemperature htopK hwalk⟩
  rw [measure_congr hwalks]
  split
  · rename_i hmem
    obtain ⟨w, hw, rfl⟩ := List.mem_map.mp hmem
    rw [← share_kept hexp h htemperature htopK hw]
    have hnodup : ((sampler.kept temperature topP topK logits).map (·.1)).Nodup := keptIds_nodup
    have hnonneg := kept_nonneg hweighted topP
    have hmass := mass_kept_pos hweighted topP
    obtain ⟨front, back, hsplit⟩ := List.append_of_mem hw
    rw [hsplit] at hnodup hnonneg hmass ⊢
    exact volume_walk hnodup hnonneg hmass
  · rename_i hmem
    rw [volume_walk_of_not_mem hmem, ENNReal.ofReal_zero]

end Weights

/-- Two tokens without filters. -/
theorem sampleToken_chance_of_two :
    volume {u : ℝ | ∃ (hnonneg : 0 ≤ u) (hlt : u < 1),
        real.sampleToken ⟨0, u, hnonneg, hlt⟩ 1 1 none [finite 0, finite 1] =
          .ok (UInt32.ofNat 1)} =
      ENNReal.ofReal (Real.exp 1 / (1 + Real.exp 1)) := by
  have hmasked : Masked 2 [finite (0 : ℝ), finite 1] :=
    masked_finite (List.cons_ne_nil (0 : ℝ) [1])
  have hnone : (none : Option ℕ) ≠ some 0 := (Option.some_ne_none 0).symm
  rw [sampleToken_chance rfl hmasked (by norm_num) one_pos hnone 0 one_lt_two, keptIds_all le_rfl]
  have hfirst : softWeight 1 [finite 0, finite 1] 0 = 1 := by
    show Real.exp (0 / ((1 : ℚ) : ℝ)) = 1
    rw [zero_div, Real.exp_zero]
  have hsecond : softWeight 1 [finite 0, finite 1] 1 = Real.exp 1 := by
    show Real.exp (1 / ((1 : ℚ) : ℝ)) = Real.exp 1
    rw [Rat.cast_one, div_one]
  simp [List.range_succ, hfirst, hsecond]

end Kyro.Sampler
