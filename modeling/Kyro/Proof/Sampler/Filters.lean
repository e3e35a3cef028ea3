import Kyro.Proof.Sampler.Safety

/-!
# Sampling inside the filters

The token of `sample_token` is a candidate, so it is among the `k` largest logits, and one of the
nucleus where there is one, and its probability is above zero but for one case: without a nucleus
the draw zero takes the first candidate, whatever its probability.
-/

namespace Kyro.Sampler

open ExactFloat Categorical

variable {K : Type} [Field K] [LinearOrder K]

/-! ### The filters -/

section Filters

variable (sampler : Sampler K) (temperature topP : ℚ) (topK : Option ℕ)
  (logits : List (ExactFloat K))

/-- What the filters promise of a token: it is among the `k` largest logits, it lies in a nucleus of
the probabilities, and it is possible. -/
structure Filtered (id : ℕ) : Prop where
  amongLargest : ∀ k, topK = some k →
    ∃ logit, logits[id]? = some logit ∧ logits.countP (logit < ·) < k
  inNucleus : topP < 1 → ∃ front,
    IsNucleus (topP : K) (sampler.distribution temperature topK logits) front ∧
      ∃ w ∈ front, w.1 = id
  possible : ∃ w ∈ sampler.distribution temperature topK logits, w.1 = id ∧ w.2 ≠ 0

/-- The weight of the first candidate is zero. -/
def HeadImpossible : Prop :=
  ∃ entry rest, sampler.candidates temperature topK logits = entry :: rest ∧
    (entry.2 - largest (sampler.candidates temperature topK logits)).exp sampler.exp = 0

end Filters

variable [IsStrictOrderedRing K]

/-! ### The candidates -/

section Candidates

variable (sampler : Sampler K) {temperature : ℚ} {topK : Option ℕ} {n : ℕ}
  {logits : List (ExactFloat K)}

/-- As many scaled logits are above a scaled one as before. -/
theorem countP_scaled (h : Masked n logits) (htemperature : 0 < temperature)
    {logit : ExactFloat K} (hlogit : logit ∈ logits) :
    ((logits.map (· / finite (temperature : K))).mapIdx Prod.mk).countP
        (logit / finite (temperature : K) < ·.2) = logits.countP (logit < ·) := by
  have hpos : (0 : K) < temperature := Rat.cast_pos.mpr htemperature
  calc ((logits.map (· / finite (temperature : K))).mapIdx Prod.mk).countP
        (logit / finite (temperature : K) < ·.2)
      = (((logits.map (· / finite (temperature : K))).mapIdx Prod.mk).map (·.2)).countP
          (logit / finite (temperature : K) < ·) := by
        rw [List.countP_map]
        rfl
    _ = (logits.map (· / finite (temperature : K))).countP
          (logit / finite (temperature : K) < ·) := by rw [map_snd_mapIdx]
    _ = logits.countP (logit < ·) := by
        rw [List.countP_map]
        refine List.countP_congr fun x hx => ?_
        have hiff := (h.isLog logit hlogit).div_lt_div_iff (h.isLog x hx) hpos
        simpa using hiff

/-- A candidate is one of the `k` largest logits. -/
theorem amongLargest_of_mem (h : Masked n logits) (htemperature : 0 < temperature)
    {entry : Entry K} (hentry : entry ∈ sampler.candidates temperature topK logits) {k : ℕ}
    (hk : topK = some k) :
    ∃ logit, logits[entry.1]? = some logit ∧ logits.countP (logit < ·) < k := by
  subst hk
  have hfew := countP_lt_of_mem_selected sampler (weighted_scaled h htemperature) hentry
  obtain ⟨i, hi, rfl⟩ := List.mem_mapIdx.mp (mem_of_mem_selected sampler hentry)
  rw [List.length_map] at hi
  refine ⟨logits[i], List.getElem?_eq_getElem hi, ?_⟩
  rw [← countP_scaled h htemperature (List.getElem_mem hi)]
  rwa [List.getElem_map] at hfew

/-- The probability of the first candidate is zero exactly if its weight is. -/
theorem headImpossible_iff (h : Weighted n (sampler.candidates temperature topK logits))
    {w : ℕ × K} {ws : List (ℕ × K)}
    (hprs : sampler.distribution temperature topK logits = w :: ws) :
    sampler.HeadImpossible temperature topK logits ↔ w.2 = 0 := by
  rw [HeadImpossible]
  have hmass := (mass_weights_pos sampler h).ne'
  rw [distribution] at hprs
  generalize hcandidates : sampler.candidates temperature topK logits = entries at *
  obtain ⟨entry, rest, rfl⟩ := List.exists_cons_of_ne_nil h.ne_nil
  have hweight := (exp_sub_largest sampler h List.mem_cons_self).2
  have hw : w.2 = ((entry.2 - largest (entry :: rest)).exp sampler.exp).number /
      mass (weights sampler.exp (entry :: rest)) := by
    have hhead := (List.cons.inj hprs).1
    rw [← hhead]
  rw [hw, div_eq_zero_iff, or_iff_left hmass]
  constructor
  · rintro ⟨other, others, heq, hzero⟩
    obtain ⟨rfl, rfl⟩ := List.cons.inj heq
    rw [hzero]
    rfl
  · intro hzero
    rw [hzero] at hweight
    exact ⟨entry, rest, rfl, hweight⟩

/-- Where the walk ends at a possible token, the token is inside the filters. -/
theorem filtered_of_possible (h : Masked n logits) (htemperature : 0 < temperature) {topP : ℚ}
    {w : ℕ × K}
    (hw : w ∈ sampler.distribution temperature topK logits)
    (hpos : 0 < w.2) (hnucleus : topP < 1 → w ∈ nucleus (topP : K)
      (sampler.distribution temperature topK logits)) :
    sampler.Filtered temperature topP topK logits w.1 := by
  refine ⟨fun k hk => ?_, fun htopP => ?_, w, hw, rfl, hpos.ne'⟩
  · obtain ⟨entry, hentry, heq⟩ := exists_candidate sampler hw
    rw [← heq]
    exact amongLargest_of_mem sampler h htemperature hentry hk
  · exact ⟨_, isNucleus_nucleus _ (List.ne_nil_of_mem hw), w, hnucleus htopP, rfl⟩

end Candidates

/-- **Sampling stays inside its filters but for one draw.** The token is among the `k` largest
logits, in a nucleus and possible, unless there is no nucleus, the draw is zero and the first
candidate is impossible. -/
theorem sampleToken_filtered_iff (sampler : Sampler K) (draw : Draw K) {temperature topP : ℚ}
    {topK : Option ℕ} {n : ℕ} {logits : List (ExactFloat K)} (h : Masked n logits)
    (htemperature : 0 < temperature) (htopK : topK ≠ some 0) :
    ∃ id < n, sampler.sampleToken draw temperature topP topK logits = .ok (UInt32.ofNat id) ∧
      (sampler.Filtered temperature topP topK logits id ↔
        ¬ (1 ≤ topP ∧ draw.unit = 0 ∧ sampler.HeadImpossible temperature topK logits)) := by
  have hweighted : Weighted n (sampler.candidates temperature topK logits) :=
    selected_weighted sampler (weighted_scaled h htemperature) htopK
  have hpossible := exists_probability_pos sampler hweighted
  have hnonneg := probabilities_nonneg sampler hweighted
  rw [sampleToken_eq sampler h htemperature htopK]
  rcases lt_or_ge topP 1 with htopP | htopP
  · obtain ⟨w, hw, hpos, hsample⟩ := sampleNucleus_asEntries draw topP hpossible hnonneg
    have hmem := mem_of_mem_nucleus hw
    rw [if_pos htopP, distribution, hsample]
    refine ⟨w.1, distribution_lt sampler hweighted hmem, rfl, iff_of_true ?_ ?_⟩
    · exact filtered_of_possible sampler h htemperature hmem hpos fun _ => hw
    · exact fun hbad => absurd hbad.1 (not_le.mpr htopP)
  · rw [if_neg (not_lt.mpr htopP)]
    have hwhole : ∀ w : ℕ × K, topP < 1 → w ∈ nucleus (topP : K)
        (sampler.distribution temperature topK logits) :=
      fun _ hbelow => absurd hbelow (not_lt.mpr htopP)
    rcases draw.unit_nonneg.eq_or_lt with hzero | hpos
    · -- the walk ends at the head of the distribution
      obtain ⟨v, hv, _⟩ := hpossible
      obtain ⟨w, ws, hhead⟩ := List.exists_cons_of_ne_nil (List.ne_nil_of_mem hv)
      have hw : w ∈ sampler.distribution temperature topK logits :=
        (congrArg (w ∈ ·) hhead).mpr List.mem_cons_self
      rw [headImpossible_iff sampler hweighted hhead, distribution, hhead,
        sampleAll_zero hzero.symm (hnonneg w hw)]
      refine ⟨w.1, distribution_lt sampler hweighted hw, rfl, ?_, ?_⟩
      · rintro ⟨_, _, v, hv, hid, hne⟩ ⟨_, _, hw0⟩
        exact hne (distribution_unique sampler hv hw hid ▸ hw0)
      · intro hgood
        have hne : w.2 ≠ 0 := fun hw0 => hgood ⟨htopP, hzero.symm, hw0⟩
        exact filtered_of_possible sampler h htemperature hw
          (lt_of_le_of_ne (hnonneg w hw) hne.symm) (hwhole w)
    · obtain ⟨w, hw, hwpos, hsample⟩ :=
        sampleAll_asEntries draw (mass_probabilities sampler hweighted) hpos
      rw [distribution, hsample]
      refine ⟨w.1, distribution_lt sampler hweighted hw, rfl, iff_of_true ?_ ?_⟩
      · exact filtered_of_possible sampler h htemperature hw hwpos (hwhole w)
      · exact fun hbad => absurd hbad.2.1 hpos.ne'

/-- An exponential that comes down to zero, as it does in a format with a smallest number. -/
def underflow (a : ℚ) : ℚ := if a < -100 then 0 else 1

/-- The full sort with that exponential. -/
def coarse : Sampler ℚ :=
  sorting underflow (fun a => by rw [underflow]; split <;> decide) (by decide)

def zeroDraw : Draw ℚ := ⟨Fin.last 99, 0, by decide, by decide⟩

def halfDraw : Draw ℚ := ⟨Fin.last 99, 1 / 2, by decide +kernel, by decide +kernel⟩

theorem sampleToken_filtered_half :
    ∃ id < 2, coarse.sampleToken halfDraw 1 1 none ([-1000, 0].map finite) =
        .ok (UInt32.ofNat id) ∧ coarse.Filtered 1 1 none ([-1000, 0].map finite) id := by
  have hsample : ∃ id < 2, coarse.sampleToken halfDraw 1 1 none ([-1000, 0].map finite) =
        .ok (UInt32.ofNat id) ∧ (coarse.Filtered 1 1 none ([-1000, 0].map finite) id ↔
          ¬ ((1 : ℚ) ≤ 1 ∧ halfDraw.unit = 0 ∧
            coarse.HeadImpossible 1 none ([-1000, 0].map finite))) :=
    sampleToken_filtered_iff coarse halfDraw (masked_finite (List.cons_ne_nil (-1000) [0]))
      one_pos (by decide)
  obtain ⟨id, hlt, htoken, hiff⟩ := hsample
  have hdraw : halfDraw.unit ≠ 0 := by decide +kernel
  exact ⟨id, hlt, htoken, hiff.mpr fun hbad => hdraw hbad.2.1⟩

/-- The draw zero takes a token whose probability is zero. -/
theorem sampleToken_impossible :
    coarse.sampleToken zeroDraw 1 1 none ([-1000, 0].map finite) = .ok 0 ∧
      ¬ coarse.Filtered 1 1 none ([-1000, 0].map finite) 0 := by
  have hdistribution : coarse.distribution 1 none ([-1000, 0].map finite) = [(0, 0), (1, 1)] := by
    decide +kernel
  constructor
  · decide +kernel
  · intro hfiltered
    obtain ⟨w, hw, hid, hne⟩ := hfiltered.possible
    rw [hdistribution] at hw
    revert w
    decide

end Kyro.Sampler
