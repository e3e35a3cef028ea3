import Kyro.Proof.Sampler.Draws
import Mathlib.Analysis.Complex.Exponential

/-!
# No request crashes the sampler, but for two kinds

Every stage of `sample_token` returns entries it was given, so the ids stay below the length of the
logits, and no probability is NaN as long as one of the logits is a number. What can be lost is the
last entry: `top_k` zero keeps none, and the fallback of the nucleus indexes the first of them.
-/

namespace Kyro.Sampler

open ExactFloat Categorical

variable {K : Type}

theorem toNat_ofNat_lt {id n : ℕ} (h : id < n) : (UInt32.ofNat id).toNat < n := by
  have : id % 2 ^ 32 ≤ id := Nat.mod_le ..
  rw [UInt32.toNat_ofNat']
  omega

section Order

variable [LinearOrder K]

/-! ### The largest logit -/

theorem argmaxFrom_lt {best : Entry K} {i n : ℕ} {xs : List (ExactFloat K)} (hbest : best.1 < n)
    (hi : i + xs.length ≤ n) : argmaxFrom best i xs < n := by
  induction xs generalizing best i with
  | nil => exact hbest
  | cons x xs ih =>
      rw [List.length_cons] at hi
      rw [argmaxFrom]
      apply ih
      · split
        · change i < n
          omega
        · exact hbest
      · omega

theorem argmax_lt {xs : List (ExactFloat K)} (h : xs ≠ []) : argmax xs < xs.length := by
  cases xs with
  | nil => exact absurd rfl h
  | cons x xs =>
      apply argmaxFrom_lt
      · exact Nat.succ_pos _
      · rw [List.length_cons]
        omega

end Order

variable [Field K] [LinearOrder K]

/-! ### The pipeline -/

theorem nextToken_json_panics (sampler : Sampler K) (draw : Draw K) (params : SamplingParams)
    (generated : Option (List Token)) {logits : List K} (hsmall : logits.length < 126) :
    sampler.nextToken draw params (some .json) generated (logits.map finite) = .error .index := by
  obtain ⟨numbers, hbiased, hbiasedLength⟩ := biased_finite params logits
  obtain ⟨adjusted, hpenalized, hpenalizedLength⟩ := penalized_finite params generated numbers
  have hlength : (adjusted.map finite).length < 126 := by
    rw [List.length_map]
    omega
  rw [nextToken, hbiased, Machine.ok_bind, hpenalized, Machine.ok_bind, constrained,
    applyGrammarMask_json_panics hlength]
  rfl

variable [IsStrictOrderedRing K]

theorem sampleToken_panics (sampler : Sampler K) (draw : Draw K) {temperature topP : ℚ}
    {n : ℕ} {logits : List (ExactFloat K)} (h : Masked n logits) (htopP : topP < 1)
    (htemperature : 0 < temperature) :
    sampler.sampleToken draw temperature topP (some 0) logits = .error .index := by
  rw [sampleToken_of_kept h.ne_nil htemperature
    (keepTopK_zero sampler (weighted_scaled h htemperature)), if_pos htopP, softmax_nil,
    sampleNucleus_nil]
  rfl

/-- `sample_token` fails exactly where the nucleus of no entry at all is asked for. -/
theorem sampleToken_safe_iff (sampler : Sampler K) (draw : Draw K) (temperature topP : ℚ)
    (topK : Option ℕ) {n : ℕ} {logits : List (ExactFloat K)} (h : Masked n logits) :
    (∃ token, sampler.sampleToken draw temperature topP topK logits = .ok token ∧
      token.toNat < n) ↔ ¬ (topK = some 0 ∧ topP < 1 ∧ 0 < temperature) := by
  have hne := h.ne_nil
  have hn : 0 < n := h.length_eq ▸ List.length_pos_of_ne_nil hne
  rcases le_or_gt temperature 0 with hcold | hwarm
  · rw [sampleToken, if_neg (by rw [List.isEmpty_iff]; exact hne), if_pos hcold]
    apply iff_of_true
    · exact ⟨_, rfl, toNat_ofNat_lt (h.length_eq ▸ argmax_lt hne)⟩
    · exact fun hbad => absurd hbad.2.2 (not_lt.mpr hcold)
  have hscaled := weighted_scaled h hwarm
  by_cases htopK : topK = some 0
  · subst htopK
    by_cases htopP : topP < 1
    · rw [sampleToken_panics sampler draw h htopP hwarm]
      apply iff_of_false
      · rintro ⟨token, herror, _⟩
        cases herror
      · exact not_not_intro ⟨rfl, htopP, hwarm⟩
    · rw [sampleToken_of_kept hne hwarm (keepTopK_zero sampler hscaled), if_neg htopP]
      apply iff_of_true
      · exact ⟨_, rfl, toNat_ofNat_lt hn⟩
      · exact fun hbad => htopP hbad.2.1
  · have hweighted : Weighted n (sampler.candidates temperature topK logits) :=
      selected_weighted sampler hscaled htopK
    have hnonneg := probabilities_nonneg sampler hweighted
    rw [sampleToken_eq sampler h hwarm htopK, distribution]
    apply iff_of_true
    · split
      · obtain ⟨w, hw, _, hsample⟩ :=
          sampleNucleus_asEntries draw topP (exists_probability_pos sampler hweighted) hnonneg
        rw [hsample]
        have hmem := mem_of_mem_nucleus hw
        exact ⟨_, rfl, toNat_ofNat_lt (distribution_lt sampler hweighted hmem)⟩
      · obtain ⟨w, hw, hsample⟩ :=
          sampleAll_mem draw hnonneg (mass_probabilities sampler hweighted)
        rw [hsample]
        exact ⟨_, rfl, toNat_ofNat_lt (distribution_lt sampler hweighted hw)⟩
    · exact fun hbad => htopK hbad.1

/-- With a vocabulary that holds the tokens of its grammar, only the nucleus is left to fail. -/
theorem nextToken_safe_iff_topK (sampler : Sampler K) (draw : Draw K) (params : SamplingParams)
    {grammar : Option GrammarConstraint} (generated : Option (List Token)) {logits : List K}
    (hlogits : logits ≠ []) (hgrammar : ∀ g, grammar = some g → g = .json → 126 ≤ logits.length) :
    (∃ token, sampler.nextToken draw params grammar generated (logits.map finite) = .ok token ∧
      token.toNat < logits.length) ↔
      ¬ (params.topK = some 0 ∧ params.topP < 1 ∧ 0 < params.temperature) := by
  obtain ⟨numbers, hbiased, hbiasedLength⟩ := biased_finite params logits
  obtain ⟨adjusted, hpenalized, hpenalizedLength⟩ := penalized_finite params generated numbers
  have hlength : adjusted.length = logits.length := hpenalizedLength.trans hbiasedLength
  have hne : adjusted ≠ [] :=
    List.ne_nil_of_length_pos (hlength ▸ List.length_pos_of_ne_nil hlogits)
  rw [← hlength] at hgrammar
  have hconstrained : ∃ masked, constrained grammar (adjusted.map finite) = .ok masked ∧
      Masked adjusted.length masked := by
    cases grammar with
    | none => exact ⟨_, rfl, masked_finite hne⟩
    | some grammar => exact applyGrammarMask_masked hne (hgrammar grammar rfl)
  obtain ⟨masked, hmasked, hspec⟩ := hconstrained
  rw [nextToken, hbiased, Machine.ok_bind, hpenalized, Machine.ok_bind, hmasked, Machine.ok_bind,
    ← hlength]
  exact sampleToken_safe_iff sampler draw _ _ _ hspec

/-- **What a request can do to the sampler.** For every request and all logits, an item gets a token
of the vocabulary without a panic exactly if the request does not ask for JSON from a vocabulary too
small for it, and does not ask for the nucleus of the zero largest logits at a positive
temperature. -/
theorem nextToken_safe_iff (sampler : Sampler K) (draw : Draw K) (payload : ChatCompletionRequest)
    (generated : Option (List Token)) {logits : List K} (hlogits : logits ≠ []) :
    (∃ token, sampler.nextToken draw payload.samplingParams payload.grammarProcessor generated
        (logits.map finite) = .ok token ∧ token.toNat < logits.length) ↔
      ¬ ((payload.responseFormat = some "json_object" ∨ payload.responseFormat = some "json") ∧
        logits.length < 126) ∧
      ¬ (payload.topK = some 0 ∧ payload.topP.getD 1 < 1 ∧ 0 < payload.temperature.getD 1) := by
  rcases grammarProcessor_cases payload with ⟨hgrammar, hformat⟩ | ⟨hgrammar, hformat⟩
  · rw [hgrammar]
    by_cases hsmall : logits.length < 126
    · rw [nextToken_json_panics sampler draw _ _ hsmall]
      apply iff_of_false
      · rintro ⟨token, herror, _⟩
        cases herror
      · exact fun hgood => hgood.1 ⟨hformat, hsmall⟩
    · rw [nextToken_safe_iff_topK sampler draw _ _ hlogits fun _ _ _ => Nat.le_of_not_lt hsmall]
      exact ⟨fun hgood => ⟨fun hbad => hsmall hbad.2, hgood⟩, fun hgood => hgood.2⟩
  · rw [hgrammar, nextToken_safe_iff_topK sampler draw _ _ hlogits fun _ hnone => by cases hnone]
    exact ⟨fun hgood => ⟨fun hbad => hformat hbad.1, hgood⟩, fun hgood => hgood.2⟩

/-- A full sort is a selection. -/
def sorting (exp : K → K) (exp_nonneg : ∀ a, 0 ≤ exp a) (exp_zero_pos : 0 < exp 0) :
    Sampler K where
  exp := exp
  exp_nonneg := exp_nonneg
  exp_zero_pos := exp_zero_pos
  select _ entries := entries.mergeSort fun a b => decide (b.2.rank ≤ a.2.rank)
  select_perm _ _ := List.mergeSort_perm ..
  select_before k entries _ a ha b hb := by
    have htrans : ∀ a b c : Entry K, decide (b.2.rank ≤ a.2.rank) = true →
        decide (c.2.rank ≤ b.2.rank) = true → decide (c.2.rank ≤ a.2.rank) = true := by
      intro a b c hab hbc
      exact decide_eq_true ((of_decide_eq_true hbc).trans (of_decide_eq_true hab))
    have htotal : ∀ a b : Entry K,
        (decide (b.2.rank ≤ a.2.rank) || decide (a.2.rank ≤ b.2.rank)) = true := by
      intro a b
      rw [Bool.or_eq_true, decide_eq_true_eq, decide_eq_true_eq]
      exact le_total ..
    have hsorted := List.pairwise_mergeSort htrans htotal entries
    rw [← List.take_append_drop k (entries.mergeSort _), List.pairwise_append] at hsorted
    have hle := of_decide_eq_true (hsorted.2.2 a ha b hb)
    exact fun hgt => absurd (rank_lt_of_partialCmp hgt) (not_lt.mpr hle)

/-- The sampler on the reals. -/
noncomputable def real : Sampler ℝ :=
  sorting Real.exp (fun a => (Real.exp_pos a).le) (Real.exp_pos 0)

noncomputable def lowestDraw : Draw ℝ := ⟨0, 0, le_refl 0, one_pos⟩

/-- Two of three logits are kept, and the draw is from those that make up a half. -/
theorem nextToken_safe_of_topK :
    ∃ token, real.nextToken lowestDraw
      { ChatCompletionRequest.plain with topK := some 2, topP := some (1 / 2) }.samplingParams
      none (some [1]) (([1, 2, 3] : List ℝ).map finite) = .ok token ∧ token.toNat < 3 :=
  (nextToken_safe_iff real lowestDraw
    { ChatCompletionRequest.plain with topK := some 2, topP := some (1 / 2) } (some [1])
    (List.cons_ne_nil (1 : ℝ) [2, 3])).mpr ⟨by simp [ChatCompletionRequest.plain], by simp⟩

/-- A request for the zero largest logits, and one for JSON from two tokens. -/
theorem nextToken_panics :
    real.nextToken lowestDraw
        { ChatCompletionRequest.plain with topK := some 0, topP := some (1 / 2) }.samplingParams
        none none (([1] : List ℝ).map finite) = .error .index ∧
      real.nextToken lowestDraw ChatCompletionRequest.plain.samplingParams
        { ChatCompletionRequest.plain with responseFormat := some "json_object" }.grammarProcessor
        none (([1, 2] : List ℝ).map finite) = .error .index := by
  constructor
  · have hhalf : (1 / 2 : ℚ) < 1 := by norm_num
    exact sampleToken_panics real lowestDraw (masked_finite (List.cons_ne_nil (1 : ℝ) [])) hhalf
      one_pos
  · have hsmall : ([1, 2] : List ℝ).length < 126 := by decide
    exact nextToken_json_panics real lowestDraw ChatCompletionRequest.plain.samplingParams none
      hsmall

end Kyro.Sampler
