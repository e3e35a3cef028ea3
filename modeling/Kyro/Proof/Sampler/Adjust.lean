import Kyro.Sampler
import Kyro.Lib.Run

/-!
# The adjusted logits

A bias and the penalties turn numbers into numbers, whatever ids they name. A grammar leaves
logarithms of weights of which the first is a number, unless the JSON tokens lie outside of the
vocabulary: then it panics.
-/

namespace Kyro.Sampler

open ExactFloat

variable {K : Type}

/-! ### Updates of a vector -/

section Vector

variable {α β : Type} {n : ℕ}

theorem updateAt_of_lt {xs : List α} {i : ℕ} (h : i < xs.length) (f : α → α) :
    updateAt xs i f = .ok (xs.modify i f) := if_pos h

theorem updateInside_length (xs : List α) (i : ℕ) (f : α → α) :
    ∃ ys, updateInside xs i f = .ok ys ∧ ys.length = xs.length := by
  rw [updateInside]
  split
  · rename_i hlt
    exact ⟨_, updateAt_of_lt hlt f, List.length_modify ..⟩
  · exact ⟨xs, rfl, rfl⟩

/-- A loop of guarded updates. -/
theorem foldlM_updateInside (index : β → ℕ) (f : β → α → α) (updates : List β) (xs : List α) :
    ∃ ys, updates.foldlM (fun xs u => updateInside xs (index u) (f u)) xs = .ok ys ∧
      ys.length = xs.length := by
  rw [← Machine.run_eq_foldlM]
  apply Machine.run_progress (P := fun _ _ => True) (I := fun ys : List α => ys.length = xs.length)
    _ rfl (Machine.along_true _ _)
  intro ys u hys _
  obtain ⟨zs, hzs, hlength⟩ := updateInside_length ys (index u) (f u)
  exact ⟨zs, hzs, hlength.trans hys⟩

/-- A loop of unguarded updates panics as soon as one of them is out of range. -/
theorem foldlM_updateAt_panics (f : α → α) {ids : List ℕ} {i : ℕ} (hi : i ∈ ids) {xs : List α}
    (hle : xs.length ≤ i) :
    ids.foldlM (fun xs i => updateAt xs i f) xs = .error .index := by
  induction ids generalizing xs with
  | nil => cases hi
  | cons j ids ih =>
      rw [List.foldlM_cons]
      by_cases hj : j < xs.length
      · have hmem : i ∈ ids := by
          rcases List.mem_cons.mp hi with heq | hmem
          · omega
          · exact hmem
        have hlength : (xs.modify j f).length ≤ i := by
          rw [List.length_modify]
          exact hle
        rw [updateAt_of_lt hj]
        exact ih hmem hlength
      · rw [updateAt, if_neg hj]
        rfl

end Vector

/-! ### The input of the sampler -/

/-- Logarithms of weights, some of them numbers. -/
structure Masked (n : ℕ) (logits : List (ExactFloat K)) : Prop where
  length_eq : logits.length = n
  isLog : ∀ x ∈ logits, x.IsLog
  exists_finite : ∃ a, finite a ∈ logits

theorem Masked.ne_nil {n : ℕ} {logits : List (ExactFloat K)} (h : Masked n logits) :
    logits ≠ [] := by
  obtain ⟨_, hmem⟩ := h.exists_finite
  exact List.ne_nil_of_mem hmem

theorem masked_finite {logits : List K} (h : logits ≠ []) :
    Masked logits.length (logits.map finite) where
  length_eq := List.length_map ..
  isLog x hx := by
    obtain ⟨a, _, rfl⟩ := List.mem_map.mp hx
    exact .finite a
  exists_finite := by
    obtain ⟨a, ha⟩ := List.exists_mem_of_ne_nil logits h
    exact ⟨a, List.mem_map_of_mem ha⟩

/-! ### Bias and penalties -/

theorem zipWith_finite [AddGroup K] (logits accum : List K) :
    List.zipWith (fun logit bias => logit + finite bias) (logits.map finite) accum =
      (List.zipWith (· + ·) logits accum).map finite := by
  rw [List.zipWith_map_left, List.map_zipWith]
  rfl

variable [Field K]

theorem addLogitBias_finite (bias : List (Token × ℚ)) (logits : List K) :
    ∃ adjusted : List K, addLogitBias bias (logits.map finite) = .ok (adjusted.map finite) ∧
      adjusted.length = logits.length := by
  obtain ⟨accum, haccum, hlength⟩ := foldlM_updateInside
    (fun entry : Token × ℚ => entry.1.toNat) (fun entry => (· + (entry.2 : K))) bias
    (List.replicate (logits.map finite).length 0)
  refine ⟨List.zipWith (· + ·) logits accum, ?_, ?_⟩
  · rw [addLogitBias, haccum, ← zipWith_finite]
    rfl
  · rw [List.length_zipWith, hlength, List.length_replicate, List.length_map, Nat.min_self]

theorem addPenalties_finite [LinearOrder K] (frequencyPenalty presencePenalty : ℚ)
    (generated : List Token) (logits : List K) :
    ∃ adjusted : List K, addPenalties frequencyPenalty presencePenalty generated
        (logits.map finite) = .ok (adjusted.map finite) ∧ adjusted.length = logits.length := by
  obtain ⟨sums, hsums, hsumsLength⟩ := foldlM_updateInside (fun token : Token => token.toNat)
    (fun _ => (· + (frequencyPenalty : K))) generated
    (List.replicate (logits.map finite).length 0)
  obtain ⟨mask, hmask, hmaskLength⟩ := foldlM_updateInside (fun token : Token => token.toNat)
    (fun _ => (min · 0 + (presencePenalty : K))) generated sums
  refine ⟨List.zipWith (· + ·) logits mask, ?_, ?_⟩
  · rw [addPenalties, hsums, Machine.ok_bind, hmask, ← zipWith_finite]
    rfl
  · rw [List.length_zipWith, hmaskLength, hsumsLength, List.length_replicate, List.length_map,
      Nat.min_self]

theorem biased_finite (params : SamplingParams) (logits : List K) :
    ∃ adjusted : List K, biased params (logits.map finite) = .ok (adjusted.map finite) ∧
      adjusted.length = logits.length := by
  rw [biased]
  split
  · exact addLogitBias_finite _ logits
  · exact ⟨logits, rfl, rfl⟩

theorem penalized_finite [LinearOrder K] (params : SamplingParams)
    (generated : Option (List Token)) (logits : List K) :
    ∃ adjusted : List K, penalized params generated (logits.map finite) =
      .ok (adjusted.map finite) ∧ adjusted.length = logits.length := by
  unfold penalized
  split
  · cases generated with
    | none => exact ⟨logits, rfl, rfl⟩
    | some generated => exact addPenalties_finite _ _ generated logits
  · exact ⟨logits, rfl, rfl⟩

/-! ### Grammars -/

theorem getValidTokens_eq_cons {n : ℕ} (hn : 0 < n) (grammar : GrammarConstraint) :
    ∃ rest, getValidTokens n grammar = 0 :: rest := by
  obtain ⟨m, rfl⟩ := Nat.exists_eq_succ_of_ne_zero hn.ne'
  cases grammar with
  | none => exact ⟨_, List.range_succ_eq_map⟩
  | json => exact ⟨_, rfl⟩
  | regex _ => exact ⟨_, List.range_succ_eq_map⟩

theorem getValidTokens_lt {n : ℕ} {grammar : GrammarConstraint}
    (hjson : grammar = .json → 126 ≤ n) : ∀ id ∈ getValidTokens n grammar, id < n := by
  intro id hid
  cases grammar with
  | none => exact List.mem_range.mp hid
  | json =>
      have hle : ∀ id ∈ jsonTokens, id ≤ 125 := by decide
      have := hle id hid
      have := hjson rfl
      omega
  | regex _ => exact List.mem_range.mp hid

/-- A request gets a grammar exactly if it asks for JSON. -/
theorem grammarProcessor_cases (payload : ChatCompletionRequest) :
    payload.grammarProcessor = some .json ∧
        (payload.responseFormat = some "json_object" ∨ payload.responseFormat = some "json") ∨
      payload.grammarProcessor = none ∧
        ¬ (payload.responseFormat = some "json_object" ∨ payload.responseFormat = some "json") := by
  rw [ChatCompletionRequest.grammarProcessor]
  cases hformat : payload.responseFormat with
  | none => exact Or.inr ⟨rfl, by simp⟩
  | some format =>
      rw [Option.bind_some]
      split
      · exact Or.inl ⟨rfl, Or.inl rfl⟩
      · exact Or.inl ⟨rfl, Or.inr rfl⟩
      · rename_i hobject hjson
        refine Or.inr ⟨rfl, fun heq => ?_⟩
        rcases heq with heq | heq
        · exact hobject (Option.some.inj heq)
        · exact hjson (Option.some.inj heq)

theorem applyGrammarMask_json_panics {logits : List (ExactFloat K)} (h : logits.length < 126) :
    applyGrammarMask .json logits = .error .index := by
  have hmem : 125 ∈ jsonTokens := by decide
  have hle : (List.replicate logits.length (negInf : ExactFloat K)).length ≤ 125 := by
    rw [List.length_replicate]
    omega
  rw [applyGrammarMask, getValidTokens, foldlM_updateAt_panics _ hmem hle]
  rfl

/-- A mask that lets the first token through. -/
structure IsMask (n : ℕ) (mask : List (ExactFloat K)) : Prop where
  length_eq : mask.length = n
  head_eq : mask[0]? = some 0
  entries : ∀ x ∈ mask, x = 0 ∨ x = negInf

theorem isMask_first {n : ℕ} (hn : 0 < n) :
    ∃ mask : List (ExactFloat K),
      updateAt (List.replicate n negInf) 0 (fun _ => 0) = .ok mask ∧ IsMask n mask := by
  obtain ⟨m, rfl⟩ := Nat.exists_eq_succ_of_ne_zero hn.ne'
  refine ⟨0 :: List.replicate m negInf, rfl, ?_, rfl, ?_⟩
  · rw [List.length_cons, List.length_replicate]
  · intro x hx
    rcases List.mem_cons.mp hx with rfl | hx
    · exact Or.inl rfl
    · exact Or.inr (List.eq_of_mem_replicate hx)

theorem isMask_update {n id : ℕ} {mask : List (ExactFloat K)} (h : IsMask n mask) (hid : id < n) :
    ∃ mask', updateAt mask id (fun _ => 0) = .ok mask' ∧ IsMask n mask' := by
  refine ⟨_, updateAt_of_lt (h.length_eq.symm ▸ hid) _, ?_, ?_, ?_⟩
  · rw [List.length_modify, h.length_eq]
  · rw [List.getElem?_modify, h.head_eq]
    split <;> rfl
  · intro x hx
    rw [← List.set_eq_modify] at hx
    rcases List.mem_or_eq_of_mem_set hx with hx | hx
    · exact h.entries x hx
    · exact Or.inl hx

theorem masked_add {logits : List K} {mask : List (ExactFloat K)} (hne : logits ≠ [])
    (h : IsMask logits.length mask) :
    Masked logits.length (List.zipWith (· + ·) (logits.map finite) mask) := by
  refine ⟨?_, ?_, ?_⟩
  · rw [List.length_zipWith, List.length_map, h.length_eq, Nat.min_self]
  · intro x hx
    rw [List.zipWith_map_left, ← List.map_uncurry_zip_eq_zipWith] at hx
    obtain ⟨⟨a, b⟩, hmem, rfl⟩ := List.mem_map.mp hx
    rcases h.entries b (List.of_mem_zip hmem).2 with rfl | rfl
    · exact .finite (a + 0)
    · exact .negInf
  · obtain ⟨a, rest, rfl⟩ := List.exists_cons_of_ne_nil hne
    obtain ⟨tail, rfl⟩ : ∃ tail, mask = 0 :: tail := by
      cases mask with
      | nil => cases h.head_eq
      | cons x tail => exact ⟨tail, by rw [Option.some.inj h.head_eq]⟩
    exact ⟨a + 0, List.mem_cons_self⟩

theorem applyGrammarMask_masked {logits : List K} (hne : logits ≠ []) {grammar : GrammarConstraint}
    (hjson : grammar = .json → 126 ≤ logits.length) :
    ∃ masked, applyGrammarMask grammar (logits.map finite) = .ok masked ∧
      Masked logits.length masked := by
  have hpos := List.length_pos_of_ne_nil hne
  have hvalid := getValidTokens_lt hjson
  obtain ⟨rest, hrest⟩ := getValidTokens_eq_cons hpos grammar
  rw [hrest] at hvalid
  obtain ⟨first, hfirst, hisMask⟩ := isMask_first (K := K) hpos
  obtain ⟨mask, hmask, hmaskIs⟩ := Machine.run_progress (P := fun _ id => id < logits.length)
    (I := IsMask logits.length) (fun _ _ h hid => isMask_update h hid) hisMask
    (Machine.along_of_forall (fun id hid => hvalid id (.tail _ hid)) _)
  refine ⟨_, ?_, masked_add hne hmaskIs⟩
  rw [applyGrammarMask, List.length_map, hrest, List.foldlM_cons, hfirst, Machine.ok_bind,
    ← Machine.run_eq_foldlM, hmask]
  rfl

end Kyro.Sampler
