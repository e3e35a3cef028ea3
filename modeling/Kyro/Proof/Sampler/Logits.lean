import Kyro.Logits
import Kyro.Proof.Sampler.Safety

/-!
# The logits of all tokens

The model returns a row of logits for every token of its input, in three dimensions. A bias and a
penalty have two, so the addition fails and ends the worker loop. `sample_token` takes the rows for
one vocabulary.
-/

open ExactFloat

namespace Kyro.Sampler

variable {K : Type} [Field K] [LinearOrder K]

/-! ### Bias and penalties -/

omit [LinearOrder K] in
/-- A row of a vocabulary is for a matrix with one row. -/
theorem addRow_rank {logits : Tensor (ExactFloat K)} (hrank : logits.dims.length ≠ 2)
    (row : List K) : addRow logits row = .error .tensor := by
  rw [addRow, Tensor.fromSlice_eq_some (by simp)]
  simp only [Option.bind_eq_bind, Option.bind_some]
  rw [Tensor.unsqueeze, if_pos (Nat.zero_le _), Option.bind_some, Tensor.add, if_neg]
  · rfl
  · intro hdims
    apply hrank
    rw [hdims]
    rfl

omit [LinearOrder K] in
theorem biasedTensor_rank {params : SamplingParams} {logits : Tensor (ExactFloat K)}
    (hrank : 2 < logits.dims.length) : biasedTensor params logits =
      if params.logitBias = none then .ok logits else .error .tensor := by
  rw [biasedTensor]
  split
  · rename_i bias hbias
    rw [if_neg (by simp [hbias])]
    obtain ⟨vocabSize, hlast⟩ := Option.isSome_iff_exists.mp (List.getLast?_isSome.mpr
      (List.ne_nil_of_length_pos (Nat.zero_lt_of_lt hrank)))
    obtain ⟨accum, haccum, -⟩ := foldlM_updateInside (fun entry : Token × ℚ => entry.1.toNat)
      (fun entry => (· + (entry.2 : K))) bias (List.replicate vocabSize 0)
    rw [hlast, orTensor, Machine.ok_bind, haccum, liftPanic, Machine.ok_bind]
    exact addRow_rank (by omega) accum
  · rename_i hnone
    rw [if_pos hnone]

/-- Whether a request is penalised for the tokens it has. -/
def Penalised (params : SamplingParams) (generated : Option (List Token)) : Prop :=
  (params.frequencyPenalty ≠ 0 ∨ params.presencePenalty ≠ 0) ∧ generated ≠ none

instance (params : SamplingParams) (generated : Option (List Token)) :
    Decidable (Penalised params generated) := inferInstanceAs (Decidable (_ ∧ _))

theorem penalizedTensor_rank {params : SamplingParams} {generated : Option (List Token)}
    {logits : Tensor (ExactFloat K)} (hrank : 2 < logits.dims.length) :
    penalizedTensor params generated logits =
      if Penalised params generated then .error .tensor else .ok logits := by
  unfold penalizedTensor
  split
  · rename_i hpenalty
    cases generated with
    | none => rw [if_neg fun h => h.2 rfl]
    | some generated =>
        rw [if_pos ⟨hpenalty, by simp⟩]
        obtain ⟨vocabSize, hlast⟩ := Option.isSome_iff_exists.mp (List.getLast?_isSome.mpr
          (List.ne_nil_of_length_pos (Nat.zero_lt_of_lt hrank)))
        obtain ⟨sums, hsums, -⟩ := foldlM_updateInside (fun token : Token => token.toNat)
          (fun _ => (· + (params.frequencyPenalty : K))) generated (List.replicate vocabSize 0)
        obtain ⟨mask, hmask, -⟩ := foldlM_updateInside (fun token : Token => token.toNat)
          (fun _ => (min · 0 + (params.presencePenalty : K))) generated sums
        dsimp only
        rw [hlast, orTensor, Machine.ok_bind, hsums, liftPanic, Machine.ok_bind, hmask,
          liftPanic, Machine.ok_bind]
        exact addRow_rank (by omega) mask
  · rename_i hpenalty
    rw [if_neg fun h => hpenalty h.1]

/-! ### Rows -/

section Rows

variable {α : Type} {s vocab : ℕ}

/-- The entries of a matrix, row by row. -/
theorem flatten_matrix (e : List ℕ → α) : Tensor.flatten ⟨[s, vocab], e⟩ =
    ((List.range s).map fun j => (List.range vocab).map fun t => e [j, t]).flatten := by
  apply List.ext_getElem?
  intro i
  have hprod : ([s, vocab] : List ℕ).prod = s * vocab := by simp
  by_cases hi : i < s * vocab
  · have hpos : 0 < vocab := Nat.pos_of_ne_zero fun hzero => by
      rw [hzero, Nat.mul_zero] at hi
      omega
    have hmod := Nat.mod_lt i hpos
    rw [Tensor.getElem?_flatten (by rwa [hprod])]
    conv_rhs => rw [← Nat.div_add_mod' i vocab]
    rw [Tensor.getElem?_runs ((Nat.div_lt_iff_lt_mul hpos).mpr hi) (fun _ _ => by simp)
      (by simpa using hmod)]
    simp [Tensor.unravel, hmod]
  · rw [List.getElem?_eq_none (by rw [Tensor.length_flatten, hprod]; omega),
      List.getElem?_eq_none]
    rw [Tensor.length_runs]
    simp only [List.length_map, List.length_range, Finset.sum_const, Finset.card_range,
      smul_eq_mul]
    omega

end Rows

/-- The rows of the first matrix, one after another. -/
theorem sampleTensor_eq (sampler : Sampler K) (draw : Draw K) (temperature topP : ℚ)
    (topK : Option ℕ) {logits : Tensor (ExactFloat K)} {s vocab : ℕ}
    (hdims : logits.dims = [1, s, vocab]) :
    sampler.sampleTensor draw temperature topP topK logits =
      liftPanic (sampler.sampleToken draw temperature topP topK
        ((List.range s).map fun j =>
          (List.range vocab).map fun t => logits.entry [0, j, t]).flatten) := by
  obtain ⟨dims, entry⟩ := logits
  cases hdims
  rw [sampleTensor, if_neg (by simp), if_neg (by simp), Tensor.get_cons Nat.zero_lt_one, orTensor,
    Machine.ok_bind]
  dsimp only
  rw [flatten_matrix]

/-! ### Masks -/

section Masks

variable {t : Tensor K} {s vocab : ℕ}

omit [LinearOrder K] in
/-- The entries under a mask. -/
theorem masked_tensor (hdims : t.dims = [1, s, vocab]) (hs : 0 < s) (hvocab : 0 < vocab)
    {mask : List (ExactFloat K)} (hmask : IsMask vocab mask) :
    ∃ masked, ((Tensor.fromSlice mask [vocab]).bind fun mask =>
        (floats t).broadcastWith (· + ·) mask) = some masked ∧ masked.dims = [1, s, vocab] ∧
      Masked (s * vocab) ((List.range s).map fun j =>
        (List.range vocab).map fun t => masked.entry [0, j, t]).flatten := by
  obtain ⟨dims, entry⟩ := t
  cases hdims
  have hbroadcast : Tensor.broadcastDims [1, s, vocab] [1, 1, vocab] = some [1, s, vocab] := by
    simp [Tensor.broadcastDims]
  refine ⟨⟨[1, s, vocab], fun idx =>
    (Tensor.padTo (floats ⟨[1, s, vocab], entry⟩) 3).pick idx +
      (Tensor.padTo ⟨[vocab], fun idx => mask.getD (Tensor.offset [vocab] idx) 0⟩ 3).pick idx⟩,
    ?_, rfl, ?_⟩
  · rw [Tensor.fromSlice_eq_some (by simp [hmask.length_eq]), Option.bind_some]
    show (Tensor.broadcastDims [1, s, vocab] [1, 1, vocab]).map _ = _
    rw [hbroadcast]
    rfl
  · -- every entry is a number and an entry of the mask, the first of a row the first of the mask
    have hentry : ∀ j c, ∃ (a : K) (i : ℕ), (Tensor.padTo (floats ⟨[1, s, vocab], entry⟩) 3).pick
        [0, j, c] + (Tensor.padTo ⟨[vocab], fun idx => mask.getD (Tensor.offset [vocab] idx) 0⟩
          3).pick [0, j, c] = finite a + mask.getD i 0 ∧ (c = 0 → i = 0) := by
      intro j c
      refine ⟨_, _, rfl, fun hc => ?_⟩
      subst hc
      simp [Tensor.offset, Tensor.padTo]
    have hmaskEntry : ∀ i, mask.getD i 0 = 0 ∨ mask.getD i 0 = negInf := by
      intro i
      rw [List.getD_eq_getElem?_getD]
      cases hget : mask[i]? with
      | none => exact Or.inl rfl
      | some x => exact hmask.entries x (List.mem_of_getElem? hget)
    refine ⟨?_, ?_, ?_⟩
    · rw [Tensor.length_runs]
      simp
    · intro x hx
      obtain ⟨row, hrow, hx⟩ := List.mem_flatten.mp hx
      obtain ⟨j, -, rfl⟩ := List.mem_map.mp hrow
      obtain ⟨c, -, rfl⟩ := List.mem_map.mp hx
      obtain ⟨a, i, hsum, -⟩ := hentry j c
      dsimp only
      rw [hsum]
      rcases hmaskEntry i with hzero | hnegative
      · rw [hzero]
        exact .finite (a + 0)
      · rw [hnegative]
        exact .negInf
    · obtain ⟨a, i, hsum, hfirst⟩ := hentry 0 0
      rw [hfirst rfl, List.getD_eq_getElem?_getD, hmask.head_eq] at hsum
      refine ⟨a + 0, List.mem_flatten.mpr ⟨_, List.mem_map_of_mem (List.mem_range.mpr hs), ?_⟩⟩
      exact List.mem_map.mpr ⟨0, List.mem_range.mpr hvocab, hsum⟩

omit [LinearOrder K] in
/-- A mask is there exactly if the vocabulary has the tokens of the grammar. -/
theorem constrainedTensor_iff (hdims : t.dims = [1, s, vocab]) (hs : 0 < s) (hvocab : 0 < vocab)
    (grammar : Option GrammarConstraint) :
    if grammar = some .json → 126 ≤ vocab then
      ∃ masked, constrainedTensor grammar (floats t) = .ok masked ∧
        masked.dims = [1, s, vocab] ∧
        Masked (s * vocab) ((List.range s).map fun j =>
          (List.range vocab).map fun c => masked.entry [0, j, c]).flatten
    else constrainedTensor grammar (floats t) = .error (.panic .index) := by
  have hlast : (floats t).dims.getLast? = some vocab := by
    rw [floats, hdims]
    rfl
  cases grammar with
  | none =>
      rw [if_pos (by simp)]
      refine ⟨floats t, rfl, hdims, ?_⟩
      have hfinite : ((List.range s).map fun j =>
          (List.range vocab).map fun c => (floats t).entry [0, j, c]).flatten =
          (((List.range s).map fun j =>
            (List.range vocab).map fun c => t.entry [0, j, c]).flatten).map finite := by
        rw [List.map_flatten, List.map_map]
        congr 1
        refine List.map_congr_left fun j _ => ?_
        rw [Function.comp, List.map_map]
        rfl
      have hlength : (((List.range s).map fun j =>
          (List.range vocab).map fun c => t.entry [0, j, c]).flatten).length = s * vocab := by
        rw [Tensor.length_runs]
        simp
      rw [hfinite, ← hlength]
      exact masked_finite (List.ne_nil_of_length_pos (hlength ▸ Nat.mul_pos hs hvocab))
  | some grammar =>
      rw [constrainedTensor, hlast, orTensor, Machine.ok_bind]
      split
      · rename_i hjson
        have hvalid := getValidTokens_lt (n := vocab) fun h => hjson (congrArg some h)
        obtain ⟨rest, hrest⟩ := getValidTokens_eq_cons hvocab grammar
        rw [hrest] at hvalid
        obtain ⟨first, hfirst, hisMask⟩ := isMask_first (K := K) hvocab
        obtain ⟨mask, hmask, hmaskIs⟩ := Machine.run_progress (P := fun _ id => id < vocab)
          (I := IsMask vocab) (fun _ _ h hid => isMask_update h hid) hisMask
          (Machine.along_of_forall (fun id hid => hvalid id (.tail _ hid)) _)
        obtain ⟨masked, hmasked, hspec⟩ := masked_tensor hdims hs hvocab hmaskIs
        refine ⟨masked, ?_, hspec⟩
        rw [hrest, List.foldlM_cons, hfirst, Machine.ok_bind, ← Machine.run_eq_foldlM, hmask,
          liftPanic, Machine.ok_bind]
        simp only [Option.bind_eq_bind]
        rw [hmasked]
        rfl
      · rename_i hjson
        obtain ⟨hjson, hsmall⟩ := Classical.not_imp.mp hjson
        cases hjson
        have hmem : 125 ∈ jsonTokens := by decide
        have hle : (List.replicate vocab (negInf : ExactFloat K)).length ≤ 125 := by
          rw [List.length_replicate]
          omega
        rw [getValidTokens, foldlM_updateAt_panics _ hmem hle]
        rfl

end Masks

/-! ### A single row -/

section Row

/-- The only row of a matrix. -/
def onlyRow (t : Tensor (ExactFloat K)) (vocab : ℕ) : List (ExactFloat K) :=
  (List.range vocab).map fun c => t.entry [0, c]

variable {t : Tensor (ExactFloat K)} {vocab : ℕ}

omit [Field K] [LinearOrder K] in
theorem length_onlyRow : (onlyRow t vocab).length = vocab := by simp [onlyRow]

omit [Field K] [LinearOrder K] in
/-- A row by its entries. -/
theorem onlyRow_zipWith {β : Type} {u : Tensor (ExactFloat K)} {f : ExactFloat K → β → ExactFloat K}
    {l : List β} {d : β} (hlength : l.length = vocab)
    (h : ∀ c < vocab, u.entry [0, c] = f (t.entry [0, c]) (l.getD c d)) :
    onlyRow u vocab = List.zipWith f (onlyRow t vocab) l := by
  apply List.ext_getElem
  · simp [onlyRow, hlength]
  · intro c hc _
    have hc : c < vocab := by simpa [onlyRow] using hc
    have hc' : c < l.length := hlength ▸ hc
    simp [onlyRow, h c hc, List.getD_eq_getElem?_getD, List.getElem?_eq_getElem hc']

omit [LinearOrder K] in
theorem addRow_matrix (hdims : t.dims = [1, vocab]) {row : List K} (hlength : row.length = vocab) :
    ∃ u, addRow t row = .ok u ∧ u.dims = [1, vocab] ∧ onlyRow u vocab =
      List.zipWith (fun logit bias => logit + finite bias) (onlyRow t vocab) row := by
  have hadd : (Tensor.fromSlice (row.map finite) [row.length]).bind (fun row =>
      (row.unsqueeze 0).bind fun row => t.add row) = some ⟨[1, vocab], fun idx =>
        t.entry idx + (row.map finite).getD (Tensor.offset [row.length] (idx.eraseIdx 0)) 0⟩ := by
    rw [Tensor.fromSlice_eq_some (by simp), Option.bind_some, Tensor.unsqueeze,
      if_pos (Nat.zero_le _), Option.bind_some, Tensor.add, if_pos (by rw [hdims, hlength]; rfl),
      hdims]
  refine ⟨_, by rw [addRow]; exact congrArg orTensor hadd, rfl, ?_⟩
  refine onlyRow_zipWith (d := 0) hlength fun c hc => ?_
  have hc' : c < row.length := hlength ▸ hc
  simp [Tensor.offset, List.getD_eq_getElem?_getD, List.getElem?_eq_getElem hc']

omit [LinearOrder K] in
theorem biasedTensor_matrix (params : SamplingParams) (hdims : t.dims = [1, vocab]) :
    ∃ u, biasedTensor params t = .ok u ∧ u.dims = [1, vocab] ∧
      biased params (onlyRow t vocab) = .ok (onlyRow u vocab) := by
  rw [biasedTensor, biased]
  cases params.logitBias with
  | none => exact ⟨t, rfl, hdims, rfl⟩
  | some bias =>
      dsimp only
      obtain ⟨accum, haccum, hlength⟩ := foldlM_updateInside
        (fun entry : Token × ℚ => entry.1.toNat) (fun entry => (· + (entry.2 : K))) bias
        (List.replicate vocab 0)
      obtain ⟨u, hu, hudims, hrow⟩ := addRow_matrix hdims (hlength.trans (List.length_replicate ..))
      have hlast : t.dims.getLast? = some vocab := by rw [hdims]; rfl
      refine ⟨u, ?_, hudims, ?_⟩
      · rw [hlast, orTensor, Machine.ok_bind, haccum]
        exact hu
      · rw [addLogitBias, length_onlyRow, haccum, hrow]
        rfl

theorem penalizedTensor_matrix (params : SamplingParams) (generated : Option (List Token))
    (hdims : t.dims = [1, vocab]) :
    ∃ u, penalizedTensor params generated t = .ok u ∧ u.dims = [1, vocab] ∧
      penalized params generated (onlyRow t vocab) = .ok (onlyRow u vocab) := by
  unfold penalizedTensor penalized
  split
  · cases generated with
    | none => exact ⟨t, rfl, hdims, rfl⟩
    | some generated =>
        obtain ⟨sums, hsums, hsumsLength⟩ := foldlM_updateInside
          (fun token : Token => token.toNat) (fun _ => (· + (params.frequencyPenalty : K)))
          generated (List.replicate vocab 0)
        obtain ⟨mask, hmask, hmaskLength⟩ := foldlM_updateInside
          (fun token : Token => token.toNat)
          (fun _ => (min · 0 + (params.presencePenalty : K))) generated sums
        obtain ⟨u, hu, hudims, hrow⟩ := addRow_matrix hdims
          (hmaskLength.trans (hsumsLength.trans (List.length_replicate ..)))
        have hlast : t.dims.getLast? = some vocab := by rw [hdims]; rfl
        refine ⟨u, ?_, hudims, ?_⟩
        · dsimp only
          rw [hlast, orTensor, Machine.ok_bind, hsums, liftPanic, Machine.ok_bind, hmask]
          exact hu
        · dsimp only
          rw [addPenalties, length_onlyRow, hsums, Machine.ok_bind, hmask, hrow]
          rfl
  · exact ⟨t, rfl, hdims, rfl⟩

omit [LinearOrder K] in
theorem constrainedTensor_matrix (grammar : Option GrammarConstraint) (hdims : t.dims = [1, vocab]) :
    (∃ panic, constrainedTensor grammar t = .error (.panic panic) ∧
      constrained grammar (onlyRow t vocab) = .error panic) ∨
    ∃ u, constrainedTensor grammar t = .ok u ∧ u.dims = [1, vocab] ∧
      constrained grammar (onlyRow t vocab) = .ok (onlyRow u vocab) := by
  cases grammar with
  | none => exact Or.inr ⟨t, rfl, hdims, rfl⟩
  | some grammar =>
      have hlast : t.dims.getLast? = some vocab := by rw [hdims]; rfl
      rw [constrainedTensor, constrained, hlast, orTensor, Machine.ok_bind, applyGrammarMask,
        length_onlyRow]
      cases hloop : (getValidTokens vocab grammar).foldlM
          (fun mask tokenId => updateAt mask tokenId fun _ => (0 : ExactFloat K))
          (List.replicate vocab negInf) with
      | error panic => exact Or.inl ⟨panic, rfl, rfl⟩
      | ok mask =>
          have hlength : mask.length = vocab := by
            have hkept := Machine.run_invariant (P := fun _ _ => True)
              (I := fun mask : List (ExactFloat K) => mask.length = vocab) ?_
              (List.length_replicate ..) (Machine.along_true _ _)
              ((Machine.run_eq_foldlM ..).trans hloop)
            · exact hkept
            · intro mask id mask' hmask _ hupdate
              rw [updateAt] at hupdate
              split at hupdate
              · cases hupdate
                rw [List.length_modify, hmask]
              · cases hupdate
          right
          have hbroadcast : Tensor.broadcastDims [1, vocab] [1, vocab] = some [1, vocab] := by
            simp [Tensor.broadcastDims]
          refine ⟨⟨[1, vocab], fun idx => (t.padTo 2).pick idx +
            (Tensor.padTo ⟨[vocab], fun idx => mask.getD (Tensor.offset [vocab] idx) 0⟩ 2).pick
              idx⟩, ?_, rfl, ?_⟩
          · obtain ⟨dims, entry⟩ := t
            cases hdims
            rw [liftPanic, Machine.ok_bind, Tensor.fromSlice_eq_some (by simp [hlength])]
            show orTensor ((Tensor.broadcastDims [1, vocab] [1, vocab]).map _) = _
            rw [hbroadcast]
            rfl
          · refine congrArg Except.ok (onlyRow_zipWith (d := 0) hlength fun c hc => ?_).symm
            have hplace : (if vocab = 1 then 0 else c) = c := by split <;> omega
            simp [Tensor.pick, Tensor.padTo, Tensor.offset, hdims, hplace]

/-- **The model of a row is that of a tensor with one row.** Where the logits of an item are a matrix
with one row, the tensor operations do to it what the list operations do to the row, panics
included. -/
theorem itemToken_matrix (sampler : Sampler K) (draw : Draw K) (params : SamplingParams)
    (grammar : Option GrammarConstraint) (generated : Option (List Token))
    (hdims : t.dims = [1, vocab]) :
    sampler.itemToken draw params grammar generated t =
      liftPanic (sampler.nextToken draw params grammar generated (onlyRow t vocab)) := by
  obtain ⟨u, hu, hudims, hbiased⟩ := biasedTensor_matrix params hdims
  obtain ⟨v, hv, hvdims, hpenalized⟩ := penalizedTensor_matrix params generated hudims
  rw [itemToken, nextToken, hu, Machine.ok_bind, hv, Machine.ok_bind, hbiased, Machine.ok_bind,
    hpenalized, Machine.ok_bind]
  rcases constrainedTensor_matrix grammar hvdims with ⟨panic, hw, hrow⟩ | ⟨w, hw, hwdims, hrow⟩
  · rw [hw, hrow]
    rfl
  · have hshape : w.dims ≠ [] ∧ w.dims.headD 0 ≠ 0 := by
      rw [hwdims]
      exact ⟨List.cons_ne_nil _ _, Nat.one_ne_zero⟩
    rw [hw, hrow, Machine.ok_bind, Machine.ok_bind, if_pos hshape]
    obtain ⟨dims, entry⟩ := w
    cases hwdims
    rw [sampleTensor, if_neg (by simp), if_neg (by simp), Tensor.get_cons Nat.zero_lt_one,
      orTensor, Machine.ok_bind]
    have hflat : Tensor.flatten ⟨[vocab], fun idx => entry (0 :: idx)⟩ =
        onlyRow ⟨[1, vocab], entry⟩ vocab := by
      rw [Tensor.flatten, onlyRow, List.prod_singleton]
      simp [Tensor.unravel]
    dsimp only
    rw [hflat]

/-- A bias and a penalty on one row of three logits. -/
theorem itemToken_matrix_of_three :
    real.itemToken lowestDraw
        { ChatCompletionRequest.plain with
          logitBias := some [("1", 5)], presencePenalty := some 1 }.samplingParams
        none (some [2]) ⟨[1, 3], fun idx => finite (idx.sum : ℝ)⟩ =
      liftPanic (real.nextToken lowestDraw
        { ChatCompletionRequest.plain with
          logitBias := some [("1", 5)], presencePenalty := some 1 }.samplingParams
        none (some [2]) (onlyRow ⟨[1, 3], fun idx => finite (idx.sum : ℝ)⟩ 3)) :=
  itemToken_matrix real lowestDraw _ none (some [2]) rfl

end Row

/-! ### The largest logit of all rows -/

section Greedy

/-- The largest logit so far, with its place. -/
def bestFrom (best : Entry K) (i : ℕ) : List (ExactFloat K) → Entry K
  | [] => best
  | x :: xs => bestFrom (if best.2 < x then (i, x) else best) (i + 1) xs

omit [Field K] in
theorem argmaxFrom_append (best : Entry K) (i : ℕ) (xs ys : List (ExactFloat K)) :
    argmaxFrom best i (xs ++ ys) = argmaxFrom (bestFrom best i xs) (i + xs.length) ys := by
  induction xs generalizing best i with
  | nil => rfl
  | cons x xs ih =>
      rw [List.cons_append, argmaxFrom, ih, bestFrom, List.length_cons, Nat.add_assoc,
        Nat.add_comm 1]

omit [Field K] in
theorem argmaxFrom_eq (best : Entry K) (i : ℕ) (xs : List (ExactFloat K)) :
    argmaxFrom best i xs = (bestFrom best i xs).1 := by
  induction xs generalizing best i with
  | nil => rfl
  | cons x xs ih => rw [argmaxFrom, bestFrom, ih]

omit [Field K] in
/-- A place in front of the list is kept exactly if nothing in the list is larger. -/
theorem argmaxFrom_lt_iff {best : Entry K} {i n : ℕ} (hbest : best.1 < n) (hi : n ≤ i)
    (xs : List (ExactFloat K)) :
    (argmaxFrom best i xs < n ↔ ∀ x ∈ xs, ¬ best.2 < x) ∧
      ((∀ x ∈ xs, ¬ best.2 < x) → argmaxFrom best i xs = best.1) := by
  have hlater : ∀ (xs : List (ExactFloat K)) (best : Entry K) (i : ℕ), n ≤ best.1 → n ≤ i →
      ¬ argmaxFrom best i xs < n := by
    intro xs
    induction xs with
    | nil => exact fun best i hbest _ hlt => absurd hlt (by rw [argmaxFrom]; omega)
    | cons x xs ih =>
        intro best i hbest hi
        rw [argmaxFrom]
        refine ih _ (i + 1) ?_ (by omega)
        split
        · exact hi
        · exact hbest
  induction xs generalizing i with
  | nil =>
      exact ⟨⟨fun _ _ hx => absurd hx List.not_mem_nil, fun _ => hbest⟩, fun _ => rfl⟩
  | cons x xs ih =>
      rw [argmaxFrom]
      by_cases hx : best.2 < x
      · rw [if_pos hx]
        refine ⟨iff_of_false (hlater xs (i, x) (i + 1) hi (by omega)) fun h => ?_, fun h => ?_⟩
        · exact h x List.mem_cons_self hx
        · exact absurd hx (h x List.mem_cons_self)
      · rw [if_neg hx]
        obtain ⟨hiff, heq⟩ := ih (i := i + 1) (by omega)
        simp only [List.forall_mem_cons, hx, not_false_iff, true_and]
        exact ⟨hiff, heq⟩

omit [Field K] in
/-- The place of the largest entry is the place of an entry that is as large. -/
theorem bestFrom_spec {best : Entry K} {i : ℕ} {whole xs : List (ExactFloat K)}
    (hbest : whole[best.1]? = some best.2) (hxs : whole.drop i = xs) :
    whole[(bestFrom best i xs).1]? = some (bestFrom best i xs).2 := by
  induction xs generalizing best i with
  | nil => exact hbest
  | cons x xs ih =>
      have hx : whole[i]? = some x := by
        rw [← List.head?_drop, hxs]
        rfl
      rw [bestFrom]
      refine ih ?_ ?_
      · split
        · exact hx
        · exact hbest
      · rw [← List.drop_drop, hxs]
        rfl

omit [Field K] in
/-- Several rows, one after another: the largest entry is in the first exactly if no other row has a
larger one than it. -/
theorem argmax_append {xs : List (ExactFloat K)} (hne : xs ≠ []) (ys : List (ExactFloat K)) :
    ∃ largest, xs[argmax xs]? = some largest ∧
      (argmax (xs ++ ys) < xs.length ↔ ∀ y ∈ ys, ¬ largest < y) ∧
      (argmax (xs ++ ys) < xs.length → argmax (xs ++ ys) = argmax xs) := by
  obtain ⟨x, rest, rfl⟩ := List.exists_cons_of_ne_nil hne
  have hlt := argmax_lt hne
  have hspec := @bestFrom_spec _ _ (0, x) 1 (x :: rest) _ rfl rfl
  rw [argmax, argmaxFrom_eq] at hlt ⊢
  obtain ⟨hiff, heq⟩ := argmaxFrom_lt_iff (i := 1 + rest.length) hlt
    (by rw [List.length_cons]; omega) ys
  have hall : argmax (x :: rest ++ ys) =
      argmaxFrom (bestFrom (0, x) 1 rest) (1 + rest.length) ys := argmaxFrom_append _ _ _ _
  refine ⟨_, hspec, ?_, fun h => ?_⟩
  · rw [hall]
    exact hiff
  · rw [hall] at h ⊢
    exact heq (hiff.mp h)

/-- The logits of token `j`. -/
def rowAt (t : Tensor (ExactFloat K)) (j vocab : ℕ) : List (ExactFloat K) :=
  (List.range vocab).map fun c => t.entry [0, j, c]

omit [Field K] [LinearOrder K] in
theorem length_rowAt (t : Tensor (ExactFloat K)) (j vocab : ℕ) :
    (rowAt t j vocab).length = vocab := by
  rw [rowAt, List.length_map, List.length_range]

/-- **The greedy token of several rows.** At temperature zero, an item without bias, penalties and
grammar gets the largest logit of all rows: a token of the vocabulary exactly if the first row has
it, and then the one that the first row alone would give. -/
theorem itemToken_greedy (sampler : Sampler K) (draw : Draw K) {params : SamplingParams}
    (hbias : params.logitBias = none) (hfrequency : params.frequencyPenalty = 0)
    (hpresence : params.presencePenalty = 0) (hcold : params.temperature ≤ 0)
    (generated : Option (List Token)) {t : Tensor (ExactFloat K)} {s vocab : ℕ}
    (hdims : t.dims = [1, s + 1, vocab]) (hvocab : 0 < vocab)
    (hsmall : (s + 1) * vocab ≤ 2 ^ 32) :
    ∃ token largest, sampler.itemToken draw params none generated t = .ok token ∧
      (rowAt t 0 vocab)[argmax (rowAt t 0 vocab)]? = some largest ∧
      (token.toNat < vocab ↔
        ∀ j < s, ∀ c < vocab, ¬ largest < t.entry [0, j + 1, c]) ∧
      (token.toNat < vocab → token.toNat = argmax (rowAt t 0 vocab)) := by
  have hpenalty : ¬ (params.frequencyPenalty ≠ 0 ∨ params.presencePenalty ≠ 0) := by
    simp [hfrequency, hpresence]
  have hshape : t.dims ≠ [] ∧ t.dims.headD 0 ≠ 0 := by
    rw [hdims]
    exact ⟨List.cons_ne_nil _ _, Nat.one_ne_zero⟩
  let rest : List (ExactFloat K) := ((List.range s).map fun j => rowAt t (j + 1) vocab).flatten
  have hrows : ((List.range (s + 1)).map fun j =>
      (List.range vocab).map fun c => t.entry [0, j, c]).flatten = rowAt t 0 vocab ++ rest := by
    rw [List.range_succ_eq_map, List.map_cons, List.map_map, List.flatten_cons]
    rfl
  have hne : rowAt t 0 vocab ≠ [] := List.ne_nil_of_length_pos (by rwa [length_rowAt])
  have hnonempty : rowAt t 0 vocab ++ rest ≠ [] := List.append_ne_nil_of_left_ne_nil hne rest
  have hlength : (rowAt t 0 vocab ++ rest).length = (s + 1) * vocab := by
    rw [← hrows, Tensor.length_runs]
    simp
  have htoken : sampler.itemToken draw params none generated t =
      .ok (UInt32.ofNat (argmax (rowAt t 0 vocab ++ rest))) := by
    rw [itemToken, biasedTensor, hbias]
    dsimp only
    rw [Machine.ok_bind]
    unfold penalizedTensor
    rw [if_neg hpenalty, Machine.ok_bind, constrainedTensor, Machine.ok_bind, if_pos hshape,
      sampleTensor_eq sampler draw _ _ _ hdims, hrows, sampleToken,
      if_neg (by rw [List.isEmpty_iff]; exact hnonempty), if_pos hcold]
    rfl
  have hfits : argmax (rowAt t 0 vocab ++ rest) < 2 ^ 32 :=
    Nat.lt_of_lt_of_le (argmax_lt hnonempty) (hlength ▸ hsmall)
  have hvalue : (UInt32.ofNat (argmax (rowAt t 0 vocab ++ rest))).toNat =
      argmax (rowAt t 0 vocab ++ rest) := by
    rw [UInt32.toNat_ofNat', Nat.mod_eq_of_lt hfits]
  obtain ⟨largest, hlargest, hiff, heq⟩ := argmax_append hne rest
  rw [length_rowAt] at hiff heq
  refine ⟨_, largest, htoken, hlargest, ?_, ?_⟩
  · rw [hvalue, hiff]
    constructor
    · intro h j hj c hc
      refine h _ (List.mem_flatten.mpr ⟨_, List.mem_map_of_mem (List.mem_range.mpr hj), ?_⟩)
      exact List.mem_map.mpr ⟨c, List.mem_range.mpr hc, rfl⟩
    · intro h y hy
      obtain ⟨row, hrow, hy⟩ := List.mem_flatten.mp hy
      obtain ⟨j, hj, rfl⟩ := List.mem_map.mp hrow
      obtain ⟨c, hc, rfl⟩ := List.mem_map.mp hy
      exact h j (List.mem_range.mp hj) c (List.mem_range.mp hc)
  · rw [hvalue]
    exact heq

/-- Two tokens of a vocabulary of three, the logits of the second above those of the first. -/
theorem itemToken_greedy_of_two :
    ∃ token largest, real.itemToken lowestDraw
        { ChatCompletionRequest.plain with temperature := some 0 }.samplingParams none none
        ⟨[1, 1 + 1, 3], fun idx => finite (idx.sum : ℝ)⟩ = .ok token ∧
      (rowAt ⟨[1, 1 + 1, 3], fun idx => finite (idx.sum : ℝ)⟩ 0 3)[
        argmax (rowAt ⟨[1, 1 + 1, 3], fun idx => finite (idx.sum : ℝ)⟩ 0 3)]? = some largest ∧
      (token.toNat < 3 ↔ ∀ j < 1, ∀ c < 3, ¬ largest < finite (([0, j + 1, c].sum : ℕ) : ℝ)) ∧
      (token.toNat < 3 → token.toNat =
        argmax (rowAt ⟨[1, 1 + 1, 3], fun idx => finite (idx.sum : ℝ)⟩ 0 3)) :=
  itemToken_greedy real lowestDraw rfl rfl rfl le_rfl none rfl (by decide) (by decide)

end Greedy

/-! ### Items -/

variable [IsStrictOrderedRing K]

/-- **What a request can do to the worker loop.** On the logits of a model, an item gets a token
exactly if its request has no bias, not even an empty one, is not penalised, does not ask for JSON
from a vocabulary too small for it, and does not ask for the nucleus of no logits. A bias or a penalty
is an error, which ends the loop. -/
theorem itemToken_ok_iff (sampler : Sampler K) (draw : Draw K) (params : SamplingParams)
    (grammar : Option GrammarConstraint) (generated : Option (List Token)) {t : Tensor K}
    {s vocab : ℕ} (hdims : t.dims = [1, s, vocab]) (hs : 0 < s) (hvocab : 0 < vocab) :
    ((∃ token, sampler.itemToken draw params grammar generated (floats t) = .ok token) ↔
      params.logitBias = none ∧ ¬ Penalised params generated ∧
        (grammar = some .json → 126 ≤ vocab) ∧
        ¬ (params.topK = some 0 ∧ params.topP < 1 ∧ 0 < params.temperature)) ∧
      (params.logitBias ≠ none ∨ Penalised params generated →
        sampler.itemToken draw params grammar generated (floats t) = .error .tensor) := by
  have hrank : 2 < (floats t).dims.length := by
    rw [floats, hdims]
    exact Nat.lt_succ_self 2
  rw [itemToken, biasedTensor_rank hrank]
  by_cases hbias : params.logitBias = none
  · rw [if_pos hbias, Machine.ok_bind, penalizedTensor_rank hrank]
    by_cases hpenalised : Penalised params generated
    · rw [if_pos hpenalised]
      refine ⟨iff_of_false ?_ fun h => h.2.1 hpenalised, fun _ => rfl⟩
      rintro ⟨token, herror⟩
      cases herror
    · rw [if_neg hpenalised, Machine.ok_bind]
      refine ⟨?_, fun h => h.elim (absurd hbias) fun h => absurd h hpenalised⟩
      have hmask := constrainedTensor_iff hdims hs hvocab grammar
      by_cases hjson : grammar = some .json → 126 ≤ vocab
      · rw [if_pos hjson] at hmask
        obtain ⟨masked, hmasked, hmaskedDims, hspec⟩ := hmask
        have hshape : masked.dims ≠ [] ∧ masked.dims.headD 0 ≠ 0 := by
          rw [hmaskedDims]
          exact ⟨List.cons_ne_nil _ _, Nat.one_ne_zero⟩
        rw [hmasked, Machine.ok_bind, if_pos hshape, sampleTensor_eq sampler draw _ _ _ hmaskedDims]
        have hsafe := sampleToken_safe_iff sampler draw params.temperature params.topP params.topK
          hspec
        constructor
        · rintro ⟨token, hok⟩
          refine ⟨hbias, hpenalised, hjson, fun hbad => ?_⟩
          obtain ⟨hzero, htopP, hwarm⟩ := hbad
          rw [hzero, sampleToken_panics sampler draw hspec htopP hwarm] at hok
          cases hok
        · rintro ⟨-, -, -, hgood⟩
          obtain ⟨token, htoken, -⟩ := hsafe.mpr hgood
          exact ⟨token, by rw [htoken]; rfl⟩
      · rw [if_neg hjson] at hmask
        rw [hmask]
        refine iff_of_false ?_ fun h => hjson h.2.2.1
        rintro ⟨token, herror⟩
        cases herror
  · rw [if_neg hbias]
    refine ⟨iff_of_false ?_ fun h => hbias h.1, fun _ => rfl⟩
    rintro ⟨token, herror⟩
    cases herror

/-- An empty bias for two tokens of a prompt. -/
theorem itemToken_of_empty_bias :
    (∃ token, real.itemToken lowestDraw ChatCompletionRequest.plain.samplingParams none none
        (floats ⟨[1, 2, 3], fun idx => (idx.sum : ℝ)⟩) = .ok token) ∧
      real.itemToken lowestDraw
        { ChatCompletionRequest.plain with logitBias := some [] }.samplingParams none none
        (floats ⟨[1, 2, 3], fun idx => (idx.sum : ℝ)⟩) = .error .tensor := by
  constructor
  · refine (itemToken_ok_iff real lowestDraw _ none none rfl (by decide) (by decide)).1.mpr ?_
    refine ⟨rfl, ?_, by simp, ?_⟩
    · simp [Penalised]
    · simp [ChatCompletionRequest.samplingParams, ChatCompletionRequest.plain]
  · refine (itemToken_ok_iff real lowestDraw _ none none rfl (by decide) (by decide)).2 (Or.inl ?_)
    simp [ChatCompletionRequest.samplingParams]

end Kyro.Sampler
