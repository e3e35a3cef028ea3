import Kyro.Proof.Model.Lora
import Mathlib.Algebra.BigOperators.Group.Finset.Basic
import Mathlib.Algebra.Order.BigOperators.Group.Finset
import Mathlib.Algebra.Order.Ring.Rat
import Mathlib.Data.List.GetD
import Mathlib.Tactic.Linarith

/-!
# Which inputs a layer of experts takes, and what it makes of them

The loop takes the sum of a mask as an `f64` and multiplies the outputs of an expert with a column
without broadcasting. So the layer answers for tokens of one number of type `f64` only; there it
gives for each token the outputs of its best experts, weighted with their probabilities.
-/

namespace Kyro.MoeLayer

variable {K : Type} [Field K] [LinearOrder K]

section Sums

/-- A step that always fails ends the loop. -/
theorem foldlM_eq_none {σ α : Type} {f : σ → α → Option σ} {a : α} (ha : ∀ s, f s a = none)
    {l : List α} (hmem : a ∈ l) (s : σ) : l.foldlM f s = none := by
  induction l generalizing s with
  | nil => cases hmem
  | cons b l ih =>
      rw [List.foldlM_cons]
      rcases List.mem_cons.mp hmem with rfl | hmem
      · rw [ha]
        rfl
      · cases f s b with
        | none => rfl
        | some s' => exact ih hmem s'

omit [LinearOrder K] in
/-- Elements at the indices that a list names, added up by index and by name. -/
theorem sum_zipIdx {α : Type} {top : List ℕ} (hnodup : top.Nodup) (xs : List α)
    (htop : ∀ e ∈ top, e < xs.length) (g : α → ℕ → K) :
    ((xs.zipIdx.map fun entry => if entry.2 ∈ top then g entry.1 entry.2 else 0)).sum =
      (top.map fun e => (xs[e]?.map fun a => g a e).getD 0).sum := by
  have hindex : (xs.zipIdx.map fun entry => if entry.2 ∈ top then g entry.1 entry.2 else 0) =
      (List.range xs.length).map fun e => if e ∈ top then (xs[e]?.map fun a => g a e).getD 0
        else 0 := by
    apply List.ext_getElem
    · simp
    · intro i hi _
      have hlt : i < xs.length := by simpa using hi
      simp [hlt]
  have htops : (Finset.range xs.length).filter (· ∈ top) = top.toFinset := by
    ext e
    rw [Finset.mem_filter, Finset.mem_range, List.mem_toFinset]
    exact ⟨fun h => h.2, fun h => ⟨htop e h, h⟩⟩
  rw [hindex, ← List.sum_toFinset _ hnodup, ← htops, Finset.sum_filter,
    ← List.sum_toFinset _ List.nodup_range, List.toFinset_range]

end Sums

/-! ### One expert -/

section Loop

variable {dtype : FloatType} {xFlat gateProbs output : Tensor K} {topIdx : Tensor ℕ}
  {top : ℕ → List ℕ} {n h k chosen e : ℕ} {expert : Projection K}

/-- What the loop works on: the tokens, their probabilities, and the first experts of each. -/
structure Routed (xFlat gateProbs : Tensor K) (topIdx : Tensor ℕ) (top : ℕ → List ℕ)
    (n h k chosen : ℕ) : Prop where
  tokens : xFlat.dims = [n, h]
  probs : gateProbs.dims = [n, k]
  shape : topIdx.dims = [n, chosen]
  entries : ∀ i, (List.range chosen).map (fun j => topIdx.entry [i, j]) = top i
  nodup : ∀ i, (top i).Nodup
  known : ∀ i, ∀ e ∈ top i, e < k

omit [LinearOrder K] in
theorem entry_inTopk (hrouted : Routed xFlat gateProbs topIdx top n h k chosen) (e i : ℕ) :
    (inTopk topIdx e : Tensor K).entry [i] = if e ∈ top i then 1 else 0 := by
  have hcount : ((List.range chosen).countP fun j => topIdx.entry [i, j] = e) =
      (top i).count e := by
    rw [← hrouted.entries, List.count, List.countP_map]
    rfl
  change (((List.range (topIdx.dims.getD 1 0)).countP fun j => topIdx.entry [i, j] = e : ℕ) : K) = _
  rw [hrouted.shape, List.getD_cons_succ, List.getD_cons_zero, hcount,
    (hrouted.nodup i).count]
  split
  · exact Nat.cast_one
  · exact Nat.cast_zero

omit [LinearOrder K] in
theorem sum_inTopk (hrouted : Routed xFlat gateProbs topIdx top n h k chosen) (e : ℕ) :
    (inTopk topIdx e : Tensor K).flatten.sum =
      ∑ i ∈ Finset.range n, if e ∈ top i then (1 : K) else 0 := by
  have hdims : (inTopk topIdx e : Tensor K).dims = [n] := by
    rw [inTopk, hrouted.shape]
    rfl
  rw [Tensor.flatten, hdims, List.prod_singleton, ← List.sum_toFinset _ List.nodup_range,
    List.toFinset_range]
  refine Finset.sum_congr rfl fun i _ => ?_
  rw [Tensor.unravel, List.prod_nil, Nat.div_one, Tensor.unravel, entry_inTopk hrouted]

variable [IsStrictOrderedRing K]

/-- The sum of the mask is less than a half where no token has the expert. -/
theorem sum_inTopk_lt (hrouted : Routed xFlat gateProbs topIdx top n h k chosen) (e : ℕ) :
    (inTopk topIdx e : Tensor K).flatten.sum + (inTopk topIdx e : Tensor K).flatten.sum < 1 ↔
      ∀ i < n, e ∉ top i := by
  rw [sum_inTopk hrouted]
  constructor
  · intro hlt i hi hmem
    have hone : (1 : K) ≤ ∑ i ∈ Finset.range n, if e ∈ top i then (1 : K) else 0 := by
      have hle := Finset.single_le_sum (f := fun i => if e ∈ top i then (1 : K) else 0)
        (fun j _ => by split <;> norm_num) (Finset.mem_range.mpr hi)
      rwa [if_pos hmem] at hle
    have hpos : (0 : K) < 1 := zero_lt_one
    linarith only [hlt, hone, hpos]
  · intro hnone
    rw [Finset.sum_eq_zero fun i hi => if_neg (hnone i (Finset.mem_range.mp hi)), add_zero]
    exact zero_lt_one

omit [IsStrictOrderedRing K] in
theorem addExpert_type (hdtype : dtype ≠ .f64) (output : Tensor K) (entry : Projection K × ℕ) :
    addExpert dtype xFlat gateProbs topIdx output entry = none := by
  rw [addExpert, count, if_neg hdtype]
  rfl

omit [LinearOrder K] [IsStrictOrderedRing K] in
/-- The column that an expert is weighted with. -/
theorem weighted_column (hrouted : Routed xFlat gateProbs topIdx top n h k chosen) (he : e < k) :
    ∃ weight mask column, gateProbs.narrow 1 e 1 = some weight ∧
      (inTopk topIdx e : Tensor K).unsqueeze 1 = some mask ∧
      weight.broadcastMul mask = some column ∧ column.dims = [n, 1] ∧
      ∀ i < n, column.entry [i, 0] = if e ∈ top i then gateProbs.entry [i, e] else 0 := by
  have hcols : gateProbs.dims[1]? = some k := by
    rw [hrouted.probs]
    rfl
  have hmask : (inTopk topIdx e : Tensor K).dims = [n] := by
    rw [inTopk, hrouted.shape]
    rfl
  have hdims : Tensor.broadcastDims (gateProbs.dims.set 1 1)
      ((inTopk topIdx e : Tensor K).dims.insertIdx 1 1) = some [n, 1] := by
    rw [hrouted.probs, hmask]
    change Tensor.broadcastDims [n, 1] [n, 1] = _
    rw [Tensor.broadcastDims, if_pos (.inl rfl)]
    rfl
  refine ⟨_, _, _, Tensor.narrow_of_le hcols (by omega), if_pos (by rw [hmask]; exact le_rfl),
    congrArg (Option.map _) hdims, rfl, fun i hi => ?_⟩
  dsimp only [Tensor.pick]
  rw [hrouted.probs, hmask]
  change gateProbs.entry [if n = 1 then 0 else i, e + 0] *
    (inTopk topIdx e : Tensor K).entry [if n = 1 then 0 else i] = _
  rw [Tensor.pinned_inside hi, entry_inTopk hrouted, Nat.add_zero, mul_ite, mul_one, mul_zero]

/-- An expert adds what it makes of the tokens that have chosen it. -/
theorem addExpert_eq (hrouted : Routed xFlat gateProbs topIdx top n 1 k chosen)
    (hexpert : expert.Fits 1 1) (hout : output.dims = [n, 1]) :
    ∃ next, addExpert .f64 xFlat gateProbs topIdx output (expert, e) = some next ∧
      next.dims = [n, 1] ∧ ∀ i < n, next.entry [i, 0] = output.entry [i, 0] +
        if e ∈ top i then
          gateProbs.entry [i, e] * expert.output 1 (fun c => xFlat.entry [i, c]) 0
        else 0 := by
  rw [addExpert, count, if_pos rfl]
  dsimp only [Option.bind_eq_bind, Option.bind_some]
  by_cases hnone : ∀ i < n, e ∉ top i
  · rw [if_pos ((sum_inTopk_lt hrouted e).mpr hnone)]
    refine ⟨output, rfl, hout, fun i hi => ?_⟩
    rw [if_neg (hnone i hi), add_zero]
  · have hchosen : ∃ i, e ∈ top i := by
      by_contra hall
      exact hnone fun i _ hmem => hall ⟨i, hmem⟩
    obtain ⟨i₀, hmem⟩ := hchosen
    rw [if_neg fun hlt => hnone ((sum_inTopk_lt hrouted e).mp hlt)]
    obtain ⟨weight, mask, column, hweight, hmask, hcolumn, hdims, hentry⟩ :=
      weighted_column hrouted (hrouted.known i₀ e hmem)
    obtain ⟨y, hy, hyDims, hyEntry⟩ := Projection.forward_matrix hexpert hrouted.tokens
    obtain ⟨scaled, hscaled, hscaledDims⟩ :=
      Tensor.shape?_eq_some.mp (Tensor.shape?_mul (hyDims.trans hdims.symm))
    have hsame : output.dims = scaled.dims := hout.trans (hscaledDims.trans hyDims).symm
    obtain ⟨next, hnext, hnextDims⟩ := Tensor.shape?_eq_some.mp (Tensor.shape?_add hsame)
    refine ⟨next, ?_, hnextDims.trans hout, fun i hi => ?_⟩
    · rw [hweight, Option.bind_some, hy, Option.bind_some, hmask, Option.bind_some, hcolumn,
        Option.bind_some, hscaled, Option.bind_some, hnext]
    · rw [Tensor.entry_add hnext, Tensor.entry_mul hscaled, hyEntry, hentry i hi, mul_ite, mul_zero,
        mul_comm]

/-- The outputs of an expert are not broadcast. -/
theorem addExpert_width (hrouted : Routed xFlat gateProbs topIdx top n h k chosen)
    (hexpert : expert.Fits h h) (hh : h ≠ 1) {i : ℕ} (hi : i < n) (he : e ∈ top i)
    (output : Tensor K) :
    addExpert .f64 xFlat gateProbs topIdx output (expert, e) = none := by
  obtain ⟨weight, mask, column, hweight, hmask, hcolumn, hdims, -⟩ :=
    weighted_column hrouted (hrouted.known i e he)
  obtain ⟨y, hy, hyDims, -⟩ := Projection.forward_matrix hexpert hrouted.tokens
  have hmul : y.mul column = none := by
    rw [Tensor.mul, hyDims, hdims]
    apply if_neg
    simpa using hh
  rw [addExpert, count, if_pos rfl]
  dsimp only [Option.bind_eq_bind, Option.bind_some]
  rw [if_neg fun hlt => (sum_inTopk_lt hrouted e).mp hlt i hi he, hweight, Option.bind_some, hy,
    Option.bind_some, hmask, Option.bind_some, hcolumn, Option.bind_some, hmul, Option.bind_none]

/-- The loop adds up what the experts add. -/
theorem foldlM_addExpert (hrouted : Routed xFlat gateProbs topIdx top n 1 k chosen)
    (entries : List (Projection K × ℕ)) (hentries : ∀ entry ∈ entries, entry.1.Fits 1 1)
    (hout : output.dims = [n, 1]) :
    ∃ last, entries.foldlM (addExpert .f64 xFlat gateProbs topIdx) output = some last ∧
      last.dims = [n, 1] ∧ ∀ i < n, last.entry [i, 0] = output.entry [i, 0] +
        (entries.map fun entry => if entry.2 ∈ top i then
          gateProbs.entry [i, entry.2] * entry.1.output 1 (fun c => xFlat.entry [i, c]) 0
        else 0).sum := by
  induction entries generalizing output with
  | nil => exact ⟨output, rfl, hout, fun i _ => (add_zero _).symm⟩
  | cons entry entries ih =>
      obtain ⟨next, hnext, hnextDims, hnextEntry⟩ :=
        addExpert_eq (e := entry.2) hrouted (hentries entry List.mem_cons_self) hout
      obtain ⟨last, hlast, hlastDims, hlastEntry⟩ :=
        ih (fun entry' hmem => hentries entry' (.tail entry hmem)) hnextDims
      refine ⟨last, ?_, hlastDims, fun i hi => ?_⟩
      · rw [List.foldlM_cons, hnext]
        exact hlast
      · rw [hlastEntry i hi, hnextEntry i hi, List.map_cons, List.sum_cons, add_assoc]

end Loop

/-! ### The layer -/

section Forward

variable (routing : Routing K) (layer : MoeLayer K) (hiddenDim numExperts : ℕ)

/-- The probabilities that the gate gives the experts for a token. -/
def probabilities (row : ℕ → K) : List K :=
  routing.softmax ((List.range numExperts).map (layer.gate.output hiddenDim row))

/-- The experts of a token. -/
def topExperts (row : ℕ → K) : List ℕ :=
  (routing.argsort (probabilities routing layer hiddenDim numExperts row)).take layer.topK

variable {routing layer hiddenDim numExperts} {dtype : FloatType} {x : Tensor K}
  {batchSize seqLen : ℕ}

theorem length_probabilities (row : ℕ → K) :
    (probabilities routing layer hiddenDim numExperts row).length = numExperts := by
  rw [probabilities, routing.length_softmax, List.length_map, List.length_range]

theorem length_argsort (row : List K) : (routing.argsort row).length = row.length := by
  rw [(routing.argsort_perm row).length_eq, List.length_range]

variable (routing layer hiddenDim numExperts) in
theorem topExperts_nodup (row : ℕ → K) :
    (topExperts routing layer hiddenDim numExperts row).Nodup :=
  ((routing.argsort_perm _).nodup_iff.mpr List.nodup_range).sublist (List.take_sublist _ _)

theorem lt_of_mem_topExperts {row : ℕ → K} {e : ℕ}
    (h : e ∈ topExperts routing layer hiddenDim numExperts row) : e < numExperts := by
  have hmem := (routing.argsort_perm _).mem_iff.mp (List.mem_of_mem_take h)
  rw [length_probabilities, List.mem_range] at hmem
  exact hmem

variable (routing layer numExperts) in
theorem probabilities_congr {row row' : ℕ → K} (h : ∀ c < hiddenDim, row c = row' c) :
    probabilities routing layer hiddenDim numExperts row =
      probabilities routing layer hiddenDim numExperts row' := by
  have houtput : layer.gate.output hiddenDim row = layer.gate.output hiddenDim row' :=
    funext fun _ => Projection.output_congr h
  rw [probabilities, probabilities, houtput]

variable (routing) in
/-- What reaches the loop. -/
theorem exists_routed {xFlat : Tensor K} {n : ℕ} (hgate : layer.gate.Fits numExperts hiddenDim)
    (htop : layer.topK ≤ numExperts) (hflat : xFlat.dims = [n, hiddenDim]) :
    ∃ gateLogits topIdx, layer.gate.forward xFlat = some gateLogits ∧
      (sortLastDim routing (gateLogits.mapRows routing.softmax)).narrow 1 0 layer.topK =
        some topIdx ∧
      (∀ i e, (gateLogits.mapRows routing.softmax).entry [i, e] =
        (probabilities routing layer hiddenDim numExperts fun c => xFlat.entry [i, c]).getD e 0) ∧
      Routed xFlat (gateLogits.mapRows routing.softmax) topIdx
        (fun i => topExperts routing layer hiddenDim numExperts fun c => xFlat.entry [i, c])
        n hiddenDim numExperts layer.topK := by
  obtain ⟨gateLogits, hlogits, hdims, hentry⟩ := Projection.forward_matrix hgate hflat
  have hprobs : ∀ i e, (gateLogits.mapRows routing.softmax).entry [i, e] =
      (probabilities routing layer hiddenDim numExperts fun c => xFlat.entry [i, c]).getD e 0 := by
    intro i e
    rw [probabilities, ← funext (hentry i), Tensor.mapRows, hdims]
    rfl
  have hrow : ∀ i, rowOf (gateLogits.mapRows routing.softmax) i =
      probabilities routing layer hiddenDim numExperts fun c => xFlat.entry [i, c] := by
    intro i
    have hcols : (gateLogits.mapRows routing.softmax).dims.getD 1 0 = numExperts := by
      rw [Tensor.mapRows, hdims]
      rfl
    rw [rowOf, hcols]
    apply List.ext_getElem
    · rw [List.length_map, List.length_range, length_probabilities]
    · intro e he he'
      rw [List.getElem_map, List.getElem_range, hprobs, List.getD_eq_getElem _ _ he']
  have hsorted : (sortLastDim routing (gateLogits.mapRows routing.softmax)).dims[1]? =
      some numExperts := by
    rw [sortLastDim, Tensor.mapRows, hdims]
    rfl
  refine ⟨gateLogits, _, hlogits, Tensor.narrow_of_le hsorted (by omega), hprobs, ?_⟩
  refine ⟨hflat, hdims, ?_, fun i => ?_, fun i => topExperts_nodup _ _ _ _ _,
    fun i e he => lt_of_mem_topExperts he⟩
  · rw [sortLastDim, Tensor.mapRows, hdims]
    rfl
  · apply List.ext_getElem
    · rw [List.length_map, List.length_range, topExperts, List.length_take, length_argsort,
        length_probabilities, Nat.min_eq_left htop]
    · intro j hj hj'
      have hlt : j < (routing.argsort (probabilities routing layer hiddenDim numExperts
          fun c => xFlat.entry [i, c])).length := by
        rw [topExperts, List.length_take] at hj'
        omega
      rw [List.getElem_map, List.getElem_range]
      change (routing.argsort (rowOf (gateLogits.mapRows routing.softmax) i)).getD (0 + j) 0 = _
      rw [hrow, Nat.zero_add, List.getD_eq_getElem _ _ hlt]
      exact List.getElem_take.symm

omit [Field K] [LinearOrder K] in
/-- The token of a batch in the matrix of all tokens. -/
theorem entry_flat {xFlat : Tensor K} (hx : x.dims = [batchSize, seqLen, hiddenDim])
    (hflat : x.reshape [batchSize * seqLen, hiddenDim] = some xFlat) {i j c : ℕ}
    (hi : i < batchSize) (hj : j < seqLen) (hc : c < hiddenDim) :
    xFlat.entry [i * seqLen + j, c] = x.entry [i, j, c] := by
  refine Tensor.entry_reshape hflat ?_ ?_
  · rw [hx]
    exact .cons hi (.cons hj (.cons hc .nil))
  · rw [hx]
    simp only [Tensor.offset, List.prod_cons, List.prod_nil]
    ring

theorem flat_lt {i j : ℕ} (hi : i < batchSize) (hj : j < seqLen) :
    i * seqLen + j < batchSize * seqLen := by
  calc i * seqLen + j < (i + 1) * seqLen := by rw [Nat.add_mul]; omega
    _ ≤ batchSize * seqLen := Nat.mul_le_mul_right _ hi

variable (routing dtype) in
/-- The layer up to its loop. -/
theorem forward_eq (hgate : layer.gate.Fits numExperts hiddenDim)
    (htop : layer.topK ≤ numExperts) (hx : x.dims = [batchSize, seqLen, hiddenDim]) :
    ∃ xFlat gateProbs topIdx, x.reshape [batchSize * seqLen, hiddenDim] = some xFlat ∧
      (∀ i e, gateProbs.entry [i, e] =
        (probabilities routing layer hiddenDim numExperts fun c => xFlat.entry [i, c]).getD e 0) ∧
      Routed xFlat gateProbs topIdx
        (fun i => topExperts routing layer hiddenDim numExperts fun c => xFlat.entry [i, c])
        (batchSize * seqLen) hiddenDim numExperts layer.topK ∧
      layer.forward routing dtype x =
        (layer.experts.zipIdx.foldlM (addExpert dtype xFlat gateProbs topIdx)
          (Tensor.zeros [batchSize * seqLen, hiddenDim])).bind
            (·.reshape [batchSize, seqLen, hiddenDim]) := by
  have hshape : Tensor.shape? (x.reshape [batchSize * seqLen, hiddenDim]) =
      some [batchSize * seqLen, hiddenDim] := by
    rw [Tensor.shape?_reshape, if_pos]
    rw [hx]
    simp only [List.prod_cons, List.prod_nil, mul_one, mul_assoc]
  obtain ⟨xFlat, hflat, hflatDims⟩ := Tensor.shape?_eq_some.mp hshape
  obtain ⟨gateLogits, topIdx, hlogits, htopIdx, hprobs, hrouted⟩ :=
    exists_routed routing hgate htop hflatDims
  refine ⟨xFlat, _, topIdx, hflat, hprobs, hrouted, ?_⟩
  rw [forward, hx]
  dsimp only [Option.bind_eq_bind]
  rw [hflat, Option.bind_some, hlogits, Option.bind_some, htopIdx, Option.bind_some, hflatDims]

/-- There must be as many experts as are chosen. -/
theorem forward_few (hgate : layer.gate.Fits numExperts hiddenDim)
    (htop : ¬ layer.topK ≤ numExperts) (hx : x.dims = [batchSize, seqLen, hiddenDim]) :
    layer.forward routing dtype x = none := by
  rw [forward, hx]
  dsimp only [Option.bind_eq_bind]
  cases hflat : x.reshape [batchSize * seqLen, hiddenDim] with
  | none => rfl
  | some xFlat =>
      have hflatDims : xFlat.dims = [batchSize * seqLen, hiddenDim] := by
        have hshape := congrArg Tensor.shape? hflat
        rw [Tensor.shape?_reshape] at hshape
        split at hshape
        · exact (Option.some.inj hshape).symm
        · cases hshape
      obtain ⟨gateLogits, hlogits, hdims, -⟩ := Projection.forward_matrix hgate hflatDims
      have hnarrow : (sortLastDim routing (gateLogits.mapRows routing.softmax)).narrow 1 0
          layer.topK = none := by
        have hcols : (sortLastDim routing (gateLogits.mapRows routing.softmax)).dims[1]? =
            some numExperts := by
          rw [sortLastDim, Tensor.mapRows, hdims]
          rfl
        rw [Tensor.narrow, hcols]
        apply if_neg
        omega
      rw [Option.bind_some, hlogits, Option.bind_some, hnarrow, Option.bind_none]

variable (routing hiddenDim) in
/-- A token has an expert. -/
theorem exists_topExpert (htop : 0 < layer.topK) (hle : layer.topK ≤ numExperts) (row : ℕ → K) :
    ∃ e, e ∈ topExperts routing layer hiddenDim numExperts row := by
  have hpos : 0 < (topExperts routing layer hiddenDim numExperts row).length := by
    rw [topExperts, List.length_take, length_argsort, length_probabilities]
    omega
  exact ⟨_, List.getElem_mem hpos⟩

variable [IsStrictOrderedRing K] (routing dtype)

/-- Other types and wider tokens end the loop at the first expert that is chosen. -/
theorem forward_unanswered (hgate : layer.gate.Fits numExperts hiddenDim)
    (hexperts : ∀ expert ∈ layer.experts, expert.Fits hiddenDim hiddenDim)
    (hnum : layer.experts.length = numExperts) (htop : 0 < layer.topK)
    (hle : layer.topK ≤ numExperts) (hx : x.dims = [batchSize, seqLen, hiddenDim])
    (htokens : 0 < batchSize * seqLen) (hanswers : ¬ (dtype = .f64 ∧ hiddenDim = 1)) :
    layer.forward routing dtype x = none := by
  obtain ⟨xFlat, gateProbs, topIdx, -, -, hrouted, hforward⟩ :=
    forward_eq routing dtype hgate hle hx
  obtain ⟨e, he⟩ := exists_topExpert routing hiddenDim htop hle fun c => xFlat.entry [0, c]
  have hlt : e < layer.experts.length := hnum ▸ lt_of_mem_topExperts he
  have hmem : (layer.experts[e], e) ∈ layer.experts.zipIdx :=
    List.mem_zipIdx_iff_getElem?.mpr (List.getElem?_eq_getElem hlt)
  have hstep : ∀ output, addExpert dtype xFlat gateProbs topIdx output (layer.experts[e], e) =
      none := by
    intro output
    by_cases hdtype : dtype = .f64
    · subst hdtype
      exact addExpert_width hrouted (hexperts _ (List.getElem_mem hlt))
        (fun h => hanswers ⟨rfl, h⟩) htokens he output
    · exact addExpert_type hdtype output _
  rw [hforward, foldlM_eq_none hstep hmem, Option.bind_none]

/-- What the best experts of a token make of it. -/
def mixture (routing : Routing K) (layer : MoeLayer K) (numExperts : ℕ) (row : ℕ → K) : K :=
  ((topExperts routing layer 1 numExperts row).map fun e =>
    (layer.experts[e]?.map fun expert =>
      (probabilities routing layer 1 numExperts row).getD e 0 * expert.output 1 row 0).getD 0).sum

omit [IsStrictOrderedRing K] in
theorem mixture_congr {row row' : ℕ → K} (h : ∀ c < 1, row c = row' c) :
    mixture routing layer numExperts row = mixture routing layer numExperts row' := by
  rw [mixture, mixture, topExperts, topExperts, probabilities_congr routing layer numExperts h]
  congr 1
  refine List.map_congr_left fun e _ => ?_
  simp only [Projection.output_congr h]

theorem forward_answered (hgate : layer.gate.Fits numExperts 1)
    (hexperts : ∀ expert ∈ layer.experts, expert.Fits 1 1)
    (hnum : layer.experts.length = numExperts) (hle : layer.topK ≤ numExperts)
    (hx : x.dims = [batchSize, seqLen, 1]) :
    ∃ y, layer.forward routing .f64 x = some y ∧ y.dims = x.dims ∧
      ∀ i < batchSize, ∀ j < seqLen,
        y.entry [i, j, 0] = mixture routing layer numExperts fun c => x.entry [i, j, c] := by
  obtain ⟨xFlat, gateProbs, topIdx, hflat, hprobs, hrouted, hforward⟩ :=
    forward_eq routing .f64 hgate hle hx
  have hzeros : (Tensor.zeros [batchSize * seqLen, 1] : Tensor K).dims =
      [batchSize * seqLen, 1] := rfl
  obtain ⟨last, hlast, hlastDims, hlastEntry⟩ := foldlM_addExpert hrouted layer.experts.zipIdx
    (fun entry h => hexperts _ (List.fst_mem_of_mem_zipIdx h)) hzeros
  have hshape : Tensor.shape? (last.reshape [batchSize, seqLen, 1]) =
      some [batchSize, seqLen, 1] := by
    rw [Tensor.shape?_reshape, if_pos]
    rw [hlastDims]
    simp only [List.prod_cons, List.prod_nil, mul_one]
  obtain ⟨y, hy, hyDims⟩ := Tensor.shape?_eq_some.mp hshape
  refine ⟨y, ?_, hyDims.trans hx.symm, fun i hi j hj => ?_⟩
  · rw [hforward, hlast, Option.bind_some, hy]
  · have hcell : y.entry [i, j, 0] = last.entry [i * seqLen + j, 0] := by
      apply Tensor.entry_reshape hy
      · rw [hlastDims]
        exact .cons (flat_lt hi hj) (.cons Nat.one_pos .nil)
      · rw [hlastDims]
        simp only [Tensor.offset, List.prod_cons, List.prod_nil]
        ring
    have hzero : (Tensor.zeros [batchSize * seqLen, 1] : Tensor K).entry [i * seqLen + j, 0] = 0 :=
      rfl
    have hsum := sum_zipIdx
      (topExperts_nodup routing layer 1 numExperts fun c => xFlat.entry [i * seqLen + j, c])
      layer.experts (fun e' he' => hnum ▸ lt_of_mem_topExperts he')
      fun expert e' => gateProbs.entry [i * seqLen + j, e'] *
        expert.output 1 (fun c => xFlat.entry [i * seqLen + j, c]) 0
    rw [hcell, hlastEntry _ (flat_lt hi hj), hzero, zero_add, hsum]
    simp only [hprobs]
    exact mixture_congr routing fun c hc => entry_flat hx hflat hi hj hc

/-- **A layer of experts answers for tokens of one number.** Where there is a token and an expert to
choose, it answers exactly if the experts are as many as it is to choose, the numbers are of type
`f64` and a token has one of them. Then every token gets the outputs of its best experts, weighted
with their probabilities. -/
theorem forward_routes (hgate : layer.gate.Fits numExperts hiddenDim)
    (hexperts : ∀ expert ∈ layer.experts, expert.Fits hiddenDim hiddenDim)
    (hnum : layer.experts.length = numExperts) (htop : 0 < layer.topK)
    (hx : x.dims = [batchSize, seqLen, hiddenDim]) (htokens : 0 < batchSize * seqLen) :
    ((layer.forward routing dtype x).isSome ↔
      layer.topK ≤ numExperts ∧ dtype = .f64 ∧ hiddenDim = 1) ∧
    ∀ y, layer.forward routing dtype x = some y → y.dims = x.dims ∧
      ∀ i < batchSize, ∀ j < seqLen,
        y.entry [i, j, 0] = mixture routing layer numExperts fun c => x.entry [i, j, c] := by
  by_cases hanswers : layer.topK ≤ numExperts ∧ dtype = .f64 ∧ hiddenDim = 1
  · obtain ⟨hle, rfl, rfl⟩ := hanswers
    obtain ⟨y, hy, hdims, hentry⟩ := forward_answered routing hgate hexperts hnum hle hx
    rw [hy]
    refine ⟨⟨fun _ => ⟨hle, rfl, rfl⟩, fun _ => rfl⟩, ?_⟩
    rintro _ ⟨⟩
    exact ⟨hdims, hentry⟩
  · have hnone : layer.forward routing dtype x = none := by
      by_cases hle : layer.topK ≤ numExperts
      · exact forward_unanswered routing dtype hgate hexperts hnum htop hle hx htokens
          fun h => hanswers ⟨hle, h⟩
      · exact forward_few hgate hle hx
    rw [hnone]
    refine ⟨⟨fun h => absurd h Bool.false_ne_true, fun h => absurd h hanswers⟩, ?_⟩
    rintro _ ⟨⟩

end Forward

/-- Where all experts are as likely as each other, with a stable sort. -/
def flatRouting : Routing ℚ where
  softmax row := row.map fun _ => 1 / row.length
  length_softmax row := List.length_map _
  argsort row := (List.range row.length).mergeSort fun i j => row.getD j 0 ≤ row.getD i 0
  argsort_perm row := List.mergeSort_perm _ _
  argsort_sorted row := by
    have htrans : ∀ a b c : ℕ, decide (row.getD b 0 ≤ row.getD a 0) = true →
        decide (row.getD c 0 ≤ row.getD b 0) = true →
          decide (row.getD c 0 ≤ row.getD a 0) = true := by
      intro a b c hab hbc
      rw [decide_eq_true_eq] at hab hbc ⊢
      exact hbc.trans hab
    have htotal : ∀ a b : ℕ, (decide (row.getD b 0 ≤ row.getD a 0) ||
        decide (row.getD a 0 ≤ row.getD b 0)) = true := by
      intro a b
      rw [Bool.or_eq_true, decide_eq_true_eq, decide_eq_true_eq]
      exact le_total _ _
    exact (List.pairwise_mergeSort htrans htotal _).imp of_decide_eq_true

theorem forward_routes_of_two :
    let expert (w : ℚ) : Projection ℚ := ⟨⟨[1, 1], fun _ => w⟩, none⟩
    let layer : MoeLayer ℚ := ⟨⟨⟨[2, 1], fun _ => 0⟩, none⟩, [expert 3, expert 5], 1⟩
    (layer.forward flatRouting .f64 ⟨[1, 1, 1], fun _ => 7⟩).isSome = true ∧
    (layer.forward flatRouting .f32 ⟨[1, 1, 1], fun _ => 7⟩).isSome = false := by
  intro expert layer
  have hgate : layer.gate.Fits 2 1 := by
    refine ⟨rfl, fun b hb => ?_⟩
    cases hb
  have hexpert : ∀ w, (expert w).Fits 1 1 := by
    intro w
    refine ⟨rfl, fun b hb => ?_⟩
    cases hb
  have hexperts : ∀ e ∈ layer.experts, e.Fits 1 1 := by
    intro e he
    rcases List.mem_pair.mp he with rfl | rfl
    · exact hexpert 3
    · exact hexpert 5
  have hroutes := fun dtype => (forward_routes flatRouting dtype (x := ⟨[1, 1, 1], fun _ => 7⟩) hgate hexperts rfl Nat.one_pos rfl Nat.one_pos).1
  constructor
  · exact (hroutes .f64).mpr ⟨by decide, rfl, rfl⟩
  · refine Bool.eq_false_iff.mpr fun h => ?_
    obtain ⟨-, hdtype, -⟩ := (hroutes .f32).mp h
    cases hdtype

end Kyro.MoeLayer
