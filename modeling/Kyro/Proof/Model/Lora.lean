import Kyro.Model.Variants
import Mathlib.Algebra.BigOperators.Ring.Finset
import Mathlib.Tactic.Ring

/-!
# A layer with adapters and the layer it stands for

Whatever has been added under other names, a layer with an adapter is the layer whose weights have
the product of the two matrices of the adapter added to them; but it takes matrices only, where the
layer without an adapter takes stacks of matrices too.
-/

namespace Kyro

variable {K : Type} [Field K] {m n k : ℕ}

namespace Projection

variable {layer : Projection K} {x : Tensor K}

/-- The weights and the bias have the right shapes. -/
structure Fits (layer : Projection K) (m k : ℕ) : Prop where
  weight : layer.weight.dims = [m, k]
  bias : ∀ b ∈ layer.bias, b.dims = [m]

def biasAt (layer : Projection K) (r : ℕ) : K := (layer.bias.map fun b => b.entry [r]).getD 0

/-- An output of the layer, for the row of an input. -/
def output (layer : Projection K) (k : ℕ) (row : ℕ → K) (r : ℕ) : K :=
  ∑ c ∈ Finset.range k, row c * layer.weight.entry [r, c] + layer.biasAt r

theorem output_congr {row row' : ℕ → K} (h : ∀ c < k, row c = row' c) {r : ℕ} :
    layer.output k row r = layer.output k row' r := by
  rw [output, output, Finset.sum_congr rfl fun c hc => by rw [h c (Finset.mem_range.mp hc)]]

theorem bias_getD (hfits : layer.Fits m k) {b : Tensor K}
    (hb : layer.bias.getD (Tensor.zeros (layer.weight.dims.take 1)) = b) :
    b.dims = [m] ∧ ∀ r, b.entry [r] = layer.biasAt r := by
  subst hb
  rw [hfits.weight]
  unfold biasAt
  cases hbias : layer.bias with
  | none => exact ⟨rfl, fun _ => rfl⟩
  | some b => exact ⟨hfits.bias b hbias, fun _ => rfl⟩

theorem forward_isSome (hfits : layer.Fits m k) :
    (layer.forward x).isSome ↔ x.dims.length ∈ [2, 3, 4] ∧ x.dims.getLast? = some k := by
  obtain ⟨hbias, -⟩ := bias_getD hfits rfl
  rw [forward, Tensor.linear, hfits.weight]
  dsimp only
  rw [← hfits.weight, hbias]
  split
  · rename_i hrank
    split
    · rename_i hlast
      exact ⟨fun _ => ⟨hrank, hlast.1⟩, fun _ => rfl⟩
    · rename_i hlast
      exact ⟨fun h => absurd h Bool.false_ne_true, fun h => absurd ⟨h.2, rfl⟩ hlast⟩
  · rename_i hrank
    exact ⟨fun h => absurd h Bool.false_ne_true, fun h => absurd h.1 hrank⟩

theorem forward_matrix (hfits : layer.Fits m k) (hx : x.dims = [n, k]) :
    ∃ y, layer.forward x = some y ∧ y.dims = [n, m] ∧
      ∀ i r, y.entry [i, r] = layer.output k (fun c => x.entry [i, c]) r := by
  obtain ⟨hbias, hentry⟩ := bias_getD hfits rfl
  have hshape := Tensor.shape?_linear [n] hx hfits.weight hbias
  obtain ⟨y, hy, hdims⟩ := Tensor.shape?_eq_some.mp hshape
  refine ⟨y, ?_, hdims, fun i r => ?_⟩
  · rw [forward, if_pos (by rw [hx]; exact List.mem_cons_self), hy]
  · rw [← List.singleton_append, Tensor.entry_linear hy hfits.weight, hentry]
    rfl

end Projection

namespace LoraAdapter

/-- The two matrices go with a layer, and there is something to divide by. -/
structure Fits (adapter : LoraAdapter K) (r m k : ℕ) : Prop where
  rank : 0 < adapter.rank
  a : adapter.a.dims = [r, k]
  b : adapter.b.dims = [m, r]

end LoraAdapter

namespace LoraLinear

/-- The layer with an adapter in its weights. -/
def merged (base : Projection K) (adapter : LoraAdapter K) (r : ℕ) : Projection K where
  weight := ⟨base.weight.dims, fun idx => base.weight.entry idx +
    adapter.alpha / adapter.rank * ∑ j ∈ Finset.range r,
      adapter.b.entry [idx.getD 0 0, j] * adapter.a.entry [j, idx.getD 1 0]⟩
  bias := base.bias

variable {base : Projection K} {adapter : LoraAdapter K} {x : Tensor K} {r : ℕ}

theorem merged_fits (hbase : base.Fits m k) (adapter : LoraAdapter K) (r : ℕ) : (merged base adapter r).Fits m k :=
  ⟨hbase.weight, hbase.bias⟩

/-- The two ways to add up. -/
theorem output_merged (row : ℕ → K) (i : ℕ) :
    (merged base adapter r).output k row i = base.output k row i +
      (∑ j ∈ Finset.range r, (∑ c ∈ Finset.range k, row c * adapter.a.entry [j, c]) *
        adapter.b.entry [i, j]) * (adapter.alpha / adapter.rank) := by
  have hsum : ∑ c ∈ Finset.range k, row c * (adapter.alpha / adapter.rank *
      ∑ j ∈ Finset.range r, adapter.b.entry [i, j] * adapter.a.entry [j, c]) =
      (∑ j ∈ Finset.range r, (∑ c ∈ Finset.range k, row c * adapter.a.entry [j, c]) *
        adapter.b.entry [i, j]) * (adapter.alpha / adapter.rank) := by
    simp only [Finset.mul_sum, Finset.sum_mul]
    rw [Finset.sum_comm]
    refine Finset.sum_congr rfl fun j _ => Finset.sum_congr rfl fun c _ => ?_
    ring
  rw [Projection.output, Projection.output, ← hsum]
  simp only [merged, List.getD_cons_zero, List.getD_cons_succ, mul_add, Finset.sum_add_distrib]
  rw [Projection.biasAt, Projection.biasAt, add_right_comm]

theorem adapted_eq (hfits : adapter.Fits r m k) {baseOut : Tensor K}
    (hbase : baseOut.dims = [n, m]) (hx : x.dims = [n, k]) :
    ∃ y, adapted adapter baseOut x = some y ∧ y.dims = [n, m] ∧ ∀ i < n, ∀ c < m,
      y.entry [i, c] = baseOut.entry [i, c] +
        (∑ j ∈ Finset.range r, (∑ d ∈ Finset.range k, x.entry [i, d] * adapter.a.entry [j, d]) *
          adapter.b.entry [c, j]) * (adapter.alpha / adapter.rank) := by
  obtain ⟨at', hat, hatDims, hatEntry⟩ := Tensor.t_matrix hfits.a
  obtain ⟨bt, hbt, hbtDims, hbtEntry⟩ := Tensor.t_matrix hfits.b
  obtain ⟨loraX, hloraX, hloraXDims, hloraXEntry⟩ := Tensor.matmul_matrix hx hatDims
  obtain ⟨loraOut, hloraOut, hloraOutDims, hloraOutEntry⟩ := Tensor.matmul_matrix hloraXDims hbtDims
  have hscaled : (loraOut.smul (adapter.alpha / adapter.rank)).dims = [n, m] := hloraOutDims
  obtain ⟨y, hy, hdims, hentry⟩ := Tensor.broadcastWith_matrix (· + ·) hbase hscaled
  refine ⟨y, ?_, hdims, fun i hi c hc => ?_⟩
  · rw [adapted, hat]
    dsimp only [Option.bind_eq_bind, Option.bind_some]
    rw [hloraX, Option.bind_some, hbt, Option.bind_some, hloraOut, Option.bind_some, hy]
  · have hscaledEntry : (loraOut.smul (adapter.alpha / adapter.rank)).entry [i, c] =
        loraOut.entry [i, c] * (adapter.alpha / adapter.rank) := rfl
    rw [hentry i hi c hc, hscaledEntry, hloraOutEntry]
    simp only [hloraXEntry, hatEntry, hbtEntry]

theorem adapted_none (hfits : adapter.Fits r m k) (baseOut : Tensor K)
    (hx : ∀ n, x.dims ≠ [n, k]) : adapted adapter baseOut x = none := by
  obtain ⟨at', hat, hatDims, _⟩ := Tensor.t_matrix hfits.a
  rw [adapted, hat]
  dsimp only [Option.bind_eq_bind, Option.bind_some]
  rw [Tensor.matmul_matrix_none hatDims hx]
  rfl

/-! ### The adapters of a layer -/

omit [Field K] in
theorem base_foldl (added : List (LoraAdapter K)) (layer : LoraLinear K) :
    (added.foldl addAdapter layer).base = layer.base := by
  induction added generalizing layer with
  | nil => rfl
  | cons adapter added ih => exact ih _

omit [Field K] in
/-- The last adapter under a name is the one that is found. -/
theorem lookup_foldl (added : List (LoraAdapter K)) (layer : LoraLinear K) (id : String) :
    (added.foldl addAdapter layer).adapters.lookup id =
      (added.reverse.find? (·.id = id)).or (layer.adapters.lookup id) := by
  induction added generalizing layer with
  | nil => rfl
  | cons adapter added ih =>
      rw [List.foldl_cons, ih, List.reverse_cons, List.find?_append, Option.or_assoc]
      congr 1
      by_cases hid : adapter.id = id
      · subst hid
        rw [addAdapter, AList.lookup_insert, List.find?_cons_of_pos (by simp)]
        rfl
      · rw [addAdapter, AList.lookup_insert_ne (Ne.symm hid), List.find?_cons_of_neg (by simp [hid])]
        rfl

/-- **A layer with adapters.** Without a name, or with one under which no adapter was added, it is
its base. With a name it takes matrices only, and it is the layer that has the last adapter under
that name merged into its weights. -/
theorem forward_merged (hbase : base.Fits m k) (added : List (LoraAdapter K)) (x : Tensor K)
    (adapterId : Option String) :
    ((∀ id ∈ adapterId, ∀ adapter ∈ added, adapter.id ≠ id) →
      (added.foldl addAdapter (new base)).forward x adapterId = base.forward x) ∧
    ∀ id adapter r, adapterId = some id → added.reverse.find? (·.id = id) = some adapter →
      adapter.Fits r m k →
      (((added.foldl addAdapter (new base)).forward x adapterId).isSome ↔ ∃ n, x.dims = [n, k]) ∧
      ∀ n, x.dims = [n, k] → ∃ y plain,
        (added.foldl addAdapter (new base)).forward x adapterId = some y ∧
        (merged base adapter r).forward x = some plain ∧ y.dims = plain.dims ∧
        ∀ i < n, ∀ c < m, y.entry [i, c] = plain.entry [i, c] := by
  have hlookup : ∀ id, (added.foldl addAdapter (new base)).adapters.lookup id =
      added.reverse.find? (·.id = id) := by
    intro id
    rw [lookup_foldl, new, AList.lookup_empty, Option.or_none]
  constructor
  · intro hnone
    have hfind : adapterId.bind (added.foldl addAdapter (new base)).adapters.lookup = none := by
      cases adapterId with
      | none => rfl
      | some id =>
          rw [Option.bind_some, hlookup, List.find?_eq_none]
          intro adapter hmem
          simpa using hnone id rfl adapter (List.mem_reverse.mp hmem)
    rw [forward, hfind, base_foldl]
    exact Option.bind_fun_some _
  · rintro id adapter r rfl hfind hfits
    have hforward : (added.foldl addAdapter (new base)).forward x (some id) =
        (base.forward x).bind fun baseOut => adapted adapter baseOut x := by
      rw [forward, Option.bind_some, hlookup, hfind, base_foldl]
      rfl
    have hmatrix : ∀ n, x.dims = [n, k] → ∃ y plain,
        (added.foldl addAdapter (new base)).forward x (some id) = some y ∧
        (merged base adapter r).forward x = some plain ∧ y.dims = plain.dims ∧
        ∀ i < n, ∀ c < m, y.entry [i, c] = plain.entry [i, c] := by
      intro n hx
      obtain ⟨baseOut, hbaseOut, hbaseDims, hbaseEntry⟩ := Projection.forward_matrix hbase hx
      obtain ⟨plain, hplain, hplainDims, hplainEntry⟩ :=
        Projection.forward_matrix (merged_fits hbase adapter r) hx
      obtain ⟨y, hy, hyDims, hyEntry⟩ := adapted_eq hfits hbaseDims hx
      refine ⟨y, plain, ?_, hplain, hyDims.trans hplainDims.symm, fun i hi c hc => ?_⟩
      · rw [hforward, hbaseOut, Option.bind_some, hy]
      · rw [hyEntry i hi c hc, hbaseEntry, hplainEntry, output_merged]
    refine ⟨?_, hmatrix⟩
    by_cases hx : ∃ n, x.dims = [n, k]
    · obtain ⟨n, hx⟩ := hx
      obtain ⟨y, -, hy, -⟩ := hmatrix n hx
      rw [hy]
      exact ⟨fun _ => ⟨n, hx⟩, fun _ => rfl⟩
    · have hnone : (base.forward x).bind (fun baseOut => adapted adapter baseOut x) = none := by
        cases base.forward x with
        | none => rfl
        | some baseOut => exact adapted_none hfits baseOut fun n h => hx ⟨n, h⟩
      rw [hforward, hnone]
      exact ⟨fun h => absurd h Bool.false_ne_true, fun h => absurd h hx⟩

theorem forward_merged_of_two :
    let adapter : LoraAdapter ℚ := ⟨"style", ⟨[1, 1], fun _ => 1⟩, ⟨[1, 1], fun _ => 1⟩, 3, 1⟩
    let layer := [adapter, { adapter with alpha := 5 }].foldl addAdapter
      (new ⟨⟨[1, 1], fun _ => 2⟩, none⟩)
    (layer.forward ⟨[1, 1], fun _ => 1⟩ (some "style")).isSome = true ∧
    (layer.forward ⟨[1, 1, 1], fun _ => 1⟩ (some "style")).isSome = false ∧
    (layer.forward ⟨[1, 1, 1], fun _ => 1⟩ none).isSome = true := by
  intro adapter layer
  have hbase : (⟨⟨[1, 1], fun _ => 2⟩, none⟩ : Projection ℚ).Fits 1 1 := by
    refine ⟨rfl, fun b hb => ?_⟩
    cases hb
  have hfits : LoraAdapter.Fits { adapter with alpha := 5 } 1 1 1 := ⟨Nat.one_pos, rfl, rfl⟩
  have hmerged := fun x => (forward_merged hbase [adapter, { adapter with alpha := 5 }] x
    (some "style")).2 "style" { adapter with alpha := 5 } 1 rfl rfl hfits
  refine ⟨(hmerged _).1.mpr ⟨1, rfl⟩, Bool.eq_false_iff.mpr fun h => ?_, ?_⟩
  · obtain ⟨n, hn⟩ := (hmerged _).1.mp h
    cases hn
  · have hplain := (forward_merged hbase [adapter, { adapter with alpha := 5 }]
      ⟨[1, 1, 1], fun _ => 1⟩ none).1 fun id hid => by cases hid
    rw [hplain, Projection.forward_isSome hbase]
    exact ⟨by decide, rfl⟩

end LoraLinear
end Kyro
