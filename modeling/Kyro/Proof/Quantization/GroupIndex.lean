import Kyro.Proof.Quantization.Awq
import Kyro.Proof.Quantization.Forward

/-!
# Packed words with groups in any order

With an index of groups the columns of an `AwqLinear` take their scales from wherever the index
points. The positions are checked against the whole slice only, so a group that does not exist is
read from the rows below, and the layer panics where a row has nothing below to read from. It also
panics with groups of size zero, by which a column is divided whether there is an index or not.
-/

namespace Kyro.Quantization

open Fill

namespace AwqLinear

variable (layer : AwqLinear) (m words r c : ℕ)

/-- The group that a column is given. -/
def groupAt : ℕ :=
  match layer.gIdx with
  | some g => asUsize (g.flatten.getD c 0)
  | none => c / layer.groupSize

/-- The zero point that is read for a group in a row. -/
def zeroAt (group : ℕ) : UInt8 :=
  if layer.qzeros.flatten = [] then 8
  else (unpackI32Word (layer.qzeros.flatten.getD
    (r * (layer.qzeros.flatten.length / m) + group / 8) 0)).getD (group % 8) 0

/-- The weight of a cell: its nibble, less a zero point, times a scale. -/
def dequantized : ℚ :=
  (ofU8 ((unpackI32Word (layer.qweight.entry [r, c / 8])).getD (c % 8) 0) -
    ofU8 (layer.zeroAt m r (layer.groupAt c))) *
      layer.scales.flatten.getD (r * (layer.scales.flatten.length / m) + layer.groupAt c) 0

/-- The column can be divided by the size of the groups, and the scale and the zero point of the
cell lie in their slices. -/
structure Readable : Prop where
  size : 0 < layer.groupSize
  scale : r * (layer.scales.flatten.length / m) + layer.groupAt c < layer.scales.flatten.length
  zero : layer.qzeros.flatten = [] ∨
    r * (layer.qzeros.flatten.length / m) + layer.groupAt c / 8 < layer.qzeros.flatten.length

/-- There are rows, and an index has a group for every column. -/
structure Grouped : Prop where
  dims : layer.qweight.dims = [m, words]
  rows : 0 < m
  index : ∀ g ∈ layer.gIdx, g.dims = [words * 8]

variable {layer m words r c}

theorem groupOf_eq (h : layer.Grouped m words) (hc : c < words * 8) :
    groupOf (layer.gIdx.map Tensor.flatten) layer.groupSize c =
      (checkedDiv c layer.groupSize).map fun _ => layer.groupAt c := by
  unfold groupAt
  cases hindex : layer.gIdx with
  | none =>
      rw [Option.map_none, groupOf, checkedDiv]
      split <;> rfl
  | some g =>
      have hlength : c < g.flatten.length := by
        rw [Tensor.length_flatten, h.index g hindex, List.prod_singleton]
        exact hc
      rw [Option.map_some, groupOf, read_of_lt _ hlength 0, Machine.ok_bind, checkedDiv]
      split <;> rfl

theorem zeroOf_eq {group : ℕ} (h : layer.qzeros.flatten = [] ∨
    r * (layer.qzeros.flatten.length / m) + group / 8 < layer.qzeros.flatten.length) :
    zeroOf layer.qzeros.flatten (layer.qzeros.flatten.length / m) r group =
      .ok (layer.zeroAt m r group) := by
  rw [zeroOf, zeroAt]
  by_cases hempty : layer.qzeros.flatten = []
  · rw [if_pos (List.isEmpty_iff.mpr hempty), if_pos hempty]
  · have hword := h.resolve_left hempty
    have hnibble : group % 8 < (unpackI32Word (layer.qzeros.flatten.getD
        (r * (layer.qzeros.flatten.length / m) + group / 8) 0)).length :=
      Nat.mod_lt group (by decide)
    rw [if_neg fun h => hempty (List.isEmpty_iff.mp h), if_neg hempty, read_of_lt _ hword 0,
      Machine.ok_bind, read_of_lt _ hnibble 0]

theorem unpackCell_readable (h : layer.Grouped m words) (hr : r < m) (hc : c < words * 8)
    (hreadable : layer.Readable m r c) {weight : List ℚ} (hweight : weight.length = m * (words * 8)) :
    ∃ weight', unpackCell layer.qweight.flatten layer.qzeros.flatten layer.scales.flatten
        (layer.gIdx.map Tensor.flatten) words layer.groupSize (layer.scales.flatten.length / m)
        (layer.qzeros.flatten.length / m) r weight c = .ok weight' ∧
      Written (atCell (words * 8) (layer.dequantized m)) {r * (words * 8) + c} weight weight' := by
  have hplace : c / 8 < words := by omega
  have hword : layer.qweight.flatten[r * words + c / 8]? = some (layer.qweight.entry [r, c / 8]) := by
    rw [flatten_matrix h.dims, getElem?_matrix _ hr hplace]
  have hnibble : c % 8 < (unpackI32Word (layer.qweight.entry [r, c / 8])).length :=
    Nat.mod_lt c (by decide)
  have hgroup : groupOf (layer.gIdx.map Tensor.flatten) layer.groupSize c =
      .ok (layer.groupAt c) := by
    rw [groupOf_eq h hc, checkedDiv, if_neg (Nat.ne_of_gt hreadable.size)]
    rfl
  rw [unpackCell, read_of_eq _ hword, Machine.ok_bind, read_of_lt _ hnibble 0, Machine.ok_bind,
    hgroup, Machine.ok_bind, zeroOf_eq hreadable.zero, Machine.ok_bind, read_of_lt _ hreadable.scale 0,
    Machine.ok_bind]
  apply write_written
  · rw [hweight]
    exact cell_lt hr hc
  · rw [atCell_cell _ hc, dequantized]

/-- A cell that has been unpacked was readable. -/
theorem readable_of_unpackCell (h : layer.Grouped m words) (hc : c < words * 8)
    {weight weight' : List ℚ}
    (hcell : unpackCell layer.qweight.flatten layer.qzeros.flatten layer.scales.flatten
      (layer.gIdx.map Tensor.flatten) words layer.groupSize (layer.scales.flatten.length / m)
      (layer.qzeros.flatten.length / m) r weight c = .ok weight') : layer.Readable m r c := by
  rw [unpackCell] at hcell
  obtain ⟨word, -, hcell⟩ := Machine.bind_eq_ok.mp hcell
  obtain ⟨q, -, hcell⟩ := Machine.bind_eq_ok.mp hcell
  obtain ⟨group, hgroup, hcell⟩ := Machine.bind_eq_ok.mp hcell
  obtain ⟨z, hzero, hcell⟩ := Machine.bind_eq_ok.mp hcell
  obtain ⟨s, hscale, -⟩ := Machine.bind_eq_ok.mp hcell
  rw [groupOf_eq h hc] at hgroup
  obtain ⟨quotient, hquotient, rfl⟩ := Machine.map_eq_ok.mp hgroup
  refine ⟨(checkedDiv_eq_ok hquotient).1, lt_of_read _ hscale, ?_⟩
  rw [zeroOf] at hzero
  split at hzero
  · rename_i hempty
    exact .inl (List.isEmpty_iff.mp hempty)
  · obtain ⟨zword, hword, -⟩ := Machine.bind_eq_ok.mp hzero
    exact .inr (lt_of_read _ hword)

/-- `unpack_weights` up to its loops. -/
theorem unpackWeights_grouped (h : layer.Grouped m words) : layer.unpackWeights =
    (unpackData layer.qweight.flatten layer.qzeros.flatten layer.scales.flatten
      (layer.gIdx.map Tensor.flatten) words layer.groupSize (layer.scales.flatten.length / m)
      (layer.qzeros.flatten.length / m) m).map fun weight =>
        Tensor.fromSlice weight [m, words * 8] := by
  have hqzeros : (if 0 < layer.qzeros.dims.prod then layer.qzeros.flatten else []) =
      layer.qzeros.flatten := by
    split
    · rfl
    · rename_i hempty
      have hlength := layer.qzeros.length_flatten
      exact (List.eq_nil_of_length_eq_zero (by omega)).symm
  have hstride : rowStride layer.qzeros.flatten m = .ok (layer.qzeros.flatten.length / m) := by
    rw [rowStride]
    split
    · rename_i hempty
      rw [List.isEmpty_iff.mp hempty, List.length_nil, Nat.zero_div]
    · rw [checkedDiv, if_neg (Nat.ne_of_gt h.rows)]
  rw [unpackWeights, h.dims]
  show (checkedDiv layer.scales.flatten.length m >>= _) = _
  rw [checkedDiv, if_neg (Nat.ne_of_gt h.rows), Machine.ok_bind]
  dsimp only
  rw [hqzeros, hstride, Machine.ok_bind]
  cases unpackData layer.qweight.flatten layer.qzeros.flatten layer.scales.flatten
      (layer.gIdx.map Tensor.flatten) words layer.groupSize (layer.scales.flatten.length / m)
      (layer.qzeros.flatten.length / m) m with
  | error e => rfl
  | ok weight => rfl

/-- Where all cells are readable, the weights are those of the cells. -/
theorem unpackWeights_readable (h : layer.Grouped m words)
    (hreadable : ∀ r < m, ∀ c < words * 8, layer.Readable m r c) :
    ∃ t, layer.unpackWeights = .ok (some t) ∧ t.dims = [m, words * 8] ∧
      ∀ r < m, ∀ c < words * 8, t.entry [r, c] = layer.dequantized m r c := by
  have hstart : (List.replicate (m * (words * 8)) (0 : ℚ)).length = m * (words * 8) :=
    List.length_replicate
  obtain ⟨weight, hweight, hwritten⟩ := foldlM_written (List.range m)
    (s := fun r => across (List.range (words * 8)) fun c => {r * (words * 8) + c})
    (fun xs hxs r hr => foldlM_written _ (s := fun c => {r * (words * 8) + c})
      (fun ys hys c hc => unpackCell_readable h (List.mem_range.mp hr) (List.mem_range.mp hc)
        (hreadable r (List.mem_range.mp hr) c (List.mem_range.mp hc)) hys) hxs) hstart
  have hmatrix := hwritten.eq_matrix hstart
    fun r hr c hc => ⟨r, List.mem_range.mpr hr, c, List.mem_range.mpr hc, rfl⟩
  refine ⟨slice m (words * 8) weight, ?_, rfl, fun r hr c hc => ?_⟩
  · rw [unpackWeights_grouped h, unpackData, hweight, hmatrix]
    exact congrArg Except.ok (fromSlice_pair (length_matrix ..))
  · rw [slice_entry, hmatrix, getD_matrix _ hr hc]

/-- **A layer of packed words panics exactly where a cell points past its slices or the size of the
groups is zero.** Elsewhere it takes the F16 matrices that a layer takes, and its outputs are those
of the dequantized weights as F16, if this type has room for them, whatever order the index has the
groups in. -/
theorem forward_grouped (h : layer.Grouped m words) {bias : Option (Tensor ℚ)}
    (hbias : ∀ b ∈ bias, b.dims = [m]) (dtype : FloatType) (x : Tensor ℚ) :
    ((∃ result, layer.forward bias dtype x = .ok result) ↔
      ∀ r < m, ∀ c < words * 8, layer.Readable m r c) ∧
    ∀ result, layer.forward bias dtype x = .ok result →
      (result.isSome ↔ dtype = .f16 ∧ ∃ n, x.dims = [n, words * 8]) ∧
      ∀ n y, x.dims = [n, words * 8] → result = some y → y.dims = [n, m] ∧
        ((∀ r < m, ∀ c < words * 8, |layer.dequantized m r c| ≤ f16Max) → ∀ i < n, ∀ r < m,
          y.entry [i, r] = ∑ c ∈ Finset.range (words * 8),
            x.entry [i, c] * f16 (layer.dequantized m r c) + biasAt bias r) := by
  have hreadable : (∃ result, layer.forward bias dtype x = .ok result) →
      ∀ r < m, ∀ c < words * 8, layer.Readable m r c := by
    rintro ⟨result, hresult⟩ r hr c hc
    rw [forward, unpackWeights_grouped h] at hresult
    obtain ⟨weight, hweight, -⟩ := Machine.bind_eq_ok.mp hresult
    obtain ⟨data, hdata, -⟩ := Machine.map_eq_ok.mp hweight
    obtain ⟨xs, ys, hrow⟩ := exists_step hdata (List.mem_range.mpr hr)
    obtain ⟨xs', ys', hcell⟩ := exists_step hrow (List.mem_range.mpr hc)
    exact readable_of_unpackCell h hc hcell
  by_cases hall : ∀ r < m, ∀ c < words * 8, layer.Readable m r c
  · obtain ⟨t, ht, htDims, htEntry⟩ := unpackWeights_readable h hall
    have hforward : layer.forward bias dtype x = .ok (projectF16 t bias dtype x) := by
      rw [forward, ht]
      rfl
    rw [hforward]
    refine ⟨⟨fun _ => hall, fun _ => ⟨_, rfl⟩⟩, ?_⟩
    rintro _ ⟨⟩
    refine ⟨projectF16_isSome_iff htDims hbias, fun n y hx hy => ?_⟩
    have hrounded : (t.map f16).dims = [m, words * 8] := htDims
    obtain ⟨y', hy', hyDims, hyEntry⟩ := project_eq hrounded hbias hx
    cases (eq_f16_of_projectF16 hy).2.symm.trans hy'
    refine ⟨hyDims, fun _ i hi r hr => ?_⟩
    rw [hyEntry i hi r hr]
    congr 1
    refine Finset.sum_congr rfl fun c hc => ?_
    rw [← htEntry r hr c (Finset.mem_range.mp hc)]
    rfl
  · exact ⟨⟨hreadable, fun h => absurd h hall⟩,
      fun result hresult => absurd (hreadable ⟨result, hresult⟩) hall⟩

/-- Two rows with one group each: an index of zeros, one that points to a second group, and groups
of size zero. -/
theorem forward_grouped_of_two :
    let layer (g : Int32) (size : ℕ) : AwqLinear :=
      ⟨⟨[2, 1], fun _ => 17⟩, ⟨[0], fun _ => 0⟩, ⟨[2, 1], fun _ => 1⟩, some ⟨[8], fun _ => g⟩, size⟩
    (∃ result, (layer 0 8).forward none .f16 ⟨[1, 8], fun _ => 1⟩ = .ok result) ∧
      (¬ ∃ result, (layer 1 8).forward none .f16 ⟨[1, 8], fun _ => 1⟩ = .ok result) ∧
      ¬ ∃ result, (layer 0 0).forward none .f16 ⟨[1, 8], fun _ => 1⟩ = .ok result := by
  intro layer
  have hgrouped : ∀ g size, (layer g size).Grouped 2 1 := by
    intro g size
    refine ⟨rfl, Nat.two_pos, fun index hindex => ?_⟩
    cases hindex
    rfl
  have hbias : ∀ b ∈ (none : Option (Tensor ℚ)), b.dims = [2] := by
    intro b hb
    cases hb
  have hplace : ∀ r < 2, ∀ c < 8,
      r * ((layer 0 8).scales.flatten.length / 2) + (layer 0 8).groupAt c <
        (layer 0 8).scales.flatten.length := by
    decide +kernel
  have hpast : ¬ 1 * ((layer 1 8).scales.flatten.length / 2) + (layer 1 8).groupAt 0 <
      (layer 1 8).scales.flatten.length := by
    decide +kernel
  refine ⟨?_, fun hanswered => ?_, fun hanswered => ?_⟩
  · apply (forward_grouped (hgrouped 0 8) hbias _ _).1.mpr
    exact fun r hr c hc => ⟨Nat.zero_lt_succ 7, hplace r hr c hc, .inl rfl⟩
  · have hreadable := (forward_grouped (hgrouped 1 8) hbias _ _).1.mp hanswered
    exact hpast (hreadable 1 (by decide) 0 (by decide)).scale
  · have hreadable := (forward_grouped (hgrouped 0 0) hbias _ _).1.mp hanswered
    exact absurd (hreadable 0 (by decide) 0 (by decide)).size (lt_irrefl 0)

end AwqLinear
end Kyro.Quantization
