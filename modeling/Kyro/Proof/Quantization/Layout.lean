import Kyro.Proof.Quantization.Nibbles

/-!
# The layout of four-bit weights

What the loops of `Int4Linear::quantize` and `unpack_weights` compute, cell by cell. The codes are
packed along the whole matrix and read back row by row of bytes, which agrees exactly for an even
number of columns.
-/

namespace Kyro.Quantization

open Fill

/-! ### Tensors that hold a matrix -/

theorem flatten_matrix {α : Type} {t : Tensor α} {m n : ℕ} (h : t.dims = [m, n]) :
    t.flatten = matrix m n fun r c => t.entry [r, c] := by
  rw [Tensor.flatten, matrix, h]
  simp only [List.prod_cons, List.prod_nil, Nat.mul_one, Tensor.unravel, Nat.div_one]
  rfl

/-- The tensor of a slice that holds a matrix. -/
def slice {α : Type} [Zero α] (m n : ℕ) (data : List α) : Tensor α :=
  ⟨[m, n], fun idx => data.getD (Tensor.offset [m, n] idx) 0⟩

section Slice

variable {α : Type} [Zero α] {m n : ℕ} {data : List α}

theorem fromSlice_pair (h : data.length = m * n) :
    Tensor.fromSlice data [m, n] = some (slice m n data) :=
  Tensor.fromSlice_eq_some (by simpa using h)

theorem flatten_slice (h : data.length = m * n) : (slice m n data).flatten = data :=
  Tensor.flatten_slice (by simpa using h)

theorem slice_entry (r c : ℕ) : (slice m n data).entry [r, c] = data.getD (r * n + c) 0 := by
  show data.getD (Tensor.offset [m, n] [r, c]) 0 = _
  rw [Tensor.offset_pair]

end Slice

namespace Int4Linear

/-! ### Groups -/

section Columns

variable {groupSize n g c : ℕ}

theorem mem_columns :
    c ∈ columns groupSize n g ↔ g * groupSize ≤ c ∧ c < g * groupSize + groupSize ∧ c < n := by
  rw [columns, List.mem_range'_1]
  omega

theorem group_of_mem (h : c ∈ columns groupSize n g) : c / groupSize = g := by
  obtain ⟨hlo, hhi, _⟩ := mem_columns.mp h
  apply Nat.div_eq_of_lt_le hlo
  rwa [Nat.add_mul, Nat.one_mul]

theorem mem_columns_group (hsize : 0 < groupSize) (hc : c < n) :
    c ∈ columns groupSize n (c / groupSize) :=
  mem_columns.mpr ⟨Nat.div_mul_le_self .., Nat.lt_div_mul_add hsize, hc⟩

/-- `n.div_ceil(group_size)` -/
def groups (groupSize n : ℕ) : ℕ := (n + groupSize - 1) / groupSize

theorem group_lt (hsize : 0 < groupSize) (hc : c < n) : c / groupSize < groups groupSize n := by
  rw [groups, Nat.lt_div_iff_mul_lt hsize]
  have hle := Nat.div_mul_le_self c groupSize
  have hcomm : groupSize * (c / groupSize) = c / groupSize * groupSize := Nat.mul_comm ..
  omega

end Columns

/-! ### What `quantize` computes -/

section Quantize

variable (w : ℕ → ℕ → ℚ) (n groupSize : ℕ)

/-- The weights of a group in a row. -/
def groupWeights (r g : ℕ) : List ℚ := (columns groupSize n g).map (w r)

def least (weights : List ℚ) : ℚ := weights.foldl min f32Max

def largest (weights : List ℚ) : ℚ := weights.foldl max (-f32Max)

def scaleAt (r g : ℕ) : ℚ :=
  scaleOf (least (groupWeights w n groupSize r g)) (largest (groupWeights w n groupSize r g))

def zeroPointAt (r g : ℕ) : UInt8 :=
  zeroPointOf (least (groupWeights w n groupSize r g)) (scaleAt w n groupSize r g)

def codeAt (r c : ℕ) : UInt8 :=
  codeOf (scaleAt w n groupSize r (c / groupSize)) (zeroPointAt w n groupSize r (c / groupSize))
    (w r c)

variable {w n groupSize} {m r : ℕ}

theorem extremes_eq {cols : List ℕ} (hr : r < m) (hcols : ∀ c ∈ cols, c < n) :
    extremes (matrix m n w) n r cols = .ok (least (cols.map (w r)), largest (cols.map (w r))) := by
  suffices h : ∀ a b, cols.foldlM (fun found c => do
      let val ← read Fault.outOfRange (matrix m n w) (r * n + c)
      return (min found.1 val, max found.2 val)) (a, b) =
        .ok ((cols.map (w r)).foldl min a, (cols.map (w r)).foldl max b) from h _ _
  induction cols with
  | nil => exact fun a b => rfl
  | cons c cols ih =>
      intro a b
      have hc : c < n := hcols c List.mem_cons_self
      rw [List.foldlM_cons, read_of_eq _ (getElem?_matrix w hr hc)]
      exact ih (fun c' hc' => hcols c' (.tail c hc')) _ _

/-- The positions of the codes of a group. -/
def codeCells (n groupSize r g : ℕ) : Set ℕ :=
  across (columns groupSize n g) fun c => {r * n + c}

/-- What passes of the loops have done to the three vectors. -/
structure Filled (w : ℕ → ℕ → ℚ) (n groupSize : ℕ) (groupCells cells : Set ℕ) (data data' : Data) :
    Prop where
  scales : Written (atCell (groups groupSize n) (scaleAt w n groupSize)) groupCells
    data.scales data'.scales
  zeros : Written (atCell (groups groupSize n) fun r g => ofU8 (zeroPointAt w n groupSize r g))
    groupCells data.zeros data'.zeros
  values : Written (atCell n (codeAt w n groupSize)) cells data.values data'.values

theorem Filled.across_nil {ι : Type} (s t : ι → Set ℕ) (data : Data) :
    Filled w n groupSize (across [] s) (across [] t) data data :=
  ⟨.across_nil s _, .across_nil s _, .across_nil t _⟩

theorem Filled.pass {ι : Type} {done : List ι} {j : ι} {s t : ι → Set ℕ} {a b c : Data}
    (h : Filled w n groupSize (across done s) (across done t) a b)
    (h' : Filled w n groupSize (s j) (t j) b c) :
    Filled w n groupSize (across (done ++ [j]) s) (across (done ++ [j]) t) a c :=
  ⟨h.scales.pass h'.scales, h.zeros.pass h'.zeros, h.values.pass h'.values⟩

/-- The vectors have their sizes. -/
structure Sized (m n numGroups : ℕ) (data : Data) : Prop where
  scales : data.scales.length = m * numGroups
  zeros : data.zeros.length = m * numGroups
  values : data.values.length = m * n

theorem Sized.filled {numGroups : ℕ} {s t : Set ℕ} {data data' : Data}
    (h : Sized m n numGroups data) (hfilled : Filled w n groupSize s t data data') :
    Sized m n numGroups data' :=
  ⟨hfilled.scales.length_eq.trans h.scales, hfilled.zeros.length_eq.trans h.zeros,
    hfilled.values.length_eq.trans h.values⟩

theorem encode_written (w : ℕ → ℕ → ℚ) (groupSize g : ℕ) {values : List UInt8} (hr : r < m)
    (hlength : values.length = m * n) :
    ∃ values', encode (matrix m n w) n r (columns groupSize n g) (scaleAt w n groupSize r g)
        (zeroPointAt w n groupSize r g) values = .ok values' ∧
      Written (atCell n (codeAt w n groupSize)) (codeCells n groupSize r g) values values' := by
  apply foldlM_written _ (n := m * n) _ hlength
  intro xs hxs c hmem
  have hc : c < n := (mem_columns.mp hmem).2.2
  rw [read_of_eq _ (getElem?_matrix w hr hc)]
  apply write_written
  · rw [hxs]
    exact cell_lt hr hc
  · rw [atCell_cell _ hc, codeAt, group_of_mem hmem]

theorem quantizeGroup_filled {g : ℕ} {data : Data} (hr : r < m) (hg : g < groups groupSize n)
    (hsized : Sized m n (groups groupSize n) data) :
    ∃ data', quantizeGroup (matrix m n w) n groupSize (groups groupSize n) r data g = .ok data' ∧
      Filled w n groupSize {r * groups groupSize n + g} (codeCells n groupSize r g) data data' := by
  have hcell := cell_lt hr hg
  have hscaleRoom := hsized.scales.symm ▸ hcell
  have hzeroRoom := hsized.zeros.symm ▸ hcell
  have hscale := (atCell_cell (scaleAt w n groupSize) hg (r := r)).symm
  have hzero := (atCell_cell (fun r g => ofU8 (zeroPointAt w n groupSize r g)) hg (r := r)).symm
  obtain ⟨scales, hscales, hscalesWritten⟩ := write_written Fault.outOfRange hscaleRoom hscale
  obtain ⟨zeros, hzeros, hzerosWritten⟩ := write_written Fault.outOfRange hzeroRoom hzero
  obtain ⟨values, hvalues, hvaluesWritten⟩ := encode_written w groupSize g hr hsized.values
  refine ⟨⟨scales, zeros, values⟩, ?_, ⟨hscalesWritten, hzerosWritten, hvaluesWritten⟩⟩
  rw [quantizeGroup, extremes_eq hr fun c hc => (mem_columns.mp hc).2.2, Machine.ok_bind]
  show (write _ data.scales _ (scaleAt w n groupSize r g) >>= _) = _
  rw [hscales, Machine.ok_bind]
  show (write _ data.zeros _ (ofU8 (zeroPointAt w n groupSize r g)) >>= _) = _
  rw [hzeros, Machine.ok_bind]
  show (encode _ _ _ _ (scaleAt w n groupSize r g) (zeroPointAt w n groupSize r g) _ >>= _) = _
  rw [hvalues]
  rfl

/-- The positions of a row in the vectors of the groups. -/
def groupCells (numGroups r : ℕ) : Set ℕ :=
  across (List.range numGroups) fun g => {r * numGroups + g}

/-- The positions of the codes of a row. -/
def rowCells (n groupSize r : ℕ) : Set ℕ :=
  across (List.range (groups groupSize n)) (codeCells n groupSize r)

theorem quantizeRow_filled {data : Data} (hr : r < m)
    (hsized : Sized m n (groups groupSize n) data) :
    ∃ data', (List.range (groups groupSize n)).foldlM
        (quantizeGroup (matrix m n w) n groupSize (groups groupSize n) r) data = .ok data' ∧
      Filled w n groupSize (groupCells (groups groupSize n) r) (rowCells n groupSize r)
        data data' := by
  apply foldlM_ok _ (I := fun done data' => Filled w n groupSize
    (across done fun g => {r * groups groupSize n + g}) (across done (codeCells n groupSize r))
    data data') _ (.across_nil _ _ data)
  intro done before g hg hbefore
  obtain ⟨after, hgroup, hafter⟩ := quantizeGroup_filled (w := w) hr (List.mem_range.mp hg)
    (hsized.filled hbefore)
  exact ⟨after, hgroup, hbefore.pass hafter⟩

/-- **What the loops of `quantize` return**, without an index out of range. -/
theorem quantizeData_eq (w : ℕ → ℕ → ℚ) (m : ℕ) {n groupSize : ℕ} (hsize : 0 < groupSize) :
    quantizeData (matrix m n w) n groupSize (groups groupSize n) m = .ok
      { scales := matrix m (groups groupSize n) (scaleAt w n groupSize)
        zeros := matrix m (groups groupSize n) fun r g => ofU8 (zeroPointAt w n groupSize r g)
        values := matrix m n (codeAt w n groupSize) } := by
  let start : Data :=
    { scales := List.replicate (m * groups groupSize n) 0
      zeros := List.replicate (m * groups groupSize n) 0
      values := List.replicate (m * n) 0 }
  have hstart : Sized m n (groups groupSize n) start :=
    ⟨List.length_replicate, List.length_replicate, List.length_replicate⟩
  obtain ⟨data, hdata, hfilled⟩ := foldlM_ok (List.range m)
    (I := fun done data => Filled w n groupSize (across done (groupCells (groups groupSize n)))
      (across done (rowCells n groupSize)) start data)
    (fun done before r hr hbefore => by
      obtain ⟨after, hrow, hafter⟩ :=
        quantizeRow_filled (List.mem_range.mp hr) (hstart.filled hbefore)
      exact ⟨after, hrow, hbefore.pass hafter⟩)
    (.across_nil _ _ start)
  have hgroups : ∀ r < m, ∀ g < groups groupSize n, r * groups groupSize n + g ∈
      across (List.range m) (groupCells (groups groupSize n)) :=
    fun r hr g hg => ⟨r, List.mem_range.mpr hr, g, List.mem_range.mpr hg, rfl⟩
  have hcodes : ∀ r < m, ∀ c < n, r * n + c ∈ across (List.range m) (rowCells n groupSize) :=
    fun r hr c hc => ⟨r, List.mem_range.mpr hr, c / groupSize,
      List.mem_range.mpr (group_lt hsize hc), c, mem_columns_group hsize hc, rfl⟩
  obtain ⟨scales, zeros, values⟩ := data
  rw [quantizeData, hdata]
  congr 2
  · exact hfilled.scales.eq_matrix hstart.scales hgroups
  · exact hfilled.zeros.eq_matrix hstart.zeros hgroups
  · exact hfilled.values.eq_matrix hstart.values hcodes

end Quantize

/-! ### What `unpack_weights` computes -/

section Unpack

variable (qvalues : List UInt8) (scales zeros : List ℚ) (n groupSize : ℕ)

def weightAt (r c : ℕ) : ℚ :=
  (ofU8 (qvalues.getD (r * n + c) 0) -
    ofU8 (asU8 (zeros.getD (r * groups groupSize n + c / groupSize) 0))) *
    scales.getD (r * groups groupSize n + c / groupSize) 0

variable {qvalues scales zeros n groupSize} {m r : ℕ}

theorem unpackGroup_written {g : ℕ} {weight : List ℚ} (hqvalues : qvalues.length = m * n)
    (hscales : scales.length = m * groups groupSize n)
    (hzeros : zeros.length = m * groups groupSize n) (hr : r < m) (hg : g < groups groupSize n)
    (hweight : weight.length = m * n) :
    ∃ weight', unpackGroup qvalues scales zeros n groupSize (groups groupSize n) r weight g =
        .ok weight' ∧
      Written (atCell n (weightAt qvalues scales zeros n groupSize)) (codeCells n groupSize r g)
        weight weight' := by
  have hcell := cell_lt hr hg
  rw [unpackGroup, read_of_lt _ (by rwa [hscales]) 0, Machine.ok_bind,
    read_of_lt _ (by rwa [hzeros]) 0, Machine.ok_bind]
  apply foldlM_written _ (n := m * n) _ hweight
  intro xs hxs c hmem
  have hc : c < n := (mem_columns.mp hmem).2.2
  have hposition := cell_lt hr hc
  rw [read_of_lt _ (by rwa [hqvalues]) 0]
  apply write_written
  · rwa [hxs]
  · rw [atCell_cell _ hc, weightAt, group_of_mem hmem]

/-- **What the loops of `unpack_weights` return**, without an index out of range. -/
theorem unpackData_eq (hsize : 0 < groupSize) (hqvalues : qvalues.length = m * n)
    (hscales : scales.length = m * groups groupSize n)
    (hzeros : zeros.length = m * groups groupSize n) :
    unpackData qvalues scales zeros n groupSize (groups groupSize n) m =
      .ok (matrix m n (weightAt qvalues scales zeros n groupSize)) := by
  have hstart : (List.replicate (m * n) (0 : ℚ)).length = m * n := List.length_replicate
  obtain ⟨weight, hweight, hwritten⟩ := foldlM_written (List.range m)
    (s := rowCells n groupSize) (n := m * n)
    (fun xs hxs r hr => foldlM_written _ (s := codeCells n groupSize r) (n := m * n)
      (fun ys hys g hg => unpackGroup_written hqvalues hscales hzeros (List.mem_range.mp hr)
        (List.mem_range.mp hg) hys) hxs) hstart
  rw [unpackData, hweight, hwritten.eq_matrix hstart]
  exact fun r hr c hc => ⟨r, List.mem_range.mpr hr, c / groupSize,
    List.mem_range.mpr (group_lt hsize hc), c, mem_columns_group hsize hc, rfl⟩

end Unpack

/-- The weights of a layer whose vectors have the sizes that belong to its shape. -/
theorem unpackWeights_eq {layer : Int4Linear} {m cols : ℕ} (hm : 0 < m)
    (hdims : layer.qweight.dims = [m, cols]) (hsize : 0 < layer.groupSize)
    (hscales : layer.scales.flatten.length = m * groups layer.groupSize (cols * 2))
    (hzeros : (layer.zerosData (m * groups layer.groupSize (cols * 2))).length =
      m * groups layer.groupSize (cols * 2)) :
    layer.unpackWeights = .ok (some (slice m (cols * 2) (matrix m (cols * 2)
      (weightAt (nibbles layer.qweight.flatten) layer.scales.flatten
        (layer.zerosData (m * groups layer.groupSize (cols * 2))) (cols * 2)
        layer.groupSize)))) := by
  have hbytes : layer.qweight.flatten.length = m * cols := by
    rw [Tensor.length_flatten, hdims]
    simp
  have hvalues : unpackI4 layer.qweight.flatten (m * (cols * 2)) =
      nibbles layer.qweight.flatten := by
    have hcount : m * (cols * 2) = 2 * layer.qweight.flatten.length := by
      rw [hbytes, Nat.mul_comm 2, Nat.mul_assoc]
    rw [hcount, unpackI4_all]
  have hgroups : checkedDiv layer.scales.flatten.length m =
      .ok (groups layer.groupSize (cols * 2)) := by
    rw [checkedDiv, if_neg (by omega), hscales, Nat.mul_div_cancel_left _ hm]
  have hlength : (nibbles layer.qweight.flatten).length = m * (cols * 2) := by
    rw [nibbles_length, hbytes, Nat.mul_comm 2, Nat.mul_assoc]
  rw [unpackWeights, hdims]
  show (checkedDiv layer.scales.flatten.length m >>= _) = _
  rw [hgroups, Machine.ok_bind, hvalues]
  dsimp only
  rw [unpackData_eq hsize hlength hscales hzeros, Machine.ok_bind,
    fromSlice_pair (length_matrix ..)]
  rfl

/-! ### One after the other -/

section RoundTrip

variable (w : ℕ → ℕ → ℚ) (m n groupSize : ℕ)

/-- The bytes of the codes. -/
def packedCodes : List UInt8 :=
  (List.range ((m * n + 1) / 2)).map (packedByte (matrix m n (codeAt w n groupSize)))

/-- The layer that `quantize` builds. -/
def quantized : Int4Linear where
  qweight := slice m ((n + 1) / 2) (packedCodes w m n groupSize)
  scales := slice m (groups groupSize n) (matrix m (groups groupSize n) (scaleAt w n groupSize))
  zeros := some (slice m (groups groupSize n)
    (matrix m (groups groupSize n) fun r g => ofU8 (zeroPointAt w n groupSize r g)))
  groupSize := groupSize

variable {w m n groupSize}

theorem length_packedCodes : (packedCodes w m n groupSize).length = (m * n + 1) / 2 := by
  rw [packedCodes, List.length_map, List.length_range]

/-- `quantize` up to the tensors that it makes of the slices. -/
theorem quantize_eq_slices {weight : Tensor ℚ} (hdims : weight.dims = [m, n])
    (hw : w = fun r c => weight.entry [r, c]) (hsize : 0 < groupSize) :
    quantize weight groupSize = .ok (do
      let qweight ← Tensor.fromSlice (packedCodes w m n groupSize) [m, (n + 1) / 2]
      let scales ← Tensor.fromSlice (matrix m (groups groupSize n) (scaleAt w n groupSize))
        [m, groups groupSize n]
      let zeros ← Tensor.fromSlice (matrix m (groups groupSize n)
        fun r g => ofU8 (zeroPointAt w n groupSize r g)) [m, groups groupSize n]
      some { qweight, scales, zeros := some zeros, groupSize }) := by
  have hgroups : divCeil n groupSize = .ok (groups groupSize n) := divCeil_of_pos hsize
  have hflatten : weight.flatten = matrix m n w := by rw [flatten_matrix hdims, hw]
  rw [quantize, hdims]
  show (divCeil n groupSize >>= _) = _
  rw [hgroups, Machine.ok_bind, hflatten, quantizeData_eq w m hsize, Machine.ok_bind, packI4_eq,
    Machine.ok_bind, divCeil_two, Machine.ok_bind, length_matrix]
  rfl

/-- The bytes of all codes are those of the rows. -/
theorem packed_fit (m : ℕ) (heven : 2 ∣ n) : (m * n + 1) / 2 = m * ((n + 1) / 2) := by
  obtain ⟨cols, rfl⟩ := heven
  have hcols : (2 * cols + 1) / 2 = cols := by omega
  rw [hcols, Nat.mul_left_comm]
  omega

theorem quantize_eq {weight : Tensor ℚ} (hdims : weight.dims = [m, n])
    (hw : w = fun r c => weight.entry [r, c]) (hsize : 0 < groupSize)
    (hfit : (m * n + 1) / 2 = m * ((n + 1) / 2)) :
    quantize weight groupSize = .ok (some (quantized w m n groupSize)) := by
  rw [quantize_eq_slices hdims hw hsize, fromSlice_pair (length_packedCodes.trans hfit),
    fromSlice_pair (length_matrix ..), fromSlice_pair (length_matrix ..)]
  rfl

theorem codeOf_lt (scale : ℚ) (zeroPoint : UInt8) (val : ℚ) : codeOf scale zeroPoint val < 16 := by
  obtain ⟨j, hj, hlevel⟩ := Rounding.exists_level 15 (val / scale + ofU8 zeroPoint)
  have hcode : ofU8 (codeOf scale zeroPoint val) = j := by
    rw [← hlevel]
    exact ofU8_asU8_level (by decide) _
  have hnat : (codeOf scale zeroPoint val).toNat = j := Nat.cast_injective hcode
  show (codeOf scale zeroPoint val).toNat < 16
  omega

/-- Where the rows have an even number of codes, the nibbles are the codes. -/
theorem nibbles_packedCodes (heven : 2 ∣ n) :
    nibbles (packedCodes w m n groupSize) = matrix m n (codeAt w n groupSize) := by
  have hcodes : ∀ a ∈ matrix m n (codeAt w n groupSize), a < 16 := by
    intro a ha
    obtain ⟨p, _, rfl⟩ := List.mem_map.mp ha
    exact codeOf_lt ..
  have hlength : (nibbles (packedCodes w m n groupSize)).length ≤ m * n := by
    rw [nibbles_length, length_packedCodes]
    have hcells : 2 ∣ m * n := heven.mul_left m
    omega
  have hpacked := nibbles_packed hcodes
  rw [length_matrix] at hpacked
  rw [← List.take_of_length_le hlength]
  exact hpacked

theorem unpackWeights_quantized (heven : 2 ∣ n) (hm : 0 < m) (hsize : 0 < groupSize) :
    ∃ t, (quantized w m n groupSize).unpackWeights = .ok (some t) ∧ t.dims = [m, n] ∧
      ∀ r < m, ∀ c < n, t.entry [r, c] = (ofU8 (codeAt w n groupSize r c) -
        ofU8 (zeroPointAt w n groupSize r (c / groupSize))) *
          scaleAt w n groupSize r (c / groupSize) := by
  obtain ⟨cols, rfl⟩ := heven
  rw [Nat.mul_comm 2 cols]
  have hcols : (cols * 2 + 1) / 2 = cols := by omega
  have hfit : (packedCodes w m (cols * 2) groupSize).length = m * cols := by
    rw [length_packedCodes, ← Nat.mul_assoc]
    omega
  have hscales : (quantized w m (cols * 2) groupSize).scales.flatten =
      matrix m (groups groupSize (cols * 2)) (scaleAt w (cols * 2) groupSize) :=
    flatten_slice (length_matrix ..)
  have hzeros : (quantized w m (cols * 2) groupSize).zerosData
      (m * groups groupSize (cols * 2)) = matrix m (groups groupSize (cols * 2))
        fun r g => ofU8 (zeroPointAt w (cols * 2) groupSize r g) :=
    flatten_slice (length_matrix ..)
  have hqweight : (quantized w m (cols * 2) groupSize).qweight.flatten =
      packedCodes w m (cols * 2) groupSize := by
    show (slice m ((cols * 2 + 1) / 2) _).flatten = _
    rw [hcols]
    exact flatten_slice hfit
  refine ⟨_, unpackWeights_eq hm (congrArg (fun k => [m, k]) hcols) hsize ?_ ?_, rfl, ?_⟩
  · rw [hscales]
    exact length_matrix ..
  · show ((quantized w m (cols * 2) groupSize).zerosData
      (m * groups groupSize (cols * 2))).length = _
    rw [hzeros]
    exact length_matrix ..
  · intro r hr c hc
    have hg := group_lt hsize hc
    rw [slice_entry, getD_matrix _ hr hc]
    show weightAt _ _ ((quantized w m (cols * 2) groupSize).zerosData
      (m * groups groupSize (cols * 2))) _ groupSize r c = _
    rw [hscales, hzeros, hqweight, nibbles_packedCodes (Nat.dvd_mul_left 2 cols), weightAt,
      getD_matrix _ hr hc, getD_matrix _ hr hg, getD_matrix _ hr hg, asU8_ofU8]

end RoundTrip

end Int4Linear
end Kyro.Quantization
