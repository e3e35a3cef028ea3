import Kyro.Lib.Fill
import Kyro.Lib.Rounding
import Kyro.Lib.Tensor
import Kyro.Scheduler.Basic
import Mathlib.Data.Rat.Floor

/-!
# Quantized linear layers

`src/model/quantization/mod.rs`, and of `int4.rs`, `int8.rs` and `awq.rs` beside it what turns
weights into codes and codes into weights.

Floats are rational numbers and nothing is rounded but the weights of a pass: an `unpackWeights`
ends before its `to_dtype(F16)`, which the `forward`s take. A panic is a `Fault`, `none` stands for
an error of the tensor library. Sizes are natural numbers: the vectors are in memory, so the
positions in them do not wrap. The bias of a layer, which only `forward` reads, is an argument of
its own there, and has the type of the product, F16.
-/

namespace Kyro.Quantization

open Fill

/-! ### Numbers -/

/-- `f32::MAX`, the negative of `f32::MIN`. -/
def f32Max : ℚ := (2 ^ 24 - 1) * 2 ^ 104

/-- `x as u8` truncates and saturates. -/
def asU8 (x : ℚ) : UInt8 := UInt8.ofNat (min ⌊x⌋₊ 255)

/-- `b as f32` -/
def ofU8 (b : UInt8) : ℚ := b.toNat

theorem ofU8_asU8_natCast {j : ℕ} (h : j ≤ 255) : ofU8 (asU8 j) = j := by
  rw [asU8, Nat.floor_natCast, Nat.min_eq_left h, ofU8, UInt8.toNat_ofNat', Nat.mod_eq_of_lt]
  omega

theorem asU8_ofU8 (b : UInt8) : asU8 (ofU8 b) = b := by
  have hle : b.toNat ≤ 255 := Nat.le_of_lt_succ b.toNat_lt
  rw [asU8, ofU8, Nat.floor_natCast, Nat.min_eq_left hle, UInt8.ofNat_toNat]

theorem ofU8_asU8_level {n : ℕ} (hn : n ≤ 255) (x : ℚ) :
    ofU8 (asU8 (Rounding.level n x)) = Rounding.level n x := by
  obtain ⟨j, hj, hlevel⟩ := Rounding.exists_level n x
  rw [hlevel, ofU8_asU8_natCast (hj.trans hn)]

/-! ### Nibbles -/

/-- `b & 0x0F` -/
def low (b : UInt8) : UInt8 := b &&& 0x0F

/-- `(b >> 4) & 0x0F` -/
def high (b : UInt8) : UInt8 := (b >>> 4) &&& 0x0F

/-- The body of the loop over the pairs. -/
def packPair (values packed : List UInt8) (i : ℕ) : Except Fault (List UInt8) := do
  let a ← read .outOfRange values (i * 2)
  let b ← read .outOfRange values (i * 2 + 1)
  write .outOfRange packed i (low a ||| low b <<< 4)

/-- Pack a slice of 4-bit values into a byte array (2 values per byte). -/
def packI4 (values : List UInt8) : Except Fault (List UInt8) := do
  let packedLen ← divCeil values.length 2
  let packed ← (List.range (values.length / 2)).foldlM (packPair values)
    (List.replicate packedLen 0)
  if values.length % 2 = 1 then do
    let last ← read .outOfRange values (values.length - 1)
    write .outOfRange packed (packedLen - 1) (low last)
  else return packed

/-- The body of the loop over the bytes. -/
def unpackByte (numValues : ℕ) (values : List UInt8) (byte : UInt8) : List UInt8 :=
  let values := values ++ [low byte]
  if values.length < numValues then values ++ [high byte] else values

/-- Unpack a byte array into 4-bit values. -/
def unpackI4 (packed : List UInt8) (numValues : ℕ) : List UInt8 :=
  (packed.foldl (unpackByte numValues) []).take numValues

/-! ### Four bits in groups -/

structure Int4Linear where
  qweight : Tensor UInt8
  scales : Tensor ℚ
  zeros : Option (Tensor ℚ)
  groupSize : ℕ

namespace Int4Linear

/-- The vectors that the loops of `quantize` write. -/
structure Data where
  scales : List ℚ
  zeros : List ℚ
  values : List UInt8

/-- The columns of a group: from `start` up to `end`. -/
def columns (groupSize inFeatures g : ℕ) : List ℕ :=
  let start := g * groupSize
  let stop := min (start + groupSize) inFeatures
  List.range' start (stop - start)

def scaleOf (minVal maxVal : ℚ) : ℚ :=
  if 1 / 10 ^ 10 < maxVal - minVal then (maxVal - minVal) / 15 else 1

def zeroPointOf (minVal scale : ℚ) : UInt8 :=
  asU8 (Rounding.clamp 0 15 (Rounding.round (-minVal / scale)))

def codeOf (scale : ℚ) (zeroPoint : UInt8) (val : ℚ) : UInt8 :=
  asU8 (Rounding.clamp 0 15 (Rounding.round (val / scale + ofU8 zeroPoint)))

section Quantize

variable (weightData : List ℚ) (inFeatures groupSize numGroups : ℕ)

/-- The least and the largest of the values in some columns. -/
def extremes (row : ℕ) (cols : List ℕ) : Except Fault (ℚ × ℚ) :=
  cols.foldlM (fun found col => do
    let val ← read .outOfRange weightData (row * inFeatures + col)
    return (min found.1 val, max found.2 val)) (f32Max, -f32Max)

/-- The codes of the values in some columns. -/
def encode (row : ℕ) (cols : List ℕ) (scale : ℚ) (zeroPoint : UInt8) (values : List UInt8) :
    Except Fault (List UInt8) :=
  cols.foldlM (fun values col => do
    let val ← read .outOfRange weightData (row * inFeatures + col)
    write .outOfRange values (row * inFeatures + col) (codeOf scale zeroPoint val)) values

def quantizeGroup (row : ℕ) (data : Data) (g : ℕ) : Except Fault Data := do
  let cols := columns groupSize inFeatures g
  let (minVal, maxVal) ← extremes weightData inFeatures row cols
  let scale := scaleOf minVal maxVal
  let zeroPoint := zeroPointOf minVal scale
  let scales ← write .outOfRange data.scales (row * numGroups + g) scale
  let zeros ← write .outOfRange data.zeros (row * numGroups + g) (ofU8 zeroPoint)
  let values ← encode weightData inFeatures row cols scale zeroPoint data.values
  return ⟨scales, zeros, values⟩

/-- All groups of all rows. -/
def quantizeData (outFeatures : ℕ) : Except Fault Data :=
  (List.range outFeatures).foldlM
    (fun data row => (List.range numGroups).foldlM
      (quantizeGroup weightData inFeatures groupSize numGroups row) data)
    { scales := List.replicate (outFeatures * numGroups) 0
      zeros := List.replicate (outFeatures * numGroups) 0
      values := List.replicate (outFeatures * inFeatures) 0 }

end Quantize

def quantize (weight : Tensor ℚ) (groupSize : ℕ) : Except Fault (Option Int4Linear) := do
  let outFeatures ← read .outOfRange weight.dims 0
  let inFeatures ← read .outOfRange weight.dims 1
  let numGroups ← divCeil inFeatures groupSize
  let data ← quantizeData weight.flatten inFeatures groupSize numGroups outFeatures
  let qweightData ← packI4 data.values
  let packedCols ← divCeil inFeatures 2
  return do
    let qweight ← Tensor.fromSlice qweightData [outFeatures, packedCols]
    let scales ← Tensor.fromSlice data.scales [outFeatures, numGroups]
    let zeros ← Tensor.fromSlice data.zeros [outFeatures, numGroups]
    some { qweight, scales, zeros := some zeros, groupSize }

section Unpack

variable (qvalues : List UInt8) (scales zeros : List ℚ) (inFeatures groupSize numGroups : ℕ)

def unpackGroup (row : ℕ) (weight : List ℚ) (g : ℕ) : Except Fault (List ℚ) := do
  let scale ← read .outOfRange scales (row * numGroups + g)
  let zero ← read .outOfRange zeros (row * numGroups + g)
  (columns groupSize inFeatures g).foldlM (fun weight col => do
    let q ← read .outOfRange qvalues (row * inFeatures + col)
    write .outOfRange weight (row * inFeatures + col)
      ((ofU8 q - ofU8 (asU8 zero)) * scale)) weight

/-- All groups of all rows. -/
def unpackData (outFeatures : ℕ) : Except Fault (List ℚ) :=
  (List.range outFeatures).foldlM
    (fun weight row => (List.range numGroups).foldlM
      (unpackGroup qvalues scales zeros inFeatures groupSize numGroups row) weight)
    (List.replicate (outFeatures * inFeatures) 0)

end Unpack

/-- Without zero points, they are all in the middle. -/
def zerosData (layer : Int4Linear) (count : ℕ) : List ℚ :=
  match layer.zeros with
  | some zeros => zeros.flatten
  | none => List.replicate count 8

def unpackWeights (layer : Int4Linear) : Except Fault (Option (Tensor ℚ)) := do
  let outFeatures ← read .outOfRange layer.qweight.dims 0
  let packedCols ← read .outOfRange layer.qweight.dims 1
  let inFeatures := packedCols * 2
  let qvalues := unpackI4 layer.qweight.flatten (outFeatures * inFeatures)
  let scales := layer.scales.flatten
  let numGroups ← checkedDiv scales.length outFeatures
  let zeros := layer.zerosData (outFeatures * numGroups)
  let weight ← unpackData qvalues scales zeros inFeatures layer.groupSize numGroups outFeatures
  return Tensor.fromSlice weight [outFeatures, inFeatures]

end Int4Linear

/-! ### Eight bits with one scale -/

structure Int8Linear where
  weight : Tensor UInt8
  scale : Tensor ℚ

namespace Int8Linear

def absMax (weightData : List ℚ) : ℚ := (weightData.map abs).foldl max 0

def scaleOf (absMax : ℚ) : ℚ := if 0 < absMax then absMax / 127 else 1

/-- What is clamped to the range of a byte. -/
def rounded (scale v : ℚ) : ℚ := Rounding.round (v / scale + 128)

/-- Per-tensor INT8 quantization (symmetric): values are mapped to the range from 0 to 255 with
offset 128. -/
def quantize (weight : Tensor ℚ) : Option Int8Linear := do
  let weightData := weight.flatten
  let scale := scaleOf (absMax weightData)
  let quantized := weightData.map fun v => asU8 (Rounding.clamp 0 255 (rounded scale v))
  let qweight ← Tensor.fromSlice quantized weight.dims
  let scaleT ← Tensor.fromSlice [scale] [1]
  some { weight := qweight, scale := scaleT }

def unpackWeights (layer : Int8Linear) : Option (Tensor ℚ) := do
  let w : Tensor ℚ := ⟨layer.weight.dims, fun idx => ofU8 (layer.weight.entry idx)⟩
  let offset ← Tensor.fromSlice [(128 : ℚ)] [1]
  let centered ← w.broadcastWith (· - ·) offset
  centered.broadcastWith (· * ·) layer.scale

end Int8Linear

/-! ### Packed words -/

structure AwqLinear where
  qweight : Tensor Int32
  qzeros : Tensor Int32
  scales : Tensor ℚ
  gIdx : Option (Tensor Int32)
  groupSize : ℕ

/-- Unpack a single i32 word containing 8 consecutive 4-bit values. -/
def unpackI32Word (word : Int32) : List UInt8 :=
  let w := word.toUInt32
  [(w &&& 0x0F).toUInt8, ((w >>> 4) &&& 0x0F).toUInt8, ((w >>> 8) &&& 0x0F).toUInt8,
    ((w >>> 12) &&& 0x0F).toUInt8, ((w >>> 16) &&& 0x0F).toUInt8, ((w >>> 20) &&& 0x0F).toUInt8,
    ((w >>> 24) &&& 0x0F).toUInt8, ((w >>> 28) &&& 0x0F).toUInt8]

namespace AwqLinear

/-- `i as usize`: a negative number becomes a large one. -/
def asUsize (i : Int32) : ℕ := (i.toInt % 2 ^ 64).toNat

section Unpack

variable (qweight qzeros : List Int32) (scales : List ℚ) (gIdx : Option (List Int32))
  (words groupSize numGroups stride : ℕ)

/-- The group of a column. The argument of `unwrap_or` is computed with an index too. -/
def groupOf (col : ℕ) : Except Fault ℕ :=
  match gIdx with
  | some g => do
    let group ← read .outOfRange g col
    let _ ← checkedDiv col groupSize
    return asUsize group
  | none => checkedDiv col groupSize

/-- The zero point of a group in a row. -/
def zeroOf (row group : ℕ) : Except Fault UInt8 :=
  if qzeros.isEmpty then .ok 8
  else do
    let zword ← read .outOfRange qzeros (row * stride + group / 8)
    read .outOfRange (unpackI32Word zword) (group % 8)

def unpackCell (row : ℕ) (weight : List ℚ) (col : ℕ) : Except Fault (List ℚ) := do
  let word ← read .outOfRange qweight (row * words + col / 8)
  let q ← read .outOfRange (unpackI32Word word) (col % 8)
  let group ← groupOf gIdx groupSize col
  let z ← zeroOf qzeros stride row group
  let s ← read .outOfRange scales (row * numGroups + group)
  write .outOfRange weight (row * (words * 8) + col) ((ofU8 q - ofU8 z) * s)

/-- The words of zero points in a row. -/
def rowStride (outFeatures : ℕ) : Except Fault ℕ :=
  if qzeros.isEmpty then .ok 0 else checkedDiv qzeros.length outFeatures

/-- All columns of all rows. -/
def unpackData (outFeatures : ℕ) : Except Fault (List ℚ) :=
  (List.range outFeatures).foldlM
    (fun weight row => (List.range (words * 8)).foldlM
      (unpackCell qweight qzeros scales gIdx words groupSize numGroups stride row) weight)
    (List.replicate (outFeatures * (words * 8)) 0)

end Unpack

def unpackWeights (layer : AwqLinear) : Except Fault (Option (Tensor ℚ)) := do
  let outFeatures ← read .outOfRange layer.qweight.dims 0
  let words ← read .outOfRange layer.qweight.dims 1
  let scales := layer.scales.flatten
  let numGroups ← checkedDiv scales.length outFeatures
  let qzeros := if 0 < layer.qzeros.dims.prod then layer.qzeros.flatten else []
  let stride ← rowStride qzeros outFeatures
  let weight ← unpackData layer.qweight.flatten qzeros scales (layer.gIdx.map Tensor.flatten) words
    layer.groupSize numGroups stride outFeatures
  return Tensor.fromSlice weight [outFeatures, words * 8]

end AwqLinear

/-! ### Passes -/

/-- The largest number of the type F16. -/
def f16Max : ℚ := 65504

/-- `to_dtype(F16)`, except that a number too large for the type, which becomes infinite, is rounded
like the others. -/
def f16 (x : ℚ) : ℚ := Rounding.toFormat 2 10 (-14) x

/-- No number of a tensor is too large for the type F16. -/
def FitsF16 (t : Tensor ℚ) : Prop := ∀ v ∈ t.flatten, |v| ≤ f16Max

/-- `x` times the transposed weights, and the bias. -/
def project (weight : Tensor ℚ) (bias : Option (Tensor ℚ)) (x : Tensor ℚ) : Option (Tensor ℚ) := do
  let res ← x.matmul (← weight.t)
  match bias with
  | some bias => res.broadcastWith (· + ·) bias
  | none => some res

/-- The same with the weights that `unpack_weights` returns, which are F16. `matmul` takes no input
of another type. -/
def projectF16 (weight : Tensor ℚ) (bias : Option (Tensor ℚ)) (dtype : FloatType) (x : Tensor ℚ) :
    Option (Tensor ℚ) :=
  if dtype = .f16 then project (weight.map f16) bias x else none

def Int4Linear.forward (layer : Int4Linear) (bias : Option (Tensor ℚ)) (dtype : FloatType)
    (x : Tensor ℚ) : Except Fault (Option (Tensor ℚ)) := do
  let weight ← layer.unpackWeights
  return weight.bind (projectF16 · bias dtype x)

def Int8Linear.forward (layer : Int8Linear) (bias : Option (Tensor ℚ)) (dtype : FloatType)
    (x : Tensor ℚ) : Option (Tensor ℚ) := do
  let weight ← layer.unpackWeights
  projectF16 weight bias dtype x

def AwqLinear.forward (layer : AwqLinear) (bias : Option (Tensor ℚ)) (dtype : FloatType)
    (x : Tensor ℚ) : Except Fault (Option (Tensor ℚ)) := do
  let weight ← layer.unpackWeights
  return weight.bind (projectF16 · bias dtype x)

end Kyro.Quantization
