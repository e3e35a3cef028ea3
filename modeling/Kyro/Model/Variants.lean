import Kyro.Lib.Tensor
import Mathlib.Algebra.Order.Field.Basic
import Mathlib.Data.List.AList

/-!
# Layers made of linear layers

`src/model/lora.rs` and `src/model/moe.rs`: a linear layer with adapters of low rank, and one that
sends every token to some of its experts.

The numbers are those of any ordered field, the softmax and the sort of a row are parameters. `none`
stands for an error of the tensor library.
-/

namespace Kyro

/-- `candle_nn::Linear` -/
structure Projection (K : Type) where
  weight : Tensor K
  bias : Option (Tensor K)

variable {K : Type} [Field K]

/-- Matrices and stacks of them, up to rank four, times the transposed weights. -/
def Projection.forward (layer : Projection K) (x : Tensor K) : Option (Tensor K) :=
  if x.dims.length ∈ [2, 3, 4] then
    x.linear layer.weight (layer.bias.getD (Tensor.zeros (layer.weight.dims.take 1)))
  else none

/-! ### Adapters -/

structure LoraAdapter (K : Type) where
  id : String
  a : Tensor K
  b : Tensor K
  alpha : K
  rank : ℕ

structure LoraLinear (K : Type) where
  base : Projection K
  adapters : AList fun _ : String => LoraAdapter K

namespace LoraLinear

def new (base : Projection K) : LoraLinear K where
  base := base
  adapters := ∅

def addAdapter (layer : LoraLinear K) (adapter : LoraAdapter K) : LoraLinear K where
  base := layer.base
  adapters := layer.adapters.insert adapter.id adapter

/-- `base_out + (x @ A.T @ B.T) * (alpha / rank)` -/
def adapted (adapter : LoraAdapter K) (baseOut x : Tensor K) : Option (Tensor K) := do
  let loraX ← x.matmul (← adapter.a.t)
  let loraOut ← loraX.matmul (← adapter.b.t)
  baseOut.broadcastWith (· + ·) (loraOut.smul (adapter.alpha / adapter.rank))

def forward (layer : LoraLinear K) (x : Tensor K) (adapterId : Option String) :
    Option (Tensor K) := do
  let baseOut ← layer.base.forward x
  match adapterId.bind layer.adapters.lookup with
  | some adapter => adapted adapter baseOut x
  | none => some baseOut

end LoraLinear

/-! ### Experts -/

/-- What `forward` takes of a row of the gate. -/
structure Routing (K : Type) [Field K] [LinearOrder K] where
  softmax : List K → List K
  length_softmax : ∀ row, (softmax row).length = row.length
  /-- The indices of `sort_last_dim(false)`. -/
  argsort : List K → List ℕ
  argsort_perm : ∀ row, (argsort row).Perm (List.range row.length)
  argsort_sorted : ∀ row, (argsort row).Pairwise fun i j => row.getD j 0 ≤ row.getD i 0

structure MoeLayer (K : Type) where
  gate : Projection K
  experts : List (Projection K)
  topK : ℕ

namespace MoeLayer

/-- The row of a matrix. -/
def rowOf (t : Tensor K) (i : ℕ) : List K :=
  (List.range (t.dims.getD 1 0)).map fun j => t.entry [i, j]

/-- The `sorted_idx` of a matrix. -/
def sortLastDim [LinearOrder K] (routing : Routing K) (t : Tensor K) : Tensor ℕ where
  dims := t.dims
  entry idx := (routing.argsort (rowOf t (idx.getD 0 0))).getD (idx.getD 1 0) 0

/-- `in_topk`: how often an expert stands among the first ones of a token. -/
def inTopk (topIdx : Tensor ℕ) (expertIdx : ℕ) : Tensor K where
  dims := topIdx.dims.take 1
  entry idx := ((List.range (topIdx.dims.getD 1 0)).countP fun j =>
    topIdx.entry [idx.getD 0 0, j] = expertIdx : ℕ)

/-- `sum_all`, then `to_scalar::<f64>` -/
def count (dtype : FloatType) (t : Tensor K) : Option K :=
  if dtype = .f64 then some t.flatten.sum else none

variable [LinearOrder K]

/-- The body of the loop over the experts. -/
def addExpert (dtype : FloatType) (xFlat gateProbs : Tensor K) (topIdx : Tensor ℕ)
    (output : Tensor K) (entry : Projection K × ℕ) : Option (Tensor K) := do
  let inTopk : Tensor K := inTopk topIdx entry.2
  let count ← count dtype inTopk
  -- `count < 0.5`
  if count + count < 1 then return output
  let weight ← gateProbs.narrow 1 entry.2 1
  let expertOutput ← entry.1.forward xFlat
  let contribution ← expertOutput.mul (← weight.broadcastMul (← inTopk.unsqueeze 1))
  output.add contribution

def forward (routing : Routing K) (layer : MoeLayer K) (dtype : FloatType) (x : Tensor K) :
    Option (Tensor K) := do
  match x.dims with
  | [batchSize, seqLen, hiddenDim] =>
    let xFlat ← x.reshape [batchSize * seqLen, hiddenDim]
    let gateLogits ← layer.gate.forward xFlat
    let gateProbs := gateLogits.mapRows routing.softmax
    let topIdx ← (sortLastDim routing gateProbs).narrow 1 0 layer.topK
    let output ← layer.experts.zipIdx.foldlM (addExpert dtype xFlat gateProbs topIdx)
      (Tensor.zeros xFlat.dims)
    output.reshape x.dims
  | _ => none

end MoeLayer
end Kyro
