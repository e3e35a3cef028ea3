import Kyro.Model.KvCache
import Kyro.Model.Loader

/-!
# Attention on tensors

`src/model/layers.rs` and the attention of `src/model/llama.rs` and `src/model/qwen.rs`, for the
tensors that a rank has loaded and an input of any shape.

The numbers are those of any ring; frequencies, cosine, sine, scale and `softmax` are parameters.
`none` stands for an error of the tensor library, and for a division by zero or an underflow in
the index of a slice. All tensors are F32, as the tables of the rotary embedding are. A product of
tensors of two types is an error, so that a model with weights of another type has no layer that
returns; this is left out.
-/

namespace Kyro

namespace DistributedContext

variable {τ : Type}

/-- All shards are on the same device. -/
def cpuAllReduce (tensor : τ) : Option τ := some tensor

def allReduce (dist : DistributedContext) (tensor : τ) : Option τ :=
  if dist.worldSize ≤ 1 then some tensor else cpuAllReduce tensor

/-- Split a dimension across the tensor parallel group. -/
def shardDim {α : Type} (dist : DistributedContext) (tensor : Tensor α) (dim : ℕ) :
    Option (Tensor α) :=
  if dist.worldSize ≤ 1 then some tensor
  else do
    let dimSize ← tensor.dim dim
    let shardSize := dimSize / dist.worldSize.toNat
    let offset := dist.rank.toNat * shardSize
    tensor.narrow dim offset shardSize

end DistributedContext

namespace Loader

structure Numerics (R : Type) where
  /-- The frequency of a place in the first half of a head. -/
  invFreq : ℕ → ℕ → R
  cos : R → R
  sin : R → R
  /-- `1 / (head_dim as f64).sqrt()` -/
  scale : ℕ → R
  softmax : List R → List R

variable {R : Type} [CommRing R] (num : Numerics R)

/-! ### Rotary embedding -/

structure RotaryEmbedding (R : Type) where
  invFreq : Tensor R

namespace RotaryEmbedding

def new (dim : ℕ) : Option (RotaryEmbedding R) :=
  (Tensor.fromSlice ((List.range (dim / 2)).map (num.invFreq dim)) [dim / 2]).map .mk

/-- The angles of the positions from `index` on. -/
def freqs (rope : RotaryEmbedding R) (seqLen index : ℕ) : Option (Tensor R) := do
  let positions ← Tensor.fromSlice ((List.range seqLen).map fun i => ((index + i : ℕ) : R)) [seqLen]
  let positions ← positions.unsqueeze 1
  let invFreq ← rope.invFreq.unsqueeze 0
  positions.matmul invFreq

/-- A function of the angles, for both halves of a head. -/
def table (f : R → R) (freqs : Tensor R) (seqLen headDim : ℕ) : Option (Tensor R) := do
  let half ← (freqs.map f).reshape [seqLen, headDim / 2]
  let whole ← Tensor.cat 1 [half, half]
  whole.reshape [1, seqLen, 1, headDim]

/-- The halves of the heads in the other order, the second one negated. -/
def rotated (x : Tensor R) (halfDim : ℕ) : Option (Tensor R) := do
  let x1 ← x.narrow 3 0 halfDim
  let x2 ← x.narrow 3 halfDim halfDim
  Tensor.cat 3 [x2.map (- ·), x1]

/-- A tensor with fewer than four dimensions stays. The others are F32, which the tables are. -/
def apply (rope : RotaryEmbedding R) (x : Tensor R) (index : ℕ) : Option (Tensor R) :=
  match x.dims with
  | _ :: seqLen :: _ :: headDim :: _ => do
    let freqs ← rope.freqs seqLen index
    let cos ← table num.cos freqs seqLen headDim
    let sin ← table num.sin freqs seqLen headDim
    let rotated ← rotated x (headDim / 2)
    let straight ← x.broadcastMul cos
    let turned ← rotated.broadcastMul sin
    straight.add turned
  | _ => some x

end RotaryEmbedding

/-! ### Attention -/

/-- `candle_nn::Linear::forward` -/
def Linear.forward (layer : Linear (Tensor R)) (x : Tensor R) : Option (Tensor R) :=
  x.linear layer.weight layer.bias

/-- The copies of one head. -/
def repeatHead (tensor : Tensor R) (groupSize h : ℕ) : Option (List (Tensor R)) :=
  (tensor.narrow 2 h 1).map (List.replicate groupSize)

/-- Expand KV heads for GQA. -/
def expandKv (nHeads : ℕ) (tensor : Tensor R) : Option (Tensor R) := do
  let kvHeads ← tensor.dim 2
  if kvHeads = nHeads then return tensor
  if kvHeads = 0 then none
  let groupSize := nHeads / kvHeads
  let heads ← (List.range kvHeads).mapM (repeatHead tensor groupSize)
  Tensor.cat 2 heads.flatten

/-- `LlamaAttention::expand_kv` -/
def LlamaAttention.expandKv (attn : Attention (Tensor R)) (tensor : Tensor R) :
    Option (Tensor R) :=
  Loader.expandKv attn.nHeads tensor

/-- `expand_kv` of `src/model/qwen.rs` -/
def Qwen2.expandKv (tensor : Tensor R) (nHeads : ℕ) : Option (Tensor R) :=
  Loader.expandKv nHeads tensor

/-- `dim - len` on `usize`: `narrow` refuses a start that has wrapped. -/
def lastStart (dim len : ℕ) : Option ℕ := if len ≤ dim then some (dim - len) else none

theorem lastStart_of_le {dim len : ℕ} (h : len ≤ dim) : lastStart dim len = some (dim - len) :=
  if_pos h

structure CacheContext (R : Type) where
  manager : KVCacheManager (Tensor R)
  requestId : RequestId

/-- Store the keys and values of the input, and choose the ones to attend to. -/
def fullKv (cache : Option (CacheContext R)) (k v : Tensor R) (seqLen : ℕ) :
    Except Fault (Option (CacheContext R) × Option (Tensor R × Tensor R)) :=
  match cache with
  | none => .ok (none, some (k, v))
  | some ctx => do
    let rid := ctx.requestId
    let (manager, ok) ← ctx.manager.appendKv (.shaped R) rid k v
    let cache := some { ctx with manager }
    if ok then
      let ctxLen := manager.getContextLen rid
      if seqLen = 1 ∧ seqLen < ctxLen then
        match manager.getCachedKey rid, manager.getCachedValue rid with
        | some cachedK, some cachedV => return (cache, some (cachedK, cachedV))
        | _, _ => return (cache, none)
      else return (cache, some (k, v))
    else return (cache, none)

namespace Attention

variable (rope : RotaryEmbedding R) (attn : Attention (Tensor R))

/-- A projection, cut into heads. -/
def project (proj : Linear (Tensor R)) (heads : ℕ) (x : Tensor R) (bSz seqLen : ℕ) :
    Option (Tensor R) := do
  let out ← proj.forward x
  out.reshape [bSz, seqLen, heads, attn.headDim]

/-- The queries, keys and values of an input. -/
def qkv (x : Tensor R) (bSz seqLen index : ℕ) : Option (Tensor R × Tensor R × Tensor R) := do
  let q ← attn.project attn.qProj attn.nHeads x bSz seqLen
  let k ← attn.project attn.kProj attn.nKvHeads x bSz seqLen
  let v ← attn.project attn.vProj attn.nKvHeads x bSz seqLen
  let q ← rope.apply num q index
  let k ← rope.apply num k index
  return (q, k, v)

/-- From `expand_kv` to the output projection. -/
def attend (q fullK fullV : Tensor R) (bSz seqLen : ℕ) : Option (Tensor R) := do
  let fullK ← expandKv attn.nHeads fullK
  let fullV ← expandKv attn.nHeads fullV
  let kT ← fullK.transpose 2 3
  let att ← q.matmul kT
  let att := att.smul (num.scale attn.headDim)
  let keys ← fullK.dim 2
  let start ← lastStart keys seqLen
  let att ← att.narrow 3 start seqLen
  let att := att.mapRows num.softmax
  let values ← fullV.dim 1
  let start ← lastStart values seqLen
  let recent ← fullV.narrow 1 start seqLen
  let out ← att.matmul recent
  let out ← out.reshape [bSz, seqLen, wrappingMul attn.nHeads attn.headDim]
  attn.oProj.forward out

/-- Either architecture, up to `all_reduce`: the cache that is left, and the output unless the call
failed. -/
def forward (x : Tensor R) (index : ℕ) (cache : Option (CacheContext R)) :
    Except Fault (Option (CacheContext R) × Option (Tensor R)) :=
  match x.dims with
  | [bSz, seqLen, _] =>
    match attn.qkv num rope x bSz seqLen index with
    | none => .ok (cache, none)
    | some (q, k, v) => do
      let (cache, full) ← fullKv cache k v seqLen
      return (cache, full.bind fun (fullK, fullV) => attn.attend num q fullK fullV bSz seqLen)
  | _ => .ok (cache, none)

end Attention

section Forward

variable (rope : RotaryEmbedding R) (attn : Attention (Tensor R)) (dist : DistributedContext)

def LlamaAttention.forward (x : Tensor R) (index : ℕ) (cache : Option (CacheContext R)) :
    Except Fault (Option (CacheContext R) × Option (Tensor R)) := do
  let (cache, out) ← attn.forward num rope x index cache
  return (cache, out.bind dist.allReduce)

def Qwen2Attention.forward (x : Tensor R) (index : ℕ) (cache : Option (CacheContext R)) :
    Except Fault (Option (CacheContext R) × Option (Tensor R)) :=
  attn.forward num rope x index cache

end Forward

end Loader
end Kyro
