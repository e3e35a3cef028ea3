import Kyro.Model.Attention

/-!
# The decoder on tensors

The feed-forward parts, decoder layers and models of `src/model/llama.rs` and `src/model/qwen.rs`
around the attention of `Model/Attention.lean`, for a rank that holds the first stage. The
activation and the norm of a row are parameters, as the softmax is.
-/

namespace Kyro
namespace Loader

/-- What the tensor library computes entry by entry or row by row. -/
structure Kernels (R : Type) extends Numerics R where
  silu : R → R
  /-- A row over the root of the mean of its squares. -/
  rms : List R → List R

variable {R : Type} [CommRing R] (kernels : Kernels R)

/-- `candle_nn::RmsNorm::forward` -/
def RmsNorm.forward (weight x : Tensor R) : Option (Tensor R) :=
  match weight.dims with
  | [dim] =>
    if x.dims.getLast? = some dim then
      some ⟨x.dims, fun idx =>
        (x.mapRows kernels.rms).entry idx * weight.entry [idx.getLast?.getD 0]⟩
    else none
  | _ => none

/-- `candle_nn::Embedding::forward`: a token that has no row is refused. -/
def Embedding.forward (table : Tensor R) (ids : Tensor Token) : Option (Tensor R) :=
  match table.dims with
  | [vocab, hidden] =>
    if ids.flatten.all (·.toNat < vocab) then
      some ⟨ids.dims ++ [hidden], fun idx =>
        table.entry [(ids.entry idx.dropLast).toNat, idx.getLast?.getD 0]⟩
    else none
  | _ => none

/-! ### The feed-forward part -/

/-- Either architecture, up to `all_reduce`. -/
def Mlp.forward (mlp : Mlp (Tensor R)) (x : Tensor R) : Option (Tensor R) := do
  let gate ← mlp.gateProj.forward x
  let up ← mlp.upProj.forward x
  let x ← (gate.map kernels.silu).mul up
  mlp.downProj.forward x

def LlamaMLP.forward (mlp : Mlp (Tensor R)) (dist : DistributedContext) (x : Tensor R) :
    Option (Tensor R) := do
  let out ← mlp.forward kernels x
  dist.allReduce out

def Qwen2MLP.forward (mlp : Mlp (Tensor R)) (x : Tensor R) : Option (Tensor R) :=
  mlp.forward kernels x

/-! ### One layer -/

/-- What is left of the cache, and the output unless the call failed. -/
abbrev Output (R : Type) := Option (CacheContext R) × Option (Tensor R)

/-- After attention: its residual, and the feed-forward part with its own. -/
def DecoderLayer.finish (mlp : Mlp (Tensor R) → Tensor R → Option (Tensor R))
    (layer : DecoderLayer (Tensor R)) (residual out : Tensor R) : Option (Tensor R) := do
  let x ← out.add residual
  let normed ← RmsNorm.forward kernels layer.postAttentionLayernorm x
  let out ← mlp layer.mlp normed
  out.add x

/-- The layer of an architecture with this attention and this feed-forward part. -/
def DecoderLayer.forward
    (attention : Attention (Tensor R) → Tensor R → ℕ → Option (CacheContext R) →
      Except Fault (Output R))
    (mlp : Mlp (Tensor R) → Tensor R → Option (Tensor R)) (layer : DecoderLayer (Tensor R))
    (x : Tensor R) (index : ℕ) (cache : Option (CacheContext R)) : Except Fault (Output R) :=
  match RmsNorm.forward kernels layer.inputLayernorm x with
  | none => .ok (cache, none)
  | some normed => do
    let (cache, out) ← attention layer.selfAttn normed index cache
    return (cache, out.bind (layer.finish kernels mlp x))

section Layer

variable (rope : RotaryEmbedding R) (dist : DistributedContext)

def LlamaDecoderLayer.forward (layer : DecoderLayer (Tensor R)) (x : Tensor R) (index : ℕ)
    (cache : Option (CacheContext R)) : Except Fault (Output R) :=
  layer.forward kernels (fun attn => LlamaAttention.forward kernels.toNumerics rope attn dist)
    (fun mlp => LlamaMLP.forward kernels mlp dist) x index cache

def Qwen2DecoderLayer.forward (layer : DecoderLayer (Tensor R)) (x : Tensor R) (index : ℕ)
    (cache : Option (CacheContext R)) : Except Fault (Output R) :=
  layer.forward kernels (fun attn => Qwen2Attention.forward kernels.toNumerics rope attn)
    (Qwen2MLP.forward kernels) x index cache

end Layer

/-! ### The model -/

/-- The loop over the layers of a stage, up to the first that fails. -/
def forwardLayers
    (layer : DecoderLayer (Tensor R) → Tensor R → ℕ → Option (CacheContext R) →
      Except Fault (Output R))
    (index : ℕ) :
    List (DecoderLayer (Tensor R)) → Tensor R → Option (CacheContext R) → Except Fault (Output R)
  | [], x, cache => .ok (cache, some x)
  | first :: layers, x, cache => do
    let (cache, out) ← layer first x index cache
    match out with
    | some x => forwardLayers layer index layers x cache
    | none => return (cache, none)

/-- A step that only the last stage has. -/
def stage {τ : Type} (f : τ → Tensor R → Option (Tensor R)) (part : Option τ) (x : Tensor R) :
    Option (Tensor R) :=
  match part with
  | some part => f part x
  | none => some x

/-- The model of an architecture with this layer; the stage must hold the embedding. -/
def Model.forward
    (layer : DecoderLayer (Tensor R) → Tensor R → ℕ → Option (CacheContext R) →
      Except Fault (Output R))
    (model : Model (Tensor R)) (ids : Tensor Token) (index : ℕ)
    (cache : Option (CacheContext R)) : Except Fault (Output R) :=
  match model.embedTokens.bind fun table => Embedding.forward table ids with
  | none => .ok (cache, none)
  | some x => do
    let (cache, out) ← forwardLayers layer index model.layers x cache
    return (cache, do
      let x ← out
      let x ← stage (RmsNorm.forward kernels) model.norm x
      stage Linear.forward model.lmHead x)

section Model

variable (rope : RotaryEmbedding R) (dist : DistributedContext)

def LlamaModel.forward (model : Model (Tensor R)) (ids : Tensor Token) (index : ℕ)
    (cache : Option (CacheContext R)) : Except Fault (Output R) :=
  model.forward kernels (LlamaDecoderLayer.forward kernels rope dist) ids index cache

def Qwen2Model.forward (model : Model (Tensor R)) (ids : Tensor Token) (index : ℕ)
    (cache : Option (CacheContext R)) : Except Fault (Output R) :=
  model.forward kernels (Qwen2DecoderLayer.forward kernels rope) ids index cache

def ModelInstance.forward (loaded : ModelInstance (Tensor R)) (ids : Tensor Token) (index : ℕ)
    (cache : Option (CacheContext R)) : Except Fault (Output R) :=
  match loaded with
  | .llama model => LlamaModel.forward kernels rope dist model ids index cache
  | .qwen2 model => Qwen2Model.forward kernels rope model ids index cache

end Model

end Loader
end Kyro
