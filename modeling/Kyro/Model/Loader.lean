import Kyro.Model.Pipeline

/-!
# Loading a model

`src/model/loader.rs`, the constructors of `src/model/llama.rs` and `src/model/qwen.rs`, and
`ModelInstance::from_architecture`. A rank builds the layers of its pipeline stage, and of every
layer the part that it holds in tensor parallelism.

The checkpoint is a parameter: the tensor of a name and a shape, if there is one. What does not
depend on it (the rotary embedding, the norms' epsilon, the device) is left out, and so is the
element type: `load` maps every checkpoint as F16.
-/

namespace Kyro

inductive LoadError where
  | panic (fault : Fault)
  /-- A tensor is missing or has another shape. -/
  | tensor
  /-- Reading the model directory. -/
  | io
  | msg (text : String)
  deriving DecidableEq, Repr

/-- A computation whose only failure is a panic. -/
def orFault {α : Type} : Except Fault α → Except LoadError α
  | .ok a => .ok a
  | .error fault => .error (.panic fault)

theorem orFault_eq_ok {α : Type} {x : Except Fault α} {a : α} :
    orFault x = .ok a ↔ x = .ok a := by
  cases x with
  | error fault => simp [orFault]
  | ok b => simp [orFault]

structure LlamaConfig where
  hiddenSize : ℕ
  intermediateSize : ℕ
  numHiddenLayers : ℕ
  numAttentionHeads : ℕ
  numKeyValueHeads : ℕ
  vocabSize : ℕ
  deriving DecidableEq, Repr

inductive ModelArchitecture where
  | decoderOnly
  | mixtureOfExperts
  | hybridAttentionStateSpace
  | multiModal
  | embeddingRetrieval
  | rewardClassification
  | unknown
  deriving DecidableEq, Repr

structure DistributedContext where
  rank : UInt32
  worldSize : UInt32
  deriving DecidableEq, Repr

namespace Loader

/-- The tensors of a checkpoint by their names, below a path. -/
structure VarBuilder (τ : Type) where
  path : List String
  tensors : String → List ℕ → Option τ

variable {τ : Type}

namespace VarBuilder

def pp (vb : VarBuilder τ) (s : String) : VarBuilder τ := { vb with path := vb.path ++ [s] }

def get (vb : VarBuilder τ) (shape : List ℕ) (name : String) : Except LoadError τ :=
  match vb.tensors (String.intercalate "." (vb.path ++ [name])) shape with
  | some tensor => .ok tensor
  | none => .error .tensor

end VarBuilder

/-- A linear layer with the shape of its weight. -/
structure Linear (τ : Type) where
  inDim : ℕ
  outDim : ℕ
  weight : τ
  bias : τ
  deriving DecidableEq

def linear (inDim outDim : ℕ) (vb : VarBuilder τ) : Except LoadError (Linear τ) := do
  let weight ← vb.get [outDim, inDim] "weight"
  let bias ← vb.get [outDim] "bias"
  return { inDim, outDim, weight, bias }

def embedding (inSize outSize : ℕ) (vb : VarBuilder τ) : Except LoadError τ :=
  vb.get [inSize, outSize] "weight"

def rmsNorm (dim : ℕ) (vb : VarBuilder τ) : Except LoadError τ := vb.get [dim] "weight"

/-! ### One layer -/

structure Attention (τ : Type) where
  qProj : Linear τ
  kProj : Linear τ
  vProj : Linear τ
  oProj : Linear τ
  nHeads : ℕ
  nKvHeads : ℕ
  headDim : ℕ
  deriving DecidableEq

structure Mlp (τ : Type) where
  gateProj : Linear τ
  upProj : Linear τ
  downProj : Linear τ
  deriving DecidableEq

structure DecoderLayer (τ : Type) where
  selfAttn : Attention τ
  mlp : Mlp τ
  inputLayernorm : τ
  postAttentionLayernorm : τ
  deriving DecidableEq

section Layer

variable (cfg : LlamaConfig) (vb : VarBuilder τ) (dist : DistributedContext)

/-- The heads of a rank, in either architecture. -/
def newAttention : Except LoadError (Attention τ) := do
  let worldSize := dist.worldSize.toNat
  let headDim ← orFault (checkedDiv cfg.hiddenSize cfg.numAttentionHeads)
  let nHeads ← orFault (checkedDiv cfg.numAttentionHeads worldSize)
  let nKvHeads ← orFault (checkedDiv cfg.numKeyValueHeads worldSize)
  let qProj ← linear cfg.hiddenSize (wrappingMul nHeads headDim) (vb.pp "q_proj")
  let kProj ← linear cfg.hiddenSize (wrappingMul nKvHeads headDim) (vb.pp "k_proj")
  let vProj ← linear cfg.hiddenSize (wrappingMul nKvHeads headDim) (vb.pp "v_proj")
  let oProj ← linear (wrappingMul nHeads headDim) cfg.hiddenSize (vb.pp "o_proj")
  return { qProj, kProj, vProj, oProj, nHeads, nKvHeads, headDim }

/-- A feed-forward part with so many columns. -/
def newMlp (intermediateSize : ℕ) : Except LoadError (Mlp τ) := do
  let gateProj ← linear cfg.hiddenSize intermediateSize (vb.pp "gate_proj")
  let upProj ← linear cfg.hiddenSize intermediateSize (vb.pp "up_proj")
  let downProj ← linear intermediateSize cfg.hiddenSize (vb.pp "down_proj")
  return { gateProj, upProj, downProj }

/-- `LlamaAttention::new` -/
def LlamaAttention.new : Except LoadError (Attention τ) := newAttention cfg vb dist

/-- `Qwen2Attention::new` -/
def Qwen2Attention.new : Except LoadError (Attention τ) := newAttention cfg vb dist

/-- `LlamaMLP::new` -/
def LlamaMLP.new : Except LoadError (Mlp τ) := do
  let intermediateSize ← orFault (checkedDiv cfg.intermediateSize dist.worldSize.toNat)
  newMlp cfg vb intermediateSize

/-- `Qwen2MLP::new`, which holds all columns on every rank. -/
def Qwen2MLP.new : Except LoadError (Mlp τ) := newMlp cfg vb cfg.intermediateSize

/-- Attention, feed-forward part and norms, in this order. -/
def newDecoderLayer (attention : VarBuilder τ → Except LoadError (Attention τ))
    (mlp : VarBuilder τ → Except LoadError (Mlp τ)) : Except LoadError (DecoderLayer τ) := do
  let selfAttn ← attention (vb.pp "self_attn")
  let mlp ← mlp (vb.pp "mlp")
  let inputLayernorm ← rmsNorm cfg.hiddenSize (vb.pp "input_layernorm")
  let postAttentionLayernorm ← rmsNorm cfg.hiddenSize (vb.pp "post_attention_layernorm")
  return { selfAttn, mlp, inputLayernorm, postAttentionLayernorm }

def LlamaDecoderLayer.new : Except LoadError (DecoderLayer τ) :=
  newDecoderLayer cfg vb (fun vb => LlamaAttention.new cfg vb dist) fun vb =>
    LlamaMLP.new cfg vb dist

def Qwen2DecoderLayer.new : Except LoadError (DecoderLayer τ) :=
  newDecoderLayer cfg vb (fun vb => Qwen2Attention.new cfg vb dist) fun vb => Qwen2MLP.new cfg vb

end Layer

/-! ### One rank -/

structure Model (τ : Type) where
  embedTokens : Option τ
  layers : List (DecoderLayer τ)
  norm : Option τ
  lmHead : Option (Linear τ)
  pipelineCtx : PipelineContext
  deriving DecidableEq

/-- A part that only one stage holds. -/
def onlyIf {α : Type} (stage : Bool) (x : Except LoadError α) : Except LoadError (Option α) :=
  if stage then x.map some else .ok none

/-- The loop over the layers of the stage. -/
def newLayers (layer : ℕ → Except LoadError (DecoderLayer τ)) :
    List ℕ → Except LoadError (List (DecoderLayer τ))
  | [] => .ok []
  | layerIdx :: rest => do
    let first ← layer layerIdx
    let layers ← newLayers layer rest
    return first :: layers

section Model

variable (cfg : LlamaConfig) (vb : VarBuilder τ) (dist : DistributedContext)
  (pipelineCtx : PipelineContext)

/-- The stage of a rank, in either architecture. -/
def newModel (layer : VarBuilder τ → Except LoadError (DecoderLayer τ)) :
    Except LoadError (Model τ) := do
  let embedTokens ← onlyIf pipelineCtx.isFirstStage
    (embedding cfg.vocabSize cfg.hiddenSize (vb.pp "model.embed_tokens"))
  let vbL := vb.pp "model.layers"
  let layers ← newLayers (fun layerIdx => layer (vbL.pp (toString layerIdx))) pipelineCtx.layerRange
  let norm ← onlyIf pipelineCtx.isLastStage (rmsNorm cfg.hiddenSize (vb.pp "model.norm"))
  let lmHead ← onlyIf pipelineCtx.isLastStage
    (linear cfg.hiddenSize cfg.vocabSize (vb.pp "lm_head"))
  return { embedTokens, layers, norm, lmHead, pipelineCtx }

def LlamaModel.new : Except LoadError (Model τ) :=
  newModel cfg vb pipelineCtx fun vb => LlamaDecoderLayer.new cfg vb dist

def Qwen2Model.new : Except LoadError (Model τ) :=
  newModel cfg vb pipelineCtx fun vb => Qwen2DecoderLayer.new cfg vb dist

inductive ModelInstance (τ : Type) where
  | llama (model : Model τ)
  | qwen2 (model : Model τ)
  deriving DecidableEq

def ModelInstance.fromArchitecture (architecture : ModelArchitecture) :
    Except LoadError (ModelInstance τ) :=
  match architecture with
  | .decoderOnly => (LlamaModel.new cfg vb dist pipelineCtx).map .llama
  | .mixtureOfExperts => (Qwen2Model.new cfg vb dist pipelineCtx).map .qwen2
  | _ => (LlamaModel.new cfg vb dist pipelineCtx).map .llama

end Model

/-! ### The loader -/

inductive LoadedModel (τ q : Type) where
  | standard (model : ModelInstance τ)
  | quantized (model : q)
  deriving DecidableEq

structure ModelLoader where
  config : Option LlamaConfig
  hfArchitecture : ModelArchitecture
  isGguf : Bool
  deriving DecidableEq

/-- What a rank finds at the model path. -/
structure Files (τ q : Type) where
  /-- `QuantizedLlama::load_gguf` -/
  gguf : Except LoadError q
  /-- The `.safetensors` files of the directory. -/
  safetensors : Except LoadError (List String)
  /-- `VarBuilder::from_mmaped_safetensors` -/
  mmaped : List String → Except LoadError (String → List ℕ → Option τ)

def ModelLoader.load {q : Type} (loader : ModelLoader) (files : Files τ q)
    (dist : DistributedContext) : Except LoadError (LoadedModel τ q) := do
  if loader.isGguf then files.gguf.map .quantized
  else
    match loader.config with
    | none => .error (.msg "Model config required for non-GGUF loading")
    | some config =>
      let tensorsFiles ← files.safetensors
      if tensorsFiles.isEmpty then .error (.msg "No .safetensors files found")
      else
        let tensors ← files.mmaped tensorsFiles
        let pipelineCtx ← orFault (PipelineContext.new dist.rank.toNat dist.worldSize.toNat
          config.numHiddenLayers)
        let model ← ModelInstance.fromArchitecture config ⟨[], tensors⟩ dist pipelineCtx
          loader.hfArchitecture
        return .standard model

end Loader
end Kyro
