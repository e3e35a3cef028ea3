import Kyro.Scheduler.Basic

/-!
# Pipeline stages

`src/model/pipeline.rs`, and the model of a stage in `src/model/llama.rs`. The layers of a model are
dealt out to the ranks in consecutive runs of one length, of which the last ones may be shorter or
empty. What a layer does is a parameter, in a monad that can fail and that has the key/value cache.
-/

namespace Kyro

structure PipelineContext where
  rank : ℕ
  worldSize : ℕ
  startLayer : ℕ
  endLayer : ℕ
  deriving DecidableEq, Repr

namespace PipelineContext

def new (rank worldSize totalLayers : ℕ) : Except Fault PipelineContext := do
  let layersPerGpu ← divCeil totalLayers worldSize
  let startLayer := wrappingMul rank layersPerGpu
  let endLayer := min (wrappingAdd startLayer layersPerGpu) totalLayers
  return { rank, worldSize, startLayer, endLayer }

def isFirstStage (ctx : PipelineContext) : Bool := ctx.rank == 0

def isLastStage (ctx : PipelineContext) : Bool := ctx.rank == ctx.worldSize - 1

def shouldProcessLayer (ctx : PipelineContext) (index : ℕ) : Bool :=
  ctx.startLayer ≤ index && index < ctx.endLayer

/-- `start_layer..end_layer` -/
def layerRange (ctx : PipelineContext) : List ℕ :=
  List.range' ctx.startLayer (ctx.endLayer - ctx.startLayer)

theorem mem_layerRange {ctx : PipelineContext} {index : ℕ} :
    index ∈ ctx.layerRange ↔ ctx.shouldProcessLayer index = true := by
  rw [layerRange, List.mem_range'_1, shouldProcessLayer, Bool.and_eq_true, decide_eq_true_eq,
    decide_eq_true_eq]
  omega

end PipelineContext

/-- The parts of a model, each of them a function of the activations. -/
structure Checkpoint (m : Type → Type) (α : Type) where
  embedTokens : α → m α
  layer : ℕ → α → m α
  norm : α → m α
  lmHead : α → m α

namespace Pipeline

variable {m : Type → Type} {α : Type}

/-- `LlamaModel` of one rank. -/
structure LlamaModel (m : Type → Type) (α : Type) where
  embedTokens : Option (α → m α)
  layers : List (α → m α)
  norm : Option (α → m α)
  lmHead : Option (α → m α)
  pipelineCtx : PipelineContext

def LlamaModel.new (checkpoint : Checkpoint m α) (ctx : PipelineContext) : LlamaModel m α where
  embedTokens := if ctx.isFirstStage then some checkpoint.embedTokens else none
  layers := ctx.layerRange.map checkpoint.layer
  norm := if ctx.isLastStage then some checkpoint.norm else none
  lmHead := if ctx.isLastStage then some checkpoint.lmHead else none
  pipelineCtx := ctx

variable [Monad m]

/-- A part that only one stage holds. -/
def part (f : Option (α → m α)) (x : α) : m α :=
  match f with
  | some f => f x
  | none => pure x

/-- Layers one after another. -/
def forwardLayers (layers : List (α → m α)) (x : α) : m α :=
  layers.foldlM (fun x layer => layer x) x

def LlamaModel.forward (model : LlamaModel m α) (x : α) : m α := do
  let x ← part model.embedTokens x
  let x ← forwardLayers model.layers x
  let x ← part model.norm x
  part model.lmHead x

end Pipeline
end Kyro
