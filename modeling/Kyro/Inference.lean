import Kyro.Logits
import Kyro.Model.Decoder
import Kyro.Worker

/-!
# The worker loop with a loaded model

`run_loop` of `src/worker.rs` with a Llama or Qwen2 model in place of what comes from outside in
`Worker.lean`: for the next item the model runs from position `0` on, with the slot of the request,
and the token is drawn from its logits. `main` wraps the model in an `EngineModel`, which hands every
call on as long as no graph is captured, and nothing captures one. All tensors have one element
type, and the quantized model of a GGUF file is left out.
-/

namespace Kyro

open Loader Sampler

/-- What ends the task of the worker. -/
inductive Crash where
  | fault (fault : Fault)
  | sampler (panic : Sampler.Panic)
  deriving DecidableEq, Repr

/-- What the worker calls for an item. -/
structure Inference (K : Type) [Field K] [LinearOrder K] where
  kernels : Kernels K
  rope : Loader.RotaryEmbedding K
  dist : DistributedContext
  model : Loader.ModelInstance (Tensor K)
  sampler : Sampler K
  /-- The `grammar_processor` of a request. -/
  grammar : RequestId → Option GrammarConstraint

namespace Inference

inductive Event (K : Type) [Field K] [LinearOrder K] where
  | submit (submission : Submission)
  | schedule (now : Instant)
  /-- The next item. -/
  | forward (draw : Draw K)
  | update

variable {K : Type} [Field K] [LinearOrder K] (worker : Inference K)

/-- `self.model.forward(&input, 0, Some(&mut cache_ctx))` -/
def forward (cache : KVCacheManager (Tensor K)) (item : WorkItem) :
    Except Fault (KVCacheManager (Tensor K) × Option (Tensor K)) :=
  match (Tensor.fromSlice item.input [item.input.length]).bind (·.unsqueeze 0) with
  | none => .ok (cache, none)
  | some input => do
    let (ctx, logits) ← worker.model.forward worker.kernels worker.rope worker.dist input 0
      (some ⟨cache, item.reqId⟩)
    return (ctx.elim cache (·.manager), logits)

/-- The token for an item with these logits. -/
def token (draw : Draw K) (running : List Request) (item : WorkItem) (logits : Tensor K) :
    Except Failure Token :=
  worker.sampler.itemToken draw item.sampling (worker.grammar item.reqId)
    ((Worker.findRequest running item.reqId).map (·.generatedTokens)) (floats logits)

/-- An event that the phase does not allow changes nothing. -/
def step (env : Env) (world : World (Tensor K)) : Event K → Except Crash (World (Tensor K))
  | .submit submission => .ok (world.submit submission)
  | .schedule now => (world.step env (.shaped K) (.schedule now)).mapError .fault
  | .forward draw =>
    match world.phase with
    | .computing toPrefill batch results =>
      match batch[results.length]? with
      | some item =>
        match worker.forward world.cache item with
        | .error fault => .error (.fault fault)
        | .ok (cache, none) => .ok { world with cache, phase := .stopped }
        | .ok (cache, some logits) =>
          match worker.token draw world.scheduler.runningQueue item logits with
          | .ok token =>
            .ok { world with
              cache
              phase := .computing toPrefill batch
                (results ++ [⟨item.reqId, token, item.isLastChunk⟩]) }
          | .error .tensor => .ok { world with cache, phase := .stopped }
          | .error (.panic panic) => .error (.sampler panic)
      | none => .ok world
    | _ => .ok world
  | .update => (world.step env (.shaped K) .update).mapError .fault

/-- The world after a sequence of events. -/
def history (env : Env) (blockSize numGpuBlocks : ℕ) (config : SchedulerConfig)
    (events : List (Event K)) : Except Crash (World (Tensor K)) :=
  Machine.run (worker.step env) (World.new env blockSize numGpuBlocks config) events

/-- No id is drawn twice. -/
def Fresh (world : World (Tensor K)) : Event K → Prop
  | .submit submission => submission.id ∉ world.submitted
  | _ => True

instance (world : World (Tensor K)) : DecidablePred (Fresh world)
  | .submit submission => inferInstanceAs (Decidable (submission.id ∉ world.submitted))
  | .schedule _ => inferInstanceAs (Decidable True)
  | .forward _ => inferInstanceAs (Decidable True)
  | .update => inferInstanceAs (Decidable True)

end Inference
end Kyro
