import Kyro.Scheduler.BlockManager

/-!
# Continuous batching

`src/scheduler/continuous_batching.rs`. Requests wait in a queue, and every `schedule` drops the
expired ones, selects all running decodes, then running prefills and then new requests for as long
as the token budget of the iteration is not used up.

The clock reading of `schedule` is an argument. A loop of the source that pushes to a vector is a
function that returns what the loop pushes.
-/

namespace Kyro

/-- The fields of a request that only the sampling of its tokens reads. -/
structure SamplingParams where
  temperature : ℚ
  topP : ℚ
  topK : Option ℕ
  frequencyPenalty : ℚ
  presencePenalty : ℚ
  logitBias : Option (List (Token × ℚ))
  seed : Option UInt64
  deriving DecidableEq, Repr

structure Request where
  id : RequestId
  promptTokens : List Token
  generatedTokens : List Token
  maxTokens : ℕ
  isPrefill : Bool
  /-- The number of prompt tokens covered by the hit at admission. -/
  cachedPrefixLen : ℕ
  /-- How far into `promptTokens` the prefill has come. -/
  prefillCursor : ℕ
  sampling : SamplingParams
  stopTokenIds : List (List Token)
  /-- Whether there is a channel to stream the tokens on. -/
  tokenSender : Bool
  deadline : Option Instant
  deriving DecidableEq, Repr

structure SchedulerConfig where
  maxTokensPerIter : ℕ
  maxPrefillChunkSize : ℕ
  deriving DecidableEq, Repr

namespace Request

/-- `now >= deadline` -/
abbrev Expired (now : Instant) (req : Request) : Prop := ∃ deadline ∈ req.deadline, deadline ≤ now

/-- `req.prefill_cursor >= req.prompt_tokens.len()` -/
abbrev Prefilled (req : Request) : Prop := req.promptTokens.length ≤ req.prefillCursor

/-- The number of prompt tokens the next chunk takes. -/
def chunkSize (config : SchedulerConfig) (req : Request) : ℕ :=
  min (req.promptTokens.length - req.prefillCursor) config.maxPrefillChunkSize

/-- `req.is_prefill = mark` -/
def setPrefill (mark : Bool) (req : Request) : Request := { req with isPrefill := mark }

/-- Record the hit of the admission. -/
def startAt (cachedLen : ℕ) (req : Request) : Request :=
  { req with cachedPrefixLen := cachedLen, prefillCursor := cachedLen }

end Request

/-- `iter_mut().find(|r| r.id == id)` and an assignment through what it finds. -/
def updateRequest (id : RequestId) (f : Request → Request) : List Request → List Request
  | [] => []
  | req :: reqs => if req.id = id then f req :: reqs else req :: updateRequest id f reqs

structure Scheduler where
  waitingQueue : List Request
  runningQueue : List Request
  blockManager : BlockManager
  config : SchedulerConfig

namespace Scheduler

def new (blockManager : BlockManager) (config : SchedulerConfig) : Scheduler where
  waitingQueue := []
  runningQueue := []
  blockManager := blockManager
  config := config

def addRequest (scheduler : Scheduler) (request : Request) : Scheduler :=
  { scheduler with waitingQueue := scheduler.waitingQueue ++ [request] }

/-! ### The loops of `schedule` -/

/-- The `retain` on the running queue, which frees the blocks of what it drops. -/
def expireRunning (env : Env) (now : Instant) :
    BlockManager → List Request → Except Fault (BlockManager × List Request)
  | blockManager, [] => .ok (blockManager, [])
  | blockManager, req :: reqs =>
    if req.Expired now then do
      let blockManager ← blockManager.free env req.id
      expireRunning env now blockManager reqs
    else do
      let (blockManager, reqs) ← expireRunning env now blockManager reqs
      return (blockManager, req :: reqs)

/-- The loop over the running decodes marks them and selects all of them. -/
def markDecodes (reqs : List Request) : List Request :=
  reqs.map fun req => if req.Prefilled then req.setPrefill false else req

/-- The loop over the running prefills: the requests with the selected ones marked, the selected ids
and the number of tokens so far. -/
def selectPrefills (config : SchedulerConfig) :
    List Request → ℕ → List Request × List RequestId × ℕ
  | [], totalTokens => ([], [], totalTokens)
  | req :: reqs, totalTokens =>
    if config.maxTokensPerIter ≤ totalTokens then (req :: reqs, [], totalTokens)
    else if req.prefillCursor < req.promptTokens.length then
      let (reqs, ids, totalTokens) :=
        selectPrefills config reqs (totalTokens + req.chunkSize config)
      (req.setPrefill true :: reqs, req.id :: ids, totalTokens)
    else
      let (reqs, ids, totalTokens) := selectPrefills config reqs totalTokens
      (req :: reqs, ids, totalTokens)

/-- What the admission loop leaves and returns. -/
structure Admission where
  blockManager : BlockManager
  waiting : List Request
  admitted : List Request
  toPrefill : List RequestId
  toDecode : List RequestId
  totalTokens : ℕ

/-- The loop over the waiting queue. -/
def admitWaiting (env : Env) (config : SchedulerConfig) :
    BlockManager → List Request → ℕ → Except Fault Admission
  | blockManager, [], totalTokens => .ok ⟨blockManager, [], [], [], [], totalTokens⟩
  | blockManager, req :: waiting, totalTokens =>
    if config.maxTokensPerIter ≤ totalTokens then
      .ok ⟨blockManager, req :: waiting, [], [], [], totalTokens⟩
    else do
      let (blockManager, allocation) ←
        blockManager.allocateWithPrefix env req.id req.promptTokens
      match allocation with
      | none => return ⟨blockManager, req :: waiting, [], [], [], totalTokens⟩
      | some (_, cachedLen) =>
        let req := req.startAt cachedLen
        let remaining ← checkedSub .promptPosition req.promptTokens.length req.prefillCursor
        if 0 < remaining then
          let rest ←
            admitWaiting env config blockManager waiting (totalTokens + req.chunkSize config)
          return { rest with
            admitted := req.setPrefill true :: rest.admitted
            toPrefill := req.id :: rest.toPrefill }
        else
          let rest ← admitWaiting env config blockManager waiting (totalTokens + 1)
          return { rest with
            admitted := req.setPrefill false :: rest.admitted
            toDecode := req.id :: rest.toDecode }

/-- The ids to prefill and the ids to decode in this iteration. -/
def schedule (env : Env) (now : Instant) (scheduler : Scheduler) :
    Except Fault (Scheduler × List RequestId × List RequestId) := do
  let (blockManager, running) ←
    expireRunning env now scheduler.blockManager scheduler.runningQueue
  let waiting := scheduler.waitingQueue.filter fun req => ¬ req.Expired now
  let toDecode := (running.filter fun req => req.Prefilled).map (·.id)
  let (running, toPrefill, totalTokens) :=
    selectPrefills scheduler.config (markDecodes running) toDecode.length
  let admission ← admitWaiting env scheduler.config blockManager waiting totalTokens
  return ({ scheduler with
    waitingQueue := admission.waiting
    runningQueue := running ++ admission.admitted
    blockManager := admission.blockManager },
    toPrefill ++ admission.toPrefill, toDecode ++ admission.toDecode)

/-! ### The other operations -/

/-- The cursor after one more chunk. -/
def nextCursor (config : SchedulerConfig) (req : Request) : ℕ :=
  min (wrappingAdd req.prefillCursor config.maxPrefillChunkSize) req.promptTokens.length

def advancePrefillCursor (scheduler : Scheduler) (requestId : RequestId) : Scheduler :=
  { scheduler with
    runningQueue := updateRequest requestId
      (fun req => { req with prefillCursor := nextCursor scheduler.config req })
      scheduler.runningQueue }

def finishRequest (env : Env) (scheduler : Scheduler) (requestId : RequestId) :
    Except Fault Scheduler :=
  if scheduler.runningQueue.any (·.id = requestId) then do
    let blockManager ← scheduler.blockManager.free env requestId
    return { scheduler with
      runningQueue := scheduler.runningQueue.eraseP (·.id = requestId)
      blockManager }
  else .ok scheduler

/-! ### Call sequences -/

/-- A call of the scheduler's public interface. -/
inductive Call where
  | addRequest (request : Request)
  | schedule (now : Instant)
  | advancePrefillCursor (requestId : RequestId)
  | finishRequest (requestId : RequestId)
  deriving DecidableEq

def exec (env : Env) (scheduler : Scheduler) : Call → Except Fault Scheduler
  | .addRequest request => .ok (scheduler.addRequest request)
  | .schedule now => (scheduler.schedule env now).map Prod.fst
  | .advancePrefillCursor requestId => .ok (scheduler.advancePrefillCursor requestId)
  | .finishRequest requestId => scheduler.finishRequest env requestId

/-- The scheduler after a sequence of calls on a fresh one with a fresh block manager. -/
def history (env : Env) (blockSize numGpuBlocks : ℕ) (config : SchedulerConfig)
    (calls : List Call) : Except Fault Scheduler :=
  Machine.run (exec env) (new (BlockManager.new env blockSize numGpuBlocks) config) calls

/-- The request of the source's tests. -/
def makeReq (id : RequestId) (promptLen maxGen : ℕ) : Request where
  id := id
  promptTokens := (List.range promptLen).map UInt32.ofNat
  generatedTokens := []
  maxTokens := maxGen
  isPrefill := true
  cachedPrefixLen := 0
  prefillCursor := 0
  sampling := {
    temperature := 1, topP := 1, topK := none, frequencyPenalty := 0, presencePenalty := 0
    logitBias := none, seed := none }
  stopTokenIds := []
  tokenSender := false
  deadline := none

end Scheduler
end Kyro
