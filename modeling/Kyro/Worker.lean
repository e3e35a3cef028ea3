import Kyro.Scheduler.ContinuousBatching
import Kyro.Model.KvCache

/-!
# The worker loop

`src/worker.rs`. An iteration of `run_loop` is two critical sections on the scheduler with the model
between them: it schedules and builds a batch of work items, runs the items one after another, and
then hands the sampled tokens to their requests, moves the prefill cursors and finishes requests.
The API adds requests at any time outside of the critical sections.

What the model appends to the cache and which token is sampled come from outside, as does the error
that ends the loop.
-/

namespace Kyro

/-- What a request is made from by `chat_completions`. -/
structure Submission where
  /-- `rand::random::<u64>()` -/
  id : RequestId
  promptTokens : List Token
  maxTokens : ℕ
  sampling : SamplingParams
  /-- The encoded stop strings. -/
  stopTokens : List (List Token)
  deadline : Instant
  deriving DecidableEq, Repr

def Submission.toRequest (submission : Submission) : Request where
  id := submission.id
  promptTokens := submission.promptTokens
  generatedTokens := []
  maxTokens := submission.maxTokens
  isPrefill := true
  cachedPrefixLen := 0
  prefillCursor := 0
  sampling := submission.sampling
  stopTokenIds := submission.stopTokens.filter fun tokens => !tokens.isEmpty
  tokenSender := true
  deadline := some submission.deadline

/-- A submission with the defaults for sampling, without stop strings. -/
def Submission.plain (id : RequestId) (promptTokens : List Token) (maxTokens : ℕ) : Submission where
  id := id
  promptTokens := promptTokens
  maxTokens := maxTokens
  sampling :=
    { temperature := 1
      topP := 1
      topK := none
      frequencyPenalty := 0
      presencePenalty := 0
      logitBias := none
      seed := none }
  stopTokens := []
  deadline := 300

structure WorkItem where
  reqId : RequestId
  input : List Token
  isLastChunk : Bool
  sampling : SamplingParams
  isPrefill : Bool
  needsCacheLookup : Bool
  deriving DecidableEq, Repr

structure ComputeResult where
  reqId : RequestId
  token : Token
  isLastChunk : Bool
  deriving DecidableEq, Repr

namespace Request

/-! ### Work items -/

/-- The next chunk of a prompt. -/
def chunkItem (config : SchedulerConfig) (req : Request) : WorkItem :=
  let chunkStart := req.prefillCursor
  let chunkEnd := chunkStart + req.chunkSize config
  { reqId := req.id
    input := (req.promptTokens.take chunkEnd).drop chunkStart
    isLastChunk := chunkEnd = req.promptTokens.length
    sampling := req.sampling
    isPrefill := true
    needsCacheLookup := chunkStart = 0 }

/-- The item of a request to prefill. -/
def prefillItem (config : SchedulerConfig) (req : Request) : Option WorkItem :=
  if req.prefillCursor < req.promptTokens.length then some (req.chunkItem config)
  else if req.cachedPrefixLen = req.promptTokens.length then
    some
      { reqId := req.id
        input := [req.promptTokens.getLast?.getD 0]
        isLastChunk := true
        sampling := req.sampling
        isPrefill := true
        needsCacheLookup := false }
  else none

/-- The item of a request to decode. -/
def decodeItem (req : Request) : WorkItem where
  reqId := req.id
  input := [req.generatedTokens.getLast?.getD 0]
  isLastChunk := false
  sampling := req.sampling
  isPrefill := false
  needsCacheLookup := false

/-! ### The end of a request -/

/-- `gen.len() >= stop_seq.len() && gen[gen.len() - stop_seq.len()..] == stop_seq[..]` -/
def matchesStop (gen stopSeq : List Token) : Bool :=
  stopSeq.length ≤ gen.length && gen.drop (gen.length - stopSeq.length) == stopSeq

/-- The token limit is reached or the newest tokens are a stop sequence. -/
def isDone (req : Request) : Bool :=
  req.maxTokens ≤ req.generatedTokens.length ||
    req.stopTokenIds.any (matchesStop req.generatedTokens)

def pushToken (token : Token) (req : Request) : Request :=
  { req with generatedTokens := req.generatedTokens ++ [token] }

end Request

namespace Worker

/-- `running_queue.iter().find(|r| r.id == req_id)` -/
def findRequest (running : List Request) (id : RequestId) : Option Request :=
  running.find? (·.id = id)

def buildBatch (config : SchedulerConfig) (running : List Request)
    (toPrefill toDecode : List RequestId) : List WorkItem :=
  (toPrefill.filterMap fun id => (findRequest running id).bind (·.prefillItem config)) ++
    toDecode.filterMap fun id => (findRequest running id).map (·.decodeItem)

variable {τ : Type}

def registerItems (cache : KVCacheManager τ) : List WorkItem → KVCacheManager τ
  | [] => cache
  | item :: items =>
    registerItems
      (if item.isPrefill && item.needsCacheLookup then cache.registerRequest item.reqId else cache)
      items

/-! ### The update phase -/

/-- The loop over the results: the running requests with the tokens pushed, and what is sent to the
API. -/
def pushResults : List Request → List ComputeResult → List Request × List (RequestId × Token)
  | running, [] => (running, [])
  | running, res :: results =>
    match findRequest running res.reqId with
    | some req =>
      let (running, sent) :=
        pushResults (updateRequest res.reqId (Request.pushToken res.token) running) results
      (running, if req.tokenSender then (res.reqId, res.token) :: sent else sent)
    | none => pushResults running results

/-- The loop over the finished ids. -/
def finishAll (env : Env) (scheduler : Scheduler) (cache : KVCacheManager τ) :
    List RequestId → Except Fault (Scheduler × KVCacheManager τ)
  | [] => .ok (scheduler, cache)
  | id :: ids => do
    let scheduler ← scheduler.finishRequest env id
    finishAll env scheduler (cache.unregisterRequest id) ids

/-- The second critical section. -/
def update (env : Env) (scheduler : Scheduler) (cache : KVCacheManager τ)
    (toPrefill : List RequestId) (results : List ComputeResult) :
    Except Fault (Scheduler × KVCacheManager τ × List (RequestId × Token)) := do
  let (running, sent) := pushResults scheduler.runningQueue results
  let scheduler :=
    toPrefill.foldl Scheduler.advancePrefillCursor { scheduler with runningQueue := running }
  let finished := (scheduler.runningQueue.filter (·.isDone)).map (·.id)
  let (scheduler, cache) ← finishAll env scheduler cache finished
  return (scheduler, cache, sent)

end Worker

/-! ### Runs -/

/-- Where in an iteration the worker is. -/
inductive Phase where
  /-- Before `schedule`, waiting for a notification included. -/
  | idle
  /-- Running the batch: there is a result for each item that is done. -/
  | computing (toPrefill : List RequestId) (batch : List WorkItem) (results : List ComputeResult)
  /-- `run_loop` has returned an error. -/
  | stopped
  deriving DecidableEq

/-- The worker, the scheduler it shares with the API, and the history of the two interfaces: the ids
of the submitted requests and the tokens sent on their channels. -/
structure World (τ : Type) where
  scheduler : Scheduler
  cache : KVCacheManager τ
  phase : Phase
  submitted : List RequestId
  sent : List (RequestId × Token)

inductive Event (τ : Type) where
  | submit (submission : Submission)
  | schedule (now : Instant)
  /-- The next item: what the model appends for it, and the sampled token or an error. -/
  | forward (appends : List (τ × τ)) (token : Option Token)
  | update
  deriving DecidableEq

namespace World

open Worker

variable {τ : Type}

def new (env : Env) (blockSize numGpuBlocks : ℕ) (config : SchedulerConfig) : World τ where
  scheduler := Scheduler.new (BlockManager.new env blockSize numGpuBlocks) config
  cache := KVCacheManager.new
  phase := .idle
  submitted := []
  sent := []

def submit (world : World τ) (submission : Submission) : World τ :=
  { world with
    scheduler := world.scheduler.addRequest submission.toRequest
    submitted := world.submitted ++ [submission.id] }

/-- The first critical section, and the registration of the batch. -/
def schedule (env : Env) (now : Instant) (world : World τ) : Except Fault (World τ) := do
  let (scheduler, toPrefill, toDecode) ← world.scheduler.schedule env now
  if toPrefill.isEmpty && toDecode.isEmpty then return { world with scheduler }
  else
    let batch := buildBatch scheduler.config scheduler.runningQueue toPrefill toDecode
    return { world with
      scheduler
      cache := registerItems world.cache batch
      phase := .computing toPrefill batch [] }

/-- An event that the phase does not allow changes nothing. -/
def step (env : Env) (ops : TensorOps τ) (world : World τ) : Event τ → Except Fault (World τ)
  | .submit submission => .ok (world.submit submission)
  | .schedule now =>
    match world.phase with
    | .idle => world.schedule env now
    | _ => .ok world
  | .forward appends token =>
    match world.phase with
    | .computing toPrefill batch results =>
      match batch[results.length]? with
      | some item => do
        let (cache, ok) ← world.cache.appendAll ops item.reqId appends
        match token with
        | some token =>
          if ok then
            return { world with
              cache
              phase := .computing toPrefill batch
                (results ++ [⟨item.reqId, token, item.isLastChunk⟩]) }
          else return { world with cache, phase := .stopped }
        | none => return { world with cache, phase := .stopped }
      | none => .ok world
    | _ => .ok world
  | .update =>
    match world.phase with
    | .computing toPrefill batch results =>
      if results.length = batch.length then do
        let (scheduler, cache, sent) ←
          Worker.update env world.scheduler world.cache toPrefill results
        return { world with scheduler, cache, phase := .idle, sent := world.sent ++ sent }
      else .ok world
    | _ => .ok world

/-- The world after a sequence of events. -/
def history (env : Env) (ops : TensorOps τ) (blockSize numGpuBlocks : ℕ)
    (config : SchedulerConfig) (events : List (Event τ)) : Except Fault (World τ) :=
  Machine.run (step env ops) (new env blockSize numGpuBlocks config) events

/-- No id is drawn twice. -/
def Fresh (world : World τ) : Event τ → Prop
  | .submit submission => submission.id ∉ world.submitted
  | _ => True

instance (world : World τ) : DecidablePred world.Fresh
  | .submit submission => inferInstanceAs (Decidable (submission.id ∉ world.submitted))
  | .schedule _ => inferInstanceAs (Decidable True)
  | .forward _ _ => inferInstanceAs (Decidable True)
  | .update => inferInstanceAs (Decidable True)

end World
end Kyro
