import Kyro.Api.OpenAi
import Kyro.Engine
import Kyro.Sampler

/-!
# The service

`chat_completions` of `src/api/openai.rs` as a task beside the worker, and the counter of
`src/metrics.rs` that the worker moves. A handler refuses its payload or adds a request; it then
waits for the tokens of the request until the channel is closed, which is when the request has left
both queues, and replies. A client may go away before that: the handler is dropped and the request
stays.

The clock of the deadlines is that of the scheduler, `second` of its readings to a second. The token
of a pass comes from outside, so the panics of the sampler and of the grammar mask are not among
those of a step.
-/

namespace Kyro

inductive StopCondition where
  | single (s : String)
  | multiple (v : List String)
  deriving DecidableEq, Repr

/-- A body of `/v1/chat/completions`. -/
structure ChatRequest where
  payload : ChatPayload
  sampling : ChatCompletionRequest
  maxTokens : Option ℕ
  stop : Option StopCondition
  deriving DecidableEq, Repr

namespace ChatRequest

def stopStrings (request : ChatRequest) : List String :=
  match request.stop with
  | some (.single s) => [s]
  | some (.multiple v) => v
  | none => []

/-- `tk.encode(s).unwrap_or_default()` of every stop string, if there is a tokenizer. -/
def stopTokens (tokenizer : Option LuminaTokenizer) (request : ChatRequest) : List (List Token) :=
  request.stopStrings.filterMap fun s => tokenizer.map fun tk =>
    match tk.encode s with
    | .ok tokens => tokens
    | .error _ => []

def maxTokensOr (request : ChatRequest) : ℕ := request.maxTokens.getD 50

end ChatRequest

/-- A call of `chat_completions` that has drawn its id and read the clock and the time. -/
structure Handler where
  requestId : RequestId
  request : ChatRequest
  now : Instant
  created : ℕ
  deriving DecidableEq

namespace Handler

/-- A call with one message, no stop strings and the defaults for sampling. -/
def plain (requestId : RequestId) (maxTokens : ℕ) (now : Instant) : Handler where
  requestId := requestId
  request :=
    { payload := { model := "llama", messages := [⟨"user", .text "hi"⟩], stream := none }
      sampling :=
        { temperature := none
          topP := none
          topK := none
          frequencyPenalty := none
          presencePenalty := none
          logitBias := none
          seed := none
          responseFormat := none }
      maxTokens := some maxTokens
      stop := none }
  now := now
  created := 0

/-- What a handler does before it waits: it replies with an error or adds a request. -/
def accept (tokenizer : Option LuminaTokenizer) (second : ℕ) (handler : Handler) :
    Except Reply Submission :=
  if handler.request.payload.messages.isEmpty then
    .error (.error 400 {
      message := "messages must not be empty"
      errorType := "invalid_request_error"
      code := "empty_messages" })
  else
    match OpenAi.promptTokens tokenizer
        (OpenAi.extractPromptText handler.request.payload.messages) with
    | .error e =>
      .error (.error 422 {
        message := "Failed to tokenize prompt: " ++ e
        errorType := "invalid_request_error"
        code := "tokenization_failed" })
    | .ok promptTokens =>
      .ok
        { id := handler.requestId
          promptTokens
          maxTokens := handler.request.maxTokensOr
          sampling := handler.request.sampling.samplingParams
          stopTokens := handler.request.stopTokens tokenizer
          deadline := handler.now + 300 * second }

/-- What it replies when it has received all tokens. -/
def reply (tokenizer : Option LuminaTokenizer) (handler : Handler) (tokens : List Token) : Reply :=
  OpenAi.chatCompletions tokenizer handler.request.payload handler.requestId handler.created tokens

end Handler

structure Service (τ : Type) where
  engine : Engine τ
  /-- The handlers that wait for tokens. -/
  handlers : List Handler
  replies : List (Handler × Reply)
  /-- The handlers that were dropped with their clients. -/
  dropped : List Handler
  /-- `kyro_tokens_total` -/
  totalTokensGenerated : ℕ

/-- How often an update moves the counter: once for every result whose request is running. -/
def World.generated {τ : Type} (world : World τ) : ℕ :=
  match world.phase with
  | .computing _ batch results =>
    if results.length = batch.length then
      results.countP fun res => (Worker.findRequest world.scheduler.runningQueue res.reqId).isSome
    else 0
  | _ => 0

namespace Service

variable {τ : Type}

inductive Action (τ : Type) where
  | chat (handler : Handler)
  /-- A handler that has added its request calls `notify_one`. -/
  | notify (handler : ℕ)
  | schedule (now : Instant)
  | await
  | forward (appends : List (τ × τ)) (token : Option Token)
  | update
  /-- The handler finds its channel closed. -/
  | reply (requestId : RequestId)
  /-- The client goes away. -/
  | disconnect (requestId : RequestId)
  deriving DecidableEq

def new (env : Env) (blockSize numGpuBlocks : ℕ) (config : SchedulerConfig) : Service τ where
  engine := Engine.new env blockSize numGpuBlocks config
  handlers := []
  replies := []
  dropped := []
  totalTokensGenerated := 0

/-- The tokens that were sent on the channel of a request. -/
def received (service : Service τ) (id : RequestId) : List Token :=
  (service.engine.world.sent.filter fun token => token.1 = id).map (·.2)

/-- The sender went with the request. -/
def Closed (service : Service τ) (id : RequestId) : Prop :=
  ∀ req ∈ service.engine.world.scheduler.runningQueue ++
    service.engine.world.scheduler.waitingQueue, req.id ≠ id

instance (service : Service τ) : DecidablePred service.Closed :=
  fun id => inferInstanceAs (Decidable (∀ req ∈ service.engine.world.scheduler.runningQueue ++
    service.engine.world.scheduler.waitingQueue, req.id ≠ id))

def findHandler (service : Service τ) (id : RequestId) : Option Handler :=
  service.handlers.find? (·.requestId = id)

/-- The other handlers. -/
def without (service : Service τ) (id : RequestId) : List Handler :=
  service.handlers.eraseP (·.requestId = id)

section Step

variable (env : Env) (ops : TensorOps τ) (tokenizer : Option LuminaTokenizer) (second : ℕ)

/-- A step of the engine alone. -/
def advance (service : Service τ) (action : Kyro.Action τ) : Except Fault (Service τ) := do
  let engine ← service.engine.step env ops action
  return { service with engine }

/-- An action that its task cannot take changes nothing. The appends and the token of a pass are what
the model and the sampler have returned. -/
def step (service : Service τ) : Action τ → Except Fault (Service τ)
  | .chat handler =>
    match handler.accept tokenizer second with
    | .error reply => .ok { service with replies := service.replies ++ [(handler, reply)] }
    | .ok submission => do
      let service ← service.advance env ops (.add submission)
      return { service with handlers := service.handlers ++ [handler] }
  | .notify handler => service.advance env ops (.notify handler)
  | .schedule now => service.advance env ops (.schedule now)
  | .await => service.advance env ops .await
  | .forward appends token => service.advance env ops (.forward appends token)
  | .update => do
    let generated := service.engine.world.generated
    let service ← service.advance env ops .update
    return { service with totalTokensGenerated := service.totalTokensGenerated + generated }
  | .reply requestId =>
    match service.findHandler requestId with
    | some handler =>
      if service.Closed requestId then
        .ok { service with
          handlers := service.without requestId
          replies := service.replies ++
            [(handler, handler.reply tokenizer (service.received requestId))] }
      else .ok service
    | none => .ok service
  | .disconnect requestId =>
    match service.findHandler requestId with
    | some handler =>
      .ok { service with
        handlers := service.without requestId
        dropped := service.dropped ++ [handler] }
    | none => .ok service

/-- The service after a sequence of actions. -/
def history (blockSize numGpuBlocks : ℕ) (config : SchedulerConfig) (actions : List (Action τ)) :
    Except Fault (Service τ) :=
  Machine.run (step env ops tokenizer second) (new env blockSize numGpuBlocks config) actions

end Step

/-- No id is drawn twice. -/
def Fresh (service : Service τ) : Action τ → Prop
  | .chat handler =>
    handler.requestId ∉
      (service.handlers ++ service.replies.map Prod.fst ++ service.dropped).map (·.requestId)
  | _ => True

instance (service : Service τ) : DecidablePred service.Fresh
  | .chat handler => inferInstanceAs (Decidable (handler.requestId ∉
      (service.handlers ++ service.replies.map Prod.fst ++ service.dropped).map (·.requestId)))
  | .notify _ => inferInstanceAs (Decidable True)
  | .schedule _ => inferInstanceAs (Decidable True)
  | .await => inferInstanceAs (Decidable True)
  | .forward _ _ => inferInstanceAs (Decidable True)
  | .update => inferInstanceAs (Decidable True)
  | .reply _ => inferInstanceAs (Decidable True)
  | .disconnect _ => inferInstanceAs (Decidable True)

end Service
end Kyro
