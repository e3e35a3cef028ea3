import Kyro.Scheduler.Basic

/-!
# Chat completions

`src/api/openai.rs`: what `chat_completions` replies, given the tokens that arrive on the channel of
its request until the worker drops the sender. The fields of the payload that only the sampling
reads are with the sampler.

The tokenizer is a third-party package behind `src/api/tokenizer.rs` and a parameter here. An SSE
event has the chunk itself where the source has its JSON text.
-/

namespace Kyro

/-- The two functions of a loaded tokenizer; the error is its message. -/
structure LuminaTokenizer where
  encode : String → Except String (List Token)
  decode : List Token → Except String String

structure ContentItem where
  itemType : String
  text : Option String
  imageUrl : Option String
  deriving DecidableEq, Repr

inductive MessageContent where
  | text (text : String)
  | multiModal (items : List ContentItem)
  deriving DecidableEq, Repr

structure Message where
  role : String
  content : MessageContent
  deriving DecidableEq, Repr

/-- The part of a `ChatCompletionRequest` that shapes the reply. -/
structure ChatPayload where
  model : String
  messages : List Message
  stream : Option Bool
  deriving DecidableEq, Repr

structure Choice where
  index : ℕ
  message : Message
  finishReason : String
  deriving DecidableEq, Repr

structure Usage where
  promptTokens : ℕ
  completionTokens : ℕ
  totalTokens : ℕ
  deriving DecidableEq, Repr

structure ChatCompletionResponse where
  id : String
  object : String
  created : ℕ
  model : String
  choices : List Choice
  usage : Usage
  deriving DecidableEq, Repr

structure Delta where
  content : Option String
  deriving DecidableEq, Repr

structure StreamChoice where
  index : ℕ
  delta : Delta
  finishReason : Option String
  deriving DecidableEq, Repr

structure ChatCompletionStreamResponse where
  id : String
  object : String
  created : ℕ
  model : String
  choices : List StreamChoice
  deriving DecidableEq, Repr

structure ErrorDetail where
  message : String
  errorType : String
  code : String
  deriving DecidableEq, Repr

/-- The data of an SSE event. -/
inductive SseEvent where
  | chunk (response : ChatCompletionStreamResponse)
  /-- `[DONE]` -/
  | done
  deriving DecidableEq, Repr

inductive Reply where
  | error (status : ℕ) (detail : ErrorDetail)
  | sse (events : List SseEvent)
  | json (response : ChatCompletionResponse)
  deriving DecidableEq, Repr

namespace OpenAi

def extractPromptText (messages : List Message) : String :=
  String.join (messages.map fun msg =>
    match msg.content with
    | .text t => msg.role ++ ": " ++ t ++ "\n"
    | .multiModal items => msg.role ++ ": " ++ String.join (items.filterMap (·.text)) ++ "\n")

/-- The prompt of the request; without a tokenizer a fixed one. -/
def promptTokens (tokenizer : Option LuminaTokenizer) (promptText : String) :
    Except String (List Token) :=
  match tokenizer with
  | some tk => tk.encode promptText
  | none => .ok [1, 2, 3]

/-- The text that stands for a token that is not decoded. -/
def tokenText (token : Token) : String := "token_" ++ toString token.toNat

/-- `unwrap_or_else` on a decoded text. -/
def decodedOr (fallback : String) : Except String String → String
  | .ok text => text
  | .error _ => fallback

/-- The content of the chunk for `token`, the last of the tokens received so far. -/
def chunkContent (tokenizer : Option LuminaTokenizer) (allTokens : List Token) (token : Token) :
    String :=
  match tokenizer with
  | some tk => decodedOr (tokenText token) (tk.decode allTokens)
  | none => tokenText token

/-- The content of the whole message. -/
def messageContent (tokenizer : Option LuminaTokenizer) (allTokens : List Token) : String :=
  match tokenizer with
  | some tk => decodedOr (String.join (allTokens.map tokenText)) (tk.decode allTokens)
  | none => String.join (allTokens.map tokenText)

section Replies

variable (tokenizer : Option LuminaTokenizer) (payload : ChatPayload) (requestId : RequestId)
  (created : ℕ)

def chunk (content : String) : ChatCompletionStreamResponse where
  id := "chatcmpl-" ++ toString requestId.toNat
  object := "chat.completion.chunk"
  created := created
  model := payload.model
  choices := [{ index := 0, delta := { content := some content }, finishReason := none }]

/-- The stream from the time when `allTokens` have been received. -/
def streamEvents : List Token → List Token → List SseEvent
  | _, [] => [.done]
  | allTokens, token :: rest =>
    let allTokens := allTokens ++ [token]
    .chunk (chunk payload requestId created (chunkContent tokenizer allTokens token)) ::
      streamEvents allTokens rest

/-- `prompt_tokens` of the usage: the prompt is encoded a second time. -/
def promptTokensCount (promptText : String) : ℕ :=
  match tokenizer with
  | some tk =>
    match tk.encode promptText with
    | .ok tokens => tokens.length
    | .error _ => 0
  | none => 0

def completion (promptText : String) (allTokens : List Token) : ChatCompletionResponse where
  id := "chatcmpl-" ++ toString requestId.toNat
  object := "chat.completion"
  created := created
  model := payload.model
  choices := [{
    index := 0
    message := { role := "assistant", content := .text (messageContent tokenizer allTokens) }
    finishReason := "stop" }]
  usage := {
    promptTokens := promptTokensCount tokenizer promptText
    completionTokens := allTokens.length
    totalTokens := promptTokensCount tokenizer promptText + allTokens.length }

/-- The reply to a payload whose request is sent `tokens`. -/
def chatCompletions (tokens : List Token) : Reply :=
  if payload.messages.isEmpty then
    .error 400 {
      message := "messages must not be empty"
      errorType := "invalid_request_error"
      code := "empty_messages" }
  else
    let promptText := extractPromptText payload.messages
    match promptTokens tokenizer promptText with
    | .error e =>
      .error 422 {
        message := "Failed to tokenize prompt: " ++ e
        errorType := "invalid_request_error"
        code := "tokenization_failed" }
    | .ok _ =>
      if payload.stream.getD false then
        .sse (streamEvents tokenizer payload requestId created [] tokens)
      else .json (completion tokenizer payload requestId created promptText tokens)

end Replies

/-- The `delta.content` strings of a stream, in order. -/
def deltaContents (events : List SseEvent) : List String :=
  events.flatMap fun
    | .chunk response => response.choices.filterMap (·.delta.content)
    | .done => []

end OpenAi
end Kyro
