import Kyro.Scheduler.Basic
import Kyro.Lib.Run
import Mathlib.Data.List.AList

/-!
# Speculative decoding

`src/speculative.rs`, the `SpeculativeDecoder`. One step drafts tokens and lets the target model
verify them.

A model is a parameter: what a `forward` makes of the state (its own and the cache's) and the argmax
of every row of its logits. The shapes of the tensors show only as the number of rows: `only` is the
squeeze to a single row, `row` the `get(i)`. An error of the tensor library leaves the state behind
as it was when the error came up, so it is a result; a panic is not.
-/

namespace Kyro

inductive CandleError where
  | msg (text : String)
  | tensor
  deriving DecidableEq, Repr

/-- A panic, or a new state with what the call returned. -/
abbrev Outcome (σ α : Type) := Except Fault (σ × Except CandleError α)

/-- The `?` on a returned result. -/
def Outcome.andThen {σ α β : Type} (outcome : Outcome σ α) (f : σ → α → Outcome σ β) :
    Outcome σ β :=
  match outcome with
  | .error fault => .error fault
  | .ok (s, .error e) => .ok (s, .error e)
  | .ok (s, .ok a) => f s a

/-- What a model is fed: the input of the step, or tokens. -/
inductive Feed (χ : Type) where
  | input (x : χ)
  | tokens (tokens : List Token)
  deriving DecidableEq

/-- `forward(input, index, cache)`, up to the argmax of the rows. -/
abbrev Forward (σ χ : Type) := σ → Feed χ → ℕ → Outcome σ (List Token)

inductive DraftStrategy where
  | draftModel
  | ngram (order : ℕ)
  /-- Predict from the same hidden state; for now the last token, repeated. -/
  | parallel
  deriving DecidableEq, Repr

structure SpeculativeDecoder (σ χ : Type) where
  targetModel : Forward σ χ
  draftModel : Option (Forward σ χ)
  lookahead : ℕ
  strategy : DraftStrategy
  ngramTable : AList fun _ : List Token => Token

namespace SpeculativeDecoder

variable {σ χ : Type}

def new (targetModel : Forward σ χ) (draftModel : Option (Forward σ χ)) (lookahead : ℕ) :
    SpeculativeDecoder σ χ where
  targetModel := targetModel
  draftModel := draftModel
  lookahead := lookahead
  strategy := .draftModel
  ngramTable := ∅

/-- `logits.squeeze(1)?.squeeze(0)?.argmax(0)?.to_scalar()?` -/
def only : List Token → Except CandleError Token
  | [token] => .ok token
  | _ => .error .tensor

/-- `logits.get(i)?.argmax(0)?.to_scalar()?` -/
def row (logits : List Token) (i : ℕ) : Except CandleError Token :=
  match logits[i]? with
  | some token => .ok token
  | none => .error .tensor

/-! ### The n-gram table -/

/-- `xs[start..stop]` -/
def slice (xs : List Token) (start stop : ℕ) : Except Fault (List Token) :=
  if start ≤ stop ∧ stop ≤ xs.length then .ok ((xs.take stop).drop start)
  else .error .outOfRange

/-- The window at a position. For the order zero the end of the slice lies below the position, or
wraps. -/
def insertWindow (order : ℕ) (seq : List Token) (table : AList fun _ : List Token => Token)
    (i : ℕ) : Except Fault (AList fun _ : List Token => Token) := do
  let last ← checkedSub .outOfRange (i + order) 1
  let key ← slice seq i last
  let next ← orPanic .outOfRange seq[last]?
  return table.insert key next

/-- The windows of a sequence, unless it is too short. -/
def insertSequence (order : ℕ) (table : AList fun _ : List Token => Token) (seq : List Token) :
    Except Fault (AList fun _ : List Token => Token) :=
  if seq.length < order then .ok table
  else (List.range (seq.length - order + 1)).foldlM (insertWindow order seq) table

/-- Build n-gram table from a corpus of token sequences. -/
def buildNgramTable (decoder : SpeculativeDecoder σ χ) (corpus : List (List Token)) (order : ℕ) :
    Except Fault (SpeculativeDecoder σ χ) := do
  let table ← corpus.foldlM (insertSequence order) ∅
  return { decoder with ngramTable := table }

/-! ### Drafts -/

/-- The loop over the draft model, which is fed its own tokens. -/
def draftLoop (draft : Forward σ χ) : ℕ → σ → Feed χ → ℕ → Outcome σ (List Token)
  | 0, s, _, _ => .ok (s, .ok [])
  | n + 1, s, feed, index =>
    Outcome.andThen (draft s feed index) fun s logits =>
      match only logits with
      | .error e => .ok (s, .error e)
      | .ok next =>
        Outcome.andThen (draftLoop draft n s (.tokens [next]) (index + 1)) fun s rest =>
          .ok (s, .ok (next :: rest))

/-- The loop over the n-gram table. For the order zero the slice starts beyond the context. -/
def ngramLoop (table : AList fun _ : List Token => Token) (order : ℕ) :
    ℕ → List Token → Except Fault (List Token)
  | 0, _ => .ok []
  | n + 1, ctx =>
    if ctx.length < order then .ok []
    else if order = 0 then .error .outOfRange
    else
      match table.lookup (ctx.drop (ctx.length - (order - 1))) with
      | some next => do
        let rest ← ngramLoop table order n (ctx ++ [next])
        return next :: rest
      | none => .ok []

/-- The first `k` rows. -/
def firstRows (logits : List Token) : ℕ → Except CandleError (List Token)
  | 0 => .ok []
  | k + 1 => do
    let tokens ← firstRows logits k
    let token ← row logits k
    return tokens ++ [token]

section Step

variable (decoder : SpeculativeDecoder σ χ)

/-- Generate draft tokens using the selected strategy. -/
def generateDrafts (s : σ) (input : χ) (index : ℕ) (contextTokens : List Token) :
    Outcome σ (List Token) :=
  match decoder.strategy with
  | .draftModel =>
    match decoder.draftModel with
    | none => .ok (s, .error (.msg "draft model required"))
    | some draft => draftLoop draft decoder.lookahead s (.input input) index
  | .ngram order =>
    (ngramLoop decoder.ngramTable order decoder.lookahead contextTokens).map fun drafts =>
      (s, .ok drafts)
  | .parallel =>
    let lastToken := contextTokens.getLast?.getD 0
    let repeated := List.replicate decoder.lookahead lastToken
    Outcome.andThen (decoder.targetModel s (.tokens repeated) index) fun s logits =>
      .ok (s, firstRows logits decoder.lookahead)

/-! ### Verification -/

/-- The target model on the input itself. -/
def forwardInput (s : σ) (input : χ) (index : ℕ) : Outcome σ (List Token) :=
  Outcome.andThen (decoder.targetModel s (.input input) index) fun s logits =>
    .ok (s, (only logits).map fun token => [token])

/-- The loop over the drafts from the position `i` on. -/
def acceptLoop (logits : List Token) : List Token → ℕ → Except CandleError (List Token)
  | [], _ => .ok []
  | draftToken :: drafts, i => do
    let targetTop ← row logits i
    if targetTop = draftToken then
      let accepted ← acceptLoop logits drafts (i + 1)
      return draftToken :: accepted
    else return [targetTop]

/-- Verify draft tokens. -/
def verifyDrafts (s : σ) (input : χ) (index : ℕ) (draftTokens : List Token) :
    Outcome σ (List Token) :=
  if draftTokens.length = 0 then decoder.forwardInput s input index
  else
    Outcome.andThen (decoder.targetModel s (.tokens draftTokens) index) fun s logits =>
      match acceptLoop logits draftTokens 0 with
      | .error e => .ok (s, .error e)
      | .ok accepted =>
        if accepted.isEmpty then decoder.forwardInput s input index else .ok (s, .ok accepted)

def step (s : σ) (input : χ) (index : ℕ) (contextTokens : List Token) : Outcome σ (List Token) :=
  Outcome.andThen (decoder.generateDrafts s input index contextTokens) fun s draftTokens =>
    decoder.verifyDrafts s input index draftTokens

end Step

end SpeculativeDecoder
end Kyro
