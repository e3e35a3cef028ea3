import Kyro.Scheduler.ContinuousBatching
import Kyro.Lib.ExactFloat

/-!
# From logits to a token

What `run_loop` and `sample_token` of `src/worker.rs` do with the logits of an item, with the mask
of `src/api/grammar.rs` and the parameters that `chat_completions` of `src/api/openai.rs` takes from
the client. The logits of a call are one row, so the tensor operations on them are operations on a
list, in exact arithmetic. They are F32: `to_vec1` reads no others.
-/

namespace Kyro

open ExactFloat

namespace Sampler

/-- What a release build aborts with. -/
inductive Panic where
  /-- A vector indexed out of its range. -/
  | index
  /-- `unwrap` of a `None`. -/
  | unwrap
  deriving DecidableEq, Repr

/-- `xs[i] = f(xs[i])` -/
def updateAt {α : Type} (xs : List α) (i : ℕ) (f : α → α) : Except Panic (List α) :=
  if i < xs.length then .ok (xs.modify i f) else .error .index

/-- `if i < xs.len() { xs[i] = f(xs[i]) }` -/
def updateInside {α : Type} (xs : List α) (i : ℕ) (f : α → α) : Except Panic (List α) :=
  if i < xs.length then updateAt xs i f else .ok xs

/-- A logit with the index of its token. -/
abbrev Entry (K : Type) := ℕ × ExactFloat K

/-- `b.1.partial_cmp(&a.1)`: the larger logit comes first. -/
def compareDown {K : Type} [LinearOrder K] (a b : Entry K) : Option Ordering :=
  b.2.partialCmp a.2

/-- Every comparison that a sort may make unwraps. -/
def Comparable {K : Type} [LinearOrder K] (entries : List (Entry K)) : Prop :=
  entries.Pairwise fun a b => (compareDown a b).isSome

instance {K : Type} [LinearOrder K] (entries : List (Entry K)) : Decidable (Comparable entries) :=
  inferInstanceAs (Decidable (entries.Pairwise _))

end Sampler

/-- What `sample_token` takes from elsewhere: the exponential, which may come down to zero but not
at zero, and the order in which `select_nth_unstable_by(k, ..)` leaves a slice, which is not
determined but for what stands before the position `k` and what from there on. -/
structure Sampler (K : Type) [Field K] [LinearOrder K] where
  exp : K → K
  exp_nonneg : ∀ a, 0 ≤ exp a
  exp_zero_pos : 0 < exp 0
  select : ℕ → List (Sampler.Entry K) → List (Sampler.Entry K)
  select_perm : ∀ k entries, (select k entries).Perm entries
  select_before : ∀ k entries, Sampler.Comparable entries →
    ∀ a ∈ (select k entries).take k, ∀ b ∈ (select k entries).drop k,
      Sampler.compareDown a b ≠ some .gt

/-- The draw of one call: `random_range(0..100)` and `random::<f32>()`. -/
structure Draw (K : Type) [Field K] [LinearOrder K] where
  index : Fin 100
  unit : K
  unit_nonneg : 0 ≤ unit
  unit_lt_one : unit < 1

inductive GrammarConstraint where
  | none
  | json
  | regex (pattern : String)
  deriving DecidableEq, Repr

namespace Sampler

variable {K : Type} [Field K] [LinearOrder K]

/-! ### The adjustments of the logits -/

def addLogitBias (bias : List (Token × ℚ)) (logits : List (ExactFloat K)) :
    Except Panic (List (ExactFloat K)) := do
  let accum ← bias.foldlM (fun accum entry => updateInside accum entry.1.toNat (· + (entry.2 : K)))
    (List.replicate logits.length 0)
  return List.zipWith (fun logit bias => logit + finite bias) logits accum

/-- The frequency penalty adds up over the occurrences of a token, and then each occurrence brings
the sum down to at most zero and adds the presence penalty. -/
def addPenalties (frequencyPenalty presencePenalty : ℚ) (generated : List Token)
    (logits : List (ExactFloat K)) : Except Panic (List (ExactFloat K)) := do
  let mask ← generated.foldlM
    (fun mask token => updateInside mask token.toNat (· + (frequencyPenalty : K)))
    (List.replicate logits.length 0)
  let mask ← generated.foldlM
    (fun mask token => updateInside mask token.toNat (min · 0 + (presencePenalty : K))) mask
  return List.zipWith (fun logit penalty => logit + finite penalty) logits mask

/-- NUL, newline, space, quote, brackets and braces of a byte vocabulary. -/
def jsonTokens : List ℕ := [0, 10, 32, 34, 91, 93, 123, 125]

def getValidTokens (vocabSize : ℕ) : GrammarConstraint → List ℕ
  | .none => List.range vocabSize
  | .json => jsonTokens
  | .regex _ => List.range vocabSize

def applyGrammarMask (grammar : GrammarConstraint) (logits : List (ExactFloat K)) :
    Except Panic (List (ExactFloat K)) := do
  let mask ← (getValidTokens logits.length grammar).foldlM
    (fun mask tokenId => updateAt mask tokenId fun _ => (0 : ExactFloat K))
    (List.replicate logits.length negInf)
  return List.zipWith (· + ·) logits mask

/-! ### `sample_token` -/

/-- The scan for the largest value; the first of several is kept. -/
def argmaxFrom (best : Entry K) (i : ℕ) : List (ExactFloat K) → ℕ
  | [] => best.1
  | x :: xs => argmaxFrom (if best.2 < x then (i, x) else best) (i + 1) xs

def argmax : List (ExactFloat K) → ℕ
  | [] => 0
  | x :: xs => argmaxFrom (0, x) 1 xs

/-- Keep the `k` largest logits. -/
def keepTopK (sampler : Sampler K) (topK : Option ℕ) (entries : List (Entry K)) :
    Except Panic (List (Entry K)) :=
  match topK with
  | some k =>
    if k < entries.length then
      if Comparable entries then .ok ((sampler.select k entries).take k) else .error .unwrap
    else .ok entries
  | none => .ok entries

def softmax (exp : K → K) (entries : List (Entry K)) : List (Entry K) :=
  let maxLogit := (entries.map (·.2)).foldl ExactFloat.max negInf
  let prs := entries.map fun entry => (entry.1, (entry.2 - maxLogit).exp exp)
  let sumP := ExactFloat.sum (prs.map (·.2))
  prs.map fun entry => (entry.1, entry.2 / sumP)

/-- How many entries it takes for the probabilities to exceed `top_p`, all of them if they never
do. -/
def cutOff (topP cumsum : ExactFloat K) : List (Entry K) → ℕ
  | [] => 0
  | entry :: entries =>
    if topP < cumsum + entry.2 then 1 else cutOff topP (cumsum + entry.2) entries + 1

/-- The first entry at which the probabilities use up `r`. -/
def pick (r : ExactFloat K) : List (Entry K) → Option ℕ
  | [] => none
  | entry :: entries => if r - entry.2 ≤ 0 then some entry.1 else pick (r - entry.2) entries

/-- The branch for `top_p < 1.0`; the fallback is `sorted[0]`. -/
def sampleNucleus (draw : Draw K) (topP : ℚ) (prs : List (Entry K)) : Except Panic ℕ :=
  if Comparable prs then
    let sorted := prs.mergeSort fun a b => compareDown a b != some .gt
    let sorted := sorted.take (cutOff (finite (topP : K)) 0 sorted)
    let totalP := ExactFloat.sum (sorted.map (·.2))
    match pick (finite draw.unit * totalP) sorted with
    | some id => .ok id
    | none =>
      match sorted with
      | entry :: _ => .ok entry.1
      | [] => .error .index
  else .error .unwrap

/-- The branch for the others; the fallback is the last entry, or zero. -/
def sampleAll (draw : Draw K) (prs : List (Entry K)) : ℕ :=
  match pick (finite draw.unit) prs with
  | some id => id
  | none => (prs.getLast?.map (·.1)).getD 0

/-- The token ids are `as u32`. `to_vec1` reads F32 logits only; others would get a random id. -/
def sampleToken (sampler : Sampler K) (draw : Draw K) (temperature topP : ℚ) (topK : Option ℕ)
    (logits : List (ExactFloat K)) : Except Panic Token :=
  if logits.isEmpty then .ok (UInt32.ofNat draw.index)
  else if temperature ≤ 0 then .ok (UInt32.ofNat (argmax logits))
  else do
    let logits := logits.map (· / finite (temperature : K))
    let entries ← keepTopK sampler topK (logits.mapIdx Prod.mk)
    let prs := softmax sampler.exp entries
    if topP < 1 then
      let id ← sampleNucleus draw topP prs
      return UInt32.ofNat id
    else return UInt32.ofNat (sampleAll draw prs)

/-! ### The pipeline of an item -/

def biased (params : SamplingParams) (logits : List (ExactFloat K)) :
    Except Panic (List (ExactFloat K)) :=
  match params.logitBias with
  | some bias => addLogitBias bias logits
  | none => .ok logits

/-- `generated` is of the running request with the item's id, if there is one. -/
def penalized (params : SamplingParams) (generated : Option (List Token))
    (logits : List (ExactFloat K)) : Except Panic (List (ExactFloat K)) :=
  if params.frequencyPenalty ≠ 0 ∨ params.presencePenalty ≠ 0 then
    match generated with
    | some generated =>
      addPenalties params.frequencyPenalty params.presencePenalty generated logits
    | none => .ok logits
  else .ok logits

def constrained (grammar : Option GrammarConstraint) (logits : List (ExactFloat K)) :
    Except Panic (List (ExactFloat K)) :=
  match grammar with
  | some grammar => applyGrammarMask grammar logits
  | none => .ok logits

def nextToken (sampler : Sampler K) (draw : Draw K) (params : SamplingParams)
    (grammar : Option GrammarConstraint) (generated : Option (List Token))
    (logits : List (ExactFloat K)) : Except Panic Token := do
  let logits ← biased params logits
  let logits ← penalized params generated logits
  let logits ← constrained grammar logits
  sampleToken sampler draw params.temperature params.topP params.topK logits

end Sampler

/-! ### The parameters of a request -/

/-- The fields of a request body that the sampling of its tokens reads. -/
structure ChatCompletionRequest where
  temperature : Option ℚ
  topP : Option ℚ
  topK : Option ℕ
  frequencyPenalty : Option ℚ
  presencePenalty : Option ℚ
  logitBias : Option (List (String × ℚ))
  seed : Option UInt64
  /-- `response_format.type` -/
  responseFormat : Option String
  deriving DecidableEq, Repr

/-- `token_str.parse::<u32>()` -/
def parseU32 (s : String) : Option Token :=
  let digits := match s.toList with
    | '+' :: rest => rest
    | chars => chars
  if digits.isEmpty || !digits.all Char.isDigit then none
  else
    let n := digits.foldl (fun n c => 10 * n + (c.toNat - 48)) 0
    if n < 2 ^ 32 then some (UInt32.ofNat n) else none

namespace ChatCompletionRequest

/-- A body without any of them. -/
def plain : ChatCompletionRequest where
  temperature := none
  topP := none
  topK := none
  frequencyPenalty := none
  presencePenalty := none
  logitBias := none
  seed := none
  responseFormat := none

/-- The entries whose key is a token id, one for each id. -/
def tokenBias (bias : List (String × ℚ)) : List (Token × ℚ) :=
  (bias.filterMap fun entry => (parseU32 entry.1).map fun id => (id, entry.2)).foldl
    (fun map entry => entry :: map.filter (·.1 ≠ entry.1)) []

def samplingParams (payload : ChatCompletionRequest) : SamplingParams where
  temperature := payload.temperature.getD 1
  topP := payload.topP.getD 1
  topK := payload.topK
  frequencyPenalty := payload.frequencyPenalty.getD 0
  presencePenalty := payload.presencePenalty.getD 0
  logitBias := payload.logitBias.map tokenBias
  seed := payload.seed

def grammarProcessor (payload : ChatCompletionRequest) : Option GrammarConstraint :=
  payload.responseFormat.bind fun
    | "json_object" => some .json
    | "json" => some .json
    | _ => none

end ChatCompletionRequest
end Kyro
