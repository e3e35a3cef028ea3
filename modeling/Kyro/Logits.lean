import Kyro.Lib.Tensor
import Kyro.Sampler

/-!
# The logits of an item

What `run_loop` of `src/worker.rs` does with the tensor that the model returns for an item, up to
its token. A bias and a penalty are rows of a matrix, and `+` takes tensors of one shape; the mask
of a grammar is broadcast. `sample_token` reads all rows of the first matrix as one. The logits are
F32, as the rows and the mask are, which cannot be added to logits of another type.
-/

namespace Kyro

open ExactFloat

namespace Sampler

/-- What ends the loop. -/
inductive Failure where
  | panic (panic : Panic)
  /-- An error of the tensor library. -/
  | tensor
  deriving DecidableEq, Repr

def liftPanic {α : Type} : Except Panic α → Except Failure α
  | .ok a => .ok a
  | .error panic => .error (.panic panic)

def orTensor {α : Type} : Option α → Except Failure α
  | some a => .ok a
  | none => .error .tensor

variable {K : Type} [Field K] [LinearOrder K]

/-- Numbers as logits. -/
def floats (t : Tensor K) : Tensor (ExactFloat K) := ⟨t.dims, fun idx => finite (t.entry idx)⟩

/-- `logits + row.unsqueeze(0)?` -/
def addRow (logits : Tensor (ExactFloat K)) (row : List K) : Except Failure (Tensor (ExactFloat K)) :=
  orTensor do
    let row ← Tensor.fromSlice (row.map finite) [row.length]
    let row ← row.unsqueeze 0
    logits.add row

def biasedTensor (params : SamplingParams) (logits : Tensor (ExactFloat K)) :
    Except Failure (Tensor (ExactFloat K)) :=
  match params.logitBias with
  | some bias => do
    let vocabSize ← orTensor logits.dims.getLast?
    let accum ← liftPanic (bias.foldlM
      (fun accum entry => updateInside accum entry.1.toNat (· + (entry.2 : K)))
      (List.replicate vocabSize 0))
    addRow logits accum
  | none => .ok logits

def penalizedTensor (params : SamplingParams) (generated : Option (List Token))
    (logits : Tensor (ExactFloat K)) : Except Failure (Tensor (ExactFloat K)) :=
  if params.frequencyPenalty ≠ 0 ∨ params.presencePenalty ≠ 0 then
    match generated with
    | some generated => do
      let vocabSize ← orTensor logits.dims.getLast?
      let mask ← liftPanic (generated.foldlM
        (fun mask token => updateInside mask token.toNat (· + (params.frequencyPenalty : K)))
        (List.replicate vocabSize 0))
      let mask ← liftPanic (generated.foldlM
        (fun mask token => updateInside mask token.toNat
          (min · 0 + (params.presencePenalty : K))) mask)
      addRow logits mask
    | none => .ok logits
  else .ok logits

/-- The mask is F32, so it cannot be added to other logits. -/
def constrainedTensor (grammar : Option GrammarConstraint) (logits : Tensor (ExactFloat K)) :
    Except Failure (Tensor (ExactFloat K)) :=
  match grammar with
  | some grammar => do
    let vocabSize ← orTensor logits.dims.getLast?
    let mask ← liftPanic ((getValidTokens vocabSize grammar).foldlM
      (fun mask tokenId => updateAt mask tokenId fun _ => (0 : ExactFloat K))
      (List.replicate vocabSize negInf))
    orTensor do
      let mask ← Tensor.fromSlice mask [vocabSize]
      logits.broadcastWith (· + ·) mask
  | none => .ok logits

/-- `sample_token` -/
def sampleTensor (sampler : Sampler K) (draw : Draw K) (temperature topP : ℚ) (topK : Option ℕ)
    (logits : Tensor (ExactFloat K)) : Except Failure Token :=
  if logits.dims = [] ∨ logits.dims.all (· = 0) then .ok (UInt32.ofNat draw.index)
  else do
    let logits ← if logits.dims.length = 1 then .ok logits else orTensor (logits.get 0)
    liftPanic (sampler.sampleToken draw temperature topP topK logits.flatten)

/-- From the output of the model to the token of an item. -/
def itemToken (sampler : Sampler K) (draw : Draw K) (params : SamplingParams)
    (grammar : Option GrammarConstraint) (generated : Option (List Token))
    (logits : Tensor (ExactFloat K)) : Except Failure Token := do
  let logits ← biasedTensor params logits
  let logits ← penalizedTensor params generated logits
  let logits ← constrainedTensor grammar logits
  if logits.dims ≠ [] ∧ logits.dims.headD 0 ≠ 0 then
    sampler.sampleTensor draw params.temperature params.topP params.topK logits
  else return UInt32.ofNat draw.index

end Sampler
end Kyro
