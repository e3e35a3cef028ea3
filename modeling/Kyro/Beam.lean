import Kyro.Speculative
import Kyro.Lib.ExactFloat

/-!
# Beam search

`src/speculative.rs`, the `BeamSearchDecoder`, in exact arithmetic.

A model is a parameter: the row of log-probabilities that a `forward` of the tokens and the
`log_softmax` of its last logits give.
-/

namespace Kyro

open ExactFloat

/-- A row of log-probabilities, with an entry for each token that it knows. -/
structure LogProbs (K : Type) where
  entries : List (ExactFloat K)
  isLog : ∀ v ∈ entries, v.IsLog
  length_le : entries.length ≤ 2 ^ 32

/-- What `decode` takes from elsewhere: the power, and the order in which `sort_unstable_by` leaves
a slice, which is not determined for elements that compare equal. -/
structure Ranking (K : Type) [Field K] [LinearOrder K] where
  powf : K → K → K
  powf_pos : ∀ a b, 0 < a → 0 < powf a b
  /-- `sort_unstable_by(|a, b| key(b).partial_cmp(&key(a)).unwrap_or(Equal))` -/
  sort : {α : Type} → (α → ExactFloat K) → List α → List α
  sort_perm : ∀ {α : Type} (key : α → ExactFloat K) (xs : List α), (sort key xs).Perm xs
  sort_sorted : ∀ {α : Type} (key : α → ExactFloat K) (xs : List α), (∀ x ∈ xs, key x ≠ nan) →
    (sort key xs).Pairwise fun a b => ¬ key a < key b

structure Beam (K : Type) where
  tokens : List Token
  score : ExactFloat K
  finished : Bool
  deriving DecidableEq, Repr

structure BeamSearchDecoder (K : Type) where
  model : List Token → Except CandleError (LogProbs K)
  numBeams : ℕ
  lengthPenalty : K
  maxNewTokens : ℕ
  eosTokenId : Token

/-- An element of `all_candidates`. -/
abbrev Candidate (K : Type) := ExactFloat K × List Token

variable {K : Type} [Field K] [LinearOrder K]

def Beam.new (prompt : List Token) : Beam K where
  tokens := prompt
  score := 0
  finished := false

namespace BeamSearchDecoder

def new (model : List Token → Except CandleError (LogProbs K)) (numBeams maxNewTokens : ℕ)
    (eosTokenId : Token) : BeamSearchDecoder K where
  model := model
  numBeams := numBeams
  lengthPenalty := 1
  maxNewTokens := maxNewTokens
  eosTokenId := eosTokenId

def withLengthPenalty (decoder : BeamSearchDecoder K) (penalty : K) : BeamSearchDecoder K :=
  { decoder with lengthPenalty := penalty }

variable (ranking : Ranking K) (decoder : BeamSearchDecoder K)

/-- `scores.iter().take(self.num_beams)` of the sorted `scores` -/
def likeliest (logProbs : LogProbs K) : List (ExactFloat K × Token) :=
  let scores := logProbs.entries.mapIdx fun i v => (v, UInt32.ofNat i)
  (ranking.sort (·.1) scores).take decoder.numBeams

/-- The candidate that a beam and a token make. The score of the beam is already divided by the
power of its own length. -/
def candidate (beam : Beam K) (logProb : ExactFloat K) (tokenId : Token) : Candidate K :=
  let newTokens := beam.tokens ++ [tokenId]
  let len : K := newTokens.length
  ((beam.score + logProb) / finite (ranking.powf len decoder.lengthPenalty), newTokens)

def candidatesOf (beam : Beam K) (logProbs : LogProbs K) : List (Candidate K) :=
  (decoder.likeliest ranking logProbs).map fun entry =>
    decoder.candidate ranking beam entry.1 entry.2

/-- The loop over the beams; a finished one adds nothing. -/
def allCandidates : List (Beam K) → Except CandleError (List (Candidate K))
  | [] => .ok []
  | beam :: beams =>
    if beam.finished then allCandidates beams
    else do
      let logProbs ← decoder.model beam.tokens
      let rest ← allCandidates beams
      return decoder.candidatesOf ranking beam logProbs ++ rest

def survivor (entry : Candidate K) : Beam K where
  tokens := entry.2
  score := entry.1
  finished := entry.2.getLast? == some decoder.eosTokenId

/-- Sort, truncate, and make the candidates the new beams. -/
def survivors (candidates : List (Candidate K)) : List (Beam K) :=
  ((ranking.sort (·.1) candidates).take decoder.numBeams).map decoder.survivor

/-- The loop over the steps, with those that are left. -/
def steps : ℕ → List (Beam K) → Except CandleError (List (Beam K))
  | 0, beams => .ok beams
  | n + 1, beams => do
    let candidates ← decoder.allCandidates ranking beams
    if candidates.isEmpty then
      return beams
    let beams := decoder.survivors ranking candidates
    if beams.all (·.finished) then
      return beams
    steps n beams

def start (prompt : List Token) : List (Beam K) :=
  List.replicate decoder.numBeams (Beam.new prompt)

/-- `beams.into_iter().next()` of the sorted beams -/
def best (beams : List (Beam K)) : Option (Beam K) := (ranking.sort (·.score) beams).head?

def decode (prompt : List Token) : Except CandleError (List Token) := do
  let beams ← decoder.steps ranking decoder.maxNewTokens (decoder.start prompt)
  return ((best ranking beams).map (·.tokens)).getD prompt

end BeamSearchDecoder

end Kyro
