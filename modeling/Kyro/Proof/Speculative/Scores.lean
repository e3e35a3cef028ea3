import Kyro.Proof.Speculative.Beams

/-!
# What the score of a beam is

A step adds the log-probability of the new token to the score that the beam already has and divides
the sum by the power of the new length. After one step that is the sum of the log-probabilities
divided by the power of the length; from the second step on, the score that is added to has been
divided before.
-/

namespace Kyro

open ExactFloat

namespace BeamSearchDecoder

/-! ### The log-probabilities of a beam -/

section Trail

variable {K : Type} (decoder : BeamSearchDecoder K)

/-- The log-probability that the model gives a token after others. -/
def logProbAfter (tokens : List Token) (token : Token) : ExactFloat K :=
  match decoder.model tokens with
  | .ok logProbs => logProbs.entries[token.toNat]?.getD nan
  | .error _ => nan

/-- The log-probabilities of tokens that are generated one after another. -/
def trail : List Token → List Token → List (ExactFloat K)
  | _, [] => []
  | tokens, token :: rest =>
    decoder.logProbAfter tokens token :: trail (tokens ++ [token]) rest

theorem trail_snoc (tokens generated : List Token) (token : Token) :
    decoder.trail tokens (generated ++ [token]) =
      decoder.trail tokens generated ++ [decoder.logProbAfter (tokens ++ generated) token] := by
  induction generated generalizing tokens with
  | nil =>
      rw [List.append_nil]
      rfl
  | cons t rest ih =>
      rw [List.cons_append, trail, ih, trail, List.append_assoc, List.cons_append, List.cons_append,
        List.nil_append]

variable [Field K]

def total (prompt generated : List Token) : ExactFloat K := sum (decoder.trail prompt generated)

theorem total_snoc (prompt generated : List Token) (token : Token) :
    decoder.total prompt (generated ++ [token]) =
      decoder.total prompt generated + decoder.logProbAfter (prompt ++ generated) token := by
  rw [total, trail_snoc, sum_append_singleton]
  rfl

/-- What a beam is made of after so many steps. -/
structure Traced (decoder : BeamSearchDecoder K) (prompt : List Token) (k : ℕ) (beam : Beam K)
    (generated : List Token) : Prop where
  tokens : beam.tokens = prompt ++ generated
  length : generated.length = k
  score : beam.score.IsLog
  total : (decoder.total prompt generated).IsLog

theorem traced_start (prompt : List Token) : Traced decoder prompt 0 (Beam.new prompt) [] where
  tokens := (List.append_nil prompt).symm
  length := rfl
  score := .finite 0
  total := .finite 0

end Trail

variable {K : Type} [Field K] [LinearOrder K] {ranking : Ranking K}
  {decoder : BeamSearchDecoder K} {prompt : List Token}

theorem Extends.logProb_eq {parent beam : Beam K} {logProb : ExactFloat K} {token : Token}
    (h : Extends ranking decoder parent beam logProb token) :
    decoder.logProbAfter parent.tokens token = logProb := by
  obtain ⟨logProbs, hmodel, hentry⟩ := h.predicted
  rw [logProbAfter, hmodel]
  exact congrArg (·.getD nan) hentry

variable [IsStrictOrderedRing K]

theorem Extends.scale_pos {parent beam : Beam K} {logProb : ExactFloat K} {token : Token}
    (h : Extends ranking decoder parent beam logProb token) :
    0 < ranking.powf beam.tokens.length decoder.lengthPenalty :=
  ranking.scale_pos (List.length_pos_iff.mpr (by simp [h.tokens])) _

theorem Traced.extends {k : ℕ} {parent beam : Beam K} {generated : List Token}
    (hparent : Traced decoder prompt k parent generated) {logProb : ExactFloat K} {token : Token}
    (h : Extends ranking decoder parent beam logProb token) :
    Traced decoder prompt (k + 1) beam (generated ++ [token]) where
  tokens := by rw [h.tokens, hparent.tokens, List.append_assoc]
  length := by rw [List.length_append, hparent.length, List.length_singleton]
  score := by
    rw [h.score]
    exact (hparent.score.add h.isLog).div h.scale_pos
  total := by
    rw [total_snoc, ← hparent.tokens, h.logProb_eq]
    exact hparent.total.add h.isLog

theorem Reaches.traced {k : ℕ} {beams : List (Beam K)}
    (h : Reaches ranking decoder prompt k beams) :
    ∀ b ∈ beams, ∃ generated, Traced decoder prompt k b generated := by
  refine h.beams_induction (P := fun k b => ∃ generated, Traced decoder prompt k b generated) ?_ ?_
  · exact ⟨[], traced_start decoder prompt⟩
  · rintro k parent beam logProb token ⟨generated, hparent⟩ hextends
    exact ⟨generated ++ [token], hparent.extends hextends⟩

/-! ### The law -/

/-- The score is the total of the log-probabilities over the power of the length. -/
def Normalised (ranking : Ranking K) (decoder : BeamSearchDecoder K) (prompt : List Token)
    (beam : Beam K) : Prop :=
  ∃ generated, beam.tokens = prompt ++ generated ∧ beam.score =
    decoder.total prompt generated /
      finite (ranking.powf beam.tokens.length decoder.lengthPenalty)

/-- Where the beam extends generated tokens, their total is one that the division by the power of
their length has left as it was, or the new token is impossible. -/
def Undivided (ranking : Ranking K) (decoder : BeamSearchDecoder K) (prompt : List Token)
    (beam : Beam K) : Prop :=
  ∀ generated token, generated ≠ [] → beam.tokens = prompt ++ (generated ++ [token]) →
    decoder.logProbAfter (prompt ++ generated) token = negInf ∨
      decoder.total prompt generated = 0 ∨ decoder.total prompt generated = negInf ∨
        ranking.powf (prompt ++ generated).length decoder.lengthPenalty = 1

/-- A step keeps the law where it adds to the total itself. -/
theorem Extends.normalised_iff {k : ℕ} {parent beam : Beam K} {generated : List Token}
    (hparent : Traced decoder prompt k parent generated) {logProb : ExactFloat K} {token : Token}
    (h : Extends ranking decoder parent beam logProb token) :
    Normalised ranking decoder prompt beam ↔
      logProb = negInf ∨ parent.score = decoder.total prompt generated := by
  have htokens : beam.tokens = prompt ++ (generated ++ [token]) := (hparent.extends h).tokens
  have htotal : decoder.total prompt (generated ++ [token]) =
      decoder.total prompt generated + logProb := by
    rw [total_snoc, ← hparent.tokens, h.logProb_eq]
  have hlaw : Normalised ranking decoder prompt beam ↔
      parent.score + logProb = decoder.total prompt generated + logProb := by
    rw [← (hparent.score.add h.isLog).div_inj (hparent.total.add h.isLog) h.scale_pos, ← h.score,
      ← htotal]
    constructor
    · rintro ⟨other, hother, hscore⟩
      rw [htokens] at hother
      rw [hscore, List.append_cancel_left hother]
    · exact fun hscore => ⟨generated ++ [token], htokens, hscore⟩
  rw [hlaw, hparent.score.add_inj hparent.total h.isLog]

/-- A beam that follows the law has the total itself for a score where dividing changed nothing. -/
theorem Traced.score_eq_total_iff {k : ℕ} {beam : Beam K} {generated : List Token}
    (h : Traced decoder prompt k beam generated) (hgenerated : generated ≠ [])
    (hlaw : Normalised ranking decoder prompt beam) :
    beam.score = decoder.total prompt generated ↔
      decoder.total prompt generated = 0 ∨ decoder.total prompt generated = negInf ∨
        ranking.powf (prompt ++ generated).length decoder.lengthPenalty = 1 := by
  obtain ⟨other, hother, hscore⟩ := hlaw
  rw [h.tokens] at hother
  cases List.append_cancel_left hother
  have hne : beam.tokens ≠ [] := by simp [h.tokens, hgenerated]
  have hpos : 0 < ranking.powf beam.tokens.length decoder.lengthPenalty :=
    ranking.scale_pos (List.length_pos_iff.mpr hne) _
  rw [hscore, h.total.div_eq_self_iff hpos, h.tokens]

/-- **The scores follow the law exactly in the runs that add only to undivided totals.** -/
theorem scores_normalised_iff (ranking : Ranking K) (decoder : BeamSearchDecoder K)
    (prompt : List Token) :
    (∀ k beams, Reaches ranking decoder prompt (k + 1) beams →
        ∀ b ∈ beams, Normalised ranking decoder prompt b) ↔
      ∀ k beams, Reaches ranking decoder prompt (k + 1) beams →
        ∀ b ∈ beams, Undivided ranking decoder prompt b := by
  constructor
  · intro hlaw k beams hreaches b hb generated token hgenerated htokens
    obtain ⟨before, hbefore, hparents⟩ := hreaches.exists_parent
    obtain ⟨parent, hparent, logProb, token', hextends⟩ := hparents b hb
    obtain ⟨generated', htraced⟩ := hbefore.traced parent hparent
    rw [(htraced.extends hextends).tokens] at htokens
    obtain ⟨rfl, hlast⟩ := List.append_inj' (List.append_cancel_left htokens) rfl
    cases hlast
    cases k with
    | zero => exact absurd (List.length_eq_zero_iff.mp htraced.length) hgenerated
    | succ k =>
        rw [← htraced.score_eq_total_iff hgenerated (hlaw k before hbefore parent hparent),
          ← htraced.tokens, hextends.logProb_eq]
        exact (hextends.normalised_iff htraced).mp (hlaw _ beams hreaches b hb)
  · intro hundivided k
    -- the first step adds to the score zero of the prompt, every other one to a score of the law
    induction k with
    | zero =>
        intro beams hreaches b hb
        obtain ⟨before, hbefore, hparents⟩ := hreaches.exists_parent
        obtain ⟨parent, hparent, logProb, token, hextends⟩ := hparents b hb
        cases hbefore
        cases List.eq_of_mem_replicate hparent
        exact (hextends.normalised_iff (traced_start decoder prompt)).mpr (Or.inr rfl)
    | succ k ih =>
        intro beams hreaches b hb
        obtain ⟨before, hbefore, hparents⟩ := hreaches.exists_parent
        obtain ⟨parent, hparent, logProb, token, hextends⟩ := hparents b hb
        obtain ⟨generated, htraced⟩ := hbefore.traced parent hparent
        have hgenerated : generated ≠ [] := by
          rintro rfl
          exact absurd htraced.length (Nat.succ_ne_zero k).symm
        rw [hextends.normalised_iff htraced,
          htraced.score_eq_total_iff hgenerated (ih before hbefore parent hparent),
          ← hextends.logProb_eq, htraced.tokens]
        exact hundivided _ beams hreaches b hb generated token hgenerated
          (htraced.extends hextends).tokens

/-- Two tokens are equally likely after anything. -/
def evenModel (_ : List Token) : Except CandleError (LogProbs ℚ) :=
  .ok ⟨[finite (-1), finite (-1)], by decide, by decide⟩

/-- Without a length penalty nothing is ever divided. -/
theorem scores_normalised_flat :
    ((new evenModel 2 3 9).withLengthPenalty 0).maxNewTokens = 3 ∧ ∀ k beams,
      Reaches Ranking.stable ((new evenModel 2 3 9).withLengthPenalty 0) [0] (k + 1) beams →
        ∀ b ∈ beams,
          Normalised Ranking.stable ((new evenModel 2 3 9).withLengthPenalty 0) [0] b := by
  refine ⟨rfl, (scores_normalised_iff _ _ _).mpr ?_⟩
  intro k beams _ b _ generated token _ _
  exact Or.inr (Or.inr (Or.inr (zpow_zero _)))

/-- One beam, two steps: the score stays at a half where the law has two thirds. -/
theorem scores_drift : ∃ beams, Reaches Ranking.stable (new evenModel 1 2 9) [0] 2 beams ∧
    ∃ b ∈ beams, ¬ Normalised Ranking.stable (new evenModel 1 2 9) [0] b := by
  have hfirst : Reaches Ranking.stable (new evenModel 1 2 9) [0] 1
      [⟨[0, 0], finite (-1 / 2), false⟩] :=
    Reaches.start.next (by decide) (by decide +kernel)
  have hsecond : Reaches Ranking.stable (new evenModel 1 2 9) [0] 2
      [⟨[0, 0, 0], finite (-1 / 2), false⟩] :=
    hfirst.next (by decide) (by decide +kernel)
  refine ⟨_, hsecond, _, List.mem_singleton_self _, ?_⟩
  rintro ⟨generated, htokens, hscore⟩
  have hgenerated : [0, 0] = generated := (List.cons.inj htokens).2
  subst hgenerated
  revert hscore
  decide +kernel

end BeamSearchDecoder

end Kyro
