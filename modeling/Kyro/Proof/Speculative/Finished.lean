import Kyro.Proof.Speculative.Scores

/-!
# What becomes of a finished beam

A finished beam has no candidates, and the beams after a step are candidates only. So a step that
starts from a finished beam beside an unfinished one drops the finished one, whatever its score is.
-/

namespace Kyro

open ExactFloat

namespace BeamSearchDecoder

variable {K : Type} [Field K] [LinearOrder K]

/-- The beam that `decode` takes the tokens of. -/
def Returns (ranking : Ranking K) (decoder : BeamSearchDecoder K) (prompt : List Token)
    (b : Beam K) : Prop :=
  ∃ k beams, Ends ranking decoder prompt k beams ∧ best ranking beams = some b

/-- What is returned scores at least as high as every beam that was finished during the run. -/
def Retained (ranking : Ranking K) (decoder : BeamSearchDecoder K) (prompt : List Token) : Prop :=
  ∀ b, Returns ranking decoder prompt b → ∀ j earlier, Reaches ranking decoder prompt j earlier →
    ∀ f ∈ earlier, f.finished = true → f.score ≤ b.score

/-- A beam that was finished is among the beams from then on. -/
def Kept (ranking : Ranking K) (decoder : BeamSearchDecoder K) (prompt : List Token) : Prop :=
  ∀ k beams, Reaches ranking decoder prompt k beams → ∀ j earlier, j ≤ k →
    Reaches ranking decoder prompt j earlier → ∀ f ∈ earlier, f.finished = true → f ∈ beams

/-- No step starts from a finished beam. -/
def Unmixed (ranking : Ranking K) (decoder : BeamSearchDecoder K) (prompt : List Token) : Prop :=
  ∀ j earlier after, Reaches ranking decoder prompt j earlier →
    Reaches ranking decoder prompt (j + 1) after → ∀ f ∈ earlier, f.finished = false

/-- Every finished beam that a step starts from is matched by one of the last beams. -/
def Matched (ranking : Ranking K) (decoder : BeamSearchDecoder K) (prompt : List Token) : Prop :=
  ∀ k beams, Ends ranking decoder prompt k beams → ∀ j earlier after,
    Reaches ranking decoder prompt j earlier → Reaches ranking decoder prompt (j + 1) after →
      ∀ f ∈ earlier, f.finished = true → ∃ c ∈ beams, f.score ≤ c.score

variable {ranking : Ranking K} {decoder : BeamSearchDecoder K} {prompt : List Token}

/-- With beams to search, what is returned is the sequence of one. -/
theorem decode_eq_ok_iff_returns (hbeams : 0 < decoder.numBeams) {tokens : List Token} :
    decoder.decode ranking prompt = .ok tokens ↔
      ∃ b, Returns ranking decoder prompt b ∧ b.tokens = tokens := by
  rw [decode_eq_ok_iff]
  constructor
  · rintro ⟨k, beams, hends, hreturn⟩
    have hne : beams ≠ [] := fun hnil => hbeams.ne' (hends.reached.eq_nil_iff.mp hnil)
    obtain ⟨b, hbest⟩ := exists_best ranking hne
    rw [hbest] at hreturn
    exact ⟨b, ⟨k, beams, hends, hbest⟩, hreturn⟩
  · rintro ⟨b, ⟨k, beams, hends, hbest⟩, htokens⟩
    refine ⟨k, beams, hends, ?_⟩
    rw [hbest]
    exact htokens

/-- A beam that a step starts from is not there any more after it. -/
theorem not_mem_after [IsStrictOrderedRing K] {k : ℕ} {beams after : List (Beam K)} {b : Beam K}
    (h : Reaches ranking decoder prompt k beams)
    (hafter : Reaches ranking decoder prompt (k + 1) after) (hb : b ∈ beams) : b ∉ after := by
  intro hmem
  obtain ⟨generated, hbefore⟩ := h.traced b hb
  obtain ⟨generated', hlater⟩ := hafter.traced b hmem
  have hsame : generated = generated' :=
    List.append_cancel_left (hbefore.tokens.symm.trans hlater.tokens)
  have hlength := hlater.length
  rw [← hsame, hbefore.length] at hlength
  omega

/-- **A finished beam is kept exactly in the runs with no step that starts from one.** -/
theorem kept_iff [IsStrictOrderedRing K] :
    Kept ranking decoder prompt ↔ Unmixed ranking decoder prompt := by
  constructor
  · intro hkept j earlier after hearlier hafter f hf
    refine Bool.eq_false_iff.mpr fun hfinished => ?_
    have hmem := hkept (j + 1) after hafter j earlier (Nat.le_succ j) hearlier f hf hfinished
    exact not_mem_after hearlier hafter hf hmem
  · intro hunmixed k beams hreaches j earlier hj hearlier f hf hfinished
    rcases hj.lt_or_eq with hlt | rfl
    · obtain ⟨after, hafter⟩ := hreaches.earlier hlt
      rw [hunmixed j earlier after hearlier hafter f hf] at hfinished
      cases hfinished
    · rwa [hreaches.unique hearlier]

/-- A step that starts from a finished beam needs another beam, and a step before it. -/
theorem unmixed_of_le_one (hone : decoder.numBeams ≤ 1 ∨ decoder.maxNewTokens ≤ 1) :
    Unmixed ranking decoder prompt := by
  intro j earlier after hearlier hafter f hf
  cases hafter with
  | @step _ beams candidates hreaches hj hcandidates hne =>
      cases hreaches.unique hearlier
      rcases hone with hbeams | hsteps
      · refine Bool.eq_false_iff.mpr fun hfinished => hne ?_
        have hlength : earlier.length ≤ 1 := hearlier.length_le.trans hbeams
        obtain ⟨b, rfl⟩ := List.length_eq_one_iff.mp
          (Nat.le_antisymm hlength (List.length_pos_of_mem hf))
        cases List.mem_singleton.mp hf
        rw [allCandidates_finished hfinished] at hcandidates
        cases hcandidates
        rfl
      · cases Nat.lt_one_iff.mp (hj.trans_le hsteps)
        cases hearlier
        rw [List.eq_of_mem_replicate hf]
        rfl

theorem retained_iff [IsStrictOrderedRing K] :
    Retained ranking decoder prompt ↔ Matched ranking decoder prompt := by
  have hlog : ∀ {k beams}, Reaches ranking decoder prompt k beams → ∀ b ∈ beams, b.score.IsLog :=
    fun hreaches b hb => (hreaches.traced b hb).elim fun _ htraced => htraced.score
  constructor
  · intro hretained k beams hends j earlier after hearlier _ f hf hfinished
    have hne : beams ≠ [] := by
      intro hnil
      rw [hends.reached.eq_nil_iff, ← hearlier.eq_nil_iff] at hnil
      rw [hnil] at hf
      cases hf
    obtain ⟨b, hbest⟩ := exists_best ranking hne
    exact ⟨b, (best_spec (hlog hends.reached) hbest).1,
      hretained b ⟨k, beams, hends, hbest⟩ j earlier hearlier f hf hfinished⟩
  · rintro hmatched b ⟨k, beams, hends, hbest⟩ j earlier hearlier f hf hfinished
    obtain ⟨hb, hmax⟩ := best_spec (hlog hends.reached) hbest
    rcases (hends.le hearlier).lt_or_eq with hlt | rfl
    · obtain ⟨after, hafter⟩ := hends.reached.earlier hlt
      obtain ⟨c, hc, hle⟩ := hmatched k beams hends j earlier after hearlier hafter f hf hfinished
      exact (hlog hearlier f hf).le_trans (hlog hends.reached c hc) (hlog hends.reached b hb) hle
        (hmax c hc)
    · exact hmax f (hends.reached.unique hearlier ▸ hf)

/-- **A finished hypothesis is thrown away exactly where a step starts from a finished beam.** Where
none does, the sequence that is returned scores at least as high as every beam that was finished,
and where one does, only if one of the last beams happens to. -/
theorem finished_retained_iff [IsStrictOrderedRing K] (ranking : Ranking K)
    (decoder : BeamSearchDecoder K) (prompt : List Token) :
    (Kept ranking decoder prompt ↔ Unmixed ranking decoder prompt) ∧
      (Unmixed ranking decoder prompt → Retained ranking decoder prompt) ∧
      (Retained ranking decoder prompt ↔ Matched ranking decoder prompt) := by
  refine ⟨kept_iff, fun hunmixed => retained_iff.mpr ?_, retained_iff⟩
  intro k beams _ j earlier after hearlier hafter f hf hfinished
  rw [hunmixed j earlier after hearlier hafter f hf] at hfinished
  cases hfinished

/-- The end of the sequence and one other token are the likeliest ones after the prompt; after that
one, all the tokens are equally likely. -/
def flattening (tokens : List Token) : Except CandleError (LogProbs ℚ) :=
  if tokens = [1] then
    .ok ⟨[-2, -2, -3, -3, -4, -4, -4, -4].map finite, by decide, by decide⟩
  else .ok ⟨List.replicate 8 (finite (-3)), by decide, by decide⟩

theorem finished_retained_alone : Retained Ranking.stable (new flattening 1 2 0) [1] :=
  (finished_retained_iff _ _ _).2.1 (unmixed_of_le_one (Or.inl (by decide)))

/-- The beam that is finished after the first step scores -1, and the one that is returned -4/3. -/
theorem finished_lost :
    (∃ earlier, Reaches Ranking.stable (new flattening 2 2 0) [1] 1 earlier ∧
      ⟨[1, 0], finite (-1), true⟩ ∈ earlier) ∧
    Returns Ranking.stable (new flattening 2 2 0) [1] ⟨[1, 1, 0], finite (-4 / 3), true⟩ ∧
    ¬ Retained Ranking.stable (new flattening 2 2 0) [1] := by
  have hfirst : Reaches Ranking.stable (new flattening 2 2 0) [1] 1
      [⟨[1, 0], finite (-1), true⟩, ⟨[1, 1], finite (-1), false⟩] :=
    Reaches.start.next (by decide) (by decide +kernel)
  have hsecond : Reaches Ranking.stable (new flattening 2 2 0) [1] 2
      [⟨[1, 1, 0], finite (-4 / 3), true⟩, ⟨[1, 1, 1], finite (-4 / 3), false⟩] :=
    hfirst.next (by decide) (by decide +kernel)
  have hreturns : Returns Ranking.stable (new flattening 2 2 0) [1]
      ⟨[1, 1, 0], finite (-4 / 3), true⟩ :=
    ⟨2, _, ⟨hsecond, Or.inl rfl⟩, by decide +kernel⟩
  have hfinished : (⟨[1, 0], finite (-1), true⟩ : Beam ℚ) ∈
      [⟨[1, 0], finite (-1), true⟩, ⟨[1, 1], finite (-1), false⟩] := List.mem_cons_self
  refine ⟨⟨_, hfirst, hfinished⟩, hreturns, fun hretained => ?_⟩
  have hle := hretained _ hreturns 1 _ hfirst _ hfinished rfl
  revert hle
  decide +kernel

end BeamSearchDecoder

end Kyro
