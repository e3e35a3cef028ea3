import Kyro.Proof.Speculative.Beams

/-!
# Any number of beams is greedy

The beams of a `decode` start as copies of the prompt. Where one token is likelier than all others,
each copy makes the same best candidate, there are as many of these as there are places, and they
fill all of them: the beams are copies again. So as long as no tie decides, a beam search of any
width, with any length penalty and any sort, does what greedy decoding does.
-/

namespace Kyro

open ExactFloat TopK

/-- The token is likelier than every other one. -/
structure LogProbs.Decisive {K : Type} [LinearOrder K] (logProbs : LogProbs K) (token : Token)
    (logProb : K) : Prop where
  entry : logProbs.entries[token.toNat]? = some (finite logProb)
  largest : ∀ i v, i ≠ token.toNat → logProbs.entries[i]? = some v → v < finite logProb

namespace BeamSearchDecoder

variable {K : Type} [Field K] [LinearOrder K] {ranking : Ranking K} {decoder : BeamSearchDecoder K}

/-- What greedy decoding gives for so many steps from some tokens on. -/
inductive Greedy (decoder : BeamSearchDecoder K) :
    ℕ → List Token → Except CandleError (List Token) → Prop
  | spent (tokens : List Token) : Greedy decoder 0 tokens (.ok tokens)
  | failed {n : ℕ} {tokens : List Token} {e : CandleError}
      (hmodel : decoder.model tokens = .error e) :
      Greedy decoder (n + 1) tokens (.error e)
  | nothing {n : ℕ} {tokens : List Token} {logProbs : LogProbs K}
      (hmodel : decoder.model tokens = .ok logProbs) (hempty : logProbs.entries = []) :
      Greedy decoder (n + 1) tokens (.ok tokens)
  | stop {n : ℕ} {tokens : List Token} {logProbs : LogProbs K} {logProb : K}
      (hmodel : decoder.model tokens = .ok logProbs)
      (hdecisive : logProbs.Decisive decoder.eosTokenId logProb) :
      Greedy decoder (n + 1) tokens (.ok (tokens ++ [decoder.eosTokenId]))
  | step {n : ℕ} {tokens : List Token} {logProbs : LogProbs K} {token : Token} {logProb : K}
      {result : Except CandleError (List Token)} (hmodel : decoder.model tokens = .ok logProbs)
      (hdecisive : logProbs.Decisive token logProb) (hgoes : token ≠ decoder.eosTokenId)
      (hrest : Greedy decoder n (tokens ++ [token]) result) :
      Greedy decoder (n + 1) tokens result

/-! ### Copies of a beam -/

theorem allCandidates_copies {beam : Beam K} (hunfinished : beam.finished = false)
    {logProbs : LogProbs K} (hmodel : decoder.model beam.tokens = .ok logProbs) (n : ℕ) :
    decoder.allCandidates ranking (List.replicate n beam) =
      .ok (List.replicate n (decoder.candidatesOf ranking beam logProbs)).flatten := by
  induction n with
  | zero => rfl
  | succ n ih =>
      rw [List.replicate_succ, List.replicate_succ, List.flatten_cons]
      exact (allCandidates_unfinished hunfinished).mpr ⟨logProbs, hmodel, _, ih, rfl⟩

theorem allCandidates_copies_error {beam : Beam K} (hunfinished : beam.finished = false)
    {e : CandleError} (hmodel : decoder.model beam.tokens = .error e) {n : ℕ} (hn : 0 < n) :
    decoder.allCandidates ranking (List.replicate n beam) = .error e := by
  obtain ⟨n, rfl⟩ := Nat.exists_eq_succ_of_ne_zero hn.ne'
  have hnot : ¬ beam.finished = true := by simp [hunfinished]
  rw [List.replicate_succ, allCandidates, if_neg hnot, hmodel]
  rfl

theorem best_copies (ranking : Ranking K) (beam : Beam K) {n : ℕ} (hn : 0 < n) :
    best ranking (List.replicate n beam) = some beam := by
  have hne : List.replicate n beam ≠ [] := List.length_pos_iff.mp (by simpa using hn)
  obtain ⟨b, hbest⟩ := exists_best ranking hne
  have hmem : b ∈ List.replicate n beam := ranking.mem_sort.mp (List.mem_of_mem_head? hbest)
  rw [hbest, List.eq_of_mem_replicate hmem]

/-! ### One step -/

theorem mem_likeliest_of_decisive {logProbs : LogProbs K} {token : Token} {logProb : K}
    (h : logProbs.Decisive token logProb) (hbeams : 0 < decoder.numBeams) :
    (finite logProb, token) ∈ decoder.likeliest ranking logProbs := by
  obtain ⟨hlt, hentry⟩ := List.getElem?_eq_some_iff.mp h.entry
  have hscore : (finite logProb, token) ∈
      logProbs.entries.mapIdx fun i v => (v, UInt32.ofNat i) :=
    List.mem_mapIdx.mpr ⟨token.toNat, hlt, by rw [hentry, UInt32.ofNat_toNat]⟩
  have hlogs : ∀ entry ∈ logProbs.entries.mapIdx fun i v => (v, UInt32.ofNat i),
      entry.1.IsLog := by
    intro entry hmem
    obtain ⟨i, hi, rfl⟩ := List.mem_mapIdx.mp hmem
    exact logProbs.isLog _ (List.getElem_mem hi)
  have hsorted : (finite logProb, token) ∈ ranking.sort (fun entry => entry.1)
      (logProbs.entries.mapIdx fun i v => (v, UInt32.ofNat i)) := ranking.mem_sort.mpr hscore
  obtain ⟨head, rest, hcons⟩ := List.exists_cons_of_ne_nil (List.ne_nil_of_mem hsorted)
  have hdescending := ranking.sort_descending hlogs
  rw [hcons] at hdescending
  -- nothing ranks as high as the token, so it is the head
  have hle := hdescending.head_le _ (hcons ▸ hsorted)
  have hhead : head ∈ logProbs.entries.mapIdx fun i v => (v, UInt32.ofNat i) :=
    ranking.mem_sort.mp (hcons ▸ List.mem_cons_self)
  obtain ⟨i, hi, rfl⟩ := List.mem_mapIdx.mp hhead
  have hindex : i = token.toNat := by
    by_contra hne
    have hless := h.largest i _ hne (List.getElem?_eq_getElem hi)
    rw [lt_iff_rank_lt (logProbs.isLog _ (List.getElem_mem hi)).ne_nan] at hless
    exact absurd hle (not_le.mpr hless)
  subst hindex
  obtain ⟨n, hn⟩ := Nat.exists_eq_succ_of_ne_zero hbeams.ne'
  rw [likeliest, hcons, hn, List.take_succ_cons, hentry, UInt32.ofNat_toNat]
  exact List.mem_cons_self

variable [IsStrictOrderedRing K]

/-- The candidate of the likeliest token ranks above the others. -/
theorem eq_or_lt_of_decisive {logProbs : LogProbs K} {token : Token} {logProb : K}
    (h : logProbs.Decisive token logProb) {beam : Beam K} {score : K}
    (hscore : beam.score = finite score) {c : Candidate K}
    (hc : c ∈ decoder.candidatesOf ranking beam logProbs) :
    c = decoder.candidate ranking beam (finite logProb) token ∨
      c.1.rank < (decoder.candidate ranking beam (finite logProb) token).1.rank := by
  obtain ⟨⟨v, other⟩, hmem, rfl⟩ := List.mem_map.mp hc
  have hentry := entry_of_mem_likeliest hmem
  have hlog : v.IsLog := likeliest_isLog hmem
  dsimp only at hentry ⊢
  by_cases hother : other = token
  · left
    rw [hother, h.entry] at hentry
    rw [hother, ← Option.some.inj hentry]
  · right
    have hindex : other.toNat ≠ token.toNat := fun heq => hother (UInt32.toNat_inj.mp heq)
    have hless : v < finite logProb := h.largest _ _ hindex hentry
    have hsum : finite score + v < finite score + finite logProb := by
      cases hlog with
      | finite a => exact finite_lt_finite.mpr (add_lt_add_right (finite_lt_finite.mp hless) score)
      | negInf => rfl
    have hlogs : (finite score + v).IsLog := (IsLog.finite score).add hlog
    have hpos : 0 < ranking.powf ((beam.tokens.length + 1 : ℕ) : K) decoder.lengthPenalty :=
      ranking.scale_pos (Nat.succ_pos _) _
    rw [candidate, candidate]
    dsimp only
    rw [hscore, List.length_append, List.length_append, List.length_singleton,
      List.length_singleton, ← lt_iff_rank_lt (hlogs.div hpos).ne_nan]
    exact (hlogs.div_lt_div_iff ((IsLog.finite score).add (.finite logProb)) hpos).mpr hsum

/-- The copies of a beam are followed by copies of the one with the likeliest token. -/
theorem survivors_copies {logProbs : LogProbs K} {token : Token} {logProb : K}
    (h : logProbs.Decisive token logProb) (hbeams : 0 < decoder.numBeams) {beam : Beam K}
    {score : K} (hscore : beam.score = finite score) :
    ∃ next, decoder.survivors ranking (List.replicate decoder.numBeams
        (decoder.candidatesOf ranking beam logProbs)).flatten =
      List.replicate decoder.numBeams
        ⟨beam.tokens ++ [token], finite next, token == decoder.eosTokenId⟩ := by
  set top := decoder.candidate ranking beam (finite logProb) token with htop
  have hmem : top ∈ decoder.candidatesOf ranking beam logProbs :=
    List.mem_map_of_mem (mem_likeliest_of_decisive h hbeams)
  set candidates :=
    (List.replicate decoder.numBeams (decoder.candidatesOf ranking beam logProbs)).flatten
    with hcandidates
  have hranks : ∀ c ∈ candidates, c = top ∨ c.1.rank < top.1.rank :=
    fun c hc => eq_or_lt_of_decisive h hscore ((mem_rounds hbeams).mp hc)
  have hlogs : ∀ c ∈ candidates, c.1.IsLog := by
    intro c hc
    obtain ⟨entry, hentry, rfl⟩ := List.mem_map.mp ((mem_rounds hbeams).mp hc)
    refine IsLog.div ?_ (ranking.scale_pos (List.length_pos_iff.mpr ?_) _)
    · rw [hscore]
      exact (IsLog.finite score).add (likeliest_isLog hentry)
    · exact List.append_ne_nil_of_right_ne_nil _ (List.cons_ne_nil _ _)
  have hfront : (ranking.sort (·.1) candidates).take decoder.numBeams =
      List.replicate decoder.numBeams top := by
    rw [List.eq_replicate_iff]
    constructor
    · rw [ranking.length_take_sort, hcandidates, length_rounds]
      exact Nat.min_eq_left (Nat.le_mul_of_pos_right _ (List.length_pos_of_mem hmem))
    · intro c hc
      have hcount : decoder.numBeams ≤ (ranking.sort (·.1) candidates).countP
          fun c => decide (top.1.rank ≤ c.1.rank) := by
        rw [(ranking.sort_perm _ _).countP_eq]
        exact le_countP_rounds hmem (decide_eq_true (le_refl _)) _
      have hle := (ranking.sort_descending hlogs).le_of_mem_take hcount c hc
      exact (hranks c (ranking.mem_of_mem_take_sort hc)).resolve_right (not_lt.mpr hle)
  refine ⟨(score + logProb) / ranking.powf ((beam.tokens ++ [token]).length : K)
    decoder.lengthPenalty, ?_⟩
  have hpos : 0 < ranking.powf ((beam.tokens ++ [token]).length : K) decoder.lengthPenalty :=
    ranking.scale_pos (List.length_pos_iff.mpr
      (List.append_ne_nil_of_right_ne_nil _ (List.cons_ne_nil _ _))) _
  have hvalue : top.1 = finite ((score + logProb) /
      ranking.powf ((beam.tokens ++ [token]).length : K) decoder.lengthPenalty) := by
    rw [htop, candidate]
    dsimp only
    rw [hscore]
    exact finite_div_finite hpos.ne'
  rw [survivors, hfront, List.map_replicate, survivor, hvalue]
  have hlast : (beam.tokens ++ [token]).getLast? = some token := List.getLast?_concat
  have htokens : top.2 = beam.tokens ++ [token] := rfl
  rw [htokens, hlast]
  rfl

/-! ### The run -/

theorem steps_decisive (hbeams : 0 < decoder.numBeams) {tokens : List Token}
    {logProbs : LogProbs K} (hmodel : decoder.model tokens = .ok logProbs) {token : Token}
    {logProb : K} (h : logProbs.Decisive token logProb) (score : K) (n : ℕ) :
    ∃ next, decoder.steps ranking (n + 1)
        (List.replicate decoder.numBeams ⟨tokens, finite score, false⟩) =
      decoder.steps ranking n (List.replicate decoder.numBeams
        ⟨tokens ++ [token], finite next, token == decoder.eosTokenId⟩) := by
  have hcandidates : decoder.allCandidates ranking
      (List.replicate decoder.numBeams ⟨tokens, finite score, false⟩) = .ok _ :=
    allCandidates_copies rfl hmodel decoder.numBeams
  obtain ⟨next, hnext⟩ := survivors_copies h hbeams
    (show (⟨tokens, finite score, false⟩ : Beam K).score = finite score from rfl)
  refine ⟨next, ?_⟩
  rw [steps_step hcandidates ?_, hnext]
  apply List.ne_nil_of_mem
  exact (mem_rounds hbeams).mpr (List.mem_map_of_mem (mem_likeliest_of_decisive h hbeams))

theorem steps_greedy (hbeams : 0 < decoder.numBeams) {n : ℕ} {tokens : List Token}
    {result : Except CandleError (List Token)} (h : Greedy decoder n tokens result) (score : K)
    (prompt : List Token) :
    (decoder.steps ranking n (List.replicate decoder.numBeams ⟨tokens, finite score, false⟩) >>=
      fun beams => .ok (((best ranking beams).map (·.tokens)).getD prompt)) = result := by
  induction h generalizing score with
  | spent tokens =>
      rw [steps, Machine.ok_bind, best_copies ranking _ hbeams]
      rfl
  | failed hmodel =>
      rw [steps, allCandidates_copies_error rfl hmodel hbeams]
      rfl
  | @nothing n tokens logProbs hmodel hempty =>
      have hnone : decoder.candidatesOf ranking ⟨tokens, finite score, false⟩ logProbs = [] := by
        rw [candidatesOf, List.map_eq_nil_iff, ← List.length_eq_zero_iff, length_likeliest, hempty]
        exact Nat.min_zero _
      have hcandidates : decoder.allCandidates ranking
          (List.replicate decoder.numBeams ⟨tokens, finite score, false⟩) = .ok _ :=
        allCandidates_copies rfl hmodel decoder.numBeams
      rw [hnone, List.flatten_replicate_nil] at hcandidates
      rw [steps_done hcandidates, Machine.ok_bind, best_copies ranking _ hbeams]
      rfl
  | @stop n tokens logProbs logProb hmodel hdecisive =>
      obtain ⟨next, hnext⟩ := steps_decisive hbeams hmodel hdecisive score n
      rw [hnext, beq_self_eq_true, steps_done (allCandidates_of_finished ?_), Machine.ok_bind,
        best_copies ranking _ hbeams]
      · rfl
      · intro b hb
        rw [List.eq_of_mem_replicate hb]
  | @step n tokens logProbs token logProb result hmodel hdecisive hgoes hrest ih =>
      obtain ⟨next, hnext⟩ := steps_decisive hbeams hmodel hdecisive score n
      rw [hnext, beq_eq_false_iff_ne.mpr hgoes]
      exact ih next

/-- **Beam search is greedy.** As long as every next token is decided, a beam search of any width
returns what greedy decoding gives. -/
theorem decode_greedy (ranking : Ranking K) (hbeams : 0 < decoder.numBeams) {prompt : List Token}
    {result : Except CandleError (List Token)}
    (h : Greedy decoder decoder.maxNewTokens prompt result) :
    decoder.decode ranking prompt = result :=
  steps_greedy hbeams h 0 prompt

/-- The second of three tokens for as long as there are fewer than three, and then the third. -/
def rising (tokens : List Token) : Except CandleError (LogProbs ℚ) :=
  if tokens.length < 3 then .ok ⟨[finite (-2), finite (-1), finite (-3)], by decide, by decide⟩
  else .ok ⟨[finite (-2), finite (-3), finite (-1)], by decide, by decide⟩

/-- Three beams, and the end of the sequence before the steps are used up. -/
theorem decode_greedy_of_three :
    (new rising 3 5 2).decode Ranking.stable [7] = .ok [7, 1, 1, 2] := by
  have hsecond : (⟨[finite (-2), finite (-1), finite (-3)], by decide, by decide⟩ :
      LogProbs ℚ).Decisive 1 (-1) := by
    refine ⟨rfl, fun i v hne hv => ?_⟩
    obtain ⟨hlt, rfl⟩ := List.getElem?_eq_some_iff.mp hv
    have hindex : i = 0 ∨ i = 2 := by
      have hthree : i < 3 := hlt
      have hone : i ≠ 1 := hne
      omega
    rcases hindex with rfl | rfl
    · show finite (-2 : ℚ) < finite (-1)
      decide
    · show finite (-3 : ℚ) < finite (-1)
      decide
  have hthird : (⟨[finite (-2), finite (-3), finite (-1)], by decide, by decide⟩ :
      LogProbs ℚ).Decisive 2 (-1) := by
    refine ⟨rfl, fun i v hne hv => ?_⟩
    obtain ⟨hlt, rfl⟩ := List.getElem?_eq_some_iff.mp hv
    have hindex : i = 0 ∨ i = 1 := by
      have hthree : i < 3 := hlt
      have htwo : i ≠ 2 := hne
      omega
    rcases hindex with rfl | rfl
    · show finite (-2 : ℚ) < finite (-1)
      decide
    · show finite (-3 : ℚ) < finite (-1)
      decide
  exact decode_greedy Ranking.stable (by decide)
    (.step rfl hsecond (by decide) (.step rfl hsecond (by decide) (.stop rfl hthird)))

end BeamSearchDecoder

end Kyro
