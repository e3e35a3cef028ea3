import Kyro.Proof.Speculative.Scores

/-!
# Whether the beams are different

Different beams have different candidates, and so the beams of a step are different if those before
it are. The first step starts from copies of the prompt. Each of them has the same candidates, and
each candidate is there once for every beam, so that the copies of a best one are enough to fill the
places, and the beams of every later step are what greedy decoding gives, over and over. Only where
enough tokens share the greatest log-probability can different candidates stand in front. There they
do with a sort that leaves equal elements in their order, and need not with another.
-/

namespace Kyro

open ExactFloat TopK

namespace BeamSearchDecoder

variable {K : Type} [Field K] [LinearOrder K] {ranking : Ranking K}
  {decoder : BeamSearchDecoder K}

/-- The beams are pairwise different sequences. -/
def Distinct (beams : List (Beam K)) : Prop := (beams.map (·.tokens)).Nodup

instance (beams : List (Beam K)) : Decidable (Distinct beams) :=
  inferInstanceAs (Decidable (List.Nodup _))

/-! ### A step from different beams -/

theorem nodup_candidatesOf (beam : Beam K) (logProbs : LogProbs K) :
    ((decoder.candidatesOf ranking beam logProbs).map (·.2)).Nodup := by
  have htokens : (decoder.candidatesOf ranking beam logProbs).map (·.2) =
      ((decoder.likeliest ranking logProbs).map (·.2)).map fun token => beam.tokens ++ [token] := by
    rw [candidatesOf, List.map_map, List.map_map]
    rfl
  rw [htokens]
  refine (nodup_likeliest ranking decoder logProbs).map fun a b heq => ?_
  exact List.singleton_injective (List.append_cancel_left heq)

theorem tokens_of_mem_candidatesOf {beam : Beam K} {logProbs : LogProbs K} {c : Candidate K}
    (hc : c ∈ decoder.candidatesOf ranking beam logProbs) :
    ∃ token, c.2 = beam.tokens ++ [token] := by
  obtain ⟨entry, _, rfl⟩ := List.mem_map.mp hc
  exact ⟨entry.2, rfl⟩

/-- Candidates of different beams differ in the beam, those of one in the token. -/
theorem Distinct.nodup_allCandidates {beams : List (Beam K)} (h : Distinct beams)
    {candidates : List (Candidate K)}
    (hcandidates : decoder.allCandidates ranking beams = .ok candidates) :
    (candidates.map (·.2)).Nodup := by
  induction beams generalizing candidates with
  | nil =>
      cases hcandidates
      exact List.nodup_nil
  | cons beam beams ih =>
      obtain ⟨hbeam, hbeams⟩ := List.nodup_cons.mp h
      cases hfinished : beam.finished with
      | true =>
          rw [allCandidates_finished hfinished] at hcandidates
          exact ih hbeams hcandidates
      | false =>
          obtain ⟨logProbs, _, rest, hrest, rfl⟩ :=
            (allCandidates_unfinished hfinished).mp hcandidates
          rw [List.map_append]
          refine (nodup_candidatesOf beam logProbs).append (ih hbeams hrest) ?_
          intro tokens hown hother
          obtain ⟨c, hc, rfl⟩ := List.mem_map.mp hown
          obtain ⟨c', hc', heq⟩ := List.mem_map.mp hother
          obtain ⟨token, htokens⟩ := tokens_of_mem_candidatesOf hc
          obtain ⟨parent, hparent, _, _, _, hc''⟩ := exists_of_mem_allCandidates hrest hc'
          obtain ⟨token', htokens'⟩ := tokens_of_mem_candidatesOf hc''
          have hsame : parent.tokens ++ [token'] = beam.tokens ++ [token] :=
            htokens'.symm.trans (heq.trans htokens)
          exact hbeam (List.mem_map.mpr ⟨parent, hparent, (List.append_inj' hsame rfl).1⟩)

theorem map_tokens_survivors (candidates : List (Candidate K)) :
    (decoder.survivors ranking candidates).map (·.tokens) =
      ((ranking.sort (·.1) candidates).take decoder.numBeams).map (·.2) := by
  rw [survivors, List.map_map]
  rfl

theorem distinct_survivors {candidates : List (Candidate K)}
    (h : (candidates.map (·.2)).Nodup) : Distinct (decoder.survivors ranking candidates) := by
  rw [Distinct, map_tokens_survivors]
  exact (((ranking.sort_perm _ _).map _).nodup_iff.mpr h).sublist ((List.take_sublist _ _).map _)

/-- **A step from different beams leaves different ones.** -/
theorem Distinct.survivors {beams : List (Beam K)} (h : Distinct beams)
    {candidates : List (Candidate K)}
    (hcandidates : decoder.allCandidates ranking beams = .ok candidates) :
    Distinct (decoder.survivors ranking candidates) :=
  distinct_survivors (h.nodup_allCandidates hcandidates)

/-! ### The first step -/

/-- The candidates of the first step: every copy of the prompt has the same. -/
def firstCandidates (ranking : Ranking K) (decoder : BeamSearchDecoder K) (prompt : List Token)
    (logProbs : LogProbs K) : List (Candidate K) :=
  (List.replicate decoder.numBeams
    (decoder.candidatesOf ranking (Beam.new prompt) logProbs)).flatten

theorem allCandidates_start (ranking : Ranking K) {prompt : List Token} {logProbs : LogProbs K}
    (hprompt : decoder.model prompt = .ok logProbs) :
    decoder.allCandidates ranking (decoder.start prompt) =
      .ok (firstCandidates ranking decoder prompt logProbs) := by
  have hrounds : ∀ n, decoder.allCandidates ranking (List.replicate n (Beam.new prompt)) =
      .ok (List.replicate n
        (decoder.candidatesOf ranking (Beam.new prompt) logProbs)).flatten := by
    intro n
    induction n with
    | zero => rfl
    | succ n ih =>
        rw [List.replicate_succ, List.replicate_succ, List.flatten_cons]
        exact (allCandidates_unfinished rfl).mpr ⟨logProbs, hprompt, _, ih, rfl⟩
  exact hrounds decoder.numBeams

variable {prompt : List Token} {logProbs : LogProbs K}

theorem score_first (logProb : ExactFloat K) (token : Token) :
    (decoder.candidate ranking (Beam.new prompt) logProb token).1 =
      logProb / finite (ranking.powf ((prompt.length + 1 : ℕ) : K) decoder.lengthPenalty) := by
  have hscore : (decoder.candidate ranking (Beam.new prompt) logProb token).1 = (0 + logProb) /
      finite (ranking.powf ((prompt ++ [token]).length : K) decoder.lengthPenalty) := rfl
  rw [hscore, zero_add_eq, List.length_append]
  rfl

/-! ### Which tokens tie -/

/-- At least `n` entries share the greatest log-probability of the row. -/
def Tied (n : ℕ) (logProbs : LogProbs K) : Prop :=
  ∃ v, (∀ u ∈ logProbs.entries, u ≤ v) ∧ n ≤ logProbs.entries.count v

/-- The log-probabilities of the likeliest tokens are the first ones of the sorted row. -/
theorem exists_values (ranking : Ranking K) (decoder : BeamSearchDecoder K)
    (logProbs : LogProbs K) : ∃ values, values.Perm logProbs.entries ∧
      Descending rank values ∧
      (decoder.likeliest ranking logProbs).map (·.1) = values.take decoder.numBeams := by
  have hperm := (ranking.sort_perm (fun entry : ExactFloat K × Token => entry.1)
    (logProbs.entries.mapIdx fun i v => (v, UInt32.ofNat i))).map (·.1)
  have hentries : (logProbs.entries.mapIdx fun i v => (v, UInt32.ofNat i)).map (·.1) =
      logProbs.entries := List.ext_getElem (by simp) fun i _ _ => by simp
  rw [hentries] at hperm
  refine ⟨_, hperm, ?_, List.map_take⟩
  refine List.pairwise_map.mpr (ranking.sort_descending fun entry hentry => ?_)
  exact logProbs.isLog _ (hentries ▸ List.mem_map_of_mem hentry)

/-- The likeliest tokens all tie exactly if the row has as many best entries as there are beams. -/
theorem tied_iff_likeliest (hbeams : 0 < decoder.numBeams)
    (hlength : decoder.numBeams ≤ logProbs.entries.length) :
    Tied decoder.numBeams logProbs ↔ ∀ a ∈ decoder.likeliest ranking logProbs,
      ∀ b ∈ decoder.likeliest ranking logProbs, a.1 = b.1 := by
  obtain ⟨values, hperm, hdescending, hlikeliest⟩ := exists_values ranking decoder logProbs
  have hne : ∀ u ∈ logProbs.entries, u ≠ nan := fun u hu => (logProbs.isLog u hu).ne_nan
  have hcount : ∀ v, logProbs.entries.count v =
      values.countP fun u => decide (u.rank = v.rank) := by
    intro v
    rw [← hperm.count_eq, List.count_eq_countP]
    exact List.countP_congr fun u _ => by simp [rank_injective.eq_iff]
  have hties : (∀ a ∈ decoder.likeliest ranking logProbs,
      ∀ b ∈ decoder.likeliest ranking logProbs, a.1 = b.1) ↔
      ∀ u ∈ values.take decoder.numBeams, ∀ v ∈ values.take decoder.numBeams, u.rank = v.rank := by
    simp only [← hlikeliest, List.forall_mem_map, rank_injective.eq_iff]
  rw [hties, hdescending.take_ties_iff hbeams (hperm.length_eq ▸ hlength)]
  constructor
  · rintro ⟨v, hle, hn⟩
    have hv : v ∈ logProbs.entries := List.count_pos_iff.mp (hbeams.trans_le hn)
    refine ⟨v.rank, fun u hu => ?_, hcount v ▸ hn⟩
    have hu := hperm.mem_iff.mp hu
    exact (le_iff_rank_le (hne u hu) (hne v hv)).mp (hle u hu)
  · rintro ⟨bound, hle, hn⟩
    obtain ⟨v, hv, hrank⟩ := List.countP_pos_iff.mp (hbeams.trans_le hn)
    obtain rfl := of_decide_eq_true hrank
    refine ⟨v, fun u hu => ?_, (hcount v).symm ▸ hn⟩
    exact (le_iff_rank_le (hne u hu) (hne v (hperm.mem_iff.mp hv))).mpr
      (hle u (hperm.mem_iff.mpr hu))

/-! ### All the states of a run -/

/-- The beams of every state after a step are different. -/
def AlwaysDistinct (ranking : Ranking K) (decoder : BeamSearchDecoder K) (prompt : List Token) :
    Prop :=
  ∀ k beams, Reaches ranking decoder prompt (k + 1) beams → Distinct beams

theorem firstCandidates_ne_nil (hbeams : 0 < decoder.numBeams)
    (hlength : decoder.numBeams ≤ logProbs.entries.length) :
    firstCandidates ranking decoder prompt logProbs ≠ [] := by
  rw [← List.length_pos_iff, firstCandidates, length_rounds, candidatesOf, List.length_map,
    length_likeliest, Nat.min_eq_left hlength]
  exact Nat.mul_pos hbeams hbeams

/-- Since a step from different beams leaves different ones, the first step decides. -/
theorem alwaysDistinct_iff_first (hbeams : 0 < decoder.numBeams)
    (hprompt : decoder.model prompt = .ok logProbs)
    (hlength : decoder.numBeams ≤ logProbs.entries.length) :
    AlwaysDistinct ranking decoder prompt ↔ decoder.maxNewTokens = 0 ∨
      Distinct (decoder.survivors ranking (firstCandidates ranking decoder prompt logProbs)) := by
  have hfirst := allCandidates_start ranking hprompt
  constructor
  · intro hdistinct
    rcases Nat.eq_zero_or_pos decoder.maxNewTokens with hzero | hsteps
    · exact Or.inl hzero
    · exact Or.inr (hdistinct 0 _
        (Reaches.start.step hsteps hfirst (firstCandidates_ne_nil hbeams hlength)))
  · intro hcondition k
    induction k with
    | zero =>
        intro beams hreaches
        have hsteps := hreaches.le_maxNewTokens
        cases hreaches with
        | step hstart _ hcandidates _ =>
            cases hstart
            rw [hfirst] at hcandidates
            cases hcandidates
            exact hcondition.resolve_left (by omega)
    | succ k ih =>
        intro beams hreaches
        cases hreaches with
        | step hbefore _ hcandidates _ => exact (ih _ hbefore).survivors hcandidates

/-! ### Sorts that repeat -/

/-- A sorted arrangement with one element twice in front. -/
structure Doubled {α : Type} (key : α → ExactFloat K) (xs ys : List α) : Prop where
  perm : ys.Perm xs
  sorted : (∀ x ∈ xs, key x ≠ nan) → ys.Pairwise fun a b => ¬ key a < key b
  front : ∃ x rest, ys = x :: x :: rest

theorem exists_doubled (ranking : Ranking K) {α : Type} (key : α → ExactFloat K) {xs : List α}
    (hne : xs ≠ []) (htwice : ∀ x ∈ xs, ∀ ys, (x :: ys).Perm xs → x ∈ ys) :
    ∃ ys, Doubled key xs ys := by
  classical
  have hperm := ranking.sort_perm key xs
  have hsorted := ranking.sort_sorted key xs
  cases hsort : ranking.sort key xs with
  | nil => exact absurd (hsort ▸ hperm).nil_eq.symm hne
  | cons x rest =>
      rw [hsort] at hperm hsorted
      have hrest : x ∈ rest := htwice x (hperm.subset List.mem_cons_self) rest hperm
      refine ⟨x :: x :: rest.erase x, ?_, fun hkey => ?_, x, _, rfl⟩
      · exact ((List.perm_cons_erase hrest).symm.cons x).trans hperm
      · obtain ⟨hhead, htail⟩ := List.pairwise_cons.mp (hsorted hkey)
        have herase : ∀ y ∈ rest.erase x, ¬ key x < key y :=
          fun y hy => hhead y (List.mem_of_mem_erase hy)
        refine List.pairwise_cons.mpr ⟨?_, List.pairwise_cons.mpr
          ⟨herase, htail.sublist List.erase_sublist⟩⟩
        intro y hy
        rcases List.mem_cons.mp hy with rfl | hy
        · exact not_lt_self _
        · exact herase y hy

open Classical in
/-- The order that puts one element twice in front wherever a sorted arrangement can. -/
noncomputable def doubling (ranking : Ranking K) : Ranking K where
  powf := ranking.powf
  powf_pos := ranking.powf_pos
  sort key xs := if h : ∃ ys, Doubled key xs ys then h.choose else ranking.sort key xs
  sort_perm key xs := by
    by_cases h : ∃ ys, Doubled key xs ys
    · rw [dif_pos h]
      exact h.choose_spec.perm
    · rw [dif_neg h]
      exact ranking.sort_perm key xs
  sort_sorted key xs := by
    by_cases h : ∃ ys, Doubled key xs ys
    · rw [dif_pos h]
      exact h.choose_spec.sorted
    · rw [dif_neg h]
      exact ranking.sort_sorted key xs

/-- With two beams or more there are two copies of each candidate, and some sort starts with both
copies of a best one. -/
theorem not_distinct_doubling (hbeams : 2 ≤ decoder.numBeams)
    (hlength : decoder.numBeams ≤ logProbs.entries.length) :
    ¬ Distinct (decoder.survivors (doubling ranking)
      (firstCandidates (doubling ranking) decoder prompt logProbs)) := by
  classical
  have hpos : 0 < decoder.numBeams := Nat.zero_lt_of_lt hbeams
  have hdoubled : ∃ ys, Doubled (fun c : Candidate K => c.1)
      (firstCandidates (doubling ranking) decoder prompt logProbs) ys := by
    refine exists_doubled ranking _ (firstCandidates_ne_nil hpos hlength) fun c hc ys hperm => ?_
    have hcopies := le_countP_rounds (p := fun c' => decide (c' = c)) ((mem_rounds hpos).mp hc)
      (decide_eq_true rfl) decoder.numBeams
    have hcount := hperm.countP_eq fun c' => decide (c' = c)
    rw [List.countP_cons_of_pos (by simp), firstCandidates] at hcount
    have hmore : 0 < ys.countP fun c' => decide (c' = c) := by omega
    obtain ⟨c', hc', heq⟩ := List.countP_pos_iff.mp hmore
    exact of_decide_eq_true heq ▸ hc'
  have hsort : (doubling ranking).sort (fun c : Candidate K => c.1)
      (firstCandidates (doubling ranking) decoder prompt logProbs) = hdoubled.choose :=
    dif_pos hdoubled
  obtain ⟨c, rest, hfront⟩ := hdoubled.choose_spec.front
  obtain ⟨n, hn⟩ := Nat.exists_eq_add_of_le' hbeams
  rw [Distinct, map_tokens_survivors, hsort, hfront, hn]
  simp

/-! ### Candidates that tie -/

variable [IsStrictOrderedRing K]

/-- Whatever stands in front after the first step has to rank with every other candidate, since
each of them is there as often as there are places. -/
theorem tie_of_apart (hbeams : 0 < decoder.numBeams)
    (hlength : decoder.numBeams ≤ logProbs.entries.length)
    (hapart : (((ranking.sort (·.1) (firstCandidates ranking decoder prompt logProbs)).take
      decoder.numBeams).map (·.2)).Nodup) :
    ∀ a ∈ decoder.likeliest ranking logProbs, ∀ b ∈ decoder.likeliest ranking logProbs,
      a.1 = b.1 := by
  have hpos : 0 < ranking.powf ((prompt.length + 1 : ℕ) : K) decoder.lengthPenalty :=
    ranking.scale_pos (Nat.succ_pos _) _
  have hmem : ∀ c, c ∈ firstCandidates ranking decoder prompt logProbs ↔
      c ∈ decoder.candidatesOf ranking (Beam.new prompt) logProbs := fun c => mem_rounds hbeams
  have hcount : (decoder.candidatesOf ranking (Beam.new prompt) logProbs).length =
      decoder.numBeams := by
    rw [candidatesOf, List.length_map, length_likeliest, Nat.min_eq_left hlength]
  have hdescending : Descending (fun c : Candidate K => c.1.rank)
      (ranking.sort (·.1) (firstCandidates ranking decoder prompt logProbs)) := by
    refine ranking.sort_descending fun c hc => ?_
    obtain ⟨entry, hentry, rfl⟩ := List.mem_map.mp ((hmem c).mp hc)
    rw [score_first]
    exact (likeliest_isLog hentry).div hpos
  -- every candidate stands in front, since those in front are as many and all different
  have hfront : decoder.candidatesOf ranking (Beam.new prompt) logProbs ⊆
      (ranking.sort (·.1) (firstCandidates ranking decoder prompt logProbs)).take
        decoder.numBeams := by
    refine subset_of_nodup (List.Nodup.of_map _ hapart)
      (fun c hc => (hmem c).mp (ranking.mem_of_mem_take_sort hc)) ?_
    rw [ranking.length_take_sort, firstCandidates, length_rounds, hcount]
    exact Nat.le_min.mpr ⟨le_refl _, Nat.le_mul_self _⟩
  have hrank : ∀ a ∈ decoder.candidatesOf ranking (Beam.new prompt) logProbs,
      ∀ b ∈ decoder.candidatesOf ranking (Beam.new prompt) logProbs, a.1.rank ≤ b.1.rank := by
    intro a ha b hb
    refine hdescending.le_of_mem_take ?_ b (hfront hb)
    rw [(ranking.sort_perm _ _).countP_eq]
    exact le_countP_rounds ha (decide_eq_true (le_refl _)) _
  intro a ha b hb
  have hsame : (decoder.candidate ranking (Beam.new prompt) a.1 a.2).1 =
      (decoder.candidate ranking (Beam.new prompt) b.1 b.2).1 :=
    rank_injective (le_antisymm
      (hrank _ (List.mem_map_of_mem ha) _ (List.mem_map_of_mem hb))
      (hrank _ (List.mem_map_of_mem hb) _ (List.mem_map_of_mem ha)))
  rw [score_first, score_first] at hsame
  exact ((likeliest_isLog ha).div_inj (likeliest_isLog hb) hpos).mp hsame

/-- A sort that keeps tied elements in order leaves the first round of tied candidates in front. -/
theorem distinct_first_of_tied (hstable : ranking.Stable) (hbeams : 0 < decoder.numBeams)
    (hlength : decoder.numBeams ≤ logProbs.entries.length)
    (htied : Tied decoder.numBeams logProbs) :
    Distinct (decoder.survivors ranking (firstCandidates ranking decoder prompt logProbs)) := by
  have hties : ∀ a ∈ decoder.likeliest ranking logProbs,
      ∀ b ∈ decoder.likeliest ranking logProbs, a.1 = b.1 :=
    (tied_iff_likeliest hbeams hlength).mp htied
  have hcount : (decoder.candidatesOf ranking (Beam.new prompt) logProbs).length =
      decoder.numBeams := by
    rw [candidatesOf, List.length_map, length_likeliest, Nat.min_eq_left hlength]
  obtain ⟨first, hfirst⟩ := List.exists_mem_of_length_pos (hcount ▸ hbeams)
  obtain ⟨best, hbest, rfl⟩ := List.mem_map.mp hfirst
  have hpos : 0 < ranking.powf ((prompt.length + 1 : ℕ) : K) decoder.lengthPenalty :=
    ranking.scale_pos (Nat.succ_pos _) _
  have hsort : ranking.sort (·.1) (firstCandidates ranking decoder prompt logProbs) =
      firstCandidates ranking decoder prompt logProbs := by
    refine hstable.sort_eq_self (v := best.1 /
      finite (ranking.powf ((prompt.length + 1 : ℕ) : K) decoder.lengthPenalty))
      ((likeliest_isLog hbest).div hpos).ne_nan fun c hc => ?_
    obtain ⟨entry, hentry, rfl⟩ := List.mem_map.mp ((mem_rounds hbeams).mp hc)
    rw [score_first, hties entry hentry best hbest]
  have hfront : (firstCandidates ranking decoder prompt logProbs).take decoder.numBeams =
      decoder.candidatesOf ranking (Beam.new prompt) logProbs := by
    have htake := take_rounds (decoder.candidatesOf ranking (Beam.new prompt) logProbs) hbeams
    rwa [hcount] at htake
  rw [Distinct, map_tokens_survivors, hsort, hfront]
  exact nodup_candidatesOf (Beam.new prompt) logProbs

/-! ### Where the beams are different -/

/-- **With two beams or more, nothing but making no step keeps the beams different whatever the sort
does with equal elements. They are different with some sort only if the likeliest tokens after the
prompt tie, and with a sort that keeps equal elements in order also if they do.** -/
theorem beams_distinct_iff (hbeams : 2 ≤ decoder.numBeams)
    (hprompt : decoder.model prompt = .ok logProbs)
    (hlength : decoder.numBeams ≤ logProbs.entries.length) :
    ((∀ other : Ranking K, other.powf = ranking.powf → AlwaysDistinct other decoder prompt) ↔
        decoder.maxNewTokens = 0) ∧
      (AlwaysDistinct ranking decoder prompt →
        decoder.maxNewTokens = 0 ∨ Tied decoder.numBeams logProbs) ∧
      (ranking.Stable → (AlwaysDistinct ranking decoder prompt ↔
        decoder.maxNewTokens = 0 ∨ Tied decoder.numBeams logProbs)) := by
  have hpos : 0 < decoder.numBeams := Nat.zero_lt_of_lt hbeams
  have htied : AlwaysDistinct ranking decoder prompt →
      decoder.maxNewTokens = 0 ∨ Tied decoder.numBeams logProbs := by
    intro hdistinct
    refine ((alwaysDistinct_iff_first hpos hprompt hlength).mp hdistinct).imp_right fun hfirst => ?_
    rw [Distinct, map_tokens_survivors] at hfirst
    exact (tied_iff_likeliest hpos hlength).mpr (tie_of_apart hpos hlength hfirst)
  refine ⟨⟨fun hall => ?_, fun hzero other _ => ?_⟩, htied, fun hstable => ⟨htied, fun h => ?_⟩⟩
  · have hfirst := (alwaysDistinct_iff_first hpos hprompt hlength).mp (hall (doubling ranking) rfl)
    exact hfirst.resolve_right (not_distinct_doubling hbeams hlength)
  · exact (alwaysDistinct_iff_first hpos hprompt hlength).mpr (Or.inl hzero)
  · exact (alwaysDistinct_iff_first hpos hprompt hlength).mpr
      (h.imp_right (distinct_first_of_tied hstable hpos hlength))

/-- Nothing ties: the first step keeps two copies of one sequence. -/
def peaked (_ : List Token) : Except CandleError (LogProbs ℚ) :=
  .ok ⟨[finite (-1), finite (-2), finite (-2)], by decide, by decide⟩

theorem beams_repeat : ∃ beams, Reaches Ranking.stable (new peaked 2 1 2) [0] 1 beams ∧
    ¬ Distinct beams := by
  have hfirst : Reaches Ranking.stable (new peaked 2 1 2) [0] 1
      [⟨[0, 0], finite (-1 / 2), false⟩, ⟨[0, 0], finite (-1 / 2), false⟩] :=
    Reaches.start.next (by decide) (by decide +kernel)
  exact ⟨_, hfirst, by decide⟩

/-- Two tokens that are equally likely come apart in a stable sort. -/
theorem beams_distinct_even : 2 ≤ (new evenModel 2 3 9).numBeams ∧ Ranking.stable.Stable ∧
    AlwaysDistinct Ranking.stable (new evenModel 2 3 9) [0] :=
  ⟨by decide, Ranking.stable_stable, ((beams_distinct_iff (by decide) rfl (by decide)).2.2
    Ranking.stable_stable).mpr (Or.inr ⟨finite (-1), by decide, by decide⟩)⟩

end BeamSearchDecoder

end Kyro
