import Kyro.Beam
import Kyro.Lib.Run
import Kyro.Lib.TopK
import Mathlib.Data.Rat.Floor

/-!
# The runs of a beam search

The beams that the steps of a `decode` reach, one state after another, until the steps are used up
or no beam has a candidate. Every beam that a step leaves comes from one of the unfinished beams
before it and one of the likeliest tokens after that one, and `decode` returns the tokens of a best
beam of the last state.
-/

namespace Kyro

open ExactFloat TopK

/-- An index stands for itself, since a row is no longer than there are tokens. -/
theorem LogProbs.toNat_tokenId {K : Type} (logProbs : LogProbs K) {i : ℕ}
    (hi : i < logProbs.entries.length) : (UInt32.ofNat i).toNat = i :=
  UInt32.toNat_ofNat_of_lt (hi.trans_le logProbs.length_le)

variable {K : Type} [Field K] [LinearOrder K]

namespace Ranking

variable (ranking : Ranking K) {α : Type} {key : α → ExactFloat K} {xs : List α}

theorem mem_sort {x : α} : x ∈ ranking.sort key xs ↔ x ∈ xs := (ranking.sort_perm key xs).mem_iff

theorem mem_of_mem_take_sort {n : ℕ} {x : α} (hx : x ∈ (ranking.sort key xs).take n) : x ∈ xs :=
  ranking.mem_sort.mp (List.mem_of_mem_take hx)

theorem length_take_sort (n : ℕ) : ((ranking.sort key xs).take n).length = min n xs.length := by
  rw [List.length_take, (ranking.sort_perm key xs).length_eq]

theorem scale_pos [IsStrictOrderedRing K] {len : ℕ} (hlen : 0 < len) (penalty : K) :
    0 < ranking.powf len penalty := ranking.powf_pos _ _ (Nat.cast_pos.mpr hlen)

/-- The sort is one of the places of the keys. -/
theorem sort_descending (hkey : ∀ x ∈ xs, (key x).IsLog) :
    Descending (fun x => (key x).rank) (ranking.sort key xs) := by
  have hlog : ∀ x ∈ ranking.sort key xs, (key x).IsLog :=
    fun x hx => hkey x (ranking.mem_sort.mp hx)
  refine (ranking.sort_sorted key xs fun x hx => (hkey x hx).ne_nan).imp_of_mem ?_
  intro a b ha hb hlt
  rw [lt_iff_rank_lt (hlog a ha).ne_nan] at hlt
  exact not_lt.mp hlt

/-- Sorting by insertion, which leaves equal elements in their order; the power is one with an
integer exponent. -/
def stable : Ranking ℚ where
  powf a b := a ^ b.num
  powf_pos _ _ ha := zpow_pos ha _
  sort key xs := xs.insertionSort fun a b => (key b).rank ≤ (key a).rank
  sort_perm key xs := List.perm_insertionSort _ xs
  sort_sorted key xs _ := by
    have htotal : Std.Total fun a b => (key b).rank ≤ (key a).rank := ⟨fun _ _ => le_total ..⟩
    have htrans : IsTrans _ fun a b => (key b).rank ≤ (key a).rank :=
      ⟨fun _ _ _ hab hbc => hbc.trans hab⟩
    refine (List.pairwise_insertionSort _ xs).imp fun hle hlt => ?_
    exact absurd (rank_lt_of_partialCmp (partialCmp_gt_iff.mpr hlt)) (not_lt.mpr hle)

/-- Elements that compare equal stay in their order. -/
def Stable (ranking : Ranking K) : Prop :=
  ∀ {α : Type} (key : α → ExactFloat K) (xs : List α), (∀ x ∈ xs, key x ≠ nan) → ∀ v,
    (ranking.sort key xs).filter (fun x => decide (key x = v)) =
      xs.filter fun x => decide (key x = v)

theorem stable_stable : stable.Stable := by
  intro α key xs _ v
  have hsame : (fun x => decide (key x = v)) = fun x => decide ((key x).rank = v.rank) :=
    funext fun x => decide_eq_decide.mpr rank_injective.eq_iff.symm
  rw [hsame]
  exact filter_insertionSort xs v.rank

/-- Elements that all compare equal are left as they are. -/
theorem Stable.sort_eq_self {ranking : Ranking K} (h : ranking.Stable) {key : α → ExactFloat K}
    {xs : List α} {v : ExactFloat K} (hv : v ≠ nan) (hkey : ∀ x ∈ xs, key x = v) :
    ranking.sort key xs = xs := by
  have hkept := h key xs (fun x hx => (hkey x hx).trans_ne hv) v
  rw [List.filter_eq_self.mpr fun x hx => decide_eq_true (hkey x hx),
    List.filter_eq_self.mpr fun x hx => decide_eq_true (hkey x (ranking.mem_sort.mp hx))] at hkept
  exact hkept

end Ranking

namespace BeamSearchDecoder

variable (ranking : Ranking K) (decoder : BeamSearchDecoder K)

/-! ### The likeliest tokens -/

variable {ranking decoder}

theorem entry_of_mem_likeliest {logProbs : LogProbs K} {entry : ExactFloat K × Token}
    (hentry : entry ∈ decoder.likeliest ranking logProbs) :
    logProbs.entries[entry.2.toNat]? = some entry.1 := by
  have hmem := ranking.mem_of_mem_take_sort hentry
  obtain ⟨i, hi, rfl⟩ := List.mem_mapIdx.mp hmem
  rw [logProbs.toNat_tokenId hi, List.getElem?_eq_getElem hi]

theorem likeliest_isLog {logProbs : LogProbs K} {entry : ExactFloat K × Token}
    (hentry : entry ∈ decoder.likeliest ranking logProbs) : entry.1.IsLog :=
  logProbs.isLog _ (List.mem_of_getElem? (entry_of_mem_likeliest hentry))

variable (ranking decoder)

/-- No token is among the likeliest twice. -/
theorem nodup_likeliest (logProbs : LogProbs K) :
    ((decoder.likeliest ranking logProbs).map (·.2)).Nodup := by
  have hall : ((logProbs.entries.mapIdx fun i v => (v, UInt32.ofNat i)).map
      fun entry => entry.2).Nodup := by
    rw [List.nodup_iff_injective_getElem]
    intro i j heq
    have hi := i.isLt
    have hj := j.isLt
    simp only [List.length_map, List.length_mapIdx] at hi hj
    simp only [List.getElem_map, List.getElem_mapIdx] at heq
    have hindex := congrArg UInt32.toNat heq
    rw [logProbs.toNat_tokenId hi, logProbs.toNat_tokenId hj] at hindex
    exact Fin.ext hindex
  exact (((ranking.sort_perm _ _).map _).nodup_iff.mpr hall).sublist ((List.take_sublist _ _).map _)

theorem length_likeliest (logProbs : LogProbs K) :
    (decoder.likeliest ranking logProbs).length = min decoder.numBeams logProbs.entries.length := by
  rw [likeliest, ranking.length_take_sort, List.length_mapIdx]

/-! ### Candidates -/

variable {ranking decoder}

theorem allCandidates_finished {beam : Beam K} (hfinished : beam.finished = true)
    (beams : List (Beam K)) :
    decoder.allCandidates ranking (beam :: beams) = decoder.allCandidates ranking beams := by
  rw [allCandidates, if_pos hfinished]

theorem allCandidates_unfinished {beam : Beam K} (hfinished : beam.finished = false)
    {beams : List (Beam K)} {candidates : List (Candidate K)} :
    decoder.allCandidates ranking (beam :: beams) = .ok candidates ↔
      ∃ logProbs, decoder.model beam.tokens = .ok logProbs ∧
        ∃ rest, decoder.allCandidates ranking beams = .ok rest ∧
          decoder.candidatesOf ranking beam logProbs ++ rest = candidates := by
  have hnot : ¬ beam.finished = true := by simp [hfinished]
  rw [allCandidates, if_neg hnot, Machine.bind_eq_ok]
  refine exists_congr fun logProbs => and_congr_right fun _ => ?_
  rw [Machine.bind_eq_ok]
  refine exists_congr fun rest => and_congr_right fun _ => ?_
  constructor
  · intro heq
    cases heq
    rfl
  · intro heq
    rw [heq]
    rfl

/-- Finished beams have no candidates. -/
theorem allCandidates_of_finished {beams : List (Beam K)} (hfinished : ∀ b ∈ beams, b.finished) :
    decoder.allCandidates ranking beams = .ok [] := by
  induction beams with
  | nil => rfl
  | cons beam beams ih =>
      rw [allCandidates_finished (hfinished beam List.mem_cons_self)]
      exact ih fun b hb => hfinished b (.tail beam hb)

/-- What a candidate is made from. -/
theorem exists_of_mem_allCandidates {beams : List (Beam K)} {candidates : List (Candidate K)}
    (hcandidates : decoder.allCandidates ranking beams = .ok candidates) {c : Candidate K}
    (hc : c ∈ candidates) :
    ∃ beam ∈ beams, beam.finished = false ∧ ∃ logProbs, decoder.model beam.tokens = .ok logProbs ∧
      c ∈ decoder.candidatesOf ranking beam logProbs := by
  induction beams generalizing candidates with
  | nil =>
      cases hcandidates
      cases hc
  | cons beam beams ih =>
      cases hfinished : beam.finished with
      | true =>
          rw [allCandidates_finished hfinished] at hcandidates
          obtain ⟨parent, hparent, hrest⟩ := ih hcandidates hc
          exact ⟨parent, .tail beam hparent, hrest⟩
      | false =>
          obtain ⟨logProbs, hmodel, rest, hrest, rfl⟩ :=
            (allCandidates_unfinished hfinished).mp hcandidates
          rcases List.mem_append.mp hc with hc | hc
          · exact ⟨beam, List.mem_cons_self, hfinished, logProbs, hmodel, hc⟩
          · obtain ⟨parent, hparent, hmore⟩ := ih hrest hc
            exact ⟨parent, .tail beam hparent, hmore⟩

/-- A step makes the second beam from the first and one of the likeliest tokens after it. -/
structure Extends (ranking : Ranking K) (decoder : BeamSearchDecoder K) (parent beam : Beam K)
    (logProb : ExactFloat K) (token : Token) : Prop where
  unfinished : parent.finished = false
  predicted : ∃ logProbs, decoder.model parent.tokens = .ok logProbs ∧
    logProbs.entries[token.toNat]? = some logProb
  tokens : beam.tokens = parent.tokens ++ [token]
  score : beam.score = (parent.score + logProb) /
    finite (ranking.powf beam.tokens.length decoder.lengthPenalty)

theorem Extends.isLog {parent beam : Beam K} {logProb : ExactFloat K} {token : Token}
    (h : Extends ranking decoder parent beam logProb token) : logProb.IsLog := by
  obtain ⟨logProbs, _, hentry⟩ := h.predicted
  exact logProbs.isLog _ (List.mem_of_getElem? hentry)

theorem exists_extends {beams : List (Beam K)} {candidates : List (Candidate K)}
    (hcandidates : decoder.allCandidates ranking beams = .ok candidates) {b : Beam K}
    (hb : b ∈ decoder.survivors ranking candidates) :
    ∃ parent ∈ beams, ∃ logProb token, Extends ranking decoder parent b logProb token := by
  obtain ⟨c, hc, rfl⟩ := List.mem_map.mp hb
  obtain ⟨parent, hparent, hfinished, logProbs, hmodel, hmem⟩ :=
    exists_of_mem_allCandidates hcandidates (ranking.mem_of_mem_take_sort hc)
  obtain ⟨entry, hentry, rfl⟩ := List.mem_map.mp hmem
  exact ⟨parent, hparent, entry.1, entry.2, hfinished,
    ⟨logProbs, hmodel, entry_of_mem_likeliest hentry⟩, rfl, rfl⟩

/-! ### The states of a run -/

variable (ranking decoder)

/-- The beams after so many steps. -/
inductive Reaches (prompt : List Token) : ℕ → List (Beam K) → Prop where
  | start : Reaches prompt 0 (decoder.start prompt)
  | step {k : ℕ} {beams : List (Beam K)} {candidates : List (Candidate K)} :
      Reaches prompt k beams → k < decoder.maxNewTokens →
      decoder.allCandidates ranking beams = .ok candidates → candidates ≠ [] →
      Reaches prompt (k + 1) (decoder.survivors ranking candidates)

/-- No step follows. -/
structure Ends (prompt : List Token) (k : ℕ) (beams : List (Beam K)) : Prop where
  reached : Reaches ranking decoder prompt k beams
  last : k = decoder.maxNewTokens ∨ decoder.allCandidates ranking beams = .ok []

variable {ranking decoder} {prompt : List Token}

theorem Reaches.le_maxNewTokens {k : ℕ} {beams : List (Beam K)}
    (h : Reaches ranking decoder prompt k beams) : k ≤ decoder.maxNewTokens := by
  cases h with
  | start => exact Nat.zero_le _
  | step _ hk _ _ => exact hk

/-- Every beam of a step comes from one before it. -/
theorem Reaches.exists_parent {k : ℕ} {beams : List (Beam K)}
    (h : Reaches ranking decoder prompt (k + 1) beams) :
    ∃ before, Reaches ranking decoder prompt k before ∧ ∀ b ∈ beams, ∃ parent ∈ before,
      ∃ logProb token, Extends ranking decoder parent b logProb token := by
  cases h with
  | step hreaches _ hcandidates _ =>
      exact ⟨_, hreaches, fun b hb => exists_extends hcandidates hb⟩

theorem Reaches.next {k : ℕ} {beams after : List (Beam K)}
    (h : Reaches ranking decoder prompt k beams) (hk : k < decoder.maxNewTokens)
    (hstep : ∃ candidates, decoder.allCandidates ranking beams = .ok candidates ∧
      candidates ≠ [] ∧ decoder.survivors ranking candidates = after) :
    Reaches ranking decoder prompt (k + 1) after := by
  obtain ⟨candidates, hcandidates, hne, rfl⟩ := hstep
  exact h.step hk hcandidates hne

/-- What holds of the prompt and is kept when a beam is extended holds of every beam. -/
theorem Reaches.beams_induction {P : ℕ → Beam K → Prop} (hstart : P 0 (Beam.new prompt))
    (hstep : ∀ k parent beam logProb token, P k parent →
      Extends ranking decoder parent beam logProb token → P (k + 1) beam)
    {k : ℕ} {beams : List (Beam K)} (h : Reaches ranking decoder prompt k beams) :
    ∀ b ∈ beams, P k b := by
  induction h with
  | start =>
      intro b hb
      rw [List.eq_of_mem_replicate hb]
      exact hstart
  | step _ _ hcandidates _ ih =>
      intro b hb
      obtain ⟨parent, hparent, logProb, token, hextends⟩ := exists_extends hcandidates hb
      exact hstep _ _ _ _ _ (ih parent hparent) hextends

/-- A run is determined by the model and the sort. -/
theorem Reaches.unique {k : ℕ} {beams beams' : List (Beam K)}
    (h : Reaches ranking decoder prompt k beams) (h' : Reaches ranking decoder prompt k beams') :
    beams = beams' := by
  induction h generalizing beams' with
  | start =>
      cases h'
      rfl
  | step _ _ hcandidates _ ih =>
      cases h' with
      | step hreaches' _ hcandidates' _ =>
          cases ih hreaches'
          rw [hcandidates] at hcandidates'
          cases hcandidates'
          rfl

theorem Reaches.earlier {k j : ℕ} {beams : List (Beam K)}
    (h : Reaches ranking decoder prompt k beams) (hj : j ≤ k) :
    ∃ beams', Reaches ranking decoder prompt j beams' := by
  induction h with
  | start =>
      cases Nat.le_zero.mp hj
      exact ⟨_, .start⟩
  | step hreaches hk hcandidates hne ih =>
      rcases Nat.le_succ_iff.mp hj with hj | rfl
      · exact ih hj
      · exact ⟨_, hreaches.step hk hcandidates hne⟩

theorem Reaches.length_le {k : ℕ} {beams : List (Beam K)}
    (h : Reaches ranking decoder prompt k beams) : beams.length ≤ decoder.numBeams := by
  cases h with
  | start => exact (List.length_replicate ..).le
  | step =>
      rw [survivors, List.length_map, ranking.length_take_sort]
      exact Nat.min_le_left ..

/-- There are beams throughout, unless there are to be none. -/
theorem Reaches.eq_nil_iff {k : ℕ} {beams : List (Beam K)}
    (h : Reaches ranking decoder prompt k beams) : beams = [] ↔ decoder.numBeams = 0 := by
  cases h with
  | start => exact List.replicate_eq_nil_iff _
  | step _ _ _ hne =>
      rw [← List.length_eq_zero_iff, survivors, List.length_map, ranking.length_take_sort]
      have hpos := List.length_pos_iff.mpr hne
      omega

/-- No state comes after the last one. -/
theorem Ends.le {k j : ℕ} {beams beams' : List (Beam K)}
    (hends : Ends ranking decoder prompt k beams) (h : Reaches ranking decoder prompt j beams') : j ≤ k := by
  induction h with
  | start => exact Nat.zero_le _
  | step hreaches hk hcandidates hne ih =>
      refine Nat.lt_of_le_of_ne ih ?_
      rintro rfl
      rcases hends.last with hlast | hlast
      · exact absurd hlast hk.ne
      · rw [hends.reached.unique hreaches, hcandidates] at hlast
        cases hlast
        exact hne rfl

/-! ### What is returned -/

theorem steps_done {beams : List (Beam K)} (hdone : decoder.allCandidates ranking beams = .ok [])
    (n : ℕ) : decoder.steps ranking n beams = .ok beams := by
  cases n with
  | zero => rfl
  | succ n =>
      rw [steps, hdone]
      rfl

/-- The loop need not look whether all the beams are finished. -/
theorem steps_step {beams : List (Beam K)} {candidates : List (Candidate K)}
    (hcandidates : decoder.allCandidates ranking beams = .ok candidates) (hne : candidates ≠ [])
    (n : ℕ) : decoder.steps ranking (n + 1) beams =
      decoder.steps ranking n (decoder.survivors ranking candidates) := by
  have hempty : candidates.isEmpty = false := List.isEmpty_eq_false_iff.mpr hne
  rw [steps, hcandidates, Machine.ok_bind, hempty]
  by_cases hall : (decoder.survivors ranking candidates).all (·.finished) = true
  · rw [if_neg Bool.false_ne_true, if_pos hall]
    exact (steps_done (allCandidates_of_finished (List.all_eq_true.mp hall)) n).symm
  · rw [if_neg Bool.false_ne_true, if_neg hall]

theorem steps_of_reaches {k : ℕ} {beams : List (Beam K)}
    (h : Reaches ranking decoder prompt k beams) :
    decoder.steps ranking decoder.maxNewTokens (decoder.start prompt) =
      decoder.steps ranking (decoder.maxNewTokens - k) beams := by
  induction h with
  | start => rfl
  | @step k beams candidates _ hk hcandidates hne ih =>
      have hfuel : decoder.maxNewTokens - k = decoder.maxNewTokens - (k + 1) + 1 := by omega
      rw [ih, hfuel, steps_step hcandidates hne]

theorem exists_ends_of_steps {n k : ℕ} {beams last : List (Beam K)}
    (h : Reaches ranking decoder prompt k beams) (hfuel : k + n = decoder.maxNewTokens)
    (hsteps : decoder.steps ranking n beams = .ok last) :
    ∃ j, Ends ranking decoder prompt j last := by
  induction n generalizing k beams with
  | zero =>
      cases hsteps
      exact ⟨k, h, Or.inl hfuel⟩
  | succ n ih =>
      cases hcandidates : decoder.allCandidates ranking beams with
      | error e =>
          rw [steps, hcandidates] at hsteps
          cases hsteps
      | ok candidates =>
          by_cases hne : candidates = []
          · subst hne
            rw [steps_done hcandidates] at hsteps
            cases hsteps
            exact ⟨k, h, Or.inr hcandidates⟩
          · rw [steps_step hcandidates hne] at hsteps
            exact ih (h.step (by omega) hcandidates hne) (by omega) hsteps

/-- **`decode` returns the tokens of the best beam at the end of the run.** -/
theorem decode_eq_ok_iff {tokens : List Token} :
    decoder.decode ranking prompt = .ok tokens ↔ ∃ k beams, Ends ranking decoder prompt k beams ∧
      ((best ranking beams).map (·.tokens)).getD prompt = tokens := by
  have hdecode : decoder.decode ranking prompt = .ok tokens ↔ ∃ beams,
      decoder.steps ranking decoder.maxNewTokens (decoder.start prompt) = .ok beams ∧
        Except.ok (((best ranking beams).map (·.tokens)).getD prompt) =
          (Except.ok tokens : Except CandleError (List Token)) := Machine.bind_eq_ok
  rw [hdecode]
  constructor
  · rintro ⟨beams, hsteps, hreturn⟩
    obtain ⟨k, hends⟩ := exists_ends_of_steps .start (Nat.zero_add _) hsteps
    exact ⟨k, beams, hends, Except.ok.inj hreturn⟩
  · rintro ⟨k, beams, hends, hreturn⟩
    refine ⟨beams, ?_, congrArg _ hreturn⟩
    rw [steps_of_reaches hends.reached]
    rcases hends.last with rfl | hlast
    · rw [Nat.sub_self]
      rfl
    · exact steps_done hlast _

variable (ranking) in
theorem exists_best {beams : List (Beam K)} (hne : beams ≠ []) :
    ∃ b, best ranking beams = some b := by
  have hsorted : ranking.sort (·.score) beams ≠ [] := by
    rw [← List.length_pos_iff, (ranking.sort_perm _ beams).length_eq]
    exact List.length_pos_iff.mpr hne
  exact ⟨_, List.head?_eq_some_head hsorted⟩

/-- A best beam is one of the beams, and none of them has a larger score. -/
theorem best_spec {beams : List (Beam K)} (hlog : ∀ b ∈ beams, b.score.IsLog) {b : Beam K}
    (hbest : best ranking beams = some b) : b ∈ beams ∧ ∀ c ∈ beams, c.score ≤ b.score := by
  obtain ⟨rest, hsorted⟩ := List.head?_eq_some_iff.mp hbest
  have hdescending := ranking.sort_descending hlog
  have hmem : ∀ c, c ∈ b :: rest ↔ c ∈ beams := by
    intro c
    rw [← hsorted, ranking.mem_sort]
  rw [hsorted] at hdescending
  have hb := (hmem b).mp List.mem_cons_self
  refine ⟨hb, fun c hc => ?_⟩
  rw [le_iff_rank_le (hlog c hc).ne_nan (hlog b hb).ne_nan]
  exact hdescending.head_le c ((hmem c).mpr hc)

end BeamSearchDecoder

end Kyro
