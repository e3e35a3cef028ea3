import Mathlib.Data.Rat.Cast.Order
import Mathlib.Tactic.Linarith
import Mathlib.Tactic.NormNum
import Mathlib.Tactic.Positivity
import Mathlib.Tactic.Ring
import Kyro.Proof.Sampler.Adjust

/-!
# What the penalties add to a logit

Two passes over the generated tokens write one mask: the first adds the frequency penalty at each
occurrence, and the second brings the sum down to at most zero at each occurrence and adds the
presence penalty. What a token gets is therefore a function of its count alone, but not the one of
the interface, which takes the frequency penalty off for each occurrence and the presence penalty
off once.
-/

namespace Kyro.Sampler

open ExactFloat

/-! ### One entry of the mask -/

/-- A loop of guarded updates does to an entry what its occurrences do. -/
theorem foldlM_updateInside_entry {α : Type} (f : α → α) (tokens : List Token) {xs : List α}
    {t : Token} {a : α} (ha : xs[t.toNat]? = some a) :
    ∃ ys, tokens.foldlM (fun xs token => updateInside xs token.toNat f) xs = .ok ys ∧
      ys.length = xs.length ∧ ys[t.toNat]? = some (f^[tokens.count t] a) := by
  induction tokens generalizing xs a with
  | nil => exact ⟨xs, rfl, rfl, ha⟩
  | cons token tokens ih =>
      rw [List.foldlM_cons, updateInside]
      by_cases hin : token.toNat < xs.length
      · rw [if_pos hin, updateAt_of_lt hin, Machine.ok_bind, List.count_cons]
        by_cases htoken : token = t
        · subst htoken
          have hentry : (xs.modify token.toNat f)[token.toNat]? = some (f a) := by
            rw [List.getElem?_modify_eq, ha]
            rfl
          obtain ⟨ys, hys, hlength, hget⟩ := ih hentry
          refine ⟨ys, hys, hlength.trans (List.length_modify ..), ?_⟩
          rw [hget, beq_self_eq_true, if_pos rfl, Function.iterate_succ_apply]
        · have hne : token.toNat ≠ t.toNat := fun heq => htoken (UInt32.toNat_inj.mp heq)
          have hentry : (xs.modify token.toNat f)[t.toNat]? = some a := by
            rw [List.getElem?_modify_ne f xs hne, ha]
          obtain ⟨ys, hys, hlength, hget⟩ := ih hentry
          refine ⟨ys, hys, hlength.trans (List.length_modify ..), ?_⟩
          rw [hget, beq_false_of_ne htoken]
          rfl
      · have htoken : token ≠ t := by
          rintro rfl
          exact hin (List.getElem?_eq_some_iff.mp ha).1
        obtain ⟨ys, hys, hlength, hget⟩ := ih ha
        refine ⟨ys, ?_, hlength, ?_⟩
        · rw [if_neg hin, Machine.ok_bind, hys]
        · rw [hget, List.count_cons_of_ne htoken]

/-! ### Sums that are clamped again and again -/

section Clamp

variable {K : Type} [Field K] [LinearOrder K]

/-- What one occurrence of the second pass does to the mask. -/
def clampAdd (presencePenalty x : K) : K := min x 0 + presencePenalty

/-- What `count` occurrences of a token add to its logit. -/
def penaltyAmount (frequencyPenalty presencePenalty : K) (count : ℕ) : K :=
  (clampAdd presencePenalty)^[count] (count * frequencyPenalty)

@[simp] theorem penaltyAmount_zero (f p : K) : penaltyAmount f p 0 = 0 := by
  rw [penaltyAmount, Nat.cast_zero, zero_mul]
  rfl

variable [IsStrictOrderedRing K]

theorem iterate_clampAdd_of_nonneg {p : K} (hp : 0 ≤ p) (c : ℕ) (x : K) :
    (clampAdd p)^[c + 1] x = min (x + c * p) 0 + p := by
  induction c with
  | zero => simp [clampAdd]
  | succ c ih =>
      have hmin : min (min (x + c * p) 0 + p) 0 = min (x + (c + 1 : ℕ) * p) 0 := by
        rw [← min_add_add_right, zero_add, min_assoc, min_eq_right hp, Nat.cast_succ, add_mul,
          one_mul, add_assoc]
      rw [Function.iterate_succ_apply', ih, clampAdd, hmin]

theorem iterate_clampAdd_of_neg {p : K} (hp : p < 0) (c : ℕ) (x : K) :
    (clampAdd p)^[c + 1] x = min x 0 + (c + 1) * p := by
  induction c with
  | zero => simp [clampAdd]
  | succ c ih =>
      have hnonpos : min x 0 + (c + 1) * p ≤ 0 :=
        add_nonpos (min_le_right x 0) (mul_nonpos_of_nonneg_of_nonpos (by positivity) hp.le)
      rw [Function.iterate_succ_apply', ih, clampAdd, min_eq_left hnonpos, Nat.cast_succ]
      ring

theorem penaltyAmount_none (c : ℕ) : penaltyAmount (0 : K) 0 c = 0 := by
  cases c with
  | zero => exact penaltyAmount_zero 0 0
  | succ n => simp [penaltyAmount, iterate_clampAdd_of_nonneg le_rfl]

theorem penaltyAmount_cast (f p : ℚ) (c : ℕ) :
    penaltyAmount (f : K) (p : K) c = ((penaltyAmount f p c : ℚ) : K) := by
  have hclamp : Function.Semiconj (Rat.cast : ℚ → K) (clampAdd p) (clampAdd (p : K)) := by
    intro x
    rw [clampAdd, clampAdd, Rat.cast_add, Rat.cast_min, Rat.cast_zero]
  rw [penaltyAmount, penaltyAmount, (hclamp.iterate_right c).eq, Rat.cast_mul, Rat.cast_natCast]

/-- Penalties that are not negative raise the logit of every generated token. -/
theorem penaltyAmount_of_nonneg {f p : K} (hf : 0 ≤ f) (hp : 0 ≤ p) {c : ℕ} (hc : 0 < c) :
    penaltyAmount f p c = p := by
  obtain ⟨n, rfl⟩ := Nat.exists_eq_succ_of_ne_zero hc.ne'
  have hsum : 0 ≤ ((n.succ : ℕ) : K) * f + n * p := by positivity
  rw [penaltyAmount, Nat.succ_eq_add_one, iterate_clampAdd_of_nonneg hp, min_eq_right hsum,
    zero_add]

end Clamp

/-! ### When it is the amount of the interface -/

/-- The amount that the interface promises. -/
def openAiAmount (frequencyPenalty presencePenalty : ℚ) (count : ℕ) : ℚ :=
  -(count * frequencyPenalty) - if 0 < count then presencePenalty else 0

/-- The two penalties cancel in such a way that clamping and adding gives the amount. -/
def PenaltiesCancel (frequencyPenalty presencePenalty : ℚ) (count : ℕ) : Prop :=
  if presencePenalty < 0 then count * frequencyPenalty = -(count + 1) * presencePenalty
  else if count ≤ 3 then 2 * (count * frequencyPenalty) = -(count + 1) * presencePenalty
  else count * frequencyPenalty = -2 * presencePenalty

section Cancel

variable {p : ℚ} {n : ℕ} {s : ℚ}

theorem neg_presence_iff (hp : p < 0) :
    min s 0 + (n + 1) * p = -s - p ↔ s = -(n + 2) * p := by
  have hcount : (0 : ℚ) ≤ n := Nat.cast_nonneg n
  have hpos : 0 < -((n + 2) * p) := by
    have htwo : (0 : ℚ) < n + 2 := by positivity
    exact neg_pos.mpr (mul_neg_of_pos_of_neg htwo hp)
  rcases le_total s 0 with hs | hs
  · -- both sides would make `s` positive
    rw [min_eq_left hs]
    constructor
    · intro heq
      linarith
    · intro heq
      linarith
  · rw [min_eq_right hs]
    constructor
    · intro heq
      linarith
    · intro heq
      linarith

theorem nonneg_presence_iff (hp : 0 ≤ p) :
    min (s + n * p) 0 + p = -s - p ↔
      if n + 1 ≤ 3 then 2 * s = -(n + 2) * p else s = -2 * p := by
  rcases le_total (s + n * p) 0 with hs | hs
  · rw [min_eq_left hs]
    split
    · constructor
      · intro heq
        linarith
      · intro heq
        linarith
    · -- more than three occurrences bring the mask below what the presence penalty lifts
      rename_i hmany
      have hthree : 3 * p ≤ n * p :=
        mul_le_mul_of_nonneg_right (by exact_mod_cast (by omega : 3 ≤ n)) hp
      constructor
      · intro heq
        obtain rfl : p = 0 := by linarith
        linarith
      · intro heq
        obtain rfl : p = 0 := by linarith
        linarith
  · rw [min_eq_right hs]
    split
    · rename_i hfew
      have htwo : n * p ≤ 2 * p :=
        mul_le_mul_of_nonneg_right (by exact_mod_cast (by omega : n ≤ 2)) hp
      constructor
      · intro heq
        linarith
      · intro heq
        linarith
    · constructor
      · intro heq
        linarith
      · intro heq
        linarith

end Cancel

theorem penaltyAmount_eq_iff (f p : ℚ) (c : ℕ) :
    penaltyAmount f p c = openAiAmount f p c ↔ c = 0 ∨ PenaltiesCancel f p c := by
  cases c with
  | zero => simp [openAiAmount]
  | succ n =>
      have hnumber : ((n + 1 : ℕ) : ℚ) + 1 = n + 2 := by
        rw [Nat.cast_succ, add_assoc, one_add_one_eq_two]
      rw [penaltyAmount, openAiAmount, if_pos n.succ_pos, PenaltiesCancel, hnumber]
      have hiff : (clampAdd p)^[n + 1] ((n + 1 : ℕ) * f) = -((n + 1 : ℕ) * f) - p ↔
          if p < 0 then (n + 1 : ℕ) * f = -(n + 2) * p
          else if n + 1 ≤ 3 then 2 * ((n + 1 : ℕ) * f) = -(n + 2) * p
          else (n + 1 : ℕ) * f = -2 * p := by
        by_cases hp : p < 0
        · rw [if_pos hp, iterate_clampAdd_of_neg hp]
          exact neg_presence_iff hp
        · rw [if_neg hp, iterate_clampAdd_of_nonneg (not_lt.mp hp)]
          exact nonneg_presence_iff (not_lt.mp hp)
      rw [hiff, or_iff_right n.succ_ne_zero]

/-! ### The logits of an item -/

theorem addPenalties_entry {K : Type} [Field K] [LinearOrder K] (f p : ℚ) (generated : List Token)
    {logits : List K} {t : Token} {logit : K} (hlogit : logits[t.toNat]? = some logit) :
    ∃ adjusted, addPenalties f p generated (logits.map finite) = .ok adjusted ∧
      adjusted.length = logits.length ∧
      adjusted[t.toNat]? =
        some (finite (logit + penaltyAmount (f : K) (p : K) (generated.count t))) := by
  have hlt := (List.getElem?_eq_some_iff.mp hlogit).1
  have hzero : (List.replicate (logits.map (finite (K := K))).length (0 : K))[t.toNat]? =
      some 0 := by
    rw [List.length_map, List.getElem?_replicate, if_pos hlt]
  obtain ⟨sums, hsums, hsumsLength, hsum⟩ :=
    foldlM_updateInside_entry (· + (f : K)) generated hzero
  obtain ⟨mask, hmask, hmaskLength, hentry⟩ :=
    foldlM_updateInside_entry (clampAdd (p : K)) generated hsum
  rw [add_right_iterate_apply_zero, nsmul_eq_mul] at hentry
  refine ⟨(List.zipWith (· + ·) logits mask).map finite, ?_, ?_, ?_⟩
  · rw [addPenalties, hsums, Machine.ok_bind]
    exact (congrArg (· >>= _) hmask).trans (congrArg Except.ok (zipWith_finite logits mask))
  · rw [List.length_map, List.length_zipWith, hmaskLength, hsumsLength, List.length_replicate,
      List.length_map, Nat.min_self]
  · rw [List.getElem?_map, List.getElem?_zipWith, hlogit, hentry]
    rfl

theorem penalized_entry {K : Type} [Field K] [LinearOrder K] [IsStrictOrderedRing K]
    (params : SamplingParams) (generated : List Token) {logits : List K} {t : Token} {logit : K}
    (hlogit : logits[t.toNat]? = some logit) :
    ∃ adjusted, penalized params (some generated) (logits.map finite) = .ok adjusted ∧
      adjusted[t.toNat]? = some (finite (logit +
        (penaltyAmount params.frequencyPenalty params.presencePenalty (generated.count t) :
          ℚ))) := by
  rw [penalized]
  split
  · obtain ⟨adjusted, hadjusted, _, hentry⟩ := addPenalties_entry params.frequencyPenalty
      params.presencePenalty generated hlogit
    rw [penaltyAmount_cast] at hentry
    exact ⟨adjusted, hadjusted, hentry⟩
  · rename_i hzero
    obtain ⟨hf, hp⟩ := not_or.mp hzero
    refine ⟨_, rfl, ?_⟩
    rw [not_not.mp hf, not_not.mp hp, penaltyAmount_none, Rat.cast_zero, add_zero,
      List.getElem?_map, hlogit]
    rfl

/-- **The penalties follow the interface exactly where they happen to cancel.** -/
theorem penalized_openAi_iff {K : Type} [Field K] [LinearOrder K] [IsStrictOrderedRing K]
    (params : SamplingParams) (generated : List Token) {logits : List K} {t : Token} {logit : K}
    (hlogit : logits[t.toNat]? = some logit) :
    (∃ adjusted, penalized params (some generated) (logits.map finite) = .ok adjusted ∧
      adjusted[t.toNat]? = some (finite (logit +
        (openAiAmount params.frequencyPenalty params.presencePenalty (generated.count t) : ℚ)))) ↔
    generated.count t = 0 ∨
      PenaltiesCancel params.frequencyPenalty params.presencePenalty (generated.count t) := by
  obtain ⟨adjusted, hadjusted, hentry⟩ := penalized_entry params generated hlogit
  rw [← penaltyAmount_eq_iff]
  constructor
  · rintro ⟨other, hother, hpromised⟩
    obtain rfl : adjusted = other := Except.ok.inj (hadjusted.symm.trans hother)
    have heq := ExactFloat.finite.inj (Option.some.inj (hentry.symm.trans hpromised))
    exact Rat.cast_injective (add_left_cancel heq)
  · intro heq
    rw [heq] at hentry
    exact ⟨adjusted, hadjusted, hentry⟩

/-- A request with the two penalties. -/
def penaltyParams (frequencyPenalty presencePenalty : ℚ) : SamplingParams :=
  { ChatCompletionRequest.plain with
    frequencyPenalty := some frequencyPenalty
    presencePenalty := some presencePenalty }.samplingParams

theorem penalized_openAi_opposite :
    ∃ adjusted, penalized (penaltyParams 2 (-1)) (some [1]) ([7, 5].map (finite (K := ℚ))) =
        .ok adjusted ∧ adjusted[1]? = some (finite (5 + (openAiAmount 2 (-1) 1 : ℚ))) := by
  have hlogit : [7, 5][(1 : Token).toNat]? = some (5 : ℚ) := rfl
  have hcancel : PenaltiesCancel 2 (-1) 1 := by norm_num [PenaltiesCancel]
  exact (penalized_openAi_iff (penaltyParams 2 (-1)) [1] hlogit).mpr (Or.inr hcancel)

/-- Two positive penalties raise the logit of the token they are for. -/
theorem penalized_raises :
    penalized (penaltyParams 1 (1 / 2)) (some [1]) [finite 7, finite 5] =
        .ok [finite (7 : ℚ), finite (11 / 2)] ∧
      5 + openAiAmount 1 (1 / 2) 1 = 7 / 2 := by
  decide +kernel

end Kyro.Sampler
