import Kyro.Proof.Sampler.Adjust
import Kyro.Lib.Categorical

/-!
# The candidates and their probabilities

Between the logits and the draw stand lists of entries: the scaled logits with their ids, the ones
that the selection keeps, and the probabilities of these. As long as one of the logits is a number
the probabilities are numbers that are not negative and sum up to one.
-/

namespace Kyro.Sampler

open ExactFloat Categorical

variable {K : Type}

/-! ### Entries -/

/-- Entries that a distribution can be made from: the ids are below `n`, the values are logarithms
of weights, and one of these is a number. -/
structure Weighted (n : ℕ) (entries : List (Entry K)) : Prop where
  lt : ∀ entry ∈ entries, entry.1 < n
  isLog : ∀ entry ∈ entries, entry.2.IsLog
  exists_finite : ∃ entry ∈ entries, ∃ a, entry.2 = finite a

theorem Weighted.ne_nil {n : ℕ} {entries : List (Entry K)} (h : Weighted n entries) :
    entries ≠ [] := by
  obtain ⟨_, hmem, _⟩ := h.exists_finite
  exact List.ne_nil_of_mem hmem

theorem weighted_mapIdx {xs : List (ExactFloat K)} {n : ℕ} (h : Masked n xs) :
    Weighted n (xs.mapIdx Prod.mk) where
  lt entry hentry := by
    obtain ⟨i, hi, rfl⟩ := List.mem_mapIdx.mp hentry
    rw [← h.length_eq]
    exact hi
  isLog entry hentry := by
    obtain ⟨i, hi, rfl⟩ := List.mem_mapIdx.mp hentry
    exact h.isLog _ (List.getElem_mem hi)
  exists_finite := by
    obtain ⟨a, ha⟩ := h.exists_finite
    obtain ⟨i, hi, heq⟩ := List.mem_iff_getElem.mp ha
    exact ⟨(i, xs[i]), List.mem_mapIdx.mpr ⟨i, hi, rfl⟩, a, heq⟩

/-- Numbers as the values of entries. -/
def asEntries (ws : List (ℕ × K)) : List (Entry K) := ws.map fun w => (w.1, finite w.2)

theorem sum_asEntries [AddCommGroup K] (ws : List (ℕ × K)) :
    ExactFloat.sum ((asEntries ws).map (·.2)) = finite (mass ws) := by
  rw [mass, ← sum_map_finite, asEntries, List.map_map, List.map_map]
  rfl

section Order

variable [LinearOrder K]

/-! ### Comparisons -/

theorem comparable_of_ne_nan {entries : List (Entry K)} (h : ∀ entry ∈ entries, entry.2 ≠ nan) :
    Comparable entries :=
  List.pairwise_of_forall_mem_list fun a ha b hb => partialCmp_isSome (h b hb) (h a ha)

theorem Weighted.comparable {n : ℕ} {entries : List (Entry K)} (h : Weighted n entries) :
    Comparable entries :=
  comparable_of_ne_nan fun entry hentry => (h.isLog entry hentry).ne_nan

theorem countP_lt_length {entries : List (Entry K)} {entry : Entry K} (hentry : entry ∈ entries) :
    entries.countP (entry.2 < ·.2) < entries.length := by
  refine lt_of_le_of_ne List.countP_le_length fun hall => ?_
  exact not_lt_self entry.2 (of_decide_eq_true (List.countP_eq_length.mp hall entry hentry))

/-! ### The largest value -/

def largest (entries : List (Entry K)) : ExactFloat K :=
  (entries.map (·.2)).foldl ExactFloat.max negInf

theorem Weighted.exists_largest {n : ℕ} {entries : List (Entry K)} (h : Weighted n entries) :
    ∃ m, largest entries = finite m ∧ ∃ entry ∈ entries, entry.2 = finite m := by
  have hlogs : ∀ x ∈ entries.map (·.2), IsLog x := by
    intro x hx
    obtain ⟨entry, hentry, rfl⟩ := List.mem_map.mp hx
    exact h.isLog entry hentry
  obtain ⟨number, hnumber, a, ha⟩ := h.exists_finite
  obtain ⟨m, hm, hsource⟩ := exists_foldl_max hlogs .negInf
    (Or.inr ⟨a, List.mem_map.mpr ⟨number, hnumber, ha⟩⟩)
  refine ⟨m, hm, ?_⟩
  rcases hsource with heq | hmem
  · cases heq
  · exact List.mem_map.mp hmem

end Order

variable [Field K] [LinearOrder K]

theorem masked_div {xs : List (ExactFloat K)} {n : ℕ} (h : Masked n xs) {b : K} (hb : 0 < b) :
    Masked n (xs.map (· / finite b)) where
  length_eq := by rw [List.length_map, h.length_eq]
  isLog x hx := by
    obtain ⟨y, hy, rfl⟩ := List.mem_map.mp hx
    exact (h.isLog y hy).div hb
  exists_finite := by
    obtain ⟨a, ha⟩ := h.exists_finite
    refine ⟨a / b, ?_⟩
    rw [← finite_div_finite hb.ne']
    exact List.mem_map_of_mem ha

/-! ### The selection -/

/-- The entries that `top_k` keeps. -/
def selected (sampler : Sampler K) (topK : Option ℕ) (entries : List (Entry K)) :
    List (Entry K) :=
  match topK with
  | some k => if k < entries.length then (sampler.select k entries).take k else entries
  | none => entries

section Selected

variable (sampler : Sampler K) {n : ℕ} {entries : List (Entry K)}

theorem keepTopK_eq (h : Weighted n entries) (topK : Option ℕ) :
    keepTopK sampler topK entries = .ok (sampler.selected topK entries) := by
  cases topK with
  | none => rfl
  | some k =>
      rw [keepTopK, selected]
      split
      · rw [if_pos h.comparable]
      · rfl

theorem selected_zero (h : Weighted n entries) : sampler.selected (some 0) entries = [] := by
  rw [selected, if_pos (List.length_pos_of_ne_nil h.ne_nil), List.take_zero]

theorem mem_of_mem_selected {topK : Option ℕ} {entry : Entry K}
    (hentry : entry ∈ sampler.selected topK entries) : entry ∈ entries := by
  cases topK with
  | none => exact hentry
  | some k =>
      rw [selected] at hentry
      split at hentry
      · exact (sampler.select_perm k entries).mem_iff.mp (List.mem_of_mem_take hentry)
      · exact hentry

/-- Nothing that is dropped is above something that is kept. -/
theorem not_lt_of_mem_drop (h : Weighted n entries) {k : ℕ} {kept dropped : Entry K}
    (hkept : kept ∈ (sampler.select k entries).take k)
    (hdropped : dropped ∈ (sampler.select k entries).drop k) : ¬ kept.2 < dropped.2 := by
  intro hlt
  apply sampler.select_before k entries h.comparable kept hkept dropped hdropped
  exact partialCmp_gt_iff.mpr hlt

/-- Fewer than `k` values are above one that is kept. -/
theorem countP_lt_of_mem_selected (h : Weighted n entries) {k : ℕ}
    {entry : Entry K} (hentry : entry ∈ sampler.selected (some k) entries) :
    entries.countP (entry.2 < ·.2) < k := by
  rw [selected] at hentry
  split at hentry
  · have hdropped : ((sampler.select k entries).drop k).countP (entry.2 < ·.2) = 0 := by
      rw [List.countP_eq_zero]
      intro dropped hmem habove
      exact not_lt_of_mem_drop sampler h hentry hmem (of_decide_eq_true habove)
    calc entries.countP (entry.2 < ·.2)
        = (sampler.select k entries).countP (entry.2 < ·.2) :=
          ((sampler.select_perm k entries).countP_eq _).symm
      _ = ((sampler.select k entries).take k).countP (entry.2 < ·.2) := by
          rw [← List.take_append_drop k (sampler.select k entries), List.countP_append,
            List.take_append_drop, hdropped, Nat.add_zero]
      _ < ((sampler.select k entries).take k).length := countP_lt_length hentry
      _ ≤ k := List.length_take_le ..
  · rename_i hall
    exact (countP_lt_length hentry).trans_le (Nat.le_of_not_lt hall)

/-- The largest entries hold a number again. -/
theorem selected_weighted (h : Weighted n entries) {topK : Option ℕ} (htopK : topK ≠ some 0) :
    Weighted n (sampler.selected topK entries) := by
  refine ⟨fun entry hentry => h.lt entry (mem_of_mem_selected sampler hentry),
    fun entry hentry => h.isLog entry (mem_of_mem_selected sampler hentry), ?_⟩
  cases topK with
  | none => exact h.exists_finite
  | some k =>
      rw [selected]
      split
      · rename_i hlt
        have hperm := sampler.select_perm k entries
        obtain ⟨number, hnumber, a, ha⟩ := h.exists_finite
        have hsplit : number ∈
            (sampler.select k entries).take k ++ (sampler.select k entries).drop k := by
          rw [List.take_append_drop]
          exact hperm.mem_iff.mpr hnumber
        rcases List.mem_append.mp hsplit with hkept | hdropped
        · exact ⟨number, hkept, a, ha⟩
        · -- whatever is kept is at least the number that is not
          have hne : (sampler.select k entries).take k ≠ [] := by
            apply List.ne_nil_of_length_pos
            rw [List.length_take, hperm.length_eq]
            have : k ≠ 0 := fun heq => htopK (by rw [heq])
            omega
          obtain ⟨entry, hentry⟩ := List.exists_mem_of_ne_nil _ hne
          have habove := not_lt_of_mem_drop sampler h hentry hdropped
          have hlog := h.isLog entry (hperm.mem_iff.mp (List.mem_of_mem_take hentry))
          refine ⟨entry, hentry, ?_⟩
          cases hvalue : entry.2 with
          | finite b => exact ⟨b, rfl⟩
          | negInf =>
              rw [ha, hvalue] at habove
              exact absurd rfl habove
          | posInf =>
              rw [hvalue] at hlog
              cases hlog
          | nan =>
              rw [hvalue] at hlog
              cases hlog
      · exact h.exists_finite

theorem keepTopK_zero (h : Weighted n entries) : keepTopK sampler (some 0) entries = .ok [] := by
  rw [keepTopK_eq sampler h, selected_zero sampler h]

end Selected

/-! ### The probabilities -/

theorem softmax_nil (exp : K → K) : softmax exp [] = [] := rfl

/-- The weights of some entries, in relation to the largest of them. -/
def weights (exp : K → K) (entries : List (Entry K)) : List (ℕ × K) :=
  entries.map fun entry => (entry.1, ((entry.2 - largest entries).exp exp).number)

def probabilities (exp : K → K) (entries : List (Entry K)) : List (ℕ × K) :=
  normalized (weights exp entries)

theorem map_fst_probabilities (exp : K → K) (entries : List (Entry K)) :
    (probabilities exp entries).map (·.1) = entries.map (·.1) := by
  rw [probabilities, map_fst_normalized, weights, List.map_map]
  rfl

section Distribution

variable (sampler : Sampler K) {n : ℕ} {entries : List (Entry K)}

/-- The exponential of an entry is its weight. -/
theorem exp_sub_largest (h : Weighted n entries) {entry : Entry K} (hentry : entry ∈ entries) :
    0 ≤ ((entry.2 - largest entries).exp sampler.exp).number ∧
      (entry.2 - largest entries).exp sampler.exp =
        finite ((entry.2 - largest entries).exp sampler.exp).number := by
  obtain ⟨m, hm, _⟩ := h.exists_largest
  obtain ⟨w, hw, hnonneg⟩ := (h.isLog entry hentry).exp_sub sampler.exp_nonneg m
  rw [hm, hw]
  exact ⟨hnonneg, rfl⟩

theorem weights_nonneg (h : Weighted n entries) : ∀ w ∈ weights sampler.exp entries, 0 ≤ w.2 := by
  intro w hw
  obtain ⟨entry, hentry, rfl⟩ := List.mem_map.mp hw
  exact (exp_sub_largest sampler h hentry).1

theorem exists_weight_pos (h : Weighted n entries) :
    ∃ w ∈ weights sampler.exp entries, 0 < w.2 := by
  obtain ⟨m, hm, entry, hentry, hvalue⟩ := h.exists_largest
  refine ⟨_, List.mem_map_of_mem hentry, ?_⟩
  dsimp only
  rw [hm, hvalue, finite_sub_finite, sub_self]
  exact sampler.exp_zero_pos

variable [IsStrictOrderedRing K]

theorem mass_weights_pos (h : Weighted n entries) : 0 < mass (weights sampler.exp entries) := by
  obtain ⟨w, hw, hpos⟩ := exists_weight_pos sampler h
  refine hpos.trans_le (List.single_le_sum ?_ _ (List.mem_map_of_mem hw))
  intro x hx
  obtain ⟨v, hv, rfl⟩ := List.mem_map.mp hx
  exact weights_nonneg sampler h v hv

theorem exists_probability_pos (h : Weighted n entries) :
    ∃ w ∈ probabilities sampler.exp entries, 0 < w.2 := by
  obtain ⟨w, hw, hpos⟩ := exists_weight_pos sampler h
  exact ⟨_, List.mem_map_of_mem hw, div_pos hpos (mass_weights_pos sampler h)⟩

theorem probabilities_nonneg (h : Weighted n entries) :
    ∀ w ∈ probabilities sampler.exp entries, 0 ≤ w.2 := by
  intro w hw
  obtain ⟨v, hv, rfl⟩ := List.mem_map.mp hw
  exact div_nonneg (weights_nonneg sampler h v hv) (mass_weights_pos sampler h).le

theorem mass_probabilities (h : Weighted n entries) :
    mass (probabilities sampler.exp entries) = 1 :=
  mass_normalized (mass_weights_pos sampler h).ne'

/-- The softmax of some candidates is their distribution. -/
theorem softmax_eq (h : Weighted n entries) :
    softmax sampler.exp entries = asEntries (probabilities sampler.exp entries) := by
  have hpos := mass_weights_pos sampler h
  have hexp : (entries.map fun entry =>
      (entry.1, (entry.2 - largest entries).exp sampler.exp)) =
        asEntries (weights sampler.exp entries) := by
    rw [asEntries, weights, List.map_map]
    refine List.map_congr_left fun entry hentry => ?_
    rw [(exp_sub_largest sampler h hentry).2]
    rfl
  calc softmax sampler.exp entries
      = (asEntries (weights sampler.exp entries)).map fun entry =>
          (entry.1, entry.2 / ExactFloat.sum ((asEntries (weights sampler.exp entries)).map (·.2)))
        := by
        rw [← hexp]
        rfl
    _ = asEntries (probabilities sampler.exp entries) := by
        rw [sum_asEntries, asEntries, asEntries, probabilities, normalized, List.map_map,
          List.map_map]
        refine List.map_congr_left fun w _ => ?_
        exact Prod.ext rfl (finite_div_finite hpos.ne')

end Distribution

end Kyro.Sampler
