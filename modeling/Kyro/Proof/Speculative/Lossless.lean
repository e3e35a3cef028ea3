import Kyro.Speculative

/-!
# Whether speculation is lossless

The target verifies its drafts in one pass, and row `i` of the pass predicts what comes after draft
`i`. The loop compares draft `i` with that row, where the row before it, or the prediction after the
context for the first draft, would be the one to compare it with. So a step returns the greedy
continuation only where, at every position that it looks at, the two predictions are the same.
-/

namespace Kyro

theorem Outcome.andThen_eq_ok {σ α β : Type} {outcome : Outcome σ α} {f : σ → α → Outcome σ β}
    {t : σ} {b : β} : outcome.andThen f = .ok (t, .ok b) ↔
      ∃ s a, outcome = .ok (s, .ok a) ∧ f s a = .ok (t, .ok b) := by
  constructor
  · intro h
    unfold Outcome.andThen at h
    split at h
    · cases h
    · cases h
    · exact ⟨_, _, rfl, h⟩
  · intro h
    obtain ⟨s, a, houtcome, hf⟩ := h
    rw [houtcome]
    exact hf

namespace SpeculativeDecoder

/-! ### Accepting -/

/-- What the loop accepts when the rows run along with the drafts. -/
def accepted : List Token → List Token → List Token
  | top :: rows, draft :: drafts =>
    if top = draft then draft :: accepted rows drafts else [top]
  | _, _ => []

theorem acceptLoop_eq {logits drafts : List Token} {i : ℕ}
    (hrows : i + drafts.length ≤ logits.length) :
    acceptLoop logits drafts i = .ok (accepted (logits.drop i) drafts) := by
  induction drafts generalizing i with
  | nil =>
      rw [acceptLoop]
      cases logits.drop i <;> rfl
  | cons draft drafts ih =>
      rw [List.length_cons] at hrows
      have hi : i < logits.length := by omega
      have hrow : row logits i = .ok logits[i] := by
        rw [row, List.getElem?_eq_getElem hi]
      rw [acceptLoop, hrow, List.drop_eq_getElem_cons hi, accepted]
      by_cases htop : logits[i] = draft
      · rw [if_pos htop, Machine.ok_bind, if_pos htop, ih (by omega), Machine.ok_bind]
        rfl
      · rw [if_neg htop, Machine.ok_bind, if_neg htop]
        rfl

theorem accepted_ne_nil {rows drafts : List Token} (hrows : rows.length = drafts.length)
    (hdrafts : drafts ≠ []) : accepted rows drafts ≠ [] := by
  cases rows with
  | nil => exact absurd (List.length_eq_zero_iff.mp hrows.symm) hdrafts
  | cons top rows =>
      cases drafts with
      | nil => exact absurd rfl hdrafts
      | cons draft drafts =>
          rw [accepted]
          split <;> simp

/-! ### The target as a function -/

section Target

variable (T : List Token → Token)

/-- The first tokens of the greedy continuation. -/
def greedy : List Token → ℕ → List Token
  | _, 0 => []
  | c, n + 1 => T c :: greedy (c ++ [T c]) n

/-- The predictions after each of the tokens. -/
def rowsAfter : List Token → List Token → List Token
  | _, [] => []
  | c, token :: tokens => T (c ++ [token]) :: rowsAfter (c ++ [token]) tokens

/-- At every draft that is looked at, the prediction is the same with the draft and without it. -/
def Aligned : List Token → List Token → Prop
  | _, [] => True
  | c, draft :: drafts =>
    T (c ++ [draft]) = T c ∧ (T (c ++ [draft]) = draft → Aligned (c ++ [draft]) drafts)

instance Aligned.decidable : ∀ c drafts, Decidable (Aligned T c drafts)
  | _, [] => isTrue trivial
  | c, draft :: drafts =>
    have := Aligned.decidable (c ++ [draft]) drafts
    inferInstanceAs (Decidable (T (c ++ [draft]) = T c ∧
      (T (c ++ [draft]) = draft → Aligned T (c ++ [draft]) drafts)))

variable {T}

@[simp] theorem length_rowsAfter (c tokens : List Token) :
    (rowsAfter T c tokens).length = tokens.length := by
  induction tokens generalizing c with
  | nil => rfl
  | cons token tokens ih => rw [rowsAfter, List.length_cons, ih, List.length_cons]

/-- **What is accepted is greedy exactly where the drafts are aligned.** -/
theorem accepted_eq_greedy_iff (c drafts : List Token) :
    accepted (rowsAfter T c drafts) drafts =
        greedy T c (accepted (rowsAfter T c drafts) drafts).length ↔ Aligned T c drafts := by
  induction drafts generalizing c with
  | nil => simp [rowsAfter, accepted, greedy, Aligned]
  | cons draft drafts ih =>
      rw [rowsAfter, accepted, Aligned]
      by_cases htop : T (c ++ [draft]) = draft
      · rw [if_pos htop, List.length_cons, greedy, List.cons.injEq, htop]
        by_cases hfirst : draft = T c
        · rw [← hfirst, ih]
          simp
        · simp [hfirst]
      · rw [if_neg htop]
        simp [greedy, htop]

end Target

/-! ### The step -/

variable {σ χ : Type}

/-- The target computes `T` after the context `c`, whose end the input is: fed the input it predicts
what comes after `c`, fed tokens it predicts what comes after each of them. -/
def Follows (target : Forward σ χ) (T : List Token → Token) (c : List Token) (input : χ) : Prop :=
  ∀ s index, (∃ s', target s (.input input) index = .ok (s', .ok [T c])) ∧
    ∀ tokens, ∃ s', target s (.tokens tokens) index = .ok (s', .ok (rowsAfter T c tokens))

section Step

variable {decoder : SpeculativeDecoder σ χ} {T : List Token → Token} {c : List Token} {input : χ}
  {s : σ} {index : ℕ} {contextTokens : List Token}

/-- What the verification returns, for any drafts. -/
theorem verifyDrafts_follows (hT : Follows decoder.targetModel T c input) (s : σ) (index : ℕ)
    (drafts : List Token) :
    ∃ s', decoder.verifyDrafts s input index drafts = .ok (s', .ok
      (if drafts = [] then [T c] else accepted (rowsAfter T c drafts) drafts)) := by
  cases drafts with
  | nil =>
      obtain ⟨⟨s', hinput⟩, _⟩ := hT s index
      refine ⟨s', ?_⟩
      rw [verifyDrafts, List.length_nil, if_pos rfl, if_pos rfl, forwardInput]
      exact Outcome.andThen_eq_ok.mpr ⟨s', [T c], hinput, rfl⟩
  | cons draft drafts =>
      obtain ⟨s', htokens⟩ := (hT s index).2 (draft :: drafts)
      refine ⟨s', ?_⟩
      rw [verifyDrafts, if_neg (by simp), if_neg (by simp)]
      refine Outcome.andThen_eq_ok.mpr ⟨s', _, htokens, ?_⟩
      rw [acceptLoop_eq (by simp), List.drop_zero]
      have hne := accepted_ne_nil (length_rowsAfter (T := T) c (draft :: drafts))
        (List.cons_ne_nil draft drafts)
      dsimp only
      rw [if_neg (by simpa using hne)]

/-- **When speculation is lossless.** Once the drafts are made, whatever made them, a step returns
tokens, and they are a front part of the target's greedy continuation if and only if the drafts are
aligned. -/
theorem step_lossless_iff (hT : Follows decoder.targetModel T c input) (s : σ) (index : ℕ)
    (contextTokens : List Token) :
    (∀ s₁ drafts, decoder.generateDrafts s input index contextTokens = .ok (s₁, .ok drafts) →
      ∃ s' tokens, decoder.step s input index contextTokens = .ok (s', .ok tokens)) ∧
    ((∀ s' tokens, decoder.step s input index contextTokens = .ok (s', .ok tokens) →
        tokens ≠ [] ∧ tokens = greedy T c tokens.length) ↔
      ∀ s₁ drafts, decoder.generateDrafts s input index contextTokens = .ok (s₁, .ok drafts) →
        Aligned T c drafts) := by
  -- a step with drafts returns what the verification makes of them
  have hstep : ∀ s₁ drafts,
      decoder.generateDrafts s input index contextTokens = .ok (s₁, .ok drafts) →
      ∃ s', decoder.step s input index contextTokens = .ok (s', .ok
        (if drafts = [] then [T c] else accepted (rowsAfter T c drafts) drafts)) := by
    intro s₁ drafts hdrafts
    obtain ⟨s', hverify⟩ := verifyDrafts_follows hT s₁ index drafts
    exact ⟨s', Outcome.andThen_eq_ok.mpr ⟨s₁, drafts, hdrafts, hverify⟩⟩
  have hreturned : ∀ drafts : List Token,
      ((if drafts = [] then [T c] else accepted (rowsAfter T c drafts) drafts) ≠ [] ∧
        (if drafts = [] then [T c] else accepted (rowsAfter T c drafts) drafts) =
          greedy T c (if drafts = [] then [T c]
            else accepted (rowsAfter T c drafts) drafts).length) ↔ Aligned T c drafts := by
    intro drafts
    by_cases hnone : drafts = []
    · subst hnone
      simp [greedy, Aligned]
    · simp only [if_neg hnone]
      rw [accepted_eq_greedy_iff]
      exact and_iff_right (accepted_ne_nil (length_rowsAfter c drafts) hnone)
  refine ⟨fun s₁ drafts hdrafts => ?_, fun hall s₁ drafts hdrafts => ?_,
    fun haligned s' tokens htokens => ?_⟩
  · obtain ⟨s', hok⟩ := hstep s₁ drafts hdrafts
    exact ⟨s', _, hok⟩
  · obtain ⟨s', hok⟩ := hstep s₁ drafts hdrafts
    exact (hreturned drafts).mp (hall s' _ hok)
  · obtain ⟨s₁, drafts, hdrafts, _⟩ := Outcome.andThen_eq_ok.mp htokens
    obtain ⟨same, hok⟩ := hstep s₁ drafts hdrafts
    rw [hok] at htokens
    cases htokens
    exact (hreturned drafts).mpr (haligned s₁ drafts hdrafts)

end Step

/-- The model that computes `T` after `c`. -/
def contextModel (T : List Token → Token) (c : List Token) : Forward Unit Unit
  | s, .input _, _ => .ok (s, .ok [T c])
  | s, .tokens tokens, _ => .ok (s, .ok (rowsAfter T c tokens))

theorem contextModel_follows (T : List Token → Token) (c : List Token) :
    Follows (contextModel T c) T c () :=
  fun s _ => ⟨⟨s, rfl⟩, fun _ => ⟨s, rfl⟩⟩

/-- A target that predicts the same token after every context, drafting for itself. -/
theorem step_lossless_constant :
    ∃ s' tokens,
      (new (contextModel (fun _ => 4) [7]) (some (contextModel (fun _ => 4) [7])) 2).step () () 0
        [7] = .ok (s', .ok tokens) ∧
      tokens ≠ [] ∧ tokens = greedy (fun _ => 4) [7] tokens.length := by
  obtain ⟨hreturns, hiff⟩ := @step_lossless_iff _ _
    (new (contextModel (fun _ => 4) [7]) (some (contextModel (fun _ => 4) [7])) 2)
    (fun _ => 4) [7] () (contextModel_follows (fun _ => 4) [7]) () 0 [7]
  have hdrafts : (new (contextModel (fun _ => 4) [7])
      (some (contextModel (fun _ => 4) [7])) 2).generateDrafts () () 0 [7] =
        .ok ((), .ok [4, 4]) := rfl
  obtain ⟨s', tokens, hok⟩ := hreturns () [4, 4] hdrafts
  refine ⟨s', tokens, hok, hiff.mpr ?_ s' tokens hok⟩
  intro s₁ drafts hmade
  rw [hdrafts] at hmade
  cases hmade
  decide

/-- The draft model is the target, so its draft is the first token of the greedy continuation. The
row it is compared with predicts the token after it, and the step returns that one. -/
theorem step_skips_token :
    (new (contextModel (fun ctx => UInt32.ofNat ctx.length) [7])
        (some (contextModel (fun ctx => UInt32.ofNat ctx.length) [7])) 1).generateDrafts () () 0
          [7] = .ok ((), .ok [1]) ∧
    (new (contextModel (fun ctx => UInt32.ofNat ctx.length) [7])
        (some (contextModel (fun ctx => UInt32.ofNat ctx.length) [7])) 1).step () () 0 [7] =
          .ok ((), .ok [2]) ∧
    greedy (fun ctx => UInt32.ofNat ctx.length) [7] 2 = [1, 2] :=
  ⟨rfl, rfl, rfl⟩

end SpeculativeDecoder
end Kyro
