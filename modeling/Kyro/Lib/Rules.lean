import Mathlib.Data.List.Nodup
import Mathlib.Tactic.TypeStar

/-!
# Ordered rules

Rules in a fixed order, each with its keys and its class: the first rule one of whose keys occurs
decides. Keys may be parts of one another, and where a key occurs its parts do. A key whose part is
among the keys of an earlier rule is shadowed: its own rule never decides where it occurs.
-/

namespace Rules

variable {κ γ : Type*}

/-- The class of the first rule with a key that occurs. -/
def classify (occurs : κ → Bool) (fallback : γ) : List (List κ × γ) → γ
  | [] => fallback
  | (keys, c) :: rules => if keys.any occurs then c else classify occurs fallback rules

variable {occurs occurs' : κ → Bool} {fallback c : γ} {keys : List κ} {k : κ}
  {rules : List (List κ × γ)}

theorem classify_cons_of_mem (hk : k ∈ keys) (hoccurs : occurs k = true) :
    classify occurs fallback ((keys, c) :: rules) = c :=
  if_pos (List.any_eq_true.mpr ⟨k, hk, hoccurs⟩)

theorem classify_cons_of_none (hnone : ∀ j ∈ keys, occurs j = false) :
    classify occurs fallback ((keys, c) :: rules) = classify occurs fallback rules :=
  if_neg (by simpa using hnone)

/-- Only the keys of the rules matter. -/
theorem classify_congr (h : ∀ rule ∈ rules, ∀ j ∈ rule.1, occurs j = occurs' j) :
    classify occurs fallback rules = classify occurs' fallback rules := by
  induction rules with
  | nil => rfl
  | cons rule rules ih =>
      obtain ⟨keys, c⟩ := rule
      have hany : keys.any occurs = keys.any occurs' := by
        rw [Bool.eq_iff_iff, List.any_eq_true, List.any_eq_true]
        exact exists_congr fun j => and_congr_right fun hj => by rw [h _ List.mem_cons_self j hj]
      rw [classify, classify, hany, ih fun rule hrule => h rule (.tail _ hrule)]

section Parts

variable {part : κ → κ → Prop} [DecidableRel part]

/-- A key that occurs and of which every key that occurs is a part. -/
structure Dominant (part : κ → κ → Prop) (rules : List (List κ × γ)) (occurs : κ → Bool)
    (k : κ) : Prop where
  present : occurs k = true
  others : ∀ rule ∈ rules, ∀ j ∈ rule.1, occurs j = true → part j k

/-- A key does not get its class by itself. -/
def Shadowed (part : κ → κ → Prop) [DecidableRel part] (fallback : γ)
    (rules : List (List κ × γ)) (k : κ) (c : γ) : Prop :=
  classify (fun j => decide (part j k)) fallback rules ≠ c

instance [DecidableEq γ] : Decidable (Shadowed part fallback rules k c) :=
  inferInstanceAs (Decidable (_ ≠ _))

/-- **A dominant key decides** as it does by itself. -/
theorem Dominant.classify_eq_iff (h : Dominant part rules occurs k)
    (hparts : ∀ j, part j k → occurs j = true) :
    classify occurs fallback rules = c ↔ ¬ Shadowed part fallback rules k c := by
  have hsame : classify occurs fallback rules =
      classify (fun j => decide (part j k)) fallback rules := by
    refine classify_congr fun rule hrule j hj => ?_
    rw [Bool.eq_iff_iff, decide_eq_true_iff]
    exact ⟨h.others rule hrule j hj, hparts j⟩
  rw [hsame, Shadowed, not_not]

/-- **A shadowed key is out of reach**: where it occurs, its own rule does not decide. -/
theorem Shadowed.classify_ne (h : Shadowed part fallback rules k c) (hself : part k k)
    (hclasses : (rules.map Prod.snd).Nodup) (hmem : (keys, c) ∈ rules) (hk : k ∈ keys)
    (hparts : ∀ j, part j k → occurs j = true) :
    classify occurs fallback rules ≠ c := by
  induction rules with
  | nil => cases hmem
  | cons rule rules ih =>
      obtain ⟨keys₀, c₀⟩ := rule
      obtain ⟨hfresh, hclasses⟩ := List.nodup_cons.mp hclasses
      by_cases hpart : ∃ j ∈ keys₀, part j k
      · obtain ⟨j, hj, hpart⟩ := hpart
        have hne : c₀ ≠ c := by
          rwa [Shadowed, classify_cons_of_mem hj (decide_eq_true hpart)] at h
        rwa [classify_cons_of_mem hj (hparts j hpart)]
      · have hnone : ∀ j ∈ keys₀, ¬ part j k := fun j hj hpart' => hpart ⟨j, hj, hpart'⟩
        have htail : (keys, c) ∈ rules := by
          refine (List.mem_cons.mp hmem).resolve_left fun heq => ?_
          obtain ⟨rfl, _⟩ := Prod.mk.inj heq
          exact hnone k hk hself
        have hrest : Shadowed part fallback rules k c := by
          rwa [Shadowed, classify_cons_of_none fun j hj => decide_eq_false (hnone j hj)] at h
        rw [classify]
        split
        · intro heq
          have hclass : c ∈ rules.map Prod.snd := List.mem_map_of_mem htail
          exact hfresh (heq ▸ hclass)
        · exact ih hrest hclasses htail

end Parts

end Rules
