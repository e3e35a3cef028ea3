import Mathlib.Algebra.Order.Field.Basic
import Mathlib.Order.Compare
import Mathlib.Order.WithBotTop

/-!
# Floating point without rounding

The values of a floating-point format over an ordered field: the numbers themselves, the two
infinities and NaN, with the arithmetic and the comparisons of IEEE 754 except that no result is
rounded and that zero has no sign.
-/

inductive ExactFloat (K : Type*) where
  | finite (a : K)
  | posInf
  | negInf
  | nan
  deriving DecidableEq, Repr

namespace ExactFloat

variable {K : Type*}

/-! ### Comparisons -/

section Order

variable [LinearOrder K]

/-- The order of two values, which NaN has with none. -/
def partialCmp : ExactFloat K → ExactFloat K → Option Ordering
  | nan, _ | _, nan => none
  | finite a, finite b => some (compare a b)
  | posInf, posInf | negInf, negInf => some .eq
  | negInf, _ | _, posInf => some .lt
  | posInf, _ | _, negInf => some .gt

instance : LT (ExactFloat K) := ⟨fun x y => x.partialCmp y = some .lt⟩
instance : LE (ExactFloat K) := ⟨fun x y => x.partialCmp y = some .lt ∨ x.partialCmp y = some .eq⟩

instance (x y : ExactFloat K) : Decidable (x < y) :=
  inferInstanceAs (Decidable (x.partialCmp y = some .lt))

instance (x y : ExactFloat K) : Decidable (x ≤ y) :=
  inferInstanceAs (Decidable (x.partialCmp y = some .lt ∨ x.partialCmp y = some .eq))

/-- The larger of two values, and the other one of NaN. -/
def max (x y : ExactFloat K) : ExactFloat K :=
  match x, y with
  | nan, y => y
  | x, nan => x
  | x, y => if x < y then y else x

/-- Two values compare unless one of them is NaN. -/
theorem partialCmp_isSome {x y : ExactFloat K} (hx : x ≠ nan) (hy : y ≠ nan) :
    (x.partialCmp y).isSome := by
  cases x <;> cases y <;> first | rfl | contradiction

/-- The place of a value in a total order that agrees with the comparisons. -/
def rank : ExactFloat K → WithBot (WithBot (WithTop K))
  | nan => ⊥
  | negInf => WithBot.some ⊥
  | finite a => WithBot.some (WithBot.some (WithTop.some a))
  | posInf => WithBot.some (WithBot.some ⊤)

theorem finite_lt_finite {a b : K} : finite a < finite b ↔ a < b :=
  Option.some_inj.trans compare_lt_iff_lt

theorem finite_le_finite {a b : K} : finite a ≤ finite b ↔ a ≤ b := by
  have hle : finite a ≤ finite b ↔
      some (compare a b) = some .lt ∨ some (compare a b) = some .eq := Iff.rfl
  rw [hle, Option.some_inj, Option.some_inj, compare_lt_iff_lt, compare_eq_iff_eq, le_iff_lt_or_eq]

/-- The comparison the other way round. -/
theorem partialCmp_gt_iff {x y : ExactFloat K} : y.partialCmp x = some .gt ↔ x < y := by
  have hswap : x < y ↔ x.partialCmp y = some .lt := Iff.rfl
  rw [hswap]
  cases x with
  | finite a =>
      cases y with
      | finite b => simp [partialCmp, compare_gt_iff_gt, compare_lt_iff_lt]
      | posInf => simp [partialCmp]
      | negInf => simp [partialCmp]
      | nan => simp [partialCmp]
  | posInf => cases y <;> simp [partialCmp]
  | negInf => cases y <;> simp [partialCmp]
  | nan => cases y <;> simp [partialCmp]

theorem not_lt_self (x : ExactFloat K) : ¬ x < x := by
  intro hlt
  have hless : x.partialCmp x = some .lt := hlt
  have hgreater := partialCmp_gt_iff.mpr hlt
  rw [hless] at hgreater
  cases hgreater

theorem rank_lt_of_partialCmp {x y : ExactFloat K} (h : y.partialCmp x = some .gt) :
    x.rank < y.rank := by
  cases x with
  | finite a =>
      cases y with
      | finite b =>
          have hlt : a < b := compare_gt_iff_gt.mp (Option.some.inj h)
          simpa [rank] using hlt
      | posInf => exact WithBot.coe_lt_coe.mpr (WithBot.coe_lt_coe.mpr (WithTop.coe_lt_top a))
      | negInf => cases h
      | nan => cases h
  | posInf => cases y <;> cases h
  | negInf =>
      cases y with
      | finite b => simp [rank]
      | posInf => exact WithBot.coe_lt_coe.mpr (WithBot.bot_lt_coe _)
      | negInf => cases h
      | nan => cases h
  | nan => cases y <;> cases h

theorem rank_injective :
    Function.Injective (rank : ExactFloat K → WithBot (WithBot (WithTop K))) := by
  intro x y heq
  cases x <;> cases y <;> simp_all [rank]

theorem lt_iff_rank_lt {x y : ExactFloat K} (hx : x ≠ nan) : x < y ↔ x.rank < y.rank := by
  refine ⟨fun hlt => rank_lt_of_partialCmp (partialCmp_gt_iff.mpr hlt), fun hrank => ?_⟩
  cases x with
  | finite a =>
      cases y with
      | finite b => exact finite_lt_finite.mpr (by simpa [rank] using hrank)
      | posInf => rfl
      | negInf => simp [rank] at hrank
      | nan => simp [rank] at hrank
  | posInf => cases y <;> simp [rank] at hrank
  | negInf =>
      cases y with
      | finite b => rfl
      | posInf => rfl
      | negInf => simp at hrank
      | nan => simp [rank] at hrank
  | nan => exact absurd rfl hx

/-- What is not NaN has the order of its places. -/
theorem le_iff_rank_le {x y : ExactFloat K} (hx : x ≠ nan) (hy : y ≠ nan) :
    x ≤ y ↔ x.rank ≤ y.rank := by
  have hle : x ≤ y ↔ x.partialCmp y = some .lt ∨ x.partialCmp y = some .eq := Iff.rfl
  obtain ⟨order, horder⟩ := Option.isSome_iff_exists.mp (partialCmp_isSome hx hy)
  have hgt : y < x ↔ order = .gt := by
    rw [← partialCmp_gt_iff, horder, Option.some_inj]
  rw [hle, horder, Option.some_inj, Option.some_inj, ← not_lt, ← lt_iff_rank_lt hy, hgt]
  cases order <;> simp

end Order

/-! ### Arithmetic -/

section Addition

variable [AddGroup K]

def add : ExactFloat K → ExactFloat K → ExactFloat K
  | nan, _ | _, nan => nan
  | finite a, finite b => finite (a + b)
  | posInf, negInf | negInf, posInf => nan
  | posInf, _ | _, posInf => posInf
  | negInf, _ | _, negInf => negInf

def neg : ExactFloat K → ExactFloat K
  | finite a => finite (-a)
  | posInf => negInf
  | negInf => posInf
  | nan => nan

instance : Zero (ExactFloat K) := ⟨finite 0⟩
instance : Add (ExactFloat K) := ⟨add⟩
instance : Sub (ExactFloat K) := ⟨fun x y => add x (neg y)⟩

/-- The sum from left to right. -/
def sum (xs : List (ExactFloat K)) : ExactFloat K := xs.foldl (· + ·) 0

/-- The exponential, from the one of the field. -/
def exp (e : K → K) : ExactFloat K → ExactFloat K
  | finite a => finite (e a)
  | posInf => posInf
  | negInf => finite 0
  | nan => nan

/-- The number that a value is, and zero for the others. -/
def number : ExactFloat K → K
  | finite a => a
  | _ => 0

/-- A sum of numbers is one. -/
theorem sum_map_finite (xs : List K) : sum (xs.map finite) = finite xs.sum := by
  have hfold : ∀ a : K, (xs.map finite).foldl (· + ·) (finite a) = finite (a + xs.sum) := by
    induction xs with
    | nil => exact fun a => congrArg finite (add_zero a).symm
    | cons x xs ih =>
        intro a
        rw [List.sum_cons, ← add_assoc]
        exact ih (a + x)
  exact (hfold 0).trans (congrArg finite (zero_add _))

@[simp] theorem finite_sub_finite (a b : K) : finite a - finite b = finite (a - b) :=
  (congrArg finite (sub_eq_add_neg a b)).symm

theorem zero_add_eq (x : ExactFloat K) : 0 + x = x := by
  cases x with
  | finite a => exact congrArg finite (zero_add a)
  | posInf => rfl
  | negInf => rfl
  | nan => rfl

theorem sum_append_singleton (xs : List (ExactFloat K)) (x : ExactFloat K) :
    sum (xs ++ [x]) = sum xs + x := by
  rw [sum, List.foldl_append]
  rfl

end Addition

section Field

variable [Field K] [LinearOrder K]

/-- The infinity with the sign of a number. -/
def infinity (a : K) : ExactFloat K :=
  if 0 < a then posInf else if a < 0 then negInf else nan

def mul : ExactFloat K → ExactFloat K → ExactFloat K
  | nan, _ | _, nan => nan
  | finite a, finite b => finite (a * b)
  | finite a, posInf | posInf, finite a => infinity a
  | finite a, negInf | negInf, finite a => infinity (-a)
  | posInf, posInf | negInf, negInf => posInf
  | posInf, negInf | negInf, posInf => negInf

def div : ExactFloat K → ExactFloat K → ExactFloat K
  | nan, _ | _, nan => nan
  | finite a, finite b => if b = 0 then infinity a else finite (a / b)
  | finite _, _ => finite 0
  | posInf, finite b => if b < 0 then negInf else posInf
  | negInf, finite b => if b < 0 then posInf else negInf
  | _, _ => nan

instance : Mul (ExactFloat K) := ⟨mul⟩
instance : Div (ExactFloat K) := ⟨div⟩

theorem finite_div_finite {a b : K} (hb : b ≠ 0) : finite a / finite b = finite (a / b) :=
  if_neg hb

theorem negInf_div_finite {b : K} (hb : 0 ≤ b) : negInf / finite b = negInf :=
  if_neg (not_lt.mpr hb)

end Field

/-! ### Logarithms of weights

A number or negative infinity is the logarithm of a weight: shifted by a number and exponentiated
it is a number again.
-/

inductive IsLog : ExactFloat K → Prop where
  | finite (a : K) : IsLog (finite a)
  | negInf : IsLog negInf

instance IsLog.decidable : ∀ x : ExactFloat K, Decidable x.IsLog
  | .finite a => isTrue (.finite a)
  | .posInf => isFalse fun h => by cases h
  | .negInf => isTrue .negInf
  | .nan => isFalse fun h => by cases h

theorem IsLog.div [Field K] [LinearOrder K] {x : ExactFloat K} (h : x.IsLog) {b : K}
    (hb : 0 < b) : (x / ExactFloat.finite b).IsLog := by
  cases h with
  | finite a =>
      rw [finite_div_finite hb.ne']
      exact .finite _
  | negInf =>
      rw [negInf_div_finite hb.le]
      exact .negInf

/-- Dividing by a number above zero keeps the order. -/
theorem IsLog.div_lt_div_iff [Field K] [LinearOrder K] [IsStrictOrderedRing K]
    {x y : ExactFloat K} (hx : x.IsLog) (hy : y.IsLog) {b : K} (hb : 0 < b) :
    x / ExactFloat.finite b < y / ExactFloat.finite b ↔ x < y := by
  cases hx with
  | finite a =>
      cases hy with
      | finite c =>
          rw [finite_div_finite hb.ne', finite_div_finite hb.ne', finite_lt_finite,
            finite_lt_finite, div_lt_div_iff_of_pos_right hb]
      | negInf =>
          rw [finite_div_finite hb.ne', negInf_div_finite hb.le]
          exact Iff.rfl
  | negInf =>
      cases hy with
      | finite c =>
          rw [finite_div_finite hb.ne', negInf_div_finite hb.le]
          exact Iff.rfl
      | negInf => rw [negInf_div_finite hb.le]

/-- Dividing by a number above zero loses nothing. -/
theorem IsLog.div_inj [Field K] [LinearOrder K] {x y : ExactFloat K} (hx : x.IsLog)
    (hy : y.IsLog) {b : K} (hb : 0 < b) :
    x / ExactFloat.finite b = y / ExactFloat.finite b ↔ x = y := by
  refine ⟨fun heq => ?_, fun heq => heq ▸ rfl⟩
  cases hx with
  | finite a =>
      cases hy with
      | finite c =>
          rw [finite_div_finite hb.ne', finite_div_finite hb.ne', ExactFloat.finite.injEq,
            div_left_inj' hb.ne'] at heq
          rw [heq]
      | negInf =>
          rw [finite_div_finite hb.ne', negInf_div_finite hb.le] at heq
          cases heq
  | negInf =>
      cases hy with
      | finite c =>
          rw [finite_div_finite hb.ne', negInf_div_finite hb.le] at heq
          cases heq
      | negInf => rfl

/-- The logarithms that a division leaves as they are. -/
theorem IsLog.div_eq_self_iff [Field K] [LinearOrder K] {x : ExactFloat K} (hx : x.IsLog) {b : K}
    (hb : 0 < b) : x / ExactFloat.finite b = x ↔ x = 0 ∨ x = ExactFloat.negInf ∨ b = 1 := by
  cases hx with
  | finite a =>
      have hzero : ExactFloat.finite a = 0 ↔ a = 0 := ExactFloat.finite.injEq a 0 ▸ Iff.rfl
      rw [finite_div_finite hb.ne', ExactFloat.finite.injEq, div_eq_iff hb.ne', hzero,
        eq_comm (b := a * b), mul_right_eq_self₀]
      simp [or_comm]
  | negInf => simp [negInf_div_finite hb.le]

theorem IsLog.add [AddGroup K] {x y : ExactFloat K} (hx : x.IsLog) (hy : y.IsLog) :
    (x + y).IsLog := by
  cases hx with
  | finite a =>
      cases hy with
      | finite b => exact .finite (a + b)
      | negInf => exact .negInf
  | negInf => cases hy <;> exact .negInf

/-- Two sums with a logarithm are the same where it is negative infinity, and elsewhere only where
what it is added to is. -/
theorem IsLog.add_inj [AddGroup K] {x y z : ExactFloat K} (hx : x.IsLog) (hy : y.IsLog)
    (hz : z.IsLog) : x + z = y + z ↔ z = ExactFloat.negInf ∨ x = y := by
  cases hz with
  | finite c =>
      cases hx with
      | finite a =>
          cases hy with
          | finite b =>
              have hsum : ExactFloat.finite a + ExactFloat.finite c =
                  ExactFloat.finite b + ExactFloat.finite c ↔ a + c = b + c :=
                ExactFloat.finite.injEq (a + c) (b + c) ▸ Iff.rfl
              rw [hsum, add_right_cancel_iff]
              simp
          | negInf => exact iff_of_false (fun heq => by cases heq) (by simp)
      | negInf =>
          cases hy with
          | finite b => exact iff_of_false (fun heq => by cases heq) (by simp)
          | negInf => simp
  | negInf => cases hx <;> cases hy <;> exact iff_of_true rfl (Or.inl rfl)

theorem IsLog.ne_nan {x : ExactFloat K} (h : x.IsLog) : x ≠ nan := by
  cases h with
  | finite a => exact fun heq => by cases heq
  | negInf => exact fun heq => by cases heq

theorem IsLog.le_trans [LinearOrder K] {x y z : ExactFloat K} (hx : x.IsLog) (hy : y.IsLog)
    (hz : z.IsLog) (hxy : x ≤ y) (hyz : y ≤ z) : x ≤ z := by
  rw [le_iff_rank_le hx.ne_nan hy.ne_nan] at hxy
  rw [le_iff_rank_le hy.ne_nan hz.ne_nan] at hyz
  exact (le_iff_rank_le hx.ne_nan hz.ne_nan).mpr (hxy.trans hyz)

/-- The larger of two logarithms is one of them, and a number where one of them is. -/
theorem IsLog.max [LinearOrder K] {x y : ExactFloat K} (hx : x.IsLog) (hy : y.IsLog) :
    (x.max y = x ∨ x.max y = y) ∧
      ((∃ a, x = ExactFloat.finite a) ∨ (∃ a, y = ExactFloat.finite a) →
        ∃ a, x.max y = ExactFloat.finite a) := by
  cases hx with
  | finite a =>
      cases hy with
      | finite b =>
          have hmax : (ExactFloat.finite a).max (ExactFloat.finite b) =
              if ExactFloat.finite a < ExactFloat.finite b then ExactFloat.finite b
              else ExactFloat.finite a := rfl
          rw [hmax]
          split
          · exact ⟨Or.inr rfl, fun _ => ⟨b, rfl⟩⟩
          · exact ⟨Or.inl rfl, fun _ => ⟨a, rfl⟩⟩
      | negInf => exact ⟨Or.inl rfl, fun _ => ⟨a, rfl⟩⟩
  | negInf =>
      cases hy with
      | finite b => exact ⟨Or.inr rfl, fun _ => ⟨b, rfl⟩⟩
      | negInf => exact ⟨Or.inl rfl, fun h => by simp at h⟩

/-- The largest of some logarithms is one of them, and a number where one of them is. -/
theorem exists_foldl_max [LinearOrder K] {xs : List (ExactFloat K)} {x : ExactFloat K}
    (hxs : ∀ y ∈ xs, y.IsLog) (hx : x.IsLog)
    (hfinite : (∃ a, x = finite a) ∨ ∃ a, finite a ∈ xs) :
    ∃ a, xs.foldl max x = finite a ∧ (x = finite a ∨ finite a ∈ xs) := by
  induction xs generalizing x with
  | nil =>
      obtain ⟨a, rfl⟩ := hfinite.resolve_right fun ⟨_, hmem⟩ => by cases hmem
      exact ⟨a, rfl, Or.inl rfl⟩
  | cons y ys ih =>
      have hy := hxs y List.mem_cons_self
      obtain ⟨hone, hmax⟩ := hx.max hy
      have hlog : (x.max y).IsLog := by
        rcases hone with heq | heq
        · rwa [heq]
        · rwa [heq]
      have hnumber : (∃ a, x.max y = finite a) ∨ ∃ a, finite a ∈ ys := by
        rcases hfinite with hx | ⟨a, hmem⟩
        · exact Or.inl (hmax (Or.inl hx))
        · rcases List.mem_cons.mp hmem with heq | hmem
          · exact Or.inl (hmax (Or.inr ⟨a, heq.symm⟩))
          · exact Or.inr ⟨a, hmem⟩
      obtain ⟨a, ha, hsource⟩ := ih (fun z hz => hxs z (.tail y hz)) hlog hnumber
      refine ⟨a, ha, ?_⟩
      rcases hsource with hhead | htail
      · rcases hone with heq | heq
        · exact Or.inl (heq.symm.trans hhead)
        · exact Or.inr (hhead.symm.trans heq ▸ List.mem_cons_self)
      · exact Or.inr (.tail y htail)

/-- A logarithm shifted by a number and exponentiated is a weight. -/
theorem IsLog.exp_sub [AddGroup K] [LinearOrder K] {x : ExactFloat K} (h : x.IsLog) {e : K → K}
    (he : ∀ a, 0 ≤ e a) (m : K) :
    ∃ w, exp e (x - ExactFloat.finite m) = ExactFloat.finite w ∧ 0 ≤ w := by
  cases h with
  | finite a =>
      refine ⟨e (a - m), ?_, he _⟩
      rw [finite_sub_finite]
      rfl
  | negInf => exact ⟨0, rfl, le_refl 0⟩

end ExactFloat
