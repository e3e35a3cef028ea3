import Mathlib.Algebra.Order.Floor.Ring
import Mathlib.Algebra.Order.Field.Basic
import Mathlib.Data.Int.Log
import Mathlib.Tactic.FieldSimp
import Mathlib.Tactic.Linarith
import Mathlib.Tactic.NormNum
import Mathlib.Tactic.Ring

/-!
# Rounding to integers and clamping

Clamping to an interval and the extremes of a list, over any linear order, and rounding to the
nearest integer, half away from zero, over any ordered field with a floor. One theorem is about a
scale of equidistant levels whose zero is one of them: a number of a range that is as long as the
scale is at most one level away from the level it is rounded to, exactly if it is at most one level
beyond the length of the scale. The last part is about a floating-point format: numbers are rounded
to the nearest multiple of their last place, half to even.
-/

namespace Rounding

variable {K : Type*} [LinearOrder K]

/-! ### Clamping -/

def clamp (lo hi x : K) : K := if x < lo then lo else if hi < x then hi else x

section Clamp

variable {lo hi x : K}

theorem clamp_of_mem (hlo : lo ≤ x) (hhi : x ≤ hi) : clamp lo hi x = x := by
  rw [clamp, if_neg (not_lt.mpr hlo), if_neg (not_lt.mpr hhi)]

theorem clamp_of_le (hle : lo ≤ hi) (h : x ≤ lo) : clamp lo hi x = lo := by
  rcases eq_or_lt_of_le h with rfl | hlt
  · exact clamp_of_mem le_rfl hle
  · rw [clamp, if_pos hlt]

theorem clamp_of_ge (hle : lo ≤ hi) (h : hi ≤ x) : clamp lo hi x = hi := by
  rcases eq_or_lt_of_le h with rfl | hlt
  · exact clamp_of_mem hle le_rfl
  · rw [clamp, if_neg (not_lt.mpr (hle.trans h)), if_pos hlt]

end Clamp

/-! ### Extremes of a list -/

theorem foldl_min_spec (a : K) (l : List K) :
    l.foldl min a ∈ a :: l ∧ ∀ b ∈ a :: l, l.foldl min a ≤ b :=
  List.min?_eq_some_iff.mp List.min?_cons'

theorem foldl_max_spec (a : K) (l : List K) :
    l.foldl max a ∈ a :: l ∧ ∀ b ∈ a :: l, b ≤ l.foldl max a :=
  List.max?_eq_some_iff.mp List.max?_cons'

/-! ### Rounding -/

variable [Field K] [FloorRing K]

/-- The nearest integer, half away from zero. -/
def round (x : K) : K := if 0 ≤ x then ⌊x + 1 / 2⌋ else -⌊1 / 2 - x⌋

theorem exists_round (x : K) : ∃ n : ℤ, round x = n := by
  rw [round]
  split
  · exact ⟨_, rfl⟩
  · exact ⟨-⌊1 / 2 - x⌋, (Int.cast_neg _).symm⟩

variable [IsStrictOrderedRing K]

theorem abs_sub_round_le (x : K) : |x - round x| ≤ 1 / 2 := by
  rw [round, abs_le]
  split
  · have hle := Int.floor_le (x + 1 / 2)
    have hlt := Int.lt_floor_add_one (x + 1 / 2)
    constructor
    · linarith
    · linarith
  · have hle := Int.floor_le (1 / 2 - x)
    have hlt := Int.lt_floor_add_one (1 / 2 - x)
    constructor
    · linarith
    · linarith

/-- A number next to an integer is rounded to it. -/
theorem round_eq_of_lt {x : K} {n : ℤ} (h : |x - n| < 1 / 2) : round x = n := by
  obtain ⟨m, hm⟩ := exists_round x
  have hround := abs_sub_round_le x
  rw [hm, abs_le] at hround
  rw [abs_lt] at h
  have hlt : ((m - n : ℤ) : K) < 1 := by
    push_cast
    linarith
  have hgt : ((n - m : ℤ) : K) < 1 := by
    push_cast
    linarith
  have hmn : m - n < 1 := by exact_mod_cast hlt
  have hnm : n - m < 1 := by exact_mod_cast hgt
  have heq : m = n := by omega
  rw [hm, heq]

theorem round_intCast (n : ℤ) : round (n : K) = n := by
  apply round_eq_of_lt
  rw [sub_self, abs_zero]
  norm_num

/-! ### Levels -/

/-- A rounded number, clamped to levels from zero to `n`. -/
def level (n : ℕ) (x : K) : K := clamp 0 n (round x)

theorem exists_level (n : ℕ) (x : K) : ∃ j : ℕ, j ≤ n ∧ level n x = j := by
  obtain ⟨k, hk⟩ := exists_round x
  have hn : (0 : K) ≤ n := Nat.cast_nonneg n
  rw [level, hk]
  rcases le_total k 0 with hneg | hpos
  · refine ⟨0, Nat.zero_le n, ?_⟩
    rw [clamp_of_le hn (by exact_mod_cast hneg), Nat.cast_zero]
  · rcases le_total (n : ℤ) k with hge | hle
    · exact ⟨n, le_rfl, clamp_of_ge hn (by exact_mod_cast hge)⟩
    · lift k to ℕ using hpos
      have hkn : k ≤ n := by exact_mod_cast hle
      refine ⟨k, hkn, ?_⟩
      rw [Int.cast_natCast, clamp_of_mem (Nat.cast_nonneg k) (by exact_mod_cast hkn)]

theorem level_of_nonpos {n : ℕ} {x : K} (h : x ≤ 0) : level n x = 0 := by
  obtain ⟨k, hk⟩ := exists_round x
  have hround := abs_le.mp (abs_sub_round_le x)
  apply clamp_of_le (Nat.cast_nonneg n)
  have hlt : (k : K) < 1 := by
    rw [hk] at hround
    linarith [hround.1]
  have hk' : k < 1 := by exact_mod_cast hlt
  rw [hk]
  exact_mod_cast Int.lt_add_one_iff.mp hk'

theorem level_of_ge {n : ℕ} {x : K} (h : (n : K) ≤ x) : level n x = n := by
  obtain ⟨k, hk⟩ := exists_round x
  have hround := abs_le.mp (abs_sub_round_le x)
  apply clamp_of_ge (Nat.cast_nonneg n)
  have hlt : ((n : ℤ) : K) < k + 1 := by
    rw [hk] at hround
    push_cast
    linarith [hround.2]
  have hk' : (n : ℤ) < k + 1 := by exact_mod_cast hlt
  rw [hk]
  exact_mod_cast Int.lt_add_one_iff.mp hk'

/-- Up to half a level around the scale, nothing is lost by clamping. -/
theorem abs_sub_level_le {n : ℕ} {x : K} (hlo : -(1 / 2) ≤ x) (hhi : x ≤ n + 1 / 2) :
    |x - level n x| ≤ 1 / 2 := by
  rcases le_total x 0 with hneg | hpos
  · rw [level_of_nonpos hneg, abs_le]
    constructor
    · linarith
    · linarith
  · rcases le_total (n : K) x with hge | hle
    · rw [level_of_ge hge, abs_le]
      constructor
      · linarith
      · linarith
    · obtain ⟨k, hk⟩ := exists_round x
      have hround := abs_le.mp (abs_sub_round_le x)
      rw [hk] at hround
      have hnonneg : (-1 : K) < k := by linarith [hround.2]
      have hlt : (k : K) < (n : ℤ) + 1 := by
        push_cast
        linarith [hround.1]
      have hk0 : (0 : K) ≤ k := by
        have h : (-1 : ℤ) < k := by exact_mod_cast hnonneg
        exact_mod_cast (show (0 : ℤ) ≤ k by omega)
      have hkn : (k : K) ≤ n := by
        have h : k < (n : ℤ) + 1 := by exact_mod_cast hlt
        exact_mod_cast Int.lt_add_one_iff.mp h
      rw [level, hk, clamp_of_mem hk0 hkn, ← hk]
      exact abs_sub_round_le x

/-- **The error of a scale.** The zero level is what the least number of the range is rounded to;
the numbers that are more than a level off are those beyond the length of the scale. -/
theorem abs_sub_level_le_one_iff {n : ℕ} {least x : K} (hleast : least ≤ x) (hx : x ≤ least + n) :
    |x - (level n (x + level n (-least)) - level n (-least))| ≤ 1 ↔ |x| ≤ n + 1 := by
  have hn : (0 : K) ≤ n := Nat.cast_nonneg n
  rcases le_total 0 least with hpos | hneg
  · -- All numbers are nonnegative: the scale starts at zero.
    have hx0 : 0 ≤ x := hpos.trans hleast
    rw [level_of_nonpos (neg_nonpos.mpr hpos), add_zero, sub_zero, abs_of_nonneg hx0]
    rcases le_total x (n + 1 / 2) with hle | hge
    · have herror := abs_sub_level_le (by linarith) hle
      exact ⟨fun _ => by linarith, fun _ => by linarith⟩
    · rw [level_of_ge (by linarith), abs_of_nonneg (by linarith)]
      constructor
      · intro h
        linarith
      · intro h
        linarith
  · rcases le_total (-least) n with hle | hge
    · -- Zero lies within the range, so the scale covers all of it.
      have hzero := abs_le.mp (abs_sub_level_le (n := n) (x := -least) (by linarith) (by linarith))
      have herror := abs_sub_level_le (n := n) (x := x + level n (-least)) (by linarith)
        (by linarith)
      constructor
      · intro _
        exact abs_le.mpr ⟨by linarith, by linarith⟩
      · intro _
        have hsame : x - (level n (x + level n (-least)) - level n (-least)) =
            x + level n (-least) - level n (x + level n (-least)) := by ring
        rw [hsame]
        linarith
    · -- All numbers are at most zero: the scale ends at zero.
      have hx0 : x ≤ 0 := by linarith
      rw [level_of_ge hge, abs_of_nonpos hx0]
      rcases le_total (-(1 / 2)) (x + n) with hlo | hlo
      · have herror := abs_sub_level_le (n := n) hlo (by linarith)
        have hsame : x - (level n (x + n) - n) = x + n - level n (x + n) := by ring
        rw [hsame]
        exact ⟨fun _ => by linarith, fun _ => by linarith⟩
      · rw [level_of_nonpos (by linarith), zero_sub, sub_neg_eq_add, abs_of_nonpos (by linarith)]
        constructor
        · intro h
          linarith
        · intro h
          linarith

/-! ### Floating-point formats -/

/-- The nearest integer, half to even. -/
def roundEven (x : K) : ℤ :=
  if x - ⌊x⌋ < ⌊x⌋ + 1 - x then ⌊x⌋
  else if ⌊x⌋ + 1 - x < x - ⌊x⌋ then ⌊x⌋ + 1
  else ⌊x⌋ + ⌊x⌋ % 2

theorem roundEven_zero : roundEven (0 : K) = 0 := by
  simp [roundEven]

theorem abs_sub_roundEven_le (x : K) : |x - roundEven x| ≤ 1 / 2 := by
  have hle := Int.floor_le x
  have hlt := Int.lt_floor_add_one x
  rw [roundEven, abs_le]
  split
  · constructor
    · linarith
    · linarith
  · split
    · push_cast
      constructor
      · linarith
      · linarith
    · -- in the middle either neighbour will do
      rcases Int.emod_two_eq_zero_or_one ⌊x⌋ with heven | hodd
      · rw [heven, add_zero]
        constructor
        · linarith
        · linarith
      · rw [hodd]
        push_cast
        constructor
        · linarith
        · linarith

/-- The last place of a number with so many digits after the first one, where the first digit of a
normal number has at least the exponent `least`. -/
def lastPlace (base digits : ℕ) (least : ℤ) (x : K) : K :=
  (base : K) ^ (max (Int.log base |x|) least - digits)

/-- The nearest number of the format, as long as its exponents reach. -/
def toFormat (base digits : ℕ) (least : ℤ) (x : K) : K :=
  roundEven (x / lastPlace base digits least x) * lastPlace base digits least x

section Format

variable {base : ℕ} (digits : ℕ) (least : ℤ) (x : K)

theorem lastPlace_pos (hbase : 1 < base) : 0 < lastPlace base digits least x :=
  zpow_pos (Nat.cast_pos.mpr (Nat.zero_lt_of_lt hbase)) _

theorem lastPlace_le (hbase : 1 < base) (hx : x ≠ 0) :
    lastPlace base digits least x ≤ (|x| + (base : K) ^ least) / (base : K) ^ digits := by
  have hpos : (0 : K) < base := Nat.cast_pos.mpr (Nat.zero_lt_of_lt hbase)
  have hlog : (base : K) ^ Int.log base |x| ≤ |x| := Int.zpow_log_le_self hbase (abs_pos.mpr hx)
  have hleast : (0 : K) < (base : K) ^ least := zpow_pos hpos least
  rw [lastPlace, zpow_sub₀ hpos.ne', zpow_natCast]
  refine div_le_div_of_nonneg_right ?_ (pow_pos hpos digits).le
  rcases le_total (Int.log base |x|) least with hle | hle
  · rw [max_eq_right hle]
    linarith [abs_nonneg x]
  · rw [max_eq_left hle]
    linarith

/-- A number is at most half of its last place away from the one of the format. -/
theorem abs_sub_toFormat_le (hbase : 1 < base) :
    |x - toFormat base digits least x| ≤
      (|x| + (base : K) ^ least) / (2 * (base : K) ^ digits) := by
  have hpos : (0 : K) < base := Nat.cast_pos.mpr (Nat.zero_lt_of_lt hbase)
  have hplace := lastPlace_pos digits least x hbase
  by_cases hx : x = 0
  · rw [toFormat, hx, zero_div, roundEven_zero, Int.cast_zero, zero_mul, sub_zero, abs_zero]
    have hleast : (0 : K) < (base : K) ^ least := zpow_pos hpos least
    positivity
  · have hnear := mul_le_mul_of_nonneg_right
      (abs_sub_roundEven_le (x / lastPlace base digits least x)) hplace.le
    have herror : |x / lastPlace base digits least x -
        roundEven (x / lastPlace base digits least x)| * lastPlace base digits least x =
          |x - toFormat base digits least x| := by
      rw [← abs_of_pos hplace, ← abs_mul, abs_of_pos hplace, sub_mul, div_mul_cancel₀ _ hplace.ne',
        toFormat]
    rw [herror] at hnear
    have hle := lastPlace_le digits least x hbase hx
    calc |x - toFormat base digits least x| ≤ 1 / 2 * lastPlace base digits least x := hnear
      _ ≤ 1 / 2 * ((|x| + (base : K) ^ least) / (base : K) ^ digits) := by linarith
      _ = (|x| + (base : K) ^ least) / (2 * (base : K) ^ digits) := by
        rw [div_mul_div_comm, one_mul]

end Format

end Rounding
