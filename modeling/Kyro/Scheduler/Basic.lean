import Mathlib.Data.UInt

/-!
# Identifiers, clock readings and panics

The crate aborts on a panic, so a function that can panic is a computation in `Except Fault`, and a
`Fault` says which of the source's partial operations failed.
-/

namespace Kyro

abbrev Token := UInt32

abbrev RequestId := UInt64

/-- `BlockId(pub usize)`: the number of a physical block. -/
abbrev BlockId := ℕ

/-- A reading of the monotonic clock. -/
abbrev Instant := ℕ

inductive Fault where
  /-- `ref_counts[block.0] += 1` or `-= 1`, out of range or below zero. -/
  | refCounts
  /-- `num_cached_blocks -= evicted_blocks.len()`, below zero. -/
  | cachedBlocks
  /-- A subtraction of prompt positions, below zero. -/
  | promptPosition
  /-- A division by zero. -/
  | divideByZero
  /-- An index out of range. -/
  | outOfRange
  /-- An `expect` that did not hold. -/
  | expect (message : String)
  deriving DecidableEq, Repr

/-- A partial operation that panics where it has no value. -/
def orPanic {α : Type*} (fault : Fault) : Option α → Except Fault α
  | some a => .ok a
  | none => .error fault

@[simp] theorem orPanic_some {α : Type*} (fault : Fault) (a : α) :
    orPanic fault (some a) = .ok a := rfl

theorem orPanic_eq_ok {α : Type*} {fault : Fault} {o : Option α} {a : α} :
    orPanic fault o = .ok a ↔ o = some a := by
  cases o with
  | none => simp [orPanic]
  | some b => simp

theorem orPanic_ne {α : Type*} {fault other : Fault} (h : fault ≠ other) (a : Option α) :
    orPanic fault a ≠ .error other := by
  cases a with
  | none => exact fun heq => h (Except.error.inj heq)
  | some a => exact fun heq => by cases heq

/-- `a - b` on `usize`. -/
def checkedSub (fault : Fault) (a b : ℕ) : Except Fault ℕ :=
  if b ≤ a then .ok (a - b) else .error fault

theorem checkedSub_of_le {fault : Fault} {a b : ℕ} (h : b ≤ a) :
    checkedSub fault a b = .ok (a - b) := if_pos h

theorem checkedSub_ne {fault other : Fault} (h : fault ≠ other) (a b : ℕ) :
    checkedSub fault a b ≠ .error other := by
  rw [checkedSub]
  split
  · exact fun heq => by cases heq
  · exact fun heq => h (Except.error.inj heq)

theorem checkedSub_eq_ok {fault : Fault} {a b c : ℕ} (h : checkedSub fault a b = .ok c) :
    b ≤ a ∧ a - b = c := by
  rw [checkedSub] at h
  split at h
  · rename_i hle
    exact ⟨hle, Except.ok.inj h⟩
  · cases h

/-- `a + b` on `usize`: the release profile has no overflow check, so the sum wraps. -/
def wrappingAdd (a b : ℕ) : ℕ := (a + b) % 2 ^ 64

theorem wrappingAdd_of_lt {a b : ℕ} (h : a + b < 2 ^ 64) : wrappingAdd a b = a + b :=
  Nat.mod_eq_of_lt h

/-- `a * b` on `usize`. -/
def wrappingMul (a b : ℕ) : ℕ := (a * b) % 2 ^ 64

theorem wrappingMul_of_lt {a b : ℕ} (h : a * b < 2 ^ 64) : wrappingMul a b = a * b :=
  Nat.mod_eq_of_lt h

/-- `a / b` on `usize`. -/
def checkedDiv (a b : ℕ) : Except Fault ℕ :=
  if b = 0 then .error .divideByZero else .ok (a / b)

theorem checkedDiv_eq_ok {a b c : ℕ} (h : checkedDiv a b = .ok c) : 0 < b ∧ a / b = c := by
  rw [checkedDiv] at h
  split at h
  · cases h
  · exact ⟨by omega, Except.ok.inj h⟩

/-- `a.div_ceil(b)` on `usize`. -/
def divCeil (a b : ℕ) : Except Fault ℕ :=
  if b = 0 then .error .divideByZero else .ok ((a + b - 1) / b)

theorem divCeil_of_pos {a b : ℕ} (h : 0 < b) : divCeil a b = .ok ((a + b - 1) / b) :=
  if_neg (by omega)

end Kyro
