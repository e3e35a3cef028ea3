import Kyro.Lib.Run
import Mathlib.Data.Set.Lattice
import Mathlib.Data.List.Basic

/-!
# Vectors written by loops

A vector of a fixed length, written position by position by loops inside loops, where every access
is checked. What a loop has done is said by the positions it has written and by the value that
belongs at each position; the rules put passes together, and a loop that has written everything
leaves a vector that does not depend on what stood there before. The last section is about vectors
that hold a matrix row by row.
-/

namespace Fill

universe u v

variable {α : Type u} {φ : Type v} (e : φ)

/-- `xs[i]` -/
def read (xs : List α) (i : ℕ) : Except φ α :=
  match xs[i]? with
  | some a => .ok a
  | none => .error e

/-- `xs[i] = a` -/
def write (xs : List α) (i : ℕ) (a : α) : Except φ (List α) :=
  if i < xs.length then .ok (xs.set i a) else .error e

theorem read_of_eq {xs : List α} {i : ℕ} {a : α} (h : xs[i]? = some a) : read e xs i = .ok a := by
  rw [read, h]

theorem read_of_lt {xs : List α} {i : ℕ} (h : i < xs.length) (d : α) :
    read e xs i = .ok (xs.getD i d) := by
  rw [List.getD_eq_getElem?_getD, List.getElem?_eq_getElem h]
  exact read_of_eq e (List.getElem?_eq_getElem h)

theorem lt_of_read {xs : List α} {i : ℕ} {a : α} (h : read e xs i = .ok a) : i < xs.length := by
  rw [read] at h
  split at h
  · rename_i found
    exact (List.getElem?_eq_some_iff.mp found).1
  · cases h

/-! ### What a loop has written -/

/-- `ys` is `xs` with `value i` at the positions `i` of `s`. -/
structure Written (value : ℕ → α) (s : Set ℕ) (xs ys : List α) : Prop where
  length_eq : ys.length = xs.length
  inside : ∀ i ∈ s, i < xs.length → ys[i]? = some (value i)
  outside : ∀ i ∉ s, ys[i]? = xs[i]?

/-- The positions that some pass of a loop writes. -/
def across {ι : Type*} (js : List ι) (s : ι → Set ℕ) : Set ℕ := {i | ∃ j ∈ js, i ∈ s j}

namespace Written

variable {value : ℕ → α} {s t : Set ℕ} {xs ys zs : List α}

theorem refl (h : s = ∅) (xs : List α) : Written value s xs xs where
  length_eq := rfl
  inside i hi := by
    rw [h] at hi
    exact absurd hi (Set.notMem_empty i)
  outside _ _ := rfl

theorem trans (h : Written value s xs ys) (h' : Written value t ys zs) :
    Written value (s ∪ t) xs zs where
  length_eq := h'.length_eq.trans h.length_eq
  inside i hi hlt := by
    by_cases ht : i ∈ t
    · exact h'.inside i ht (by rwa [h.length_eq])
    · rw [h'.outside i ht]
      exact h.inside i (hi.resolve_right ht) hlt
  outside i hi := by
    rw [h'.outside i fun ht => hi (.inr ht), h.outside i fun hs => hi (.inl hs)]

/-- One more pass of a loop. -/
theorem pass {ι : Type*} {done : List ι} {j : ι} {s : ι → Set ℕ}
    (h : Written value (across done s) xs ys) (h' : Written value (s j) ys zs) :
    Written value (across (done ++ [j]) s) xs zs := by
  have hacross : across (done ++ [j]) s = across done s ∪ s j := by
    ext i
    simp [across, or_and_right, exists_or]
  rw [hacross]
  exact h.trans h'

theorem across_nil {ι : Type*} (s : ι → Set ℕ) (xs : List α) : Written value (across [] s) xs xs :=
  refl (Set.eq_empty_of_forall_notMem fun _ hi => by simp [across] at hi) xs

/-- A vector that has been written everywhere. -/
theorem eq_map (h : Written value s xs ys) (hall : ∀ i < xs.length, i ∈ s) :
    ys = (List.range xs.length).map value := by
  apply List.ext_getElem?
  intro i
  rw [List.getElem?_map]
  by_cases hi : i < xs.length
  · rw [h.inside i (hall i hi) hi, List.getElem?_range hi]
    rfl
  · rw [List.getElem?_eq_none (by rw [h.length_eq]; omega),
      List.getElem?_eq_none (by rw [List.length_range]; omega)]
    rfl

end Written

theorem write_written {value : ℕ → α} {xs : List α} {i : ℕ} {a : α} (hi : i < xs.length)
    (ha : a = value i) : ∃ ys, write e xs i a = .ok ys ∧ Written value {i} xs ys := by
  refine ⟨xs.set i a, if_pos hi, List.length_set .., fun j hj _ => ?_, fun j hj => ?_⟩
  · obtain rfl : j = i := hj
    rw [List.getElem?_set_self hi, ha]
  · exact List.getElem?_set_ne fun h => hj h.symm

/-! ### Loops -/

section Loops

variable {φ : Type v} {ι : Type*}

/-- **The loop rule.** The invariant speaks of the passes so far. -/
theorem foldlM_ok {σ : Type*} {body : σ → ι → Except φ σ} {I : List ι → σ → Prop} (js : List ι)
    (hstep : ∀ done s, ∀ j ∈ js, I done s → ∃ t, body s j = .ok t ∧ I (done ++ [j]) t) {s : σ}
    (hstart : I [] s) : ∃ t, js.foldlM body s = .ok t ∧ I js t := by
  suffices hrest : ∀ rest, (∀ j ∈ rest, j ∈ js) → ∀ done s, I done s →
      ∃ t, rest.foldlM body s = .ok t ∧ I (done ++ rest) t from
    hrest js (fun _ h => h) [] s hstart
  intro rest hrest
  induction rest with
  | nil =>
      intro done s h
      exact ⟨s, rfl, by rwa [List.append_nil]⟩
  | cons j rest ih =>
      intro done s h
      obtain ⟨s', hbody, hs'⟩ := hstep done s j (hrest j List.mem_cons_self) h
      obtain ⟨t, hrun, ht⟩ := ih (fun i hi => hrest i (.tail j hi)) _ s' hs'
      refine ⟨t, ?_, by rwa [List.append_cons]⟩
      rw [List.foldlM_cons, hbody]
      exact hrun

/-- In a loop that has come to its end every step succeeded. -/
theorem exists_step {σ : Type*} {body : σ → ι → Except φ σ} {js : List ι} {s t : σ}
    (h : js.foldlM body s = .ok t) {j : ι} (hj : j ∈ js) : ∃ s' t', body s' j = .ok t' := by
  induction js generalizing s with
  | nil => cases hj
  | cons j' js ih =>
      rw [List.foldlM_cons] at h
      cases hstep : body s j' with
      | error e =>
          rw [hstep] at h
          cases h
      | ok s' =>
          rw [hstep] at h
          rcases List.mem_cons.mp hj with rfl | hj
          · exact ⟨s, s', hstep⟩
          · exact ih h hj

/-- **The rule for a loop over one vector.** -/
theorem foldlM_written {value : ℕ → α} {s : ι → Set ℕ} (js : List ι) {n : ℕ}
    {body : List α → ι → Except φ (List α)}
    (hstep : ∀ xs : List α, xs.length = n → ∀ j ∈ js,
      ∃ ys, body xs j = .ok ys ∧ Written value (s j) xs ys)
    {xs : List α} (hlength : xs.length = n) :
    ∃ ys, js.foldlM body xs = .ok ys ∧ Written value (across js s) xs ys := by
  apply foldlM_ok js (I := fun done ys => Written value (across done s) xs ys) _ (.across_nil s xs)
  intro done ys j hj h
  obtain ⟨zs, hbody, hzs⟩ := hstep ys (h.length_eq.trans hlength) j hj
  exact ⟨zs, hbody, h.pass hzs⟩

end Loops

/-! ### Matrices, row by row -/

section Cells

variable {n r c : ℕ}

theorem cell_div (h : c < n) : (r * n + c) / n = r := by
  rw [Nat.mul_comm, Nat.mul_add_div (Nat.zero_lt_of_lt h), Nat.div_eq_of_lt h, Nat.add_zero]

theorem cell_mod (h : c < n) : (r * n + c) % n = c := by
  rw [Nat.mul_comm, Nat.mul_add_mod, Nat.mod_eq_of_lt h]

theorem cell_lt {m : ℕ} (hr : r < m) (hc : c < n) : r * n + c < m * n :=
  calc r * n + c < r * n + n := Nat.add_lt_add_left hc _
    _ = (r + 1) * n := by rw [Nat.add_mul, Nat.one_mul]
    _ ≤ m * n := Nat.mul_le_mul_right n hr

/-- What a vector of cells has at a position. -/
def atCell (n : ℕ) (f : ℕ → ℕ → α) (p : ℕ) : α := f (p / n) (p % n)

@[simp] theorem atCell_cell (f : ℕ → ℕ → α) (h : c < n) : atCell n f (r * n + c) = f r c := by
  rw [atCell, cell_div h, cell_mod h]

def matrix (m n : ℕ) (f : ℕ → ℕ → α) : List α := (List.range (m * n)).map (atCell n f)

@[simp] theorem length_matrix (m n : ℕ) (f : ℕ → ℕ → α) : (matrix m n f).length = m * n := by
  rw [matrix, List.length_map, List.length_range]

theorem getElem?_matrix {m : ℕ} (f : ℕ → ℕ → α) (hr : r < m) (hc : c < n) :
    (matrix m n f)[r * n + c]? = some (f r c) := by
  rw [matrix, List.getElem?_map, List.getElem?_range (cell_lt hr hc), Option.map_some,
    atCell_cell f hc]

theorem getD_matrix {m : ℕ} (f : ℕ → ℕ → α) (hr : r < m) (hc : c < n) (d : α) :
    (matrix m n f).getD (r * n + c) d = f r c := by
  rw [List.getD_eq_getElem?_getD, getElem?_matrix f hr hc]
  rfl

theorem forall_mem_matrix {m : ℕ} {f : ℕ → ℕ → α} {P : α → Prop} :
    (∀ v ∈ matrix m n f, P v) ↔ ∀ r < m, ∀ c < n, P (f r c) := by
  constructor
  · exact fun h r hr c hc => h _ (List.mem_of_getElem? (getElem?_matrix f hr hc))
  · intro h v hv
    obtain ⟨i, hi, rfl⟩ := List.mem_map.mp hv
    rw [List.mem_range] at hi
    have hn : 0 < n := Nat.pos_of_ne_zero (by rintro rfl; simp at hi)
    exact h _ (Nat.div_lt_of_lt_mul (by rwa [Nat.mul_comm])) _ (Nat.mod_lt i hn)

/-- A matrix whose cells have all been written. -/
theorem Written.eq_matrix {m : ℕ} {f : ℕ → ℕ → α} {s : Set ℕ} {xs ys : List α}
    (h : Written (atCell n f) s xs ys) (hlength : xs.length = m * n)
    (hall : ∀ r < m, ∀ c < n, r * n + c ∈ s) : ys = matrix m n f := by
  rw [matrix, ← hlength]
  refine h.eq_map fun p hp => ?_
  rw [hlength] at hp
  have hn : 0 < n := Nat.pos_of_ne_zero fun hzero => by
    rw [hzero, Nat.mul_zero] at hp
    omega
  rw [← Nat.div_add_mod' p n]
  exact hall _ ((Nat.div_lt_iff_lt_mul hn).mpr hp) _ (Nat.mod_lt p hn)

end Cells

end Fill
