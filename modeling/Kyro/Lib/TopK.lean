import Mathlib.Data.List.Sort
import Mathlib.Data.List.Perm.Subperm
import Mathlib.Order.Basic
import Mathlib.Tactic.TypeStar

/-!
# The front of a descending list

A list whose keys descend, and what stands among its first entries: the head has the largest key,
and where enough entries of the list have a key that is large enough, no others come first. Sorting
by insertion leaves entries that tie in their order. A list that is made of rounds of another one
has each of its entries in every round.
-/

namespace TopK

variable {α β : Type*} [LinearOrder β] {key : α → β}

/-- No entry has a larger key than one before it. -/
def Descending (key : α → β) (xs : List α) : Prop := xs.Pairwise fun x y => key y ≤ key x

theorem Descending.head_le {x : α} {xs : List α} (h : Descending key (x :: xs)) :
    ∀ y ∈ x :: xs, key y ≤ key x := by
  intro y hy
  rcases List.mem_cons.mp hy with rfl | hy
  · exact le_refl _
  · exact (List.pairwise_cons.mp h).1 y hy

/-- Where enough entries reach a bound, all the first ones do. -/
theorem Descending.le_of_mem_take {xs : List α} (h : Descending key xs) {n : ℕ} {bound : β}
    (hcount : n ≤ xs.countP (fun x => decide (bound ≤ key x))) :
    ∀ x ∈ xs.take n, bound ≤ key x := by
  induction xs generalizing n with
  | nil =>
      intro x hx
      simp at hx
  | cons y ys ih =>
      intro x hx
      cases n with
      | zero => simp at hx
      | succ n =>
          have hhead : bound ≤ key y := by
            have hpos : 0 < (y :: ys).countP (fun x => decide (bound ≤ key x)) := by omega
            obtain ⟨z, hz, hreach⟩ := List.countP_pos_iff.mp hpos
            exact (of_decide_eq_true hreach).trans (h.head_le z hz)
          rw [List.take_succ_cons] at hx
          rcases List.mem_cons.mp hx with rfl | hx
          · exact hhead
          · refine ih (List.pairwise_cons.mp h).2 ?_ x hx
            rw [List.countP_cons_of_pos (by simpa using hhead)] at hcount
            omega

/-- The first entries have one key exactly if enough entries share the greatest one. -/
theorem Descending.take_ties_iff {xs : List α} (h : Descending key xs) {n : ℕ} (hn : 0 < n)
    (hlength : n ≤ xs.length) :
    (∀ x ∈ xs.take n, ∀ y ∈ xs.take n, key x = key y) ↔
      ∃ bound, (∀ x ∈ xs, key x ≤ bound) ∧ n ≤ xs.countP fun x => decide (key x = bound) := by
  constructor
  · intro hties
    cases xs with
    | nil => exact absurd hlength (not_le.mpr hn)
    | cons x xs =>
        have hhead : x ∈ (x :: xs).take n := by
          rw [List.take_cons hn]
          exact List.mem_cons_self
        refine ⟨key x, h.head_le, ?_⟩
        have hall : ((x :: xs).take n).countP (fun y => decide (key y = key x)) = n := by
          rw [List.countP_eq_length.mpr fun y hy => decide_eq_true (hties y hy x hhead)]
          exact List.length_take_of_le hlength
        rw [← hall]
        exact (List.take_sublist n _).countP_le
  · rintro ⟨bound, hle, hcount⟩
    have hfront : ∀ x ∈ xs.take n, key x = bound := by
      intro x hx
      refine le_antisymm (hle x (List.mem_of_mem_take hx)) (h.le_of_mem_take ?_ x hx)
      refine hcount.trans (List.countP_mono_left fun y _ hy => ?_)
      exact decide_eq_true (of_decide_eq_true hy).ge
    exact fun x hx y hy => (hfront x hx).trans (hfront y hy).symm

/-- Insertion passes only entries with a larger key. -/
theorem filter_orderedInsert (x : α) (ys : List α) (v : β) :
    (ys.orderedInsert (fun a b => key b ≤ key a) x).filter (fun y => decide (key y = v)) =
      (x :: ys).filter fun y => decide (key y = v) := by
  induction ys with
  | nil => rfl
  | cons y ys ih =>
      by_cases hle : key y ≤ key x
      · rw [List.orderedInsert_cons_of_le (fun a b => key b ≤ key a) ys hle]
      · rw [List.orderedInsert_of_not_le (fun a b => key b ≤ key a) ys hle, List.filter_cons, ih]
        by_cases hy : key y = v
        · have hx : key x ≠ v := fun hx => hle (hy.trans hx.symm).le
          simp [hx, hy]
        · simp [List.filter_cons, hy]

/-- Sorting by insertion leaves the entries with one key in their order. -/
theorem filter_insertionSort (xs : List α) (v : β) :
    (xs.insertionSort fun a b => key b ≤ key a).filter (fun y => decide (key y = v)) =
      xs.filter fun y => decide (key y = v) := by
  induction xs with
  | nil => rfl
  | cons x xs ih =>
      rw [List.insertionSort_cons, filter_orderedInsert, List.filter_cons, List.filter_cons, ih]

/-- A member of a list is in each of its rounds. -/
theorem le_countP_rounds {p : α → Bool} {xs : List α} {x : α} (hx : x ∈ xs) (hp : p x = true)
    (n : ℕ) : n ≤ (List.replicate n xs).flatten.countP p := by
  induction n with
  | zero => exact Nat.zero_le _
  | succ n ih =>
      have hpos : 0 < xs.countP p := List.countP_pos_iff.mpr ⟨x, hx, hp⟩
      rw [List.replicate_succ, List.flatten_cons, List.countP_append]
      omega

theorem mem_rounds {xs : List α} {n : ℕ} (hn : 0 < n) {x : α} :
    x ∈ (List.replicate n xs).flatten ↔ x ∈ xs := by
  rw [List.mem_flatten]
  constructor
  · rintro ⟨ys, hys, hx⟩
    exact List.eq_of_mem_replicate hys ▸ hx
  · exact fun hx => ⟨xs, List.mem_replicate.mpr ⟨hn.ne', rfl⟩, hx⟩

theorem length_rounds (xs : List α) (n : ℕ) :
    (List.replicate n xs).flatten.length = n * xs.length := by
  simp [List.length_flatten]

theorem take_rounds (xs : List α) {n : ℕ} (hn : 0 < n) :
    (List.replicate n xs).flatten.take xs.length = xs := by
  obtain ⟨m, rfl⟩ := Nat.exists_eq_succ_of_ne_zero hn.ne'
  rw [List.replicate_succ, List.flatten_cons, List.take_left]

/-- As many different entries as there are to choose from are all of them. -/
theorem subset_of_nodup {xs ys : List α} (hnodup : ys.Nodup) (hsub : ys ⊆ xs)
    (hlength : xs.length ≤ ys.length) : xs ⊆ ys :=
  ((hnodup.subperm hsub).perm_of_length_le hlength).symm.subset

end TopK
