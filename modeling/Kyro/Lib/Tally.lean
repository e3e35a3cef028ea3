import Mathlib.Data.List.AList
import Mathlib.Data.List.Count

/-!
# Counting what a table of lists holds

A table maps keys to lists. `tally` counts how often a value occurs in all of its lists together,
and the lemmas say how the count moves when an entry is written or erased.
-/

namespace Tally

universe u v

variable {κ : Type u} {α : Type v}

abbrev Table (κ : Type u) (α : Type v) := AList fun _ : κ => List α

theorem lookup_eq_some_split [DecidableEq κ] {t : Table κ α} {k : κ} {xs : List α}
    (h : t.lookup k = some xs) :
    ∃ before after, t.entries = before ++ ⟨k, xs⟩ :: after ∧
      (t.erase k).entries = before ++ after := by
  have hmem : k ∈ t.entries.keys := AList.mem_keys.mp (AList.lookup_isSome.mp (by simp [h]))
  obtain ⟨ys, before, after, hfresh, hsplit, herase⟩ := List.exists_of_kerase hmem
  have hys : t.lookup k = some ys := by
    rw [AList.lookup, hsplit]
    exact List.mem_dlookup (hsplit ▸ t.nodupKeys) (by simp)
  obtain rfl : ys = xs := Option.some.inj (hys.symm.trans h)
  exact ⟨before, after, hsplit, herase⟩

variable [DecidableEq α]

/-- How often a value occurs in the lists of a table. -/
def tally (t : Table κ α) (a : α) : ℕ := (t.entries.flatMap (·.2)).count a

variable [DecidableEq κ]

theorem tally_of_lookup {t : Table κ α} {k : κ} {xs : List α} (h : t.lookup k = some xs) (a : α) :
    tally t a = tally (t.erase k) a + xs.count a := by
  obtain ⟨before, after, hsplit, herase⟩ := lookup_eq_some_split h
  simp only [tally, hsplit, herase, List.flatMap_append, List.flatMap_cons, List.count_append]
  omega

theorem tally_erase_of_lookup_none {t : Table κ α} {k : κ} (h : t.lookup k = none) (a : α) :
    tally (t.erase k) a = tally t a := by
  have hentries : (t.erase k).entries = t.entries :=
    List.kerase_of_notMem_keys (AList.lookup_eq_none.mp h)
  rw [tally, tally, hentries]

theorem tally_erase_le (t : Table κ α) (k : κ) (a : α) : tally (t.erase k) a ≤ tally t a := by
  cases h : t.lookup k with
  | some xs =>
      rw [tally_of_lookup h]
      exact Nat.le_add_right _ _
  | none => exact Nat.le_of_eq (tally_erase_of_lookup_none h a)

theorem tally_insert (t : Table κ α) (k : κ) (xs : List α) (a : α) :
    tally (t.insert k xs) a = tally (t.erase k) a + xs.count a := by
  have hentries : (t.insert k xs).entries = ⟨k, xs⟩ :: (t.erase k).entries :=
    AList.entries_insert
  simp only [tally, hentries, List.flatMap_cons, List.count_append]
  omega

theorem tally_pos {t : Table κ α} {a : α} :
    0 < tally t a ↔ ∃ k xs, t.lookup k = some xs ∧ a ∈ xs := by
  simp only [tally, List.count_pos_iff, List.mem_flatMap]
  constructor
  · rintro ⟨⟨k, xs⟩, hentry, ha⟩
    exact ⟨k, xs, AList.mem_lookup_iff.mpr hentry, ha⟩
  · rintro ⟨k, xs, hlookup, ha⟩
    exact ⟨⟨k, xs⟩, AList.mem_lookup_iff.mp hlookup, ha⟩

end Tally
