import Mathlib.Data.List.Nodup
import Mathlib.Data.List.Count
import Mathlib.Tactic.Ring

/-!
# Reference-counted slots

A pool of numbered slots is a list of reference counts and a stack of free slots. Four loops touch
it: `pin` and `unpin` add and drop one reference for every entry of a list, `release` drops
references and frees the slots nobody refers to any more, and `take` hands out free slots. Each
returns `none` where an index is out of range, a count would go below zero or the stack is empty.

What the loops do is said once, by the count of every slot afterwards. `Sound` is the invariant that
survives all of them: the free slots are distinct, in range and unreferenced, and no slot has fewer
references than it owes.
-/

namespace RefPool

/-- The reference count of a slot; a slot out of range has none. -/
def refsOf (refs : List ℕ) (slot : ℕ) : ℕ := refs.getD slot 0

def pin : List ℕ → List ℕ → Option (List ℕ)
  | refs, [] => some refs
  | refs, slot :: slots =>
    match refs[slot]? with
    | some n => pin (refs.set slot (n + 1)) slots
    | none => none

def unpin : List ℕ → List ℕ → Option (List ℕ)
  | refs, [] => some refs
  | refs, slot :: slots =>
    match refs[slot]? with
    | some (n + 1) => unpin (refs.set slot n) slots
    | _ => none

def release : List ℕ → List ℕ → List ℕ → Option (List ℕ × List ℕ)
  | refs, free, [] => some (refs, free)
  | refs, free, slot :: slots =>
    match refs[slot]? with
    | some (n + 1) => release (refs.set slot n) (if n = 0 then slot :: free else free) slots
    | _ => none

/-- Hand out `n` free slots, each with one reference. -/
def take : ℕ → List ℕ → List ℕ → Option (List ℕ × List ℕ × List ℕ)
  | 0, refs, free => some (refs, free, [])
  | _ + 1, _, [] => none
  | n + 1, refs, slot :: free =>
    match refs[slot]? with
    | some _ => (take n (refs.set slot 1) free).map fun (refs, free, taken) =>
        (refs, free, slot :: taken)
    | none => none

/-! ### What one write does -/

theorem refsOf_set {refs : List ℕ} {slot : ℕ} (hslot : slot < refs.length) (n other : ℕ) :
    refsOf (refs.set slot n) other = if other = slot then n else refsOf refs other := by
  by_cases hother : other = slot
  · subst other
    simp [refsOf, List.getD_eq_getElem?_getD, hslot]
  · simp [refsOf, List.getD_eq_getElem?_getD, List.getElem?_set_ne (Ne.symm hother), hother]

theorem getElem?_of_lt {refs : List ℕ} {slot : ℕ} (h : slot < refs.length) :
    refs[slot]? = some (refsOf refs slot) := by
  simp [refsOf, List.getD_eq_getElem?_getD, h]

theorem lt_of_refsOf_pos {refs : List ℕ} {slot : ℕ} (h : 0 < refsOf refs slot) :
    slot < refs.length := by
  by_contra hge
  simp [refsOf, List.getD_eq_getElem?_getD, List.getElem?_eq_none (Nat.le_of_not_lt hge)] at h

theorem refsOf_replicate_zero (size slot : ℕ) : refsOf (List.replicate size 0) slot = 0 := by
  by_cases h : slot < size
  · simp [refsOf, List.getD_eq_getElem?_getD, h]
  · simp [refsOf, List.getD_eq_getElem?_getD, Nat.le_of_not_lt h]

/-! ### What the loops do -/

theorem pin_spec {refs slots : List ℕ} (hslots : ∀ slot ∈ slots, slot < refs.length) :
    ∃ refs', pin refs slots = some refs' ∧ refs'.length = refs.length ∧
      ∀ slot, refsOf refs' slot = refsOf refs slot + slots.count slot := by
  induction slots generalizing refs with
  | nil => exact ⟨refs, rfl, rfl, by simp⟩
  | cons head slots ih =>
      have hhead : head < refs.length := hslots head (by simp)
      have htail : ∀ slot ∈ slots, slot < (refs.set head (refsOf refs head + 1)).length := by
        simpa using fun slot hslot => hslots slot (by simp [hslot])
      obtain ⟨refs', hpin, hlen, hrefs⟩ := ih htail
      refine ⟨refs', by simp only [pin, getElem?_of_lt hhead, hpin], by simpa using hlen,
        fun slot => ?_⟩
      rw [hrefs, refsOf_set hhead, List.count_cons]
      by_cases hslot : slot = head
      · subst slot
        simp only [if_true, beq_self_eq_true]
        omega
      · simp [hslot, Ne.symm hslot]

theorem count_le_set {refs slots : List ℕ} {head : ℕ}
    (h : ∀ slot, (head :: slots).count slot ≤ refsOf refs slot) :
    head < refs.length ∧ 0 < refsOf refs head ∧
      ∀ slot, slots.count slot ≤ refsOf (refs.set head (refsOf refs head - 1)) slot := by
  have hhead := h head
  simp only [List.count_cons_self] at hhead
  have hlt : head < refs.length := lt_of_refsOf_pos (by omega)
  refine ⟨hlt, by omega, fun slot => ?_⟩
  have hslot := h slot
  rw [refsOf_set hlt]
  by_cases hne : slot = head
  · subst slot
    simp only [if_true]
    omega
  · simpa [hne, List.count_cons_of_ne (Ne.symm hne)] using hslot

theorem unpin_spec {refs slots : List ℕ} (hslots : ∀ slot, slots.count slot ≤ refsOf refs slot) :
    ∃ refs', unpin refs slots = some refs' ∧ refs'.length = refs.length ∧
      ∀ slot, refsOf refs' slot + slots.count slot = refsOf refs slot := by
  induction slots generalizing refs with
  | nil => exact ⟨refs, rfl, rfl, by simp⟩
  | cons head slots ih =>
      obtain ⟨hlt, hpos, hrest⟩ := count_le_set hslots
      obtain ⟨refs', hunpin, hlen, hrefs⟩ := ih hrest
      obtain ⟨n, hn⟩ : ∃ n, refsOf refs head = n + 1 := ⟨refsOf refs head - 1, by omega⟩
      have hget : refs[head]? = some (n + 1) := by rw [getElem?_of_lt hlt, hn]
      rw [hn, Nat.add_sub_cancel] at hunpin hlen hrefs
      refine ⟨refs', by simp only [unpin, hget, hunpin], by simpa using hlen, fun slot => ?_⟩
      have hslot := hrefs slot
      rw [refsOf_set hlt] at hslot
      rw [List.count_cons]
      by_cases hne : slot = head
      · subst slot
        simp only [if_true, beq_self_eq_true] at hslot ⊢
        omega
      · simpa [hne, Ne.symm hne] using hslot

/-- A loop that went through found every slot in range. -/
theorem lt_of_pin {refs slots refs' : List ℕ} (h : pin refs slots = some refs') :
    ∀ slot ∈ slots, slot < refs.length := by
  induction slots generalizing refs with
  | nil => simp
  | cons head slots ih =>
      rw [pin] at h
      split at h
      · rename_i n hget
        have hrest := ih h
        rw [List.length_set] at hrest
        intro slot hslot
        rcases List.mem_cons.mp hslot with rfl | hslot
        · exact (List.getElem?_eq_some_iff.mp hget).1
        · exact hrest slot hslot
      · cases h

/-- What the loops may drop once a first reference is gone. -/
theorem count_cons_le {refs slots : List ℕ} {head n : ℕ} (hget : refs[head]? = some (n + 1))
    (h : ∀ slot, slots.count slot ≤ refsOf (refs.set head n) slot) :
    ∀ slot, (head :: slots).count slot ≤ refsOf refs slot := by
  intro slot
  obtain ⟨hlt, _⟩ := List.getElem?_eq_some_iff.mp hget
  have hhead : refsOf refs head = n + 1 := by
    rw [getElem?_of_lt hlt] at hget
    exact Option.some.inj hget
  have hslot := h slot
  rw [refsOf_set hlt] at hslot
  rw [List.count_cons]
  by_cases hne : slot = head
  · subst slot
    simp only [if_true, beq_self_eq_true] at hslot ⊢
    omega
  · simpa [hne, Ne.symm hne] using hslot

/-- A loop that went through found a reference to drop for every entry. -/
theorem count_le_of_unpin {refs slots refs' : List ℕ} (h : unpin refs slots = some refs') :
    ∀ slot, slots.count slot ≤ refsOf refs slot := by
  induction slots generalizing refs with
  | nil => simp
  | cons head slots ih =>
      rw [unpin] at h
      split at h
      · rename_i n hget
        exact count_cons_le hget (ih h)
      · cases h

theorem count_le_of_release {refs free slots : List ℕ} {result : List ℕ × List ℕ}
    (h : release refs free slots = some result) :
    ∀ slot, slots.count slot ≤ refsOf refs slot := by
  induction slots generalizing refs free with
  | nil => simp
  | cons head slots ih =>
      rw [release] at h
      split at h
      · rename_i n hget
        exact count_cons_le hget (ih h)
      · cases h

/-- The slots `release` frees: those whose every reference it drops. -/
theorem release_spec {refs free slots : List ℕ}
    (hslots : ∀ slot, slots.count slot ≤ refsOf refs slot) :
    ∃ refs' freed, release refs free slots = some (refs', freed ++ free) ∧
      refs'.length = refs.length ∧
      (∀ slot, refsOf refs' slot + slots.count slot = refsOf refs slot) ∧
      freed.Nodup ∧ ∀ slot, slot ∈ freed ↔ slot ∈ slots ∧ refsOf refs slot = slots.count slot := by
  induction slots generalizing refs free with
  | nil => exact ⟨refs, [], rfl, rfl, by simp, List.nodup_nil, by simp⟩
  | cons head slots ih =>
      obtain ⟨hlt, hpos, hrest⟩ := count_le_set hslots
      obtain ⟨n, hn⟩ : ∃ n, refsOf refs head = n + 1 := ⟨refsOf refs head - 1, by omega⟩
      have hget : refs[head]? = some (n + 1) := by rw [getElem?_of_lt hlt, hn]
      rw [hn, Nat.add_sub_cancel] at hrest
      obtain ⟨refs', freed, hrelease, hlen, hrefs, hnodup, hfreed⟩ :=
        @ih (refs.set head n) (if n = 0 then head :: free else free) hrest
      have hcount : ∀ slot, refsOf refs' slot + (head :: slots).count slot = refsOf refs slot := by
        intro slot
        have hslot := hrefs slot
        rw [refsOf_set hlt] at hslot
        rw [List.count_cons]
        by_cases hne : slot = head
        · subst slot
          simp only [if_true, beq_self_eq_true] at hslot ⊢
          omega
        · simpa [hne, Ne.symm hne] using hslot
      by_cases hzero : n = 0
      · -- the last reference: the slot is freed here and cannot be freed again
        have hheadCount : slots.count head = 0 := by
          have := hrest head
          rw [refsOf_set hlt] at this
          simp only [if_true] at this
          omega
        have hhead : head ∉ slots := List.count_eq_zero.mp hheadCount
        refine ⟨refs', freed ++ [head], ?_, by simpa using hlen, hcount, ?_, fun slot => ?_⟩
        · simp only [release, hget]
          rw [hrelease, if_pos hzero]
          simp
        · refine List.nodup_append.mpr ⟨hnodup, List.nodup_singleton _, ?_⟩
          rintro slot hslot _ hmem rfl
          rw [List.mem_singleton.mp hmem] at hslot
          exact hhead ((hfreed head).mp hslot).1
        · rw [List.mem_append, List.mem_singleton, hfreed, refsOf_set hlt, List.mem_cons,
            List.count_cons]
          by_cases hne : slot = head
          · subst slot
            simp [hheadCount, hn, hzero]
          · simp [hne, Ne.symm hne]
      · refine ⟨refs', freed, ?_, by simpa using hlen, hcount, hnodup, fun slot => ?_⟩
        · simp only [release, hget]
          rw [hrelease, if_neg hzero]
        · rw [hfreed, refsOf_set hlt, List.mem_cons, List.count_cons]
          by_cases hne : slot = head
          · subst slot
            simp only [if_true, beq_self_eq_true, true_or, true_and, hn]
            constructor
            · rintro ⟨_, heq⟩
              omega
            · intro heq
              refine ⟨?_, by omega⟩
              exact List.count_pos_iff.mp (by omega)
          · simp [hne, Ne.symm hne]

theorem take_spec {n : ℕ} {refs free : List ℕ} (hn : n ≤ free.length) (hnodup : free.Nodup)
    (hlt : ∀ slot ∈ free, slot < refs.length) (hzero : ∀ slot ∈ free, refsOf refs slot = 0) :
    ∃ refs', take n refs free = some (refs', free.drop n, free.take n) ∧
      refs'.length = refs.length ∧
      ∀ slot, refsOf refs' slot = refsOf refs slot + (free.take n).count slot := by
  induction n generalizing refs free with
  | zero => exact ⟨refs, rfl, rfl, by simp⟩
  | succ n ih =>
      cases free with
      | nil => simp at hn
      | cons head free =>
          obtain ⟨hhead, hnodup⟩ := List.nodup_cons.mp hnodup
          have hheadLt := hlt head (by simp)
          obtain ⟨refs', htake, hlen, hrefs⟩ := @ih (refs.set head 1) free
            (by simpa using hn) hnodup
            (fun slot hslot => by simpa using hlt slot (by simp [hslot]))
            (fun slot hslot => by
              have hne : slot ≠ head := fun heq => hhead (heq ▸ hslot)
              rw [refsOf_set hheadLt, if_neg hne]
              exact hzero slot (by simp [hslot]))
          refine ⟨refs', by simp [take, getElem?_of_lt hheadLt, htake], by simpa using hlen,
            fun slot => ?_⟩
          have hslot := hrefs slot
          rw [refsOf_set hheadLt] at hslot
          rw [hslot, List.take_succ_cons, List.count_cons]
          by_cases hne : slot = head
          · subst slot
            have := hzero head (by simp)
            simp only [if_true, beq_self_eq_true]
            omega
          · simp [hne, Ne.symm hne]

/-! ### The invariant -/

/-- The free slots are distinct, in range and unreferenced, and every slot has at least the
references it owes. -/
structure Sound (size : ℕ) (refs free : List ℕ) (owed : ℕ → ℕ) : Prop where
  length_eq : refs.length = size
  nodup : free.Nodup
  lt : ∀ slot ∈ free, slot < size
  unreferenced : ∀ slot ∈ free, refsOf refs slot = 0
  covered : ∀ slot, owed slot ≤ refsOf refs slot

section Ledger

variable {size : ℕ} {refs free slots : List ℕ} {owed owed' : ℕ → ℕ}

theorem Sound.lt_of_owed (h : Sound size refs free owed) {slot : ℕ} (howed : 0 < owed slot) :
    slot < size :=
  h.length_eq ▸ lt_of_refsOf_pos (howed.trans_le (h.covered slot))

theorem Sound.not_mem_free (h : Sound size refs free owed) {slot : ℕ} (howed : 0 < owed slot) :
    slot ∉ free := by
  intro hmem
  have := h.unreferenced slot hmem
  have := h.covered slot
  omega

/-- Owing less keeps a ledger sound. -/
theorem Sound.owe_less (h : Sound size refs free owed) (hle : ∀ slot, owed' slot ≤ owed slot) :
    Sound size refs free owed' :=
  { h with covered := fun slot => (hle slot).trans (h.covered slot) }

theorem sound_init (size : ℕ) (hrefs : refs = List.replicate size 0) (hnodup : free.Nodup)
    (hlt : ∀ slot ∈ free, slot < size) : Sound size refs free (fun _ => 0) where
  length_eq := by simp [hrefs]
  nodup := hnodup
  lt := hlt
  unreferenced slot _ := by rw [hrefs, refsOf_replicate_zero]
  covered := by simp

/-- Pinned slots owe one reference more for each time they are listed. -/
theorem Sound.pin (h : Sound size refs free owed) (hheld : ∀ slot ∈ slots, slot ∉ free)
    (hlt : ∀ slot ∈ slots, slot < size) :
    ∃ refs', RefPool.pin refs slots = some refs' ∧
      (∀ slot, refsOf refs' slot = refsOf refs slot + slots.count slot) ∧
      Sound size refs' free (fun slot => owed slot + slots.count slot) := by
  obtain ⟨refs', hpin, hlen, hrefs⟩ :=
    pin_spec fun slot hslot => h.length_eq.symm ▸ hlt slot hslot
  refine ⟨refs', hpin, hrefs, ⟨hlen.trans h.length_eq, h.nodup, h.lt, fun slot hslot => ?_,
    fun slot => ?_⟩⟩
  · have hcount : slots.count slot = 0 :=
      List.count_eq_zero.mpr fun hmem => hheld slot hmem hslot
    rw [hrefs, h.unreferenced slot hslot, hcount]
  · rw [hrefs]
    exact Nat.add_le_add_right (h.covered slot) _

theorem Sound.unpin (h : Sound size refs free fun slot => owed slot + slots.count slot) :
    ∃ refs', RefPool.unpin refs slots = some refs' ∧
      (∀ slot, refsOf refs' slot + slots.count slot = refsOf refs slot) ∧
      Sound size refs' free owed := by
  obtain ⟨refs', hunpin, hlen, hrefs⟩ :=
    unpin_spec fun slot => (Nat.le_add_left _ _).trans (h.covered slot)
  refine ⟨refs', hunpin, hrefs, ⟨hlen.trans h.length_eq, h.nodup, h.lt, fun slot hslot => ?_,
    fun slot => ?_⟩⟩
  · have := hrefs slot
    have := h.unreferenced slot hslot
    omega
  · have := hrefs slot
    have := h.covered slot
    omega

theorem Sound.release (h : Sound size refs free fun slot => owed slot + slots.count slot) :
    ∃ refs' freed, RefPool.release refs free slots = some (refs', freed ++ free) ∧
      (∀ slot, refsOf refs' slot + slots.count slot = refsOf refs slot) ∧ freed.Nodup ∧
      (∀ slot, slot ∈ freed ↔ slot ∈ slots ∧ refsOf refs slot = slots.count slot) ∧
      Sound size refs' (freed ++ free) owed := by
  have hcount : ∀ slot, slots.count slot ≤ refsOf refs slot := fun slot =>
    (Nat.le_add_left _ _).trans (h.covered slot)
  obtain ⟨refs', freed, hrelease, hlen, hrefs, hnodup, hfreed⟩ :=
    @release_spec refs free slots hcount
  have hpos : ∀ slot ∈ freed, 0 < refsOf refs slot := fun slot hslot => by
    obtain ⟨hmem, heq⟩ := (hfreed slot).mp hslot
    rw [heq]
    exact List.count_pos_iff.mpr hmem
  refine ⟨refs', freed, hrelease, hrefs, hnodup, hfreed,
    ⟨hlen.trans h.length_eq, ?_, fun slot hslot => ?_, fun slot hslot => ?_, fun slot => ?_⟩⟩
  · refine List.nodup_append.mpr ⟨hnodup, h.nodup, ?_⟩
    rintro slot hslot _ hmem rfl
    have := hpos slot hslot
    have := h.unreferenced slot hmem
    omega
  · rcases List.mem_append.mp hslot with hslot | hslot
    · exact h.length_eq ▸ lt_of_refsOf_pos (hpos slot hslot)
    · exact h.lt slot hslot
  · have := hrefs slot
    rcases List.mem_append.mp hslot with hslot | hslot
    · have := ((hfreed slot).mp hslot).2
      omega
    · have := h.unreferenced slot hslot
      omega
  · have := hrefs slot
    have := h.covered slot
    omega

theorem Sound.take (h : Sound size refs free owed) {n : ℕ} (hn : n ≤ free.length) :
    ∃ refs', RefPool.take n refs free = some (refs', free.drop n, free.take n) ∧
      (∀ slot, refsOf refs' slot = refsOf refs slot + (free.take n).count slot) ∧
      Sound size refs' (free.drop n) (fun slot => owed slot + (free.take n).count slot) := by
  obtain ⟨refs', htake, hlen, hrefs⟩ := take_spec hn h.nodup
    (fun slot hslot => h.length_eq.symm ▸ h.lt slot hslot) h.unreferenced
  have hsub : ∀ slot ∈ free.drop n, slot ∈ free := fun slot hslot => List.mem_of_mem_drop hslot
  refine ⟨refs', htake, hrefs, ⟨hlen.trans h.length_eq, h.nodup.sublist (List.drop_sublist n free),
    fun slot hslot => h.lt slot (hsub slot hslot), fun slot hslot => ?_, fun slot => ?_⟩⟩
  · have hcount : (free.take n).count slot = 0 := List.count_eq_zero.mpr fun hmem =>
      (List.disjoint_take_drop h.nodup le_rfl) hmem hslot
    rw [hrefs, h.unreferenced slot (hsub slot hslot), hcount]
  · rw [hrefs]
    exact Nat.add_le_add_right (h.covered slot) _

end Ledger

end RefPool
