import Mathlib.Algebra.BigOperators.Group.Finset.Basic
import Mathlib.Algebra.BigOperators.Intervals
import Mathlib.Tactic.TypeStar

/-!
# Tensors

A tensor is a list of dimensions and an entry for every index; what it has at an index outside its
dimensions does not matter. An operation whose operands do not fit gives `none`. Slices are in
row-major order.
-/

universe u

structure Tensor (α : Type u) where
  dims : List ℕ
  entry : List ℕ → α

/-- The types of a tensor of floats. -/
inductive FloatType where
  | bf16
  | f16
  | f32
  | f64
  deriving DecidableEq, Repr

namespace Tensor

variable {α : Type u}

/-! ### Shapes -/

def dim (t : Tensor α) (i : ℕ) : Option ℕ := t.dims[i]?

/-- The sub-tensor at an index of the first dimension; a scalar is its own. -/
def get (t : Tensor α) (i : ℕ) : Option (Tensor α) :=
  match t.dims with
  | [] => some t
  | d :: rest => if i < d then some ⟨rest, fun idx => t.entry (i :: idx)⟩ else none

/-- The only entry of a tensor with no dimensions. -/
def toScalar (t : Tensor α) : Option α :=
  if t.dims = [] then some (t.entry []) else none

/-- A new dimension of size one. -/
def unsqueeze (t : Tensor α) (i : ℕ) : Option (Tensor α) :=
  if i ≤ t.dims.length then
    some ⟨t.dims.insertIdx i 1, fun idx => t.entry (idx.eraseIdx i)⟩
  else none

/-- A dimension of size one is removed, any other stays. -/
def squeeze (t : Tensor α) (i : ℕ) : Option (Tensor α) :=
  match t.dims[i]? with
  | none => none
  | some d =>
    if d = 1 then some ⟨t.dims.eraseIdx i, fun idx => t.entry (idx.insertIdx i 0)⟩ else some t

/-- Two places of a list, exchanged. -/
def swap (l : List ℕ) (i j : ℕ) : List ℕ := (l.set i (l.getD j 0)).set j (l.getD i 0)

def transpose (t : Tensor α) (i j : ℕ) : Option (Tensor α) :=
  if i < t.dims.length ∧ j < t.dims.length then
    some ⟨swap t.dims i j, fun idx => t.entry (swap idx i j)⟩
  else none

/-- The last two dimensions, exchanged. -/
def t (t : Tensor α) : Option (Tensor α) :=
  if 2 ≤ t.dims.length then t.transpose (t.dims.length - 2) (t.dims.length - 1) else none

/-- The indices from `start` on, `len` of them, in one dimension. -/
def narrow (t : Tensor α) (i start len : ℕ) : Option (Tensor α) :=
  match t.dims[i]? with
  | none => none
  | some d =>
    if start + len ≤ d then
      some ⟨t.dims.set i len, fun idx => t.entry (idx.modify i (start + ·))⟩
    else none

/-- One tensor after another in a dimension. -/
def append (a b : Tensor α) (i : ℕ) : Option (Tensor α) :=
  match a.dims[i]?, b.dims[i]? with
  | some m, some n =>
    if a.dims.set i 0 = b.dims.set i 0 then
      some ⟨a.dims.set i (m + n), fun idx =>
        if idx.getD i 0 < m then a.entry idx else b.entry (idx.modify i (· - m))⟩
    else none
  | _, _ => none

/-- All tensors of a list, one after another; there must be one. -/
def cat (i : ℕ) : List (Tensor α) → Option (Tensor α)
  | [] => none
  | [t] => some t
  | t :: rest => (cat i rest).bind fun t' => t.append t' i

/-- Dimensions of one rank that agree, up to those of size one. -/
def broadcastDims : List ℕ → List ℕ → Option (List ℕ)
  | [], [] => some []
  | m :: ms, n :: ns =>
    if m = n ∨ n = 1 then (broadcastDims ms ns).map (m :: ·)
    else if m = 1 then (broadcastDims ms ns).map (n :: ·)
    else none
  | _, _ => none

/-- The entry that a broadcast tensor has at an index. -/
def pick (t : Tensor α) (idx : List ℕ) : α :=
  t.entry (List.zipWith (fun d i => if d = 1 then 0 else i) t.dims idx)

/-! ### Contents -/

/-- The position of an index in row-major order. -/
def offset : List ℕ → List ℕ → ℕ
  | _ :: dims, i :: idx => i * dims.prod + offset dims idx
  | _, _ => 0

/-- The index at a position. -/
def unravel : List ℕ → ℕ → List ℕ
  | [], _ => []
  | _ :: dims, i => i / dims.prod :: unravel dims (i % dims.prod)

/-- The same entries in row-major order, in other dimensions. -/
def reshape (t : Tensor α) (dims : List ℕ) : Option (Tensor α) :=
  if t.dims.prod = dims.prod then
    some ⟨dims, fun idx => t.entry (unravel t.dims (offset dims idx))⟩
  else none

def map (f : α → α) (t : Tensor α) : Tensor α := ⟨t.dims, fun idx => f (t.entry idx)⟩

/-- All entries in row-major order. -/
def flatten (t : Tensor α) : List α :=
  (List.range t.dims.prod).map fun i => t.entry (unravel t.dims i)

/-- New dimensions of size one in front, up to a rank. -/
def padTo (t : Tensor α) (rank : ℕ) : Tensor α where
  dims := List.replicate (rank - t.dims.length) 1 ++ t.dims
  entry idx := t.entry (idx.drop (rank - t.dims.length))

/-- An operation on entries, on tensors of any ranks. -/
def broadcastWith (f : α → α → α) (a b : Tensor α) : Option (Tensor α) :=
  let rank := max a.dims.length b.dims.length
  (broadcastDims (a.padTo rank).dims (b.padTo rank).dims).map fun dims =>
    ⟨dims, fun idx => f ((a.padTo rank).pick idx) ((b.padTo rank).pick idx)⟩

section Numbers

variable [Zero α]

def zeros (dims : List ℕ) : Tensor α := ⟨dims, fun _ => 0⟩

/-- The entries in row-major order. -/
def fromSlice (data : List α) (dims : List ℕ) : Option (Tensor α) :=
  if data.length = dims.prod then some ⟨dims, fun idx => data.getD (offset dims idx) 0⟩ else none

/-- A function of rows, on the last dimension. -/
def mapRows (f : List α → List α) (t : Tensor α) : Tensor α where
  dims := t.dims
  entry idx :=
    (f ((List.range (t.dims.getLast?.getD 0)).map fun j => t.entry (idx.dropLast ++ [j]))).getD
      (idx.getLast?.getD 0) 0

end Numbers

/-- The rows of a matrix. -/
def toVec2 (t : Tensor α) : Option (List (List α)) :=
  match t.dims with
  | [m, n] => some ((List.range m).map fun i => (List.range n).map fun j => t.entry [i, j])
  | _ => none

def add [Add α] (a b : Tensor α) : Option (Tensor α) :=
  if a.dims = b.dims then some ⟨a.dims, fun idx => a.entry idx + b.entry idx⟩ else none

def mul [Mul α] (a b : Tensor α) : Option (Tensor α) :=
  if a.dims = b.dims then some ⟨a.dims, fun idx => a.entry idx * b.entry idx⟩ else none

def smul [Mul α] (t : Tensor α) (c : α) : Tensor α := ⟨t.dims, fun idx => t.entry idx * c⟩

def broadcastMul [Mul α] (a b : Tensor α) : Option (Tensor α) :=
  (broadcastDims a.dims b.dims).map fun dims => ⟨dims, fun idx => a.pick idx * b.pick idx⟩

/-- The rows of the last dimension times a transposed matrix, plus a bias. -/
def linear [NonUnitalNonAssocSemiring α] (t weight bias : Tensor α) : Option (Tensor α) :=
  match weight.dims with
  | [n, k] =>
    if t.dims.getLast? = some k ∧ bias.dims = [n] then
      some ⟨t.dims.dropLast ++ [n], fun idx => ∑ x ∈ Finset.range k,
        t.entry (idx.dropLast ++ [x]) * weight.entry [idx.getLast?.getD 0, x] +
          bias.entry [idx.getLast?.getD 0]⟩
    else none
  | _ => none

/-- The products of the matrices in the last two dimensions, the others being equal. -/
def matmul [NonUnitalNonAssocSemiring α] (a b : Tensor α) : Option (Tensor α) :=
  let r := a.dims.length - 2
  match a.dims.drop r, b.dims.drop r with
  | [m, k], [k', n] =>
    if a.dims.take r = b.dims.take r ∧ k = k' then
      some ⟨a.dims.take r ++ [m, n], fun idx => ∑ x ∈ Finset.range k,
        a.entry (idx.take r ++ [idx.getD r 0, x]) * b.entry (idx.take r ++ [x, idx.getD (r + 1) 0])⟩
    else none
  | _, _ => none

/-! ### Runs

A slice that is written run by run: all runs before the last one have the same length. -/

theorem mapM_eq_some {β γ : Type*} {f : β → Option γ} {g : β → γ} {l : List β}
    (h : ∀ a ∈ l, f a = some (g a)) : l.mapM f = some (l.map g) := by
  induction l with
  | nil => rfl
  | cons a l ih =>
      rw [List.mapM_cons, h a List.mem_cons_self, ih fun b hb => h b (.tail a hb)]
      rfl

theorem mapM_eq_none {β γ : Type*} {f : β → Option γ} {a : β} {l : List β} (ha : a ∈ l)
    (h : f a = none) : l.mapM f = none := by
  induction l with
  | nil => cases ha
  | cons b l ih =>
      rw [List.mapM_cons]
      cases ha with
      | head =>
          rw [h]
          rfl
      | tail _ ha =>
          rw [ih ha]
          cases f b <;> rfl

theorem exists_of_mapM {β γ : Type*} {f : β → Option γ} {l : List β} {bs : List γ}
    (h : l.mapM f = some bs) : ∀ b ∈ bs, ∃ a, f a = some b := by
  induction l generalizing bs with
  | nil =>
      cases h
      simp
  | cons a l ih =>
      rw [List.mapM_cons] at h
      obtain ⟨b, hb, h⟩ := Option.bind_eq_some_iff.mp h
      obtain ⟨rest, hrest, h⟩ := Option.bind_eq_some_iff.mp h
      cases h
      intro c hc
      cases hc with
      | head => exact ⟨a, hb⟩
      | tail _ hc => exact ih hrest c hc

theorem length_runs {β : Type*} (run : ℕ → List β) (n : ℕ) :
    ((List.range n).map run).flatten.length = ∑ j ∈ Finset.range n, (run j).length := by
  induction n with
  | zero => rfl
  | succ n ih =>
      rw [List.range_succ, List.map_append, List.flatten_append, List.length_append, ih,
        Finset.sum_range_succ]
      simp

theorem getElem?_runs {β : Type*} {run : ℕ → List β} {n c j r : ℕ} (hj : j < n)
    (hlength : ∀ i < j, (run i).length = c) (hr : r < (run j).length) :
    ((List.range n).map run).flatten[j * c + r]? = (run j)[r]? := by
  induction j generalizing run n with
  | zero =>
      obtain ⟨n, rfl⟩ := Nat.exists_eq_succ_of_ne_zero (Nat.ne_of_gt hj)
      rw [List.range_succ_eq_map, List.map_cons, List.flatten_cons, Nat.zero_mul, Nat.zero_add,
        List.getElem?_append_left hr]
  | succ j ih =>
      obtain ⟨n, rfl⟩ := Nat.exists_eq_succ_of_ne_zero (Nat.ne_of_gt (Nat.zero_lt_of_lt hj))
      have hfirst : (run 0).length = c := hlength 0 (Nat.zero_lt_succ j)
      have hindex : (j + 1) * c + r = (run 0).length + (j * c + r) := by
        rw [hfirst, Nat.add_mul, Nat.one_mul]
        omega
      rw [List.range_succ_eq_map, List.map_cons, List.flatten_cons, hindex,
        List.getElem?_append_right (Nat.le_add_right _ _), Nat.add_sub_cancel_left, List.map_map]
      exact ih (Nat.lt_of_succ_lt_succ hj) (fun i hi => hlength (i + 1) (Nat.succ_lt_succ hi)) hr

/-- Runs of copies. -/
theorem length_copies {β : Type*} (f : ℕ → β) (n c : ℕ) :
    ((List.range n).map fun i => List.replicate c (f i)).flatten.length = n * c := by
  rw [length_runs, Finset.sum_const_nat fun i _ => List.length_replicate, Finset.card_range]

theorem getElem?_copies {β : Type*} (f : ℕ → β) {n c h : ℕ} (hh : h < n * c) :
    ((List.range n).map fun i => List.replicate c (f i)).flatten[h]? = some (f (h / c)) := by
  have hpos : 0 < c := Nat.pos_of_ne_zero fun hzero => by
    rw [hzero, Nat.mul_zero] at hh
    omega
  have hmod : h % c < c := Nat.mod_lt h hpos
  rw [← Nat.div_add_mod' h c, getElem?_runs ((Nat.div_lt_iff_lt_mul hpos).mpr hh)
    (fun _ _ => List.length_replicate) (by rwa [List.length_replicate]),
    List.getElem?_replicate_of_lt hmod, Nat.div_add_mod']

/-- A sum over a range, run by run. -/
theorem sum_runs {M : Type*} [AddCommMonoid M] (f : ℕ → M) (c total n : ℕ) :
    ∑ j ∈ Finset.range n, ∑ r ∈ Finset.range (min (j * c + c) total - j * c), f (j * c + r) =
      ∑ t ∈ Finset.range (min (n * c) total), f t := by
  induction n with
  | zero => simp
  | succ n ih =>
      rw [Finset.sum_range_succ, ih, Nat.add_mul, Nat.one_mul]
      by_cases hfull : n * c ≤ total
      · have hlast : min (n * c + c) total = n * c + (min (n * c + c) total - n * c) := by omega
        rw [hlast, Nat.add_sub_cancel_left, Finset.sum_range_add, Nat.min_eq_left hfull]
      · have hnone : min (n * c + c) total - n * c = 0 := by omega
        rw [hnone, Finset.sum_range_zero, add_zero, Nat.min_eq_right (by omega),
          Nat.min_eq_right (by omega)]

/-! ### Rules -/

theorem get_cons {d i : ℕ} (h : i < d) (rest : List ℕ) (e : List ℕ → α) :
    get ⟨d :: rest, e⟩ i = some ⟨rest, fun idx => e (i :: idx)⟩ := if_pos h

theorem squeeze_of_ne {t : Tensor α} {i d : ℕ} (h : t.dims[i]? = some d) (hd : d ≠ 1) :
    t.squeeze i = some t := by
  rw [squeeze, h]
  exact if_neg hd

theorem narrow_of_le {t : Tensor α} {i d start len : ℕ} (h : t.dims[i]? = some d)
    (hle : start + len ≤ d) : t.narrow i start len =
      some ⟨t.dims.set i len, fun idx => t.entry (idx.modify i (start + ·))⟩ := by
  rw [narrow, h]
  exact if_pos hle

theorem offset_unravel {dims : List ℕ} {i : ℕ} (h : i < dims.prod) :
    offset dims (unravel dims i) = i := by
  induction dims generalizing i with
  | nil =>
      rw [List.prod_nil, Nat.lt_one_iff] at h
      rw [h]
      rfl
  | cons d dims ih =>
      rw [List.prod_cons] at h
      have hpos : 0 < dims.prod := Nat.pos_of_ne_zero fun hzero => by
        rw [hzero, Nat.mul_zero] at h
        omega
      rw [unravel, offset, ih (Nat.mod_lt i hpos), Nat.div_add_mod']

@[simp] theorem length_flatten (t : Tensor α) : t.flatten.length = t.dims.prod := by
  rw [flatten, List.length_map, List.length_range]

/-- The entry at the position of an index. -/
theorem getElem?_flatten {t : Tensor α} {i : ℕ} (h : i < t.dims.prod) :
    t.flatten[i]? = some (t.entry (unravel t.dims i)) := by
  rw [flatten, List.getElem?_map, List.getElem?_range h]
  rfl

theorem flatten_comp {β : Type*} (f : α → β) (t : Tensor α) :
    flatten ⟨t.dims, fun idx => f (t.entry idx)⟩ = t.flatten.map f := by
  rw [flatten, flatten, List.map_map]
  rfl

theorem fromSlice_eq_some [Zero α] {data : List α} {dims : List ℕ}
    (h : data.length = dims.prod) :
    fromSlice data dims = some ⟨dims, fun idx => data.getD (offset dims idx) 0⟩ := if_pos h

/-- A tensor made of a slice has the slice as its contents. -/
theorem flatten_slice [Zero α] {data : List α} {dims : List ℕ} (h : data.length = dims.prod) :
    flatten ⟨dims, fun idx => data.getD (offset dims idx) 0⟩ = data := by
  apply List.ext_getElem?
  intro i
  by_cases hi : i < dims.prod
  · rw [getElem?_flatten hi]
    dsimp only
    rw [offset_unravel hi, List.getD_eq_getElem?_getD, List.getElem?_eq_getElem (by omega)]
    rfl
  · rw [List.getElem?_eq_none (by rw [length_flatten]; exact Nat.le_of_not_lt hi),
      List.getElem?_eq_none (by omega)]

theorem offset_pair (m n r c : ℕ) : offset [m, n] [r, c] = r * n + c := by
  simp [offset]

/-- The products of two stacks of matrices. -/
theorem matmul_stack [NonUnitalNonAssocSemiring α] (b m k n : ℕ) (e f : List ℕ → α) :
    matmul ⟨[b, m, k], e⟩ ⟨[b, k, n], f⟩ = some ⟨[b, m, n], fun idx => ∑ x ∈ Finset.range k,
      e (idx.take 1 ++ [idx.getD 1 0, x]) * f (idx.take 1 ++ [x, idx.getD 2 0])⟩ :=
  if_pos ⟨rfl, rfl⟩

/-- A loop that adds one tensor after another. -/
theorem foldlM_add [AddCommMonoid α] {contrib : ℕ → Option (Tensor α)} {e : ℕ → List ℕ → α}
    {dims : List ℕ} {n : ℕ} (h : ∀ j < n, contrib j = some ⟨dims, e j⟩) :
    (List.range n).foldlM (fun output j => (contrib j).bind output.add) (zeros dims) =
      some ⟨dims, fun idx => ∑ j ∈ Finset.range n, e j idx⟩ := by
  induction n with
  | zero => rfl
  | succ n ih =>
      rw [List.range_succ, List.foldlM_append, ih fun j hj => h j (Nat.lt_succ_of_lt hj)]
      simp only [Option.bind_eq_bind, Option.bind_some, List.foldlM_cons, List.foldlM_nil,
        h n (Nat.lt_succ_self n), add, if_pos, Finset.sum_range_succ]
      rfl

theorem cat_rank {ts : List (Tensor α)} {t : Tensor α} {i k : ℕ} (h : cat i ts = some t)
    (hall : ∀ s ∈ ts, s.dims.length = k) : t.dims.length = k := by
  cases ts with
  | nil => cases h
  | cons s rest =>
      have hs := hall s List.mem_cons_self
      cases rest with
      | nil =>
          cases h
          exact hs
      | cons s' rest =>
          obtain ⟨u, _, happend⟩ := Option.bind_eq_some_iff.mp h
          rw [append] at happend
          split at happend
          · split at happend
            · cases happend
              simpa using hs
            · cases happend
          · cases happend

/-! ### Consecutive slices -/

/-- The same shape, and the same entries inside of it. -/
def Same (a b : Tensor α) : Prop :=
  a.dims = b.dims ∧ ∀ idx, List.Forall₂ (· < ·) idx a.dims → a.entry idx = b.entry idx

theorem same_refl (t : Tensor α) : t.Same t := ⟨rfl, fun _ _ => rfl⟩

/-- The indices from `start` on in a dimension, `len` of them. -/
def part (t : Tensor α) (i len start : ℕ) : Tensor α :=
  ⟨t.dims.set i len, fun idx => t.entry (idx.modify i (start + ·))⟩

theorem getD_modify (l : List ℕ) (i : ℕ) {f : ℕ → ℕ} (hf : f 0 = 0) :
    (l.modify i f).getD i 0 = f (l.getD i 0) := by
  rw [List.getD_eq_getElem?_getD, List.getD_eq_getElem?_getD, List.getElem?_modify_eq]
  cases l[i]? with
  | none => exact hf.symm
  | some x => rfl

theorem modify_congr {l : List ℕ} {i : ℕ} {f g : ℕ → ℕ} (h : f (l.getD i 0) = g (l.getD i 0)) :
    l.modify i f = l.modify i g := by
  apply List.ext_getElem?
  intro k
  by_cases hk : i = k
  · subst hk
    rw [List.getD_eq_getElem?_getD] at h
    rw [List.getElem?_modify_eq, List.getElem?_modify_eq]
    cases hx : l[i]? with
    | none => rfl
    | some x =>
        rw [hx] at h
        exact congrArg some h
  · rw [List.getElem?_modify_ne _ _ hk, List.getElem?_modify_ne _ _ hk]

theorem set_self {l : List ℕ} {i k : ℕ} (h : l[i]? = some k) : l.set i k = l := by
  obtain ⟨hi, rfl⟩ := List.getElem?_eq_some_iff.mp h
  exact List.set_getElem_self hi

theorem set_modify (l : List ℕ) (i a : ℕ) (f : ℕ → ℕ) : (l.modify i f).set i a = l.set i a := by
  rw [List.set_eq_modify, List.modify_modify_eq, List.set_eq_modify]
  rfl

/-- Slices of one index in a dimension, put together. -/
theorem cat_slices {ts : List (Tensor α)} {i : ℕ} {dims : List ℕ} (hi : i < dims.length)
    (hne : ts ≠ []) (h : ∀ t ∈ ts, t.dims = dims.set i 1) :
    ∃ t, cat i ts = some t ∧ t.dims = dims.set i ts.length ∧
      ∀ idx k s, idx[i]? = some k → ts[k]? = some s → t.entry idx = s.entry (idx.set i 0) := by
  induction ts with
  | nil => exact absurd rfl hne
  | cons t ts ih =>
      have ht := h t List.mem_cons_self
      cases ts with
      | nil =>
          refine ⟨t, rfl, ht, fun idx k s hk hs => ?_⟩
          obtain rfl : k = 0 := Nat.lt_one_iff.mp (List.getElem?_eq_some_iff.mp hs).1
          cases hs
          rw [set_self hk]
      | cons t' ts =>
          obtain ⟨u, hu, hdims, hentry⟩ := ih (by simp) fun s hs => h s (.tail t hs)
          have hhead : t.dims[i]? = some 1 := by rw [ht, List.getElem?_set_self hi]
          have htail : u.dims[i]? = some (ts.length + 1) := by
            rw [hdims, List.getElem?_set_self hi, List.length_cons]
          have hrest : t.dims.set i 0 = u.dims.set i 0 := by
            rw [ht, hdims, List.set_set, List.set_set]
          refine ⟨⟨t.dims.set i (1 + (ts.length + 1)), fun idx =>
            if idx.getD i 0 < 1 then t.entry idx else u.entry (idx.modify i (· - 1))⟩, ?_, ?_, ?_⟩
          · show (cat i (t' :: ts)).bind _ = _
            rw [hu, Option.bind_some, append, hhead, htail]
            exact if_pos hrest
          · rw [ht, List.set_set, Nat.add_comm]
            rfl
          · intro idx k s hk hs
            have hvalue : idx.getD i 0 = k := by
              rw [List.getD_eq_getElem?_getD, hk, Option.getD_some]
            dsimp only
            rw [hvalue]
            cases k with
            | zero =>
                cases hs
                rw [if_pos Nat.zero_lt_one, set_self hk]
            | succ k =>
                have hprevious : (idx.modify i (· - 1))[i]? = some k := by
                  rw [List.getElem?_modify_eq, hk]
                  rfl
                rw [if_neg (by omega), hentry _ k s hprevious hs, set_modify]

/-- Concatenated rows. -/
theorem cat_rows {ts : List (Tensor α)} {rest : List ℕ} (hne : ts ≠ [])
    (h : ∀ t ∈ ts, t.dims = 1 :: rest) :
    ∃ t, cat 0 ts = some t ∧ t.dims = ts.length :: rest ∧
      ∀ i (hi : i < ts.length) idx, t.entry (i :: idx) = ts[i].entry (0 :: idx) := by
  obtain ⟨t, hcat, hdims, hentry⟩ :=
    @cat_slices _ ts 0 (1 :: rest) (Nat.zero_lt_succ rest.length) hne h
  exact ⟨t, hcat, hdims, fun i hi idx => hentry (i :: idx) i _ rfl (List.getElem?_eq_getElem hi)⟩

/-- **Copies of the slices of a dimension**, put together: an index reads the slice of its group. -/
theorem cat_copies {t : Tensor α} {slice : ℕ → Tensor α} {i n c : ℕ} (hi : i < t.dims.length)
    (hdims : ∀ h, (slice h).dims = t.dims.set i 1)
    (hentry : ∀ h (idx : List ℕ), i < idx.length →
      (slice h).entry (idx.set i 0) = t.entry (idx.set i h))
    (hpos : 0 < n * c) :
    ∃ u, cat i ((List.range n).map fun h => List.replicate c (slice h)).flatten = some u ∧
      u.dims = t.dims.set i (n * c) ∧
      ∀ idx k, idx[i]? = some k → k < n * c → u.entry idx = t.entry (idx.set i (k / c)) := by
  have hlength := length_copies slice n c
  have hall : ∀ s ∈ ((List.range n).map fun h => List.replicate c (slice h)).flatten,
      s.dims = t.dims.set i 1 := by
    intro s hs
    obtain ⟨copies, hcopies, hs⟩ := List.mem_flatten.mp hs
    obtain ⟨h, -, rfl⟩ := List.mem_map.mp hcopies
    rw [List.eq_of_mem_replicate hs, hdims]
  obtain ⟨u, hcat, hu, hread⟩ :=
    cat_slices hi (List.ne_nil_of_length_pos (by rwa [hlength])) hall
  rw [hlength] at hu
  refine ⟨u, hcat, hu, fun idx k hk hlt => ?_⟩
  rw [hread idx k _ hk (getElem?_copies slice hlt)]
  exact hentry _ idx (List.getElem?_eq_some_iff.mp hk).1

/-- Parts of one length, one after another. -/
def parts (t : Tensor α) (i len : ℕ) : ℕ → ℕ → List (Tensor α)
  | 0, _ => []
  | n + 1, start => t.part i len start :: parts t i len n (start + len)

theorem parts_eq_map (t : Tensor α) (i len n start : ℕ) :
    t.parts i len n start = (List.range n).map fun j => t.part i len (start + j * len) := by
  induction n generalizing start with
  | zero => rfl
  | succ n ih =>
      rw [parts, ih, List.range_succ_eq_map, List.map_cons, List.map_map, Nat.zero_mul,
        Nat.add_zero]
      congr 1
      refine List.map_congr_left fun j _ => ?_
      have hstart : start + len + j * len = start + (j + 1) * len := by
        rw [Nat.add_mul, Nat.one_mul]
        omega
      rw [hstart]
      rfl

/-- **Parts, put together again**, are a part of their total length. -/
theorem cat_parts {t : Tensor α} {i : ℕ} (hi : i < t.dims.length) (len n start : ℕ) :
    ∃ u, cat i (t.parts i len (n + 1) start) = some u ∧
      u.dims = t.dims.set i ((n + 1) * len) ∧
      ∀ idx, idx.getD i 0 < (n + 1) * len → u.entry idx = t.entry (idx.modify i (start + ·)) := by
  induction n generalizing start with
  | zero =>
      refine ⟨t.part i len start, rfl, ?_, fun _ _ => rfl⟩
      rw [Nat.zero_add, Nat.one_mul]
      rfl
  | succ n ih =>
      obtain ⟨u, hu, hdims, hentry⟩ := ih (start + len)
      have htotal : (n + 1 + 1) * len = len + (n + 1) * len := by
        rw [Nat.add_mul (n + 1) 1, Nat.one_mul, Nat.add_comm]
      have hhead : (t.part i len start).dims[i]? = some len := List.getElem?_set_self hi
      have htail : u.dims[i]? = some ((n + 1) * len) := by
        rw [hdims, List.getElem?_set_self hi]
      have hrest : (t.part i len start).dims.set i 0 = u.dims.set i 0 := by
        rw [hdims, List.set_set]
        exact List.set_set ..
      refine ⟨⟨t.dims.set i (len + (n + 1) * len), fun idx =>
        if idx.getD i 0 < len then (t.part i len start).entry idx
        else u.entry (idx.modify i (· - len))⟩, ?_, ?_, ?_⟩
      · show (cat i (t.parts i len (n + 1) (start + len))).bind _ = _
        rw [hu, Option.bind_some, append, hhead, htail]
        dsimp only
        rw [if_pos hrest]
        congr 2
        exact List.set_set ..
      · rw [htotal]
      · intro idx hidx
        dsimp only
        split
        · rfl
        · rename_i hlater
          have hvalue : (idx.modify i (· - len)).getD i 0 = idx.getD i 0 - len :=
            getD_modify idx i (Nat.zero_sub len)
          rw [htotal] at hidx
          rw [hentry _ (by rw [hvalue]; omega), List.modify_modify_eq]
          refine congrArg t.entry (modify_congr ?_)
          show start + len + (idx.getD i 0 - len) = start + idx.getD i 0
          omega

/-! ### Broadcasting a single entry -/

section Broadcast

/-- The index that a broadcast tensor is read at. -/
def pinned (dims idx : List ℕ) : List ℕ := List.zipWith (fun d i => if d = 1 then 0 else i) dims idx

theorem length_unravel (dims : List ℕ) (i : ℕ) : (unravel dims i).length = dims.length := by
  induction dims generalizing i with
  | nil => rfl
  | cons d dims ih => rw [unravel, List.length_cons, ih, List.length_cons]

/-- An index inside of the dimensions stays. -/
theorem pinned_unravel {dims : List ℕ} {i : ℕ} (h : i < dims.prod) :
    pinned dims (unravel dims i) = unravel dims i := by
  induction dims generalizing i with
  | nil => rfl
  | cons d dims ih =>
      rw [List.prod_cons] at h
      have hpos : 0 < dims.prod := Nat.pos_of_ne_zero fun hzero => by
        rw [hzero, Nat.mul_zero] at h
        omega
      rw [unravel, pinned, List.zipWith_cons_cons, ← pinned, ih (Nat.mod_lt i hpos)]
      split
      · rename_i hd
        rw [hd, Nat.one_mul] at h
        rw [Nat.div_eq_of_lt h]
      · rfl

theorem pinned_ones {idx : List ℕ} {n : ℕ} (h : idx.length = n) :
    pinned (List.replicate n 1) idx = List.replicate n 0 := by
  induction idx generalizing n with
  | nil =>
      subst h
      rfl
  | cons i idx ih =>
      subst h
      rw [List.length_cons, List.replicate_succ, pinned, List.zipWith_cons_cons, ← pinned, ih rfl]
      rfl

theorem broadcastDims_ones (dims : List ℕ) :
    broadcastDims dims (List.replicate dims.length 1) = some dims := by
  induction dims with
  | nil => rfl
  | cons d dims ih =>
      rw [List.length_cons, List.replicate_succ, broadcastDims, if_pos (.inr rfl), ih]
      rfl

/-- Dimensions in front do not matter. -/
theorem drop_unravel {dims : List ℕ} {i : ℕ} (n : ℕ) (h : i < dims.prod) :
    (unravel (List.replicate n 1 ++ dims) i).drop n = unravel dims i := by
  induction n with
  | zero => rfl
  | succ n ih =>
      have hprod : (List.replicate n 1 ++ dims).prod = dims.prod := by simp
      rw [List.replicate_succ, List.cons_append, unravel, List.drop_succ_cons, hprod,
        Nat.mod_eq_of_lt h, ih]

/-- **An operation with a tensor of one entry** is an operation on each entry. -/
theorem broadcastWith_single (f : α → α → α) (a : Tensor α) (e : List ℕ → α) :
    ∃ t, a.broadcastWith f ⟨[1], e⟩ = some t ∧
      t.dims = List.replicate (1 - a.dims.length) 1 ++ a.dims ∧
      t.flatten = a.flatten.map fun x => f x (e [0]) := by
  have hrank : max a.dims.length 1 - a.dims.length = 1 - a.dims.length := by omega
  let dims := List.replicate (1 - a.dims.length) 1 ++ a.dims
  have hlength : dims.length = max a.dims.length 1 := by
    rw [List.length_append, List.length_replicate]
    omega
  have hones : List.replicate (max a.dims.length 1 - 1) 1 ++ [1] =
      List.replicate dims.length 1 := by
    rw [← List.replicate_succ', hlength]
    congr 1
    omega
  have hprod : dims.prod = a.dims.prod := by simp [dims]
  refine ⟨⟨dims, fun idx => f ((a.padTo (max a.dims.length 1)).pick idx)
    ((padTo ⟨[1], e⟩ (max a.dims.length 1)).pick idx)⟩, ?_, rfl, ?_⟩
  · show (broadcastDims (List.replicate (max a.dims.length 1 - a.dims.length) 1 ++ a.dims)
      (List.replicate (max a.dims.length 1 - 1) 1 ++ [1])).map _ = _
    rw [hrank, hones]
    exact congrArg (Option.map _) (broadcastDims_ones dims)
  · rw [flatten, flatten, List.map_map, hprod]
    refine List.map_congr_left fun i hi => ?_
    have hi' : i < a.dims.prod := List.mem_range.mp hi
    have hleft : (a.padTo (max a.dims.length 1)).pick (unravel dims i) =
        a.entry (unravel a.dims i) := by
      show a.entry ((pinned (List.replicate (max a.dims.length 1 - a.dims.length) 1 ++ a.dims)
        (unravel dims i)).drop (max a.dims.length 1 - a.dims.length)) = _
      have hin : i < dims.prod := by rwa [hprod]
      rw [hrank, pinned_unravel hin, drop_unravel _ hi']
    have hright : (padTo ⟨[1], e⟩ (max a.dims.length 1)).pick (unravel dims i) = e [0] := by
      show e ((pinned (List.replicate (max a.dims.length 1 - 1) 1 ++ [1])
        (unravel dims i)).drop (max a.dims.length 1 - 1)) = _
      rw [hones, pinned_ones (length_unravel dims i), List.drop_replicate, hlength]
      congr 1
      have hone : max a.dims.length 1 - (max a.dims.length 1 - 1) = 1 := by omega
      rw [hone]
      rfl
    show f _ _ = f _ _
    rw [hleft, hright]

end Broadcast

/-! ### Rows

A tensor, read along its second dimension. -/

/-- The entries for an index of the second dimension. -/
abbrev Row (α : Type u) := ℕ → List ℕ → α

def rows (t : Tensor α) : List (Row α) :=
  (List.range (t.dims[1]?.getD 0)).map fun j i rest => t.entry (i :: j :: rest)

theorem length_rows {t : Tensor α} {n : ℕ} (h : t.dims[1]? = some n) : t.rows.length = n := by
  rw [rows, List.length_map, List.length_range, h, Option.getD_some]

theorem rows_append {a b t : Tensor α} (h : a.append b 1 = some t) : t.rows = a.rows ++ b.rows := by
  rw [append] at h
  split at h
  · rename_i m n hm hn
    split at h
    · cases h
      have hlen : 1 < a.dims.length := (List.getElem?_eq_some_iff.mp hm).1
      rw [rows, rows, rows, hm, hn, List.getElem?_set_self hlen]
      simp only [Option.getD_some, List.range_add, List.map_append, List.map_map]
      congr 1
      · refine List.map_congr_left fun j hj => ?_
        funext i rest
        exact if_pos (List.mem_range.mp hj)
      · refine List.map_congr_left fun j _ => ?_
        funext i rest
        have hlater : ¬ m + j < m := by omega
        show (if m + j < m then _ else b.entry (i :: (m + j - m) :: rest)) = _
        rw [if_neg hlater, Nat.add_sub_cancel_left]
    · cases h
  · cases h

/-! ### Shapes of results

What shape an operation gives, if any, depends on the shapes of its operands alone. -/

/-- The shape of a result, if there is one. -/
def shape? (t : Option (Tensor α)) : Option (List ℕ) := t.map (·.dims)

theorem shape?_eq_some {t : Option (Tensor α)} {dims : List ℕ} :
    shape? t = some dims ↔ ∃ u, t = some u ∧ u.dims = dims := Option.map_eq_some_iff

@[simp] theorem shape?_some (t : Tensor α) : shape? (some t) = some t.dims := rfl

/-- The shape of a chain, from the shape of its first step. -/
theorem shape?_bind {t : Option (Tensor α)} {f : Tensor α → Option (Tensor α)}
    {dims : List ℕ} {result : Option (List ℕ)} (ht : shape? t = some dims)
    (hf : ∀ u, u.dims = dims → shape? (f u) = result) : shape? (t.bind f) = result := by
  obtain ⟨u, rfl, hu⟩ := shape?_eq_some.mp ht
  exact hf u hu

theorem shape?_bind_none {t : Option (Tensor α)} {f : Tensor α → Option (Tensor α)}
    (ht : shape? t = none) : shape? (t.bind f) = none := by
  rw [Option.map_eq_none_iff.mp ht]
  rfl

section Shapes

variable {t a b : Tensor α}

theorem shape?_fromSlice [Zero α] {data : List α} {dims : List ℕ} (h : data.length = dims.prod) :
    shape? (fromSlice data dims) = some dims := by
  rw [fromSlice, if_pos h]
  rfl

theorem shape?_unsqueeze {i : ℕ} (h : i ≤ t.dims.length) :
    shape? (t.unsqueeze i) = some (t.dims.insertIdx i 1) := by
  rw [unsqueeze, if_pos h]
  rfl

theorem shape?_reshape {dims : List ℕ} :
    shape? (t.reshape dims) = if t.dims.prod = dims.prod then some dims else none := by
  rw [reshape]
  split <;> rfl

theorem shape?_transpose {i j : ℕ} (hi : i < t.dims.length) (hj : j < t.dims.length) :
    shape? (t.transpose i j) = some (swap t.dims i j) := by
  rw [transpose, if_pos ⟨hi, hj⟩]
  rfl

theorem shape?_narrow {i d start len : ℕ} (h : t.dims[i]? = some d) :
    shape? (t.narrow i start len) = if start + len ≤ d then some (t.dims.set i len) else none := by
  rw [narrow, h]
  dsimp only
  split <;> rfl

theorem shape?_append {i m n : ℕ} (ha : a.dims[i]? = some m) (hb : b.dims[i]? = some n)
    (hsame : a.dims.set i 0 = b.dims.set i 0) :
    shape? (a.append b i) = some (a.dims.set i (m + n)) := by
  rw [append, ha, hb]
  dsimp only
  rw [if_pos hsame]
  rfl

theorem shape?_linear [NonUnitalNonAssocSemiring α] {weight bias : Tensor α} (rows : List ℕ)
    {n k : ℕ} (ht : t.dims = rows ++ [k]) (hweight : weight.dims = [n, k])
    (hbias : bias.dims = [n]) : shape? (t.linear weight bias) = some (rows ++ [n]) := by
  rw [linear, hweight]
  dsimp only
  rw [if_pos ⟨by simp [ht], hbias⟩, shape?_some, ht, List.dropLast_concat]

theorem shape?_broadcastMul [Mul α] :
    shape? (a.broadcastMul b) = broadcastDims a.dims b.dims := by
  rw [shape?, broadcastMul, Option.map_map]
  exact Option.map_id' ..

theorem shape?_add [Add α] (h : a.dims = b.dims) : shape? (a.add b) = some a.dims := by
  rw [add, if_pos h]
  rfl

theorem shape?_mul [Mul α] (h : a.dims = b.dims) : shape? (a.mul b) = some a.dims := by
  rw [mul, if_pos h]
  rfl

/-- Matrices in the last two dimensions. -/
theorem shape?_matmul [NonUnitalNonAssocSemiring α] (xs ys : List ℕ) {m k k' n : ℕ}
    (ha : a.dims = xs ++ [m, k]) (hb : b.dims = ys ++ [k', n]) (hrank : xs.length = ys.length) :
    shape? (a.matmul b) = if xs = ys ∧ k = k' then some (xs ++ [m, n]) else none := by
  have hlen : a.dims.length - 2 = xs.length := by simp [ha]
  rw [matmul]
  rw [hlen, ha, hb, List.drop_left, List.take_left, hrank, List.drop_left, List.take_left]
  dsimp only
  split
  · rfl
  · rfl

/-- Copies of one shape. -/
theorem shape?_cat {ts : List (Tensor α)} {i d : ℕ} (dims : List ℕ) (hne : ts ≠ [])
    (h : ∀ t ∈ ts, t.dims = dims) (hd : dims[i]? = some d) :
    shape? (cat i ts) = some (dims.set i (ts.length * d)) := by
  obtain ⟨hi, hentry⟩ := List.getElem?_eq_some_iff.mp hd
  induction ts with
  | nil => exact absurd rfl hne
  | cons t ts ih =>
      have ht := h t List.mem_cons_self
      cases ts with
      | nil =>
          rw [cat, shape?_some, ht, List.length_singleton, Nat.one_mul, ← hentry,
            List.set_getElem_self]
      | cons t' ts =>
          refine shape?_bind (ih (by simp) fun s hs => h s (.tail t hs)) fun u hu => ?_
          have hu' : u.dims[i]? = some ((ts.length + 1) * d) := by
            rw [hu, List.getElem?_set_self hi, List.length_cons]
          rw [shape?_append (ht ▸ hd) hu' (by rw [ht, hu, List.set_set]), ht]
          congr 2
          simp only [List.length_cons, Nat.add_mul, Nat.one_mul]
          omega

end Shapes

/-! ### Entries of results

What a result has at an index, from what its operands have. -/

/-- An index inside of the dimensions is found again at its position. -/
theorem unravel_offset {dims idx : List ℕ} (h : List.Forall₂ (· < ·) idx dims) :
    unravel dims (offset dims idx) = idx := by
  have hlt : ∀ {dims idx : List ℕ}, List.Forall₂ (· < ·) idx dims →
      offset dims idx < dims.prod := by
    intro dims idx h
    induction h with
    | nil => exact Nat.one_pos
    | @cons i d idx dims hi _ ih =>
        rw [offset, List.prod_cons]
        calc i * dims.prod + offset dims idx < i * dims.prod + dims.prod := by omega
          _ = (i + 1) * dims.prod := by rw [Nat.add_mul, Nat.one_mul]
          _ ≤ d * dims.prod := Nat.mul_le_mul_right _ hi
  induction h with
  | nil => rfl
  | @cons i d idx dims hi hrest ih =>
      have hoffset := hlt hrest
      have hpos : 0 < dims.prod := Nat.zero_lt_of_lt hoffset
      rw [offset, unravel, Nat.mul_comm, Nat.mul_add_div hpos, Nat.div_eq_of_lt hoffset,
        Nat.add_zero, Nat.mul_add_mod, Nat.mod_eq_of_lt hoffset, ih]

/-- An index inside of the dimensions is not pinned. -/
theorem pinned_of_lt {dims idx : List ℕ} (h : List.Forall₂ (· < ·) idx dims) :
    pinned dims idx = idx := by
  induction h with
  | nil => rfl
  | @cons i d idx dims hi _ ih =>
      rw [pinned, List.zipWith_cons_cons, ← pinned, ih]
      split
      · congr 1
        omega
      · rfl

section Entries

variable {t a b u : Tensor α}

theorem entry_reshape {dims idx idx' : List ℕ} (h : t.reshape dims = some u)
    (hidx' : List.Forall₂ (· < ·) idx' t.dims) (hoffset : offset dims idx = offset t.dims idx') :
    u.entry idx = t.entry idx' := by
  rw [reshape] at h
  split at h
  · cases h
    dsimp only
    rw [hoffset, unravel_offset hidx']
  · cases h

theorem entry_transpose {i j : ℕ} (h : t.transpose i j = some u) (idx : List ℕ) :
    u.entry idx = t.entry (swap idx i j) := by
  rw [transpose] at h
  split at h
  · cases h
    rfl
  · cases h

theorem entry_narrow {i start len : ℕ} (h : t.narrow i start len = some u) (idx : List ℕ) :
    u.entry idx = t.entry (idx.modify i (start + ·)) := by
  rw [narrow] at h
  split at h
  · cases h
  · split at h
    · cases h
      rfl
    · cases h

theorem entry_append {i m : ℕ} (h : a.append b i = some u) (ha : a.dims[i]? = some m)
    (idx : List ℕ) :
    u.entry idx = if idx.getD i 0 < m then a.entry idx else b.entry (idx.modify i (· - m)) := by
  rw [append, ha] at h
  split at h
  · rename_i hm _
    cases hm
    split at h
    · cases h
      rfl
    · cases h
  · cases h

theorem entry_add [Add α] (h : a.add b = some u) (idx : List ℕ) :
    u.entry idx = a.entry idx + b.entry idx := by
  rw [add] at h
  split at h
  · cases h
    rfl
  · cases h

theorem entry_mul [Mul α] (h : a.mul b = some u) (idx : List ℕ) :
    u.entry idx = a.entry idx * b.entry idx := by
  rw [mul] at h
  split at h
  · cases h
    rfl
  · cases h

theorem entry_broadcastMul [Mul α] (h : a.broadcastMul b = some u) (idx : List ℕ) :
    u.entry idx = a.entry (pinned a.dims idx) * b.entry (pinned b.dims idx) := by
  obtain ⟨dims, _, rfl⟩ := Option.map_eq_some_iff.mp h
  rfl

theorem entry_linear [NonUnitalNonAssocSemiring α] {weight bias : Tensor α} {n k : ℕ}
    (h : t.linear weight bias = some u) (hweight : weight.dims = [n, k]) (idx : List ℕ) (c : ℕ) :
    u.entry (idx ++ [c]) =
      ∑ x ∈ Finset.range k, t.entry (idx ++ [x]) * weight.entry [c, x] + bias.entry [c] := by
  rw [linear, hweight] at h
  dsimp only at h
  split at h
  · cases h
    simp
  · cases h

/-- The product of two matrices at the end of the dimensions. -/
theorem entry_matmul [NonUnitalNonAssocSemiring α] (xs : List ℕ) {m k : ℕ}
    (h : a.matmul b = some u) (ha : a.dims = xs ++ [m, k]) {idx : List ℕ}
    (hidx : idx.length = xs.length) (i j : ℕ) :
    u.entry (idx ++ [i, j]) =
      ∑ x ∈ Finset.range k, a.entry (idx ++ [i, x]) * b.entry (idx ++ [x, j]) := by
  have hlen : a.dims.length - 2 = xs.length := by simp [ha]
  rw [matmul, hlen, ha, List.drop_left] at h
  split at h
  · rename_i m' k' k'' n hm _
    cases hm
    split at h
    · cases h
      have hi : (idx ++ [i, j]).getD xs.length 0 = i := by simp [← hidx]
      have hj : (idx ++ [i, j]).getD (xs.length + 1) 0 = j := by simp [← hidx]
      dsimp only
      rw [hi, hj, ← hidx, List.take_left]
    · cases h
  · cases h

end Entries

/-! ### Matrices -/

section Matrix

variable {a b u : Tensor α} {m n k : ℕ}

theorem t_matrix (h : a.dims = [m, n]) :
    ∃ u, a.t = some u ∧ u.dims = [n, m] ∧ ∀ i j, u.entry [i, j] = a.entry [j, i] := by
  obtain ⟨dims, entry⟩ := a
  subst h
  exact ⟨_, rfl, rfl, fun i j => rfl⟩

theorem matmul_matrix [NonUnitalNonAssocSemiring α] (ha : a.dims = [m, k]) (hb : b.dims = [k, n]) :
    ∃ u, a.matmul b = some u ∧ u.dims = [m, n] ∧
      ∀ i j, u.entry [i, j] = ∑ x ∈ Finset.range k, a.entry [i, x] * b.entry [x, j] := by
  have hshape : shape? (a.matmul b) = some [m, n] := by
    rw [shape?_matmul [] [] ha hb rfl, if_pos ⟨rfl, rfl⟩]
    rfl
  obtain ⟨u, hu, hdims⟩ := shape?_eq_some.mp hshape
  exact ⟨u, hu, hdims, entry_matmul [] hu ha (List.length_nil (α := ℕ))⟩

/-- A matrix is multiplied with matrices only. -/
theorem matmul_matrix_none [NonUnitalNonAssocSemiring α] (hb : b.dims = [k, n])
    (ha : ∀ m, a.dims ≠ [m, k]) : a.matmul b = none := by
  rw [matmul, hb]
  split
  · rename_i m' k' k'' n' hrows hcols
    have hrank : a.dims.length - 2 = 0 := by
      have hlength := congrArg List.length hcols
      rw [List.length_drop, List.length_cons, List.length_cons, List.length_nil] at hlength
      simp only [List.length_cons, List.length_nil] at hlength
      omega
    rw [hrank, List.drop_zero] at hrows hcols
    obtain ⟨rfl, -⟩ := List.cons.inj hcols
    apply if_neg
    rintro ⟨-, rfl⟩
    exact ha m' hrows
  · rfl

theorem pinned_inside {d i : ℕ} (h : i < d) : (if d = 1 then 0 else i) = i := by
  split
  · omega
  · rfl

/-- An operation of a matrix and a row of the same length. -/
theorem broadcastWith_row (f : α → α → α) (ha : a.dims = [n, m]) (hb : b.dims = [m]) :
    ∃ u, a.broadcastWith f b = some u ∧ u.dims = [n, m] ∧
      ∀ i < n, ∀ j < m, u.entry [i, j] = f (a.entry [i, j]) (b.entry [j]) := by
  obtain ⟨adims, aentry⟩ := a
  obtain ⟨bdims, bentry⟩ := b
  subst ha hb
  have hdims : broadcastDims [n, m] [1, m] = some [n, m] := by
    rw [broadcastDims, if_pos (.inr rfl), broadcastDims, if_pos (.inl rfl)]
    rfl
  refine ⟨_, congrArg (Option.map _) hdims, rfl, fun i hi j hj => ?_⟩
  change f (aentry [if n = 1 then 0 else i, if m = 1 then 0 else j])
    (bentry [if m = 1 then 0 else j]) = _
  rw [pinned_inside hi, pinned_inside hj]

/-- An operation of two matrices of the same shape. -/
theorem broadcastWith_matrix (f : α → α → α) (ha : a.dims = [n, m]) (hb : b.dims = [n, m]) :
    ∃ u, a.broadcastWith f b = some u ∧ u.dims = [n, m] ∧
      ∀ i < n, ∀ j < m, u.entry [i, j] = f (a.entry [i, j]) (b.entry [i, j]) := by
  obtain ⟨adims, aentry⟩ := a
  obtain ⟨bdims, bentry⟩ := b
  subst ha hb
  have hdims : broadcastDims [n, m] [n, m] = some [n, m] := by
    rw [broadcastDims, if_pos (.inl rfl), broadcastDims, if_pos (.inl rfl)]
    rfl
  refine ⟨_, congrArg (Option.map _) hdims, rfl, fun i hi j hj => ?_⟩
  change f (aentry [if n = 1 then 0 else i, if m = 1 then 0 else j])
    (bentry [if n = 1 then 0 else i, if m = 1 then 0 else j]) = _
  rw [pinned_inside hi, pinned_inside hj]

end Matrix

end Tensor
