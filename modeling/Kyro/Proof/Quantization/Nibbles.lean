import Kyro.Model.Quantization

/-!
# Nibbles

The bytes of packed values are determined value by value, and unpacked values are the nibbles of the
bytes in order, so that packing and unpacking are inverse to each other.
-/

namespace Kyro.Quantization

open Fill

/-! ### One byte -/

@[simp] theorem low_toNat (b : UInt8) : (low b).toNat = b.toNat % 16 := by
  rw [low, UInt8.toNat_and]
  exact Nat.and_two_pow_sub_one_eq_mod b.toNat 4

@[simp] theorem high_toNat (b : UInt8) : (high b).toNat = b.toNat / 16 := by
  have hbound := b.toNat_lt
  have hshift : (b >>> 4).toNat = b.toNat / 16 := Nat.shiftRight_eq_div_pow b.toNat 4
  show (low (b >>> 4)).toNat = _
  rw [low_toNat, hshift]
  omega

/-- Two nibbles beside each other. -/
@[simp] theorem pair_toNat (a b : UInt8) :
    (low a ||| low b <<< 4).toNat = a.toNat % 16 + 16 * (b.toNat % 16) := by
  have hshift : (low b <<< 4).toNat = (b.toNat % 16) <<< 4 := by
    rw [UInt8.toNat_shiftLeft, low_toNat, Nat.shiftLeft_eq]
    show b.toNat % 16 * 2 ^ 4 % 2 ^ 8 = _
    rw [Nat.shiftLeft_eq]
    omega
  rw [UInt8.toNat_or, hshift, low_toNat, Nat.or_comm,
    ← Nat.shiftLeft_add_eq_or_of_lt (Nat.mod_lt _ (by decide)), Nat.shiftLeft_eq]
  omega

theorem low_of_lt {b : UInt8} (h : b < 16) : low b = b := by
  have hnat : b.toNat < 16 := h
  apply UInt8.toNat_inj.mp
  rw [low_toNat, Nat.mod_eq_of_lt hnat]

@[simp] theorem low_pair (a b : UInt8) : low (low a ||| low b <<< 4) = low a := by
  apply UInt8.toNat_inj.mp
  rw [low_toNat, pair_toNat, low_toNat]
  omega

@[simp] theorem high_pair (a b : UInt8) : high (low a ||| low b <<< 4) = low b := by
  apply UInt8.toNat_inj.mp
  rw [high_toNat, pair_toNat, low_toNat]
  omega

/-- A byte is its nibbles. -/
theorem pair_nibbles (b : UInt8) : low (low b) ||| low (high b) <<< 4 = b := by
  apply UInt8.toNat_inj.mp
  have hbound := b.toNat_lt
  rw [pair_toNat, low_toNat, high_toNat]
  omega

/-! ### The unpacked stream -/

/-- All nibbles of the bytes, the low one first. -/
def nibbles (packed : List UInt8) : List UInt8 := packed.flatMap fun b => [low b, high b]

theorem nibbles_length (packed : List UInt8) : (nibbles packed).length = 2 * packed.length := by
  induction packed with
  | nil => rfl
  | cons b packed ih =>
      show (nibbles packed).length + 1 + 1 = 2 * (packed.length + 1)
      omega

theorem nibbles_getElem? (packed : List UInt8) (i : ℕ) : (nibbles packed)[i]? =
    packed[i / 2]?.map fun b => if i % 2 = 0 then low b else high b := by
  induction packed generalizing i with
  | nil => rfl
  | cons b packed ih =>
      match i with
      | 0 => rfl
      | 1 => rfl
      | i + 2 =>
        have hdiv : (i + 2) / 2 = i / 2 + 1 := by omega
        have hmod : (i + 2) % 2 = i % 2 := by omega
        rw [hdiv, hmod]
        exact ih i

/-- The loop adds nibbles until there are enough of them. -/
theorem foldl_unpackByte (n : ℕ) (packed values : List UInt8) :
    (packed.foldl (unpackByte n) values).take n = (values ++ nibbles packed).take n := by
  induction packed generalizing values with
  | nil => rw [List.foldl_nil, nibbles, List.flatMap_nil, List.append_nil]
  | cons b packed ih =>
      have hstream : values ++ nibbles (b :: packed) =
          values ++ [low b] ++ [high b] ++ nibbles packed := by
        simp [nibbles]
      rw [List.foldl_cons, ih, hstream, unpackByte]
      split
      · rfl
      · -- The nibble that is left out lies beyond the first `n` values.
        rename_i hfull
        have hle : n ≤ (values ++ [low b]).length := Nat.le_of_not_lt hfull
        rw [List.append_assoc _ [high b], List.take_append_of_le_length hle,
          List.take_append_of_le_length hle]

/-- What `unpack_i4` returns. -/
theorem unpackI4_eq (packed : List UInt8) (n : ℕ) : unpackI4 packed n = (nibbles packed).take n :=
  foldl_unpackByte n packed []

theorem unpackI4_all (packed : List UInt8) :
    unpackI4 packed (2 * packed.length) = nibbles packed := by
  rw [unpackI4_eq, List.take_of_length_le (Nat.le_of_eq (nibbles_length packed))]

/-! ### The packed bytes -/

/-- The byte at a position; the last one has a single value if their number is odd. -/
def packedByte (values : List UInt8) (i : ℕ) : UInt8 :=
  low (values.getD (i * 2) 0) ||| low (values.getD (i * 2 + 1) 0) <<< 4

theorem divCeil_two (n : ℕ) : divCeil n 2 = .ok ((n + 1) / 2) := divCeil_of_pos (by decide)

theorem packPair_written {values packed : List UInt8} {i : ℕ} (hi : i < values.length / 2)
    (hlength : packed.length = (values.length + 1) / 2) :
    ∃ packed', packPair values packed i = .ok packed' ∧
      Written (packedByte values) {i} packed packed' := by
  rw [packPair, read_of_lt _ (by omega) 0, read_of_lt _ (by omega) 0]
  exact write_written _ (by omega) rfl

/-- **What `pack_i4` returns**, without an index out of range. -/
theorem packI4_eq (values : List UInt8) :
    packI4 values = .ok ((List.range ((values.length + 1) / 2)).map (packedByte values)) := by
  have hlength : (List.replicate ((values.length + 1) / 2) (0 : UInt8)).length =
    (values.length + 1) / 2 := List.length_replicate
  obtain ⟨packed, hloop, hpairs⟩ := foldlM_written
    (List.range (values.length / 2)) (s := fun i => {i})
    (fun xs hxs i hi => packPair_written (List.mem_range.mp hi) hxs) hlength
  have hpacked := hpairs.length_eq.trans hlength
  rw [packI4, divCeil_two, Machine.ok_bind, hloop, Machine.ok_bind]
  split
  · rename_i hodd
    have hlast : low (values.getD (values.length - 1) 0) =
        packedByte values ((values.length + 1) / 2 - 1) := by
      have hindex : ((values.length + 1) / 2 - 1) * 2 = values.length - 1 := by omega
      have hnone : values.getD (values.length - 1 + 1) 0 = 0 := by
        rw [List.getD_eq_getElem?_getD, List.getElem?_eq_none (by omega)]
        rfl
      rw [packedByte, hindex, hnone]
      exact (UInt8.or_zero).symm
    have hroom : (values.length + 1) / 2 - 1 < packed.length := by omega
    obtain ⟨packed', hwrite, htail⟩ := write_written Fault.outOfRange hroom hlast
    rw [read_of_lt _ (by omega) 0, Machine.ok_bind]
    rw [hwrite, (hpairs.trans htail).eq_map, hlength]
    intro i hi
    rw [hlength] at hi
    by_cases hpair : i < values.length / 2
    · exact .inl ⟨i, List.mem_range.mpr hpair, rfl⟩
    · exact .inr (show i = _ by omega)
  · rename_i heven
    rw [hpairs.eq_map, hlength]
    · rfl
    · intro i hi
      rw [hlength] at hi
      exact ⟨i, List.mem_range.mpr (by omega), rfl⟩

/-! ### Round trips -/

theorem nibbles_packed {values : List UInt8} (h : ∀ a ∈ values, a < 16) :
    (nibbles ((List.range ((values.length + 1) / 2)).map (packedByte values))).take values.length =
      values := by
  apply List.ext_getElem?
  intro i
  rw [List.getElem?_take]
  split
  · rename_i hi
    have hsmall : low (values.getD i 0) = values.getD i 0 := by
      apply low_of_lt
      rw [List.getD_eq_getElem?_getD, List.getElem?_eq_getElem hi]
      exact h _ (List.getElem_mem hi)
    have hvalue : values[i]? = some (values.getD i 0) := by
      rw [List.getD_eq_getElem?_getD, List.getElem?_eq_getElem hi]
      rfl
    rw [nibbles_getElem?, List.getElem?_map, List.getElem?_range (by omega), hvalue, ← hsmall]
    show some (if i % 2 = 0 then low (packedByte values (i / 2))
      else high (packedByte values (i / 2))) = _
    rw [packedByte, low_pair, high_pair]
    split
    · have hindex : i / 2 * 2 = i := by omega
      rw [hindex]
    · have hindex : i / 2 * 2 + 1 = i := by omega
      rw [hindex]
  · rename_i hi
    rw [List.getElem?_eq_none (Nat.le_of_not_lt hi)]

theorem packedByte_nibbles {packed : List UInt8} {i : ℕ} (hi : i < packed.length) :
    packedByte (nibbles packed) i = packed[i] := by
  have hlow : (nibbles packed).getD (i * 2) 0 = low packed[i] := by
    have hdiv : i * 2 / 2 = i := by omega
    have hmod : i * 2 % 2 = 0 := by omega
    rw [List.getD_eq_getElem?_getD, nibbles_getElem?, hdiv, hmod, List.getElem?_eq_getElem hi]
    rfl
  have hhigh : (nibbles packed).getD (i * 2 + 1) 0 = high packed[i] := by
    have hdiv : (i * 2 + 1) / 2 = i := by omega
    have hmod : (i * 2 + 1) % 2 = 1 := by omega
    rw [List.getD_eq_getElem?_getD, nibbles_getElem?, hdiv, hmod, List.getElem?_eq_getElem hi]
    rfl
  rw [packedByte, hlow, hhigh, pair_nibbles]

/-- **Packing nibbles and unpacking bytes are inverse to each other**, and fewer values are the
first ones. -/
theorem packI4_unpackI4 :
    (∀ values : List UInt8, (∀ a ∈ values, a < 16) →
      ∃ packed, packI4 values = .ok packed ∧ unpackI4 packed values.length = values) ∧
    (∀ packed : List UInt8, packI4 (unpackI4 packed (2 * packed.length)) = .ok packed) ∧
    (∀ (packed : List UInt8) (n : ℕ), n ≤ 2 * packed.length →
      unpackI4 packed n = (unpackI4 packed (2 * packed.length)).take n) := by
  refine ⟨fun values h => ?_, fun packed => ?_, fun packed n _ => ?_⟩
  · exact ⟨_, packI4_eq values, (unpackI4_eq _ _).trans (nibbles_packed h)⟩
  · have hcount : (2 * packed.length + 1) / 2 = packed.length := by omega
    rw [unpackI4_all, packI4_eq, nibbles_length, hcount]
    congr 1
    apply List.ext_getElem
    · rw [List.length_map, List.length_range]
    · intro i hi hi'
      rw [List.getElem_map, List.getElem_range, packedByte_nibbles hi']
  · rw [unpackI4_all, unpackI4_eq]

end Kyro.Quantization
