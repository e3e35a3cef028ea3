import Kyro.Model.Attention

/-!
# Shards of a tensor

The shards of a dimension have the length of the quotient, so together they are as long as the
dimension exactly if the group divides it.
-/

namespace Kyro.DistributedContext

variable {α : Type}

/-- The shards of all ranks, put together, are the tensor. -/
def ShardsRejoin (worldSize : UInt32) (tensor : Tensor α) (dim : ℕ) : Prop :=
  ∃ shards whole, ((List.range worldSize.toNat).mapM fun rank =>
      shardDim ⟨UInt32.ofNat rank, worldSize⟩ tensor dim) = some shards ∧
    Tensor.cat dim shards = some whole ∧ whole.Same tensor

section Shards

variable {worldSize : UInt32} {tensor : Tensor α} {dim size rank : ℕ}

theorem shardDim_eq_part (hworld : 1 < worldSize.toNat) (hdim : tensor.dim dim = some size)
    (hrank : rank < worldSize.toNat) :
    shardDim ⟨UInt32.ofNat rank, worldSize⟩ tensor dim =
      some (tensor.part dim (size / worldSize.toNat) (0 + rank * (size / worldSize.toNat))) := by
  have hmany : ¬ worldSize ≤ 1 := fun h => absurd (UInt32.le_iff_toNat_le.mp h) (by
    show ¬ worldSize.toNat ≤ 1
    omega)
  have hrank' : (UInt32.ofNat rank).toNat = rank := by
    have hbound := worldSize.toNat_lt
    rw [UInt32.toNat_ofNat', Nat.mod_eq_of_lt (by omega)]
  have hfit : rank * (size / worldSize.toNat) + size / worldSize.toNat ≤ size :=
    calc rank * (size / worldSize.toNat) + size / worldSize.toNat
        = (rank + 1) * (size / worldSize.toNat) := by rw [Nat.add_mul, Nat.one_mul]
      _ ≤ worldSize.toNat * (size / worldSize.toNat) := Nat.mul_le_mul_right _ hrank
      _ ≤ size := Nat.mul_div_le size _
  rw [shardDim, if_neg hmany, hdim]
  show tensor.narrow dim ((UInt32.ofNat rank).toNat * _) _ = _
  rw [hrank', Tensor.narrow_of_le hdim hfit, Nat.zero_add]
  rfl

/-- All shards, put together. -/
theorem exists_cat_shards (hworld : 1 < worldSize.toNat) (hdim : tensor.dim dim = some size) :
    ∃ shards whole, ((List.range worldSize.toNat).mapM fun rank =>
        shardDim ⟨UInt32.ofNat rank, worldSize⟩ tensor dim) = some shards ∧
      Tensor.cat dim shards = some whole ∧
      whole.dims = tensor.dims.set dim (worldSize.toNat * (size / worldSize.toNat)) ∧
      ∀ idx, idx.getD dim 0 < worldSize.toNat * (size / worldSize.toNat) →
        whole.entry idx = tensor.entry idx := by
  have hinside : dim < tensor.dims.length := (List.getElem?_eq_some_iff.mp hdim).1
  obtain ⟨n, hn⟩ := Nat.exists_eq_succ_of_ne_zero (Nat.ne_of_gt (Nat.zero_lt_of_lt hworld))
  obtain ⟨whole, hcat, hdims, hentry⟩ :=
    Tensor.cat_parts hinside (size / worldSize.toNat) n 0
  rw [← Nat.succ_eq_add_one, ← hn] at hcat hdims hentry
  rw [Tensor.parts_eq_map] at hcat
  refine ⟨_, whole, Tensor.mapM_eq_some fun rank hrank =>
    shardDim_eq_part hworld hdim (List.mem_range.mp hrank), hcat, hdims, fun idx hidx => ?_⟩
  have hshift : (fun i => 0 + i) = id := funext Nat.zero_add
  rw [hentry idx hidx, hshift, List.modify_id]

/-- **Sharding loses nothing exactly if the size of the group divides the dimension.** -/
theorem shardsRejoin_iff (hworld : 1 ≤ worldSize) (hdim : tensor.dim dim = some size) :
    ShardsRejoin worldSize tensor dim ↔ worldSize.toNat ∣ size := by
  have hpos : 1 ≤ worldSize.toNat := UInt32.le_iff_toNat_le.mp hworld
  rcases hpos.eq_or_lt with hone | hmany
  · -- A group of one keeps the tensor.
    have hsingle : worldSize ≤ 1 := UInt32.le_iff_toNat_le.mpr (Nat.le_of_eq hone.symm)
    rw [ShardsRejoin, ← hone]
    refine ⟨fun _ => one_dvd size, fun _ => ⟨[tensor], tensor, ?_, rfl, tensor.same_refl⟩⟩
    show (shardDim ⟨0, worldSize⟩ tensor dim).bind (fun shard => some [shard]) = _
    rw [shardDim, if_pos hsingle]
    rfl
  · obtain ⟨hinside, hsize⟩ := List.getElem?_eq_some_iff.mp hdim
    obtain ⟨shards, whole, hshards, hcat, hdims, hentry⟩ := exists_cat_shards hmany hdim
    constructor
    · rintro ⟨shards', whole', hshards', hcat', hsame, _⟩
      cases hshards.symm.trans hshards'
      cases hcat.symm.trans hcat'
      have htotal : some (worldSize.toNat * (size / worldSize.toNat)) = some size := by
        rw [← hdim, Tensor.dim, ← hsame, hdims, List.getElem?_set_self hinside]
      exact ⟨_, (Option.some.inj htotal).symm⟩
    · intro hdvd
      have htotal := Nat.mul_div_cancel' hdvd
      have hsame : whole.dims = tensor.dims := by
        rw [hdims, htotal, ← hsize, List.set_getElem_self]
      refine ⟨shards, whole, hshards, hcat, hsame, fun idx hidx => hentry idx ?_⟩
      rw [htotal]
      rw [hsame] at hidx
      obtain ⟨hlength, hlt⟩ := List.forall₂_iff_get.mp hidx
      have hidxInside : dim < idx.length := hlength ▸ hinside
      rw [List.getD_eq_getElem?_getD, List.getElem?_eq_getElem hidxInside, ← hsize]
      exact hlt dim hidxInside hinside

end Shards

/-- Three columns over a group of three. -/
theorem three_shards_rejoin :
    ShardsRejoin 3 (⟨[2, 3], fun idx => idx.sum⟩ : Tensor ℕ) 1 :=
  (shardsRejoin_iff (by decide) (show Tensor.dim _ 1 = some 3 from rfl)).mpr (by decide)

/-- Five rows over a group of two: the last one is in no shard. -/
theorem five_rows_not_rejoin : ¬ ShardsRejoin 2 (⟨[5], fun idx => idx.sum⟩ : Tensor ℕ) 0 := by
  rintro ⟨shards, whole, hshards, hcat, hsame, _⟩
  have hdim : (⟨[5], fun idx => idx.sum⟩ : Tensor ℕ).dim 0 = some 5 := rfl
  obtain ⟨shards', whole', hshards', hcat', hdims, _⟩ :=
    exists_cat_shards (show 1 < (2 : UInt32).toNat by decide) hdim
  cases hshards'.symm.trans hshards
  cases hcat'.symm.trans hcat
  rw [hdims] at hsame
  cases hsame

end Kyro.DistributedContext
