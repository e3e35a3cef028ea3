import Kyro.Proof.Model.Heads
import Mathlib.Algebra.Group.Even
import Mathlib.Algebra.Ring.Rat
import Mathlib.Tactic.Ring

/-!
# The inputs that attention accepts

Queries and keys are never transposed to have the heads before the tokens, so the scores are between
the heads of one token, and there are as many of them as heads. Only an input with as many tokens as
there are heads comes back.
-/

namespace Kyro
namespace Loader

variable {R : Type}

/-! ### Heads -/

/-- Heads are copied up to any multiple of their number that is not zero. -/
theorem shape?_expandKv {tensor : Tensor R} {bSz len kvHeads nHeads headDim : ℕ}
    (htensor : tensor.dims = [bSz, len, kvHeads, headDim]) (hgroups : kvHeads ∣ nHeads) :
    Tensor.shape? (expandKv nHeads tensor) =
      if kvHeads = nHeads ∨ 0 < nHeads then some [bSz, len, nHeads, headDim] else none := by
  have hdim : tensor.dim 2 = some kvHeads := by rw [Tensor.dim, htensor]; rfl
  rcases Nat.eq_zero_or_pos kvHeads with hzero | hpos
  · have hnone : nHeads = 0 := Nat.eq_zero_of_zero_dvd (hzero ▸ hgroups)
    rw [if_pos (Or.inl (hzero.trans hnone.symm)), expandKv, hdim]
    simp [hzero, hnone, htensor]
  · rcases Nat.eq_zero_or_pos nHeads with hnone | hheads
    · rw [hnone, expandKv_none hdim hpos, if_neg (by omega)]
      rfl
    · obtain ⟨expanded, hexpand, hexpanded⟩ := expandKv_expanded hdim hpos hgroups hheads
      rw [hexpand, if_pos (Or.inr hheads), Tensor.shape?_some, hexpanded.dims, htensor]
      rfl

/-- A linear layer has the shapes that it asks the checkpoint for. -/
theorem linear_dims {vb : VarBuilder (Tensor R)} {inDim outDim : ℕ} {layer : Linear (Tensor R)}
    (h : linear inDim outDim vb = .ok layer)
    (htensors : ∀ name shape t, vb.tensors name shape = some t → t.dims = shape) :
    layer.weight.dims = [outDim, inDim] ∧ layer.bias.dims = [outDim] := by
  have hget : ∀ {shape : List ℕ} {name : String} {t : Tensor R},
      vb.get shape name = .ok t → t.dims = shape := by
    intro shape name t hget
    rw [VarBuilder.get] at hget
    split at hget
    · rename_i found hfound
      cases hget
      exact htensors _ _ _ hfound
    · cases hget
  obtain ⟨weight, hweight, h⟩ := Machine.bind_eq_ok.mp h
  obtain ⟨bias, hbias, h⟩ := Machine.bind_eq_ok.mp h
  cases h
  exact ⟨hget hweight, hget hbias⟩

/-! ### The cache -/

namespace Attention

variable {attn : Attention (Tensor R)}

/-- A slot with the keys and values of so many tokens. -/
inductive Slot (attn : Attention (Tensor R)) (bSz : ℕ) : RequestKVCache (Tensor R) → ℕ → Prop
  | fresh : Slot attn bSz ⟨none, none, 0⟩ 0
  | tokens {keys values : Tensor R} {n : ℕ}
      (keyDims : keys.dims = [bSz, n, attn.nKvHeads, attn.headDim])
      (valueDims : values.dims = [bSz, n, attn.nKvHeads, attn.headDim]) :
      Slot attn bSz ⟨some keys, some values, n⟩ n

/-- No cache, or one that has the keys and values of so many tokens of the request. -/
inductive Cached (attn : Attention (Tensor R)) (bSz : ℕ) : Option (CacheContext R) → ℕ → Prop
  | none : Cached attn bSz none 0
  | slot {ctx : CacheContext R} {slot : RequestKVCache (Tensor R)} {n : ℕ}
      (lookup : ctx.manager.requestCaches.lookup ctx.requestId = some slot)
      (holds : Slot attn bSz slot n) : Cached attn bSz (some ctx) n

/-- New keys or values after the ones of a slot. -/
theorem catOnto_shaped {existing : Option (Tensor R)} {new : Tensor R} {bSz n seqLen heads dim : ℕ}
    (hnew : new.dims = [bSz, seqLen, heads, dim])
    (hexisting : (existing = none ∧ n = 0) ∨
      ∃ t, existing = some t ∧ t.dims = [bSz, n, heads, dim]) :
    ∃ t, KVCacheManager.catOnto (.shaped R) existing new = some t ∧
      t.dims = [bSz, n + seqLen, heads, dim] := by
  obtain ⟨rfl, rfl⟩ | ⟨t, rfl, ht⟩ := hexisting
  · exact ⟨new, rfl, by rw [hnew, Nat.zero_add]⟩
  · have happend : Tensor.shape? (t.append new 1) = some (t.dims.set 1 (n + seqLen)) :=
      Tensor.shape?_append (by rw [ht]; rfl) (by rw [hnew]; rfl) (by rw [ht, hnew]; rfl)
    rw [ht] at happend
    exact Tensor.shape?_eq_some.mp happend

/-- An append to a slot of the layer's shape. -/
theorem Slot.append {manager : KVCacheManager (Tensor R)} {id : RequestId}
    {slot : RequestKVCache (Tensor R)} {bSz n seqLen : ℕ} (hslot : Slot attn bSz slot n)
    (hlookup : manager.requestCaches.lookup id = some slot) {k v : Tensor R}
    (hk : k.dims = [bSz, seqLen, attn.nKvHeads, attn.headDim])
    (hv : v.dims = [bSz, seqLen, attn.nKvHeads, attn.headDim]) :
    ∃ keys values, manager.appendKv (.shaped R) id k v = .ok (⟨manager.requestCaches.insert id
        ⟨some keys, some values, n + seqLen⟩⟩, true) ∧
      keys.dims = [bSz, n + seqLen, attn.nKvHeads, attn.headDim] ∧
      values.dims = [bSz, n + seqLen, attn.nKvHeads, attn.headDim] := by
  have hlen : k.dim 1 = some seqLen := by rw [Tensor.dim, hk]; rfl
  cases hslot with
  | fresh =>
      obtain ⟨keys, hkeys, hkdims⟩ := catOnto_shaped hk (.inl ⟨rfl, rfl⟩)
      obtain ⟨values, hvalues, hvdims⟩ := catOnto_shaped hv (.inl ⟨rfl, rfl⟩)
      exact ⟨keys, values, KVCacheManager.appendKv_accepted hlookup rfl rfl hkeys hvalues hlen,
        hkdims, hvdims⟩
  | tokens keyDims valueDims =>
      obtain ⟨keys, hkeys, hkdims⟩ := catOnto_shaped hk (.inr ⟨_, rfl, keyDims⟩)
      obtain ⟨values, hvalues, hvdims⟩ := catOnto_shaped hv (.inr ⟨_, rfl, valueDims⟩)
      exact ⟨keys, values, KVCacheManager.appendKv_accepted hlookup rfl rfl hkeys hvalues hlen,
        hkdims, hvdims⟩

/-- How many tokens a cache has after one more call. -/
def stored (cache : Option (CacheContext R)) (n seqLen : ℕ) : ℕ :=
  if cache.isSome then n + seqLen else 0

/-- What a call attends to: with tokens before it, a single token gets them all. -/
theorem fullKv_cached {cache : Option (CacheContext R)} {bSz n seqLen : ℕ}
    (hcache : Cached attn bSz cache n) {k v : Tensor R}
    (hk : k.dims = [bSz, seqLen, attn.nKvHeads, attn.headDim])
    (hv : v.dims = [bSz, seqLen, attn.nKvHeads, attn.headDim]) :
    ∃ cache' fullK fullV, fullKv cache k v seqLen = .ok (cache', some (fullK, fullV)) ∧
      (Cached attn bSz cache' (stored cache n seqLen) ∧ cache'.isSome = cache.isSome ∧
        (¬ (0 < n ∧ seqLen = 1) → fullK = k ∧ fullV = v)) ∧
      fullK.dims = [bSz, if 0 < n ∧ seqLen = 1 then n + seqLen else seqLen, attn.nKvHeads,
        attn.headDim] ∧
      fullV.dims = [bSz, if 0 < n ∧ seqLen = 1 then n + seqLen else seqLen, attn.nKvHeads,
        attn.headDim] := by
  cases hcache with
  | none => exact ⟨none, k, v, rfl, ⟨.none, rfl, fun _ => ⟨rfl, rfl⟩⟩, hk, hv⟩
  | @slot ctx slot _ hlookup hslot =>
      obtain ⟨keys, values, happend, hkeys, hvalues⟩ := hslot.append hlookup hk hv
      have hlookup' : (ctx.manager.requestCaches.insert ctx.requestId
          ⟨some keys, some values, n + seqLen⟩).lookup ctx.requestId =
            some ⟨some keys, some values, n + seqLen⟩ := AList.lookup_insert _
      refine ⟨some ⟨⟨ctx.manager.requestCaches.insert ctx.requestId
        ⟨some keys, some values, n + seqLen⟩⟩, ctx.requestId⟩, ?_⟩
      by_cases hdecode : 0 < n ∧ seqLen = 1
      · refine ⟨keys, values, ?_, ⟨.slot hlookup' (.tokens hkeys hvalues), rfl, absurd hdecode⟩,
          ?_, ?_⟩
        · simp only [fullKv, happend, Machine.ok_bind, if_true, KVCacheManager.getContextLen,
            KVCacheManager.getCachedKey, KVCacheManager.getCachedValue, hlookup']
          exact if_pos ⟨hdecode.2, Nat.lt_add_of_pos_left hdecode.1⟩
        · rwa [if_pos hdecode]
        · rwa [if_pos hdecode]
      · refine ⟨k, v, ?_, ⟨.slot hlookup' (.tokens hkeys hvalues), rfl, fun _ => ⟨rfl, rfl⟩⟩,
          ?_, ?_⟩
        · simp only [fullKv, happend, Machine.ok_bind, if_true, KVCacheManager.getContextLen,
            KVCacheManager.getCachedKey, KVCacheManager.getCachedValue, hlookup']
          exact if_neg fun h => hdecode ⟨Nat.pos_of_lt_add_left h.2, h.1⟩
        · rwa [if_neg hdecode]
        · rwa [if_neg hdecode]

end Attention


/-! ### Rotary embedding -/

namespace RotaryEmbedding

/-- The two halves make a head only if its length is even. -/
theorem shape?_table {f : R → R} {freqs : Tensor R} {seqLen headDim : ℕ} (hseq : 0 < seqLen)
    (hfreqs : freqs.dims = [seqLen, headDim / 2]) :
    Tensor.shape? (table f freqs seqLen headDim) =
      if Even headDim then some [1, seqLen, 1, headDim] else none := by
  simp only [table, Option.bind_eq_bind]
  refine Tensor.shape?_bind (Tensor.shape?_reshape.trans (if_pos (congrArg _ hfreqs)))
    fun half hhalf => ?_
  refine Tensor.shape?_bind (Tensor.shape?_cat [seqLen, headDim / 2] (List.cons_ne_nil _ _)
    (by simp [hhalf]) rfl) fun whole hwhole => ?_
  rw [Tensor.shape?_reshape, hwhole]
  refine if_congr ?_ rfl rfl
  simp only [List.set_cons_succ, List.set_cons_zero, List.prod_cons, List.prod_nil,
    List.length_cons, List.length_nil, Nat.mul_one, Nat.one_mul, Nat.zero_add]
  rw [Nat.mul_right_inj (by omega), Nat.even_iff]
  omega

variable [CommRing R] {num : Numerics R} {rope : RotaryEmbedding R}

theorem new_dims {dim : ℕ} (h : new num dim = some rope) : rope.invFreq.dims = [dim / 2] := by
  obtain ⟨invFreq, hslice, rfl⟩ := Option.map_eq_some_iff.mp h
  have hshape : Tensor.shape? (some invFreq) = some [dim / 2] :=
    hslice ▸ Tensor.shape?_fromSlice (by simp)
  exact Option.some.inj hshape

theorem shape?_freqs {half : ℕ} (hrope : rope.invFreq.dims = [half]) (seqLen index : ℕ) :
    Tensor.shape? (rope.freqs seqLen index) = some [seqLen, half] := by
  simp only [freqs, Option.bind_eq_bind]
  refine Tensor.shape?_bind (Tensor.shape?_fromSlice (by simp)) fun positions hpositions => ?_
  refine Tensor.shape?_bind (Tensor.shape?_unsqueeze (by simp [hpositions]))
    fun column hcolumn => ?_
  refine Tensor.shape?_bind (Tensor.shape?_unsqueeze (Nat.zero_le _)) fun row hrow => ?_
  rw [hpositions] at hcolumn
  rw [hrope] at hrow
  exact (Tensor.shape?_matmul [] [] hcolumn hrow rfl).trans (if_pos ⟨rfl, rfl⟩)

theorem shape?_rotated {x : Tensor R} {bSz seqLen heads half : ℕ}
    (hx : x.dims = [bSz, seqLen, heads, half + half]) :
    Tensor.shape? (rotated x half) = some [bSz, seqLen, heads, half + half] := by
  simp only [rotated, Option.bind_eq_bind]
  have hlast : x.dims[3]? = some (half + half) := by rw [hx]; rfl
  refine Tensor.shape?_bind ((Tensor.shape?_narrow hlast).trans (if_pos (by omega)))
    fun x1 hx1 => ?_
  refine Tensor.shape?_bind ((Tensor.shape?_narrow hlast).trans (if_pos le_rfl)) fun x2 hx2 => ?_
  rw [hx] at hx1 hx2
  refine (Tensor.shape?_cat [bSz, seqLen, heads, half] (List.cons_ne_nil _ _) ?_ rfl).trans ?_
  · simp only [List.mem_cons, List.not_mem_nil, or_false, forall_eq_or_imp, forall_eq]
    exact ⟨hx2, hx1⟩
  · simp [Nat.two_mul]

/-- **A rotation keeps the shape** of heads of even length, and is refused for others. -/
theorem shape?_apply (num : Numerics R) {x : Tensor R} {bSz seqLen heads headDim : ℕ}
    (index : ℕ) (hrope : rope.invFreq.dims = [headDim / 2]) (hseq : 0 < seqLen)
    (hx : x.dims = [bSz, seqLen, heads, headDim]) :
    Tensor.shape? (rope.apply num x index) =
      if Even headDim then some [bSz, seqLen, heads, headDim] else none := by
  rw [apply, hx]
  simp only [Option.bind_eq_bind]
  refine Tensor.shape?_bind (shape?_freqs hrope seqLen index) fun freqs hfreqs => ?_
  by_cases heven : Even headDim
  · have htable (f : R → R) := (shape?_table (f := f) hseq hfreqs).trans (if_pos heven)
    refine Tensor.shape?_bind (htable num.cos) fun cos hcos => ?_
    refine Tensor.shape?_bind (htable num.sin) fun sin hsin => ?_
    obtain ⟨half, rfl⟩ := heven
    have hhalf : (half + half) / 2 = half := by omega
    rw [hhalf]
    refine Tensor.shape?_bind (shape?_rotated hx) fun rotated hrotated => ?_
    have hbroadcast : Tensor.broadcastDims [bSz, seqLen, heads, half + half]
        [1, seqLen, 1, half + half] = some [bSz, seqLen, heads, half + half] := by
      simp [Tensor.broadcastDims]
    refine Tensor.shape?_bind (by rw [Tensor.shape?_broadcastMul, hx, hcos, hbroadcast])
      fun straight hstraight => ?_
    refine Tensor.shape?_bind (by rw [Tensor.shape?_broadcastMul, hrotated, hsin, hbroadcast])
      fun turned hturned => ?_
    rw [Tensor.shape?_add (hstraight.trans hturned.symm), hstraight, if_pos ⟨half, rfl⟩]
  · rw [if_neg heven]
    exact Tensor.shape?_bind_none ((shape?_table hseq hfreqs).trans (if_neg heven))

end RotaryEmbedding

/-! ### The layer -/

namespace Attention

variable [CommRing R] {num : Numerics R} {rope : RotaryEmbedding R} {attn : Attention (Tensor R)}
  {hidden : ℕ}


/-- The shapes that a layer is loaded with; its heads are in groups that share a key and a value. -/
structure Shaped (rope : RotaryEmbedding R) (attn : Attention (Tensor R)) (hidden : ℕ) :
    Prop where
  invFreq : rope.invFreq.dims = [attn.headDim / 2]
  groups : attn.nKvHeads ∣ attn.nHeads
  fits : attn.nHeads * attn.headDim < 2 ^ 64
  qWeight : attn.qProj.weight.dims = [attn.nHeads * attn.headDim, hidden]
  qBias : attn.qProj.bias.dims = [attn.nHeads * attn.headDim]
  kWeight : attn.kProj.weight.dims = [attn.nKvHeads * attn.headDim, hidden]
  kBias : attn.kProj.bias.dims = [attn.nKvHeads * attn.headDim]
  vWeight : attn.vProj.weight.dims = [attn.nKvHeads * attn.headDim, hidden]
  vBias : attn.vProj.bias.dims = [attn.nKvHeads * attn.headDim]
  oWeight : attn.oProj.weight.dims = [hidden, attn.nHeads * attn.headDim]
  oBias : attn.oProj.bias.dims = [hidden]

/-- The attention that a rank loads has these shapes. -/
theorem newAttention_shaped {cfg : LlamaConfig} {vb : VarBuilder (Tensor R)}
    {dist : DistributedContext} (hnew : newAttention cfg vb dist = .ok attn)
    (hrope : RotaryEmbedding.new num attn.headDim = some rope)
    (htensors : ∀ name shape t, vb.tensors name shape = some t → t.dims = shape)
    (hgroups : attn.nKvHeads ∣ attn.nHeads) (hhidden : cfg.hiddenSize < 2 ^ 64)
    (hkvHeads : attn.nKvHeads * attn.headDim < 2 ^ 64) :
    Shaped rope attn cfg.hiddenSize := by
  obtain ⟨headDim, hhead, hnew⟩ := Machine.bind_eq_ok.mp hnew
  obtain ⟨nHeads, hheads, hnew⟩ := Machine.bind_eq_ok.mp hnew
  obtain ⟨nKvHeads, -, hnew⟩ := Machine.bind_eq_ok.mp hnew
  obtain ⟨qProj, hq, hnew⟩ := Machine.bind_eq_ok.mp hnew
  obtain ⟨kProj, hk, hnew⟩ := Machine.bind_eq_ok.mp hnew
  obtain ⟨vProj, hv, hnew⟩ := Machine.bind_eq_ok.mp hnew
  obtain ⟨oProj, ho, hnew⟩ := Machine.bind_eq_ok.mp hnew
  cases hnew
  obtain ⟨-, rfl⟩ := checkedDiv_eq_ok (orFault_eq_ok.mp hhead)
  obtain ⟨-, rfl⟩ := checkedDiv_eq_ok (orFault_eq_ok.mp hheads)
  have hfits : cfg.numAttentionHeads / dist.worldSize.toNat *
      (cfg.hiddenSize / cfg.numAttentionHeads) < 2 ^ 64 :=
    calc
      _ ≤ cfg.numAttentionHeads * (cfg.hiddenSize / cfg.numAttentionHeads) :=
        Nat.mul_le_mul_right _ (Nat.div_le_self _ _)
      _ ≤ cfg.hiddenSize := Nat.mul_div_le _ _
      _ < 2 ^ 64 := hhidden
  rw [wrappingMul_of_lt hfits] at hq ho
  rw [wrappingMul_of_lt hkvHeads] at hk hv
  exact {
    invFreq := RotaryEmbedding.new_dims hrope
    groups := hgroups
    fits := hfits
    qWeight := (linear_dims hq htensors).1
    qBias := (linear_dims hq htensors).2
    kWeight := (linear_dims hk htensors).1
    kBias := (linear_dims hk htensors).2
    vWeight := (linear_dims hv htensors).1
    vBias := (linear_dims hv htensors).2
    oWeight := (linear_dims ho htensors).1
    oBias := (linear_dims ho htensors).2 }

/-- The scores are between heads: their number has to be that of the tokens. -/
theorem shape?_attend (hshaped : Shaped rope attn hidden) {q fullK fullV : Tensor R}
    {bSz seqLen len : ℕ} (hseq : 0 < seqLen)
    (hq : q.dims = [bSz, seqLen, attn.nHeads, attn.headDim])
    (hk : fullK.dims = [bSz, len, attn.nKvHeads, attn.headDim])
    (hv : fullV.dims = [bSz, len, attn.nKvHeads, attn.headDim]) :
    Tensor.shape? (attn.attend num q fullK fullV bSz seqLen) =
      if len = seqLen ∧ seqLen = attn.nHeads then some [bSz, seqLen, hidden] else none := by
  simp only [attend, Option.bind_eq_bind]
  by_cases hheads : attn.nKvHeads = attn.nHeads ∨ 0 < attn.nHeads
  · refine Tensor.shape?_bind ((shape?_expandKv hk hshaped.groups).trans (if_pos hheads))
      fun fullK hk => ?_
    refine Tensor.shape?_bind ((shape?_expandKv hv hshaped.groups).trans (if_pos hheads))
      fun fullV hv => ?_
    refine Tensor.shape?_bind (Tensor.shape?_transpose (by simp [hk]) (by simp [hk]))
      fun kT hkT => ?_
    rw [hk] at hkT
    have hscores := Tensor.shape?_matmul [bSz, seqLen] [bSz, len] hq hkT rfl
    by_cases hlen : len = seqLen
    · subst hlen
      refine Tensor.shape?_bind (hscores.trans (if_pos ⟨rfl, rfl⟩)) fun att hatt => ?_
      have hkeys : fullK.dim 2 = some attn.nHeads := by rw [Tensor.dim, hk]; rfl
      have hvalues : fullV.dim 1 = some len := by rw [Tensor.dim, hv]; rfl
      rw [hkeys, Option.bind_some]
      by_cases hfew : len ≤ attn.nHeads
      · rw [lastStart_of_le hfew, Option.bind_some]
        have hlast : (att.smul (num.scale attn.headDim)).dims[3]? = some attn.nHeads := by
          rw [Tensor.smul, hatt]
          rfl
        refine Tensor.shape?_bind ((Tensor.shape?_narrow hlast).trans (if_pos (by omega)))
          fun att' hatt' => ?_
        have hweights : (att'.mapRows num.softmax).dims = [bSz, len, attn.nHeads, len] := by
          rw [Tensor.mapRows, hatt', Tensor.smul, hatt]
          rfl
        rw [hvalues, Option.bind_some, lastStart_of_le le_rfl, Option.bind_some]
        refine Tensor.shape?_bind ((Tensor.shape?_narrow hvalues).trans (if_pos (by omega)))
          fun recent hrecent => ?_
        rw [hv] at hrecent
        have hout := Tensor.shape?_matmul [bSz, len] [bSz, len] hweights hrecent rfl
        by_cases hsame : len = attn.nHeads
        · refine Tensor.shape?_bind (hout.trans (if_pos ⟨rfl, hsame⟩)) fun out hdims => ?_
          rw [wrappingMul_of_lt hshaped.fits, if_pos ⟨rfl, hsame⟩]
          refine Tensor.shape?_bind (Tensor.shape?_reshape.trans (if_pos ?_)) fun flat hflat => ?_
          · rw [hdims]
            simp
          · exact Tensor.shape?_linear [bSz, len] hflat hshaped.oWeight hshaped.oBias
        · rw [if_neg fun h => hsame h.2]
          exact Tensor.shape?_bind_none (hout.trans (if_neg fun h => hsame h.2))
      · rw [if_neg fun h => hfew h.2.le, lastStart, if_neg hfew]
        rfl
    · rw [if_neg fun h => hlen h.1]
      exact Tensor.shape?_bind_none (hscores.trans (if_neg fun h => hlen (by simpa using h.1.symm)))
  · have hnone : ¬ (len = seqLen ∧ seqLen = attn.nHeads) := fun h => hheads (.inr (h.2 ▸ hseq))
    rw [if_neg hnone]
    exact Tensor.shape?_bind_none ((shape?_expandKv hk hshaped.groups).trans (if_neg hheads))

theorem shape?_project {proj : Linear (Tensor R)} {heads bSz seqLen : ℕ} {x : Tensor R}
    (hx : x.dims = [bSz, seqLen, hidden])
    (hweight : proj.weight.dims = [heads * attn.headDim, hidden])
    (hbias : proj.bias.dims = [heads * attn.headDim]) :
    Tensor.shape? (attn.project proj heads x bSz seqLen) =
      some [bSz, seqLen, heads, attn.headDim] := by
  simp only [project, Option.bind_eq_bind]
  refine Tensor.shape?_bind (Tensor.shape?_linear [bSz, seqLen] hx hweight hbias)
    fun out hout => ?_
  refine Tensor.shape?_reshape.trans (if_pos ?_)
  rw [hout]
  simp

/-- The queries, keys and values of an input, if heads have an even length. -/
theorem qkv_shaped (num : Numerics R) (hshaped : Shaped rope attn hidden) {x : Tensor R}
    {bSz seqLen : ℕ} (hseq : 0 < seqLen) (hx : x.dims = [bSz, seqLen, hidden]) (index : ℕ) :
    if Even attn.headDim then
      ∃ q k v, attn.qkv num rope x bSz seqLen index = some (q, k, v) ∧
        q.dims = [bSz, seqLen, attn.nHeads, attn.headDim] ∧
        k.dims = [bSz, seqLen, attn.nKvHeads, attn.headDim] ∧
        v.dims = [bSz, seqLen, attn.nKvHeads, attn.headDim]
    else attn.qkv num rope x bSz seqLen index = none := by
  obtain ⟨q, hq, hqdims⟩ := Tensor.shape?_eq_some.mp
    (shape?_project hx hshaped.qWeight hshaped.qBias)
  obtain ⟨k, hk, hkdims⟩ := Tensor.shape?_eq_some.mp
    (shape?_project hx hshaped.kWeight hshaped.kBias)
  obtain ⟨v, hv, hvdims⟩ := Tensor.shape?_eq_some.mp
    (shape?_project hx hshaped.vWeight hshaped.vBias)
  have hqrope := RotaryEmbedding.shape?_apply num index hshaped.invFreq hseq hqdims
  have hkrope := RotaryEmbedding.shape?_apply num index hshaped.invFreq hseq hkdims
  rw [qkv, hq, hk, hv]
  simp only [Option.bind_eq_bind, Option.bind_some]
  split
  · rename_i heven
    rw [if_pos heven] at hqrope hkrope
    obtain ⟨q', hq', hqdims'⟩ := Tensor.shape?_eq_some.mp hqrope
    obtain ⟨k', hk', hkdims'⟩ := Tensor.shape?_eq_some.mp hkrope
    exact ⟨q', k', v, by rw [hq', hk']; rfl, hqdims', hkdims', hvdims⟩
  · rename_i hodd
    rw [if_neg hodd] at hqrope
    rw [Option.map_eq_none_iff.mp hqrope]
    rfl

/-- The inputs that come back: the tokens are as many as the heads, and no single token comes after
others. -/
def Accepted (attn : Attention (Tensor R)) (n seqLen : ℕ) : Prop :=
  Even attn.headDim ∧ seqLen = attn.nHeads ∧ ¬ (0 < n ∧ seqLen = 1)

instance (attn : Attention (Tensor R)) (n seqLen : ℕ) : Decidable (Accepted attn n seqLen) :=
  inferInstanceAs (Decidable (_ ∧ _ ∧ _))

/-- **What a call does**: it never panics, it leaves a cache that the next one can use, and it gives
the shape of the input back if that is accepted. -/
theorem forward_cached (num : Numerics R) (hshaped : Shaped rope attn hidden) {x : Tensor R}
    {bSz seqLen n : ℕ} (hseq : 0 < seqLen) (hx : x.dims = [bSz, seqLen, hidden]) (index : ℕ)
    {cache : Option (CacheContext R)} (hcache : Cached attn bSz cache n) :
    ∃ cache' m out, attn.forward num rope x index cache = .ok (cache', out) ∧
      (Cached attn bSz cache' m ∧ cache'.isSome = cache.isSome ∧
        (Even attn.headDim → m = stored cache n seqLen)) ∧
      Tensor.shape? out = if Accepted attn n seqLen then some x.dims else none := by
  have hqkv := qkv_shaped num hshaped hseq hx index
  rw [forward, hx]
  dsimp only
  by_cases heven : Even attn.headDim
  · rw [if_pos heven] at hqkv
    obtain ⟨q, k, v, hqkv, hq, hk, hv⟩ := hqkv
    obtain ⟨cache', fullK, fullV, hfull, hcache', hfullK, hfullV⟩ := fullKv_cached hcache hk hv
    rw [hqkv]
    dsimp only
    rw [hfull, Machine.ok_bind]
    refine ⟨cache', _, _, rfl, ⟨hcache'.1, hcache'.2.1, fun _ => rfl⟩, ?_⟩
    refine (shape?_attend hshaped hseq hq hfullK hfullV).trans (if_congr ?_ rfl rfl)
    rw [Accepted]
    by_cases hdecode : 0 < n ∧ seqLen = 1
    · have hlonger : n + seqLen ≠ seqLen := by omega
      rw [if_pos hdecode]
      exact ⟨fun h => absurd h.1 hlonger, fun h => absurd hdecode h.2.2⟩
    · rw [if_neg hdecode]
      exact ⟨fun h => ⟨heven, h.2, hdecode⟩, fun h => ⟨rfl, h.2.1⟩⟩
  · rw [if_neg heven] at hqkv
    rw [hqkv]
    exact ⟨cache, n, none, rfl, ⟨hcache, rfl, fun h => absurd h heven⟩,
      (if_neg fun h => heven h.1).symm⟩

end Attention

/-- A call that returns a tensor of this shape. -/
def Returns (call : Except Fault (Option (CacheContext R) × Option (Tensor R))) (dims : List ℕ) :
    Prop :=
  ∃ cache out, call = .ok (cache, some out) ∧ out.dims = dims

section Calls

variable [CommRing R] (num : Numerics R) {rope : RotaryEmbedding R} {attn : Attention (Tensor R)}

/-- The two architectures differ in a copy. -/
theorem llama_forward_eq (dist : DistributedContext) (x : Tensor R) (index : ℕ)
    (cache : Option (CacheContext R)) :
    LlamaAttention.forward num rope attn dist x index cache =
      Qwen2Attention.forward num rope attn x index cache := by
  have hcopy : dist.allReduce = (some : Tensor R → Option (Tensor R)) :=
    funext fun out => ite_self (some out)
  rw [LlamaAttention.forward, hcopy, Qwen2Attention.forward]
  cases attn.forward num rope x index cache with
  | error fault => rfl
  | ok result =>
      exact congrArg (fun out => Except.ok (result.1, out)) (Option.bind_fun_some result.2)

/-- **Attention returns the shape of its input exactly if heads have an even length, there are as
many tokens as heads, and it is no decode step.** -/
theorem returned_iff {hidden : ℕ} (hshaped : Attention.Shaped rope attn hidden)
    (dist : DistributedContext) {x : Tensor R} {bSz seqLen n : ℕ} (hseq : 1 ≤ seqLen)
    (hx : x.dims = [bSz, seqLen, hidden]) (index : ℕ) {cache : Option (CacheContext R)}
    (hcache : Attention.Cached attn bSz cache n) :
    (Returns (LlamaAttention.forward num rope attn dist x index cache) x.dims ↔
        Attention.Accepted attn n seqLen) ∧
      (Returns (Qwen2Attention.forward num rope attn x index cache) x.dims ↔
        Attention.Accepted attn n seqLen) := by
  rw [llama_forward_eq, and_self, Qwen2Attention.forward]
  obtain ⟨cache', m, out, hforward, -, hshape⟩ :=
    Attention.forward_cached num hshaped hseq hx index hcache
  rw [hforward]
  constructor
  · rintro ⟨_, out, heq, hdims⟩
    cases heq
    by_contra hrefused
    rw [if_neg hrefused] at hshape
    cases hshape
  · intro haccepted
    rw [if_pos haccepted] at hshape
    obtain ⟨result, rfl, hdims⟩ := Tensor.shape?_eq_some.mp hshape
    exact ⟨cache', result, rfl, hdims⟩

end Calls

/-! ### Two heads of length two -/

def zeroLinear (inDim outDim : ℕ) : Linear (Tensor ℚ) where
  inDim := inDim
  outDim := outDim
  weight := .zeros [outDim, inDim]
  bias := .zeros [outDim]

/-- Two heads that share a key and a value. -/
def twoHeads : Attention (Tensor ℚ) where
  qProj := zeroLinear 4 4
  kProj := zeroLinear 4 2
  vProj := zeroLinear 4 2
  oProj := zeroLinear 4 4
  nHeads := 2
  nKvHeads := 1
  headDim := 2

def flatRope : RotaryEmbedding ℚ := ⟨.zeros [1]⟩

def flat : Numerics ℚ where
  invFreq _ _ := 0
  cos _ := 1
  sin _ := 0
  scale _ := 1
  softmax row := row.map fun _ => 1 / row.length

theorem twoHeads_shaped : Attention.Shaped flatRope twoHeads 4 :=
  ⟨rfl, by decide, by decide, rfl, rfl, rfl, rfl, rfl, rfl, rfl, rfl⟩

/-- Two tokens come back, also after three others. -/
theorem two_tokens_returned :
    Returns (LlamaAttention.forward flat flatRope twoHeads ⟨0, 1⟩ (.zeros [1, 2, 4]) 3
        (some ⟨⟨AList.singleton 7 ⟨some (.zeros [1, 3, 1, 2]), some (.zeros [1, 3, 1, 2]), 3⟩⟩, 7⟩))
        [1, 2, 4] ∧
      Returns (Qwen2Attention.forward flat flatRope twoHeads (.zeros [1, 2, 4]) 3
        (some ⟨⟨AList.singleton 7 ⟨some (.zeros [1, 3, 1, 2]), some (.zeros [1, 3, 1, 2]), 3⟩⟩, 7⟩))
        [1, 2, 4] :=
  (returned_iff flat twoHeads_shaped ⟨0, 1⟩ (by decide) rfl 3
    (.slot rfl (.tokens rfl rfl))).imp (fun h => h.mpr (by decide)) fun h => h.mpr (by decide)

/-- A prompt of three tokens is refused. -/
theorem three_tokens_refused :
    Attention.Shaped flatRope twoHeads 4 ∧
      LlamaAttention.forward flat flatRope twoHeads ⟨0, 1⟩ (.zeros [1, 3, 4]) 0 none =
        .ok (none, none) ∧
      Qwen2Attention.forward flat flatRope twoHeads (.zeros [1, 3, 4]) 0 none = .ok (none, none) :=
  ⟨twoHeads_shaped, rfl, rfl⟩

end Loader
end Kyro
