import Kyro.Model.Attention
import Kyro.Model.Llama

/-!
# Tensors as rows

The forward pass on rows reads the tensors of the other one along their sequence dimension. A call
on tensors that gets its keys and values does to the cache, and selects from it, what the call on
rows does and selects.
-/

namespace Kyro

open Tensor (Row)

variable {R : Type}

/-! ### The cache -/

/-- A slot of tensors, read along the sequence dimension. -/
def RequestKVCache.readRows (slot : RequestKVCache (Tensor R)) : RequestKVCache (List (Row R)) where
  keyTensor := slot.keyTensor.map Tensor.rows
  valueTensor := slot.valueTensor.map Tensor.rows
  numCachedTokens := slot.numCachedTokens

namespace KVCacheManager

/-- A cache of rows has what is read from a cache of tensors. -/
def Reads (manager : KVCacheManager (Tensor R)) (rows : KVCacheManager (List (Row R))) : Prop :=
  ∀ id, rows.requestCaches.lookup id =
    (manager.requestCaches.lookup id).map RequestKVCache.readRows

section Reads

variable {manager next : KVCacheManager (Tensor R)} {rows : KVCacheManager (List (Row R))}

theorem reads_new : Reads (new : KVCacheManager (Tensor R)) new := fun _ => rfl

theorem Reads.insert (h : Reads manager rows) (id : RequestId) (slot : RequestKVCache (Tensor R)) :
    Reads ⟨manager.requestCaches.insert id slot⟩ ⟨rows.requestCaches.insert id slot.readRows⟩ := by
  intro other
  by_cases hother : other = id
  · subst hother
    rw [AList.lookup_insert, AList.lookup_insert, Option.map_some]
  · rw [AList.lookup_insert_ne hother, AList.lookup_insert_ne hother]
    exact h other

theorem Reads.registerRequest (h : Reads manager rows) (id : RequestId) :
    Reads (manager.registerRequest id) (rows.registerRequest id) :=
  h.insert id ⟨none, none, 0⟩

theorem Reads.unregisterRequest (h : Reads manager rows) (id : RequestId) :
    Reads (manager.unregisterRequest id) (rows.unregisterRequest id) := by
  intro other
  by_cases hother : other = id
  · subst hother
    rw [KVCacheManager.unregisterRequest, KVCacheManager.unregisterRequest, AList.lookup_erase,
      AList.lookup_erase]
    rfl
  · rw [KVCacheManager.unregisterRequest, KVCacheManager.unregisterRequest,
      AList.lookup_erase_ne hother, AList.lookup_erase_ne hother]
    exact h other

theorem rows_catOnto {existing : Option (Tensor R)} {new t : Tensor R}
    (h : catOnto (.shaped R) existing new = some t) :
    t.rows = (existing.map Tensor.rows).getD [] ++ new.rows := by
  cases existing with
  | none =>
      cases h
      rfl
  | some existing => exact Tensor.rows_append h

/-- **An append to tensors appends their rows.** -/
theorem Reads.append (h : Reads manager rows) {id : RequestId} {key value : Tensor R}
    (happend : manager.appendKv (.shaped R) id key value = .ok (next, true)) :
    ∃ next', rows.appendKv (.rows (Row R)) id key.rows value.rows = .ok (next', true) ∧
      Reads next next' := by
  obtain ⟨slot, k, v, keyTensor, valueTensor, n, hlookup, hkey, hvalue, hkeys, hvalues, hlen,
    rfl⟩ := appendKv_true happend
  cases hkey
  cases hvalue
  have hrows : rows.requestCaches.lookup id = some slot.readRows := by
    rw [h id, hlookup, Option.map_some]
  have hslot : slot.readRows.extend key.rows value.rows =
      RequestKVCache.readRows ⟨some keyTensor, some valueTensor, slot.numCachedTokens + n⟩ := by
    rw [RequestKVCache.extend, RequestKVCache.readRows, RequestKVCache.readRows, Option.map_some,
      Option.map_some, rows_catOnto hkeys, rows_catOnto hvalues, Tensor.length_rows hlen]
  refine ⟨_, appendKv_rows hrows key.rows value.rows, ?_⟩
  rw [hslot]
  exact h.insert id _

theorem Reads.getContextLen (h : Reads manager rows) (id : RequestId) :
    rows.getContextLen id = manager.getContextLen id := by
  rw [KVCacheManager.getContextLen, KVCacheManager.getContextLen, h id, Option.map_map]
  rfl

theorem Reads.getCachedKey (h : Reads manager rows) (id : RequestId) :
    rows.getCachedKey id = (manager.getCachedKey id).map Tensor.rows := by
  rw [KVCacheManager.getCachedKey, KVCacheManager.getCachedKey, h id]
  cases manager.requestCaches.lookup id with
  | none => rfl
  | some slot => rfl

theorem Reads.getCachedValue (h : Reads manager rows) (id : RequestId) :
    rows.getCachedValue id = (manager.getCachedValue id).map Tensor.rows := by
  rw [KVCacheManager.getCachedValue, KVCacheManager.getCachedValue, h id]
  cases manager.requestCaches.lookup id with
  | none => rfl
  | some slot => rfl

end Reads

end KVCacheManager

/-! ### The selection -/

open KVCacheManager in
/-- **The call on rows attends to the rows of what the call on tensors attends to.** -/
theorem fullKv_rows {χ : Type} {attn : LlamaAttention χ (Row R)} {x : List χ} {index : ℕ}
    {k v fullK fullV : Tensor R} {ctx : Loader.CacheContext R}
    {cache : Option (Loader.CacheContext R)} {rows : KVCacheManager (List (Row R))}
    (hk : attn.keys x index = k.rows) (hv : attn.values x = v.rows)
    (hreads : Reads ctx.manager rows)
    (hfull : Loader.fullKv (some ctx) k v x.length = .ok (cache, some (fullK, fullV))) :
    ∃ next next' view, cache = some { ctx with manager := next } ∧
      attn.fullKv x index rows ctx.requestId = .ok (next', some view) ∧ Reads next next' ∧
      view.keys = fullK.rows ∧ view.values = fullV.rows := by
  obtain ⟨⟨next, ok⟩, happend, hfull⟩ := Machine.bind_eq_ok.mp hfull
  cases ok with
  | false => cases hfull
  | true =>
      obtain ⟨next', happend', hnext⟩ := hreads.append happend
      simp only [LlamaAttention.fullKv, hk, hv, happend', Machine.ok_bind, if_true,
        hnext.getContextLen, hnext.getCachedKey, hnext.getCachedValue]
      simp only [if_true] at hfull
      split at hfull
      · rename_i hdecode
        split at hfull
        · rename_i cachedK cachedV hkey hvalue
          cases hfull
          refine ⟨next, next', ⟨fullK.rows, fullV.rows, true⟩, rfl, ?_, hnext, rfl, rfl⟩
          rw [if_pos hdecode, hkey, hvalue]
          rfl
        · cases hfull
      · rename_i hprefill
        cases hfull
        exact ⟨next, next', _, rfl, if_neg hprefill, hnext, rfl, rfl⟩

end Kyro
