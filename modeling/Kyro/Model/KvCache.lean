import Kyro.Scheduler.Basic
import Kyro.Lib.Run
import Kyro.Lib.Tensor
import Mathlib.Data.List.AList

/-!
# The key/value cache

`src/model/kv_cache.rs`. Every request that the model runs has a slot of its own, with the keys and
values of its tokens concatenated along the sequence dimension. The tensor library is a parameter:
the three operations `append_kv` uses of it, each of which can fail.
-/

namespace Kyro

structure TensorOps (τ : Type) where
  /-- `to_dtype(DType::F16)` -/
  toF16 : τ → Option τ
  /-- `Tensor::cat(&[a, b], 1)` -/
  cat : τ → τ → Option τ
  /-- `dim(1)` -/
  seqLen : τ → Option ℕ

/-- Tensors as lists of rows along the sequence dimension, all of one shape. -/
def TensorOps.rows (α : Type) : TensorOps (List α) where
  toF16 := some
  cat a b := some (a ++ b)
  seqLen a := some a.length

/-- Tensors with their shapes. -/
def TensorOps.shaped (α : Type) : TensorOps (Tensor α) where
  toF16 := some
  cat a b := a.append b 1
  seqLen a := a.dim 1

structure RequestKVCache (τ : Type) where
  keyTensor : Option τ
  valueTensor : Option τ
  numCachedTokens : ℕ
  deriving DecidableEq

structure KVCacheManager (τ : Type) where
  requestCaches : AList fun _ : RequestId => RequestKVCache τ

namespace KVCacheManager

variable {τ : Type}

def new : KVCacheManager τ where
  requestCaches := ∅

def registerRequest (manager : KVCacheManager τ) (requestId : RequestId) : KVCacheManager τ where
  requestCaches := manager.requestCaches.insert requestId ⟨none, none, 0⟩

def unregisterRequest (manager : KVCacheManager τ) (requestId : RequestId) :
    KVCacheManager τ where
  requestCaches := manager.requestCaches.erase requestId

/-- The tensor with the new one after it; `existing` has been taken out of the cache. -/
def catOnto (ops : TensorOps τ) (existing : Option τ) (new : τ) : Option τ :=
  match existing with
  | some existing => ops.cat existing new
  | none => some new

/-- Append the keys and values of new tokens. The flag says whether the call returned `Ok`: an error
of the tensor library leaves behind what was done before it. -/
def appendKv (ops : TensorOps τ) (manager : KVCacheManager τ) (requestId : RequestId)
    (key value : τ) : Except Fault (KVCacheManager τ × Bool) := do
  let cache ← orPanic (.expect "request must be registered")
    (manager.requestCaches.lookup requestId)
  let store (cache : RequestKVCache τ) : KVCacheManager τ :=
    ⟨manager.requestCaches.insert requestId cache⟩
  match ops.toF16 key, ops.toF16 value with
  | some k, some v =>
    match catOnto ops cache.keyTensor k with
    | none => return (store { cache with keyTensor := none }, false)
    | some keyTensor =>
      match catOnto ops cache.valueTensor v with
      | none =>
        return (store { cache with keyTensor := some keyTensor, valueTensor := none }, false)
      | some valueTensor =>
        let cache := { cache with keyTensor := some keyTensor, valueTensor := some valueTensor }
        match ops.seqLen key with
        | none => return (store cache, false)
        | some n => return (store { cache with numCachedTokens := cache.numCachedTokens + n }, true)
  | _, _ => return (manager, false)

/-- Whether a request has a slot. -/
def Registered (manager : KVCacheManager τ) (requestId : RequestId) : Prop :=
  requestId ∈ manager.requestCaches

instance (manager : KVCacheManager τ) (requestId : RequestId) :
    Decidable (manager.Registered requestId) :=
  inferInstanceAs (Decidable (requestId ∈ manager.requestCaches))

@[simp] theorem not_registered_new (requestId : RequestId) :
    ¬ (new : KVCacheManager τ).Registered requestId :=
  AList.notMem_empty requestId

@[simp] theorem registered_registerRequest (manager : KVCacheManager τ)
    (id other : RequestId) :
    (manager.registerRequest id).Registered other ↔ other = id ∨ manager.Registered other :=
  AList.mem_insert _

@[simp] theorem registered_unregisterRequest (manager : KVCacheManager τ)
    (id other : RequestId) :
    (manager.unregisterRequest id).Registered other ↔ other ≠ id ∧ manager.Registered other :=
  AList.mem_erase

theorem orPanic_lookup_ok {fault : Fault} {manager : KVCacheManager τ} {id : RequestId}
    {cache : RequestKVCache τ} (h : orPanic fault (manager.requestCaches.lookup id) = .ok cache) :
    manager.Registered id := by
  cases hlookup : manager.requestCaches.lookup id with
  | none =>
      rw [hlookup] at h
      cases h
  | some found => exact AList.lookup_isSome.mp (by rw [hlookup]; rfl)

/-- An append needs the slot, and neither opens nor closes one. -/
theorem registered_appendKv {ops : TensorOps τ} {manager : KVCacheManager τ} {id : RequestId}
    {key value : τ} {result : KVCacheManager τ × Bool}
    (h : manager.appendKv ops id key value = .ok result) :
    manager.Registered id ∧ ∀ other, result.1.Registered other ↔ manager.Registered other := by
  obtain ⟨cache, hcache, h⟩ := Machine.bind_eq_ok.mp h
  have hid := orPanic_lookup_ok hcache
  have hstore : ∀ cache other,
      Registered ⟨manager.requestCaches.insert id cache⟩ other ↔ manager.Registered other := by
    intro cache other
    rw [Registered, AList.mem_insert]
    exact ⟨fun hor => hor.elim (fun heq => heq ▸ hid) (fun hold => hold), Or.inr⟩
  refine ⟨hid, fun other => ?_⟩
  dsimp only at h
  split at h
  · split at h
    · cases h
      exact hstore _ other
    · split at h
      · cases h
        exact hstore _ other
      · split at h
        · cases h
          exact hstore _ other
        · cases h
          exact hstore _ other
  · cases h
    exact Iff.rfl

/-- An append to a slot that is there does not panic. -/
theorem appendKv_ok (ops : TensorOps τ) {manager : KVCacheManager τ} {id : RequestId}
    (h : manager.Registered id) (key value : τ) :
    ∃ result, manager.appendKv ops id key value = .ok result := by
  obtain ⟨cache, hlookup⟩ := Option.isSome_iff_exists.mp (AList.lookup_isSome.mpr h)
  rw [appendKv, hlookup, orPanic_some, Machine.ok_bind]
  dsimp only
  split
  · split
    · exact ⟨_, rfl⟩
    · split
      · exact ⟨_, rfl⟩
      · split
        · exact ⟨_, rfl⟩
        · exact ⟨_, rfl⟩
  · exact ⟨_, rfl⟩

/-- An append that the tensor library accepts. -/
theorem appendKv_accepted {ops : TensorOps τ} {manager : KVCacheManager τ} {id : RequestId}
    {slot : RequestKVCache τ} {key value k v keyTensor valueTensor : τ} {n : ℕ}
    (hlookup : manager.requestCaches.lookup id = some slot) (hkey : ops.toF16 key = some k)
    (hvalue : ops.toF16 value = some v) (hkeys : catOnto ops slot.keyTensor k = some keyTensor)
    (hvalues : catOnto ops slot.valueTensor v = some valueTensor)
    (hlen : ops.seqLen key = some n) :
    manager.appendKv ops id key value = .ok (⟨manager.requestCaches.insert id
      ⟨some keyTensor, some valueTensor, slot.numCachedTokens + n⟩⟩, true) := by
  rw [appendKv, hlookup, orPanic_some, Machine.ok_bind]
  dsimp only
  rw [hkey, hvalue]
  dsimp only
  rw [hkeys, hvalues, hlen]
  rfl

/-- What a call that returned `Ok` has done. -/
theorem appendKv_true {ops : TensorOps τ} {manager manager' : KVCacheManager τ} {id : RequestId}
    {key value : τ} (h : manager.appendKv ops id key value = .ok (manager', true)) :
    ∃ slot k v keyTensor valueTensor n, manager.requestCaches.lookup id = some slot ∧
      ops.toF16 key = some k ∧ ops.toF16 value = some v ∧
      catOnto ops slot.keyTensor k = some keyTensor ∧
      catOnto ops slot.valueTensor v = some valueTensor ∧ ops.seqLen key = some n ∧
      manager' = ⟨manager.requestCaches.insert id
        ⟨some keyTensor, some valueTensor, slot.numCachedTokens + n⟩⟩ := by
  obtain ⟨slot, hlookup, h⟩ := Machine.bind_eq_ok.mp h
  dsimp only at h
  split at h
  · rename_i k v hkey hvalue
    split at h
    · cases h
    · rename_i keyTensor hkeys
      split at h
      · cases h
      · rename_i valueTensor hvalues
        split at h
        · cases h
        · rename_i n hlen
          cases h
          exact ⟨slot, k, v, keyTensor, valueTensor, n, orPanic_eq_ok.mp hlookup, hkey, hvalue,
            hkeys, hvalues, hlen, rfl⟩
  · cases h

/-- The calls of `append_kv` in one pass through the model, up to the first error. -/
def appendAll (ops : TensorOps τ) (manager : KVCacheManager τ) (requestId : RequestId) :
    List (τ × τ) → Except Fault (KVCacheManager τ × Bool)
  | [] => .ok (manager, true)
  | (key, value) :: rest => do
    let (manager, ok) ← manager.appendKv ops requestId key value
    if ok then appendAll ops manager requestId rest else return (manager, false)

theorem registered_appendAll {ops : TensorOps τ} {manager : KVCacheManager τ} {id : RequestId}
    {appends : List (τ × τ)} {result : KVCacheManager τ × Bool}
    (h : manager.appendAll ops id appends = .ok result) (other : RequestId) :
    result.1.Registered other ↔ manager.Registered other := by
  induction appends generalizing manager with
  | nil =>
      cases h
      exact Iff.rfl
  | cons append rest ih =>
      obtain ⟨⟨next, ok⟩, happend, h⟩ := Machine.bind_eq_ok.mp h
      have hnext := (registered_appendKv happend).2 other
      cases ok with
      | true => exact (ih h).trans hnext
      | false =>
          cases h
          exact hnext

/-! ### Reading the cache -/

def getContextLen (manager : KVCacheManager τ) (requestId : RequestId) : ℕ :=
  ((manager.requestCaches.lookup requestId).map (·.numCachedTokens)).getD 0

def getCachedKey (manager : KVCacheManager τ) (requestId : RequestId) : Option τ :=
  (manager.requestCaches.lookup requestId).bind (·.keyTensor)

def getCachedValue (manager : KVCacheManager τ) (requestId : RequestId) : Option τ :=
  (manager.requestCaches.lookup requestId).bind (·.valueTensor)

end KVCacheManager

/-! ### Caches of rows -/

/-- The slot after an append. -/
def RequestKVCache.extend {α : Type} (cache : RequestKVCache (List α)) (key value : List α) :
    RequestKVCache (List α) where
  keyTensor := some (cache.keyTensor.getD [] ++ key)
  valueTensor := some (cache.valueTensor.getD [] ++ value)
  numCachedTokens := cache.numCachedTokens + key.length

theorem KVCacheManager.appendKv_rows {α : Type} {manager : KVCacheManager (List α)}
    {id : RequestId} {cache : RequestKVCache (List α)}
    (h : manager.requestCaches.lookup id = some cache) (key value : List α) :
    manager.appendKv (.rows α) id key value =
      .ok (⟨manager.requestCaches.insert id (cache.extend key value)⟩, true) := by
  have hcat : ∀ existing new, catOnto (.rows α) existing new = some (existing.getD [] ++ new) := by
    intro existing new
    cases existing with
    | none => rfl
    | some tensor => rfl
  exact appendKv_accepted h rfl rfl (hcat cache.keyTensor key) (hcat cache.valueTensor value) rfl

end Kyro
