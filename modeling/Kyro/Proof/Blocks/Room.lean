import Kyro.Proof.Blocks.Ownership
import Mathlib.Data.List.Dedup

/-!
# When an allocation succeeds

`allocate_with_prefix` evicts once, if it has to, and then looks at the free list. What one eviction
frees is known before the call: the blocks whose every reference, the pinned hit included, is held
by the nodes that leave the cache.
-/

namespace Kyro

open RefPool Tally

namespace BlockManager

/-- The blocks of the nodes one eviction would remove, after the prompt's hit has been stamped. -/
def evictable (env : Env) (manager : BlockManager) (promptTokens : List Token) : List BlockId :=
  match (manager.radixCache.matchPrefix env promptTokens).1.evictLru env with
  | .ok (_, evicted) => evicted
  | .error _ => []

/-- The blocks that eviction would free while the hit is pinned. -/
def releasable (env : Env) (manager : BlockManager) (promptTokens : List Token) : List BlockId :=
  (manager.evictable env promptTokens).dedup.filter fun block =>
    refsOf manager.refCounts block + (manager.hit env promptTokens).1.count block =
      (manager.evictable env promptTokens).count block

/-- The blocks the prompt needs beyond its hit are free, or one eviction makes them so. -/
def Fits (env : Env) (manager : BlockManager) (promptTokens : List Token) : Prop :=
  manager.needed env promptTokens ≤ manager.freeGpuBlocks.length ∨
    manager.needed env promptTokens ≤
      manager.freeGpuBlocks.length + (manager.releasable env promptTokens).length

instance (env : Env) (manager : BlockManager) (promptTokens : List Token) :
    Decidable (manager.Fits env promptTokens) := inferInstanceAs (Decidable (_ ∨ _))

section Prepared

variable {env : Env} {manager roomy : BlockManager} {promptTokens : List Token}
  {evicted freed : List BlockId}

theorem Prepared.evictable_eq (h : Prepared env manager promptTokens roomy evicted freed)
    (hfew : manager.freeGpuBlocks.length < manager.needed env promptTokens) :
    manager.evictable env promptTokens = evicted := by
  obtain ⟨cache, hevict⟩ := h.evicts hfew
  rw [evictable, hevict]

theorem Prepared.freed_length (h : Prepared env manager promptTokens roomy evicted freed)
    (hfew : manager.freeGpuBlocks.length < manager.needed env promptTokens) :
    freed.length = (manager.releasable env promptTokens).length := by
  refine ((List.perm_ext_iff_of_nodup h.freed_nodup
    ((List.nodup_dedup _).filter _)).mpr fun block => ?_).length_eq
  rw [h.mem_freed, List.mem_filter, List.mem_dedup, h.evictable_eq hfew,
    decide_eq_true_eq]

theorem Prepared.fits_iff (h : Prepared env manager promptTokens roomy evicted freed) :
    manager.needed env promptTokens ≤ roomy.freeGpuBlocks.length ↔
      manager.Fits env promptTokens := by
  rw [h.free, List.length_append]
  by_cases hfew : manager.freeGpuBlocks.length < manager.needed env promptTokens
  · rw [Fits, h.freed_length hfew]
    omega
  · rw [Fits]
    omega

end Prepared

/-- **An allocation succeeds exactly when its prompt fits.** -/
theorem allocateWithPrefix_isSome_iff (env : Env) {manager manager' : BlockManager}
    (h : manager.Owns []) {id : RequestId} {promptTokens : List Token}
    {result : Option (List BlockId × ℕ)}
    (hallocate : manager.allocateWithPrefix env id promptTokens = .ok (manager', result)) :
    result.isSome ↔ manager.Fits env promptTokens := by
  obtain ⟨roomy, evicted, freed, hprepared, ⟨hfew, _, heq, _⟩ | ⟨henough, _, heq, _⟩⟩ :=
    allocateWithPrefix_spec env h id promptTokens
  · rw [heq] at hallocate
    cases hallocate
    rw [← hprepared.fits_iff]
    simp only [Option.isSome_none, Bool.false_eq_true, false_iff]
    omega
  · rw [heq] at hallocate
    cases hallocate
    rw [← hprepared.fits_iff]
    simpa using henough

/-! ### Memory that eviction could free -/

/-- The blocks held by nothing but nodes of the cache that the prompt does not match. -/
def reclaimable (env : Env) (manager : BlockManager) (promptTokens : List Token) : List BlockId :=
  manager.radixCache.cachedBlocks.dedup.filter fun block =>
    tally manager.blockTable block = 0 ∧ block ∉ (manager.hit env promptTokens).1

/-- The blocks of the first leaf that an eviction removes. -/
def victim (env : Env) (manager : BlockManager) (promptTokens : List Token) : List BlockId :=
  (((manager.radixCache.matchPrefix env promptTokens).1.removeOldestLeaf env).2).getD []

theorem evictable_eq_victim (env : Env) {manager : BlockManager} (h : manager.Owns [])
    (promptTokens : List Token)
    (hwithin : manager.radixCache.numCachedBlocks ≤ manager.radixCache.maxCapacity) :
    manager.evictable env promptTokens = manager.victim env promptTokens := by
  obtain ⟨cache, hevict⟩ := RadixCache.evictLru_of_within env
    (RadixCache.matchPrefix_counted env manager.radixCache promptTokens h.counted) hwithin
  rw [evictable, hevict]
  rfl

/-- **When an allocation uses the memory there is.** With enough memory free or reclaimable a call
succeeds exactly where its single eviction frees enough, and in a cache within its capacity this
eviction is the removal of one leaf. -/
theorem succeeds_on_reclaimable_iff (env : Env) {blockSize : ℕ} (hsize : 0 < blockSize)
    (numGpuBlocks : ℕ) (calls : List Call) :
    ∃ manager, history env blockSize numGpuBlocks calls = .ok manager ∧
      ∀ id promptTokens,
        (∃ manager' result,
          manager.allocateWithPrefix env id promptTokens = .ok (manager', result) ∧
          ((manager.needed env promptTokens ≤
              manager.freeGpuBlocks.length + (manager.reclaimable env promptTokens).length →
            result.isSome) ↔
          (manager.freeGpuBlocks.length + (manager.reclaimable env promptTokens).length <
              manager.needed env promptTokens ∨
            manager.Fits env promptTokens))) ∧
        (manager.radixCache.numCachedBlocks ≤ manager.radixCache.maxCapacity →
          manager.evictable env promptTokens = manager.victim env promptTokens) := by
  obtain ⟨manager, hrun, howns⟩ := history_owns env hsize numGpuBlocks calls
  refine ⟨manager, hrun, fun id promptTokens => ⟨?_, evictable_eq_victim env howns promptTokens⟩⟩
  have hcall : ∃ manager' result,
      manager.allocateWithPrefix env id promptTokens = .ok (manager', result) := by
    obtain ⟨_, _, _, _, ⟨_, _, heq, _⟩ | ⟨_, _, heq, _⟩⟩ :=
      allocateWithPrefix_spec env howns id promptTokens
    · exact ⟨_, _, heq⟩
    · exact ⟨_, _, heq⟩
  obtain ⟨manager', result, hallocate⟩ := hcall
  refine ⟨manager', result, hallocate, ?_⟩
  rw [allocateWithPrefix_isSome_iff env howns hallocate, ← Nat.not_le]
  exact imp_iff_not_or

/-- A prompt that needs the one leaf of the cache gets it. -/
theorem succeeds_on_reclaimable_one_leaf :
    ∃ manager manager' result,
      history .counting 4 6 [.allocateWithPrefix 1 [7], .free 1] = .ok manager ∧
      manager.allocateWithPrefix .counting 2 (List.replicate 24 5) = .ok (manager', result) ∧
      result.isSome := by
  obtain ⟨manager, hrun, hall⟩ := @succeeds_on_reclaimable_iff .counting 4 (by decide) 6
    [.allocateWithPrefix 1 [7], .free 1]
  have hstate : ∃ manager,
      history .counting 4 6 [.allocateWithPrefix 1 [7], .free 1] = .ok manager ∧
      manager.needed .counting (List.replicate 24 5) ≤ manager.freeGpuBlocks.length +
        (manager.reclaimable .counting (List.replicate 24 5)).length ∧
      manager.Fits .counting (List.replicate 24 5) := by
    decide +kernel
  obtain ⟨same, hsame, hle, hfits⟩ := hstate
  rw [hrun] at hsame
  cases hsame
  obtain ⟨manager', result, hallocate, hiff⟩ := (hall 2 (List.replicate 24 5)).1
  exact ⟨manager, manager', result, hrun, hallocate, hiff.mpr (Or.inr hfits) hle⟩

/-- Two leaves hold the two blocks that are missing. The call evicts one of them and gives up. -/
theorem gives_up_on_two_leaves :
    ∃ manager, history .counting 4 6 [.allocateWithPrefix 1 [7], .free 1,
        .allocateWithPrefix 2 [9], .free 2] = .ok manager ∧
      manager.needed .counting (List.replicate 24 5) = 6 ∧
      manager.freeGpuBlocks.length = 4 ∧
      (manager.reclaimable .counting (List.replicate 24 5)).length = 2 ∧
      ∃ result, manager.allocateWithPrefix .counting 3 (List.replicate 24 5) = .ok result ∧
        result.2 = none := by
  decide +kernel

end BlockManager
end Kyro
