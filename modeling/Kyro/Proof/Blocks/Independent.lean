import Kyro.Proof.Radix.Independent
import Kyro.Scheduler.BlockManager

/-!
# Runs without evictions

As long as no call of the block manager comes to an eviction, the clock and the order in which hash
maps iterate decide nothing: every table, every count, every free block and every answer is the same
whatever they are.
-/

namespace Kyro.BlockManager

open Machine RefPool

/-- Managers that differ in the stamps and orders of their caches at most. -/
structure Same (manager manager' : BlockManager) : Prop where
  blockSize : manager.blockSize = manager'.blockSize
  numGpuBlocks : manager.numGpuBlocks = manager'.numGpuBlocks
  freeGpuBlocks : manager.freeGpuBlocks = manager'.freeGpuBlocks
  blockTable : manager.blockTable = manager'.blockTable
  radixCache : manager.radixCache.Same manager'.radixCache
  promptTable : manager.promptTable = manager'.promptTable
  refCounts : manager.refCounts = manager'.refCounts

/-- A call that does not come to an eviction: the blocks that the prompt needs besides its hit are
free, and the cache has room for what a freed request leaves. -/
def Quiet (env : Env) (manager : BlockManager) : Call → Prop
  | .allocateWithPrefix _ promptTokens =>
    (promptTokens.length - (manager.radixCache.matchPrefix env promptTokens).2.2 +
      manager.blockSize - 1) / manager.blockSize ≤ manager.freeGpuBlocks.length
  | .allocate _ _ => True
  | .free requestId =>
    ∀ blocks ∈ manager.blockTable.lookup requestId,
      ∀ tokens ∈ manager.promptTable.lookup requestId,
        (manager.radixCache.attach env tokens blocks).numCachedBlocks ≤
          manager.radixCache.maxCapacity

instance (env : Env) (manager : BlockManager) : DecidablePred (manager.Quiet env)
  | .allocateWithPrefix _ _ => inferInstanceAs (Decidable (_ ≤ _))
  | .allocate _ _ => inferInstanceAs (Decidable True)
  | .free requestId =>
    inferInstanceAs (Decidable (∀ blocks ∈ manager.blockTable.lookup requestId,
      ∀ tokens ∈ manager.promptTable.lookup requestId, _ ≤ _))

variable {env : Env} {manager manager' : BlockManager}

theorem new_same (env env' : Env) (blockSize numGpuBlocks : ℕ) :
    (new env blockSize numGpuBlocks).Same (new env' blockSize numGpuBlocks) where
  blockSize := rfl
  numGpuBlocks := rfl
  freeGpuBlocks := rfl
  blockTable := rfl
  radixCache := RadixCache.new_same env env' _
  promptTable := rfl
  refCounts := rfl

theorem Same.pinPrefix (h : manager.Same manager') (env env' : Env) (promptTokens : List Token) :
    Paired (fun pinned pinned' => pinned.1.Same pinned'.1 ∧ pinned.2 = pinned'.2 ∧
        pinned.2 = (manager.radixCache.matchPrefix env promptTokens).2 ∧
        pinned.1.freeGpuBlocks = manager.freeGpuBlocks ∧
        pinned.1.blockSize = manager.blockSize)
      (manager.pinPrefix env promptTokens) (manager'.pinPrefix env' promptTokens) := by
  obtain ⟨hcache, hhit⟩ := h.radixCache.matchPrefix env env' promptTokens
  rw [BlockManager.pinPrefix, BlockManager.pinPrefix, ← hhit, ← h.refCounts]
  refine paired_refl.bind fun refCounts refCounts' _ heq => .ok ?_
  obtain rfl := heq
  exact ⟨⟨h.blockSize, h.numGpuBlocks, h.freeGpuBlocks, h.blockTable, hcache, h.promptTable, rfl⟩,
    rfl, rfl, rfl, rfl⟩

theorem makeRoom_of_le (env : Env) {needed : ℕ} (h : needed ≤ manager.freeGpuBlocks.length) :
    manager.makeRoom env needed = .ok manager := if_neg (Nat.not_lt.mpr h)

/-- Both allocations hand out the same blocks, or none, or panic. -/
theorem Same.allocateWithPrefix (h : manager.Same manager') (env env' : Env)
    (requestId : RequestId) {promptTokens : List Token}
    (hquiet : manager.Quiet env (.allocateWithPrefix requestId promptTokens)) :
    Paired (fun result result' => result.1.Same result'.1 ∧ result.2 = result'.2)
      (manager.allocateWithPrefix env requestId promptTokens)
      (manager'.allocateWithPrefix env' requestId promptTokens) := by
  rw [BlockManager.allocateWithPrefix, BlockManager.allocateWithPrefix]
  refine (h.pinPrefix env env' promptTokens).bind ?_
  rintro ⟨pinned, blocks, count⟩ ⟨pinned', blocks', count'⟩ - ⟨hsame, heq, hhit, hfree, hsize⟩
  obtain ⟨rfl, rfl⟩ := Prod.mk.inj heq
  dsimp only
  rw [← hsame.blockSize]
  refine paired_refl.bind fun needed needed' hneeded heq => ?_
  obtain rfl := heq
  have hroom : needed ≤ pinned.freeGpuBlocks.length := by
    rw [divCeil] at hneeded
    split at hneeded
    · cases hneeded
    · cases hneeded
      rw [hfree, hsize]
      rwa [Quiet, ← hhit] at hquiet
  rw [makeRoom_of_le env hroom, makeRoom_of_le env' (hsame.freeGpuBlocks ▸ hroom), ok_bind, ok_bind,
    if_neg (Nat.not_lt.mpr hroom), if_neg (Nat.not_lt.mpr (hsame.freeGpuBlocks ▸ hroom)),
    ← hsame.refCounts, ← hsame.freeGpuBlocks]
  refine paired_refl.bind fun taken taken' _ heq => .ok ?_
  obtain rfl := heq
  exact ⟨⟨hsame.blockSize, hsame.numGpuBlocks, rfl,
    congrArg (AList.insert requestId _) hsame.blockTable, hsame.radixCache,
    congrArg (AList.insert requestId promptTokens) hsame.promptTable, rfl⟩, rfl⟩

theorem Same.allocate (h : manager.Same manager') (requestId : RequestId) (numTokens : ℕ) :
    Paired (fun result result' => result.1.Same result'.1 ∧ result.2 = result'.2)
      (manager.allocate requestId numTokens) (manager'.allocate requestId numTokens) := by
  rw [BlockManager.allocate, BlockManager.allocate, ← h.blockSize]
  refine paired_refl.bind fun needed needed' _ heq => ?_
  obtain rfl := heq
  rw [← h.freeGpuBlocks, ← h.refCounts]
  split
  · exact .ok ⟨h, rfl⟩
  · refine paired_refl.bind fun taken taken' _ heq => .ok ?_
    obtain rfl := heq
    exact ⟨⟨rfl, h.numGpuBlocks, rfl, congrArg (AList.insert requestId _) h.blockTable,
      h.radixCache, h.promptTable, rfl⟩, rfl⟩

theorem Same.free (h : manager.Same manager') (env env' : Env) {requestId : RequestId}
    (hquiet : manager.Quiet env (.free requestId)) :
    Paired Same (manager.free env requestId) (manager'.free env' requestId) := by
  rw [Quiet] at hquiet
  rw [BlockManager.free, BlockManager.free, ← h.blockTable, ← h.promptTable]
  cases hblocks : manager.blockTable.lookup requestId with
  | none => exact .ok h
  | some blocks =>
      dsimp only
      rw [← h.refCounts]
      refine paired_refl.bind fun refCounts refCounts' _ heq => ?_
      obtain rfl := heq
      cases htokens : manager.promptTable.lookup requestId with
      | some tokens =>
          dsimp only
          refine paired_refl.bind fun pinned pinned' _ heq => ?_
          obtain rfl := heq
          have hroom := hquiet blocks hblocks tokens htokens
          have hattach := h.radixCache.attach env env' tokens blocks
          have hinsert : manager.radixCache.insert env tokens blocks =
              .ok (manager.radixCache.attach env tokens blocks) := if_neg (Nat.not_lt.mpr hroom)
          have hinsert' : manager'.radixCache.insert env' tokens blocks =
              .ok (manager'.radixCache.attach env' tokens blocks) := by
            refine if_neg (Nat.not_lt.mpr ?_)
            rw [← hattach.numCachedBlocks]
            exact hroom.trans_eq h.radixCache.maxCapacity
          rw [hinsert, hinsert', ok_bind, ok_bind]
          exact .ok ⟨h.blockSize, h.numGpuBlocks, h.freeGpuBlocks, rfl, hattach, rfl, rfl⟩
      | none =>
          dsimp only
          rw [← h.freeGpuBlocks]
          refine paired_refl.bind fun free free' _ heq => .ok ?_
          obtain rfl := heq
          exact ⟨h.blockSize, h.numGpuBlocks, rfl, rfl, h.radixCache, rfl, rfl⟩

theorem Same.exec (h : manager.Same manager') (env env' : Env) {call : Call}
    (hquiet : manager.Quiet env call) :
    Paired Same (manager.exec env call) (manager'.exec env' call) := by
  cases call with
  | allocateWithPrefix requestId promptTokens =>
      exact (h.allocateWithPrefix env env' requestId hquiet).map fun _ _ hsame => hsame.1
  | allocate requestId numTokens =>
      exact (h.allocate requestId numTokens).map fun _ _ hsame => hsame.1
  | free requestId => exact h.free env env' hquiet

/-- **Without evictions nothing depends on the clock and the hash maps.** Two block managers that get
the same calls, of which none comes to an eviction, panic alike or hold the same free blocks,
tables, counts and cached prompts, and answer the next allocation alike. -/
theorem history_independent (env env' : Env) {blockSize numGpuBlocks : ℕ} {calls : List Call}
    (hquiet : Along (BlockManager.exec env) (Quiet env) (new env blockSize numGpuBlocks) calls) :
    Paired (fun manager manager' => manager.Same manager' ∧ ∀ requestId promptTokens,
        manager.Quiet env (.allocateWithPrefix requestId promptTokens) →
          (manager.allocateWithPrefix env requestId promptTokens).map Prod.snd =
            (manager'.allocateWithPrefix env' requestId promptTokens).map Prod.snd)
      (history env blockSize numGpuBlocks calls) (history env' blockSize numGpuBlocks calls) := by
  have hstep : ∀ manager manager' call, Same manager manager' → Quiet env manager call →
      Paired Same (exec env manager call) (exec env' manager' call) :=
    fun _ _ _ h hquiet => h.exec env env' hquiet
  refine (run_paired hstep (new_same env env' blockSize numGpuBlocks) hquiet).imp ?_
  refine fun manager manager' h => ⟨h, fun requestId promptTokens hnext => ?_⟩
  exact (h.allocateWithPrefix env env' requestId hnext).map_eq fun _ _ hresult => hresult.2

/-- A clock that stands still, and maps that turn around with every key put in. -/
def standing : Env where
  now _ := 0
  place _ children := children.reverse
  place_perm _ _ := List.reverse_perm _

/-- Two prompts are freed and both are found again. -/
theorem history_independent_of_two :
    Paired (fun manager manager' => manager.Same manager' ∧ ∀ requestId promptTokens,
        manager.Quiet .counting (.allocateWithPrefix requestId promptTokens) →
          (manager.allocateWithPrefix .counting requestId promptTokens).map Prod.snd =
            (manager'.allocateWithPrefix standing requestId promptTokens).map Prod.snd)
      (history .counting 2 20 [.allocateWithPrefix 1 [5, 6, 7], .allocateWithPrefix 2 [8, 9],
        .free 1, .free 2, .allocateWithPrefix 3 [5, 6, 7, 8], .allocateWithPrefix 4 [8, 9]])
      (history standing 2 20 [.allocateWithPrefix 1 [5, 6, 7], .allocateWithPrefix 2 [8, 9],
        .free 1, .free 2, .allocateWithPrefix 3 [5, 6, 7, 8], .allocateWithPrefix 4 [8, 9]]) :=
  history_independent .counting standing (by decide +kernel)

end Kyro.BlockManager
