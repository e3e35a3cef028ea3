import Kyro.Proof.Blocks.Room

/-!
# What a failed allocation leaves

An allocation that gives up has pinned its hit, evicted once and dropped its pins again. Nothing but
the nodes that have left the cache is missing from the counts afterwards. The free list is another
matter: the eviction skips a block that is still pinned, and dropping a pin never frees a block.
Nothing is assumed here of the manager before the call.
-/

namespace Kyro

open RefPool

namespace BlockManager

/-- Every unreferenced block is on the free list. -/
def ListsUnreferenced (manager : BlockManager) : Prop :=
  ∀ block, manager.refCounts[block]? = some 0 → block ∈ manager.freeGpuBlocks

theorem listsUnreferenced_iff {manager : BlockManager} :
    manager.ListsUnreferenced ↔ ∀ block, block < manager.refCounts.length →
      refsOf manager.refCounts block = 0 → block ∈ manager.freeGpuBlocks := by
  refine forall_congr' fun block => ?_
  by_cases hlt : block < manager.refCounts.length
  · rw [getElem?_of_lt hlt, Option.some.injEq]
    exact ⟨fun h _ => h, fun h => h hlt⟩
  · simp [hlt]

/-- The steps of an allocation that gives up. -/
structure GaveUp (env : Env) (manager manager' : BlockManager) (promptTokens : List Token) :
    Prop where
  tables : manager'.blockTable = manager.blockTable ∧ manager'.promptTable = manager.promptTable
  evicted : ∃ removed, manager.evictable env promptTokens = removed.flatMap endBlocks ∧
    manager.radixCache.contents.Perm (removed ++ manager'.radixCache.contents)
  length_eq : manager'.refCounts.length = manager.refCounts.length
  refs : ∀ block, refsOf manager'.refCounts block +
    (manager.evictable env promptTokens).count block = refsOf manager.refCounts block
  mem_free : ∀ block, block ∈ manager'.freeGpuBlocks ↔ block ∈ manager.freeGpuBlocks ∨
    (block ∈ manager.evictable env promptTokens ∧
      refsOf manager.refCounts block + (manager.hit env promptTokens).1.count block =
        (manager.evictable env promptTokens).count block)

theorem gaveUp {env : Env} {manager manager' : BlockManager} {id : RequestId}
    {promptTokens : List Token}
    (h : manager.allocateWithPrefix env id promptTokens = .ok (manager', none)) :
    GaveUp env manager manager' promptTokens := by
  obtain ⟨⟨pinned, cachedBlocks, cachedLen⟩, hpin, hcall⟩ := Machine.bind_eq_ok.mp h
  obtain ⟨pins, hpins, heq⟩ := Machine.bind_eq_ok.mp hpin
  cases heq
  obtain ⟨needed, _, hcall⟩ := Machine.bind_eq_ok.mp hcall
  obtain ⟨roomy, hroom, hcall⟩ := Machine.bind_eq_ok.mp hcall
  dsimp only at hcall hroom
  split at hcall
  · rename_i hfew
    obtain ⟨unpinned, hunpin, heq⟩ := Machine.bind_eq_ok.mp hcall
    cases heq
    rw [makeRoom] at hroom
    split at hroom
    · obtain ⟨⟨cache, evicted⟩, hevict, hroom⟩ := Machine.bind_eq_ok.mp hroom
      obtain ⟨⟨released, free⟩, hrelease, heq⟩ := Machine.bind_eq_ok.mp hroom
      cases heq
      have hevictable : manager.evictable env promptTokens = evicted := by
        rw [evictable, show (manager.radixCache.matchPrefix env promptTokens).1.evictLru env =
          .ok (cache, evicted) from hevict]
      obtain ⟨removed, hremoved, hperm⟩ := RadixCache.evictLoop_contents hevict
      rw [RadixCache.matchPrefix_contents] at hperm
      -- the three loops went through, so their counts add up
      have hpin := orPanic_eq_ok.mp hpins
      obtain ⟨_, hsame, hpinLength, hpinRefs⟩ := RefPool.pin_spec (lt_of_pin hpin)
      cases hpin.symm.trans hsame
      have hrelease := orPanic_eq_ok.mp hrelease
      obtain ⟨_, freed, hsame, hreleaseLength, hreleaseRefs, _, hfreed⟩ :=
        @RefPool.release_spec _ manager.freeGpuBlocks _ (count_le_of_release hrelease)
      cases hrelease.symm.trans hsame
      have hunpin := orPanic_eq_ok.mp hunpin
      obtain ⟨_, hsame, hunpinLength, hunpinRefs⟩ := RefPool.unpin_spec (count_le_of_unpin hunpin)
      cases hunpin.symm.trans hsame
      refine ⟨⟨rfl, rfl⟩, ⟨removed, by rw [hevictable, hremoved]; rfl, hperm⟩,
        hunpinLength.trans (hreleaseLength.trans hpinLength), fun block => ?_, fun block => ?_⟩
      · have := hpinRefs block
        have := hreleaseRefs block
        have := hunpinRefs block
        rw [hevictable]
        dsimp only at *
        omega
      · rw [hevictable, List.mem_append, hfreed, hpinRefs]
        exact or_comm
    · cases hroom
      exact absurd hfew ‹_›
  · obtain ⟨_, _, heq⟩ := Machine.bind_eq_ok.mp hcall
    cases heq

/-- **What a failed allocation undoes.** Whatever the state before it, the tables are as they were
and the counts lack the evicted nodes only. Where every unreferenced block was on the free list,
that is so again exactly if no block of the hit loses its last reference to the eviction. -/
theorem rollback_releases_iff {env : Env} {manager manager' : BlockManager} {id : RequestId}
    {promptTokens : List Token} (hlisted : manager.ListsUnreferenced)
    (h : manager.allocateWithPrefix env id promptTokens = .ok (manager', none)) :
    (manager'.blockTable = manager.blockTable ∧ manager'.promptTable = manager.promptTable) ∧
    (∃ removed, manager.radixCache.contents.Perm (removed ++ manager'.radixCache.contents) ∧
      ∀ block, refsOf manager'.refCounts block + (removed.flatMap endBlocks).count block =
        refsOf manager.refCounts block) ∧
    (manager'.ListsUnreferenced ↔
      ∀ block ∈ (manager.hit env promptTokens).1,
        refsOf manager.refCounts block = (manager.evictable env promptTokens).count block →
          block ∈ manager.freeGpuBlocks) := by
  have hgave := gaveUp h
  obtain ⟨removed, hevicted, hperm⟩ := hgave.evicted
  refine ⟨hgave.tables, ⟨removed, hperm, hevicted ▸ hgave.refs⟩, ?_⟩
  rw [listsUnreferenced_iff]
  constructor
  · intro hall block hhit hlast
    have hrefs := hgave.refs block
    have hlt : block < manager'.refCounts.length := by
      obtain ⟨_, hpin, _⟩ := Machine.bind_eq_ok.mp h
      obtain ⟨_, hpins, _⟩ := Machine.bind_eq_ok.mp hpin
      rw [hgave.length_eq]
      exact lt_of_pin (orPanic_eq_ok.mp hpins) block hhit
    rcases (hgave.mem_free block).mp (hall block hlt (by omega)) with hfree | ⟨_, hpinned⟩
    · exact hfree
    · have := List.count_pos_iff.mpr hhit
      omega
  · intro hkept block hlt hzero
    have hrefs := hgave.refs block
    apply (hgave.mem_free block).mpr
    by_cases hhit : block ∈ (manager.hit env promptTokens).1
    · exact Or.inl (hkept block hhit (by omega))
    · have hpins := List.count_eq_zero.mpr hhit
      by_cases hevict : block ∈ manager.evictable env promptTokens
      · exact Or.inr ⟨hevict, by omega⟩
      · have hnone := List.count_eq_zero.mpr hevict
        exact Or.inl (listsUnreferenced_iff.mp hlisted block (hgave.length_eq ▸ hlt) (by omega))

instance (manager : BlockManager) : Decidable manager.ListsUnreferenced :=
  decidable_of_iff _ (@listsUnreferenced_iff manager).symm

/-- The prompt misses the cache: the evicted block is freed although the call gives up. -/
theorem rollback_releases_unmatched :
    ∃ manager manager', history .counting 1 3 [.allocateWithPrefix 1 [1], .free 1] = .ok manager ∧
      manager.allocateWithPrefix .counting 2 [2, 3, 4, 5] = .ok (manager', none) ∧
      manager'.ListsUnreferenced := by
  have hrun : ∃ manager, history .counting 1 3 [.allocateWithPrefix 1 [1], .free 1] =
      .ok manager ∧ manager.ListsUnreferenced ∧
      (manager.hit .counting [2, 3, 4, 5]).1 = [] ∧
      ∃ result, manager.allocateWithPrefix .counting 2 [2, 3, 4, 5] = .ok result ∧
        result.2 = none := by
    decide +kernel
  obtain ⟨manager, hrun, hlisted, hhit, ⟨manager', result⟩, hallocate, hnone⟩ := hrun
  dsimp only at hnone
  subst hnone
  refine ⟨manager, manager', hrun, hallocate, ?_⟩
  apply (rollback_releases_iff hlisted hallocate).2.2.mpr
  rw [hhit]
  simp

/-- The prompt matches the only node, which is then evicted: its block is pinned while the eviction
looks at it, and afterwards unreferenced and not free. -/
theorem rollback_strands_hit :
    ∃ manager, history .counting 1 3 [.allocateWithPrefix 1 [1], .free 1] = .ok manager ∧
      manager.ListsUnreferenced ∧
      ∃ result, manager.allocateWithPrefix .counting 2 [1, 2, 3, 4] = .ok result ∧
        result.2 = none ∧ ¬ result.1.ListsUnreferenced := by
  decide +kernel

end BlockManager
end Kyro
