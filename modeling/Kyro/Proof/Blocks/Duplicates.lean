import Kyro.Proof.Blocks.Ownership
import Mathlib.Data.List.Dedup

/-!
# Where a block is listed twice

A request whose prompt extends a cached one is given the cached blocks with its own, and when it is
freed the whole list goes to the node that is added for its last tokens. The blocks of the prefix
are then in two nodes of one path, and the next match of that path lists them twice. As long as what
is deposited is not in the cache already, no table, no match and no two nodes repeat a block.
-/

namespace Kyro

open RefPool Tally

namespace BlockManager

/-- No table, no match and no two nodes of the cache list a block twice, so the counter of the cache
is the number of different blocks in it. -/
structure NoRepeats (env : Env) (manager : BlockManager) : Prop where
  tables : ∀ id blocks, manager.blockTable.lookup id = some blocks → blocks.Nodup
  matches_nodup : ∀ tokens, (manager.radixCache.matchPrefix env tokens).2.1.Nodup
  cache : manager.radixCache.cachedBlocks.Nodup
  counter : manager.radixCache.numCachedBlocks = manager.radixCache.cachedBlocks.dedup.length

/-- A `free` that adds a node adds blocks that are in no other. -/
def DepositsUncached (manager : BlockManager) : Call → Prop
  | .free id => ∀ blocks ∈ manager.blockTable.lookup id, ∀ tokens ∈ manager.promptTable.lookup id,
      (RadixNode.attachPath manager.radixCache.root tokens).isSome →
        ∀ block ∈ blocks, block ∉ manager.radixCache.cachedBlocks
  | _ => True

instance (manager : BlockManager) : DecidablePred manager.DepositsUncached
  | .allocateWithPrefix _ _ => inferInstanceAs (Decidable True)
  | .allocate _ _ => inferInstanceAs (Decidable True)
  | .free id => inferInstanceAs (Decidable (∀ blocks ∈ manager.blockTable.lookup id,
      ∀ tokens ∈ manager.promptTable.lookup id,
        (RadixNode.attachPath manager.radixCache.root tokens).isSome →
          ∀ block ∈ blocks, block ∉ manager.radixCache.cachedBlocks))

/-- What is kept from call to call. -/
structure Distinct (manager : BlockManager) : Prop where
  owns : manager.Owns []
  tables : ∀ id blocks, manager.blockTable.lookup id = some blocks → blocks.Nodup
  cache : manager.radixCache.cachedBlocks.Nodup

theorem hit_nodup (env : Env) {manager : BlockManager}
    (h : manager.radixCache.cachedBlocks.Nodup) (tokens : List Token) :
    (manager.radixCache.matchPrefix env tokens).2.1.Nodup := by
  rw [List.nodup_iff_count_le_one] at h ⊢
  intro block
  exact (manager.radixCache.count_matchPrefix_le env tokens block).trans (h block)

theorem Distinct.noRepeats (env : Env) {manager : BlockManager} (h : manager.Distinct) :
    manager.NoRepeats env where
  tables := h.tables
  matches_nodup := hit_nodup env h.cache
  cache := h.cache
  counter := by
    rw [h.cache.dedup]
    exact h.owns.counted

theorem new_distinct (env : Env) {blockSize : ℕ} (hsize : 0 < blockSize) (numGpuBlocks : ℕ) :
    (new env blockSize numGpuBlocks).Distinct where
  owns := new_owns env hsize numGpuBlocks
  tables id blocks hlookup := by simp [new] at hlookup
  cache := List.nodup_nil

/-- What an eviction leaves in the cache has no more repeats than before. -/
theorem nodup_of_removed {cache cache' : RadixCache} {removed : List (List PathStep)}
    (hperm : cache.contents.Perm (removed ++ cache'.contents)) (h : cache.cachedBlocks.Nodup) :
    cache'.cachedBlocks.Nodup := by
  rw [List.nodup_iff_count_le_one] at h ⊢
  intro block
  have := h block
  have := RadixCache.count_of_removed hperm block
  omega

/-- A table that is written without repeats among tables without repeats. -/
theorem tables_insert {table : Table RequestId BlockId} {id : RequestId} {blocks : List BlockId}
    (h : ∀ other bs, table.lookup other = some bs → bs.Nodup) (hblocks : blocks.Nodup) :
    ∀ other bs, (table.insert id blocks).lookup other = some bs → bs.Nodup := by
  intro other bs hlookup
  by_cases hother : other = id
  · subst other
    rw [AList.lookup_insert] at hlookup
    cases hlookup
    exact hblocks
  · rw [AList.lookup_insert_ne hother] at hlookup
    exact h other bs hlookup

/-- The hit and the fresh blocks of an allocation are different ones. -/
theorem allocateWithPrefix_distinct (env : Env) {manager : BlockManager} (h : manager.Distinct)
    (id : RequestId) (promptTokens : List Token) :
    ∃ manager' result, manager.allocateWithPrefix env id promptTokens = .ok (manager', result) ∧
      manager'.Distinct := by
  obtain ⟨roomy, evicted, freed, hprepared, hcall⟩ :=
    allocateWithPrefix_spec env h.owns id promptTokens
  obtain ⟨removed, _, hperm⟩ := hprepared.contents
  have hcache := nodup_of_removed hperm h.cache
  rcases hcall with ⟨_, refCounts, heq, _, howns⟩ | ⟨_, manager', heq, hmanager, _, howns⟩
  · refine ⟨_, none, heq, howns, ?_, hcache⟩
    change ∀ other bs, roomy.blockTable.lookup other = some bs → bs.Nodup
    rw [hprepared.blockTable]
    exact h.tables
  · obtain ⟨fresh, hblocks, hfresh, hunshared⟩ := fresh_unshared env h.owns heq
    refine ⟨manager', _, heq, howns, ?_, ?_⟩
    · rw [hmanager]
      apply tables_insert h.tables
      rw [hblocks]
      refine List.nodup_append.mpr ⟨hit_nodup env h.cache promptTokens, hfresh, ?_⟩
      rintro block hhit _ hmem rfl
      exact (hunshared block hmem).1 hhit
    · rw [hmanager]
      exact hcache

theorem free_distinct (env : Env) {manager : BlockManager} (h : manager.Distinct) {id : RequestId}
    (hdeposit : manager.DepositsUncached (.free id)) :
    ∃ manager', manager.free env id = .ok manager' ∧ manager'.Distinct := by
  have herase : ∀ other bs, (manager.blockTable.erase id).lookup other = some bs → bs.Nodup :=
    fun other bs hlookup => h.tables other bs (lookup_erase_some hlookup).2
  cases hblocks : manager.blockTable.lookup id with
  | none => exact ⟨manager, free_unknown env hblocks, h⟩
  | some blocks =>
      cases htokens : manager.promptTable.lookup id with
      | none =>
          obtain ⟨manager', hfree, _, htable, _, hcache, howns⟩ :=
            free_untraced env h.owns hblocks htokens
          refine ⟨manager', hfree, howns, ?_, by rw [hcache]; exact h.cache⟩
          rw [htable]
          exact herase
      | some tokens =>
          obtain ⟨manager', removed, hfree, hmanager, _, hperm, _, _, howns⟩ :=
            free_traced env h.owns hblocks htokens
          refine ⟨manager', hfree, howns, by rw [hmanager]; exact herase, ?_⟩
          rw [List.nodup_iff_count_le_one]
          intro block
          have hcount := (hperm.flatMap_right endBlocks).count_eq block
          rw [List.flatMap_append, List.flatMap_append, List.count_append, List.count_append,
            RadixCache.flatMap_insertedPaths] at hcount
          have hcached := List.nodup_iff_count_le_one.mp h.cache block
          rw [RadixCache.cachedBlocks_eq] at hcached ⊢
          split at hcount
          · rename_i hattach
            have hown := List.nodup_iff_count_le_one.mp (h.tables id blocks hblocks) block
            by_cases hmem : block ∈ blocks
            · have hnone := List.count_eq_zero.mpr
                (hdeposit blocks hblocks tokens htokens hattach block hmem)
              rw [RadixCache.cachedBlocks_eq] at hnone
              omega
            · have hnone := List.count_eq_zero.mpr hmem
              omega
          · rw [List.count_nil] at hcount
            omega

theorem exec_distinct (env : Env) {manager : BlockManager} (h : manager.Distinct) {call : Call}
    (hdeposit : manager.DepositsUncached call) :
    ∃ manager', manager.exec env call = .ok manager' ∧ manager'.Distinct := by
  cases call with
  | allocateWithPrefix id promptTokens =>
      obtain ⟨manager', result, heq, hdistinct⟩ :=
        allocateWithPrefix_distinct env h id promptTokens
      exact ⟨manager', by rw [exec, heq]; rfl, hdistinct⟩
  | allocate id numTokens =>
      obtain ⟨manager', result, heq, howns, hcache, hblocks, hnone⟩ :=
        allocate_spec h.owns id numTokens
      refine ⟨manager', by rw [exec, heq]; rfl, howns, ?_, by rw [hcache]; exact h.cache⟩
      cases result with
      | none =>
          rw [hnone rfl]
          exact h.tables
      | some blocks =>
          obtain ⟨hstarts, htable⟩ := hblocks blocks rfl
          rw [htable]
          exact tables_insert h.tables (h.owns.ledger.nodup.sublist hstarts.sublist)
  | free id => exact free_distinct env h hdeposit

/-- **No block is repeated, as long as no deposit repeats one.** Over every sequence of calls each
of whose `free`s adds a node for uncached blocks only, no request's table, no match and no two
nodes of the cache list a block twice. -/
theorem no_repeats (env : Env) {blockSize : ℕ} (hsize : 0 < blockSize) (numGpuBlocks : ℕ)
    {calls : List Call}
    (hcalls : Machine.Along (exec env) DepositsUncached (new env blockSize numGpuBlocks) calls) :
    ∃ manager, history env blockSize numGpuBlocks calls = .ok manager ∧
      manager.NoRepeats env := by
  obtain ⟨manager, hrun, hdistinct⟩ := Machine.run_progress
    (fun _ call h hdeposit => exec_distinct env h hdeposit) (new_distinct env hsize numGpuBlocks)
    hcalls
  exact ⟨manager, hrun, hdistinct.noRepeats env⟩

/-- Two requests with the same prompt, one after the other. -/
theorem no_repeats_same_prompt :
    ∃ manager, history .counting 4 9 [.allocateWithPrefix 1 [1, 2, 3, 4], .free 1,
        .allocateWithPrefix 2 [1, 2, 3, 4], .free 2] = .ok manager ∧
      manager.NoRepeats .counting :=
  no_repeats .counting (by decide) 9 (by decide +kernel)

/-- The prompt of the second request extends that of the first. Freed, it leaves the block of the
first in both nodes of its path, and the third request is given that block twice. -/
theorem extended_prompt_repeats :
    ∃ manager, history .counting 4 9 [.allocateWithPrefix 1 [1, 2, 3, 4], .free 1,
        .allocateWithPrefix 2 [1, 2, 3, 4, 5, 6, 7, 8], .free 2,
        .allocateWithPrefix 3 [1, 2, 3, 4, 5, 6, 7, 8]] = .ok manager ∧
      manager.blockTable.lookup 3 = some [8, 8, 7] ∧
      (manager.radixCache.matchPrefix .counting [1, 2, 3, 4, 5, 6, 7, 8]).2.1 = [8, 8, 7] ∧
      manager.radixCache.numCachedBlocks = 3 ∧
      manager.radixCache.cachedBlocks.dedup.length = 2 := by
  decide +kernel

end BlockManager
end Kyro
