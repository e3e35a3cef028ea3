import Kyro.Proof.Radix.Eviction

/-!
# The victim of an eviction

`find_oldest_leaf` compares the leaves among the children of one node, the first one with such a
child on the way that always goes to the child iterated first. Its victim is the least recently used
leaf of the tree exactly when a least recently used leaf hangs under that node.
-/

namespace Kyro

open KeyedTree

namespace RadixNode

/-- A leaf such that none of the tree was accessed before it. -/
structure OldestLeaf (t : RadixNode) (leaf : List (Token × RadixEntry)) : Prop where
  isLeaf : t.IsLeaf leaf
  oldest : ∀ other, t.IsLeaf other → lastAccess leaf ≤ lastAccess other

/-- A least recently used leaf hangs under the node that the search scans. -/
def OldestScanned (t : RadixNode) : Prop :=
  ∃ leaf, t.OldestLeaf leaf ∧ leaf.dropLast.map Prod.fst = t.searchPath

instance OldestLeaf.decidable (t : RadixNode) (leaf : List (Token × RadixEntry)) :
    Decidable (t.OldestLeaf leaf) :=
  decidable_of_iff
    (t.IsLeaf leaf ∧ ∀ other ∈ t.paths, t.IsLeaf other → lastAccess leaf ≤ lastAccess other)
    ⟨fun h => ⟨h.1, fun other hother => h.2 other hother.mem hother⟩,
      fun h => ⟨h.isLeaf, fun other _ => h.oldest other⟩⟩

instance OldestScanned.decidable (t : RadixNode) : Decidable t.OldestScanned :=
  decidable_of_iff
    (∃ leaf ∈ t.paths, t.OldestLeaf leaf ∧ leaf.dropLast.map Prod.fst = t.searchPath)
    ⟨fun ⟨leaf, _, h⟩ => ⟨leaf, h⟩, fun ⟨leaf, h⟩ => ⟨leaf, h.1.isLeaf.mem, h⟩⟩

end RadixNode

namespace RadixCache

open RadixNode

/-- The caches that occur in a run, between calls and within one. -/
inductive Reached (env : Env) (capacity : ℕ) : RadixCache → Prop where
  | new : Reached env capacity (new env capacity)
  | matchPrefix {cache : RadixCache} (tokens : List Token) :
      Reached env capacity cache → Reached env capacity (cache.matchPrefix env tokens).1
  | attach {cache : RadixCache} (tokens : List Token) (blockIds : List BlockId) :
      Reached env capacity cache → Reached env capacity (cache.attach env tokens blockIds)
  | removeOldestLeaf {cache : RadixCache} :
      Reached env capacity cache → Reached env capacity (cache.removeOldestLeaf env).1
  | discount {cache : RadixCache} (evicted : List BlockId) :
      Reached env capacity cache → Reached env capacity (cache.discount evicted)

section Reached

variable {env : Env} {capacity : ℕ} {cache cache' : RadixCache}

theorem Reached.evictLoop (h : Reached env capacity cache) {fuel : ℕ}
    {blocksToFree evicted : List BlockId}
    (hevict : cache.evictLoop env fuel blocksToFree = .ok (cache', evicted)) :
    Reached env capacity cache' := by
  induction fuel generalizing cache blocksToFree with
  | zero =>
      cases hevict
      exact h
  | succ fuel ih =>
      have hremoved := h.removeOldestLeaf
      rw [RadixCache.evictLoop] at hevict
      split at hevict
      · rename_i heq
        rw [heq] at hremoved
        cases hevict
        exact hremoved
      · rename_i heq
        rw [heq] at hremoved
        obtain ⟨_, hsub, hevict⟩ := Machine.bind_eq_ok.mp hevict
        obtain ⟨_, rfl⟩ := checkedSub_eq_ok hsub
        split at hevict
        · cases hevict
          exact hremoved.discount _
        · exact ih (hremoved.discount _) hevict

theorem Reached.exec (h : Reached env capacity cache) {call : Call}
    (hexec : cache.exec env call = .ok cache') : Reached env capacity cache' := by
  cases call with
  | insert tokens blockIds =>
      have hattached := h.attach tokens blockIds
      rw [RadixCache.exec, insert] at hexec
      split at hexec
      · obtain ⟨_, hevict, rfl⟩ := Machine.map_eq_ok.mp hexec
        exact hattached.evictLoop hevict
      · cases hexec
        exact hattached
  | matchPrefix tokens =>
      cases hexec
      exact h.matchPrefix tokens
  | evictLru =>
      obtain ⟨_, hevict, rfl⟩ := Machine.map_eq_ok.mp hexec
      exact h.evictLoop hevict

/-- Every cache that calls lead to is one of them. -/
theorem reached_of_history {calls : List Call} (hrun : history env capacity calls = .ok cache) :
    Reached env capacity cache :=
  Machine.run_invariant (P := fun _ _ => True) (fun _ _ _ h _ hexec => h.exec hexec) .new
    (Machine.along_true _ _) hrun

theorem Reached.stamped {before : Instant → ℕ → Prop} (hstamping : Stamping env before)
    (h : Reached env capacity cache) : cache.root.StampedWith before cache.tick := by
  induction h with
  | new => exact new_stamped before env capacity
  | matchPrefix tokens _ ih => exact matchPrefix_stamped hstamping ih tokens
  | attach tokens blockIds _ ih => exact attach_stamped hstamping ih tokens blockIds
  | removeOldestLeaf _ ih => exact removeOldestLeaf_stamped hstamping ih rfl
  | discount evicted _ ih => exact ih

end Reached

/-- The cache after the removal of a leaf. -/
structure Removes (cache cache' : RadixCache) (leaf : List (Token × RadixEntry)) : Prop where
  isLeaf : cache.root.IsLeaf leaf
  contents : cache.contents.Perm (leaf.map step :: cache'.contents)

/-- Only one leaf can have been removed. -/
theorem Removes.unique {cache cache' : RadixCache} {leaf other : List (Token × RadixEntry)}
    (h : Removes cache cache' leaf) (hother : Removes cache cache' other) : other = leaf := by
  have hmem := hother.contents.symm.trans h.contents
  have hnodup := hother.contents.nodup_iff.mp (contents_nodup cache.distinct)
  have hsame : other.map step = leaf.map step := by
    refine (List.mem_cons.mp (hmem.subset List.mem_cons_self)).resolve_right ?_
    exact (List.nodup_cons.mp hnodup).1
  refine eq_of_keys cache.distinct hother.isLeaf.mem h.isLeaf.mem ?_
  rw [← keys_map_step, hsame, keys_map_step]

/-- **The victim is the least recently used leaf exactly when the search scans one.** In every cache
of a run with a clock that never stands still, and whatever the order of iteration, a removal takes
one leaf. No leaf at whatever depth was accessed before it if and only if a least recently used leaf
hangs under the node that the search scans. -/
theorem removed_is_oldest_iff {env : Env} (hclock : StrictMono env.now) {capacity : ℕ}
    {cache cache' : RadixCache} (hreached : Reached env capacity cache) {evicted : List BlockId}
    (hremove : cache.removeOldestLeaf env = (cache', some evicted)) :
    ∃ leaf, Removes cache cache' leaf ∧ (∀ other, Removes cache cache' other → other = leaf) ∧
      (cache.root.OldestLeaf leaf ↔ cache.root.OldestScanned) := by
  have hchildren : cache.root.children ≠ [] := by
    intro hnone
    rw [removeOldestLeaf_empty env hnone] at hremove
    cases hremove
  obtain ⟨p, blockIds, t', tick', hfind, hleaf, hsearch, holdest⟩ :=
    findOldestLeaf_found hclock cache.distinct (hreached.stamped (stamping_lt hclock)) hchildren
  obtain ⟨_, q, _, hkeys, _, hperm⟩ := findOldestLeaf_contents cache.distinct hfind
  have hp : p.map step = q := by
    refine List.inj_on_of_nodup_map (contents_keys_nodup cache.distinct)
      (List.mem_map_of_mem hleaf.mem) (hperm.symm.subset List.mem_cons_self) ?_
    rw [hkeys, keys_map_step]
  have hroot : cache'.root = t' := by
    unfold removeOldestLeaf at hremove
    split at hremove
    · rename_i hsome
      rw [hfind] at hsome
      cases hsome
      cases hremove
      rfl
    · cases hremove
  have hremoves : Removes cache cache' p := ⟨hleaf, by
    rw [hp, contents, contents, hroot]
    exact hperm⟩
  refine ⟨p, hremoves, fun other hother => hremoves.unique hother, fun h => ⟨p, h, hsearch⟩, ?_⟩
  intro hscanned
  obtain ⟨least, hleast, hunder⟩ := hscanned
  exact ⟨hleaf, fun other hother =>
    (holdest least hleast.isLeaf hunder).trans (hleast.oldest other hother)⟩

/-- Two leaves under the root: the search scans them. -/
theorem removed_is_oldest_shallow :
    ∃ cache cache' leaf, history .counting 9 [.insert [1] [4], .insert [2] [5],
        .matchPrefix [1]] = .ok cache ∧
      cache.removeOldestLeaf .counting = (cache', some [5]) ∧ Removes cache cache' leaf ∧
      cache.root.OldestLeaf leaf := by
  have hrun : ∃ cache, history .counting 9 [.insert [1] [4], .insert [2] [5],
      .matchPrefix [1]] = .ok cache ∧ (cache.removeOldestLeaf .counting).2 = some [5] ∧
      cache.root.OldestScanned := by
    decide +kernel
  obtain ⟨cache, hrun, hremove, hscanned⟩ := hrun
  have hclock : StrictMono Env.counting.now := strictMono_id
  obtain ⟨leaf, hremoves, _, hiff⟩ := removed_is_oldest_iff hclock (reached_of_history hrun)
    (Prod.ext rfl hremove)
  exact ⟨cache, _, leaf, hrun, Prod.ext rfl hremove, hremoves, hiff.mpr hscanned⟩

/-- A deeper leaf is older than the one that is removed. -/
theorem removed_is_not_oldest :
    ∃ cache, history .counting 9 [.insert [1] [4], .insert [1, 2] [5], .insert [3] [6]] =
        .ok cache ∧
      ∃ leaf, Removes cache (cache.removeOldestLeaf .counting).1 leaf ∧
        ∃ other, cache.root.IsLeaf other ∧ lastAccess other < lastAccess leaf := by
  have hrun : ∃ cache, history .counting 9 [.insert [1] [4], .insert [1, 2] [5],
      .insert [3] [6]] = .ok cache ∧ ∃ leaf ∈ cache.root.paths, cache.root.IsLeaf leaf ∧
        cache.contents.Perm
          (leaf.map step :: (cache.removeOldestLeaf .counting).1.contents) ∧
        ∃ other ∈ cache.root.paths, cache.root.IsLeaf other ∧
          lastAccess other < lastAccess leaf := by
    decide +kernel
  obtain ⟨cache, hrun, leaf, _, hleaf, hperm, other, _, hother⟩ := hrun
  exact ⟨cache, hrun, leaf, ⟨hleaf, hperm⟩, other, hother⟩

end RadixCache
end Kyro
