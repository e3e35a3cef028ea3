import Kyro.Proof.Radix.Contents
import Kyro.Lib.Run

/-!
# The cache operations on the contents

`match_prefix`, `insert` and `evict_lru` as the block manager sees them: what they do to the
contents of the cache and to its block count. Under `Counted`, the invariant that the count is the
number of blocks listed in the tree, none of them panics.
-/

namespace Kyro

open RadixNode

namespace RadixCache

def contents (cache : RadixCache) : List (List PathStep) := cache.root.contents

def cachedBlocks (cache : RadixCache) : List BlockId := cache.root.cachedBlocks

/-- The counter is the number of blocks listed in the tree. -/
def Counted (cache : RadixCache) : Prop := cache.numCachedBlocks = cache.cachedBlocks.length

theorem cachedBlocks_eq (cache : RadixCache) :
    cache.cachedBlocks = cache.contents.flatMap endBlocks := rfl

theorem new_counted (env : Env) (capacity : ℕ) : (new env capacity).Counted := rfl

/-! ### Matching -/

section Match

variable (env : Env) (cache : RadixCache) (query : List Token)

theorem matchPrefix_contents : (cache.matchPrefix env query).1.contents = cache.contents :=
  (matchFrom_contents env cache.root query cache.tick).1

theorem matchPrefix_cachedBlocks :
    (cache.matchPrefix env query).1.cachedBlocks = cache.cachedBlocks := by
  rw [cachedBlocks_eq, cachedBlocks_eq, matchPrefix_contents]

theorem matchPrefix_counted (h : cache.Counted) : (cache.matchPrefix env query).1.Counted := by
  rw [Counted, matchPrefix_cachedBlocks]
  exact h

/-- The match is a path of the tree that spells a prefix of the query. -/
theorem matchPrefix_path :
    ∃ p ∈ cache.contents, spell p <+: query ∧
      (cache.matchPrefix env query).2.1 = pathBlocks p ∧
      (cache.matchPrefix env query).2.2 = (spell p).length :=
  matchFrom_path env cache.root query cache.tick

theorem matchPrefix_le : (cache.matchPrefix env query).2.2 ≤ query.length := by
  obtain ⟨p, _, hspell, _, hlen⟩ := cache.matchPrefix_path env query
  rw [hlen]
  exact hspell.length_le

theorem mem_of_mem_matchPrefix {block : BlockId}
    (h : block ∈ (cache.matchPrefix env query).2.1) : block ∈ cache.cachedBlocks := by
  obtain ⟨p, hp, _, hblocks, _⟩ := cache.matchPrefix_path env query
  exact mem_cachedBlocks_of_path hp (hblocks ▸ h)

/-- A match lists a block no more often than the tree does. -/
theorem count_matchPrefix_le (block : BlockId) :
    (cache.matchPrefix env query).2.1.count block ≤ cache.cachedBlocks.count block := by
  obtain ⟨p, hp, _, hblocks, _⟩ := cache.matchPrefix_path env query
  rw [hblocks]
  exact count_pathBlocks_le hp block

end Match

/-! ### Eviction -/

theorem removeOldestLeaf_none {env : Env} {cache cache' : RadixCache}
    (h : cache.removeOldestLeaf env = (cache', none)) :
    cache'.root = cache.root ∧ cache'.numCachedBlocks = cache.numCachedBlocks ∧
      cache'.maxCapacity = cache.maxCapacity := by
  unfold removeOldestLeaf at h
  split at h
  · cases h
  · cases h
    exact ⟨rfl, rfl, rfl⟩

theorem removeOldestLeaf_some {env : Env} {cache cache' : RadixCache} {evicted : List BlockId}
    (h : cache.removeOldestLeaf env = (cache', some evicted)) :
    cache'.numCachedBlocks = cache.numCachedBlocks ∧ cache'.maxCapacity = cache.maxCapacity ∧
      ∃ p, p ≠ [] ∧ endBlocks p = evicted ∧ cache.contents.Perm (p :: cache'.contents) := by
  unfold removeOldestLeaf at h
  split at h
  · rename_i hfind
    obtain ⟨_, p, hne, _, hblocks, hperm⟩ := findOldestLeaf_contents cache.distinct hfind
    cases h
    exact ⟨rfl, rfl, p, hne, hblocks, hperm⟩
  · cases h

/-- The cache after a turn of the loop that removed a node. -/
def discount (cache : RadixCache) (evicted : List BlockId) : RadixCache :=
  { cache with numCachedBlocks := cache.numCachedBlocks - evicted.length }

/-- A turn of the loop that removes a node: the counter follows, without underflow. -/
theorem evictLoop_some {env : Env} {cache cache' : RadixCache} {evicted : List BlockId}
    (h : cache.Counted) (hremove : cache.removeOldestLeaf env = (cache', some evicted)) :
    (cache'.discount evicted).Counted ∧ ∀ fuel blocksToFree,
      cache.evictLoop env (fuel + 1) blocksToFree =
        if (cache'.discount evicted).numCachedBlocks ≤ cache'.maxCapacity then
          .ok (cache'.discount evicted, blocksToFree ++ evicted)
        else (cache'.discount evicted).evictLoop env fuel (blocksToFree ++ evicted) := by
  obtain ⟨hcount, _, p, _, rfl, hperm⟩ := removeOldestLeaf_some hremove
  have hlength : cache.numCachedBlocks = (endBlocks p).length + cache'.cachedBlocks.length := by
    rw [h, cachedBlocks_eq, (hperm.flatMap_right _).length_eq, List.flatMap_cons,
      List.length_append, cachedBlocks_eq]
  refine ⟨?_, fun fuel blocksToFree => ?_⟩
  · change cache'.numCachedBlocks - (endBlocks p).length = cache'.cachedBlocks.length
    omega
  · rw [evictLoop, hremove]
    dsimp only
    rw [checkedSub_of_le (by omega), Machine.ok_bind]
    rfl

/-- The loop of `evict_lru` moves whole nodes out of the cache and lists their blocks. -/
theorem evictLoop_spec (env : Env) (fuel : ℕ) {cache : RadixCache} (h : cache.Counted)
    (blocksToFree : List BlockId) :
    ∃ cache' removed,
      cache.evictLoop env fuel blocksToFree =
        .ok (cache', blocksToFree ++ removed.flatMap endBlocks) ∧
      cache.contents.Perm (removed ++ cache'.contents) ∧ cache'.Counted ∧
      cache'.maxCapacity = cache.maxCapacity := by
  induction fuel generalizing cache blocksToFree with
  | zero => exact ⟨cache, [], by simp [evictLoop], .refl _, h, rfl⟩
  | succ fuel ih =>
      cases hremove : cache.removeOldestLeaf env with
      | mk cache₁ evicted =>
          cases evicted with
          | none =>
              obtain ⟨hroot, hcount, hcapacity⟩ := removeOldestLeaf_none hremove
              refine ⟨cache₁, [], by simp [evictLoop, hremove], by simp [contents, hroot], ?_,
                hcapacity⟩
              rw [Counted, cachedBlocks, hroot, hcount]
              exact h
          | some evicted =>
              obtain ⟨hcounted, hturn⟩ := evictLoop_some h hremove
              obtain ⟨_, hcapacity, p, _, rfl, hperm⟩ := removeOldestLeaf_some hremove
              rw [hturn]
              split
              · exact ⟨cache₁.discount (endBlocks p), [p], by simp, hperm, hcounted, hcapacity⟩
              · obtain ⟨cache', removed, hloop, hrest, hcounted', hcapacity'⟩ :=
                  ih hcounted (blocksToFree ++ endBlocks p)
                exact ⟨cache', p :: removed, by simpa using hloop, hperm.trans (hrest.cons p),
                  hcounted', hcapacity'.trans hcapacity⟩

/-- Whatever the counter says, an eviction that ends moves whole nodes out and lists their blocks.
-/
theorem evictLoop_contents {env : Env} {fuel : ℕ} {cache cache' : RadixCache}
    {blocksToFree evicted : List BlockId}
    (h : cache.evictLoop env fuel blocksToFree = .ok (cache', evicted)) :
    ∃ removed, evicted = blocksToFree ++ removed.flatMap endBlocks ∧
      cache.contents.Perm (removed ++ cache'.contents) := by
  induction fuel generalizing cache blocksToFree with
  | zero =>
      cases h
      exact ⟨[], by simp, .refl _⟩
  | succ fuel ih =>
      rw [evictLoop] at h
      split at h
      · rename_i cache₁ hremove
        obtain ⟨hroot, _, _⟩ := removeOldestLeaf_none hremove
        cases h
        exact ⟨[], by simp, by simp [contents, hroot]⟩
      · rename_i cache₁ leaf hremove
        obtain ⟨_, _, p, _, rfl, hperm⟩ := removeOldestLeaf_some hremove
        obtain ⟨numCachedBlocks, _, h⟩ := Machine.bind_eq_ok.mp h
        split at h
        · cases h
          exact ⟨[p], by simp, hperm⟩
        · obtain ⟨removed, heq, hrest⟩ := ih h
          exact ⟨p :: removed, by rw [heq]; simp, hperm.trans (hrest.cons p)⟩

theorem evictLru_spec (env : Env) {cache : RadixCache} (h : cache.Counted) :
    ∃ cache' removed, cache.evictLru env = .ok (cache', removed.flatMap endBlocks) ∧
      cache.contents.Perm (removed ++ cache'.contents) ∧ cache'.Counted ∧
      cache'.maxCapacity = cache.maxCapacity := by
  simpa only [evictLru, List.nil_append] using evictLoop_spec env cache.root.size h []

/-- The nodes of a tree are its paths but for the root's. -/
theorem size_root (cache : RadixCache) : cache.root.size + 1 = cache.contents.length := by
  have hpaths : cache.root.paths.length = cache.contents.length := (List.length_map _).symm
  have hpos : 0 < cache.contents.length := List.length_pos_of_mem (nil_mem_contents cache.root)
  rw [KeyedTree.size, hpaths]
  omega

theorem size_of_perm {cache cache' : RadixCache} {p : List PathStep}
    (hperm : cache.contents.Perm (p :: cache'.contents)) :
    cache.root.size = cache'.root.size + 1 := by
  have hlength := hperm.length_eq
  rw [List.length_cons, ← size_root, ← size_root] at hlength
  exact Nat.succ_injective hlength

/-- Within the capacity one eviction is the removal of one leaf. -/
theorem evictLru_of_within (env : Env) {cache : RadixCache} (h : cache.Counted)
    (hwithin : cache.numCachedBlocks ≤ cache.maxCapacity) :
    ∃ cache', cache.evictLru env = .ok (cache', (cache.removeOldestLeaf env).2.getD []) := by
  rw [evictLru]
  cases hremove : cache.removeOldestLeaf env with
  | mk cache₁ evicted =>
      cases evicted with
      | none =>
          cases cache.root.size with
          | zero => exact ⟨cache, rfl⟩
          | succ fuel =>
              rw [evictLoop, hremove]
              exact ⟨cache₁, rfl⟩
      | some evicted =>
          obtain ⟨_, hturn⟩ := evictLoop_some h hremove
          obtain ⟨hcount, hcapacity, p, _, rfl, hperm⟩ := removeOldestLeaf_some hremove
          have hle : cache₁.numCachedBlocks - (endBlocks p).length ≤ cache₁.maxCapacity := by
            omega
          rw [size_of_perm hperm, hturn, discount, if_pos hle]
          exact ⟨_, rfl⟩

/-- Blocks are only moved by an eviction: what leaves the tree is what is listed. -/
theorem count_of_removed {cache cache' : RadixCache} {removed : List (List PathStep)}
    (hperm : cache.contents.Perm (removed ++ cache'.contents)) (block : BlockId) :
    cache.cachedBlocks.count block =
      (removed.flatMap endBlocks).count block + cache'.cachedBlocks.count block := by
  rw [cachedBlocks_eq, (hperm.flatMap_right _).count_eq, List.flatMap_append, List.count_append,
    cachedBlocks_eq]

/-! ### Insertion -/

/-- The path an insertion adds: none where the walk uses up the tokens on existing nodes. -/
def insertedPaths (cache : RadixCache) (tokens : List Token) (blockIds : List BlockId) :
    List (List PathStep) :=
  match attachPath cache.root tokens with
  | none => []
  | some p => [p ++ [⟨(tokens.drop (spell p).length).headD 0, tokens.drop (spell p).length,
      blockIds⟩]]

theorem flatMap_insertedPaths (cache : RadixCache) (tokens : List Token)
    (blockIds : List BlockId) :
    (cache.insertedPaths tokens blockIds).flatMap endBlocks =
      if (attachPath cache.root tokens).isSome then blockIds else [] := by
  unfold insertedPaths
  cases attachPath cache.root tokens with
  | none => rfl
  | some p => simp

theorem attach_spec (env : Env) {cache : RadixCache} (h : cache.Counted) (tokens : List Token)
    (blockIds : List BlockId) :
    (cache.attach env tokens blockIds).contents.Perm
        (cache.insertedPaths tokens blockIds ++ cache.contents) ∧
      (cache.attach env tokens blockIds).Counted ∧
      (cache.attach env tokens blockIds).numCachedBlocks = cache.numCachedBlocks +
        ((cache.insertedPaths tokens blockIds).flatMap endBlocks).length := by
  obtain ⟨_, hcontents⟩ := insertFrom_contents env blockIds cache.root tokens cache.tick
  have hstep : (insertFrom env blockIds cache.root tokens cache.tick).2.1 =
        (attachPath cache.root tokens).isSome ∧
      (cache.attach env tokens blockIds).contents.Perm
        (cache.insertedPaths tokens blockIds ++ cache.contents) := by
    unfold insertedPaths
    cases hattach : attachPath cache.root tokens with
    | none =>
        rw [hattach] at hcontents
        obtain ⟨hflag, hsame⟩ := hcontents
        exact ⟨hflag, .of_eq hsame⟩
    | some p =>
        rw [hattach] at hcontents
        obtain ⟨hflag, _, first, rest, hdrop, hperm⟩ := hcontents
        refine ⟨hflag, ?_⟩
        simp only [hdrop, List.headD_cons]
        exact hperm
  obtain ⟨hflag, hperm⟩ := hstep
  have hcount : (cache.attach env tokens blockIds).numCachedBlocks = cache.numCachedBlocks +
      ((cache.insertedPaths tokens blockIds).flatMap endBlocks).length := by
    simp only [attach, flatMap_insertedPaths, hflag]
    cases (attachPath cache.root tokens).isSome <;> rfl
  refine ⟨hperm, ?_, hcount⟩
  rw [Counted, hcount, cachedBlocks_eq, (hperm.flatMap_right _).length_eq, List.flatMap_append,
    List.length_append, h, cachedBlocks_eq]
  exact Nat.add_comm _ _

/-- An insertion adds its path and may then evict, silently, some of what is there. -/
theorem insert_spec (env : Env) {cache : RadixCache} (h : cache.Counted) (tokens : List Token)
    (blockIds : List BlockId) :
    ∃ cache' removed, cache.insert env tokens blockIds = .ok cache' ∧
      (cache.insertedPaths tokens blockIds ++ cache.contents).Perm (removed ++ cache'.contents) ∧
      cache'.Counted ∧ cache'.maxCapacity = cache.maxCapacity ∧
      (cache.numCachedBlocks + ((cache.insertedPaths tokens blockIds).flatMap endBlocks).length ≤
        cache.maxCapacity → removed = []) := by
  obtain ⟨hperm, hcounted, hcount⟩ := attach_spec env h tokens blockIds
  rw [insert]
  split
  · rename_i hover
    obtain ⟨cache', removed, hevict, hremoved, hcounted', hcapacity⟩ := evictLru_spec env hcounted
    refine ⟨cache', removed, by rw [hevict]; rfl, hperm.symm.trans hremoved, hcounted',
      hcapacity, fun hle => ?_⟩
    rw [hcount] at hover
    exact absurd hover (Nat.not_lt.mpr hle)
  · exact ⟨_, [], rfl, hperm.symm, hcounted, rfl, fun _ => rfl⟩

end RadixCache
end Kyro
