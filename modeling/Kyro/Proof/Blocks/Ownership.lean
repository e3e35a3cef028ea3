import Kyro.Scheduler.BlockManager
import Kyro.Proof.Radix.Cache

/-!
# Who holds a block

A block is owed one reference for every place it is listed in: the tables of the live requests, the
nodes of the cache, and, while a call is under way, the hit it has pinned. `Owns` says that the
reference counts and the free list are a sound ledger of that. Every call keeps it, whatever the ids
and prompts, and under it no call panics.
-/

namespace Kyro

open RefPool Tally

namespace BlockManager

/-- The places a block is listed in. -/
def owed (manager : BlockManager) (block : BlockId) : ℕ :=
  tally manager.blockTable block + manager.radixCache.cachedBlocks.count block

/-- The ledger is sound, with `pins` held by the call under way. -/
structure Owns (manager : BlockManager) (pins : List BlockId) : Prop where
  ledger : Sound manager.numGpuBlocks manager.refCounts manager.freeGpuBlocks
    fun block => manager.owed block + pins.count block
  counted : manager.radixCache.Counted
  blockSize_pos : 0 < manager.blockSize
  /-- Only `allocate` leaves a request without a prompt, and its blocks are all fresh. -/
  untraced : ∀ id blocks, manager.blockTable.lookup id = some blocks →
    manager.promptTable.lookup id = none → blocks.Nodup

section Facts

variable {manager : BlockManager} {pins : List BlockId}

theorem Owns.sound (h : manager.Owns []) : Sound manager.numGpuBlocks manager.refCounts
    manager.freeGpuBlocks manager.owed := by
  simpa using h.ledger

theorem owed_pos_of_table {id : RequestId} {blocks : List BlockId} {block : BlockId}
    (hlookup : manager.blockTable.lookup id = some blocks) (hmem : block ∈ blocks) :
    0 < manager.owed block :=
  Nat.add_pos_left (tally_pos.mpr ⟨id, blocks, hlookup, hmem⟩) _

theorem owed_pos_of_cached {block : BlockId} (hmem : block ∈ manager.radixCache.cachedBlocks) :
    0 < manager.owed block :=
  Nat.add_pos_right _ (List.count_pos_iff.mpr hmem)

theorem Owns.not_mem_free (h : manager.Owns pins) {block : BlockId}
    (howed : 0 < manager.owed block) :
    block ∉ manager.freeGpuBlocks :=
  h.ledger.not_mem_free (Nat.add_pos_left howed _)

theorem Owns.lt (h : manager.Owns pins) {block : BlockId} (howed : 0 < manager.owed block) :
    block < manager.numGpuBlocks :=
  h.ledger.lt_of_owed (Nat.add_pos_left howed _)

end Facts

theorem new_owns (env : Env) {blockSize : ℕ} (hsize : 0 < blockSize) (numGpuBlocks : ℕ) :
    (new env blockSize numGpuBlocks).Owns [] where
  ledger := by
    have hinit : Sound numGpuBlocks (new env blockSize numGpuBlocks).refCounts
        (new env blockSize numGpuBlocks).freeGpuBlocks fun _ => 0 :=
      sound_init numGpuBlocks rfl (List.nodup_reverse.mpr List.nodup_range)
        fun block hblock => by simpa [new] using hblock
    exact hinit.owe_less fun block => Nat.le_of_eq rfl
  counted := RadixCache.new_counted _ _
  blockSize_pos := hsize
  untraced id blocks hlookup := by simp [new] at hlookup

/-! ### The stages of `allocate_with_prefix` -/

/-- The hit a prompt has in the cache: its blocks and the number of its tokens they cover. -/
def hit (env : Env) (manager : BlockManager) (promptTokens : List Token) : List BlockId × ℕ :=
  (manager.radixCache.matchPrefix env promptTokens).2

/-- The blocks a prompt needs beyond its hit. -/
def needed (env : Env) (manager : BlockManager) (promptTokens : List Token) : ℕ :=
  (promptTokens.length - (manager.hit env promptTokens).2 + manager.blockSize - 1) /
    manager.blockSize

theorem pinPrefix_spec (env : Env) {manager : BlockManager} (h : manager.Owns [])
    (promptTokens : List Token) :
    ∃ refCounts, manager.pinPrefix env promptTokens =
        .ok ({ manager with
          radixCache := (manager.radixCache.matchPrefix env promptTokens).1
          refCounts }, (manager.hit env promptTokens).1, (manager.hit env promptTokens).2) ∧
      (∀ block, refsOf refCounts block = refsOf manager.refCounts block +
        (manager.hit env promptTokens).1.count block) ∧
      Owns { manager with
        radixCache := (manager.radixCache.matchPrefix env promptTokens).1
        refCounts } (manager.hit env promptTokens).1 := by
  have hheld : ∀ block ∈ (manager.hit env promptTokens).1, 0 < manager.owed block :=
    fun block hblock => owed_pos_of_cached (manager.radixCache.mem_of_mem_matchPrefix env _ hblock)
  obtain ⟨refCounts, hpin, hrefs, hsound⟩ := h.sound.pin
    (fun block hblock => h.not_mem_free (hheld block hblock))
    (fun block hblock => h.lt (hheld block hblock))
  refine ⟨refCounts, ?_, hrefs, ⟨?_, RadixCache.matchPrefix_counted env _ _ h.counted,
    h.blockSize_pos, h.untraced⟩⟩
  · simp only [pinPrefix]
    rw [show pin manager.refCounts (manager.radixCache.matchPrefix env promptTokens).2.1 =
      some refCounts from hpin]
    rfl
  · refine hsound.owe_less fun block => Nat.le_of_eq ?_
    simp only [owed, RadixCache.matchPrefix_cachedBlocks]

/-- What `makeRoom` does: nodes leave the cache, and the blocks whose last reference they held
become free. -/
structure Roomier (manager manager' : BlockManager) (evicted freed : List BlockId) : Prop where
  blockSize : manager'.blockSize = manager.blockSize
  numGpuBlocks : manager'.numGpuBlocks = manager.numGpuBlocks
  blockTable : manager'.blockTable = manager.blockTable
  promptTable : manager'.promptTable = manager.promptTable
  maxCapacity : manager'.radixCache.maxCapacity = manager.radixCache.maxCapacity
  contents : ∃ removed, evicted = removed.flatMap endBlocks ∧
    manager.radixCache.contents.Perm (removed ++ manager'.radixCache.contents)
  free : manager'.freeGpuBlocks = freed ++ manager.freeGpuBlocks
  refs : ∀ block, refsOf manager'.refCounts block + evicted.count block =
    refsOf manager.refCounts block
  freed_nodup : freed.Nodup
  mem_freed : ∀ block, block ∈ freed ↔
    block ∈ evicted ∧ refsOf manager.refCounts block = evicted.count block

theorem Roomier.refl (manager : BlockManager) : Roomier manager manager [] [] where
  blockSize := rfl
  numGpuBlocks := rfl
  blockTable := rfl
  promptTable := rfl
  maxCapacity := rfl
  contents := ⟨[], rfl, .refl _⟩
  free := rfl
  refs := by simp
  freed_nodup := List.nodup_nil
  mem_freed := by simp

theorem makeRoom_spec (env : Env) {manager : BlockManager} {pins : List BlockId}
    (h : manager.Owns pins) (needed : ℕ) :
    ∃ manager' evicted freed, manager.makeRoom env needed = .ok manager' ∧
      manager'.Owns pins ∧ Roomier manager manager' evicted freed ∧
      (needed ≤ manager.freeGpuBlocks.length → evicted = [] ∧ manager' = manager) ∧
      (manager.freeGpuBlocks.length < needed →
        ∃ cache, manager.radixCache.evictLru env = .ok (cache, evicted)) := by
  by_cases hfree : manager.freeGpuBlocks.length < needed
  · obtain ⟨cache, removed, hevict, hperm, hcounted, hcapacity⟩ :=
      RadixCache.evictLru_spec env h.counted
    have hsplit : Sound manager.numGpuBlocks manager.refCounts manager.freeGpuBlocks fun block =>
        (tally manager.blockTable block + cache.cachedBlocks.count block + pins.count block) +
          (removed.flatMap endBlocks).count block := by
      refine h.ledger.owe_less fun block => Nat.le_of_eq ?_
      rw [owed, RadixCache.count_of_removed hperm block]
      omega
    obtain ⟨refCounts, freed, hrelease, hrefs, hnodup, hfreed, hsound⟩ := hsplit.release
    refine ⟨{ manager with
        radixCache := cache, refCounts, freeGpuBlocks := freed ++ manager.freeGpuBlocks },
      removed.flatMap endBlocks, freed, ?_, ⟨hsound, hcounted, h.blockSize_pos, h.untraced⟩,
      ⟨rfl, rfl, rfl, rfl, hcapacity, ⟨removed, rfl, hperm⟩, rfl, hrefs, hnodup, hfreed⟩,
      fun hle => absurd hfree (Nat.not_lt.mpr hle), fun _ => ⟨cache, hevict⟩⟩
    rw [makeRoom, if_pos hfree, hevict, Machine.ok_bind]
    simp only [hrelease, orPanic_some, Machine.ok_bind]
    rfl
  · exact ⟨manager, [], [], by rw [makeRoom, if_neg hfree], h, Roomier.refl manager,
      fun _ => ⟨rfl, rfl⟩, fun hlt => absurd hlt hfree⟩

theorem unpin_spec {manager : BlockManager} {pins : List BlockId} (h : manager.Owns pins) :
    ∃ refCounts, unpin manager.refCounts pins = some refCounts ∧
      (∀ block, refsOf refCounts block + pins.count block = refsOf manager.refCounts block) ∧
      Owns { manager with refCounts } [] := by
  obtain ⟨refCounts, hunpin, hrefs, hsound⟩ := h.ledger.unpin
  exact ⟨refCounts, hunpin, hrefs, ⟨hsound.owe_less fun block => by simp [owed], h.counted,
    h.blockSize_pos, h.untraced⟩⟩

/-- Handing out fresh blocks, with the pinned ones, as the table of a request. -/
theorem take_spec {manager : BlockManager} {pins : List BlockId} (h : manager.Owns pins) {n : ℕ}
    (hn : n ≤ manager.freeGpuBlocks.length) :
    ∃ refCounts, take n manager.refCounts manager.freeGpuBlocks =
        some (refCounts, manager.freeGpuBlocks.drop n, manager.freeGpuBlocks.take n) ∧
      (∀ block, refsOf refCounts block = refsOf manager.refCounts block +
        (manager.freeGpuBlocks.take n).count block) ∧
      ∀ (id : RequestId) (promptTable : Table RequestId Token),
        (∀ other blocks, (manager.blockTable.insert id
          (pins ++ manager.freeGpuBlocks.take n)).lookup other = some blocks →
          promptTable.lookup other = none → blocks.Nodup) →
        Owns { manager with
          refCounts
          freeGpuBlocks := manager.freeGpuBlocks.drop n
          blockTable := manager.blockTable.insert id (pins ++ manager.freeGpuBlocks.take n)
          promptTable } [] := by
  obtain ⟨refCounts, htake, hrefs, hsound⟩ := h.ledger.take hn
  refine ⟨refCounts, htake, hrefs, fun id promptTable huntraced =>
    ⟨hsound.owe_less fun block => ?_, h.counted, h.blockSize_pos, huntraced⟩⟩
  have := tally_erase_le manager.blockTable id block
  simp only [owed, tally_insert, List.count_append, List.count_nil]
  omega

/-- The manager of an `allocate_with_prefix` call when it checks for the last time whether enough
blocks are free: the hit is pinned, and where too few blocks were free the cache has been evicted
from once. -/
structure Prepared (env : Env) (manager : BlockManager) (promptTokens : List Token)
    (roomy : BlockManager) (evicted freed : List BlockId) : Prop where
  owns : roomy.Owns (manager.hit env promptTokens).1
  blockSize : roomy.blockSize = manager.blockSize
  numGpuBlocks : roomy.numGpuBlocks = manager.numGpuBlocks
  blockTable : roomy.blockTable = manager.blockTable
  promptTable : roomy.promptTable = manager.promptTable
  contents : ∃ removed, evicted = removed.flatMap endBlocks ∧
    manager.radixCache.contents.Perm (removed ++ roomy.radixCache.contents)
  free : roomy.freeGpuBlocks = freed ++ manager.freeGpuBlocks
  refs : ∀ block, refsOf roomy.refCounts block + evicted.count block =
    refsOf manager.refCounts block + (manager.hit env promptTokens).1.count block
  freed_nodup : freed.Nodup
  mem_freed : ∀ block, block ∈ freed ↔ block ∈ evicted ∧
    refsOf manager.refCounts block + (manager.hit env promptTokens).1.count block =
      evicted.count block
  enough : manager.needed env promptTokens ≤ manager.freeGpuBlocks.length → evicted = []
  evicts : manager.freeGpuBlocks.length < manager.needed env promptTokens →
    ∃ cache, (manager.radixCache.matchPrefix env promptTokens).1.evictLru env = .ok (cache, evicted)

theorem Prepared.count {env : Env} {manager roomy : BlockManager} {promptTokens : List Token}
    {evicted freed : List BlockId} (h : Prepared env manager promptTokens roomy evicted freed)
    (block : BlockId) :
    manager.radixCache.cachedBlocks.count block =
      evicted.count block + roomy.radixCache.cachedBlocks.count block := by
  obtain ⟨removed, rfl, hperm⟩ := h.contents
  exact RadixCache.count_of_removed hperm block

/-- **`allocate_with_prefix` does not panic**, and either gives up, having dropped its pins, or
hands out the hit and fresh blocks. -/
theorem allocateWithPrefix_spec (env : Env) {manager : BlockManager} (h : manager.Owns [])
    (id : RequestId) (promptTokens : List Token) :
    ∃ roomy evicted freed, Prepared env manager promptTokens roomy evicted freed ∧
      ((roomy.freeGpuBlocks.length < manager.needed env promptTokens ∧ ∃ refCounts,
        manager.allocateWithPrefix env id promptTokens = .ok ({ roomy with refCounts }, none) ∧
        (∀ block, refsOf refCounts block + (manager.hit env promptTokens).1.count block =
          refsOf roomy.refCounts block) ∧ Owns { roomy with refCounts } []) ∨
      (manager.needed env promptTokens ≤ roomy.freeGpuBlocks.length ∧ ∃ manager',
        manager.allocateWithPrefix env id promptTokens = .ok (manager',
          some ((manager.hit env promptTokens).1 ++
            roomy.freeGpuBlocks.take (manager.needed env promptTokens),
            (manager.hit env promptTokens).2)) ∧
        manager' = { roomy with
          refCounts := manager'.refCounts
          freeGpuBlocks := roomy.freeGpuBlocks.drop (manager.needed env promptTokens)
          blockTable := manager.blockTable.insert id ((manager.hit env promptTokens).1 ++
            roomy.freeGpuBlocks.take (manager.needed env promptTokens))
          promptTable := manager.promptTable.insert id promptTokens } ∧
        (∀ block, refsOf manager'.refCounts block = refsOf roomy.refCounts block +
          (roomy.freeGpuBlocks.take (manager.needed env promptTokens)).count block) ∧
        manager'.Owns [])) := by
  obtain ⟨refCounts, hpin, hpinRefs, hpinned⟩ := pinPrefix_spec env h promptTokens
  obtain ⟨roomy, evicted, freed, hroom, hroomy, hroomier, henough, hevicts⟩ :=
    makeRoom_spec env hpinned (manager.needed env promptTokens)
  have hprepared : Prepared env manager promptTokens roomy evicted freed :=
    { owns := hroomy
      blockSize := hroomier.blockSize
      numGpuBlocks := hroomier.numGpuBlocks
      blockTable := hroomier.blockTable
      promptTable := hroomier.promptTable
      contents := by
        obtain ⟨removed, hevicted, hperm⟩ := hroomier.contents
        exact ⟨removed, hevicted, by rwa [← RadixCache.matchPrefix_contents env]⟩
      free := hroomier.free
      refs := fun block => by rw [hroomier.refs, hpinRefs]
      freed_nodup := hroomier.freed_nodup
      mem_freed := fun block => by rw [hroomier.mem_freed, hpinRefs]
      enough := fun hle => (henough hle).1
      evicts := hevicts }
  have hneeded : divCeil (promptTokens.length - (manager.hit env promptTokens).2)
      manager.blockSize = .ok (manager.needed env promptTokens) := divCeil_of_pos h.blockSize_pos
  refine ⟨roomy, evicted, freed, hprepared, ?_⟩
  by_cases hfew : roomy.freeGpuBlocks.length < manager.needed env promptTokens
  · obtain ⟨unpinned, hunpin, hunpinRefs, howns⟩ := unpin_spec hroomy
    refine Or.inl ⟨hfew, unpinned, ?_, hunpinRefs, howns⟩
    simp only [allocateWithPrefix, hpin, Machine.ok_bind, hneeded, hroom, if_pos hfew, hunpin,
      orPanic_some]
    rfl
  · obtain ⟨taken, htake, htakeRefs, howns⟩ := take_spec hroomy (Nat.le_of_not_lt hfew)
    have htable := howns id (manager.promptTable.insert id promptTokens) (by
      intro other blocks hlookup hnone
      obtain ⟨hne, hnone⟩ := AList.lookup_insert_eq_none.mp hnone
      rw [AList.lookup_insert_ne hne, hroomier.blockTable] at hlookup
      exact h.untraced other blocks hlookup hnone)
    rw [hroomier.blockTable] at htable
    refine Or.inr ⟨Nat.le_of_not_lt hfew, _, ?_, rfl, htakeRefs, htable⟩
    simp only [allocateWithPrefix, hpin, Machine.ok_bind, hneeded, hroom, if_neg hfew, htake,
      orPanic_some, hroomier.blockTable, hroomier.promptTable]
    rfl

/-! ### The other calls -/

theorem allocate_spec {manager : BlockManager} (h : manager.Owns []) (id : RequestId)
    (numTokens : ℕ) :
    ∃ manager' result, manager.allocate id numTokens = .ok (manager', result) ∧
      manager'.Owns [] ∧ manager'.radixCache = manager.radixCache ∧
      (∀ blocks, result = some blocks → blocks <+: manager.freeGpuBlocks ∧
        manager'.blockTable = manager.blockTable.insert id blocks) ∧
      (result = none → manager' = manager) := by
  have hblocks := divCeil_of_pos (a := numTokens) h.blockSize_pos
  rw [allocate, hblocks, Machine.ok_bind]
  by_cases hfew : manager.freeGpuBlocks.length <
      (numTokens + manager.blockSize - 1) / manager.blockSize
  · rw [if_pos hfew]
    exact ⟨manager, none, rfl, h, rfl, by simp, fun _ => rfl⟩
  · obtain ⟨refCounts, htake, _, howns⟩ := take_spec h (Nat.le_of_not_lt hfew)
    rw [if_neg hfew, htake, orPanic_some, Machine.ok_bind]
    refine ⟨_, _, rfl, howns id manager.promptTable ?_, rfl, ?_, by simp⟩
    · intro other blocks hlookup hnone
      by_cases hother : other = id
      · subst other
        rw [AList.lookup_insert] at hlookup
        cases hlookup
        exact h.ledger.nodup.sublist (List.take_sublist _ _)
      · rw [AList.lookup_insert_ne hother] at hlookup
        exact h.untraced other blocks hlookup hnone
    · intro blocks hresult
      cases hresult
      exact ⟨List.take_prefix _ _, rfl⟩

theorem pushUnreferenced_spec {refCounts : List ℕ} {free blocks : List BlockId}
    (hlt : ∀ block ∈ blocks, block < refCounts.length) :
    pushUnreferenced refCounts free blocks =
      .ok ((blocks.filter fun block => refsOf refCounts block = 0).reverse ++ free) := by
  induction blocks generalizing free with
  | nil => rfl
  | cons block blocks ih =>
      rw [pushUnreferenced, getElem?_of_lt (hlt block (by simp)), orPanic_some, Machine.ok_bind,
        ih fun other hother => hlt other (by simp [hother])]
      by_cases hzero : refsOf refCounts block = 0
      · simp [hzero]
      · simp [hzero]

theorem lookup_erase_some {table : Table RequestId BlockId} {id other : RequestId}
    {blocks : List BlockId} (h : (table.erase id).lookup other = some blocks) :
    other ≠ id ∧ table.lookup other = some blocks := by
  by_cases hother : other = id
  · subst other
    rw [AList.lookup_erase] at h
    cases h
  · exact ⟨hother, by rwa [AList.lookup_erase_ne hother] at h⟩

/-- The references of a request, beside those of the others and of the cache. -/
theorem Owns.sound_apart {manager : BlockManager} (h : manager.Owns []) {id : RequestId}
    {blocks : List BlockId} (hblocks : manager.blockTable.lookup id = some blocks) :
    Sound manager.numGpuBlocks manager.refCounts manager.freeGpuBlocks fun block =>
      (tally (manager.blockTable.erase id) block +
        manager.radixCache.cachedBlocks.count block) + blocks.count block :=
  h.sound.owe_less fun block => by
    rw [owed, tally_of_lookup hblocks]
    omega

/-- Freeing a request with a prompt moves its references to the cache. -/
theorem free_traced (env : Env) {manager : BlockManager} (h : manager.Owns []) {id : RequestId}
    {blocks : List BlockId} {tokens : List Token}
    (hblocks : manager.blockTable.lookup id = some blocks)
    (htokens : manager.promptTable.lookup id = some tokens) :
    ∃ manager' removed, manager.free env id = .ok manager' ∧
      manager' = { manager with
        blockTable := manager.blockTable.erase id
        promptTable := manager.promptTable.erase id
        refCounts := manager'.refCounts
        radixCache := manager'.radixCache } ∧
      (∀ block, refsOf manager'.refCounts block = refsOf manager.refCounts block) ∧
      (manager.radixCache.insertedPaths tokens blocks ++ manager.radixCache.contents).Perm
        (removed ++ manager'.radixCache.contents) ∧
      (manager.radixCache.numCachedBlocks +
          ((manager.radixCache.insertedPaths tokens blocks).flatMap endBlocks).length ≤
        manager.radixCache.maxCapacity → removed = []) ∧
      manager'.radixCache.maxCapacity = manager.radixCache.maxCapacity ∧ manager'.Owns [] := by
  obtain ⟨dropped, hunpin, hdropRefs, hdropped⟩ := (h.sound_apart hblocks).unpin
  have hheld : ∀ block ∈ blocks, 0 < manager.owed block := fun block hblock =>
    owed_pos_of_table hblocks hblock
  obtain ⟨refCounts, hpin, hpinRefs, hpinned⟩ := hdropped.pin
    (fun block (hblock : block ∈ blocks) => h.not_mem_free (hheld block hblock))
    (fun block hblock => h.lt (hheld block hblock))
  obtain ⟨cache, removed, hinsert, hperm, hcounted, hcapacity, hkept⟩ :=
    RadixCache.insert_spec env h.counted tokens blocks
  refine ⟨{ manager with
      blockTable := manager.blockTable.erase id
      promptTable := manager.promptTable.erase id
      refCounts
      radixCache := cache }, removed, ?_, rfl, fun block => ?_, hperm, hkept, hcapacity,
    ⟨hpinned.owe_less fun block => ?_, hcounted, h.blockSize_pos, fun other bs hlookup hnone => ?_⟩⟩
  · simp only [free, hblocks, htokens, hunpin, orPanic_some, Machine.ok_bind, hpin, hinsert]
    rfl
  · change refsOf refCounts block = refsOf manager.refCounts block
    have := hdropRefs block
    have := hpinRefs block
    omega
  · -- the cache lists no more than what it held and what was deposited
    have hcount := (hperm.flatMap_right endBlocks).count_eq block
    rw [List.flatMap_append, List.flatMap_append, List.count_append, List.count_append,
      RadixCache.flatMap_insertedPaths] at hcount
    have hdeposit : (if (RadixNode.attachPath manager.radixCache.root tokens).isSome then blocks
        else []).count block ≤ blocks.count block := by
      split
      · exact le_rfl
      · simp
    simp only [owed, RadixCache.cachedBlocks_eq, List.count_nil]
    omega
  · obtain ⟨hother, hlookup⟩ := lookup_erase_some hlookup
    exact h.untraced other bs hlookup (by rwa [AList.lookup_erase_ne hother] at hnone)

/-- Freeing a request without a prompt returns its blocks to the free list. -/
theorem free_untraced (env : Env) {manager : BlockManager} (h : manager.Owns []) {id : RequestId}
    {blocks : List BlockId} (hblocks : manager.blockTable.lookup id = some blocks)
    (htokens : manager.promptTable.lookup id = none) :
    ∃ manager', manager.free env id = .ok manager' ∧
      manager'.blockSize = manager.blockSize ∧
      manager'.blockTable = manager.blockTable.erase id ∧
      manager'.promptTable = manager.promptTable.erase id ∧
      manager'.radixCache = manager.radixCache ∧ manager'.Owns [] := by
  obtain ⟨refCounts, hunpin, hrefs, hsound⟩ := (h.sound_apart hblocks).unpin
  have hheld : ∀ block ∈ blocks, 0 < manager.owed block := fun block hblock =>
    owed_pos_of_table hblocks hblock
  have hlt : ∀ block ∈ blocks, block < refCounts.length := fun block hblock =>
    hsound.length_eq ▸ h.lt (hheld block hblock)
  have hpush := @pushUnreferenced_spec refCounts manager.freeGpuBlocks blocks hlt
  have hmem : ∀ block ∈ (blocks.filter fun block => refsOf refCounts block = 0).reverse,
      block ∈ blocks ∧ refsOf refCounts block = 0 := fun block hblock => by simpa using hblock
  refine ⟨{ manager with
      blockTable := manager.blockTable.erase id
      promptTable := manager.promptTable.erase id
      refCounts
      freeGpuBlocks :=
        (blocks.filter fun block => refsOf refCounts block = 0).reverse ++
          manager.freeGpuBlocks }, ?_, rfl, rfl, rfl, rfl, ⟨⟨hsound.length_eq, ?_, ?_, ?_, ?_⟩,
        h.counted, h.blockSize_pos, fun other bs hlookup hnone => ?_⟩⟩
  · simp only [free, hblocks, htokens, hunpin, orPanic_some, Machine.ok_bind, hpush]
    rfl
  · refine List.nodup_append.mpr
      ⟨List.nodup_reverse.mpr ((h.untraced id blocks hblocks htokens).filter _),
        h.ledger.nodup, ?_⟩
    rintro block hblock _ hfree rfl
    exact h.not_mem_free (hheld block (hmem block hblock).1) hfree
  · intro block hblock
    rcases List.mem_append.mp hblock with hblock | hblock
    · exact h.lt (hheld block (hmem block hblock).1)
    · exact h.ledger.lt block hblock
  · intro block hblock
    rcases List.mem_append.mp hblock with hblock | hblock
    · exact (hmem block hblock).2
    · exact hsound.unreferenced block hblock
  · simpa [owed] using hsound.covered
  · obtain ⟨hother, hlookup⟩ := lookup_erase_some hlookup
    exact h.untraced other bs hlookup (by rwa [AList.lookup_erase_ne hother] at hnone)

theorem free_unknown (env : Env) {manager : BlockManager} {id : RequestId}
    (hblocks : manager.blockTable.lookup id = none) : manager.free env id = .ok manager := by
  simp only [free, hblocks]

/-- **No call panics, and every call keeps the ledger sound.** -/
theorem exec_owns (env : Env) {manager : BlockManager} (h : manager.Owns []) (call : Call) :
    ∃ manager', manager.exec env call = .ok manager' ∧ manager'.Owns [] := by
  cases call with
  | allocateWithPrefix id promptTokens =>
      obtain ⟨roomy, evicted, freed, _, hfailed | hgranted⟩ :=
        allocateWithPrefix_spec env h id promptTokens
      · obtain ⟨_, refCounts, heq, _, howns⟩ := hfailed
        exact ⟨_, by rw [exec, heq]; rfl, howns⟩
      · obtain ⟨_, manager', heq, _, _, howns⟩ := hgranted
        exact ⟨manager', by rw [exec, heq]; rfl, howns⟩
  | allocate id numTokens =>
      obtain ⟨manager', result, heq, howns, _⟩ := allocate_spec h id numTokens
      exact ⟨manager', by rw [exec, heq]; rfl, howns⟩
  | free id =>
      cases hblocks : manager.blockTable.lookup id with
      | none => exact ⟨manager, free_unknown env hblocks, h⟩
      | some blocks =>
          cases htokens : manager.promptTable.lookup id with
          | none =>
              obtain ⟨manager', heq, _, _, _, _, howns⟩ := free_untraced env h hblocks htokens
              exact ⟨manager', heq, howns⟩
          | some tokens =>
              obtain ⟨manager', _, heq, _, _, _, _, _, howns⟩ :=
                free_traced env h hblocks htokens
              exact ⟨manager', heq, howns⟩

theorem history_owns (env : Env) {blockSize : ℕ} (hsize : 0 < blockSize) (numGpuBlocks : ℕ)
    (calls : List Call) :
    ∃ manager, history env blockSize numGpuBlocks calls = .ok manager ∧ manager.Owns [] :=
  Machine.run_progress (P := fun _ _ => True) (fun _ call h _ => exec_owns env h call)
    (new_owns env hsize numGpuBlocks) (Machine.along_true _ _)

/-! ### No double ownership -/

/-- Fresh blocks of an allocation are in no other table and in no node of the cache. -/
theorem fresh_unshared (env : Env) {manager manager' : BlockManager} (h : manager.Owns [])
    {id : RequestId} {promptTokens : List Token} {blocks : List BlockId} {cached : ℕ}
    (hallocate : manager.allocateWithPrefix env id promptTokens =
      .ok (manager', some (blocks, cached))) :
    ∃ fresh, blocks = (manager.hit env promptTokens).1 ++ fresh ∧ fresh.Nodup ∧
      ∀ block ∈ fresh, block ∉ (manager.hit env promptTokens).1 ∧
        (∀ other bs, other ≠ id → manager'.blockTable.lookup other = some bs → block ∉ bs) ∧
        block ∉ manager'.radixCache.cachedBlocks := by
  obtain ⟨roomy, evicted, freed, hprepared, hfailed | hgranted⟩ :=
    allocateWithPrefix_spec env h id promptTokens
  · obtain ⟨_, refCounts, heq, _⟩ := hfailed
    rw [heq] at hallocate
    cases hallocate
  · obtain ⟨_, manager₂, heq, hmanager, _⟩ := hgranted
    rw [heq] at hallocate
    cases hallocate
    refine ⟨_, rfl, hprepared.owns.ledger.nodup.sublist (List.take_sublist _ _),
      fun block hblock => ?_⟩
    have hfree := List.mem_of_mem_take hblock
    have hzero : roomy.owed block + (manager.hit env promptTokens).1.count block = 0 := by
      have := hprepared.owns.ledger.unreferenced block hfree
      have := hprepared.owns.ledger.covered block
      omega
    refine ⟨fun hhit => ?_, fun other bs hother hlookup hmem => ?_, fun hcached => ?_⟩
    · have := List.count_pos_iff.mpr hhit
      omega
    · rw [hmanager, AList.lookup_insert_ne hother, ← hprepared.blockTable] at hlookup
      have := owed_pos_of_table hlookup hmem
      omega
    · rw [hmanager] at hcached
      have : 0 < roomy.owed block := owed_pos_of_cached hcached
      omega

/-- A block that is free after an allocation was in no request's table before it. -/
theorem freed_unheld (env : Env) {manager manager' : BlockManager} (h : manager.Owns [])
    {id : RequestId} {promptTokens : List Token} {result : Option (List BlockId × ℕ)}
    (hallocate : manager.allocateWithPrefix env id promptTokens = .ok (manager', result))
    {block : BlockId} (hfree : block ∈ manager'.freeGpuBlocks) {other : RequestId}
    {blocks : List BlockId}
    (hlookup : manager.blockTable.lookup other = some blocks) : block ∉ blocks := by
  intro hmem
  obtain ⟨roomy, evicted, freed, hprepared, hcases⟩ :=
    allocateWithPrefix_spec env h id promptTokens
  have hroomy : block ∈ roomy.freeGpuBlocks := by
    rcases hcases with ⟨_, refCounts, heq, _⟩ | ⟨_, manager₂, heq, hmanager, _⟩
    · rw [heq] at hallocate
      cases hallocate
      exact hfree
    · rw [heq] at hallocate
      cases hallocate
      rw [hmanager] at hfree
      exact List.mem_of_mem_drop hfree
  exact hprepared.owns.not_mem_free
    (owed_pos_of_table (hprepared.blockTable.symm ▸ hlookup) hmem) hroomy

/-- **No block has two owners.** Whatever calls were made on a fresh manager, none of them panicked,
a free block is listed nowhere and unreferenced, and no block is listed more often than it is
referenced. So fresh blocks are nobody else's, and what an allocation evicts and frees was in no
request's table. -/
theorem no_double_ownership (env : Env) {blockSize : ℕ} (hsize : 0 < blockSize)
    (numGpuBlocks : ℕ) (calls : List Call) :
    ∃ manager, history env blockSize numGpuBlocks calls = .ok manager ∧
      manager.freeGpuBlocks.Nodup ∧
      (∀ block ∈ manager.freeGpuBlocks,
        (∀ id blocks, manager.blockTable.lookup id = some blocks → block ∉ blocks) ∧
        block ∉ manager.radixCache.cachedBlocks ∧ manager.refCounts[block]? = some 0) ∧
      (∀ block, tally manager.blockTable block + manager.radixCache.cachedBlocks.count block ≤
        refsOf manager.refCounts block) ∧
      (∀ id promptTokens manager' blocks cached,
        manager.allocateWithPrefix env id promptTokens = .ok (manager', some (blocks, cached)) →
        ∃ fresh, blocks = (manager.hit env promptTokens).1 ++ fresh ∧ fresh.Nodup ∧
          ∀ block ∈ fresh, block ∉ (manager.hit env promptTokens).1 ∧
            (∀ other bs, other ≠ id → manager'.blockTable.lookup other = some bs → block ∉ bs) ∧
            block ∉ manager'.radixCache.cachedBlocks) ∧
      (∀ id numTokens manager' blocks,
        manager.allocate id numTokens = .ok (manager', some blocks) → blocks.Nodup ∧
          ∀ block ∈ blocks,
            (∀ other bs, other ≠ id → manager'.blockTable.lookup other = some bs → block ∉ bs) ∧
            block ∉ manager'.radixCache.cachedBlocks) ∧
      (∀ id promptTokens manager' result,
        manager.allocateWithPrefix env id promptTokens = .ok (manager', result) →
        ∀ block ∈ manager'.freeGpuBlocks,
          ∀ other blocks, manager.blockTable.lookup other = some blocks → block ∉ blocks) := by
  obtain ⟨manager, hrun, h⟩ := history_owns env hsize numGpuBlocks calls
  have hunlisted : ∀ block ∈ manager.freeGpuBlocks,
      (∀ id blocks, manager.blockTable.lookup id = some blocks → block ∉ blocks) ∧
        block ∉ manager.radixCache.cachedBlocks := fun block hfree =>
    ⟨fun id blocks hlookup hmem => h.not_mem_free (owed_pos_of_table hlookup hmem) hfree,
      fun hcached => h.not_mem_free (owed_pos_of_cached hcached) hfree⟩
  refine ⟨manager, hrun, h.ledger.nodup, fun block hfree => ⟨(hunlisted block hfree).1,
    (hunlisted block hfree).2, ?_⟩, h.sound.covered, ?_, ?_, ?_⟩
  · rw [getElem?_of_lt (h.ledger.length_eq.symm ▸ h.ledger.lt block hfree),
      h.ledger.unreferenced block hfree]
  · intro id promptTokens manager' blocks cached hallocate
    exact fresh_unshared env h hallocate
  · intro id numTokens manager' blocks hallocate
    obtain ⟨_, _, heq, _, hcache, hblocks, _⟩ := allocate_spec h id numTokens
    rw [heq] at hallocate
    cases hallocate
    obtain ⟨hstarts, htable⟩ := hblocks blocks rfl
    refine ⟨h.ledger.nodup.sublist hstarts.sublist, fun block hblock => ?_⟩
    have hfree := hunlisted block (hstarts.subset hblock)
    refine ⟨fun other bs hother hlookup => ?_, hcache ▸ hfree.2⟩
    rw [htable, AList.lookup_insert_ne hother] at hlookup
    exact hfree.1 other bs hlookup
  · intro id promptTokens manager' result hallocate block hfree other blocks hlookup
    exact freed_unheld env h hallocate hfree hlookup

theorem no_double_ownership_shared_prompt :
    ∃ manager, history .counting 4 9 [.allocateWithPrefix 1 [1, 2, 3, 4, 5], .free 1,
        .allocateWithPrefix 2 [1, 2, 3, 4, 5, 6], .allocate 3 8, .free 3] = .ok manager ∧
      manager.freeGpuBlocks.Nodup := by
  obtain ⟨manager, hrun, hnodup, _⟩ := @no_double_ownership .counting 4 (by decide) 9
    [.allocateWithPrefix 1 [1, 2, 3, 4, 5], .free 1, .allocateWithPrefix 2 [1, 2, 3, 4, 5, 6],
      .allocate 3 8, .free 3]
  exact ⟨manager, hrun, hnodup⟩

end BlockManager
end Kyro
