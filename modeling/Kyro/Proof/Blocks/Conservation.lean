import Kyro.Proof.Blocks.Room

/-!
# No block is lost, as long as nothing spills

Three paths lose blocks. `free` takes a reference for the cache even when the prompt is there
already and no node is added; the eviction that `insert` runs by itself drops the blocks it returns;
and a failed allocation unpins blocks whose node its own eviction has just removed, without pushing
them onto the free list. `Lossless` names the calls that take none of them. Over histories of such
calls the ledger is not only sound but exact, and an exact ledger has no lost block.
-/

namespace Kyro

open RefPool Tally

namespace BlockManager

/-- The calls of the scheduler: it allocates with a prefix, for ids that are not live, and frees. -/
def SchedulerCall (manager : BlockManager) : Call → Prop
  | .allocateWithPrefix id _ => manager.blockTable.lookup id = none
  | .allocate _ _ => False
  | .free _ => True

instance (manager : BlockManager) : DecidablePred manager.SchedulerCall
  | .allocateWithPrefix id _ => inferInstanceAs (Decidable (manager.blockTable.lookup id = none))
  | .allocate _ _ => inferInstanceAs (Decidable False)
  | .free _ => inferInstanceAs (Decidable True)

/-- The allocation gives up after an eviction that took the last other reference of a block in the
prompt's own hit. -/
def StrandsHit (env : Env) (manager : BlockManager) (promptTokens : List Token) : Prop :=
  ¬ manager.Fits env promptTokens ∧ ∃ block ∈ (manager.hit env promptTokens).1,
    refsOf manager.refCounts block = (manager.evictable env promptTokens).count block

/-- The prompt of a freed request leads to a vacant place in the tree, and the cache has room for
its blocks. -/
def DepositFits (manager : BlockManager) (id : RequestId) : Prop :=
  ∀ blocks ∈ manager.blockTable.lookup id, ∀ tokens ∈ manager.promptTable.lookup id,
      (blocks ≠ [] → (RadixNode.attachPath manager.radixCache.root tokens).isSome) ∧
      manager.radixCache.numCachedBlocks + blocks.length ≤ manager.radixCache.maxCapacity

/-- The call takes none of the three paths that lose blocks. -/
def Lossless (env : Env) (manager : BlockManager) : Call → Prop
  | .allocateWithPrefix _ promptTokens => ¬ manager.StrandsHit env promptTokens
  | .allocate _ _ => True
  | .free id => manager.DepositFits id

instance (manager : BlockManager) (id : RequestId) : Decidable (manager.DepositFits id) :=
  inferInstanceAs (Decidable (∀ blocks ∈ manager.blockTable.lookup id,
    ∀ tokens ∈ manager.promptTable.lookup id,
      (blocks ≠ [] → (RadixNode.attachPath manager.radixCache.root tokens).isSome) ∧
      manager.radixCache.numCachedBlocks + blocks.length ≤ manager.radixCache.maxCapacity))

instance (env : Env) (manager : BlockManager) (call : Call) :
    Decidable (manager.Lossless env call) :=
  match call with
  | .allocateWithPrefix _ promptTokens =>
    inferInstanceAs (Decidable (¬ (¬ manager.Fits env promptTokens ∧
      ∃ block ∈ (manager.hit env promptTokens).1,
        refsOf manager.refCounts block = (manager.evictable env promptTokens).count block)))
  | .allocate _ _ => inferInstanceAs (Decidable True)
  | .free id => inferInstanceAs (Decidable (manager.DepositFits id))

/-- A block that is on the free list, in a request's table or in a node of the cache. -/
def Reachable (manager : BlockManager) (block : BlockId) : Prop :=
  block ∈ manager.freeGpuBlocks ∨
    (∃ id blocks, manager.blockTable.lookup id = some blocks ∧ block ∈ blocks) ∨
    block ∈ manager.radixCache.cachedBlocks

theorem reachable_iff {manager : BlockManager} {block : BlockId} :
    manager.Reachable block ↔ block ∈ manager.freeGpuBlocks ∨ 0 < manager.owed block := by
  rw [Reachable, owed, Nat.add_pos_iff_pos_or_pos, tally_pos, List.count_pos_iff]

instance (manager : BlockManager) : DecidablePred manager.Reachable :=
  fun _ => decidable_of_iff _ reachable_iff.symm

/-- The ledger is exact: every block has one reference for each place it is listed in. -/
structure Conserved (manager : BlockManager) : Prop where
  owns : manager.Owns []
  exact : ∀ block, refsOf manager.refCounts block = manager.owed block
  complete : ∀ block < manager.numGpuBlocks, manager.owed block = 0 →
    block ∈ manager.freeGpuBlocks
  traced : ∀ id blocks, manager.blockTable.lookup id = some blocks →
    (manager.promptTable.lookup id).isSome

theorem Conserved.reachable {manager : BlockManager} (h : manager.Conserved) {block : BlockId}
    (hlt : block < manager.numGpuBlocks) : manager.Reachable block := by
  rw [reachable_iff]
  rcases Nat.eq_zero_or_pos (manager.owed block) with hzero | hpos
  · exact Or.inl (h.complete block hlt hzero)
  · exact Or.inr hpos

theorem new_conserved (env : Env) {blockSize : ℕ} (hsize : 0 < blockSize) (numGpuBlocks : ℕ) :
    (new env blockSize numGpuBlocks).Conserved where
  owns := new_owns env hsize numGpuBlocks
  exact block := by
    change refsOf (List.replicate numGpuBlocks 0) block = 0
    exact refsOf_replicate_zero numGpuBlocks block
  complete block hlt _ := by simpa [new] using hlt
  traced id blocks hlookup := by simp [new] at hlookup

section Allocate

variable {env : Env} {manager roomy : BlockManager} {promptTokens : List Token}
  {evicted freed : List BlockId}

/-- The ledger stays exact through pinning and eviction. -/
theorem Prepared.exact (h : Prepared env manager promptTokens roomy evicted freed)
    (hconserved : manager.Conserved) (block : BlockId) :
    refsOf roomy.refCounts block =
      roomy.owed block + (manager.hit env promptTokens).1.count block := by
  have hrefs := h.refs block
  have hcount := h.count block
  have hexact := hconserved.exact block
  rw [owed] at hexact
  rw [owed, h.blockTable]
  omega

theorem Prepared.complete (h : Prepared env manager promptTokens roomy evicted freed)
    (hconserved : manager.Conserved) {block : BlockId} (hlt : block < manager.numGpuBlocks)
    (howed : roomy.owed block = 0)
    (hhit : (manager.hit env promptTokens).1.count block = 0) :
    block ∈ roomy.freeGpuBlocks := by
  rw [h.free, List.mem_append]
  have hcount := h.count block
  have hexact := hconserved.exact block
  rw [owed] at hexact
  rw [owed, h.blockTable] at howed
  rcases Nat.eq_zero_or_pos (evicted.count block) with hzero | hpos
  · refine Or.inr (hconserved.complete block hlt ?_)
    rw [owed]
    omega
  · refine Or.inl ((h.mem_freed block).mpr ⟨List.count_pos_iff.mp hpos, ?_⟩)
    omega

/-- Where the allocation gives up, a block of the hit that nobody else refers to any more is
stranded: only evicted nodes referred to it. -/
theorem Prepared.strandsHit (h : Prepared env manager promptTokens roomy evicted freed)
    (hconserved : manager.Conserved)
    (hfew : roomy.freeGpuBlocks.length < manager.needed env promptTokens) {block : BlockId}
    (howed : roomy.owed block = 0) (hmem : block ∈ (manager.hit env promptTokens).1) :
    manager.StrandsHit env promptTokens := by
  have hcount := h.count block
  have hexact := hconserved.exact block
  rw [owed, h.blockTable] at howed
  rw [owed] at hexact
  have hcached := List.count_pos_iff.mpr
    (manager.radixCache.mem_of_mem_matchPrefix env promptTokens hmem)
  have hevicted : evicted ≠ [] := by
    rintro rfl
    simp only [List.count_nil] at hcount
    omega
  have hshort : manager.freeGpuBlocks.length < manager.needed env promptTokens := by
    by_contra hge
    exact hevicted (h.enough (Nat.le_of_not_lt hge))
  refine ⟨fun hfits => ?_, block, hmem, ?_⟩
  · exact absurd (h.fits_iff.mpr hfits) (Nat.not_le.mpr hfew)
  · rw [h.evictable_eq hshort]
    omega

/-- Giving up, with the pins dropped. -/
theorem Prepared.gaveUp_conserved (h : Prepared env manager promptTokens roomy evicted freed)
    (hconserved : manager.Conserved) (hkept : ¬ manager.StrandsHit env promptTokens)
    (hfew : roomy.freeGpuBlocks.length < manager.needed env promptTokens) {refCounts : List ℕ}
    (hrefs : ∀ block, refsOf refCounts block + (manager.hit env promptTokens).1.count block =
      refsOf roomy.refCounts block) (howns : Owns { roomy with refCounts } []) :
    Conserved { roomy with refCounts } := by
  refine ⟨howns, fun block => ?_, fun block hlt howed => ?_, ?_⟩
  · have := h.exact hconserved block
    have := hrefs block
    change refsOf refCounts block = roomy.owed block
    omega
  · change roomy.owed block = 0 at howed
    rw [h.numGpuBlocks] at hlt
    refine h.complete hconserved hlt howed ?_
    by_contra hne
    exact hkept (h.strandsHit hconserved hfew howed
      (List.count_pos_iff.mp (Nat.pos_of_ne_zero hne)))
  · intro other blocks hlookup
    change roomy.blockTable.lookup other = some blocks at hlookup
    change (roomy.promptTable.lookup other).isSome
    rw [h.blockTable] at hlookup
    rw [h.promptTable]
    exact hconserved.traced other blocks hlookup

/-- Handing out the hit and fresh blocks to an id without a table. -/
theorem Prepared.handedOut_conserved {manager' : BlockManager}
    (h : Prepared env manager promptTokens roomy evicted freed)
    (hconserved : manager.Conserved) {id : RequestId} (hfresh : manager.blockTable.lookup id = none)
    (hmanager : manager' = { roomy with
      refCounts := manager'.refCounts
      freeGpuBlocks := roomy.freeGpuBlocks.drop (manager.needed env promptTokens)
      blockTable := manager.blockTable.insert id ((manager.hit env promptTokens).1 ++
        roomy.freeGpuBlocks.take (manager.needed env promptTokens))
      promptTable := manager.promptTable.insert id promptTokens })
    (hrefs : ∀ block, refsOf manager'.refCounts block = refsOf roomy.refCounts block +
      (roomy.freeGpuBlocks.take (manager.needed env promptTokens)).count block)
    (howns : manager'.Owns []) : manager'.Conserved := by
  have howed : ∀ block, manager'.owed block = roomy.owed block +
      (manager.hit env promptTokens).1.count block +
        (roomy.freeGpuBlocks.take (manager.needed env promptTokens)).count block := by
    intro block
    rw [hmanager]
    simp only [owed]
    rw [tally_insert, tally_erase_of_lookup_none hfresh, List.count_append, h.blockTable]
    omega
  refine ⟨howns, fun block => ?_, fun block hlt hzero => ?_, ?_⟩
  · have := h.exact hconserved block
    have := hrefs block
    have := howed block
    omega
  · have := howed block
    have hlt' : block < manager.numGpuBlocks := by
      rw [hmanager] at hlt
      exact h.numGpuBlocks ▸ hlt
    have hfree := h.complete hconserved hlt' (by omega) (by omega)
    rw [← List.take_append_drop (manager.needed env promptTokens) roomy.freeGpuBlocks,
      List.mem_append] at hfree
    rw [hmanager]
    refine hfree.resolve_left fun hmem => ?_
    have := List.count_pos_iff.mpr hmem
    omega
  · intro other blocks hlookup
    rw [hmanager] at hlookup ⊢
    by_cases hother : other = id
    · subst other
      simp
    · rw [AList.lookup_insert_ne hother] at hlookup
      rw [AList.lookup_insert_ne hother]
      exact hconserved.traced other blocks hlookup

end Allocate

theorem allocateWithPrefix_conserved (env : Env) {manager manager' : BlockManager}
    (h : manager.Conserved) {id : RequestId} {promptTokens : List Token}
    (hfresh : manager.blockTable.lookup id = none)
    (hkept : ¬ manager.StrandsHit env promptTokens) {result : Option (List BlockId × ℕ)}
    (hallocate : manager.allocateWithPrefix env id promptTokens = .ok (manager', result)) :
    manager'.Conserved := by
  obtain ⟨roomy, evicted, freed, hprepared, ⟨hfew, refCounts, heq, hrefs, howns⟩ |
      ⟨henough, manager₂, heq, hmanager, hrefs, howns⟩⟩ :=
    allocateWithPrefix_spec env h.owns id promptTokens
  · rw [heq] at hallocate
    cases hallocate
    exact hprepared.gaveUp_conserved h hkept hfew hrefs howns
  · rw [heq] at hallocate
    cases hallocate
    exact hprepared.handedOut_conserved h hfresh hmanager hrefs howns

theorem free_conserved (env : Env) {manager manager' : BlockManager} (h : manager.Conserved)
    {id : RequestId} (hdeposit : manager.DepositFits id)
    (hfree : manager.free env id = .ok manager') : manager'.Conserved := by
  cases hblocks : manager.blockTable.lookup id with
  | none =>
      rw [free_unknown env hblocks] at hfree
      cases hfree
      exact h
  | some blocks =>
      obtain ⟨tokens, htokens⟩ := Option.isSome_iff_exists.mp (h.traced id blocks hblocks)
      obtain ⟨hattach, hroom⟩ := hdeposit blocks hblocks tokens htokens
      obtain ⟨manager₂, removed, heq, hmanager, hrefs, hperm, hkept, _, howns⟩ :=
        free_traced env h.owns hblocks htokens
      rw [heq] at hfree
      cases hfree
      have hinserted : (manager.radixCache.insertedPaths tokens blocks).flatMap endBlocks =
          blocks := by
        rw [RadixCache.flatMap_insertedPaths]
        by_cases hempty : blocks = []
        · simp [hempty]
        · rw [if_pos (hattach hempty)]
      obtain rfl : removed = [] := hkept (by rw [hinserted]; exact hroom)
      have howed : ∀ block, manager'.owed block = manager.owed block := by
        intro block
        have hcount := (hperm.flatMap_right endBlocks).count_eq block
        rw [List.flatMap_append, hinserted, List.nil_append, List.count_append] at hcount
        have htable : manager'.blockTable = manager.blockTable.erase id := by rw [hmanager]
        rw [owed, owed, htable, tally_of_lookup hblocks, RadixCache.cachedBlocks_eq,
          RadixCache.cachedBlocks_eq, ← hcount]
        omega
      refine ⟨howns, fun block => ?_, fun block hlt hzero => ?_, fun other bs hlookup => ?_⟩
      · rw [hrefs, h.exact, howed]
      · rw [howed] at hzero
        rw [hmanager] at hlt ⊢
        exact h.complete block hlt hzero
      · rw [hmanager] at hlookup ⊢
        obtain ⟨hother, hlookup⟩ := lookup_erase_some hlookup
        rw [AList.lookup_erase_ne hother]
        exact h.traced other bs hlookup

theorem exec_conserved (env : Env) {manager manager' : BlockManager} (h : manager.Conserved)
    {call : Call} (hscope : manager.SchedulerCall call) (hlossless : manager.Lossless env call)
    (hexec : manager.exec env call = .ok manager') : manager'.Conserved := by
  cases call with
  | allocateWithPrefix id promptTokens =>
      rw [exec] at hexec
      cases hallocate : manager.allocateWithPrefix env id promptTokens with
      | error fault =>
          rw [hallocate] at hexec
          cases hexec
      | ok pair =>
          obtain ⟨manager₂, result⟩ := pair
          rw [hallocate] at hexec
          cases hexec
          exact allocateWithPrefix_conserved env h hscope hlossless hallocate
  | allocate id numTokens => exact hscope.elim
  | free id => exact free_conserved env h hlossless hexec

/-! ### No block is lost -/

theorem exec_numGpuBlocks (env : Env) {manager manager' : BlockManager} (h : manager.Conserved)
    {call : Call} (hscope : manager.SchedulerCall call)
    (hexec : manager.exec env call = .ok manager') :
    manager'.numGpuBlocks = manager.numGpuBlocks := by
  cases call with
  | allocateWithPrefix id promptTokens =>
      obtain ⟨roomy, evicted, freed, hprepared, ⟨_, _, heq, _⟩ | ⟨_, _, heq, hmanager, _⟩⟩ :=
        allocateWithPrefix_spec env h.owns id promptTokens
      · rw [exec, heq] at hexec
        cases hexec
        exact hprepared.numGpuBlocks
      · rw [exec, heq] at hexec
        cases hexec
        rw [hmanager]
        exact hprepared.numGpuBlocks
  | allocate id numTokens => exact hscope.elim
  | free id =>
      rw [exec] at hexec
      cases hblocks : manager.blockTable.lookup id with
      | none =>
          rw [free_unknown env hblocks] at hexec
          cases hexec
          rfl
      | some blocks =>
          obtain ⟨tokens, htokens⟩ := Option.isSome_iff_exists.mp (h.traced id blocks hblocks)
          obtain ⟨_, _, heq, hmanager, _⟩ := free_traced env h.owns hblocks htokens
          rw [heq] at hexec
          cases hexec
          rw [hmanager]

/-- **No block is lost in a history whose calls take none of the three paths**: every block is on
the free list, in the table of a request or in a node of the cache. -/
theorem no_block_lost (env : Env) {blockSize : ℕ} (hsize : 0 < blockSize) (numGpuBlocks : ℕ)
    (calls : List Call)
    (hcalls : Machine.Along (exec env)
      (fun manager call => manager.SchedulerCall call ∧ manager.Lossless env call)
      (new env blockSize numGpuBlocks) calls)
    {manager : BlockManager} (hrun : history env blockSize numGpuBlocks calls = .ok manager)
    {block : BlockId} (hlt : block < numGpuBlocks) : manager.Reachable block := by
  have hkept : manager.Conserved ∧ manager.numGpuBlocks = numGpuBlocks :=
    Machine.run_invariant
      (I := fun manager => manager.Conserved ∧ manager.numGpuBlocks = numGpuBlocks)
      (fun _ _ _ ⟨hconserved, hnum⟩ ⟨hscope, hlossless⟩ hexec =>
        ⟨exec_conserved env hconserved hscope hlossless hexec,
          (exec_numGpuBlocks env hconserved hscope hexec).trans hnum⟩)
      ⟨new_conserved env hsize numGpuBlocks, rfl⟩ hcalls hrun
  exact hkept.1.reachable (hkept.2 ▸ hlt)

theorem no_block_lost_two_prompts :
    ∃ manager, history .counting 4 9 [.allocateWithPrefix 1 [1, 2, 3, 4], .free 1,
        .allocateWithPrefix 2 [1, 2, 3, 4, 5], .free 2] = .ok manager ∧ manager.Reachable 7 := by
  obtain ⟨manager, hrun, -⟩ := @history_owns .counting 4 (by decide) 9
    [.allocateWithPrefix 1 [1, 2, 3, 4], .free 1, .allocateWithPrefix 2 [1, 2, 3, 4, 5], .free 2]
  exact ⟨manager, hrun,
    no_block_lost .counting (by decide) 9 _ (by decide +kernel) hrun (by decide)⟩

/-- Two requests share a prompt and are freed; a deposit of two blocks overflows a cache of one; and
a prompt too long for the memory has its own hit evicted under it. Each loses a block. -/
theorem block_lost :
    (Machine.Along (exec .counting) SchedulerCall (new .counting 4 6)
        [.allocateWithPrefix 1 [1, 2, 3, 4], .allocateWithPrefix 2 [1, 2, 3, 4], .free 1,
          .free 2] ∧
      ∃ manager, history .counting 4 6 [.allocateWithPrefix 1 [1, 2, 3, 4],
          .allocateWithPrefix 2 [1, 2, 3, 4], .free 1, .free 2] = .ok manager ∧
        ¬ manager.Reachable 4) ∧
    (∃ manager, history .counting 4 3 [.allocateWithPrefix 1 [1, 2, 3, 4, 5], .free 1] =
        .ok manager ∧ ¬ manager.Reachable 1 ∧ ¬ manager.Reachable 2) ∧
    ∃ manager, history .counting 1 3 [.allocateWithPrefix 1 [1], .free 1,
        .allocateWithPrefix 2 [1, 2, 3, 4]] = .ok manager ∧ ¬ manager.Reachable 2 := by
  decide +kernel

end BlockManager
end Kyro
