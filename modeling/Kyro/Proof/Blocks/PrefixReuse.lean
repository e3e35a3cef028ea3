import Kyro.Proof.Blocks.Ownership

/-!
# What a hit was computed for

`insert` passes the children of the tree by the first token of their run, `match_prefix` compares
the whole run. So a prompt that diverges inside a node on its way is filed under a path that spells
other tokens. As long as no deposit diverges like that, every path of the tree spells the start of a
prompt that was freed, and every hit is the start of one.
-/

namespace Kyro

namespace BlockManager

/-- The prompt of the request that a call frees. -/
def freedPrompt (manager : BlockManager) : Call → Option (List Token)
  | .free id => (manager.blockTable.lookup id).bind fun _ => manager.promptTable.lookup id
  | _ => none

/-- The manager after a sequence of calls on a fresh one, and the prompts that were freed. -/
def tracedHistory (env : Env) (blockSize numGpuBlocks : ℕ) (calls : List Call) :
    Except Fault (BlockManager × List (List Token)) :=
  Machine.run (Machine.recorded (exec env) fun manager call => (freedPrompt manager call).toList)
    (new env blockSize numGpuBlocks, []) calls

/-- The nodes that the deposit of a prompt passes hold the tokens of the prompt. -/
def DepositSpells (manager : BlockManager) (call : Call) : Prop :=
  ∀ tokens ∈ freedPrompt manager call,
    ∀ path ∈ RadixNode.attachPath manager.radixCache.root tokens, spell path <+: tokens

instance (manager : BlockManager) (call : Call) : Decidable (manager.DepositSpells call) :=
  inferInstanceAs (Decidable (∀ tokens ∈ freedPrompt manager call,
    ∀ path ∈ RadixNode.attachPath manager.radixCache.root tokens, spell path <+: tokens))

/-- Every path of the tree spells the start of a freed prompt, or nothing. -/
structure Spelled (manager : BlockManager) (freed : List (List Token)) : Prop where
  owns : manager.Owns []
  spells : ∀ path ∈ manager.radixCache.contents,
    spell path = [] ∨ ∃ tokens ∈ freed, spell path <+: tokens

theorem new_spelled (env : Env) {blockSize : ℕ} (hsize : 0 < blockSize) (numGpuBlocks : ℕ) :
    (new env blockSize numGpuBlocks).Spelled [] where
  owns := new_owns env hsize numGpuBlocks
  spells path hpath := by
    obtain rfl : path = [] := List.mem_singleton.mp hpath
    exact Or.inl rfl

/-- A call adds at most the path of its deposit to the tree. -/
theorem exec_contents (env : Env) {manager manager' : BlockManager} (h : manager.Owns [])
    {call : Call} (hexec : manager.exec env call = .ok manager') {path : List PathStep}
    (hpath : path ∈ manager'.radixCache.contents) :
    path ∈ manager.radixCache.contents ∨ ∃ tokens ∈ freedPrompt manager call,
      ∃ id blocks, manager.blockTable.lookup id = some blocks ∧
        manager.promptTable.lookup id = some tokens ∧
        path ∈ manager.radixCache.insertedPaths tokens blocks := by
  cases call with
  | allocateWithPrefix id promptTokens =>
      have hroomy : ∀ {roomy evicted freed}, Prepared env manager promptTokens roomy evicted freed →
          path ∈ roomy.radixCache.contents → path ∈ manager.radixCache.contents := by
        intro roomy evicted freed hprepared hmem
        obtain ⟨removed, _, hperm⟩ := hprepared.contents
        exact hperm.mem_iff.mpr (List.mem_append_right _ hmem)
      obtain ⟨roomy, evicted, freed, hprepared, ⟨_, _, heq, _⟩ | ⟨_, _, heq, hmanager, _⟩⟩ :=
        allocateWithPrefix_spec env h id promptTokens
      · rw [exec, heq] at hexec
        cases hexec
        exact Or.inl (hroomy hprepared hpath)
      · rw [exec, heq] at hexec
        cases hexec
        rw [hmanager] at hpath
        exact Or.inl (hroomy hprepared hpath)
  | allocate id numTokens =>
      obtain ⟨_, _, heq, _, hcache, _⟩ := allocate_spec h id numTokens
      rw [exec, heq] at hexec
      cases hexec
      exact Or.inl (hcache ▸ hpath)
  | free id =>
      rw [exec] at hexec
      cases hblocks : manager.blockTable.lookup id with
      | none =>
          rw [free_unknown env hblocks] at hexec
          cases hexec
          exact Or.inl hpath
      | some blocks =>
          cases htokens : manager.promptTable.lookup id with
          | none =>
              obtain ⟨_, heq, _, _, _, hcache, _⟩ := free_untraced env h hblocks htokens
              rw [heq] at hexec
              cases hexec
              exact Or.inl (hcache ▸ hpath)
          | some tokens =>
              obtain ⟨_, removed, heq, _, _, hperm, _⟩ := free_traced env h hblocks htokens
              rw [heq] at hexec
              cases hexec
              rcases List.mem_append.mp (hperm.mem_iff.mpr (List.mem_append_right _ hpath)) with
                hinserted | hold
              · exact Or.inr ⟨tokens, by simp [freedPrompt, hblocks, htokens], id, blocks,
                  hblocks, htokens, hinserted⟩
              · exact Or.inl hold

/-- A deposit whose walk spells its prompt adds a path that spells the prompt. -/
theorem spell_of_mem_insertedPaths {cache : RadixCache} {tokens : List Token}
    {blocks : List BlockId} {path : List PathStep}
    (hwalk : ∀ p ∈ RadixNode.attachPath cache.root tokens, spell p <+: tokens)
    (hpath : path ∈ cache.insertedPaths tokens blocks) : spell path = tokens := by
  rw [RadixCache.insertedPaths] at hpath
  cases hattach : RadixNode.attachPath cache.root tokens with
  | none => simp [hattach] at hpath
  | some p =>
      rw [hattach, List.mem_singleton] at hpath
      rw [hpath, spell_append]
      simpa using (List.prefix_iff_eq_append.mp (hwalk p hattach))

theorem exec_spelled (env : Env) {manager manager' : BlockManager} {freed : List (List Token)}
    (h : manager.Spelled freed) {call : Call} (hdeposit : manager.DepositSpells call)
    (hexec : manager.exec env call = .ok manager') :
    manager'.Spelled (freed ++ (freedPrompt manager call).toList) := by
  obtain ⟨_, heq, howns⟩ := exec_owns env h.owns call
  rw [hexec] at heq
  cases heq
  refine ⟨howns, fun path hpath => ?_⟩
  rcases exec_contents env h.owns hexec hpath with
    hold | ⟨tokens, htokens, _, blocks, _, _, hinserted⟩
  · rcases h.spells path hold with hnil | ⟨tokens, hmem, hstart⟩
    · exact Or.inl hnil
    · exact Or.inr ⟨tokens, List.mem_append_left _ hmem, hstart⟩
  · refine Or.inr ⟨tokens, List.mem_append_right _ (Option.mem_toList.mpr htokens), ?_⟩
    rw [spell_of_mem_insertedPaths (hdeposit tokens htokens) hinserted]

/-- A manager with block size zero divides by it at every allocation. -/
theorem blockSize_ne_zero (env : Env) {manager : BlockManager} {id : RequestId}
    {promptTokens : List Token} {result : BlockManager × Option (List BlockId × ℕ)}
    (hallocate : manager.allocateWithPrefix env id promptTokens = .ok result) :
    manager.blockSize ≠ 0 := by
  intro hzero
  obtain ⟨⟨pinned, cachedBlocks, cachedTokenCount⟩, hpin, hrest⟩ :=
    Machine.bind_eq_ok.mp hallocate
  obtain ⟨refCounts, _, heq⟩ := Machine.bind_eq_ok.mp hpin
  cases heq
  obtain ⟨needed, hneeded, _⟩ := Machine.bind_eq_ok.mp hrest
  rw [divCeil, if_pos hzero] at hneeded
  cases hneeded

theorem exec_of_zero (env : Env) {manager manager' : BlockManager} {call : Call}
    (hzero : manager.blockSize = 0) (hempty : manager.blockTable = ∅)
    (hexec : manager.exec env call = .ok manager') : manager' = manager := by
  cases call with
  | allocateWithPrefix id promptTokens =>
      rw [exec] at hexec
      cases hallocate : manager.allocateWithPrefix env id promptTokens with
      | ok result => exact absurd hzero (blockSize_ne_zero env hallocate)
      | error fault =>
          rw [hallocate] at hexec
          cases hexec
  | allocate id numTokens =>
      rw [exec, allocate, divCeil, if_pos hzero] at hexec
      cases hexec
  | free id =>
      rw [exec, free_unknown env (by rw [hempty]; rfl)] at hexec
      cases hexec
      rfl

theorem history_spelled (env : Env) {blockSize numGpuBlocks : ℕ} {calls : List Call}
    (hcalls : Machine.Along (exec env) DepositSpells (new env blockSize numGpuBlocks) calls)
    {manager : BlockManager} {freed : List (List Token)}
    (hrun : tracedHistory env blockSize numGpuBlocks calls = .ok (manager, freed)) :
    manager.Spelled freed ∨ manager.blockSize = 0 := by
  rcases Nat.eq_zero_or_pos blockSize with hzero | hsize
  · refine Or.inr (Machine.run_invariant
      (I := fun manager => manager.blockSize = 0 ∧ manager.blockTable = ∅)
      (fun m call m' ⟨hsize, htable⟩ _ hexec => ?_) ⟨hzero, rfl⟩ (Machine.along_true _ _)
      (Machine.run_of_recorded hrun)).1
    rw [exec_of_zero env hsize htable hexec]
    exact ⟨hsize, htable⟩
  · refine Or.inl (Machine.run_invariant (I := fun t => t.1.Spelled t.2)
      (fun t call t' h hdeposit hexec => ?_) (new_spelled env hsize numGpuBlocks)
      (Machine.along_recorded.mpr hcalls) hrun)
    obtain ⟨hstep, hrecord⟩ := Machine.recorded_eq_ok.mp hexec
    rw [hrecord]
    exact exec_spelled env h hdeposit hstep

/-- **A hit is the start of a freed prompt**, where no deposit has been filed under other tokens. -/
theorem hit_of_freed_prompt (env : Env) (blockSize numGpuBlocks : ℕ) (calls : List Call)
    (hcalls : Machine.Along (exec env) DepositSpells (new env blockSize numGpuBlocks) calls)
    {manager : BlockManager} {freed : List (List Token)}
    (hrun : tracedHistory env blockSize numGpuBlocks calls = .ok (manager, freed))
    {id : RequestId} {promptTokens : List Token} {manager' : BlockManager}
    {blocks : List BlockId} {cached : ℕ}
    (hallocate : manager.allocateWithPrefix env id promptTokens =
      .ok (manager', some (blocks, cached)))
    (hcached : 0 < cached) :
    ∃ tokens ∈ freed, cached ≤ tokens.length ∧
      tokens.take cached = promptTokens.take cached := by
  rcases history_spelled env hcalls hrun with hspelled | hzero
  · obtain ⟨path, hpath, hquery, _, hlength⟩ :=
      manager.radixCache.matchPrefix_path env promptTokens
    obtain ⟨_, _, _, _, ⟨_, _, heq, _⟩ | ⟨_, _, heq, _⟩⟩ :=
      allocateWithPrefix_spec env hspelled.owns id promptTokens
    · rw [heq] at hallocate
      cases hallocate
    · rw [heq] at hallocate
      cases hallocate
      rw [hit, hlength] at hcached ⊢
      rcases hspelled.spells path hpath with hnil | ⟨tokens, hmem, hstart⟩
      · rw [hnil] at hcached
        exact absurd hcached (Nat.lt_irrefl 0)
      · exact ⟨tokens, hmem, hstart.length_le, by
          rw [← List.prefix_iff_eq_take.mp hstart, ← List.prefix_iff_eq_take.mp hquery]⟩
  · exact absurd hzero (blockSize_ne_zero env hallocate)

theorem hit_of_freed_prompt_extended :
    ∃ traced, tracedHistory .counting 4 9 [.allocateWithPrefix 1 [1, 2], .free 1] = .ok traced ∧
      ∃ tokens ∈ traced.2, 2 ≤ tokens.length ∧ tokens.take 2 = [1, 2, 3].take 2 := by
  have hrun : ∃ traced,
      tracedHistory .counting 4 9 [.allocateWithPrefix 1 [1, 2], .free 1] = .ok traced ∧
      ∃ result, traced.1.allocateWithPrefix .counting 2 [1, 2, 3] = .ok result ∧
        result.2 = some ([8, 7], 2) := by
    decide +kernel
  obtain ⟨⟨manager, freed⟩, hrun, ⟨manager', result⟩, hallocate, rfl⟩ := hrun
  exact ⟨_, hrun, hit_of_freed_prompt .counting 4 9 _ (by decide +kernel) hrun hallocate
    (by decide)⟩

/-- The second prompt leaves the first one's node after one token and is filed under it, where a
third prompt finds three tokens that no request was ever freed with. -/
theorem hit_of_no_freed_prompt :
    ∃ traced, tracedHistory .counting 4 6 [.allocateWithPrefix 1 [1, 2], .free 1,
        .allocateWithPrefix 2 [1, 3, 4], .free 2] = .ok traced ∧
      (∃ result, traced.1.allocateWithPrefix .counting 3 [1, 2, 4] = .ok result ∧
        result.2 = some ([5, 4], 3)) ∧
      ¬ ∃ tokens ∈ traced.2, 3 ≤ tokens.length ∧ tokens.take 3 = [1, 2, 4].take 3 := by
  decide +kernel

end BlockManager
end Kyro
