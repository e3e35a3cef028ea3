import Kyro.Proof.Blocks.PrefixReuse
import Kyro.Proof.Radix.Longest
import Mathlib.Algebra.Order.Floor.Div

/-!
# The blocks of a prompt have room for it

A node of the cache holds the end of a prompt and the blocks of the whole prompt, so its blocks have
room for its run, and those of a path have room for what the path spells. An allocation takes the
blocks of a path and as many fresh ones as the rest of its prompt needs.
-/

namespace Kyro

open Tally

namespace BlockManager

/-- The blocks have a slot for every token. -/
def Covers (blockSize : ℕ) (blocks : List BlockId) (tokens : List Token) : Prop :=
  tokens.length ≤ blocks.length * blockSize

theorem covers_append {blockSize : ℕ} {blocks blocks' : List BlockId} {tokens tokens' : List Token}
    (h : Covers blockSize blocks tokens) (h' : Covers blockSize blocks' tokens') :
    Covers blockSize (blocks ++ blocks') (tokens ++ tokens') := by
  rw [Covers, List.length_append, List.length_append, Nat.add_mul]
  exact Nat.add_le_add h h'

/-- The blocks of a path have room for what it spells if those of every node have. -/
theorem covers_path {blockSize : ℕ} {path : List PathStep}
    (h : ∀ s ∈ path, Covers blockSize s.blockIds s.tokens) :
    Covers blockSize (pathBlocks path) (spell path) := by
  induction path with
  | nil => exact Nat.zero_le _
  | cons s path ih =>
      obtain ⟨hhead, htail⟩ := List.forall_mem_cons.mp h
      rw [spell_cons, pathBlocks, List.flatMap_cons]
      exact covers_append hhead (ih htail)

/-- Every request with blocks and a prompt has room for the prompt. -/
def TablesCovered (blockSize : ℕ) (blockTable : Table RequestId BlockId)
    (promptTable : Table RequestId Token) : Prop :=
  ∀ id blocks tokens, blockTable.lookup id = some blocks → promptTable.lookup id = some tokens →
    Covers blockSize blocks tokens

section Tables

variable {blockSize : ℕ} {blockTable : Table RequestId BlockId}
  {promptTable : Table RequestId Token}

theorem TablesCovered.insert (h : TablesCovered blockSize blockTable promptTable) (id : RequestId)
    {blocks : List BlockId} {tokens : List Token} (hcovers : Covers blockSize blocks tokens) :
    TablesCovered blockSize (blockTable.insert id blocks) (promptTable.insert id tokens) := by
  intro other blocks' tokens' hblocks htokens
  by_cases hother : other = id
  · subst hother
    rw [AList.lookup_insert] at hblocks htokens
    cases hblocks
    cases htokens
    exact hcovers
  · rw [AList.lookup_insert_ne hother] at hblocks htokens
    exact h other blocks' tokens' hblocks htokens

theorem TablesCovered.erase (h : TablesCovered blockSize blockTable promptTable) (id : RequestId) :
    TablesCovered blockSize (blockTable.erase id) (promptTable.erase id) := by
  intro other blocks tokens hblocks htokens
  obtain ⟨hother, hblocks⟩ := lookup_erase_some hblocks
  rw [AList.lookup_erase_ne hother] at htokens
  exact h other blocks tokens hblocks htokens

end Tables

/-- The blocks of every node and of every request with a prompt have room for their tokens. -/
structure Covered (blockSize : ℕ) (manager : BlockManager) : Prop where
  owns : manager.Owns []
  blockSize_eq : manager.blockSize = blockSize
  nodes : ∀ path ∈ manager.radixCache.contents, ∀ s ∈ path, Covers blockSize s.blockIds s.tokens
  tables : ∀ id blocks tokens, manager.blockTable.lookup id = some blocks →
    manager.promptTable.lookup id = some tokens → Covers blockSize blocks tokens

theorem new_covered (env : Env) {blockSize : ℕ} (hsize : 0 < blockSize) (numGpuBlocks : ℕ) :
    (new env blockSize numGpuBlocks).Covered blockSize where
  owns := new_owns env hsize numGpuBlocks
  blockSize_eq := rfl
  nodes path hpath s hs := by
    obtain rfl : path = [] := List.mem_singleton.mp hpath
    cases hs
  tables id blocks tokens hblocks := by
    rw [new, AList.lookup_empty] at hblocks
    cases hblocks

section Covered

variable {env : Env} {blockSize : ℕ} {manager manager' : BlockManager}

/-- The needed blocks have room for the tokens beyond the hit. -/
theorem Covered.le_needed (h : manager.Covered blockSize) (promptTokens : List Token) :
    promptTokens.length - (manager.hit env promptTokens).2 ≤
      manager.needed env promptTokens * blockSize := by
  have hroom := le_smul_ceilDiv (α := ℕ) h.owns.blockSize_pos
    (b := promptTokens.length - (manager.hit env promptTokens).2)
  rw [Nat.ceilDiv_eq_add_pred_div, smul_eq_mul, Nat.mul_comm, h.blockSize_eq] at hroom
  rwa [needed, h.blockSize_eq]

/-- **What an allocation returns** has room for the prompt. -/
theorem Covered.allocated (h : manager.Covered blockSize) {id : RequestId}
    {promptTokens : List Token} {blocks : List BlockId} {cached : ℕ}
    (hallocate : manager.allocateWithPrefix env id promptTokens =
      .ok (manager', some (blocks, cached))) :
    cached ≤ promptTokens.length ∧ Covers blockSize blocks promptTokens := by
  obtain ⟨path, hpath, hspell, hblocks, hlength⟩ :=
    manager.radixCache.matchPrefix_path env promptTokens
  have hhit := covers_path (h.nodes path hpath)
  rw [← hblocks] at hhit
  have hneeded : promptTokens.length - (manager.hit env promptTokens).2 ≤
      manager.needed env promptTokens * blockSize := h.le_needed promptTokens
  obtain ⟨roomy, _, _, _, ⟨_, _, heq, _⟩ | ⟨hfree, _, heq, _⟩⟩ :=
    allocateWithPrefix_spec env h.owns id promptTokens
  · rw [hallocate] at heq
    cases heq
  · rw [hallocate] at heq
    obtain ⟨rfl, rfl⟩ := Prod.mk.inj (Option.some.inj (Prod.mk.inj (Except.ok.inj heq)).2)
    refine ⟨manager.radixCache.matchPrefix_le env promptTokens, ?_⟩
    have hmatched : (manager.hit env promptTokens).2 ≤
        (manager.hit env promptTokens).1.length * blockSize := by
      rw [hit, hlength]
      exact hhit
    rw [Covers, List.length_append, List.length_take_of_le hfree, Nat.add_mul]
    omega

/-- A call adds at most a node with the end of a prompt and the blocks of the whole prompt. -/
theorem exec_nodes (h : manager.Covered blockSize) {call : Call}
    (hexec : manager.exec env call = .ok manager') {path : List PathStep}
    (hpath : path ∈ manager'.radixCache.contents) :
    ∀ s ∈ path, Covers blockSize s.blockIds s.tokens := by
  rcases exec_contents env h.owns hexec hpath with
    hold | ⟨tokens, _, id, blocks, hblocks, htokens, hinserted⟩
  · exact h.nodes path hold
  · obtain ⟨p, hp, first, rest, hdrop, rfl⟩ := RadixCache.mem_insertedPaths hinserted
    intro s hs
    rcases List.mem_append.mp hs with hs | hs
    · exact h.nodes p hp s hs
    · rw [List.mem_singleton.mp hs]
      have hle : (first :: rest).length ≤ tokens.length := by
        rw [← hdrop, List.length_drop]
        exact Nat.sub_le _ _
      exact hle.trans (h.tables id blocks tokens hblocks htokens)

/-- **What a call does to the tables**, unless it is `allocate`: a request with blocks and a prompt
had them before, or they were allocated together. -/
theorem exec_tables (h : manager.Covered blockSize) {call : Call}
    (hcall : ∀ id numTokens, call ≠ .allocate id numTokens)
    (hexec : manager.exec env call = .ok manager') :
    manager'.blockSize = manager.blockSize ∧
      TablesCovered blockSize manager'.blockTable manager'.promptTable := by
  have htables : TablesCovered blockSize manager.blockTable manager.promptTable := h.tables
  cases call with
  | allocateWithPrefix id promptTokens =>
      obtain ⟨roomy, _, _, hprepared, ⟨_, _, heq, _⟩ | ⟨_, _, heq, hmanager, _⟩⟩ :=
        allocateWithPrefix_spec env h.owns id promptTokens
      · rw [exec, heq] at hexec
        cases hexec
        rw [hprepared.blockTable, hprepared.promptTable]
        exact ⟨hprepared.blockSize, htables⟩
      · have hcovers := (h.allocated heq).2
        rw [exec, heq] at hexec
        cases hexec
        rw [hmanager]
        exact ⟨hprepared.blockSize, htables.insert id hcovers⟩
  | allocate id numTokens => exact absurd rfl (hcall id numTokens)
  | free id =>
      rw [exec] at hexec
      cases hblocks : manager.blockTable.lookup id with
      | none =>
          rw [free_unknown env hblocks] at hexec
          cases hexec
          exact ⟨rfl, htables⟩
      | some blocks =>
          cases htokens : manager.promptTable.lookup id with
          | none =>
              obtain ⟨_, heq, hsize, htable, hprompts, _⟩ :=
                free_untraced env h.owns hblocks htokens
              rw [heq] at hexec
              cases hexec
              rw [htable, hprompts]
              exact ⟨hsize, htables.erase id⟩
          | some tokens =>
              obtain ⟨_, _, heq, hmanager, _⟩ := free_traced env h.owns hblocks htokens
              rw [heq] at hexec
              cases hexec
              rw [hmanager]
              exact ⟨rfl, htables.erase id⟩

theorem exec_covered (h : manager.Covered blockSize) {call : Call}
    (hcall : ∀ id numTokens, call ≠ .allocate id numTokens) :
    ∃ manager', manager.exec env call = .ok manager' ∧ manager'.Covered blockSize := by
  obtain ⟨manager', hexec, howns⟩ := exec_owns env h.owns call
  obtain ⟨hsize, htables⟩ := exec_tables h hcall hexec
  exact ⟨manager', hexec, howns, hsize.trans h.blockSize_eq,
    fun _ hpath => exec_nodes h hexec hpath, htables⟩

end Covered

/-- **Allocated blocks have room for the prompt.** After any calls but the legacy `allocate`, the
blocks of every request have a slot for each token of its prompt, and so have those that the next
allocation returns, with no more tokens cached than the prompt has. -/
theorem blocks_cover_prompts (env : Env) {blockSize : ℕ} (hsize : 0 < blockSize)
    (numGpuBlocks : ℕ) {calls : List Call}
    (hcalls : ∀ id numTokens, .allocate id numTokens ∉ calls) :
    ∃ manager, history env blockSize numGpuBlocks calls = .ok manager ∧
      (∀ id blocks promptTokens, manager.blockTable.lookup id = some blocks →
        manager.promptTable.lookup id = some promptTokens →
          promptTokens.length ≤ blocks.length * blockSize) ∧
      ∀ id promptTokens manager' blocks cached,
        manager.allocateWithPrefix env id promptTokens = .ok (manager', some (blocks, cached)) →
          cached ≤ promptTokens.length ∧ promptTokens.length ≤ blocks.length * blockSize := by
  have halong : Machine.Along (exec env) (fun _ call => ∀ id numTokens, call ≠
      .allocate id numTokens) (new env blockSize numGpuBlocks) calls := by
    refine Machine.along_of_forall (fun call hcall id numTokens heq => ?_) _
    exact hcalls id numTokens (heq ▸ hcall)
  obtain ⟨manager, hrun, h⟩ := Machine.run_progress
    (fun manager call (h : manager.Covered blockSize) hcall => exec_covered h hcall)
    (new_covered env hsize numGpuBlocks) halong
  exact ⟨manager, hrun, h.tables, fun _ _ _ _ _ hallocate => h.allocated hallocate⟩

/-- A prompt that goes on from a freed one. -/
theorem blocks_cover_prompts_reused :
    ∃ manager, history .counting 4 9 [.allocateWithPrefix 1 [1, 2, 3, 4, 5], .free 1] =
        .ok manager ∧
      ∀ id promptTokens manager' blocks cached,
        manager.allocateWithPrefix .counting id promptTokens =
          .ok (manager', some (blocks, cached)) →
        cached ≤ promptTokens.length ∧ promptTokens.length ≤ blocks.length * 4 := by
  obtain ⟨manager, hrun, _, hallocated⟩ := @blocks_cover_prompts .counting 4 (by decide) 9
    [.allocateWithPrefix 1 [1, 2, 3, 4, 5], .free 1] (by simp)
  exact ⟨manager, hrun, hallocated⟩

end BlockManager
end Kyro
