import Kyro.Scheduler.RadixCache
import Kyro.Lib.RefPool
import Kyro.Lib.Tally
import Kyro.Lib.Run

/-!
# The block manager

`src/scheduler/block_manager.rs`. Blocks are handed to requests, shared through the radix cache and
counted: `refCounts` has one reference for every place a block is listed in, in a request's table or
in a node of the cache. The free blocks are listed from the end of the vector, where they are pushed
and popped.
-/

namespace Kyro

open RefPool Tally

structure BlockManager where
  blockSize : ℕ
  numGpuBlocks : ℕ
  freeGpuBlocks : List BlockId
  /-- Request id to block ids. -/
  blockTable : Table RequestId BlockId
  radixCache : RadixCache
  /-- The prompt of each request, for the insertion into the cache on `free`. -/
  promptTable : Table RequestId Token
  refCounts : List ℕ

namespace BlockManager

def new (env : Env) (blockSize numGpuBlocks : ℕ) : BlockManager where
  blockSize := blockSize
  numGpuBlocks := numGpuBlocks
  freeGpuBlocks := (List.range numGpuBlocks).reverse
  blockTable := ∅
  radixCache := RadixCache.new env (numGpuBlocks / 3)
  promptTable := ∅
  refCounts := List.replicate numGpuBlocks 0

/-- The prefix hit and the pinning of its blocks: the manager after it, the cached blocks and the
number of cached tokens. -/
def pinPrefix (env : Env) (manager : BlockManager) (promptTokens : List Token) :
    Except Fault (BlockManager × List BlockId × ℕ) := do
  let result := manager.radixCache.matchPrefix env promptTokens
  let refCounts ← orPanic .refCounts (pin manager.refCounts result.2.1)
  return ({ manager with radixCache := result.1, refCounts }, result.2.1, result.2.2)

/-- Make room by evicting from the cache, where fewer than `needed` blocks are free. -/
def makeRoom (env : Env) (manager : BlockManager) (needed : ℕ) : Except Fault BlockManager :=
  if manager.freeGpuBlocks.length < needed then do
    let (radixCache, evicted) ← manager.radixCache.evictLru env
    let (refCounts, freeGpuBlocks) ←
      orPanic .refCounts (release manager.refCounts manager.freeGpuBlocks evicted)
    return { manager with radixCache, refCounts, freeGpuBlocks }
  else .ok manager

/-- Allocates blocks for a request, checking the radix cache for a prefix first. Returns the blocks
and the number of cached tokens, or `none` when memory does not suffice. -/
def allocateWithPrefix (env : Env) (manager : BlockManager) (requestId : RequestId)
    (promptTokens : List Token) :
    Except Fault (BlockManager × Option (List BlockId × ℕ)) := do
  let (manager, cachedBlocks, cachedTokenCount) ← manager.pinPrefix env promptTokens
  let remainingTokens := promptTokens.length - cachedTokenCount
  let newBlocksNeeded ← divCeil remainingTokens manager.blockSize
  let manager ← manager.makeRoom env newBlocksNeeded
  if manager.freeGpuBlocks.length < newBlocksNeeded then
    let refCounts ← orPanic .refCounts (unpin manager.refCounts cachedBlocks)
    return ({ manager with refCounts }, none)
  else
    let (refCounts, freeGpuBlocks, newBlocks) ← orPanic (.expect "free blocks checked above")
      (take newBlocksNeeded manager.refCounts manager.freeGpuBlocks)
    let allBlocks := cachedBlocks ++ newBlocks
    return ({ manager with
      refCounts
      freeGpuBlocks
      blockTable := manager.blockTable.insert requestId allBlocks
      promptTable := manager.promptTable.insert requestId promptTokens },
      some (allBlocks, cachedTokenCount))

/-- Allocate without prefix caching. -/
def allocate (manager : BlockManager) (requestId : RequestId) (numTokens : ℕ) :
    Except Fault (BlockManager × Option (List BlockId)) := do
  let numBlocks ← divCeil numTokens manager.blockSize
  if manager.freeGpuBlocks.length < numBlocks then
    return (manager, none)
  else
    let (refCounts, freeGpuBlocks, allocated) ← orPanic (.expect "free blocks checked above")
      (take numBlocks manager.refCounts manager.freeGpuBlocks)
    return ({ manager with
      refCounts
      freeGpuBlocks
      blockTable := manager.blockTable.insert requestId allocated }, some allocated)

/-- `if self.ref_counts[block.0] == 0 { self.free_gpu_blocks.push(block) }` for every block. -/
def pushUnreferenced (refCounts : List ℕ) :
    List BlockId → List BlockId → Except Fault (List BlockId)
  | free, [] => .ok free
  | free, block :: blocks => do
    let count ← orPanic .refCounts refCounts[block]?
    pushUnreferenced refCounts (if count = 0 then block :: free else free) blocks

/-- Frees a request's blocks back into the radix cache. -/
def free (env : Env) (manager : BlockManager) (requestId : RequestId) :
    Except Fault BlockManager :=
  match manager.blockTable.lookup requestId with
  | none => .ok manager
  | some blocks => do
    let tokens := manager.promptTable.lookup requestId
    let manager := { manager with
      blockTable := manager.blockTable.erase requestId
      promptTable := manager.promptTable.erase requestId }
    let refCounts ← orPanic .refCounts (unpin manager.refCounts blocks)
    match tokens with
    | some tokens =>
      let refCounts ← orPanic .refCounts (pin refCounts blocks)
      let radixCache ← manager.radixCache.insert env tokens blocks
      return { manager with refCounts, radixCache }
    | none =>
      let freeGpuBlocks ← pushUnreferenced refCounts manager.freeGpuBlocks blocks
      return { manager with refCounts, freeGpuBlocks }

/-! ### Call sequences -/

/-- A call of the manager's public interface. -/
inductive Call where
  | allocateWithPrefix (requestId : RequestId) (promptTokens : List Token)
  | allocate (requestId : RequestId) (numTokens : ℕ)
  | free (requestId : RequestId)
  deriving DecidableEq

/-- The manager after a call. -/
def exec (env : Env) (manager : BlockManager) : Call → Except Fault BlockManager
  | .allocateWithPrefix requestId promptTokens =>
    (manager.allocateWithPrefix env requestId promptTokens).map Prod.fst
  | .allocate requestId numTokens => (manager.allocate requestId numTokens).map Prod.fst
  | .free requestId => manager.free env requestId

/-- The manager after a sequence of calls on a fresh one. -/
def history (env : Env) (blockSize numGpuBlocks : ℕ) (calls : List Call) :
    Except Fault BlockManager :=
  Machine.run (exec env) (new env blockSize numGpuBlocks) calls

end BlockManager
end Kyro
