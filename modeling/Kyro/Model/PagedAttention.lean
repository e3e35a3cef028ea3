import Kyro.Lib.Tensor
import Mathlib.Data.List.Basic

/-!
# Paged attention

`src/model/attention_kernel.rs`. The keys and values of a sequence lie in blocks, in the order of
its block table. The scores are gathered block by block into one slice, which becomes the matrix
that `softmax` is given; the values are then weighted block by block.

The numbers are those of any semiring, the scale and `softmax` are parameters. `none` stands for an
error of the tensor library and for a panic.
-/

namespace Kyro

structure PagedAttention where
  blockSize : ℕ
  numHeads : ℕ
  headDim : ℕ
  numKvHeads : ℕ
  deriving DecidableEq, Repr

/-- `x as usize` -/
def asUsize (x : Int64) : ℕ := x.toBitVec.toNat

namespace PagedAttention

variable {R : Type} [CommSemiring R] (attn : PagedAttention)

/-- The copies of one head. -/
def repeatHead (tensor : Tensor R) (groupSize h : ℕ) : Option (List (Tensor R)) := do
  let hT ← tensor.get h
  let head ← hT.unsqueeze 0
  return List.replicate groupSize head

/-- Expand KV heads from `numKvHeads` to `numHeads` for GQA by repeating each KV head. -/
def expandKvForGqa (tensor : Tensor R) : Option (Tensor R) := do
  let kvHeads ← tensor.dim 0
  if kvHeads = attn.numHeads then return tensor
  let groupSize := attn.numHeads / kvHeads
  let heads ← (List.range kvHeads).mapM (repeatHead tensor groupSize)
  Tensor.cat 0 heads.flatten

/-- `row[..n]` -/
def sliceTo (n : ℕ) (row : List R) : Option (List R) :=
  if n ≤ row.length then some (row.take n) else none

/-- The tokens of a block that belong to the sequence. -/
def blockLen (ctxLen blockIdx : ℕ) : ℕ :=
  min (blockIdx * attn.blockSize + attn.blockSize) ctxLen - blockIdx * attn.blockSize

/-- The block of a sequence that its table has at a place. -/
def tableEntry (blockTable : Tensor Int64) (b blockIdx : ℕ) : Option ℕ := do
  let row ← blockTable.get b
  let cell ← row.get blockIdx
  let tbl ← cell.toScalar
  return asUsize tbl

section Sequence

variable (scale : R) (softmax : List R → List R) (q keyCache valueCache : Tensor R)
  (table : ℕ → Option ℕ) (ctxLen : ℕ)

/-- The scores of the query with all tokens of a block, for each head. -/
def blockScores (tbl : ℕ) : Option (Tensor R) := do
  let kBlock ← keyCache.get tbl
  let kBlock ← kBlock.squeeze 0
  let kBlock ← attn.expandKvForGqa kBlock
  let kT ← kBlock.transpose 1 2
  let q2d ← q.squeeze 0
  let qExp ← q2d.unsqueeze 1
  let product ← qExp.matmul kT
  let scores ← product.squeeze 1
  return scores.smul scale

/-- What one pass of the first loop appends to `attn_scores`: the scores of the block, head by
head. -/
def gatherBlock (blockIdx : ℕ) : Option (List R) := do
  let tbl ← table blockIdx
  let scores ← attn.blockScores scale q keyCache tbl
  let scores2d ← scores.toVec2
  let rows ← (scores2d.take attn.numHeads).mapM (sliceTo (attn.blockLen ctxLen blockIdx))
  return rows.flatten

/-- The first loop, and the matrix for `softmax`. -/
def attnMatrix (numBlocks : ℕ) : Option (Tensor R) := do
  let attnScores ← (List.range numBlocks).mapM
    (attn.gatherBlock scale q keyCache table ctxLen)
  let attnT ← Tensor.fromSlice attnScores.flatten [ctxLen, attn.numHeads]
  attnT.transpose 0 1

/-- What one pass of the second loop adds to the output. -/
def blockContrib (attnWeights : Tensor R) (blockIdx : ℕ) : Option (Tensor R) := do
  let tbl ← table blockIdx
  let vBlock ← valueCache.get tbl
  let vBlock ← vBlock.squeeze 0
  let vBlock ← attn.expandKvForGqa vBlock
  let w ← attnWeights.narrow (attnWeights.dims.length - 1) (blockIdx * attn.blockSize)
    (attn.blockLen ctxLen blockIdx)
  let vNarrow ← vBlock.narrow 1 0 (attn.blockLen ctxLen blockIdx)
  let wExp ← w.unsqueeze 1
  let product ← wExp.matmul vNarrow
  let contrib ← product.squeeze 1
  contrib.unsqueeze 0

/-- One sequence: the matrix that `softmax` is given, if there is a context, and the output. -/
def attend : Option (Option (Tensor R) × Tensor R) := do
  if ctxLen = 0 then return (none, Tensor.zeros [1, attn.numHeads, attn.headDim])
  if attn.blockSize = 0 then none
  let numBlocks := (ctxLen + attn.blockSize - 1) / attn.blockSize
  let attnT ← attn.attnMatrix scale q keyCache table ctxLen numBlocks
  let attnWeights := attnT.mapRows softmax
  let output ← (List.range numBlocks).foldlM (fun output blockIdx => do
    let contrib ← attn.blockContrib valueCache table ctxLen attnWeights blockIdx
    output.add contrib) (Tensor.zeros [1, attn.numHeads, attn.headDim])
  return (some attnT, output)

end Sequence

section Batch

variable (scale : R) (softmax : List R → List R) (query keyCache valueCache : Tensor R)
  (blockTable contextLens : Tensor Int64)

/-- One pass of the outer loop. -/
def attendSequence (b : ℕ) : Option (Option (Tensor R) × Tensor R) := do
  let q ← query.get b
  let q ← q.unsqueeze 0
  let len ← contextLens.get b
  let ctxLen ← len.toScalar
  attn.attend scale softmax q keyCache valueCache (tableEntry blockTable b) (asUsize ctxLen)

/-- Software PagedAttention, with the matrices that `softmax` is given. -/
def pagedAttentionKernel : Option (List (Option (Tensor R)) × Tensor R) := do
  let batchSize ← query.dim 0
  let sequences ← (List.range batchSize).mapM
    (attn.attendSequence scale softmax query keyCache valueCache blockTable contextLens)
  let output ← Tensor.cat 0 (sequences.map Prod.snd)
  return (sequences.map Prod.fst, output)

end Batch

end PagedAttention
end Kyro
