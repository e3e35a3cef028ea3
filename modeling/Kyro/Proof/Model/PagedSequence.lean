import Kyro.Proof.Model.Heads
import Mathlib.Algebra.BigOperators.Ring.Finset

/-!
# One sequence of paged attention

The scores of a block are written head by head, and the slice is read as if they were written token
by token. So a head reads the scores of other heads and tokens, unless a block has one token. The
values are weighted as they should be, by whatever weights.
-/

namespace Kyro
namespace PagedAttention

variable {R : Type} {attn : PagedAttention}

/-- The key/value head that a head reads. -/
def kvHead (attn : PagedAttention) (h : ℕ) : ℕ := h / (attn.numHeads / attn.numKvHeads)

/-- **The expansion** gives every head the entries of its key/value head. -/
theorem expandKvForGqa_spec {tensor : Tensor R} {rest : List ℕ}
    (hdims : tensor.dims = attn.numKvHeads :: rest) (hdvd : attn.numKvHeads ∣ attn.numHeads)
    (hheads : 0 < attn.numHeads) :
    ∃ expanded, attn.expandKvForGqa tensor = some expanded ∧
      expanded.dims = attn.numHeads :: rest ∧
      ∀ h < attn.numHeads, ∀ idx, expanded.entry (h :: idx) =
        tensor.entry (attn.kvHead h :: idx) := by
  have hdim : tensor.dim 0 = some attn.numKvHeads := by
    rw [Tensor.dim, hdims]
    rfl
  obtain ⟨expanded, hexpand, hexpanded⟩ := expandKvForGqa_expanded hdim hdvd hheads
  refine ⟨expanded, hexpand, ?_, fun h hh idx => hexpanded.heads (h :: idx) h rfl hh⟩
  rw [hexpanded.dims, hdims]
  rfl

/-- The expansion keeps the number of dimensions. -/
theorem expandKvForGqa_rank {tensor expanded : Tensor R}
    (h : attn.expandKvForGqa tensor = some expanded) :
    expanded.dims.length = tensor.dims.length := by
  obtain ⟨kvHeads, hdim, h⟩ := Option.bind_eq_some_iff.mp h
  split at h
  · cases h
    rfl
  · obtain ⟨heads, hheads, hcat⟩ := Option.bind_eq_some_iff.mp h
    refine Tensor.cat_rank hcat fun head hhead => ?_
    obtain ⟨copies, hcopies, hhead⟩ := List.mem_flatten.mp hhead
    obtain ⟨i, hrepeat⟩ := Tensor.exists_of_mapM hheads copies hcopies
    obtain ⟨dims, entry⟩ := tensor
    cases dims with
    | nil => cases hdim
    | cons d rest =>
        obtain ⟨hT, hget, hrepeat⟩ := Option.bind_eq_some_iff.mp hrepeat
        obtain ⟨copy, hcopy, hrepeat⟩ := Option.bind_eq_some_iff.mp hrepeat
        cases hrepeat
        rw [(List.mem_replicate.mp hhead).2]
        rw [Tensor.get] at hget
        dsimp only at hget
        split at hget
        · cases hget
          cases hcopy
          rfl
        · cases hget

/-- Heads that the kernel can expand: every key/value head has its group of heads, and there are
several. -/
structure Expandable (attn : PagedAttention) : Prop where
  groups : attn.numKvHeads ∣ attn.numHeads
  pos : 0 < attn.numHeads
  many : attn.numKvHeads ≠ 1

/-! ### One block -/

section Sequence

variable {scale : R} {q keyCache valueCache : Tensor R} {table : ℕ → Option ℕ} {ctxLen : ℕ}

/-- The score that `blockScores` has for a head and a place of a block. -/
def blockScore [CommSemiring R] (attn : PagedAttention) (scale : R) (q keyCache : Tensor R)
    (tbl h r : ℕ) : R :=
  (∑ d ∈ Finset.range attn.headDim,
    q.entry [0, h, d] * keyCache.entry [tbl, attn.kvHead h, r, d]) * scale

/-- A block of a cache, expanded. -/
theorem expandBlock_spec {cache : Tensor R} {numBlocks tbl : ℕ}
    (hcache : cache.dims = [numBlocks, attn.numKvHeads, attn.blockSize, attn.headDim])
    (hheads : attn.Expandable) (htbl : tbl < numBlocks) :
    ∃ entry, ((cache.get tbl).bind fun block => (block.squeeze 0).bind attn.expandKvForGqa) =
        some ⟨[attn.numHeads, attn.blockSize, attn.headDim], entry⟩ ∧
      ∀ h < attn.numHeads, ∀ idx, entry (h :: idx) = cache.entry (tbl :: attn.kvHead h :: idx) := by
  obtain ⟨cacheDims, cacheEntry⟩ := cache
  dsimp only at hcache
  subst hcache
  obtain ⟨⟨dims, entry⟩, hexpand, hdims, hentry⟩ :=
    @expandKvForGqa_spec R attn ⟨[attn.numKvHeads, attn.blockSize, attn.headDim],
      fun idx => cacheEntry (tbl :: idx)⟩ _ rfl hheads.groups hheads.pos
  dsimp only at hdims hentry
  subst hdims
  refine ⟨entry, ?_, hentry⟩
  rw [Tensor.get_cons htbl, Option.bind_some,
    @Tensor.squeeze_of_ne _ ⟨[attn.numKvHeads, attn.blockSize, attn.headDim], _⟩ 0 _ rfl
      hheads.many]
  exact hexpand

variable [CommSemiring R]

theorem blockScores_spec {numBlocks tbl : ℕ}
    (hq : q.dims = [1, attn.numHeads, attn.headDim])
    (hcache : keyCache.dims = [numBlocks, attn.numKvHeads, attn.blockSize, attn.headDim])
    (hheads : attn.Expandable) (htbl : tbl < numBlocks) :
    ∃ scores, attn.blockScores scale q keyCache tbl = some scores ∧
      scores.dims = [attn.numHeads, attn.blockSize] ∧
      ∀ h < attn.numHeads, ∀ r, scores.entry [h, r] =
        attn.blockScore scale q keyCache tbl h r := by
  obtain ⟨qDims, qEntry⟩ := q
  dsimp only at hq
  subst hq
  obtain ⟨entry, hexpand, hentry⟩ := expandBlock_spec hcache hheads htbl
  have hscores : attn.blockScores scale ⟨[1, attn.numHeads, attn.headDim], qEntry⟩ keyCache tbl =
      ((keyCache.get tbl).bind fun block => (block.squeeze 0).bind attn.expandKvForGqa).bind
        fun kBlock => (kBlock.transpose 1 2).bind fun kT =>
          (Tensor.matmul ⟨[attn.numHeads, 1, attn.headDim], fun idx =>
            qEntry (0 :: idx.eraseIdx 1)⟩ kT).bind fun product =>
              (product.squeeze 1).bind fun scores => some (scores.smul scale) := by
    simp only [Option.bind_assoc]
    rfl
  rw [hexpand] at hscores
  have hmatmul : attn.blockScores scale ⟨[1, attn.numHeads, attn.headDim], qEntry⟩ keyCache tbl =
      (Tensor.matmul ⟨[attn.numHeads, 1, attn.headDim], fun idx => qEntry (0 :: idx.eraseIdx 1)⟩
        ⟨[attn.numHeads, attn.headDim, attn.blockSize], fun idx =>
          entry (Tensor.swap idx 1 2)⟩).bind fun product =>
            (product.squeeze 1).bind fun scores => some (scores.smul scale) := hscores
  rw [Tensor.matmul_stack] at hmatmul
  refine ⟨_, hmatmul, rfl, fun h hh r => ?_⟩
  show (∑ x ∈ Finset.range attn.headDim, qEntry [0, h, x] * entry [h, r, x]) * scale = _
  simp only [blockScore, hentry h hh]

theorem blockLen_le (attn : PagedAttention) (ctxLen blockIdx : ℕ) :
    attn.blockLen ctxLen blockIdx ≤ attn.blockSize := by
  rw [blockLen]
  omega

/-- The scores of a block in the order in which they are gathered: a run for each head. -/
def scoreRun (attn : PagedAttention) (scale : R) (q keyCache : Tensor R) (ctxLen blockIdx tbl : ℕ) :
    List R :=
  ((List.range attn.numHeads).map fun h => (List.range (attn.blockLen ctxLen blockIdx)).map
    (attn.blockScore scale q keyCache tbl h)).flatten

theorem length_scoreRun (blockIdx tbl : ℕ) :
    (attn.scoreRun scale q keyCache ctxLen blockIdx tbl).length =
      attn.numHeads * attn.blockLen ctxLen blockIdx := by
  rw [scoreRun, Tensor.length_runs, Finset.sum_const_nat fun h _ => List.length_map _,
    List.length_range, Finset.card_range]

/-- What the first loop appends for a block. -/
theorem gatherBlock_spec {numBlocks blockIdx tbl : ℕ}
    (hq : q.dims = [1, attn.numHeads, attn.headDim])
    (hcache : keyCache.dims = [numBlocks, attn.numKvHeads, attn.blockSize, attn.headDim])
    (hheads : attn.Expandable) (htable : table blockIdx = some tbl) (htbl : tbl < numBlocks) :
    attn.gatherBlock scale q keyCache table ctxLen blockIdx =
      some (attn.scoreRun scale q keyCache ctxLen blockIdx tbl) := by
  obtain ⟨⟨dims, entry⟩, hscores, hdims, hentry⟩ :=
    @blockScores_spec R attn scale q keyCache _ numBlocks tbl hq hcache hheads htbl
  dsimp only at hdims hentry
  subst hdims
  have hle := attn.blockLen_le ctxLen blockIdx
  rw [gatherBlock, htable]
  simp only [Option.bind_eq_bind, Option.bind_some, hscores, Tensor.toVec2]
  rw [List.take_of_length_le (by simp), @Tensor.mapM_eq_some _ _ _
    (List.take (attn.blockLen ctxLen blockIdx)), Option.bind_some, List.map_map]
  · refine congrArg (fun rows : List (List R) => some rows.flatten) (List.map_congr_left ?_)
    intro h hh
    show List.take _ (List.map _ _) = _
    rw [← List.map_take, List.take_range, Nat.min_eq_left hle]
    exact List.map_congr_left fun r _ => hentry h (List.mem_range.mp hh) r
  · intro row hrow
    obtain ⟨h, _, rfl⟩ := List.mem_map.mp hrow
    rw [sliceTo, if_pos (by simpa using hle)]

/-- The number of blocks of a context. -/
def numBlocksOf (attn : PagedAttention) (ctxLen : ℕ) : ℕ :=
  (ctxLen + attn.blockSize - 1) / attn.blockSize

/-- The head whose score is read for a head and a token. -/
def readHead (attn : PagedAttention) (ctxLen h t : ℕ) : ℕ :=
  ((t % attn.blockSize) * attn.numHeads + h) / attn.blockLen ctxLen (t / attn.blockSize)

/-- The token whose score is read, by its place in the same block. -/
def readPlace (attn : PagedAttention) (ctxLen h t : ℕ) : ℕ :=
  ((t % attn.blockSize) * attn.numHeads + h) % attn.blockLen ctxLen (t / attn.blockSize)

theorem blocks_cover (hblock : 0 < attn.blockSize) (ctxLen : ℕ) :
    min (attn.numBlocksOf ctxLen * attn.blockSize) ctxLen = ctxLen := by
  refine Nat.min_eq_right ?_
  have hmod := Nat.div_add_mod (ctxLen + attn.blockSize - 1) attn.blockSize
  have hlt := Nat.mod_lt (ctxLen + attn.blockSize - 1) hblock
  rw [numBlocksOf, Nat.mul_comm]
  omega

theorem sum_blockLen (hblock : 0 < attn.blockSize) (ctxLen : ℕ) :
    ∑ j ∈ Finset.range (attn.numBlocksOf ctxLen), attn.blockLen ctxLen j = ctxLen := by
  have hsum := Tensor.sum_runs (fun _ => 1) attn.blockSize ctxLen (attn.numBlocksOf ctxLen)
  simp only [← Finset.card_eq_sum_ones, Finset.card_range, blocks_cover hblock] at hsum
  exact hsum

/-- Every block starts within the context. -/
theorem start_lt {j : ℕ} (hj : j < attn.numBlocksOf ctxLen) : j * attn.blockSize < ctxLen := by
  have hnext := (Nat.mul_le_mul_right attn.blockSize hj).trans
    (Nat.div_mul_le_self (ctxLen + attn.blockSize - 1) attn.blockSize)
  have hblock : attn.blockSize ≠ 0 := fun h => by
    rw [numBlocksOf, h, Nat.div_zero] at hj
    omega
  rw [Nat.succ_mul] at hnext
  omega

theorem block_le {j : ℕ} (hj : j < attn.numBlocksOf ctxLen) :
    j * attn.blockSize + attn.blockLen ctxLen j ≤ ctxLen := by
  have hlt := start_lt hj
  rw [blockLen]
  omega

section Block

variable {t : ℕ} (hblock : 0 < attn.blockSize) (ht : t < ctxLen)

include hblock ht

theorem div_lt_numBlocks : t / attn.blockSize < attn.numBlocksOf ctxLen := by
  have hle : (t + attn.blockSize) / attn.blockSize ≤ attn.numBlocksOf ctxLen :=
    Nat.div_le_div_right (by omega)
  rw [Nat.add_div_right t hblock] at hle
  exact hle

theorem mod_lt_blockLen : t % attn.blockSize < attn.blockLen ctxLen (t / attn.blockSize) := by
  have hdiv := Nat.div_add_mod' t attn.blockSize
  have hlt := Nat.mod_lt t hblock
  rw [blockLen]
  omega

/-- All blocks before that of a token are full. -/
theorem blockLen_before {j : ℕ} (hj : j < t / attn.blockSize) :
    attn.blockLen ctxLen j = attn.blockSize := by
  have hnext : (j + 1) * attn.blockSize ≤ t :=
    (Nat.mul_le_mul_right _ hj).trans (Nat.div_mul_le_self t attn.blockSize)
  rw [Nat.add_mul, Nat.one_mul] at hnext
  rw [blockLen]
  omega

end Block

section Read

variable {h t : ℕ} (hblock : 0 < attn.blockSize) (ht : t < ctxLen) (hh : h < attn.numHeads)

include hblock ht hh

/-- What is read for a head and a token lies in the run of the token's block. -/
theorem offset_lt : t % attn.blockSize * attn.numHeads + h <
    attn.numHeads * attn.blockLen ctxLen (t / attn.blockSize) := by
  have hstep := Nat.mul_le_mul_right attn.numHeads (mod_lt_blockLen hblock ht)
  rw [Nat.succ_mul, Nat.mul_comm (attn.blockLen _ _)] at hstep
  omega

theorem readHead_lt : attn.readHead ctxLen h t < attn.numHeads := by
  rw [readHead, Nat.div_lt_iff_lt_mul (Nat.zero_lt_of_lt (mod_lt_blockLen hblock ht))]
  exact offset_lt hblock ht hh

/-- It is the score of another head and place, as the runs are as long as the block. -/
theorem getElem?_scoreRun (tbl : ℕ) :
    (attn.scoreRun scale q keyCache ctxLen (t / attn.blockSize)
        tbl)[t % attn.blockSize * attn.numHeads + h]? =
      some (attn.blockScore scale q keyCache tbl (attn.readHead ctxLen h t)
        (attn.readPlace ctxLen h t)) := by
  have hpos : 0 < attn.blockLen ctxLen (t / attn.blockSize) :=
    Nat.zero_lt_of_lt (mod_lt_blockLen hblock ht)
  have hread : attn.readPlace ctxLen h t < attn.blockLen ctxLen (t / attn.blockSize) :=
    Nat.mod_lt _ hpos
  have hposition : attn.readHead ctxLen h t * attn.blockLen ctxLen (t / attn.blockSize) +
      attn.readPlace ctxLen h t = t % attn.blockSize * attn.numHeads + h := Nat.div_add_mod' _ _
  rw [← hposition, scoreRun, Tensor.getElem?_runs (readHead_lt hblock ht hh) (fun _ _ => by simp)
    (by simpa using hread)]
  simp [List.getElem?_range hread]

end Read

/-- **The matrix for `softmax`** has, for a head and a token, what is read for them. -/
theorem attnMatrix_spec {numBlocks : ℕ} {place : ℕ → ℕ}
    (hq : q.dims = [1, attn.numHeads, attn.headDim])
    (hcache : keyCache.dims = [numBlocks, attn.numKvHeads, attn.blockSize, attn.headDim])
    (hheads : attn.Expandable) (hblock : 0 < attn.blockSize)
    (htable : ∀ j < attn.numBlocksOf ctxLen, table j = some (place j) ∧ place j < numBlocks) :
    ∃ matrix, attn.attnMatrix scale q keyCache table ctxLen (attn.numBlocksOf ctxLen) =
        some matrix ∧ matrix.dims = [attn.numHeads, ctxLen] ∧
      ∀ h < attn.numHeads, ∀ t < ctxLen, matrix.entry [h, t] =
        attn.blockScore scale q keyCache (place (t / attn.blockSize))
          (attn.readHead ctxLen h t) (attn.readPlace ctxLen h t) := by
  let run (j : ℕ) : List R := attn.scoreRun scale q keyCache ctxLen j (place j)
  have hrun : ∀ j, (run j).length = attn.numHeads * attn.blockLen ctxLen j :=
    fun j => length_scoreRun j (place j)
  have hgather : (List.range (attn.numBlocksOf ctxLen)).mapM
      (attn.gatherBlock scale q keyCache table ctxLen) =
        some ((List.range (attn.numBlocksOf ctxLen)).map run) :=
    Tensor.mapM_eq_some fun j hj =>
      gatherBlock_spec hq hcache hheads (htable j (List.mem_range.mp hj)).1
        (htable j (List.mem_range.mp hj)).2
  have hlength : ((List.range (attn.numBlocksOf ctxLen)).map run).flatten.length =
      [ctxLen, attn.numHeads].prod := by
    rw [Tensor.length_runs, Finset.sum_congr rfl fun j _ => hrun j, ← Finset.mul_sum,
      sum_blockLen hblock]
    simp [Nat.mul_comm]
  have hmatrix : attn.attnMatrix scale q keyCache table ctxLen (attn.numBlocksOf ctxLen) =
      (Tensor.fromSlice ((List.range (attn.numBlocksOf ctxLen)).map run).flatten
        [ctxLen, attn.numHeads]).bind fun attnT => attnT.transpose 0 1 := by
    rw [attnMatrix, hgather]
    rfl
  rw [Tensor.fromSlice, if_pos hlength] at hmatrix
  refine ⟨_, hmatrix, rfl, fun h hh t ht => ?_⟩
  show (((List.range (attn.numBlocksOf ctxLen)).map run).flatten.getD
    (t * [attn.numHeads].prod + (h * [].prod + 0)) 0) = _
  -- the blocks before that of the token are full
  have hindex : t * [attn.numHeads].prod + (h * [].prod + 0) =
      t / attn.blockSize * (attn.numHeads * attn.blockSize) +
        (t % attn.blockSize * attn.numHeads + h) := by
    have hdiv := congrArg (· * attn.numHeads) (Nat.div_add_mod' t attn.blockSize)
    simp only [Nat.add_mul] at hdiv
    rw [List.prod_singleton, List.prod_nil, Nat.mul_one, Nat.add_zero, ← hdiv, Nat.mul_assoc,
      Nat.mul_comm attn.blockSize attn.numHeads, Nat.add_assoc]
  rw [hindex, List.getD_eq_getElem?_getD,
    Tensor.getElem?_runs (div_lt_numBlocks hblock ht)
      (fun j hj => by rw [hrun, blockLen_before hblock ht hj])
      (by rw [hrun]; exact offset_lt hblock ht hh),
    getElem?_scoreRun hblock ht hh]
  rfl

/-! ### The values -/

/-- What a block adds to the output. -/
theorem blockContrib_spec {numBlocks blockIdx tbl : ℕ} {weights : List ℕ → R}
    (hcache : valueCache.dims = [numBlocks, attn.numKvHeads, attn.blockSize, attn.headDim])
    (hheads : attn.Expandable) (htable : table blockIdx = some tbl) (htbl : tbl < numBlocks)
    (hlen : blockIdx * attn.blockSize + attn.blockLen ctxLen blockIdx ≤ ctxLen) :
    ∃ entry, attn.blockContrib valueCache table ctxLen ⟨[attn.numHeads, ctxLen], weights⟩ blockIdx =
        some ⟨[1, attn.numHeads, attn.headDim], entry⟩ ∧
      ∀ h < attn.numHeads, ∀ d, entry [0, h, d] =
        ∑ r ∈ Finset.range (attn.blockLen ctxLen blockIdx),
          weights [h, blockIdx * attn.blockSize + r] *
            valueCache.entry [tbl, attn.kvHead h, r, d] := by
  obtain ⟨block, hexpand, hblock⟩ := expandBlock_spec hcache hheads htbl
  have hle := attn.blockLen_le ctxLen blockIdx
  have hcontrib : attn.blockContrib valueCache table ctxLen
      ⟨[attn.numHeads, ctxLen], weights⟩ blockIdx =
      ((valueCache.get tbl).bind fun block => (block.squeeze 0).bind attn.expandKvForGqa).bind
        fun vBlock =>
          (Tensor.narrow ⟨[attn.numHeads, ctxLen], weights⟩ 1 (blockIdx * attn.blockSize)
            (attn.blockLen ctxLen blockIdx)).bind fun w =>
          (vBlock.narrow 1 0 (attn.blockLen ctxLen blockIdx)).bind fun vNarrow =>
          (w.unsqueeze 1).bind fun wExp => (wExp.matmul vNarrow).bind fun product =>
          (product.squeeze 1).bind fun contrib => contrib.unsqueeze 0 := by
    rw [blockContrib, htable]
    simp only [Option.bind_assoc]
    rfl
  rw [hexpand, Option.bind_some, Tensor.narrow_of_le (d := ctxLen) rfl hlen, Option.bind_some,
    Tensor.narrow_of_le (d := attn.blockSize) rfl (by omega)] at hcontrib
  have hmatmul : attn.blockContrib valueCache table ctxLen
      ⟨[attn.numHeads, ctxLen], weights⟩ blockIdx =
      (Tensor.matmul ⟨[attn.numHeads, 1, attn.blockLen ctxLen blockIdx], fun idx =>
        weights ((idx.eraseIdx 1).modify 1 (blockIdx * attn.blockSize + ·))⟩
        ⟨[attn.numHeads, attn.blockLen ctxLen blockIdx, attn.headDim], fun idx =>
          block (idx.modify 1 (0 + ·))⟩).bind fun product =>
            (product.squeeze 1).bind fun contrib => contrib.unsqueeze 0 := hcontrib
  rw [Tensor.matmul_stack] at hmatmul
  refine ⟨_, hmatmul, fun h hh d => ?_⟩
  show ∑ r ∈ Finset.range (attn.blockLen ctxLen blockIdx),
    weights [h, blockIdx * attn.blockSize + r] * block [h, 0 + r, d] = _
  simp only [hblock h hh, Nat.zero_add]

section Output

variable {numBlocks : ℕ} {place : ℕ → ℕ} {weights : List ℕ → R}

/-- The place of a token in its block. -/
theorem sum_blocks (hblock : 0 < attn.blockSize) (f : ℕ → ℕ → ℕ → R) :
    ∑ j ∈ Finset.range (attn.numBlocksOf ctxLen), ∑ r ∈ Finset.range (attn.blockLen ctxLen j),
        f (j * attn.blockSize + r) j r =
      ∑ t ∈ Finset.range ctxLen, f t (t / attn.blockSize) (t % attn.blockSize) := by
  have hsum := Tensor.sum_runs (fun t => f t (t / attn.blockSize) (t % attn.blockSize))
    attn.blockSize ctxLen (attn.numBlocksOf ctxLen)
  rw [blocks_cover hblock] at hsum
  rw [← hsum]
  refine Finset.sum_congr rfl fun j _ => Finset.sum_congr rfl fun r hr => ?_
  have hlt : r < attn.blockSize := (Finset.mem_range.mp hr).trans_le (attn.blockLen_le ctxLen j)
  rw [Nat.mul_comm j, Nat.mul_add_div hblock, Nat.mul_add_mod, Nat.div_eq_of_lt hlt,
    Nat.mod_eq_of_lt hlt, Nat.add_zero]

/-- **The output** is the weighted sum of the value rows of the context, for any weights. -/
theorem output_spec
    (hcache : valueCache.dims = [numBlocks, attn.numKvHeads, attn.blockSize, attn.headDim])
    (hheads : attn.Expandable) (hblock : 0 < attn.blockSize)
    (htable : ∀ j < attn.numBlocksOf ctxLen, table j = some (place j) ∧ place j < numBlocks) :
    ∃ entry, (List.range (attn.numBlocksOf ctxLen)).foldlM (fun output blockIdx =>
        (attn.blockContrib valueCache table ctxLen ⟨[attn.numHeads, ctxLen], weights⟩
          blockIdx).bind output.add) (Tensor.zeros [1, attn.numHeads, attn.headDim]) =
        some ⟨[1, attn.numHeads, attn.headDim], entry⟩ ∧
      ∀ h < attn.numHeads, ∀ d, entry [0, h, d] =
        ∑ t ∈ Finset.range ctxLen, weights [h, t] *
          valueCache.entry [place (t / attn.blockSize), attn.kvHead h, t % attn.blockSize, d] := by
  have hcontrib : ∀ j, ∃ entry, j < attn.numBlocksOf ctxLen →
      attn.blockContrib valueCache table ctxLen ⟨[attn.numHeads, ctxLen], weights⟩ j =
        some ⟨[1, attn.numHeads, attn.headDim], entry⟩ ∧
      ∀ h < attn.numHeads, ∀ d, entry [0, h, d] =
        ∑ r ∈ Finset.range (attn.blockLen ctxLen j), weights [h, j * attn.blockSize + r] *
          valueCache.entry [place j, attn.kvHead h, r, d] := by
    intro j
    by_cases hj : j < attn.numBlocksOf ctxLen
    · obtain ⟨entry, hentry⟩ := blockContrib_spec hcache hheads (htable j hj).1
        (htable j hj).2 (block_le hj)
      exact ⟨entry, fun _ => hentry⟩
    · exact ⟨fun _ => 0, fun h => absurd h hj⟩
  choose entry hentry using hcontrib
  refine ⟨_, Tensor.foldlM_add fun j hj => (hentry j hj).1, fun h hh d => ?_⟩
  rw [Finset.sum_congr rfl fun j hj => (hentry j (Finset.mem_range.mp hj)).2 h hh d]
  exact sum_blocks hblock fun t j r => weights [h, t] *
    valueCache.entry [place j, attn.kvHead h, r, d]

end Output

/-! ### One sequence -/

/-- The weight of a token for a head, by the matrix that `softmax` is given. -/
def weight (softmax : List R → List R) (matrix : Tensor R) (ctxLen h t : ℕ) : R :=
  (softmax ((List.range ctxLen).map fun t => matrix.entry [h, t])).getD t 0

theorem attend_spec {numBlocks : ℕ} {place : ℕ → ℕ} {softmax : List R → List R}
    (hq : q.dims = [1, attn.numHeads, attn.headDim])
    (hkeys : keyCache.dims = [numBlocks, attn.numKvHeads, attn.blockSize, attn.headDim])
    (hvalues : valueCache.dims = [numBlocks, attn.numKvHeads, attn.blockSize, attn.headDim])
    (hheads : attn.Expandable) (hblock : 0 < attn.blockSize) (hctx : 0 < ctxLen)
    (htable : ∀ j < attn.numBlocksOf ctxLen, table j = some (place j) ∧ place j < numBlocks) :
    ∃ matrix output, attn.attend scale softmax q keyCache valueCache table ctxLen =
        some (some matrix, output) ∧ output.dims = [1, attn.numHeads, attn.headDim] ∧
      (∀ h < attn.numHeads, ∀ t < ctxLen, matrix.entry [h, t] =
        attn.blockScore scale q keyCache (place (t / attn.blockSize))
          (attn.readHead ctxLen h t) (attn.readPlace ctxLen h t)) ∧
      ∀ h < attn.numHeads, ∀ d, output.entry [0, h, d] = ∑ t ∈ Finset.range ctxLen,
        weight softmax matrix ctxLen h t *
          valueCache.entry [place (t / attn.blockSize), attn.kvHead h, t % attn.blockSize, d] := by
  obtain ⟨⟨dims, entry⟩, hmatrix, hdims, hentry⟩ :=
    @attnMatrix_spec R attn scale q keyCache table ctxLen _ numBlocks place hq hkeys hheads
      hblock htable
  dsimp only at hdims
  subst hdims
  obtain ⟨output, hfold, houtput⟩ := @output_spec R attn valueCache table ctxLen _ numBlocks place
    (Tensor.mapRows softmax ⟨[attn.numHeads, ctxLen], entry⟩).entry hvalues hheads hblock htable
  refine ⟨_, ⟨_, output⟩, ?_, rfl, hentry, fun h hh d => houtput h hh d⟩
  have hattend : attn.attend scale softmax q keyCache valueCache table ctxLen =
      (attn.attnMatrix scale q keyCache table ctxLen (attn.numBlocksOf ctxLen)).bind fun attnT =>
        ((List.range (attn.numBlocksOf ctxLen)).foldlM (fun output blockIdx =>
          (attn.blockContrib valueCache table ctxLen (attnT.mapRows softmax) blockIdx).bind
            output.add) (Tensor.zeros [1, attn.numHeads, attn.headDim])).bind fun output =>
              some (some attnT, output) := by
    rw [attend, if_neg (by omega), if_neg (by omega)]
    rfl
  rw [hmatrix, Option.bind_some] at hattend
  exact hattend.trans (congrArg (Option.bind · _) hfold)

/-- With a single key/value head, the squeeze takes its dimension away. -/
theorem attend_single {numBlocks : ℕ} {softmax : List R → List R}
    (hkeys : keyCache.dims = [numBlocks, attn.numKvHeads, attn.blockSize, attn.headDim])
    (hone : attn.numKvHeads = 1) (hctx : 0 < ctxLen) :
    attn.attend scale softmax q keyCache valueCache table ctxLen = none := by
  have hscores : ∀ tbl, attn.blockScores scale q keyCache tbl = none := by
    intro tbl
    rw [Option.eq_none_iff_forall_ne_some]
    intro scores hscores
    obtain ⟨block, hget, hscores⟩ := Option.bind_eq_some_iff.mp hscores
    obtain ⟨squeezed, hsqueeze, hscores⟩ := Option.bind_eq_some_iff.mp hscores
    obtain ⟨expanded, hexpand, hscores⟩ := Option.bind_eq_some_iff.mp hscores
    obtain ⟨kT, htranspose, _⟩ := Option.bind_eq_some_iff.mp hscores
    have hblock : block.dims = [1, attn.blockSize, attn.headDim] := by
      rw [Tensor.get, hkeys, hone] at hget
      dsimp only at hget
      split at hget
      · cases hget
        rfl
      · cases hget
    have hsqueezed : squeezed.dims = [attn.blockSize, attn.headDim] := by
      rw [Tensor.squeeze, hblock] at hsqueeze
      cases hsqueeze
      rfl
    have hrank := expandKvForGqa_rank hexpand
    rw [hsqueezed] at hrank
    rw [Tensor.transpose, hrank] at htranspose
    cases htranspose
  have hgather : ∀ j, attn.gatherBlock scale q keyCache table ctxLen j = none := by
    intro j
    rw [gatherBlock]
    cases table j with
    | none => rfl
    | some tbl => simp [hscores]
  rw [attend, if_neg (by omega)]
  by_cases hblock : attn.blockSize = 0
  · rw [if_pos hblock]
    rfl
  · have hblocks : 0 < attn.numBlocksOf ctxLen :=
      Nat.div_pos (by omega) (Nat.pos_of_ne_zero hblock)
    have hmatrix : attn.attnMatrix scale q keyCache table ctxLen (attn.numBlocksOf ctxLen) =
        none := by
      rw [attnMatrix, Tensor.mapM_eq_none (List.mem_range.mpr hblocks) (hgather 0)]
      rfl
    rw [if_neg hblock]
    exact congrArg (Option.bind · _) hmatrix

end Sequence

end PagedAttention
end Kyro
