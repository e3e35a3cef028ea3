import Kyro.Proof.Model.PagedSequence
import Mathlib.Algebra.Ring.Rat

/-!
# Paged attention against dense attention

What a head reads for a token is the score of dense attention exactly where it reads its own. On all
inputs of a layout it does so only in blocks or contexts of a single token.
-/

namespace Kyro
namespace PagedAttention

variable {R : Type} {attn : PagedAttention}

/-! ### The batch -/

section Batch

variable {scale : R} {softmax : List R → List R} {query keyCache valueCache : Tensor R}
  {blockTable contextLens : Tensor Int64} {batch numBlocks tableWidth : ℕ}

/-- The context length of a sequence. -/
def ctxLenOf (contextLens : Tensor Int64) (b : ℕ) : ℕ := asUsize (contextLens.entry [b])

/-- The block at a place of a sequence's table. -/
def placeOf (blockTable : Tensor Int64) (b j : ℕ) : ℕ := asUsize (blockTable.entry [b, j])

/-- Tables and context lengths: contexts are not empty and lie within their tables, and the blocks
that they use are blocks of the caches. -/
structure Layout (attn : PagedAttention) (blockTable contextLens : Tensor Int64)
    (batch numBlocks tableWidth : ℕ) : Prop where
  groups : attn.numKvHeads ∣ attn.numHeads
  table : blockTable.dims = [batch, tableWidth]
  lens : contextLens.dims = [batch]
  context : ∀ b < batch, 0 < ctxLenOf contextLens b ∧
    ctxLenOf contextLens b ≤ tableWidth * attn.blockSize
  place : ∀ b < batch, ∀ j, j * attn.blockSize < ctxLenOf contextLens b →
    placeOf blockTable b j < numBlocks

/-- The shapes of the query and the caches. -/
structure Shapes (attn : PagedAttention) (query keyCache valueCache : Tensor R)
    (batch numBlocks : ℕ) : Prop where
  query : query.dims = [batch, attn.numHeads, attn.headDim]
  keys : keyCache.dims = [numBlocks, attn.numKvHeads, attn.blockSize, attn.headDim]
  values : valueCache.dims = [numBlocks, attn.numKvHeads, attn.blockSize, attn.headDim]

section Score

variable [CommSemiring R]

/-- The score of dense attention for a head and a token of a sequence. -/
def score (attn : PagedAttention) (scale : R) (query keyCache : Tensor R)
    (blockTable : Tensor Int64) (b h t : ℕ) : R :=
  scale * ∑ d ∈ Finset.range attn.headDim, query.entry [b, h, d] *
    keyCache.entry [placeOf blockTable b (t / attn.blockSize), attn.kvHead h, t % attn.blockSize, d]

/-- The token whose score is read for a head and a token. -/
def readToken (attn : PagedAttention) (ctxLen h t : ℕ) : ℕ :=
  t / attn.blockSize * attn.blockSize + attn.readPlace ctxLen h t

/-- **Paged attention is dense attention** on these inputs: for every head of every sequence, the
kernel returns, the matrix that `softmax` is given has the scores of all tokens, and the output is
the weighted sum of their value rows. -/
def Dense (attn : PagedAttention) (scale : R) (softmax : List R → List R)
    (query keyCache valueCache : Tensor R) (blockTable contextLens : Tensor Int64)
    (batch : ℕ) : Prop :=
  ∀ b < batch, ∀ h < attn.numHeads, ∃ matrices output matrix,
    attn.pagedAttentionKernel scale softmax query keyCache valueCache blockTable contextLens =
      some (matrices, output) ∧
    matrices[b]? = some (some matrix) ∧
    (∀ t < ctxLenOf contextLens b, matrix.entry [h, t] =
      attn.score scale query keyCache blockTable b h t) ∧
    ∀ d < attn.headDim, output.entry [b, h, d] = ∑ t ∈ Finset.range (ctxLenOf contextLens b),
      weight softmax matrix (ctxLenOf contextLens b) h t *
        valueCache.entry [placeOf blockTable b (t / attn.blockSize), attn.kvHead h,
          t % attn.blockSize, d]

/-! ### The kernel -/

theorem Layout.blockSize_pos
    (hlayout : Layout attn blockTable contextLens batch numBlocks tableWidth) {b : ℕ}
    (hb : b < batch) : 0 < attn.blockSize := by
  obtain ⟨hctx, hwidth⟩ := hlayout.context b hb
  refine Nat.pos_of_ne_zero fun h => ?_
  rw [h, Nat.mul_zero] at hwidth
  omega

theorem tableEntry_eq (hlayout : Layout attn blockTable contextLens batch numBlocks tableWidth)
    {b j : ℕ} (hb : b < batch) (hj : j < tableWidth) :
    tableEntry blockTable b j = some (placeOf blockTable b j) := by
  obtain ⟨dims, entry⟩ := blockTable
  have hdims : dims = [batch, tableWidth] := hlayout.table
  subst hdims
  simp only [tableEntry, Tensor.get_cons hb, Tensor.get_cons hj, Option.bind_eq_bind,
    Option.bind_some]
  rfl

theorem attendSequence_eq (hlayout : Layout attn blockTable contextLens batch numBlocks tableWidth)
    (hshapes : Shapes attn query keyCache valueCache batch numBlocks) {b : ℕ} (hb : b < batch) :
    attn.attendSequence scale softmax query keyCache valueCache blockTable contextLens b =
      attn.attend scale softmax ⟨[1, attn.numHeads, attn.headDim], fun idx =>
        query.entry (b :: idx.eraseIdx 0)⟩ keyCache valueCache (tableEntry blockTable b)
        (ctxLenOf contextLens b) := by
  obtain ⟨queryDims, queryEntry⟩ := query
  obtain ⟨lenDims, lenEntry⟩ := contextLens
  have hquery : queryDims = [batch, attn.numHeads, attn.headDim] := hshapes.query
  have hlens : lenDims = [batch] := hlayout.lens
  subst hquery hlens
  simp only [attendSequence, Tensor.get_cons hb, Option.bind_eq_bind, Option.bind_some]
  rfl

/-- What a sequence gets: the scores that are read, and an output that is weighted as it should
be. -/
structure Attended (attn : PagedAttention) (scale : R) (softmax : List R → List R)
    (query keyCache valueCache : Tensor R) (blockTable contextLens : Tensor Int64) (b : ℕ)
    (matrix : Tensor R) (output : List ℕ → R) : Prop where
  scores : ∀ h < attn.numHeads, ∀ t < ctxLenOf contextLens b, matrix.entry [h, t] =
    attn.score scale query keyCache blockTable b (attn.readHead (ctxLenOf contextLens b) h t)
      (attn.readToken (ctxLenOf contextLens b) h t)
  values : ∀ h < attn.numHeads, ∀ d, output [h, d] =
    ∑ t ∈ Finset.range (ctxLenOf contextLens b),
      weight softmax matrix (ctxLenOf contextLens b) h t *
        valueCache.entry [placeOf blockTable b (t / attn.blockSize), attn.kvHead h,
          t % attn.blockSize, d]

theorem attendSequence_spec
    (hlayout : Layout attn blockTable contextLens batch numBlocks tableWidth)
    (hshapes : Shapes attn query keyCache valueCache batch numBlocks)
    (hheads : 0 < attn.numHeads) (hone : attn.numKvHeads ≠ 1) {b : ℕ} (hb : b < batch) :
    ∃ matrix output,
      attn.attendSequence scale softmax query keyCache valueCache blockTable contextLens b =
        some (some matrix, output) ∧ output.dims = [1, attn.numHeads, attn.headDim] ∧
      Attended attn scale softmax query keyCache valueCache blockTable contextLens b matrix
        fun idx => output.entry (0 :: idx) := by
  obtain ⟨hctx, hwidth⟩ := hlayout.context b hb
  have hblock := hlayout.blockSize_pos hb
  have htable : ∀ j < attn.numBlocksOf (ctxLenOf contextLens b),
      tableEntry blockTable b j = some (placeOf blockTable b j) ∧
        placeOf blockTable b j < numBlocks := by
    intro j hj
    have hlt : j < tableWidth := Nat.lt_of_mul_lt_mul_right ((start_lt hj).trans_le hwidth)
    exact ⟨tableEntry_eq hlayout hb hlt, hlayout.place b hb j (start_lt hj)⟩
  rw [attendSequence_eq hlayout hshapes hb]
  obtain ⟨matrix, output, hattend, hdims, hmatrix, houtput⟩ :=
    @attend_spec R attn scale ⟨[1, attn.numHeads, attn.headDim], fun idx =>
      query.entry (b :: idx.eraseIdx 0)⟩ keyCache valueCache (tableEntry blockTable b)
      (ctxLenOf contextLens b) _ numBlocks (placeOf blockTable b) softmax rfl hshapes.keys
      hshapes.values ⟨hlayout.groups, hheads, hone⟩ hblock hctx htable
  refine ⟨matrix, output, hattend, hdims, fun h hh t ht => ?_, houtput⟩
  have hplace : attn.readPlace (ctxLenOf contextLens b) h t < attn.blockSize :=
    (Nat.mod_lt _ (Nat.zero_lt_of_lt (mod_lt_blockLen hblock ht))).trans_le
      (attn.blockLen_le _ _)
  rw [hmatrix h hh t ht, blockScore, score, readToken, mul_comm, Nat.mul_comm (t / attn.blockSize),
    Nat.mul_add_div hblock, Nat.mul_add_mod, Nat.div_eq_of_lt hplace, Nat.mod_eq_of_lt hplace,
    Nat.add_zero]
  rfl

/-- **The kernel** returns, unless there is a single key/value head. -/
theorem kernel_spec (hlayout : Layout attn blockTable contextLens batch numBlocks tableWidth)
    (hshapes : Shapes attn query keyCache valueCache batch numBlocks)
    (hheads : 0 < attn.numHeads) (hone : attn.numKvHeads ≠ 1) (hbatch : 0 < batch) :
    ∃ matrices output,
      attn.pagedAttentionKernel scale softmax query keyCache valueCache blockTable contextLens =
        some (matrices, output) ∧
      ∀ b < batch, ∃ matrix, matrices[b]? = some (some matrix) ∧
        Attended attn scale softmax query keyCache valueCache blockTable contextLens b matrix
          fun idx => output.entry (b :: idx) := by
  have hall : ∀ b, ∃ matrix output, b < batch →
      attn.attendSequence scale softmax query keyCache valueCache blockTable contextLens b =
        some (some matrix, output) ∧ output.dims = [1, attn.numHeads, attn.headDim] ∧
      Attended attn scale softmax query keyCache valueCache blockTable contextLens b matrix
        fun idx => output.entry (0 :: idx) := by
    intro b
    by_cases hb : b < batch
    · obtain ⟨matrix, output, hspec⟩ := @attendSequence_spec R attn scale softmax query keyCache
        valueCache blockTable contextLens batch numBlocks tableWidth _ hlayout hshapes hheads hone
        b hb
      exact ⟨matrix, output, fun _ => hspec⟩
    · exact ⟨.zeros [], .zeros [], fun h => absurd h hb⟩
  choose matrix output hspec using hall
  have hsequences : (List.range batch).mapM
      (attn.attendSequence scale softmax query keyCache valueCache blockTable contextLens) =
        some ((List.range batch).map fun b => (some (matrix b), output b)) :=
    Tensor.mapM_eq_some fun b hb => (hspec b (List.mem_range.mp hb)).1
  obtain ⟨outputs, hcat, _, hentry⟩ := @Tensor.cat_rows R ((List.range batch).map output)
    [attn.numHeads, attn.headDim] (List.ne_nil_of_length_pos (by simpa using hbatch))
    (by
      intro t ht
      obtain ⟨b, hb, rfl⟩ := List.mem_map.mp ht
      exact (hspec b (List.mem_range.mp hb)).2.1)
  refine ⟨(List.range batch).map fun b => some (matrix b), outputs, ?_, fun b hb => ?_⟩
  · rw [pagedAttentionKernel, Tensor.dim, hshapes.query]
    simp only [List.getElem?_cons_zero, Option.bind_eq_bind, Option.bind_some, hsequences,
      List.map_map]
    show (Tensor.cat 0 ((List.range batch).map output)).bind _ = _
    rw [hcat]
    rfl
  · refine ⟨matrix b, ?_, (hspec b hb).2.2.scores, fun h hh d => ?_⟩
    · rw [List.getElem?_map, List.getElem?_range hb]
      rfl
    · rw [hentry b (by simpa using hb)]
      simpa using (hspec b hb).2.2.values h hh d

theorem kernel_single (hlayout : Layout attn blockTable contextLens batch numBlocks tableWidth)
    (hshapes : Shapes attn query keyCache valueCache batch numBlocks)
    (hone : attn.numKvHeads = 1) (hbatch : 0 < batch) :
    attn.pagedAttentionKernel scale softmax query keyCache valueCache blockTable contextLens =
      none := by
  have hfirst : attn.attendSequence scale softmax query keyCache valueCache blockTable contextLens
      0 = none := by
    rw [attendSequence_eq hlayout hshapes hbatch]
    exact attend_single hshapes.keys hone (hlayout.context 0 hbatch).1
  rw [pagedAttentionKernel, Tensor.dim, hshapes.query]
  simp only [List.getElem?_cons_zero, Option.bind_eq_bind, Option.bind_some,
    Tensor.mapM_eq_none (List.mem_range.mpr hbatch) hfirst]
  rfl

/-! ### When they agree -/

theorem dense_iff_scores
    (hlayout : Layout attn blockTable contextLens batch numBlocks tableWidth)
    (hshapes : Shapes attn query keyCache valueCache batch numBlocks) :
    Dense attn scale softmax query keyCache valueCache blockTable contextLens batch ↔
      ∀ b < batch, ∀ h < attn.numHeads, attn.numKvHeads ≠ 1 ∧ ∀ t < ctxLenOf contextLens b,
        attn.score scale query keyCache blockTable b (attn.readHead (ctxLenOf contextLens b) h t)
          (attn.readToken (ctxLenOf contextLens b) h t) =
            attn.score scale query keyCache blockTable b h t := by
  constructor
  · intro hdense b hb h hh
    obtain ⟨matrices, output, matrix, hkernel, hmatrix, hscores, _⟩ := hdense b hb h hh
    have hone : attn.numKvHeads ≠ 1 := by
      intro hone
      rw [kernel_single hlayout hshapes hone (Nat.zero_lt_of_lt hb)] at hkernel
      cases hkernel
    refine ⟨hone, fun t ht => ?_⟩
    obtain ⟨matrices', output', hkernel', hall⟩ := @kernel_spec R attn scale softmax query keyCache
      valueCache blockTable contextLens batch numBlocks tableWidth _ hlayout hshapes
      (Nat.zero_lt_of_lt hh) hone (Nat.zero_lt_of_lt hb)
    rw [hkernel] at hkernel'
    cases hkernel'
    obtain ⟨matrix', hmatrix', hattended⟩ := hall b hb
    rw [hmatrix] at hmatrix'
    cases hmatrix'
    rw [← hattended.scores h hh t ht, hscores t ht]
  · intro hscores b hb h hh
    obtain ⟨hone, hread⟩ := hscores b hb h hh
    obtain ⟨matrices, output, hkernel, hall⟩ := @kernel_spec R attn scale softmax query keyCache
      valueCache blockTable contextLens batch numBlocks tableWidth _ hlayout hshapes
      (Nat.zero_lt_of_lt hh) hone (Nat.zero_lt_of_lt hb)
    obtain ⟨matrix, hmatrix, hattended⟩ := hall b hb
    refine ⟨matrices, output, matrix, hkernel, hmatrix, fun t ht => ?_, fun d _ => ?_⟩
    · rw [hattended.scores h hh t ht, hread t ht]
    · exact hattended.values h hh d

/-- In a block of one token, every head reads its own scores. -/
theorem read_of_blockLen_one {ctxLen h t : ℕ} (hblock : 0 < attn.blockSize) (ht : t < ctxLen)
    (hlen : attn.blockLen ctxLen (t / attn.blockSize) = 1) :
    attn.readHead ctxLen h t = h ∧ attn.readToken ctxLen h t = t := by
  have hmod : t % attn.blockSize = 0 := by
    have hlt := mod_lt_blockLen hblock ht
    omega
  have hdiv := Nat.div_add_mod' t attn.blockSize
  rw [readHead, readToken, readPlace, hlen, hmod, Nat.zero_mul, Nat.zero_add, Nat.div_one,
    Nat.mod_one]
  exact ⟨rfl, by omega⟩

/-- In blocks or contexts of one token, every head reads its own scores. -/
theorem read_own (hlayout : Layout attn blockTable contextLens batch numBlocks tableWidth)
    (hone : attn.blockSize = 1 ∨ ∀ b < batch, ctxLenOf contextLens b = 1) {b t : ℕ} (hb : b < batch)
    (ht : t < ctxLenOf contextLens b) (h : ℕ) :
    attn.readHead (ctxLenOf contextLens b) h t = h ∧
      attn.readToken (ctxLenOf contextLens b) h t = t := by
  have hblock := hlayout.blockSize_pos hb
  refine read_of_blockLen_one hblock ht ?_
  rw [blockLen]
  cases hone with
  | inl hone =>
      rw [hone, Nat.div_one]
      omega
  | inr hone =>
      have hctx := hone b hb
      obtain rfl : t = 0 := by omega
      rw [Nat.zero_div]
      omega

/-- Where a block has a second token, the second head reads a score of the first. -/
theorem readHead_second {ctxLen : ℕ} (hblock : 2 ≤ attn.blockSize) (hctx : 2 ≤ ctxLen) :
    attn.readHead ctxLen 1 0 = 0 := by
  rw [readHead, Nat.zero_mod, Nat.zero_mul, Nat.zero_add, Nat.zero_div]
  refine Nat.div_eq_of_lt ?_
  rw [blockLen]
  omega

theorem Layout.two_heads
    (hlayout : Layout attn blockTable contextLens batch numBlocks tableWidth)
    (hheads : attn.numHeads ≠ 0) (hone : attn.numKvHeads ≠ 1) : 2 ≤ attn.numHeads := by
  have hle := Nat.le_of_dvd (Nat.pos_of_ne_zero hheads) hlayout.groups
  have hne : attn.numKvHeads ≠ 0 := fun h => hheads (Nat.zero_dvd.mp (h ▸ hlayout.groups))
  omega

/-- The query of the first head alone, with all keys alike: the second head reads the score of the
first where there is a second token. -/
theorem score_of_first_head (hhead : 0 < attn.headDim) (b h t : ℕ) :
    attn.score scale ⟨[batch, attn.numHeads, attn.headDim], fun idx =>
      if idx = [b, 0, 0] then 1 else 0⟩
      ⟨[numBlocks, attn.numKvHeads, attn.blockSize, attn.headDim], fun _ => 1⟩ blockTable b h t =
        if h = 0 then scale else 0 := by
  rw [score]
  by_cases hh : h = 0
  · subst hh
    simp [Finset.sum_ite_eq', hhead]
  · simp [hh]

/-- **When paged attention is dense attention.** On given inputs it is exactly where the scores that
are read are those of the heads and tokens they are read for; and on all inputs of a layout exactly
where no head can read another's score and the blocks can be expanded. -/
theorem dense_iff (hlayout : Layout attn blockTable contextLens batch numBlocks tableWidth)
    (softmax : List R → List R) (hscale : scale ≠ 0) :
    (∀ query keyCache valueCache, Shapes attn query keyCache valueCache batch numBlocks →
      (Dense attn scale softmax query keyCache valueCache blockTable contextLens batch ↔
        ∀ b < batch, ∀ h < attn.numHeads, attn.numKvHeads ≠ 1 ∧ ∀ t < ctxLenOf contextLens b,
          attn.score scale query keyCache blockTable b
            (attn.readHead (ctxLenOf contextLens b) h t)
            (attn.readToken (ctxLenOf contextLens b) h t) =
              attn.score scale query keyCache blockTable b h t)) ∧
    ((∀ query keyCache valueCache, Shapes attn query keyCache valueCache batch numBlocks →
        Dense attn scale softmax query keyCache valueCache blockTable contextLens batch) ↔
      batch = 0 ∨ attn.numHeads = 0 ∨ attn.numKvHeads ≠ 1 ∧
        (attn.headDim = 0 ∨ attn.blockSize = 1 ∨ ∀ b < batch, ctxLenOf contextLens b = 1)) := by
  refine ⟨fun query keyCache valueCache hshapes => dense_iff_scores hlayout hshapes, ?_, ?_⟩
  · intro hall
    by_contra hnone
    simp only [not_or, not_and, not_forall] at hnone
    obtain ⟨hbatch, hheads, hnone⟩ := hnone
    have hscores := fun b (hb : b < batch) =>
      (dense_iff_scores hlayout ⟨rfl, rfl, rfl⟩).mp (hall
        ⟨[batch, attn.numHeads, attn.headDim], fun idx => if idx = [b, 0, 0] then 1 else 0⟩
        ⟨[numBlocks, attn.numKvHeads, attn.blockSize, attn.headDim], fun _ => 1⟩
        ⟨[numBlocks, attn.numKvHeads, attn.blockSize, attn.headDim], fun _ => 1⟩
        ⟨rfl, rfl, rfl⟩) b hb
    have hone := (hscores 0 (by omega) 0 (by omega)).1
    obtain ⟨hhead, hblock, b, hb, hctx⟩ := hnone hone
    have hblock' := hlayout.blockSize_pos hb
    have hctx' := (hlayout.context b hb).1
    have hread : attn.readHead (ctxLenOf contextLens b) 1 0 = 0 :=
      readHead_second (by omega) (by omega)
    have hsame := (hscores b hb 1 (hlayout.two_heads hheads hone)).2 0 hctx'
    rw [score_of_first_head (Nat.pos_of_ne_zero hhead), hread, if_pos rfl,
      score_of_first_head (Nat.pos_of_ne_zero hhead), if_neg Nat.one_ne_zero] at hsame
    exact hscale hsame
  · intro hcond query keyCache valueCache hshapes
    refine (dense_iff_scores hlayout hshapes).mpr fun b hb h hh => ?_
    obtain hnone | hnone | ⟨hone, hcond⟩ := hcond
    · omega
    · omega
    · refine ⟨hone, fun t ht => ?_⟩
      obtain hhead | hcond := hcond
      · simp [score, hhead]
      · obtain ⟨hhead, htoken⟩ := read_own hlayout hcond hb ht h
        rw [hhead, htoken]

end Score

end Batch

/-- A table of two places, both of the block 0, and a context of two tokens. -/
def twoPlaces : Tensor Int64 := ⟨[1, 2], fun _ => 0⟩

def twoTokens : Tensor Int64 := ⟨[1], fun _ => 2⟩

/-- Two heads and blocks of one token; all scores are the same, so all weights are. -/
theorem dense_of_single_tokens :
    Dense ⟨1, 2, 1, 2⟩ (1 : ℚ) (fun row => row.map fun _ => 1 / row.length)
      ⟨[1, 2, 1], fun _ => 1⟩ ⟨[1, 2, 1, 1], fun _ => 1⟩ ⟨[1, 2, 1, 1], fun idx => idx.sum⟩
      twoPlaces twoTokens 1 := by
  have hlayout : Layout ⟨1, 2, 1, 2⟩ twoPlaces twoTokens 1 1 2 :=
    ⟨by decide, rfl, rfl, by decide, fun _ _ _ _ => (by decide : asUsize 0 < 1)⟩
  exact (dense_iff hlayout (fun row => row.map fun _ => (1 : ℚ) / row.length) one_ne_zero).2.mpr
    (Or.inr (Or.inr ⟨by decide, Or.inr (Or.inl rfl)⟩)) _ _ _ ⟨rfl, rfl, rfl⟩

/-- The queries of two heads, and a block of two tokens. -/
def twoQueries : Tensor ℤ := ⟨[1, 2, 1], fun idx => if idx = [0, 0, 0] then 1 else 10⟩

def twoRows : Tensor ℤ :=
  ⟨[1, 2, 2, 1], fun idx => 100 + 10 * (idx.getD 1 0 : ℤ) + (idx.getD 2 0 : ℤ)⟩

/-- The first head reads, for the second token, the score of the second head with the first. -/
theorem heads_mixed :
    (∃ matrices output matrix,
      pagedAttentionKernel ⟨2, 2, 1, 2⟩ 1 id twoQueries twoRows twoRows twoPlaces twoTokens =
        some (matrices, output) ∧ matrices[0]? = some (some matrix) ∧
      matrix.entry [0, 1] = 1100 ∧
      score ⟨2, 2, 1, 2⟩ 1 twoQueries twoRows twoPlaces 0 0 1 = 101) ∧
    ¬ Dense ⟨2, 2, 1, 2⟩ 1 id twoQueries twoRows twoRows twoPlaces twoTokens 1 := by
  have hread : ∃ matrices output matrix,
      pagedAttentionKernel ⟨2, 2, 1, 2⟩ 1 id twoQueries twoRows twoRows twoPlaces twoTokens =
        some (matrices, output) ∧ matrices[0]? = some (some matrix) ∧
      matrix.entry [0, 1] = 1100 ∧
      score ⟨2, 2, 1, 2⟩ 1 twoQueries twoRows twoPlaces 0 0 1 = 101 :=
    ⟨_, _, _, rfl, rfl, rfl, rfl⟩
  refine ⟨hread, fun hdense => ?_⟩
  obtain ⟨matrices, output, matrix, hkernel, hmatrix, hentry, hscore⟩ := hread
  obtain ⟨_, _, _, hkernel', hmatrix', hscores, _⟩ := hdense 0 (by decide) 0 (by decide)
  rw [hkernel] at hkernel'
  cases hkernel'
  rw [hmatrix] at hmatrix'
  cases hmatrix'
  have hsame := hscores 1 (by decide)
  rw [hentry, hscore] at hsame
  cases hsame

end PagedAttention
end Kyro
