import Kyro.Model.Pipeline
import Kyro.Lib.Run
import Mathlib.Algebra.Order.Floor.Div

/-!
# Stages partition the layers

A rank starts at its number times the length of a run. As long as no such product wraps, and no sum
where the run of a rank begins below the number of layers, the runs follow one another. A run whose
end wraps is empty, and one whose start wraps repeats layers of an earlier rank.
-/

namespace Kyro

namespace PipelineContext

/-- The layers that a rank gets, short of the last one perhaps. -/
def layersPerGpu (worldSize totalLayers : ℕ) : ℕ := (totalLayers + worldSize - 1) / worldSize

/-- The context of a rank in a group that is not empty. -/
def ofRank (worldSize totalLayers rank : ℕ) : PipelineContext where
  rank := rank
  worldSize := worldSize
  startLayer := wrappingMul rank (layersPerGpu worldSize totalLayers)
  endLayer := min (wrappingAdd (wrappingMul rank (layersPerGpu worldSize totalLayers))
    (layersPerGpu worldSize totalLayers)) totalLayers

theorem new_eq {worldSize : ℕ} (hworld : 0 < worldSize) (rank totalLayers : ℕ) :
    new rank worldSize totalLayers = .ok (ofRank worldSize totalLayers rank) := by
  rw [new, divCeil_of_pos hworld, Machine.ok_bind]
  rfl

/-- No start of a run wraps, and no end of a run that begins below the number of layers. -/
def NoWrap (worldSize totalLayers : ℕ) : Prop :=
  ∀ rank < worldSize, rank * layersPerGpu worldSize totalLayers < 2 ^ 64 ∧
    (rank * layersPerGpu worldSize totalLayers < totalLayers →
      rank * layersPerGpu worldSize totalLayers + layersPerGpu worldSize totalLayers < 2 ^ 64)

instance (worldSize totalLayers : ℕ) : Decidable (NoWrap worldSize totalLayers) :=
  inferInstanceAs (Decidable (∀ rank < worldSize, _))

section Runs

variable {worldSize totalLayers : ℕ}

theorem le_mul_layersPerGpu (hworld : 0 < worldSize) :
    totalLayers ≤ worldSize * layersPerGpu worldSize totalLayers := by
  have hle := le_smul_ceilDiv (α := ℕ) hworld (b := totalLayers)
  rwa [Nat.ceilDiv_eq_add_pred_div, smul_eq_mul] at hle

theorem mul_layersPerGpu_le (worldSize totalLayers : ℕ) :
    worldSize * layersPerGpu worldSize totalLayers ≤ totalLayers + worldSize - 1 :=
  Nat.mul_div_le _ _

theorem layerRange_ofRank (worldSize totalLayers rank : ℕ) :
    (ofRank worldSize totalLayers rank).layerRange =
      List.range' (wrappingMul rank (layersPerGpu worldSize totalLayers))
        (min (wrappingAdd (wrappingMul rank (layersPerGpu worldSize totalLayers))
          (layersPerGpu worldSize totalLayers)) totalLayers -
          wrappingMul rank (layersPerGpu worldSize totalLayers)) := rfl

/-- The run of a rank where nothing wraps. -/
def run (worldSize totalLayers rank : ℕ) : List ℕ :=
  List.range' (rank * layersPerGpu worldSize totalLayers)
    (min (rank * layersPerGpu worldSize totalLayers + layersPerGpu worldSize totalLayers)
      totalLayers - rank * layersPerGpu worldSize totalLayers)

theorem layerRange_eq (h : NoWrap worldSize totalLayers) {rank : ℕ} (hrank : rank < worldSize) :
    (ofRank worldSize totalLayers rank).layerRange = run worldSize totalLayers rank := by
  obtain ⟨hstart, hend⟩ := h rank hrank
  rw [layerRange_ofRank, run, wrappingMul_of_lt hstart]
  by_cases hlt : rank * layersPerGpu worldSize totalLayers < totalLayers
  · rw [wrappingAdd_of_lt (hend hlt)]
  · congr 1
    omega

theorem mem_run {rank index : ℕ} : index ∈ run worldSize totalLayers rank ↔
    index < totalLayers ∧ rank * layersPerGpu worldSize totalLayers ≤ index ∧
      index < (rank + 1) * layersPerGpu worldSize totalLayers := by
  rw [run, List.mem_range'_1, Nat.add_mul, Nat.one_mul]
  omega

/-- The runs of the first ranks, one after another. -/
theorem flatten_run (worldSize totalLayers n : ℕ) :
    ((List.range n).map (run worldSize totalLayers)).flatten =
      List.range (min (n * layersPerGpu worldSize totalLayers) totalLayers) := by
  induction n with
  | zero => simp
  | succ n ih =>
      rw [List.range_succ, List.map_append, List.flatten_append, ih, List.map_singleton,
        List.flatten_singleton, run, Nat.add_mul, Nat.one_mul]
      generalize layersPerGpu worldSize totalLayers = l
      by_cases hlt : n * l < totalLayers
      · have happend := List.range'_append_1 (s := 0) (m := n * l)
          (n := min (n * l + l) totalLayers - n * l)
        rw [Nat.zero_add] at happend
        rw [Nat.min_eq_left hlt.le, List.range_eq_range', happend, List.range_eq_range']
        congr 1
        omega
      · have hempty : min (n * l + l) totalLayers - n * l = 0 := by omega
        rw [hempty, List.range'_zero, List.append_nil]
        congr 1
        omega

/-- With no wrap every layer has one owner. -/
theorem owner_of_noWrap (hworld : 0 < worldSize) (h : NoWrap worldSize totalLayers) {index : ℕ}
    (hindex : index < totalLayers) :
    ∃! rank, rank < worldSize ∧
      (ofRank worldSize totalLayers rank).shouldProcessLayer index = true := by
  have hmem : ∀ rank < worldSize,
      ((ofRank worldSize totalLayers rank).shouldProcessLayer index = true ↔
        rank * layersPerGpu worldSize totalLayers ≤ index ∧
          index < (rank + 1) * layersPerGpu worldSize totalLayers) := by
    intro rank hrank
    rw [← mem_layerRange, layerRange_eq h hrank, mem_run]
    exact and_iff_right hindex
  have hcover := hindex.trans_le (le_mul_layersPerGpu hworld)
  have hpos : 0 < layersPerGpu worldSize totalLayers := by
    refine Nat.pos_of_ne_zero fun hzero => ?_
    rw [hzero, Nat.mul_zero] at hcover
    exact Nat.not_lt_zero _ hcover
  have hrank : index / layersPerGpu worldSize totalLayers < worldSize :=
    (Nat.div_lt_iff_lt_mul hpos).mpr hcover
  refine ⟨index / layersPerGpu worldSize totalLayers, ⟨hrank, (hmem _ hrank).mpr ?_⟩, ?_⟩
  · refine ⟨Nat.div_mul_le_self _ _, ?_⟩
    rw [Nat.mul_comm]
    exact Nat.lt_mul_div_succ index hpos
  · intro rank hrank
    obtain ⟨hle, hlt⟩ := (hmem rank hrank.1).mp hrank.2
    exact (Nat.div_eq_of_lt_le hle hlt).symm

/-- A start that wraps comes out below the number of layers, and so does the end of its run. -/
theorem layerRange_wrapped (hsize : worldSize < 2 ^ 64) {rank : ℕ} (hrank : rank < worldSize)
    (hlayers : totalLayers < 2 ^ 64)
    (hwrap : 2 ^ 64 ≤ rank * layersPerGpu worldSize totalLayers) :
    ∃ start, start + layersPerGpu worldSize totalLayers < totalLayers ∧
      (ofRank worldSize totalLayers rank).layerRange =
        List.range' start (layersPerGpu worldSize totalLayers) := by
  have hle := mul_layersPerGpu_le worldSize totalLayers
  have hnext : (rank + 1) * layersPerGpu worldSize totalLayers ≤
      worldSize * layersPerGpu worldSize totalLayers := Nat.mul_le_mul_right _ hrank
  rw [Nat.add_mul, Nat.one_mul] at hnext
  rw [layerRange_ofRank]
  generalize layersPerGpu worldSize totalLayers = l at hle hnext hwrap ⊢
  obtain ⟨start, hstart⟩ := Nat.exists_eq_add_of_le hwrap
  have hshort : start + l < totalLayers := by omega
  have hmul : wrappingMul rank l = start := by
    rw [wrappingMul, hstart, Nat.add_mod_left, Nat.mod_eq_of_lt (by omega)]
  refine ⟨start, hshort, ?_⟩
  rw [hmul, wrappingAdd_of_lt (hshort.trans hlayers), Nat.min_eq_left hshort.le,
    Nat.add_sub_cancel_left]

theorem layersPerGpu_le (hworld : 0 < worldSize) :
    layersPerGpu worldSize totalLayers ≤ totalLayers := by
  rw [layersPerGpu, Nat.div_le_iff_le_mul_add_pred hworld]
  have := Nat.le_mul_of_pos_left totalLayers hworld
  omega

section Flatten

variable (hflat : ((List.range worldSize).map fun rank =>
  (ofRank worldSize totalLayers rank).layerRange).flatten = List.range totalLayers)

include hflat

/-- Where the runs follow one another, those of later ranks have later layers. -/
theorem layerRange_ordered {rank later : ℕ} (hlater : rank < later) (hworld : later < worldSize)
    {index index' : ℕ} (hindex : index ∈ (ofRank worldSize totalLayers rank).layerRange)
    (hindex' : index' ∈ (ofRank worldSize totalLayers later).layerRange) : index < index' := by
  have hordered := List.pairwise_lt_range (n := totalLayers)
  rw [← hflat, List.pairwise_flatten, List.pairwise_map, List.pairwise_iff_getElem] at hordered
  have hruns := hordered.2 rank later (by simpa using hlater.trans hworld) (by simpa using hworld)
    hlater
  rw [List.getElem_range, List.getElem_range] at hruns
  exact hruns index hindex index' hindex'

/-- The last layer is in some run, whose start and end do not wrap. -/
theorem owner_of_last (hsize : worldSize < 2 ^ 64) (hlayers : totalLayers < 2 ^ 64)
    (hlen : layersPerGpu worldSize totalLayers ≤ totalLayers) (hpos : 0 < totalLayers) :
    ∃ owner < worldSize, totalLayers - 1 ∈ (ofRank worldSize totalLayers owner).layerRange ∧
      totalLayers ≤ owner * layersPerGpu worldSize totalLayers +
        layersPerGpu worldSize totalLayers ∧
      owner * layersPerGpu worldSize totalLayers + layersPerGpu worldSize totalLayers < 2 ^ 64 := by
  have hlast : totalLayers - 1 ∈ List.range totalLayers := by
    rw [List.mem_range]
    omega
  rw [← hflat] at hlast
  obtain ⟨_, hrun, hlast⟩ := List.mem_flatten.mp hlast
  obtain ⟨owner, howner, rfl⟩ := List.mem_map.mp hrun
  have howner := List.mem_range.mp howner
  refine ⟨owner, howner, hlast, ?_⟩
  have hstart : owner * layersPerGpu worldSize totalLayers < 2 ^ 64 := by
    by_contra hwrap
    obtain ⟨start, hshort, hrange⟩ :=
      layerRange_wrapped hsize howner hlayers (Nat.le_of_not_lt hwrap)
    rw [hrange, List.mem_range'_1] at hlast
    omega
  rw [layerRange_ofRank, wrappingMul_of_lt hstart, List.mem_range'_1] at hlast
  rw [wrappingAdd] at hlast
  omega

/-- Where the runs follow one another, nothing wraps. -/
theorem noWrap_of_flatten (hworld : 0 < worldSize) (hsize : worldSize < 2 ^ 64)
    (hlayers : totalLayers < 2 ^ 64) : NoWrap worldSize totalLayers := by
  have hlen : layersPerGpu worldSize totalLayers ≤ totalLayers := layersPerGpu_le hworld
  rcases Nat.eq_zero_or_pos totalLayers with rfl | hpos
  · intro rank _
    rw [Nat.le_zero.mp hlen, Nat.mul_zero]
    exact ⟨by omega, fun hlt => absurd hlt (Nat.lt_irrefl 0)⟩
  obtain ⟨owner, _, hlast, hcover, hend⟩ := owner_of_last hflat hsize hlayers hlen hpos
  intro rank hrank
  constructor
  · by_contra hwrap
    -- the run of this rank starts over, although it comes after the last layer
    obtain ⟨start, hshort, hrange⟩ :=
      layerRange_wrapped hsize hrank hlayers (Nat.le_of_not_lt hwrap)
    have hlater : owner < rank := by
      refine Nat.lt_of_mul_lt_mul_right (a := layersPerGpu worldSize totalLayers) ?_
      omega
    have hlong : 0 < layersPerGpu worldSize totalLayers := by
      refine Nat.pos_of_ne_zero fun hzero => hwrap ?_
      rw [hzero, Nat.mul_zero]
      exact Nat.two_pow_pos 64
    have hfirst : start ∈ (ofRank worldSize totalLayers rank).layerRange := by
      rw [hrange, List.mem_range'_1]
      omega
    have hordered := layerRange_ordered hflat hlater hrank hlast hfirst
    omega
  · intro hlt
    have hle : rank < owner + 1 := by
      refine Nat.lt_of_mul_lt_mul_right (hlt.trans_le ?_) (a := layersPerGpu worldSize totalLayers)
      rw [Nat.add_mul, Nat.one_mul]
      exact hcover
    have hmul := Nat.mul_le_mul_right (layersPerGpu worldSize totalLayers)
      (Nat.le_of_lt_succ hle)
    omega

end Flatten

end Runs

end PipelineContext

namespace Pipeline

variable {m : Type → Type} {α : Type} [Monad m] (checkpoint : Checkpoint m α)

/-- The ranks one after another, each on what the one before it returns. -/
def forwardRanks (ctx : ℕ → PipelineContext) (n : ℕ) (x : α) : m α :=
  (List.range n).foldlM (fun x rank => (LlamaModel.new checkpoint (ctx rank)).forward x) x

/-- The whole model. -/
def forwardAll (totalLayers : ℕ) (x : α) : m α := do
  let x ← checkpoint.embedTokens x
  let x ← forwardLayers ((List.range totalLayers).map checkpoint.layer) x
  let x ← checkpoint.norm x
  checkpoint.lmHead x

section Lawful

variable [LawfulMonad m]

theorem forwardRanks_succ (ctx : ℕ → PipelineContext) (n : ℕ) (x : α) :
    forwardRanks checkpoint ctx (n + 1) x = forwardRanks checkpoint ctx n x >>= fun x =>
      (LlamaModel.new checkpoint (ctx n)).forward x := by
  rw [forwardRanks, List.range_succ, List.foldlM_append]
  simp only [List.foldlM_cons, List.foldlM_nil, bind_pure, forwardRanks]

theorem forwardLayers_append (layers layers' : List (α → m α)) (x : α) :
    forwardLayers (layers ++ layers') x =
      forwardLayers layers x >>= fun x => forwardLayers layers' x :=
  List.foldlM_append

/-- A stage that is not the last one. -/
theorem forward_inner {ctx : PipelineContext} (hlast : ctx.isLastStage = false) (x : α) :
    (LlamaModel.new checkpoint ctx).forward x =
      (if ctx.isFirstStage then checkpoint.embedTokens x else pure x) >>= fun x =>
        forwardLayers (ctx.layerRange.map checkpoint.layer) x := by
  rw [LlamaModel.forward, LlamaModel.new, hlast]
  cases hfirst : ctx.isFirstStage <;> simp [part]

/-- The last stage. -/
theorem forward_last {ctx : PipelineContext} (hlast : ctx.isLastStage = true) (x : α) :
    (LlamaModel.new checkpoint ctx).forward x =
      ((if ctx.isFirstStage then checkpoint.embedTokens x else pure x) >>= fun x =>
        forwardLayers (ctx.layerRange.map checkpoint.layer) x) >>= fun x =>
          checkpoint.norm x >>= checkpoint.lmHead := by
  rw [LlamaModel.forward, LlamaModel.new, hlast]
  cases hfirst : ctx.isFirstStage <;> simp [part]

/-- The layers of the first ranks. -/
def layersOf (ctx : ℕ → PipelineContext) (n : ℕ) : List (α → m α) :=
  (((List.range n).map fun rank => (ctx rank).layerRange).flatten).map checkpoint.layer

omit [Monad m] [LawfulMonad m] in
theorem layersOf_succ (ctx : ℕ → PipelineContext) (n : ℕ) :
    layersOf checkpoint ctx (n + 1) =
      layersOf checkpoint ctx n ++ (ctx n).layerRange.map checkpoint.layer := by
  simp [layersOf, List.range_succ]

variable {worldSize totalLayers : ℕ}

/-- **Ranks short of the last one** embed once and run their layers. -/
theorem forwardRanks_front {n : ℕ} (hn : n + 1 < worldSize) (x : α) :
    forwardRanks checkpoint (.ofRank worldSize totalLayers) (n + 1) x =
      checkpoint.embedTokens x >>= fun x =>
        forwardLayers (layersOf checkpoint (.ofRank worldSize totalLayers) (n + 1)) x := by
  induction n with
  | zero =>
      have hlast : (PipelineContext.ofRank worldSize totalLayers 0).isLastStage = false := by
        simp only [PipelineContext.isLastStage, PipelineContext.ofRank, beq_eq_false_iff_ne]
        omega
      rw [forwardRanks_succ, forwardRanks, List.range_zero, List.foldlM_nil, pure_bind,
        forward_inner checkpoint hlast, layersOf_succ]
      rfl
  | succ n ih =>
      have hlast : (PipelineContext.ofRank worldSize totalLayers (n + 1)).isLastStage = false := by
        simp only [PipelineContext.isLastStage, PipelineContext.ofRank, beq_eq_false_iff_ne]
        omega
      rw [forwardRanks_succ, ih (Nat.lt_of_succ_lt hn), bind_assoc, layersOf_succ _ _ (n + 1)]
      refine congrArg _ (funext fun x => ?_)
      rw [forwardLayers_append]
      refine congrArg _ (funext fun x => ?_)
      rw [forward_inner checkpoint hlast]
      exact pure_bind _ _

/-- **All ranks** embed once, run their layers, and project once. -/
theorem forwardRanks_all (hworld : 0 < worldSize) (x : α) :
    forwardRanks checkpoint (.ofRank worldSize totalLayers) worldSize x =
      (checkpoint.embedTokens x >>= fun x =>
        forwardLayers (layersOf checkpoint (.ofRank worldSize totalLayers) worldSize) x) >>=
          fun x => checkpoint.norm x >>= checkpoint.lmHead := by
  obtain ⟨n, rfl⟩ := Nat.exists_eq_succ_of_ne_zero hworld.ne'
  have hlast : (PipelineContext.ofRank (n + 1) totalLayers n).isLastStage = true := by
    simp [PipelineContext.isLastStage, PipelineContext.ofRank]
  rw [forwardRanks_succ]
  cases n with
  | zero =>
      rw [forwardRanks, List.range_zero, List.foldlM_nil, pure_bind, forward_last checkpoint hlast,
        layersOf_succ]
      rfl
  | succ n =>
      rw [forwardRanks_front checkpoint (Nat.lt_succ_self _), bind_assoc, bind_assoc,
        layersOf_succ _ _ (n + 1)]
      refine congrArg _ (funext fun x => ?_)
      rw [forwardLayers_append, bind_assoc]
      refine congrArg _ (funext fun x => ?_)
      rw [forward_last checkpoint hlast]
      exact congrArg (· >>= _) (pure_bind _ _)

theorem forwardRanks_of_flatten (hworld : 0 < worldSize)
    (hflat : ((List.range worldSize).map fun rank =>
      (PipelineContext.ofRank worldSize totalLayers rank).layerRange).flatten =
        List.range totalLayers) (x : α) :
    forwardRanks checkpoint (.ofRank worldSize totalLayers) worldSize x =
      forwardAll checkpoint totalLayers x := by
  rw [forwardRanks_all checkpoint hworld, layersOf, hflat, bind_assoc, forwardAll]

end Lawful

end Pipeline

namespace PipelineContext

open Pipeline

/-- What stages are for: every layer has one owner, the runs of the ranks one after another are the
layers in order, and so are the ranks the model that a single rank runs. -/
structure Partitioned (worldSize totalLayers : ℕ) : Prop where
  owner : ∀ index < totalLayers, ∃! rank, rank < worldSize ∧
    (ofRank worldSize totalLayers rank).shouldProcessLayer index = true
  layers : ((List.range worldSize).map fun rank =>
    (ofRank worldSize totalLayers rank).layerRange).flatten = List.range totalLayers
  forward : ∀ (m : Type → Type) [Monad m] [LawfulMonad m] (α : Type) (checkpoint : Checkpoint m α)
    (x : α), forwardRanks checkpoint (ofRank worldSize totalLayers) worldSize x =
      (LlamaModel.new checkpoint (ofRank 1 totalLayers 0)).forward x ∧
    (LlamaModel.new checkpoint (ofRank 1 totalLayers 0)).forward x =
      forwardAll checkpoint totalLayers x

theorem flatten_layerRange {worldSize totalLayers : ℕ} (hworld : 0 < worldSize)
    (h : NoWrap worldSize totalLayers) :
    ((List.range worldSize).map fun rank =>
      (ofRank worldSize totalLayers rank).layerRange).flatten = List.range totalLayers := by
  have hruns : ((List.range worldSize).map fun rank =>
      (ofRank worldSize totalLayers rank).layerRange) =
        (List.range worldSize).map (run worldSize totalLayers) :=
    List.map_congr_left fun rank hrank => layerRange_eq h (List.mem_range.mp hrank)
  rw [hruns, flatten_run, Nat.min_eq_right (le_mul_layersPerGpu hworld)]

theorem noWrap_one {totalLayers : ℕ} (hlayers : totalLayers < 2 ^ 64) : NoWrap 1 totalLayers := by
  intro rank hrank
  obtain rfl : rank = 0 := Nat.lt_one_iff.mp hrank
  have hle : layersPerGpu 1 totalLayers ≤ totalLayers := layersPerGpu_le Nat.one_pos
  rw [Nat.zero_mul]
  omega

/-- **Stages partition the model exactly as long as nothing wraps.** For any group and any number of
layers, in the range of `usize`. -/
theorem stages_partition_iff {worldSize totalLayers : ℕ} (hworld : 0 < worldSize)
    (hsize : worldSize < 2 ^ 64) (hlayers : totalLayers < 2 ^ 64) :
    (∀ rank, new rank worldSize totalLayers = .ok (ofRank worldSize totalLayers rank)) ∧
      new 0 1 totalLayers = .ok (ofRank 1 totalLayers 0) ∧
      (Partitioned worldSize totalLayers ↔ NoWrap worldSize totalLayers) := by
  refine ⟨fun rank => new_eq hworld rank totalLayers, new_eq Nat.one_pos 0 totalLayers,
    fun h => noWrap_of_flatten h.layers hworld hsize hlayers, fun h => ?_⟩
  have hflat := flatten_layerRange hworld h
  refine ⟨fun index hindex => owner_of_noWrap hworld h hindex, hflat, ?_⟩
  intro m _ _ α checkpoint x
  have hone : (LlamaModel.new checkpoint (ofRank 1 totalLayers 0)).forward x =
      forwardAll checkpoint totalLayers x := by
    have hranks := forwardRanks_of_flatten checkpoint Nat.one_pos
      (flatten_layerRange Nat.one_pos (noWrap_one hlayers)) x
    rw [forwardRanks_succ] at hranks
    rw [← hranks]
    exact (pure_bind _ _).symm
  exact ⟨(forwardRanks_of_flatten checkpoint hworld hflat x).trans hone.symm, hone⟩

/-- Five layers on four ranks, the last of which has none. -/
theorem stages_partition_five : Partitioned 4 5 :=
  (stages_partition_iff (by decide) (by decide)
    (by decide)).2.2.mpr (by decide)

/-- The end of the second run wraps to zero: the upper half of the layers is in no run. -/
theorem stages_lose_layers :
    (∃ ctx, new 0 2 (2 ^ 64 - 1) = .ok ctx ∧ ctx.shouldProcessLayer (2 ^ 64 - 2) = false) ∧
      ∃ ctx, new 1 2 (2 ^ 64 - 1) = .ok ctx ∧ ctx.shouldProcessLayer (2 ^ 64 - 2) = false := by
  decide +kernel

end PipelineContext
end Kyro
