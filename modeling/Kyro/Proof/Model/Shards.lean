import Kyro.Model.Loader
import Kyro.Proof.Model.Stages
import Mathlib.Algebra.BigOperators.Group.Finset.Basic

/-!
# Who holds what of a layer

The rank and the size of the group decide twice: which layers a rank builds, and which part of each
it holds. As only one rank builds a layer, the other parts of it are built by nobody.
-/

namespace Kyro

/-! ### The layers of a rank -/

namespace PipelineContext

theorem new_eq_ok {rank worldSize totalLayers : ℕ} {ctx : PipelineContext}
    (h : new rank worldSize totalLayers = .ok ctx) :
    0 < worldSize ∧ ctx = ofRank worldSize totalLayers rank := by
  obtain ⟨layersPerGpu, hdiv, _⟩ := Machine.bind_eq_ok.mp h
  have hworld : 0 < worldSize := by
    refine Nat.pos_of_ne_zero fun hzero => ?_
    rw [divCeil, if_pos hzero] at hdiv
    cases hdiv
  rw [new_eq hworld] at h
  exact ⟨hworld, (Except.ok.inj h).symm⟩

/-- The first layer of a stage does not wrap: the group has less than `2 ^ 32` ranks. -/
theorem startLayer_lt {rank worldSize totalLayers : ℕ} (hrank : rank < worldSize)
    (hworld : worldSize < 2 ^ 32) (hlayers : totalLayers < 2 ^ 64) :
    rank * layersPerGpu worldSize totalLayers < 2 ^ 64 := by
  have hle := mul_layersPerGpu_le worldSize totalLayers
  generalize layersPerGpu worldSize totalLayers = l at hle ⊢
  by_cases hsmall : l ≤ 2 ^ 32
  · calc rank * l ≤ rank * 2 ^ 32 := Nat.mul_le_mul_left rank hsmall
      _ < 2 ^ 64 := by omega
  · have hstep : (rank + 1) * l ≤ worldSize * l := Nat.mul_le_mul_right l hrank
    rw [Nat.add_mul, Nat.one_mul] at hstep
    omega

section Owner

variable {rank worldSize totalLayers index : ℕ} {ctx : PipelineContext}

/-- **A layer has at most one owner.** -/
theorem owner_of_shouldProcessLayer (h : new rank worldSize totalLayers = .ok ctx)
    (hrank : rank < worldSize) (hworld : worldSize < 2 ^ 32) (hlayers : totalLayers < 2 ^ 64)
    (hindex : ctx.shouldProcessLayer index = true) :
    rank = index / layersPerGpu worldSize totalLayers := by
  obtain ⟨_, rfl⟩ := new_eq_ok h
  rw [shouldProcessLayer, ofRank, wrappingMul_of_lt (startLayer_lt hrank hworld hlayers),
    Bool.and_eq_true, decide_eq_true_eq, decide_eq_true_eq] at hindex
  generalize layersPerGpu worldSize totalLayers = l at hindex ⊢
  dsimp only at hindex
  have hend : wrappingAdd (rank * l) l ≤ rank * l + l := Nat.mod_le _ _
  have hlt : index < (rank + 1) * l := by
    rw [Nat.add_mul, Nat.one_mul]
    omega
  exact (Nat.div_eq_of_lt_le hindex.1 hlt).symm

/-- The layers of the first stage, all of them for a single rank. -/
theorem shouldProcessLayer_first (h : new 0 worldSize totalLayers = .ok ctx)
    (hlayers : totalLayers < 2 ^ 64) (_ : index < totalLayers)
    (hfirst : index < layersPerGpu worldSize totalLayers) :
    ctx.shouldProcessLayer index = true := by
  obtain ⟨hworld, rfl⟩ := new_eq_ok h
  have hle : layersPerGpu worldSize totalLayers ≤ totalLayers := layersPerGpu_le hworld
  rw [shouldProcessLayer, ofRank, wrappingMul_of_lt (by omega), Nat.zero_mul,
    wrappingAdd_of_lt (by omega), Bool.and_eq_true, decide_eq_true_eq, decide_eq_true_eq]
  dsimp only
  omega

end Owner

end PipelineContext

namespace Loader

variable {τ q : Type}

/-! ### The part of a rank -/

theorem linear_eq_ok {inDim outDim : ℕ} {vb : VarBuilder τ} {layer : Linear τ}
    (h : linear inDim outDim vb = .ok layer) : layer.outDim = outDim := by
  obtain ⟨weight, _, h⟩ := Machine.bind_eq_ok.mp h
  obtain ⟨bias, _, h⟩ := Machine.bind_eq_ok.mp h
  cases h
  rfl

/-- The heads and the key/value heads of a rank, and the columns of its feed-forward part. -/
def DecoderLayer.share (layer : DecoderLayer τ) : ℕ × ℕ × ℕ :=
  (layer.selfAttn.nHeads, layer.selfAttn.nKvHeads, layer.mlp.gateProj.outDim)

theorem newAttention_eq_ok {cfg : LlamaConfig} {vb : VarBuilder τ} {dist : DistributedContext}
    {attn : Attention τ} (h : newAttention cfg vb dist = .ok attn) :
    0 < cfg.numAttentionHeads ∧
      attn.nHeads = cfg.numAttentionHeads / dist.worldSize.toNat ∧
      attn.nKvHeads = cfg.numKeyValueHeads / dist.worldSize.toNat := by
  obtain ⟨headDim, hhead, h⟩ := Machine.bind_eq_ok.mp h
  obtain ⟨nHeads, hheads, h⟩ := Machine.bind_eq_ok.mp h
  obtain ⟨nKvHeads, hkv, h⟩ := Machine.bind_eq_ok.mp h
  obtain ⟨qProj, _, h⟩ := Machine.bind_eq_ok.mp h
  obtain ⟨kProj, _, h⟩ := Machine.bind_eq_ok.mp h
  obtain ⟨vProj, _, h⟩ := Machine.bind_eq_ok.mp h
  obtain ⟨oProj, _, h⟩ := Machine.bind_eq_ok.mp h
  cases h
  exact ⟨(checkedDiv_eq_ok (orFault_eq_ok.mp hhead)).1,
    (checkedDiv_eq_ok (orFault_eq_ok.mp hheads)).2.symm,
    (checkedDiv_eq_ok (orFault_eq_ok.mp hkv)).2.symm⟩

theorem newMlp_eq_ok {cfg : LlamaConfig} {vb : VarBuilder τ} {columns : ℕ} {mlp : Mlp τ}
    (h : newMlp cfg vb columns = .ok mlp) : mlp.gateProj.outDim = columns := by
  obtain ⟨gateProj, hgate, h⟩ := Machine.bind_eq_ok.mp h
  obtain ⟨upProj, _, h⟩ := Machine.bind_eq_ok.mp h
  obtain ⟨downProj, _, h⟩ := Machine.bind_eq_ok.mp h
  cases h
  exact linear_eq_ok hgate

theorem newDecoderLayer_eq_ok {cfg : LlamaConfig} {vb : VarBuilder τ}
    {attention : VarBuilder τ → Except LoadError (Attention τ)}
    {mlp : VarBuilder τ → Except LoadError (Mlp τ)} {layer : DecoderLayer τ}
    (h : newDecoderLayer cfg vb attention mlp = .ok layer) :
    attention (vb.pp "self_attn") = .ok layer.selfAttn ∧ mlp (vb.pp "mlp") = .ok layer.mlp := by
  obtain ⟨selfAttn, hattn, h⟩ := Machine.bind_eq_ok.mp h
  obtain ⟨mlp, hmlp, h⟩ := Machine.bind_eq_ok.mp h
  obtain ⟨inputLayernorm, _, h⟩ := Machine.bind_eq_ok.mp h
  obtain ⟨postAttentionLayernorm, _, h⟩ := Machine.bind_eq_ok.mp h
  cases h
  exact ⟨hattn, hmlp⟩

/-- What a rank builds of a layer in a group of this size. -/
def shareOf (architecture : ModelArchitecture) (cfg : LlamaConfig) (worldSize : ℕ) : ℕ × ℕ × ℕ :=
  (cfg.numAttentionHeads / worldSize, cfg.numKeyValueHeads / worldSize,
    if architecture = .mixtureOfExperts then cfg.intermediateSize
    else cfg.intermediateSize / worldSize)

/-- The constructor of a layer, by the architecture. -/
def layerOf (architecture : ModelArchitecture) (cfg : LlamaConfig) (dist : DistributedContext)
    (vb : VarBuilder τ) : Except LoadError (DecoderLayer τ) :=
  if architecture = .mixtureOfExperts then Qwen2DecoderLayer.new cfg vb dist
  else LlamaDecoderLayer.new cfg vb dist

theorem layerOf_eq_ok {architecture : ModelArchitecture} {cfg : LlamaConfig}
    {dist : DistributedContext} {vb : VarBuilder τ} {layer : DecoderLayer τ}
    (h : layerOf architecture cfg dist vb = .ok layer) :
    0 < cfg.numAttentionHeads ∧
      layer.share = shareOf architecture cfg dist.worldSize.toNat := by
  rw [layerOf] at h
  rw [DecoderLayer.share, shareOf]
  split at h
  · next hqwen =>
      obtain ⟨hattn, hmlp⟩ := newDecoderLayer_eq_ok h
      obtain ⟨hpos, hheads, hkv⟩ := newAttention_eq_ok hattn
      rw [hheads, hkv, newMlp_eq_ok hmlp, if_pos hqwen]
      exact ⟨hpos, rfl⟩
  · next hllama =>
      obtain ⟨hattn, hmlp⟩ := newDecoderLayer_eq_ok h
      obtain ⟨hpos, hheads, hkv⟩ := newAttention_eq_ok hattn
      obtain ⟨columns, hcolumns, hmlp⟩ := Machine.bind_eq_ok.mp hmlp
      rw [hheads, hkv, newMlp_eq_ok hmlp, if_neg hllama,
        ← (checkedDiv_eq_ok (orFault_eq_ok.mp hcolumns)).2]
      exact ⟨hpos, rfl⟩

/-! ### The model of a rank -/

theorem newLayers_eq_ok {layer : ℕ → Except LoadError (DecoderLayer τ)} {indices : List ℕ}
    {layers : List (DecoderLayer τ)} (h : newLayers layer indices = .ok layers) :
    List.Forall₂ (fun index built => layer index = .ok built) indices layers := by
  induction indices generalizing layers with
  | nil =>
      cases h
      exact .nil
  | cons index rest ih =>
      obtain ⟨first, hfirst, h⟩ := Machine.bind_eq_ok.mp h
      obtain ⟨others, hothers, h⟩ := Machine.bind_eq_ok.mp h
      cases h
      exact .cons hfirst (ih hothers)

namespace Model

/-- The layer of this index in the whole model, if the rank builds it. -/
def layerAt (model : Model τ) (index : ℕ) : Option (DecoderLayer τ) :=
  if model.pipelineCtx.shouldProcessLayer index then
    model.layers[index - model.pipelineCtx.startLayer]?
  else none

/-- What the rank builds of a layer. -/
def share (model : Model τ) (index : ℕ) : ℕ × ℕ × ℕ :=
  ((model.layerAt index).map DecoderLayer.share).getD 0

end Model

theorem newModel_eq_ok {cfg : LlamaConfig} {vb : VarBuilder τ} {ctx : PipelineContext}
    {layer : VarBuilder τ → Except LoadError (DecoderLayer τ)} {model : Model τ}
    (h : newModel cfg vb ctx layer = .ok model) :
    model.pipelineCtx = ctx ∧ ∀ index, ctx.shouldProcessLayer index = true →
      ∃ vb built, layer vb = .ok built ∧ model.layerAt index = some built := by
  obtain ⟨embedTokens, _, h⟩ := Machine.bind_eq_ok.mp h
  obtain ⟨layers, hlayers, h⟩ := Machine.bind_eq_ok.mp h
  obtain ⟨norm, _, h⟩ := Machine.bind_eq_ok.mp h
  obtain ⟨lmHead, _, h⟩ := Machine.bind_eq_ok.mp h
  cases h
  refine ⟨rfl, fun index hindex => ?_⟩
  have hall := newLayers_eq_ok hlayers
  have hmem := PipelineContext.mem_layerRange.mpr hindex
  rw [PipelineContext.layerRange, List.mem_range'_1] at hmem
  have hlt : index - ctx.startLayer < ctx.layerRange.length := by
    rw [PipelineContext.layerRange, List.length_range']
    omega
  have hlt' : index - ctx.startLayer < layers.length := hall.length_eq ▸ hlt
  refine ⟨_, layers[index - ctx.startLayer], hall.get hlt hlt', ?_⟩
  rw [Model.layerAt, if_pos hindex]
  exact List.getElem?_eq_getElem hlt'

/-- The model of an instance. -/
def ModelInstance.model : ModelInstance τ → Model τ
  | .llama model | .qwen2 model => model

/-- The instance that an architecture gives to a model. -/
def instanceOf (architecture : ModelArchitecture) (model : Model τ) : ModelInstance τ :=
  if architecture = .mixtureOfExperts then .qwen2 model else .llama model

theorem fromArchitecture_eq (architecture : ModelArchitecture) (cfg : LlamaConfig)
    (vb : VarBuilder τ) (dist : DistributedContext) (ctx : PipelineContext) :
    ModelInstance.fromArchitecture cfg vb dist ctx architecture =
      (newModel cfg vb ctx (layerOf architecture cfg dist)).map (instanceOf architecture) := by
  cases architecture <;> rfl

@[simp] theorem instanceOf_model (architecture : ModelArchitecture) (model : Model τ) :
    (instanceOf architecture model).model = model := by
  rw [instanceOf]
  split <;> rfl

/-- **One load.** The rank builds the layers of its stage, and its share of each. -/
theorem load_spec {loader : ModelLoader} {cfg : LlamaConfig} {files : Files τ q}
    {dist : DistributedContext} {built : ModelInstance τ} (hconfig : loader.config = some cfg)
    (h : loader.load files dist = .ok (.standard built)) :
    ∃ ctx, PipelineContext.new dist.rank.toNat dist.worldSize.toNat cfg.numHiddenLayers = .ok ctx ∧
      (∀ index, ctx.shouldProcessLayer index = true → 0 < cfg.numAttentionHeads ∧
        built.model.share index = shareOf loader.hfArchitecture cfg dist.worldSize.toNat) ∧
      ∀ index, ctx.shouldProcessLayer index ≠ true → built.model.share index = 0 := by
  rw [ModelLoader.load, hconfig] at h
  split at h
  · obtain ⟨model, _, h⟩ := Machine.map_eq_ok.mp h
    cases h
  · obtain ⟨tensorsFiles, _, h⟩ := Machine.bind_eq_ok.mp h
    split at h
    · cases h
    · obtain ⟨tensors, _, h⟩ := Machine.bind_eq_ok.mp h
      obtain ⟨ctx, hctx, h⟩ := Machine.bind_eq_ok.mp h
      obtain ⟨made, hmade, h⟩ := Machine.bind_eq_ok.mp h
      cases h
      rw [fromArchitecture_eq] at hmade
      obtain ⟨model, hmodel, rfl⟩ := Machine.map_eq_ok.mp hmade
      obtain ⟨hpipeline, hlayers⟩ := newModel_eq_ok hmodel
      rw [instanceOf_model]
      refine ⟨ctx, orFault_eq_ok.mp hctx, fun index hindex => ?_, fun index hindex => ?_⟩
      · obtain ⟨vb, layer, hlayer, hat⟩ := hlayers index hindex
        rw [Model.share, hat]
        exact layerOf_eq_ok hlayer
      · rw [Model.share, Model.layerAt, hpipeline, if_neg hindex]
        rfl

/-! ### The whole group -/

section Group

variable {loader : ModelLoader} {cfg : LlamaConfig} {files : ℕ → Files τ q} {worldSize : UInt32}
  {models : ℕ → ModelInstance τ}

/-- **A layer that some rank builds is held in one share only.** -/
theorem sum_share (hconfig : loader.config = some cfg) (hlayers : cfg.numHiddenLayers < 2 ^ 64)
    (hload : ∀ rank < worldSize.toNat,
      loader.load (files rank) ⟨UInt32.ofNat rank, worldSize⟩ = .ok (.standard (models rank)))
    {owner index : ℕ} {ctx : PipelineContext} (howner : owner < worldSize.toNat)
    (hctx : PipelineContext.new owner worldSize.toNat cfg.numHiddenLayers = .ok ctx)
    (hindex : ctx.shouldProcessLayer index = true) :
    0 < cfg.numAttentionHeads ∧
      ∑ rank ∈ Finset.range worldSize.toNat, (models rank).model.share index =
        shareOf loader.hfArchitecture cfg worldSize.toNat := by
  have hworld : worldSize.toNat < 2 ^ 32 := worldSize.toNat_lt
  have hspec : ∀ rank < worldSize.toNat, ∃ ctx,
      PipelineContext.new rank worldSize.toNat cfg.numHiddenLayers = .ok ctx ∧
      (∀ index, ctx.shouldProcessLayer index = true → 0 < cfg.numAttentionHeads ∧
        (models rank).model.share index =
          shareOf loader.hfArchitecture cfg worldSize.toNat) ∧
      ∀ index, ctx.shouldProcessLayer index ≠ true → (models rank).model.share index = 0 := by
    intro rank hrank
    have hrank' : (UInt32.ofNat rank).toNat = rank :=
      UInt32.toNat_ofNat_of_lt' (hrank.trans hworld)
    simpa only [hrank'] using load_spec hconfig (hload rank hrank)
  obtain ⟨same, hsame, hbuilt, _⟩ := hspec owner howner
  rw [hctx] at hsame
  cases hsame
  refine ⟨(hbuilt index hindex).1, ?_⟩
  rw [Finset.sum_eq_single_of_mem owner (Finset.mem_range.mpr howner), (hbuilt index hindex).2]
  intro rank hrank hother
  obtain ⟨ctx', hctx', _, hnone⟩ := hspec rank (Finset.mem_range.mp hrank)
  refine hnone index fun hindex' => hother ?_
  rw [PipelineContext.owner_of_shouldProcessLayer hctx' (Finset.mem_range.mp hrank) hworld hlayers
      hindex',
    PipelineContext.owner_of_shouldProcessLayer hctx howner hworld hlayers hindex]

/-- **The shares cover a layer** only where there is nothing to share: in a group of one rank. -/
theorem shares_cover_iff (hworld : 0 < worldSize) (hconfig : loader.config = some cfg)
    (hlayers : cfg.numHiddenLayers < 2 ^ 64)
    (hload : ∀ rank < worldSize.toNat,
      loader.load (files rank) ⟨UInt32.ofNat rank, worldSize⟩ = .ok (.standard (models rank))) :
    (∀ layer < cfg.numHiddenLayers,
      ∑ rank ∈ Finset.range worldSize.toNat, (models rank).model.share layer =
        (cfg.numAttentionHeads, cfg.numKeyValueHeads, cfg.intermediateSize)) ↔
      worldSize = 1 ∨ cfg.numHiddenLayers = 0 := by
  have hpos : 0 < worldSize.toNat := UInt32.lt_iff_toNat_lt.mp hworld
  obtain ⟨ctx, hctx⟩ : ∃ ctx,
      PipelineContext.new 0 worldSize.toNat cfg.numHiddenLayers = .ok ctx := by
    rw [PipelineContext.new, divCeil_of_pos hpos]
    exact ⟨_, rfl⟩
  constructor
  · intro hall
    by_contra hneither
    obtain ⟨hmany, hsome⟩ := not_or.mp hneither
    have hone : worldSize.toNat ≠ 1 := fun h => hmany (UInt32.toNat_inj.mp h)
    have hfirst : 0 < (cfg.numHiddenLayers + worldSize.toNat - 1) / worldSize.toNat :=
      Nat.div_pos (by omega) hpos
    obtain ⟨hheads, hsum⟩ := sum_share hconfig hlayers hload hpos hctx
      (PipelineContext.shouldProcessLayer_first hctx hlayers (by omega) hfirst)
    rw [hall 0 (by omega)] at hsum
    have hsame : cfg.numAttentionHeads = cfg.numAttentionHeads / worldSize.toNat :=
      congrArg Prod.fst hsum
    have hless := Nat.div_lt_self hheads (by omega : 1 < worldSize.toNat)
    omega
  · intro heither layer hlayer
    obtain rfl | hnone := heither
    · have hall : layer < (cfg.numHiddenLayers + (1 : UInt32).toNat - 1) / (1 : UInt32).toNat := by
        simpa using hlayer
      rw [(sum_share hconfig hlayers hload hpos hctx
        (PipelineContext.shouldProcessLayer_first hctx hlayers hlayer hall)).2, shareOf]
      simp
    · omega

end Group

/-! ### Two checkpoints -/

/-- The tensors of a layer, with so many outputs of the projections and so many columns. -/
def layerTensors (layer : String) (qDim kvDim columns : ℕ) : List (String × List ℕ) :=
  [(layer ++ "self_attn.q_proj.weight", [qDim, 8]), (layer ++ "self_attn.q_proj.bias", [qDim]),
   (layer ++ "self_attn.k_proj.weight", [kvDim, 8]), (layer ++ "self_attn.k_proj.bias", [kvDim]),
   (layer ++ "self_attn.v_proj.weight", [kvDim, 8]), (layer ++ "self_attn.v_proj.bias", [kvDim]),
   (layer ++ "self_attn.o_proj.weight", [8, qDim]), (layer ++ "self_attn.o_proj.bias", [8]),
   (layer ++ "mlp.gate_proj.weight", [columns, 8]), (layer ++ "mlp.gate_proj.bias", [columns]),
   (layer ++ "mlp.up_proj.weight", [columns, 8]), (layer ++ "mlp.up_proj.bias", [columns]),
   (layer ++ "mlp.down_proj.weight", [8, columns]), (layer ++ "mlp.down_proj.bias", [8]),
   (layer ++ "input_layernorm.weight", [8]), (layer ++ "post_attention_layernorm.weight", [8])]

/-- The tensors of a model of two layers. -/
def checkpoint (qDim kvDim columns : ℕ) : List (String × List ℕ) :=
  layerTensors "model.layers.0." qDim kvDim columns ++
  layerTensors "model.layers.1." qDim kvDim columns ++
  [("model.embed_tokens.weight", [16, 8]), ("model.norm.weight", [8]),
   ("lm_head.weight", [16, 8]), ("lm_head.bias", [16])]

/-- A directory with one file of these tensors, whose contents do not matter. -/
def filesOf (tensors : List (String × List ℕ)) : Files Unit Unit where
  gguf := .error .io
  safetensors := .ok ["model.safetensors"]
  mmaped _ := .ok fun name shape => if (name, shape) ∈ tensors then some () else none

/-- Two layers with four heads, two of them for keys and values, and twelve columns. -/
def twoLayers : LlamaConfig := ⟨8, 12, 2, 4, 2, 16⟩

def twoLayersLoader : ModelLoader := ⟨some twoLayers, .decoderOnly, false⟩

/-- The share of a layer in a loaded model. -/
def LoadedModel.share (loaded : LoadedModel τ q) (index : ℕ) : Option (ℕ × ℕ × ℕ) :=
  match loaded with
  | .standard built => some (built.model.share index)
  | .quantized _ => none

theorem LoadedModel.share_eq_some {loaded : LoadedModel τ q} {index : ℕ} {share : ℕ × ℕ × ℕ}
    (h : loaded.share index = some share) :
    ∃ built, loaded = .standard built ∧ built.model.share index = share := by
  cases loaded with
  | standard built => exact ⟨built, rfl, Option.some.inj h⟩
  | quantized model => cases h

/-- A single rank holds all of both layers. -/
theorem shares_cover_single :
    ∃ models : ℕ → ModelInstance Unit,
      (∀ rank < (1 : UInt32).toNat, twoLayersLoader.load (filesOf (checkpoint 8 4 12))
        ⟨UInt32.ofNat rank, 1⟩ = .ok (.standard (models rank))) ∧
      ∀ layer < 2, ∑ rank ∈ Finset.range (1 : UInt32).toNat, (models rank).model.share layer =
        (4, 2, 12) := by
  obtain ⟨loaded, hload, hshare⟩ : ∃ loaded,
      twoLayersLoader.load (filesOf (checkpoint 8 4 12)) ⟨0, 1⟩ = .ok loaded ∧
        loaded.share 0 = some (4, 2, 12) := by decide +kernel
  obtain ⟨built, rfl, _⟩ := LoadedModel.share_eq_some hshare
  have hall : ∀ rank < (1 : UInt32).toNat, twoLayersLoader.load (filesOf (checkpoint 8 4 12))
      ⟨UInt32.ofNat rank, 1⟩ = .ok (.standard built) := by
    intro rank hrank
    obtain rfl : rank = 0 := Nat.lt_one_iff.mp hrank
    exact hload
  refine ⟨fun _ => built, hall, ?_⟩
  exact (@shares_cover_iff _ _ twoLayersLoader twoLayers (fun _ => filesOf (checkpoint 8 4 12)) 1
    (fun _ => built) (by decide) rfl (by decide) hall).mpr (Or.inl rfl)

/-- Two ranks that find the tensors of half the heads and columns: the first builds its half of the
layer 0, and the second builds its half of the layer 1. -/
theorem halves_of_layers :
    ∃ first second : ModelInstance Unit,
      twoLayersLoader.load (filesOf (checkpoint 4 2 6)) ⟨0, 2⟩ = .ok (.standard first) ∧
      twoLayersLoader.load (filesOf (checkpoint 4 2 6)) ⟨1, 2⟩ = .ok (.standard second) ∧
      first.model.share 0 + second.model.share 0 = (2, 1, 6) ∧
      first.model.share 0 + second.model.share 0 ≠
        (twoLayers.numAttentionHeads, twoLayers.numKeyValueHeads, twoLayers.intermediateSize) := by
  obtain ⟨loaded, hfirst, hshare⟩ : ∃ loaded,
      twoLayersLoader.load (filesOf (checkpoint 4 2 6)) ⟨0, 2⟩ = .ok loaded ∧
        loaded.share 0 = some (2, 1, 6) := by decide +kernel
  obtain ⟨loaded', hsecond, hshare'⟩ : ∃ loaded,
      twoLayersLoader.load (filesOf (checkpoint 4 2 6)) ⟨1, 2⟩ = .ok loaded ∧
        loaded.share 0 = some (0, 0, 0) := by decide +kernel
  obtain ⟨first, rfl, hheld⟩ := LoadedModel.share_eq_some hshare
  obtain ⟨second, rfl, hheld'⟩ := LoadedModel.share_eq_some hshare'
  refine ⟨first, second, hfirst, hsecond, ?_, ?_⟩
  · rw [hheld, hheld']
    rfl
  · rw [hheld, hheld']
    decide

end Loader
end Kyro
