import Kyro.Model.Decoder
import Kyro.Proof.Model.Acceptance
import Kyro.Proof.Model.Shards

/-!
# The prompts that a model answers

A model passes its input through one attention after another, on one slot of the cache, so it takes
what every one of them takes. The second layer finds the keys of the first in the slot: for it every
single token is a decode step.
-/

namespace Kyro
namespace Loader

variable {R : Type}

/-! ### Shapes -/

structure Mlp.Shaped (mlp : Mlp (Tensor R)) (hidden columns : ℕ) : Prop where
  gateWeight : mlp.gateProj.weight.dims = [columns, hidden]
  gateBias : mlp.gateProj.bias.dims = [columns]
  upWeight : mlp.upProj.weight.dims = [columns, hidden]
  upBias : mlp.upProj.bias.dims = [columns]
  downWeight : mlp.downProj.weight.dims = [hidden, columns]
  downBias : mlp.downProj.bias.dims = [hidden]

structure DecoderLayer.Shaped (rope : RotaryEmbedding R) (layer : DecoderLayer (Tensor R))
    (hidden : ℕ) : Prop where
  selfAttn : Attention.Shaped rope layer.selfAttn hidden
  mlp : ∃ columns, layer.mlp.Shaped hidden columns
  inputNorm : layer.inputLayernorm.dims = [hidden]
  postNorm : layer.postAttentionLayernorm.dims = [hidden]

/-- The layers of a model have heads of one number and length. -/
structure Model.Shaped (rope : RotaryEmbedding R) (model : Model (Tensor R))
    (hidden vocab nHeads nKvHeads headDim : ℕ) : Prop where
  embed : ∃ table, model.embedTokens = some table ∧ table.dims = [vocab, hidden]
  layers : ∀ layer ∈ model.layers, layer.Shaped rope hidden ∧ layer.selfAttn.nHeads = nHeads ∧
    layer.selfAttn.nKvHeads = nKvHeads ∧ layer.selfAttn.headDim = headDim
  norm : ∃ weight, model.norm = some weight ∧ weight.dims = [hidden]
  lmHead : ∃ head, model.lmHead = some head ∧ head.weight.dims = [vocab, hidden] ∧
    head.bias.dims = [vocab]

/-- The cache of one layer serves another with heads of the same number and length. -/
theorem Attention.Cached.congr {attn attn' : Attention (Tensor R)} {bSz n : ℕ}
    {cache : Option (CacheContext R)} (h : Cached attn bSz cache n)
    (hheads : attn'.nKvHeads = attn.nKvHeads) (hdim : attn'.headDim = attn.headDim) :
    Cached attn' bSz cache n := by
  cases h with
  | none => exact .none
  | slot hlookup hslot =>
      cases hslot with
      | fresh => exact .slot hlookup .fresh
      | tokens hkeys hvalues =>
          rw [← hheads, ← hdim] at hkeys hvalues
          exact .slot hlookup (.tokens hkeys hvalues)

/-! ### Loading -/

section Loading

/-- The checkpoint has tensors of the shapes that it is asked for. -/
def VarBuilder.Fits (vb : VarBuilder (Tensor R)) : Prop :=
  ∀ name shape t, vb.tensors name shape = some t → t.dims = shape

theorem rmsNorm_dims {vb : VarBuilder (Tensor R)} (hfits : vb.Fits) {dim : ℕ} {weight : Tensor R}
    (h : rmsNorm dim vb = .ok weight) : weight.dims = [dim] := by
  rw [rmsNorm, VarBuilder.get] at h
  split at h
  · rename_i found hfound
    cases h
    exact hfits _ _ _ hfound
  · cases h

theorem newMlp_shaped {cfg : LlamaConfig} {vb : VarBuilder (Tensor R)} {columns : ℕ}
    {mlp : Mlp (Tensor R)} (hfits : vb.Fits) (h : newMlp cfg vb columns = .ok mlp) :
    mlp.Shaped cfg.hiddenSize columns := by
  obtain ⟨gateProj, hgate, h⟩ := Machine.bind_eq_ok.mp h
  obtain ⟨upProj, hup, h⟩ := Machine.bind_eq_ok.mp h
  obtain ⟨downProj, hdown, h⟩ := Machine.bind_eq_ok.mp h
  cases h
  exact {
    gateWeight := (linear_dims hgate hfits).1
    gateBias := (linear_dims hgate hfits).2
    upWeight := (linear_dims hup hfits).1
    upBias := (linear_dims hup hfits).2
    downWeight := (linear_dims hdown hfits).1
    downBias := (linear_dims hdown hfits).2 }

theorem newAttention_headDim {cfg : LlamaConfig} {vb : VarBuilder (Tensor R)}
    {dist : DistributedContext} {attn : Attention (Tensor R)}
    (h : newAttention cfg vb dist = .ok attn) :
    attn.headDim = cfg.hiddenSize / cfg.numAttentionHeads := by
  obtain ⟨headDim, hhead, h⟩ := Machine.bind_eq_ok.mp h
  obtain ⟨nHeads, _, h⟩ := Machine.bind_eq_ok.mp h
  obtain ⟨nKvHeads, _, h⟩ := Machine.bind_eq_ok.mp h
  obtain ⟨qProj, _, h⟩ := Machine.bind_eq_ok.mp h
  obtain ⟨kProj, _, h⟩ := Machine.bind_eq_ok.mp h
  obtain ⟨vProj, _, h⟩ := Machine.bind_eq_ok.mp h
  obtain ⟨oProj, _, h⟩ := Machine.bind_eq_ok.mp h
  cases h
  exact (checkedDiv_eq_ok (orFault_eq_ok.mp hhead)).2.symm

variable [CommRing R] {num : Numerics R} {rope : RotaryEmbedding R} {cfg : LlamaConfig}
  {dist : DistributedContext}

/-- A layer of either architecture has the shapes that it asks for. -/
theorem layerOf_shaped {architecture : ModelArchitecture} {vb : VarBuilder (Tensor R)}
    {layer : DecoderLayer (Tensor R)} (hfits : vb.Fits)
    (hrope : RotaryEmbedding.new num (cfg.hiddenSize / cfg.numAttentionHeads) = some rope)
    (hgroups : cfg.numKeyValueHeads / dist.worldSize.toNat ∣
      cfg.numAttentionHeads / dist.worldSize.toNat)
    (hhidden : cfg.hiddenSize < 2 ^ 64)
    (hkvHeads : cfg.numKeyValueHeads / dist.worldSize.toNat *
      (cfg.hiddenSize / cfg.numAttentionHeads) < 2 ^ 64)
    (h : layerOf architecture cfg dist vb = .ok layer) :
    layer.Shaped rope cfg.hiddenSize ∧
      layer.selfAttn.nHeads = cfg.numAttentionHeads / dist.worldSize.toNat ∧
      layer.selfAttn.nKvHeads = cfg.numKeyValueHeads / dist.worldSize.toNat ∧
      layer.selfAttn.headDim = cfg.hiddenSize / cfg.numAttentionHeads := by
  have hmade : ∃ mlp : VarBuilder (Tensor R) → Except LoadError (Mlp (Tensor R)),
      newDecoderLayer cfg vb (fun vb => newAttention cfg vb dist) mlp = .ok layer ∧
        ∀ vb built, vb.Fits → mlp vb = .ok built →
          ∃ columns, built.Shaped cfg.hiddenSize columns := by
    rw [layerOf] at h
    split at h
    · exact ⟨_, h, fun vb built hvb hbuilt => ⟨_, newMlp_shaped hvb hbuilt⟩⟩
    · refine ⟨_, h, fun vb built hvb hbuilt => ?_⟩
      obtain ⟨columns, _, hbuilt⟩ := Machine.bind_eq_ok.mp hbuilt
      exact ⟨columns, newMlp_shaped hvb hbuilt⟩
  obtain ⟨mlp, hlayer, hcolumns⟩ := hmade
  obtain ⟨selfAttn, hattn, hlayer⟩ := Machine.bind_eq_ok.mp hlayer
  obtain ⟨feedForward, hmlp, hlayer⟩ := Machine.bind_eq_ok.mp hlayer
  obtain ⟨inputLayernorm, hinput, hlayer⟩ := Machine.bind_eq_ok.mp hlayer
  obtain ⟨postAttentionLayernorm, hpost, hlayer⟩ := Machine.bind_eq_ok.mp hlayer
  cases hlayer
  have hbelow (s : String) : (vb.pp s).Fits := hfits
  obtain ⟨-, hheads, hkv⟩ := newAttention_eq_ok hattn
  have hdim := newAttention_headDim hattn
  have hshaped : Attention.Shaped rope selfAttn cfg.hiddenSize := by
    have hrope' : RotaryEmbedding.new num selfAttn.headDim = some rope := by rw [hdim, hrope]
    refine Attention.newAttention_shaped hattn hrope' (hbelow "self_attn") ?_ hhidden ?_
    · rw [hheads, hkv]
      exact hgroups
    · rw [hkv, hdim]
      exact hkvHeads
  exact ⟨⟨hshaped, hcolumns _ _ (hbelow "mlp") hmlp, rmsNorm_dims (hbelow _) hinput,
    rmsNorm_dims (hbelow _) hpost⟩, hheads, hkv, hdim⟩

/-- A rank that holds the first and the last stage has all parts of a model, in their shapes. -/
theorem newModel_shaped {architecture : ModelArchitecture} {vb : VarBuilder (Tensor R)}
    {ctx : PipelineContext} {model : Model (Tensor R)} (hfits : vb.Fits)
    (hfirst : ctx.isFirstStage = true) (hlast : ctx.isLastStage = true)
    (hrope : RotaryEmbedding.new num (cfg.hiddenSize / cfg.numAttentionHeads) = some rope)
    (hgroups : cfg.numKeyValueHeads / dist.worldSize.toNat ∣
      cfg.numAttentionHeads / dist.worldSize.toNat)
    (hhidden : cfg.hiddenSize < 2 ^ 64)
    (hkvHeads : cfg.numKeyValueHeads / dist.worldSize.toNat *
      (cfg.hiddenSize / cfg.numAttentionHeads) < 2 ^ 64)
    (h : newModel cfg vb ctx (layerOf architecture cfg dist) = .ok model) :
    model.Shaped rope cfg.hiddenSize cfg.vocabSize
      (cfg.numAttentionHeads / dist.worldSize.toNat)
      (cfg.numKeyValueHeads / dist.worldSize.toNat)
      (cfg.hiddenSize / cfg.numAttentionHeads) := by
  obtain ⟨embedTokens, hembed, h⟩ := Machine.bind_eq_ok.mp h
  obtain ⟨layers, hlayers, h⟩ := Machine.bind_eq_ok.mp h
  obtain ⟨norm, hnorm, h⟩ := Machine.bind_eq_ok.mp h
  obtain ⟨lmHead, hhead, h⟩ := Machine.bind_eq_ok.mp h
  cases h
  rw [onlyIf, if_pos hfirst] at hembed
  rw [onlyIf, if_pos hlast] at hnorm hhead
  have hbelow (s : String) : (vb.pp s).Fits := hfits
  refine ⟨?_, fun layer hlayer => ?_, ?_, ?_⟩
  · cases htable : embedding cfg.vocabSize cfg.hiddenSize (vb.pp "model.embed_tokens") with
    | error e =>
        rw [htable] at hembed
        cases hembed
    | ok table =>
        rw [htable] at hembed
        cases hembed
        rw [embedding, VarBuilder.get] at htable
        split at htable
        · rename_i found hfound
          cases htable
          exact ⟨_, rfl, hfits _ _ _ hfound⟩
        · cases htable
  · obtain ⟨i, hi, rfl⟩ := List.mem_iff_getElem.mp hlayer
    have hall := newLayers_eq_ok hlayers
    have hbuilt := hall.get (i := i) (hall.length_eq ▸ hi) hi
    exact layerOf_shaped (show ((vb.pp "model.layers").pp _).Fits from hfits) hrope hgroups hhidden hkvHeads
      hbuilt
  · cases hweight : rmsNorm cfg.hiddenSize (vb.pp "model.norm") with
    | error e =>
        rw [hweight] at hnorm
        cases hnorm
    | ok weight =>
        rw [hweight] at hnorm
        cases hnorm
        exact ⟨_, rfl, rmsNorm_dims (hbelow _) hweight⟩
  · cases hlinear : linear cfg.hiddenSize cfg.vocabSize (vb.pp "lm_head") with
    | error e =>
        rw [hlinear] at hhead
        cases hhead
    | ok head =>
        rw [hlinear] at hhead
        cases hhead
        exact ⟨_, rfl, linear_dims hlinear (hbelow _)⟩

end Loading

section Parts

variable [CommRing R] (kernels : Kernels R)

theorem shape?_rmsNorm {weight x : Tensor R} {dims : List ℕ} {hidden : ℕ}
    (hweight : weight.dims = [hidden]) (hx : x.dims = dims ++ [hidden]) :
    Tensor.shape? (RmsNorm.forward kernels weight x) = some x.dims := by
  rw [RmsNorm.forward, hweight]
  dsimp only
  rw [if_pos (by rw [hx, List.getLast?_concat])]
  rfl

theorem shape?_mlp {mlp : Mlp (Tensor R)} {hidden columns : ℕ} (h : mlp.Shaped hidden columns)
    {x : Tensor R} {dims : List ℕ} (hx : x.dims = dims ++ [hidden]) :
    Tensor.shape? (mlp.forward kernels x) = some x.dims := by
  simp only [Mlp.forward, Option.bind_eq_bind]
  refine Tensor.shape?_bind (Tensor.shape?_linear dims hx h.gateWeight h.gateBias)
    fun gate hgate => ?_
  refine Tensor.shape?_bind (Tensor.shape?_linear dims hx h.upWeight h.upBias) fun up hup => ?_
  have hsame : (gate.map kernels.silu).dims = up.dims := hgate.trans hup.symm
  refine Tensor.shape?_bind (Tensor.shape?_mul hsame) fun y hy => ?_
  rw [hx]
  exact Tensor.shape?_linear dims (hy.trans hgate) h.downWeight h.downBias

omit [CommRing R] in
theorem shape?_embedding {table : Tensor R} {vocab hidden : ℕ} (htable : table.dims = [vocab, hidden])
    (ids : Tensor Token) :
    Tensor.shape? (Embedding.forward table ids) =
      if ids.flatten.all (·.toNat < vocab) then some (ids.dims ++ [hidden]) else none := by
  rw [Embedding.forward, htable]
  dsimp only
  split <;> rfl

/-! ### One layer -/

variable {rope : RotaryEmbedding R}

theorem shape?_finish {layer : DecoderLayer (Tensor R)} {hidden : ℕ}
    (hshaped : layer.Shaped rope hidden) {residual out : Tensor R} {dims : List ℕ}
    (hresidual : residual.dims = dims ++ [hidden]) (hout : out.dims = residual.dims) :
    Tensor.shape? (layer.finish kernels (Qwen2MLP.forward kernels) residual out) =
      some residual.dims := by
  obtain ⟨columns, hmlp⟩ := hshaped.mlp
  simp only [DecoderLayer.finish, Option.bind_eq_bind]
  refine Tensor.shape?_bind (Tensor.shape?_add hout) fun x hx => ?_
  have hx' : x.dims = dims ++ [hidden] := (hx.trans hout).trans hresidual
  refine Tensor.shape?_bind (shape?_rmsNorm kernels hshaped.postNorm hx') fun normed hnormed => ?_
  refine Tensor.shape?_bind (shape?_mlp kernels hmlp (hnormed.trans hx')) fun y hy => ?_
  rw [Tensor.shape?_add (hy.trans hnormed), hy, hnormed, hx, hout]

/-- A layer takes what its attention takes. -/
theorem layer_forward_cached {layer : DecoderLayer (Tensor R)} {hidden : ℕ}
    (hshaped : layer.Shaped rope hidden) {x : Tensor R} {bSz seqLen n : ℕ} (hseq : 0 < seqLen)
    (hx : x.dims = [bSz, seqLen, hidden]) (index : ℕ) {cache : Option (CacheContext R)}
    (hcache : Attention.Cached layer.selfAttn bSz cache n) :
    ∃ cache' m out, Qwen2DecoderLayer.forward kernels rope layer x index cache =
        .ok (cache', out) ∧
      (Attention.Cached layer.selfAttn bSz cache' m ∧ cache'.isSome = cache.isSome ∧
        (Even layer.selfAttn.headDim → m = Attention.stored cache n seqLen)) ∧
      Tensor.shape? out =
        if Attention.Accepted layer.selfAttn n seqLen then some x.dims else none := by
  obtain ⟨normed, hnorm, hnormed⟩ := Tensor.shape?_eq_some.mp
    (shape?_rmsNorm kernels hshaped.inputNorm (show x.dims = [bSz, seqLen] ++ [hidden] from hx))
  obtain ⟨cache', m, out, hforward, hcache', hshape⟩ := Attention.forward_cached
    kernels.toNumerics hshaped.selfAttn hseq (hnormed.trans hx) index hcache
  refine ⟨cache', m, out.bind (layer.finish kernels (Qwen2MLP.forward kernels) x), ?_, hcache', ?_⟩
  · rw [Qwen2DecoderLayer.forward, DecoderLayer.forward, hnorm]
    dsimp only
    rw [Qwen2Attention.forward, hforward]
    rfl
  · by_cases haccepted : Attention.Accepted layer.selfAttn n seqLen
    · rw [if_pos haccepted, hnormed] at hshape
      rw [if_pos haccepted]
      refine Tensor.shape?_bind hshape fun out hout => ?_
      exact shape?_finish kernels hshaped (show x.dims = [bSz, seqLen] ++ [hidden] from hx) hout
    · rw [if_neg haccepted] at hshape
      rw [if_neg haccepted]
      exact Tensor.shape?_bind_none hshape

/-- The layers of the two architectures differ in a copy. -/
theorem llamaLayer_eq (rope : RotaryEmbedding R) (dist : DistributedContext) :
    LlamaDecoderLayer.forward kernels rope dist = Qwen2DecoderLayer.forward kernels rope := by
  have hcopy : dist.allReduce = (some : Tensor R → Option (Tensor R)) :=
    funext fun out => ite_self (some out)
  have hattn : (fun attn => LlamaAttention.forward kernels.toNumerics rope attn dist) =
      fun attn => Qwen2Attention.forward kernels.toNumerics rope attn := by
    funext attn x index cache
    exact llama_forward_eq kernels.toNumerics dist x index cache
  have hmlp : (fun mlp => LlamaMLP.forward kernels mlp dist) = Qwen2MLP.forward kernels := by
    funext mlp x
    rw [LlamaMLP.forward, hcopy, Qwen2MLP.forward]
    exact Option.bind_fun_some _
  funext layer x index cache
  rw [LlamaDecoderLayer.forward, hattn, hmlp, Qwen2DecoderLayer.forward]

/-! ### All layers -/

/-- What as many layers take: as many tokens as heads, and a single one only before anything is
stored, by the only layer if there is a cache. -/
def Answered (nHeads headDim n seqLen depth : ℕ) (cached : Prop) : Prop :=
  depth = 0 ∨ (Even headDim ∧ seqLen = nHeads ∧ (seqLen = 1 → n = 0 ∧ (cached → depth = 1)))

theorem answered_succ {nHeads headDim n m seqLen depth : ℕ} {cached : Prop}
    (hcached : cached → m = n + seqLen) (hnone : ¬ cached → m = 0) :
    Answered nHeads headDim n seqLen (depth + 1) cached ↔
      (Even headDim ∧ seqLen = nHeads ∧ ¬ (0 < n ∧ seqLen = 1)) ∧
        Answered nHeads headDim m seqLen depth cached := by
  rw [Answered, Answered]
  by_cases hc : cached
  · have hm := hcached hc
    simp only [hc, true_implies]
    constructor
    · rintro (hzero | ⟨heven, hheads, hone⟩)
      · omega
      · refine ⟨⟨heven, hheads, fun h => by have := hone h.2; omega⟩, ?_⟩
        by_cases hsingle : seqLen = 1
        · exact Or.inl (by have := hone hsingle; omega)
        · exact Or.inr ⟨heven, hheads, fun h => absurd h hsingle⟩
    · rintro ⟨⟨heven, hheads, hfirst⟩, hrest⟩
      refine Or.inr ⟨heven, hheads, fun hsingle => ?_⟩
      rcases hrest with hzero | ⟨-, -, hone⟩
      · omega
      · have := hone hsingle
        omega
  · have hm := hnone hc
    simp only [hc, false_implies, and_true]
    constructor
    · rintro (hzero | ⟨heven, hheads, hone⟩)
      · omega
      · exact ⟨⟨heven, hheads, fun h => by have := hone h.2; omega⟩,
          Or.inr ⟨heven, hheads, fun _ => hm⟩⟩
    · rintro ⟨⟨heven, hheads, hfirst⟩, -⟩
      exact Or.inr ⟨heven, hheads, fun hsingle => by omega⟩

theorem forwardLayers_shape {layers : List (DecoderLayer (Tensor R))}
    {hidden nHeads nKvHeads headDim : ℕ}
    (hshaped : ∀ layer ∈ layers, layer.Shaped rope hidden ∧ layer.selfAttn.nHeads = nHeads ∧
      layer.selfAttn.nKvHeads = nKvHeads ∧ layer.selfAttn.headDim = headDim)
    {x : Tensor R} {bSz seqLen n : ℕ} (hseq : 0 < seqLen) (hx : x.dims = [bSz, seqLen, hidden])
    (index : ℕ) {cache : Option (CacheContext R)}
    (hcache : ∀ layer ∈ layers, Attention.Cached layer.selfAttn bSz cache n) :
    ∃ cache' out, forwardLayers (Qwen2DecoderLayer.forward kernels rope) index layers x cache =
        .ok (cache', out) ∧
      (Answered nHeads headDim n seqLen layers.length cache.isSome →
        Tensor.shape? out = some x.dims) ∧
      (¬ Answered nHeads headDim n seqLen layers.length cache.isSome → out = none) := by
  induction layers generalizing x n cache with
  | nil => exact ⟨cache, some x, rfl, fun _ => rfl, fun h => absurd (Or.inl rfl) h⟩
  | cons layer layers ih =>
      obtain ⟨hlayer, hheads, hkv, hdim⟩ := hshaped layer List.mem_cons_self
      obtain ⟨cache', m, out, hforward, ⟨hcached, hsome, hcount⟩, hshape⟩ :=
        layer_forward_cached kernels hlayer hseq hx index (hcache layer List.mem_cons_self)
      have haccept : Attention.Accepted layer.selfAttn n seqLen ↔
          Even headDim ∧ seqLen = nHeads ∧ ¬ (0 < n ∧ seqLen = 1) := by
        rw [← hheads, ← hdim]
        rfl
      rw [hdim] at hcount
      by_cases haccepted : Even headDim ∧ seqLen = nHeads ∧ ¬ (0 < n ∧ seqLen = 1)
      · rw [if_pos (haccept.mpr haccepted)] at hshape
        obtain ⟨y, rfl, hy⟩ := Tensor.shape?_eq_some.mp hshape
        obtain ⟨last, result, hrest, hsuccess, hfailure⟩ := ih
          (fun other hother => hshaped other (.tail layer hother)) (hy.trans hx)
          (show ∀ other ∈ layers, Attention.Cached other.selfAttn bSz cache' m from
            fun other hother => by
            obtain ⟨-, -, hkv', hdim'⟩ := hshaped other (.tail layer hother)
            exact hcached.congr (hkv'.trans hkv.symm) (hdim'.trans hdim.symm))
        have hm := hcount haccepted.1
        have hiff : Answered nHeads headDim n seqLen (layers.length + 1) cache.isSome ↔
            (Even headDim ∧ seqLen = nHeads ∧ ¬ (0 < n ∧ seqLen = 1)) ∧
              Answered nHeads headDim m seqLen layers.length cache.isSome :=
          answered_succ (fun h => by rw [hm, Attention.stored, if_pos h])
            fun h => by rw [hm, Attention.stored, if_neg h]
        rw [hsome] at hsuccess hfailure
        refine ⟨last, result, ?_, fun h => ?_, fun h => hfailure fun hrest => ?_⟩
        · rw [forwardLayers, hforward]
          exact hrest
        · rw [hsuccess (hiff.mp h).2, hy]
        · exact h (hiff.mpr ⟨haccepted, hrest⟩)
      · rw [if_neg fun h => haccepted (haccept.mp h)] at hshape
        obtain rfl : out = none := Option.map_eq_none_iff.mp hshape
        refine ⟨cache', none, ?_, fun h => ?_, fun _ => rfl⟩
        · rw [forwardLayers, hforward]
          rfl
        · rcases h with hzero | ⟨heven, hall, hone⟩
          · cases hzero
          · exact absurd ⟨heven, hall, fun hdecode => by have := hone hdecode.2; omega⟩ haccepted

/-! ### The model -/

/-- What comes after the layers. -/
theorem shape?_head {model : Model (Tensor R)} {hidden vocab nHeads nKvHeads headDim : ℕ}
    (hshaped : model.Shaped rope hidden vocab nHeads nKvHeads headDim) {x : Tensor R}
    {dims : List ℕ} (hx : x.dims = dims ++ [hidden]) :
    Tensor.shape? ((stage (RmsNorm.forward kernels) model.norm x).bind
      (stage Linear.forward model.lmHead)) = some (dims ++ [vocab]) := by
  obtain ⟨weight, hnorm, hweight⟩ := hshaped.norm
  obtain ⟨head, hhead, hheadWeight, hbias⟩ := hshaped.lmHead
  rw [hnorm, hhead]
  refine Tensor.shape?_bind (shape?_rmsNorm kernels hweight hx) fun y hy => ?_
  exact Tensor.shape?_linear dims (hy.trans hx) hheadWeight hbias

/-- The models of the two architectures differ in copies. -/
theorem instance_forward_eq (rope : RotaryEmbedding R) (dist : DistributedContext)
    (loaded : ModelInstance (Tensor R)) :
    loaded.forward kernels rope dist = Qwen2Model.forward kernels rope loaded.model := by
  funext ids index cache
  cases loaded with
  | llama model =>
      rw [ModelInstance.forward, LlamaModel.forward, llamaLayer_eq]
      rfl
  | qwen2 model => rfl

/-- **The prompts that come back.** A loaded model of either architecture gives logits for all tokens
of its input exactly if every token is in the vocabulary and, unless it has no layers, the heads have
an even length, there are as many tokens as heads, and a single token is for one layer with nothing
stored, or for any number of layers without a cache. No call panics. -/
theorem answered_iff {loaded : ModelInstance (Tensor R)}
    {hidden vocab nHeads nKvHeads headDim : ℕ}
    (hshaped : loaded.model.Shaped rope hidden vocab nHeads nKvHeads headDim)
    (dist : DistributedContext) {ids : Tensor Token} {bSz seqLen n : ℕ} (hseq : 1 ≤ seqLen)
    (hids : ids.dims = [bSz, seqLen]) (index : ℕ) {cache : Option (CacheContext R)}
    (hcache : ∀ layer ∈ loaded.model.layers, Attention.Cached layer.selfAttn bSz cache n) :
    (Returns (loaded.forward kernels rope dist ids index cache) [bSz, seqLen, vocab] ↔
        (∀ token ∈ ids.flatten, token.toNat < vocab) ∧
          Answered nHeads headDim n seqLen loaded.model.layers.length cache.isSome) ∧
      ∃ output, loaded.forward kernels rope dist ids index cache = .ok output := by
  rw [instance_forward_eq, Qwen2Model.forward, Model.forward]
  obtain ⟨table, htable, htableDims⟩ := hshaped.embed
  have hembed := shape?_embedding htableDims ids
  rw [htable, Option.bind_some]
  by_cases htokens : ids.flatten.all (·.toNat < vocab)
  · rw [if_pos htokens] at hembed
    obtain ⟨x, hx, hdims⟩ := Tensor.shape?_eq_some.mp hembed
    have hxdims : x.dims = [bSz, seqLen, hidden] := by rw [hdims, hids]; rfl
    obtain ⟨cache', out, hlayers, hsuccess, hfailure⟩ := forwardLayers_shape kernels
      hshaped.layers hseq hxdims index hcache
    have hall : ∀ token ∈ ids.flatten, token.toNat < vocab := by simpa using htokens
    rw [hx]
    dsimp only
    rw [hlayers, Machine.ok_bind]
    refine ⟨⟨?_, fun h => ?_⟩, _, rfl⟩
    · rintro ⟨_, result, hcall, -⟩
      refine ⟨hall, ?_⟩
      by_contra hrefused
      rw [hfailure hrefused] at hcall
      cases hcall
    · obtain ⟨y, rfl, hy⟩ := Tensor.shape?_eq_some.mp (hsuccess h.2)
      obtain ⟨result, hresult, hshape⟩ := Tensor.shape?_eq_some.mp
        (shape?_head kernels hshaped (show y.dims = [bSz, seqLen] ++ [hidden] from hy.trans hxdims))
      refine ⟨cache', result, ?_, hshape⟩
      rw [← hresult]
      rfl
  · rw [if_neg htokens] at hembed
    rw [Option.map_eq_none_iff.mp hembed]
    refine ⟨⟨?_, fun h => ?_⟩, _, rfl⟩
    · rintro ⟨_, result, hcall, -⟩
      cases hcall
    · refine absurd ?_ htokens
      simpa using h.1

end Parts

/-! ### Two layers of two heads -/

def zeroMlp : Mlp (Tensor ℚ) where
  gateProj := zeroLinear 4 6
  upProj := zeroLinear 4 6
  downProj := zeroLinear 6 4

def twoHeadsLayer : DecoderLayer (Tensor ℚ) where
  selfAttn := twoHeads
  mlp := zeroMlp
  inputLayernorm := .zeros [4]
  postAttentionLayernorm := .zeros [4]

/-- A model with ten tokens. -/
def twoHeadsModel : Model (Tensor ℚ) where
  embedTokens := some (.zeros [10, 4])
  layers := [twoHeadsLayer, twoHeadsLayer]
  norm := some (.zeros [4])
  lmHead := some (zeroLinear 4 10)
  pipelineCtx := ⟨0, 1, 0, 2⟩

def flatKernels : Kernels ℚ := { flat with silu := id, rms := id }

theorem twoHeadsModel_shaped : twoHeadsModel.Shaped flatRope 4 10 2 1 2 where
  embed := ⟨_, rfl, rfl⟩
  layers := by
    have hlayer : twoHeadsLayer.Shaped flatRope 4 :=
      ⟨twoHeads_shaped, ⟨6, rfl, rfl, rfl, rfl, rfl, rfl⟩, rfl, rfl⟩
    simp only [twoHeadsModel, List.mem_cons, List.not_mem_nil, or_false, or_self, forall_eq]
    exact ⟨hlayer, rfl, rfl, rfl⟩
  norm := ⟨_, rfl, rfl⟩
  lmHead := ⟨_, rfl, rfl, rfl⟩

/-- Two tokens come back; the token after them does not, once they are in the cache. -/
theorem two_tokens_answered :
    Returns (ModelInstance.forward flatKernels flatRope ⟨0, 1⟩ (.llama twoHeadsModel)
        ⟨[1, 2], fun _ => 7⟩ 0 none) [1, 2, 10] ∧
      ¬ Returns (ModelInstance.forward flatKernels flatRope ⟨0, 1⟩ (.llama twoHeadsModel)
        ⟨[1, 1], fun _ => 7⟩ 0
        (some ⟨⟨AList.singleton 7 ⟨some (.zeros [1, 2, 1, 2]), some (.zeros [1, 2, 1, 2]), 2⟩⟩, 7⟩))
        [1, 1, 10] := by
  have hshaped : (ModelInstance.llama twoHeadsModel).model.Shaped flatRope 4 10 2 1 2 :=
    twoHeadsModel_shaped
  constructor
  · refine (answered_iff flatKernels hshaped ⟨0, 1⟩ (n := 0) (by decide) rfl 0
      fun _ _ => .none).1.mpr ⟨?_, Or.inr ⟨by decide, rfl, by decide⟩⟩
    have hids : (⟨[1, 2], fun _ => 7⟩ : Tensor Token).flatten = [7, 7] := rfl
    rw [hids]
    simp
  · intro hreturns
    have hanswered := ((answered_iff flatKernels hshaped ⟨0, 1⟩ (n := 2) (by decide) rfl 0
      ?_).1.mp hreturns).2
    · obtain hzero | ⟨-, hheads, -⟩ := hanswered
      · cases hzero
      · cases hheads
    · simp only [ModelInstance.model, twoHeadsModel, List.mem_cons, List.not_mem_nil, or_false,
        or_self, forall_eq]
      exact .slot rfl (.tokens rfl rfl)

end Loader
end Kyro
