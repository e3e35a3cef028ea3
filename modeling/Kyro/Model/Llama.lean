import Kyro.Model.KvCache

/-!
# The forward pass

`src/model/layers.rs`, `src/model/llama.rs`, `src/model/qwen.rs` and `src/model/model_registry.rs`,
for a call with a cache. A tensor is the list of its rows along the sequence dimension: projections,
normalisations and the feed-forward part work on the rows one by one, and what attention does with
its rows is a parameter.
-/

namespace Kyro

structure RotaryEmbedding (κ : Type) where
  /-- A row rotated for a position. -/
  rotate : κ → ℕ → κ

/-- The row `i` is at the position `index + i`. -/
def RotaryEmbedding.apply {κ : Type} (rope : RotaryEmbedding κ) (x : List κ) (index : ℕ) : List κ :=
  x.mapIdx fun i row => rope.rotate row (index + i)

structure LlamaAttention (χ κ : Type) where
  qProj : χ → κ
  kProj : χ → κ
  vProj : χ → κ
  rope : RotaryEmbedding κ
  /-- From `expand_kv` to the output projection, for the queries, keys and values. -/
  attend : List κ → List κ → List κ → Option (List χ)

/-- `full_k` and `full_v` of a call, and whether they are the cached ones: then it is a decode
step. -/
structure View (κ : Type) where
  keys : List κ
  values : List κ
  decode : Bool
  deriving DecidableEq, Repr

variable {χ κ : Type}

namespace LlamaAttention

/-- The projections and their rotation. -/
def keys (attn : LlamaAttention χ κ) (x : List χ) (index : ℕ) : List κ :=
  attn.rope.apply (x.map attn.kProj) index

def values (attn : LlamaAttention χ κ) (x : List χ) : List κ := x.map attn.vProj

/-- Store the keys and values of the input, and choose the ones to attend to. -/
def fullKv (attn : LlamaAttention χ κ) (x : List χ) (index : ℕ)
    (manager : KVCacheManager (List κ)) (requestId : RequestId) :
    Except Fault (KVCacheManager (List κ) × Option (View κ)) := do
  let k := attn.keys x index
  let v := attn.values x
  let seqLen := x.length
  let (manager, ok) ← manager.appendKv (.rows κ) requestId k v
  if ok then
    let ctxLen := manager.getContextLen requestId
    if seqLen = 1 ∧ seqLen < ctxLen then
      match manager.getCachedKey requestId, manager.getCachedValue requestId with
      | some cachedK, some cachedV => return (manager, some ⟨cachedK, cachedV, true⟩)
      | _, _ => return (manager, none)
    else return (manager, some ⟨k, v, false⟩)
  else return (manager, none)

/-- The output, unless the call failed, and what it attended to. The output has a row for each of
the input, or the `reshape` of it fails. -/
def forward (attn : LlamaAttention χ κ) (x : List χ) (index : ℕ)
    (manager : KVCacheManager (List κ)) (requestId : RequestId) :
    Except Fault (KVCacheManager (List κ) × List (View κ) × Option (List χ)) := do
  let q := attn.rope.apply (x.map attn.qProj) index
  let (manager, view) ← attn.fullKv x index manager requestId
  match view with
  | some view =>
    return (manager, [view],
      (attn.attend q view.keys view.values).filter (·.length = x.length))
  | none => return (manager, [], none)

end LlamaAttention

/-- The same code up to `all_reduce`, which is in the parameters. -/
abbrev Qwen2Attention := LlamaAttention

structure LlamaDecoderLayer (χ κ : Type) where
  selfAttn : LlamaAttention χ κ
  mlp : χ → χ
  inputLayernorm : χ → χ
  postAttentionLayernorm : χ → χ

/-- The two residual additions, after attention and after the feed-forward part. -/
def LlamaDecoderLayer.forward [Add χ] (layer : LlamaDecoderLayer χ κ) (x : List χ) (index : ℕ)
    (manager : KVCacheManager (List κ)) (requestId : RequestId) :
    Except Fault (KVCacheManager (List κ) × List (View κ) × Option (List χ)) := do
  let (manager, views, out) ←
    layer.selfAttn.forward (x.map layer.inputLayernorm) index manager requestId
  return (manager, views, out.map fun out =>
    (List.zipWith (· + ·) out x).map fun row =>
      layer.mlp (layer.postAttentionLayernorm row) + row)

structure LlamaModel (χ κ : Type) where
  embedTokens : Option (χ → χ)
  layers : List (LlamaDecoderLayer χ κ)
  norm : Option (χ → χ)
  lmHead : Option (χ → χ)

namespace LlamaModel

/-- A stage that only the first or the last part of a pipeline has. -/
def stage (f : Option (χ → χ)) (x : List χ) : List χ :=
  match f with
  | some f => x.map f
  | none => x

variable [Add χ]

/-- The loop over the layers, all on the same slot. -/
def forwardLayers (index : ℕ) (requestId : RequestId) : List (LlamaDecoderLayer χ κ) → List χ →
    KVCacheManager (List κ) →
    Except Fault (KVCacheManager (List κ) × List (View κ) × Option (List χ))
  | [], x, manager => .ok (manager, [], some x)
  | layer :: layers, x, manager => do
    let (manager, views, out) ← layer.forward x index manager requestId
    match out with
    | some x =>
      let (manager, more, out) ← forwardLayers index requestId layers x manager
      return (manager, views ++ more, out)
    | none => return (manager, views, none)

def forward (model : LlamaModel χ κ) (x : List χ) (index : ℕ)
    (manager : KVCacheManager (List κ)) (requestId : RequestId) :
    Except Fault (KVCacheManager (List κ) × List (View κ) × Option (List χ)) := do
  let x := stage model.embedTokens x
  let (manager, views, out) ← forwardLayers index requestId model.layers x manager
  return (manager, views, out.map fun x => stage model.lmHead (stage model.norm x))

end LlamaModel

/-- The same code up to `all_reduce`, which is in the parameters. -/
abbrev Qwen2Model := LlamaModel

def Qwen2Model.forward [Add χ] (model : Qwen2Model χ κ) (x : List χ) (index : ℕ)
    (manager : KVCacheManager (List κ)) (requestId : RequestId) :
    Except Fault (KVCacheManager (List κ) × List (View κ) × Option (List χ)) :=
  LlamaModel.forward model x index manager requestId

inductive ModelInstance (χ κ : Type) where
  | llama (model : LlamaModel χ κ)
  | qwen2 (model : Qwen2Model χ κ)

namespace ModelInstance

/-- The stages and layers of either architecture. -/
def decoder : ModelInstance χ κ → LlamaModel χ κ
  | .llama model | .qwen2 model => model

variable [Add χ]

def forward : ModelInstance χ κ → List χ → ℕ → KVCacheManager (List κ) → RequestId →
    Except Fault (KVCacheManager (List κ) × List (View κ) × Option (List χ))
  | .llama model => LlamaModel.forward model
  | .qwen2 model => Qwen2Model.forward model

theorem forward_eq (model : ModelInstance χ κ) : model.forward = model.decoder.forward := by
  cases model with
  | llama _ => rfl
  | qwen2 _ => rfl

end ModelInstance

/-- A call of `forward`. -/
structure Pass (χ : Type) where
  requestId : RequestId
  input : List χ
  index : ℕ
  deriving DecidableEq, Repr

/-- Passes one after another that all return `Ok`, with what the layers of each of them attended
to. -/
inductive Passes [Add χ] (model : ModelInstance χ κ) :
    KVCacheManager (List κ) → List (Pass χ) → KVCacheManager (List κ) → List (List (View κ)) → Prop
  | nil (manager : KVCacheManager (List κ)) : Passes model manager [] manager []
  | cons {manager next last : KVCacheManager (List κ)} {pass : Pass χ} {passes : List (Pass χ)}
      {views : List (View κ)} {more : List (List (View κ))} {out : List χ}
      (first : model.forward pass.input pass.index manager pass.requestId =
        .ok (next, views, some out))
      (rest : Passes model next passes last more) :
      Passes model manager (pass :: passes) last (views :: more)

end Kyro
