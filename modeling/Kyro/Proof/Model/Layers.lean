import Kyro.Model.Llama

/-!
# One slot for all layers

Every layer of a pass appends the keys and values of all rows of its input to the one slot of the
request, so the length of the slot counts the tokens once for each layer, and a decode step attends
to the rows of all of them. To say which layer a row is from, the rows carry the number of their
layer: the forward pass does the same on them, up to the numbers.
-/

namespace Kyro

variable {χ κ : Type}

/-! ### What one layer does -/

namespace LlamaAttention

theorem length_keys (attn : LlamaAttention χ κ) (x : List χ) (index : ℕ) :
    (attn.keys x index).length = x.length := by
  rw [keys, RotaryEmbedding.apply, List.length_mapIdx, List.length_map]

/-- What a call attends to, with the slot it finds. -/
def view (attn : LlamaAttention χ κ) (cache : RequestKVCache (List κ)) (x : List χ) (index : ℕ) :
    View κ :=
  if x.length = 1 ∧ x.length < cache.numCachedTokens + x.length then
    { keys := cache.keyTensor.getD [] ++ attn.keys x index
      values := cache.valueTensor.getD [] ++ attn.values x
      decode := true }
  else
    { keys := attn.keys x index
      values := attn.values x
      decode := false }

/-- The output, where its shape is right. -/
def output (attn : LlamaAttention χ κ) (cache : RequestKVCache (List κ)) (x : List χ)
    (index : ℕ) : Option (List χ) :=
  let view := attn.view cache x index
  (attn.attend (attn.rope.apply (x.map attn.qProj) index) view.keys view.values).filter
    (·.length = x.length)

/-- **What `full_k` and `full_v` are.** -/
theorem fullKv_eq (attn : LlamaAttention χ κ) {manager : KVCacheManager (List κ)}
    {id : RequestId} {cache : RequestKVCache (List κ)}
    (h : manager.requestCaches.lookup id = some cache) (x : List χ) (index : ℕ) :
    attn.fullKv x index manager id =
      .ok (⟨manager.requestCaches.insert id
        (cache.extend (attn.keys x index) (attn.values x))⟩, some (attn.view cache x index)) := by
  let next : KVCacheManager (List κ) :=
    ⟨manager.requestCaches.insert id (cache.extend (attn.keys x index) (attn.values x))⟩
  have hlookup : next.requestCaches.lookup id =
      some (cache.extend (attn.keys x index) (attn.values x)) := AList.lookup_insert _
  have hlength : next.getContextLen id = cache.numCachedTokens + x.length := by
    rw [KVCacheManager.getContextLen, hlookup, ← attn.length_keys x index]
    rfl
  have hkey : next.getCachedKey id = some (cache.keyTensor.getD [] ++ attn.keys x index) := by
    rw [KVCacheManager.getCachedKey, hlookup]
    rfl
  have hvalue : next.getCachedValue id = some (cache.valueTensor.getD [] ++ attn.values x) := by
    rw [KVCacheManager.getCachedValue, hlookup]
    rfl
  rw [fullKv]
  dsimp only
  rw [KVCacheManager.appendKv_rows h, Machine.ok_bind]
  dsimp only
  rw [if_pos rfl, hlength, hkey, hvalue, view]
  split
  · rfl
  · rfl

theorem forward_eq (attn : LlamaAttention χ κ) {manager : KVCacheManager (List κ)}
    {id : RequestId} {cache : RequestKVCache (List κ)}
    (h : manager.requestCaches.lookup id = some cache) (x : List χ) (index : ℕ) :
    attn.forward x index manager id =
      .ok (⟨manager.requestCaches.insert id
        (cache.extend (attn.keys x index) (attn.values x))⟩, [attn.view cache x index],
        attn.output cache x index) := by
  rw [forward]
  dsimp only
  rw [attn.fullKv_eq h]
  rfl

end LlamaAttention

/-- A slot that has been appended to. -/
def KVCacheManager.store (manager : KVCacheManager (List κ)) (id : RequestId)
    (cache : RequestKVCache (List κ)) : KVCacheManager (List κ) :=
  ⟨manager.requestCaches.insert id cache⟩

namespace LlamaDecoderLayer

def keys (layer : LlamaDecoderLayer χ κ) (x : List χ) (index : ℕ) : List κ :=
  layer.selfAttn.keys (x.map layer.inputLayernorm) index

def values (layer : LlamaDecoderLayer χ κ) (x : List χ) : List κ :=
  layer.selfAttn.values (x.map layer.inputLayernorm)

def view (layer : LlamaDecoderLayer χ κ) (cache : RequestKVCache (List κ)) (x : List χ)
    (index : ℕ) : View κ :=
  layer.selfAttn.view cache (x.map layer.inputLayernorm) index

variable [Add χ]

def output (layer : LlamaDecoderLayer χ κ) (cache : RequestKVCache (List κ)) (x : List χ)
    (index : ℕ) : Option (List χ) :=
  (layer.selfAttn.output cache (x.map layer.inputLayernorm) index).map fun out =>
    (List.zipWith (· + ·) out x).map fun row =>
      layer.mlp (layer.postAttentionLayernorm row) + row

theorem forward_eq (layer : LlamaDecoderLayer χ κ) {manager : KVCacheManager (List κ)}
    {id : RequestId} {cache : RequestKVCache (List κ)}
    (h : manager.requestCaches.lookup id = some cache) (x : List χ) (index : ℕ) :
    layer.forward x index manager id =
      .ok (manager.store id (cache.extend (layer.keys x index) (layer.values x)),
        [layer.view cache x index], layer.output cache x index) := by
  rw [forward, layer.selfAttn.forward_eq h]
  rfl

/-- A call needs the slot. -/
theorem exists_lookup {layer : LlamaDecoderLayer χ κ} {manager : KVCacheManager (List κ)}
    {id : RequestId} {x : List χ} {index : ℕ}
    {result : KVCacheManager (List κ) × List (View κ) × Option (List χ)}
    (h : layer.forward x index manager id = .ok result) :
    ∃ cache, manager.requestCaches.lookup id = some cache := by
  obtain ⟨_, hattn, _⟩ := Machine.bind_eq_ok.mp h
  obtain ⟨_, hfull, _⟩ := Machine.bind_eq_ok.mp hattn
  obtain ⟨_, happend, _⟩ := Machine.bind_eq_ok.mp hfull
  exact Option.isSome_iff_exists.mp
    (AList.lookup_isSome.mpr (KVCacheManager.registered_appendKv happend).1)

theorem length_output {layer : LlamaDecoderLayer χ κ} {cache : RequestKVCache (List κ)}
    {x : List χ} {index : ℕ} {out : List χ} (h : layer.output cache x index = some out) :
    out.length = x.length := by
  obtain ⟨attended, hattended, rfl⟩ := Option.map_eq_some_iff.mp h
  obtain ⟨_, hlength⟩ := Option.filter_eq_some_iff.mp hattended
  have hlength := of_decide_eq_true hlength
  rw [List.length_map] at hlength
  rw [List.length_map, List.length_zipWith, hlength, Nat.min_self]

end LlamaDecoderLayer

/-! ### The loop over the layers -/

namespace LlamaModel

theorem stage_eq_map (f : Option (χ → χ)) (x : List χ) : stage f x = x.map (f.getD id) := by
  cases f with
  | none => exact (List.map_id x).symm
  | some f => rfl

@[simp] theorem length_stage (f : Option (χ → χ)) (x : List χ) :
    (stage f x).length = x.length := by
  rw [stage_eq_map, List.length_map]

variable [Add χ]

/-- The first layer of a successful pass, and the others after it. -/
theorem forwardLayers_cons {index : ℕ} {id : RequestId} {layer : LlamaDecoderLayer χ κ}
    {layers : List (LlamaDecoderLayer χ κ)} {x out : List χ}
    {manager last : KVCacheManager (List κ)} {views : List (View κ)} :
    forwardLayers index id (layer :: layers) x manager = .ok (last, views, some out) ↔
      ∃ cache y more, manager.requestCaches.lookup id = some cache ∧
        layer.output cache x index = some y ∧
        forwardLayers index id layers y
          (manager.store id (cache.extend (layer.keys x index) (layer.values x))) =
            .ok (last, more, some out) ∧
        views = layer.view cache x index :: more := by
  constructor
  · intro h
    obtain ⟨result, hlayer, _⟩ := Machine.bind_eq_ok.mp h
    obtain ⟨cache, hcache⟩ := LlamaDecoderLayer.exists_lookup hlayer
    rw [forwardLayers, layer.forward_eq hcache, Machine.ok_bind] at h
    dsimp only at h
    cases houtput : layer.output cache x index with
    | none =>
        rw [houtput] at h
        cases h
    | some y =>
        rw [houtput] at h
        obtain ⟨⟨next, more, result⟩, hrest, heq⟩ := Machine.bind_eq_ok.mp h
        cases heq
        exact ⟨cache, y, more, hcache, houtput, hrest, rfl⟩
  · rintro ⟨cache, y, more, hcache, houtput, hrest, rfl⟩
    rw [forwardLayers, layer.forward_eq hcache, Machine.ok_bind]
    dsimp only
    rw [houtput]
    dsimp only
    rw [hrest]
    rfl

theorem forward_eq_ok {model : LlamaModel χ κ} {x out : List χ} {index : ℕ} {id : RequestId}
    {manager last : KVCacheManager (List κ)} {views : List (View κ)} :
    model.forward x index manager id = .ok (last, views, some out) ↔
      ∃ y, forwardLayers index id model.layers (stage model.embedTokens x) manager =
          .ok (last, views, some y) ∧ stage model.lmHead (stage model.norm y) = out := by
  constructor
  · intro h
    obtain ⟨⟨next, more, result⟩, hlayers, heq⟩ := Machine.bind_eq_ok.mp h
    cases result with
    | none => cases heq
    | some y =>
        cases heq
        exact ⟨y, hlayers, rfl⟩
  · rintro ⟨y, hlayers, rfl⟩
    rw [forward, hlayers]
    rfl

/-! ### The length of the context -/

theorem store_contextLen (manager : KVCacheManager (List κ)) (id other : RequestId)
    (cache : RequestKVCache (List κ)) :
    (manager.store id cache).getContextLen other =
      if id = other then cache.numCachedTokens else manager.getContextLen other := by
  rw [KVCacheManager.getContextLen, KVCacheManager.store]
  split
  · rename_i heq
    rw [heq, AList.lookup_insert]
    rfl
  · rename_i hne
    rw [AList.lookup_insert_ne (Ne.symm hne)]
    rfl

/-- Every layer counts every row. -/
theorem forwardLayers_contextLen {index : ℕ} {id : RequestId}
    {layers : List (LlamaDecoderLayer χ κ)} {x out : List χ}
    {manager last : KVCacheManager (List κ)} {views : List (View κ)}
    (h : forwardLayers index id layers x manager = .ok (last, views, some out))
    (other : RequestId) :
    last.getContextLen other =
      manager.getContextLen other + if id = other then layers.length * x.length else 0 := by
  induction layers generalizing x manager views with
  | nil =>
      cases h
      simp
  | cons layer layers ih =>
      obtain ⟨cache, y, more, hcache, houtput, hrest, _⟩ := forwardLayers_cons.mp h
      have hlength := LlamaDecoderLayer.length_output houtput
      have hkeys : (layer.keys x index).length = x.length := by
        rw [LlamaDecoderLayer.keys, LlamaAttention.length_keys, List.length_map]
      rw [ih hrest, store_contextLen]
      split
      · rename_i heq
        have hcontext : manager.getContextLen other = cache.numCachedTokens := by
          rw [← heq, KVCacheManager.getContextLen, hcache]
          rfl
        have hextend : (cache.extend (layer.keys x index) (layer.values x)).numCachedTokens =
            cache.numCachedTokens + (layer.keys x index).length := rfl
        rw [hcontext, hextend, hkeys, hlength, List.length_cons, Nat.succ_mul]
        omega
      · rfl

end LlamaModel

/-- The rows that some passes feed to a request. -/
def fedRows (id : RequestId) (passes : List (Pass χ)) : ℕ :=
  ((passes.filter (·.requestId = id)).map (·.input.length)).sum

theorem Passes.contextLen [Add χ] {model : ModelInstance χ κ}
    {manager last : KVCacheManager (List κ)} {passes : List (Pass χ)}
    {seen : List (List (View κ))} (h : Passes model manager passes last seen) (id : RequestId) :
    last.getContextLen id =
      manager.getContextLen id + model.decoder.layers.length * fedRows id passes := by
  induction h with
  | nil manager => rfl
  | @cons manager next last pass passes views more out first rest ih =>
      rw [ModelInstance.forward_eq, LlamaModel.forward_eq_ok] at first
      obtain ⟨y, hlayers, _⟩ := first
      have hfed : fedRows id (pass :: passes) =
          (if pass.requestId = id then pass.input.length else 0) + fedRows id passes := by
        by_cases heq : pass.requestId = id
        · simp [fedRows, heq]
        · simp [fedRows, heq]
      rw [ih, LlamaModel.forwardLayers_contextLen hlayers, LlamaModel.length_stage, hfed,
        Nat.mul_add, Nat.add_assoc]
      split
      · rfl
      · rw [Nat.mul_zero]

/-! ### A model with one layer -/

/-- A model with one layer, and the input row of a token. -/
structure SingleLayer (χ κ : Type) where
  model : LlamaModel χ κ
  layer : LlamaDecoderLayer χ κ
  layers_eq : model.layers = [layer]
  row : Token → χ

namespace SingleLayer

/-- The key of a token, rotated for a position. -/
def key (single : SingleLayer χ κ) (token : Token) (position : ℕ) : κ :=
  single.layer.selfAttn.rope.rotate
    (single.layer.selfAttn.kProj (single.layer.inputLayernorm
      ((single.model.embedTokens.getD id) (single.row token)))) position

def value (single : SingleLayer χ κ) (token : Token) : κ :=
  single.layer.selfAttn.vProj (single.layer.inputLayernorm
    ((single.model.embedTokens.getD id) (single.row token)))

/-- What `forward(&input, 0, ..)` appends. -/
def appends (single : SingleLayer χ κ) (input : List Token) : List (List κ × List κ) :=
  let x := LlamaModel.stage single.model.embedTokens (input.map single.row)
  [(single.layer.keys x 0, single.layer.values x)]

/-- The worker gives every input the positions from zero on. -/
theorem appends_eq (single : SingleLayer χ κ) (input : List Token) :
    single.appends input =
      [(input.mapIdx fun i token => single.key token i, input.map single.value)] := by
  have hstage : LlamaModel.stage single.model.embedTokens (input.map single.row) =
      input.map fun token => (single.model.embedTokens.getD id) (single.row token) := by
    rw [LlamaModel.stage_eq_map, List.map_map]
    rfl
  rw [appends, hstage]
  congr 2
  · apply List.ext_getElem?
    intro i
    rw [LlamaDecoderLayer.keys, LlamaAttention.keys, RotaryEmbedding.apply, List.map_map,
      List.map_map, List.getElem?_mapIdx, List.getElem?_mapIdx, List.getElem?_map, Nat.zero_add]
    cases input[i]? with
    | none => rfl
    | some token => rfl
  · rw [LlamaDecoderLayer.values, LlamaAttention.values, List.map_map, List.map_map]
    rfl

/-- The call leaves the cache as these appends do. -/
theorem forward_appends [Add χ] (single : SingleLayer χ κ) (input : List Token)
    {manager : KVCacheManager (List κ)} {id : RequestId}
    {result : KVCacheManager (List κ) × List (View κ) × Option (List χ)}
    (h : single.model.forward (input.map single.row) 0 manager id = .ok result) :
    manager.appendAll (.rows κ) id (single.appends input) = .ok (result.1, true) := by
  obtain ⟨⟨next, views, out⟩, hlayers, heq⟩ := Machine.bind_eq_ok.mp h
  cases heq
  rw [single.layers_eq] at hlayers
  obtain ⟨⟨after, first, y⟩, hlayer, hrest⟩ := Machine.bind_eq_ok.mp hlayers
  obtain ⟨cache, hcache⟩ := LlamaDecoderLayer.exists_lookup hlayer
  rw [single.layer.forward_eq hcache] at hlayer
  cases hlayer
  have hnext : next = manager.store id (cache.extend
      (single.layer.keys (LlamaModel.stage single.model.embedTokens (input.map single.row)) 0)
      (single.layer.values
        (LlamaModel.stage single.model.embedTokens (input.map single.row)))) := by
    dsimp only at hrest
    split at hrest
    · obtain ⟨⟨last, more, z⟩, hnil, heq⟩ := Machine.bind_eq_ok.mp hrest
      cases hnil
      cases heq
      rfl
    · cases hrest
      rfl
  rw [appends, KVCacheManager.appendAll, KVCacheManager.appendKv_rows hcache, Machine.ok_bind,
    hnext]
  rfl

end SingleLayer

end Kyro
