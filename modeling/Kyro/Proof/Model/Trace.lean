import Kyro.Proof.Model.Layers

/-!
# Which layer a row is from

The traced model does what the model does on rows that carry the number of the layer that made them.
Dropping the numbers gives the model's own run back, so what a layer attends to is known row by row:
with one layer only its own, with more also the rows of the others, and the context is as many times
too long.
-/

namespace Kyro

variable {χ κ α β : Type}

/-! ### Rows under a map -/

namespace RequestKVCache

def mapRows (f : α → β) (cache : RequestKVCache (List α)) : RequestKVCache (List β) where
  keyTensor := cache.keyTensor.map (·.map f)
  valueTensor := cache.valueTensor.map (·.map f)
  numCachedTokens := cache.numCachedTokens

theorem getD_map_map (f : α → β) (rows : Option (List α)) :
    (rows.map (·.map f)).getD [] = (rows.getD []).map f := by
  cases rows with
  | none => rfl
  | some rows => rfl

theorem mapRows_extend (f : α → β) (cache : RequestKVCache (List α)) (key value : List α) :
    (cache.extend key value).mapRows f = (cache.mapRows f).extend (key.map f) (value.map f) := by
  simp only [mapRows, extend, Option.map_some, List.map_append, getD_map_map, List.length_map]

/-- All rows of a slot. -/
def rows (cache : RequestKVCache (List α)) : List α :=
  cache.keyTensor.getD [] ++ cache.valueTensor.getD []

theorem mem_rows_extend {cache : RequestKVCache (List α)} {key value : List α} {row : α} :
    row ∈ (cache.extend key value).rows ↔ row ∈ cache.rows ∨ row ∈ key ∨ row ∈ value := by
  simp only [rows, extend, Option.getD_some, List.mem_append]
  tauto

end RequestKVCache

def View.mapRows (f : α → β) (view : View α) : View β where
  keys := view.keys.map f
  values := view.values.map f
  decode := view.decode

namespace KVCacheManager

def mapRows (f : α → β) (manager : KVCacheManager (List α)) : KVCacheManager (List β) where
  requestCaches :=
    { entries := manager.requestCaches.entries.map (Sigma.map id fun _ => RequestKVCache.mapRows f)
      nodupKeys := manager.requestCaches.nodupKeys.map₂ _ _ }

theorem lookup_mapRows (f : α → β) (manager : KVCacheManager (List α)) (id : RequestId) :
    (manager.mapRows f).requestCaches.lookup id =
      (manager.requestCaches.lookup id).map (RequestKVCache.mapRows f) :=
  List.dlookup_map₂ id

/-- The slots of one cache are those of the other up to the layers of their rows. -/
def Erases (traced : KVCacheManager (List (ℕ × κ))) (manager : KVCacheManager (List κ)) : Prop :=
  ∀ id, manager.requestCaches.lookup id =
    (traced.requestCaches.lookup id).map (RequestKVCache.mapRows Prod.snd)

theorem Erases.store {traced : KVCacheManager (List (ℕ × κ))} {manager : KVCacheManager (List κ)}
    (h : traced.Erases manager) (id : RequestId) (cache : RequestKVCache (List (ℕ × κ))) :
    (traced.store id cache).Erases (manager.store id (cache.mapRows Prod.snd)) := by
  intro other
  rw [KVCacheManager.store, KVCacheManager.store]
  by_cases heq : other = id
  · rw [heq, AList.lookup_insert, AList.lookup_insert]
    rfl
  · rw [AList.lookup_insert_ne heq, AList.lookup_insert_ne heq]
    exact h other

/-- A cache whose rows are all said to be of the first layer. -/
theorem erases_mapRows (manager : KVCacheManager (List κ)) :
    (manager.mapRows (Prod.mk 0)).Erases manager := by
  intro id
  rw [lookup_mapRows, Option.map_map]
  have hcomp : RequestKVCache.mapRows Prod.snd ∘ RequestKVCache.mapRows (Prod.mk 0) =
      (fun cache : RequestKVCache (List κ) => cache) := by
    funext cache
    obtain ⟨key, value, n⟩ := cache
    simp [RequestKVCache.mapRows, Function.comp_def]
  rw [hcomp, Option.map_id']

end KVCacheManager

/-! ### The traced model -/

def LlamaAttention.traced (layer : ℕ) (attn : LlamaAttention χ κ) : LlamaAttention χ (ℕ × κ) where
  qProj x := (layer, attn.qProj x)
  kProj x := (layer, attn.kProj x)
  vProj x := (layer, attn.vProj x)
  rope := ⟨fun row position => (row.1, attn.rope.rotate row.2 position)⟩
  attend q k v := attn.attend (q.map (·.2)) (k.map (·.2)) (v.map (·.2))

def LlamaDecoderLayer.traced (layer : ℕ) (decoder : LlamaDecoderLayer χ κ) :
    LlamaDecoderLayer χ (ℕ × κ) :=
  { decoder with selfAttn := decoder.selfAttn.traced layer }

def tracedLayers (layer : ℕ) : List (LlamaDecoderLayer χ κ) → List (LlamaDecoderLayer χ (ℕ × κ))
  | [] => []
  | decoder :: decoders => decoder.traced layer :: tracedLayers (layer + 1) decoders

def LlamaModel.traced (model : LlamaModel χ κ) : LlamaModel χ (ℕ × κ) :=
  { model with layers := tracedLayers 0 model.layers }

def ModelInstance.traced : ModelInstance χ κ → ModelInstance χ (ℕ × κ)
  | .llama model => .llama model.traced
  | .qwen2 model => .qwen2 (LlamaModel.traced model)

theorem ModelInstance.decoder_traced (model : ModelInstance χ κ) :
    model.traced.decoder = model.decoder.traced := by
  cases model with
  | llama _ => rfl
  | qwen2 _ => rfl

namespace LlamaAttention

theorem apply_traced (attn : LlamaAttention χ κ) (layer : ℕ) (rows : List κ) (index : ℕ) :
    (attn.traced layer).rope.apply (rows.map (Prod.mk layer)) index =
      (attn.rope.apply rows index).map (Prod.mk layer) := by
  apply List.ext_getElem?
  intro i
  rw [RotaryEmbedding.apply, RotaryEmbedding.apply, List.getElem?_mapIdx, List.getElem?_map,
    List.getElem?_map, List.getElem?_mapIdx]
  cases rows[i]? with
  | none => rfl
  | some row => rfl

theorem keys_traced (attn : LlamaAttention χ κ) (layer : ℕ) (x : List χ) (index : ℕ) :
    (attn.traced layer).keys x index = (attn.keys x index).map (Prod.mk layer) := by
  rw [keys, keys, ← apply_traced, List.map_map]
  rfl

theorem values_traced (attn : LlamaAttention χ κ) (layer : ℕ) (x : List χ) :
    (attn.traced layer).values x = (attn.values x).map (Prod.mk layer) := by
  rw [values, values, List.map_map]
  rfl

theorem map_snd_mk (layer : ℕ) (rows : List κ) :
    (rows.map (Prod.mk layer)).map Prod.snd = rows := by
  rw [List.map_map]
  exact List.map_id _

theorem view_traced (attn : LlamaAttention χ κ) (layer : ℕ)
    (cache : RequestKVCache (List (ℕ × κ))) (x : List χ) (index : ℕ) :
    ((attn.traced layer).view cache x index).mapRows Prod.snd =
      attn.view (cache.mapRows Prod.snd) x index := by
  rw [view, view, keys_traced, values_traced]
  have hcount : (cache.mapRows Prod.snd).numCachedTokens = cache.numCachedTokens := rfl
  rw [hcount]
  split
  · simp only [View.mapRows, RequestKVCache.mapRows, List.map_append, map_snd_mk,
      RequestKVCache.getD_map_map]
  · simp only [View.mapRows, map_snd_mk]

theorem output_traced (attn : LlamaAttention χ κ) (layer : ℕ)
    (cache : RequestKVCache (List (ℕ × κ))) (x : List χ) (index : ℕ) :
    (attn.traced layer).output cache x index = attn.output (cache.mapRows Prod.snd) x index := by
  have hqueries : (attn.traced layer).rope.apply (x.map (attn.traced layer).qProj) index =
      (attn.rope.apply (x.map attn.qProj) index).map (Prod.mk layer) := by
    rw [← apply_traced, List.map_map]
    rfl
  have hview := view_traced attn layer cache x index
  rw [output, output, ← hview, hqueries]
  change (attn.attend (((attn.rope.apply (x.map attn.qProj) index).map (Prod.mk layer)).map
    Prod.snd) _ _).filter _ = _
  rw [map_snd_mk]
  rfl

/-- What a call attends to is in the slot or its own. -/
theorem view_rows {attn : LlamaAttention χ κ} {layer : ℕ}
    {cache : RequestKVCache (List (ℕ × κ))} (hcache : ∀ row ∈ cache.rows, row.1 = layer)
    (x : List χ) (index : ℕ) :
    (∀ row ∈ (cache.extend ((attn.traced layer).keys x index)
      ((attn.traced layer).values x)).rows, row.1 = layer) ∧
    ∀ row ∈ ((attn.traced layer).view cache x index).keys ++
      ((attn.traced layer).view cache x index).values, row.1 = layer := by
  have hkeys : ∀ row ∈ (attn.traced layer).keys x index, row.1 = layer := by
    intro row hrow
    rw [keys_traced] at hrow
    obtain ⟨_, _, rfl⟩ := List.mem_map.mp hrow
    rfl
  have hvalues : ∀ row ∈ (attn.traced layer).values x, row.1 = layer := by
    intro row hrow
    rw [values_traced] at hrow
    obtain ⟨_, _, rfl⟩ := List.mem_map.mp hrow
    rfl
  have hextend : ∀ row ∈ (cache.extend ((attn.traced layer).keys x index)
      ((attn.traced layer).values x)).rows, row.1 = layer := by
    intro row hrow
    rcases RequestKVCache.mem_rows_extend.mp hrow with hrow | hrow | hrow
    · exact hcache row hrow
    · exact hkeys row hrow
    · exact hvalues row hrow
  refine ⟨hextend, ?_⟩
  rw [view]
  split
  · exact hextend
  · exact fun row hrow => (List.mem_append.mp hrow).elim (hkeys row) (hvalues row)

end LlamaAttention

/-! ### Whose rows a layer sees -/

/-- In the decode steps of a pass, every layer attends to its own rows. -/
def OwnRows (views : List (View (ℕ × κ))) : Prop :=
  ∀ (layer : ℕ) (view : View (ℕ × κ)), views[layer]? = some view → view.decode = true →
    ∀ row ∈ view.keys ++ view.values, row.1 = layer

/-- A slot that only the first layer has written to. -/
def FirstLayer (traced : KVCacheManager (List (ℕ × κ))) (id : RequestId) : Prop :=
  ∀ cache, traced.requestCaches.lookup id = some cache → ∀ row ∈ cache.rows, row.1 = 0

/-! ### Erasing a run -/

section Run

variable [Add χ]

theorem forwardLayers_traced {index : ℕ} {id : RequestId} {layers : List (LlamaDecoderLayer χ κ)}
    {x out : List χ} {manager last : KVCacheManager (List κ)} {views : List (View κ)}
    (hrun : LlamaModel.forwardLayers index id layers x manager = .ok (last, views, some out))
    {traced : KVCacheManager (List (ℕ × κ))} (h : traced.Erases manager) (layer : ℕ) :
    ∃ (tracedLast : KVCacheManager (List (ℕ × κ))) (seen : List (View (ℕ × κ))),
      LlamaModel.forwardLayers index id (tracedLayers layer layers) x traced =
        .ok (tracedLast, seen, some out) ∧ tracedLast.Erases last ∧
      seen.map (View.mapRows Prod.snd) = views := by
  induction layers generalizing x manager views traced layer with
  | nil =>
      cases hrun
      exact ⟨traced, [], rfl, h, rfl⟩
  | cons decoder layers ih =>
      obtain ⟨cache, y, more, hcache, houtput, hrest, rfl⟩ := LlamaModel.forwardLayers_cons.mp hrun
      obtain ⟨slot, hslot, hslotCache⟩ := Option.map_eq_some_iff.mp ((h id).symm.trans hcache)
      subst hslotCache
      have hextend : (slot.extend ((decoder.traced layer).keys x index)
          ((decoder.traced layer).values x)).mapRows Prod.snd =
          (slot.mapRows Prod.snd).extend (decoder.keys x index) (decoder.values x) := by
        rw [RequestKVCache.mapRows_extend]
        congr 1
        · exact (congrArg _ (LlamaAttention.keys_traced ..)).trans (LlamaAttention.map_snd_mk ..)
        · exact (congrArg _ (LlamaAttention.values_traced ..)).trans (LlamaAttention.map_snd_mk ..)
      obtain ⟨tracedLast, seen, htraced, herases, hseen⟩ :=
        ih hrest (hextend ▸ h.store id _) (layer + 1)
      have houtputTraced : (decoder.traced layer).output slot x index = some y := by
        rw [← houtput]
        exact congrArg _ (LlamaAttention.output_traced ..)
      refine ⟨tracedLast, (decoder.traced layer).view slot x index :: seen, ?_, herases, ?_⟩
      · exact LlamaModel.forwardLayers_cons.mpr
          ⟨slot, y, seen, hslot, houtputTraced, htraced, rfl⟩
      · rw [List.map_cons, hseen]
        exact congrArg (· :: more) (LlamaAttention.view_traced ..)

/-- **Tracing does not change a run.** -/
theorem Passes.traced {model : ModelInstance χ κ} {manager last : KVCacheManager (List κ)}
    {passes : List (Pass χ)} {views : List (List (View κ))}
    (hrun : Passes model manager passes last views) {traced : KVCacheManager (List (ℕ × κ))}
    (h : traced.Erases manager) :
    ∃ (tracedLast : KVCacheManager (List (ℕ × κ))) (seen : List (List (View (ℕ × κ)))),
      Passes model.traced traced passes tracedLast seen ∧ tracedLast.Erases last ∧
      seen.map (·.map (View.mapRows Prod.snd)) = views := by
  induction hrun generalizing traced with
  | nil manager => exact ⟨traced, [], .nil traced, h, rfl⟩
  | @cons manager next last pass passes views more out first rest ih =>
      rw [ModelInstance.forward_eq, LlamaModel.forward_eq_ok] at first
      obtain ⟨y, hlayers, hout⟩ := first
      obtain ⟨tracedNext, seen, htraced, herases, hseen⟩ := forwardLayers_traced hlayers h 0
      obtain ⟨tracedLast, seenMore, hrest, herasesLast, hmore⟩ := ih herases
      have hfirst : model.traced.forward pass.input pass.index traced pass.requestId =
          .ok (tracedNext, seen, some out) := by
        rw [ModelInstance.forward_eq, ModelInstance.decoder_traced, LlamaModel.forward_eq_ok]
        exact ⟨y, htraced, hout⟩
      refine ⟨tracedLast, seen :: seenMore, .cons hfirst hrest, herasesLast, ?_⟩
      rw [List.map_cons, hseen, hmore]

/-! ### Own rows -/

/-- Without an input there is no decode step. -/
theorem forwardLayers_decode {index : ℕ} {id : RequestId} {layers : List (LlamaDecoderLayer χ κ)}
    {x out : List χ} {manager last : KVCacheManager (List κ)} {views : List (View κ)}
    (hrun : LlamaModel.forwardLayers index id layers x manager = .ok (last, views, some out))
    (hx : x.length ≠ 1) : ∀ view ∈ views, view.decode = false := by
  induction layers generalizing x manager views with
  | nil =>
      cases hrun
      exact fun view hview => by cases hview
  | cons layer layers ih =>
      obtain ⟨cache, y, more, _, houtput, hrest, rfl⟩ := LlamaModel.forwardLayers_cons.mp hrun
      intro view hview
      rcases List.mem_cons.mp hview with rfl | hview
      · rw [LlamaDecoderLayer.view, LlamaAttention.view, if_neg]
        rw [List.length_map]
        exact fun hone => hx hone.1
      · exact ih hrest (LlamaDecoderLayer.length_output houtput ▸ hx) view hview

theorem Passes.ownRows_single {model : ModelInstance χ κ} {layer : LlamaDecoderLayer χ κ}
    (hmodel : model.decoder.layers = [layer]) {traced last : KVCacheManager (List (ℕ × κ))}
    {passes : List (Pass χ)} {seen : List (List (View (ℕ × κ)))}
    (hrun : Passes model.traced traced passes last seen) {id : RequestId}
    (h : FirstLayer traced id) :
    List.Forall₂ (fun pass views => pass.requestId = id → OwnRows views) passes seen := by
  induction hrun with
  | nil manager => exact .nil
  | @cons traced next last pass passes views more out first rest ih =>
      rw [ModelInstance.forward_eq, ModelInstance.decoder_traced, LlamaModel.forward_eq_ok] at first
      obtain ⟨y, hlayers, _⟩ := first
      have hsingle : model.decoder.traced.layers = [layer.traced 0] := by
        rw [LlamaModel.traced, hmodel]
        rfl
      rw [hsingle] at hlayers
      obtain ⟨cache, z, none, hcache, _, hnil, rfl⟩ := LlamaModel.forwardLayers_cons.mp hlayers
      cases hnil
      refine .cons ?_ (ih ?_)
      · rintro rfl
        intro l view hview hdecode
        cases l with
        | zero =>
            cases hview
            exact (LlamaAttention.view_rows (h cache hcache) _ _).2
        | succ l => cases hview
      · intro slot hslot
        by_cases heq : id = pass.requestId
        · subst heq
          rw [KVCacheManager.store, AList.lookup_insert] at hslot
          cases hslot
          exact (LlamaAttention.view_rows (h cache hcache) _ _).1
        · rw [KVCacheManager.store, AList.lookup_insert_ne heq] at hslot
          exact h slot hslot

theorem Passes.ownRows_empty {model : ModelInstance χ (ℕ × κ)}
    {traced last : KVCacheManager (List (ℕ × κ))} {passes : List (Pass χ)}
    {seen : List (List (View (ℕ × κ)))} (hrun : Passes model traced passes last seen)
    {id : RequestId} (h : ∀ pass ∈ passes, pass.requestId = id → pass.input.length = 0) :
    List.Forall₂ (fun pass views => pass.requestId = id → OwnRows views) passes seen := by
  induction hrun with
  | nil manager => exact .nil
  | @cons traced next last pass passes views more out first rest ih =>
      refine .cons ?_ (ih fun pass hpass => h pass (.tail _ hpass))
      intro hid l view hview hdecode
      rw [ModelInstance.forward_eq, LlamaModel.forward_eq_ok] at first
      obtain ⟨y, hlayers, _⟩ := first
      have hlength : (LlamaModel.stage model.decoder.embedTokens pass.input).length ≠ 1 := by
        rw [LlamaModel.length_stage, h pass List.mem_cons_self hid]
        exact Nat.zero_ne_one
      rw [forwardLayers_decode hlayers hlength view (List.mem_of_getElem? hview)] at hdecode
      cases hdecode

/-- **The context counts the tokens once for each layer.** From the registration of a request on,
after any successful passes, the traced model has run the same passes, and the context is as long as
the tokens of the request and every layer has attended to its own rows in the decode steps, if and
only if the model has one layer or there were no tokens. -/
theorem context_counts_tokens_iff {model : ModelInstance χ κ}
    {manager last : KVCacheManager (List κ)}
    {passes : List (Pass χ)} {views : List (List (View κ))} {id : RequestId}
    (hrun : Passes model (manager.registerRequest id) passes last views) :
    ∃ (traced : KVCacheManager (List (ℕ × κ))) (seen : List (List (View (ℕ × κ)))),
      Passes model.traced ((manager.mapRows (Prod.mk 0)).registerRequest id) passes traced seen ∧
      seen.map (·.map (View.mapRows Prod.snd)) = views ∧
      (last.getContextLen id = fedRows id passes ∧
        List.Forall₂ (fun pass views => pass.requestId = id → OwnRows views) passes seen ↔
          model.decoder.layers.length = 1 ∨ fedRows id passes = 0) := by
  have herases : ((manager.mapRows (Prod.mk 0)).registerRequest id).Erases
      (manager.registerRequest id) :=
    (KVCacheManager.erases_mapRows manager).store id ⟨none, none, 0⟩
  obtain ⟨traced, seen, htraced, _, hseen⟩ := hrun.traced herases
  refine ⟨traced, seen, htraced, hseen, ?_⟩
  have hcontext : last.getContextLen id =
      model.decoder.layers.length * fedRows id passes := by
    rw [hrun.contextLen id]
    change (manager.store id ⟨none, none, 0⟩).getContextLen id + _ = _
    rw [LlamaModel.store_contextLen, if_pos rfl, Nat.zero_add]
  rw [hcontext]
  constructor
  · rintro ⟨heq, _⟩
    rcases Nat.eq_zero_or_pos (fedRows id passes) with hzero | hpos
    · exact Or.inr hzero
    · exact Or.inl ((Nat.mul_eq_right hpos.ne').mp heq)
  · rintro (hone | hzero)
    · obtain ⟨layer, hlayer⟩ := List.length_eq_one_iff.mp hone
      have hfirst : FirstLayer ((manager.mapRows (Prod.mk 0)).registerRequest id) id := by
        intro cache hcache row hrow
        rw [KVCacheManager.registerRequest, AList.lookup_insert] at hcache
        cases hcache
        cases hrow
      exact ⟨by rw [hone, Nat.one_mul], htraced.ownRows_single hlayer hfirst⟩
    · refine ⟨by rw [hzero, Nat.mul_zero], htraced.ownRows_empty fun pass hpass hid => ?_⟩
      exact List.sum_eq_zero_iff_forall_eq_nat.mp hzero _
        (List.mem_map_of_mem (List.mem_filter.mpr ⟨hpass, decide_eq_true hid⟩))

end Run

/-- A model that attends to the queries alone. -/
def plainModel (depth : ℕ) : ModelInstance ℕ ℕ :=
  .llama
    { embedTokens := some (10 * ·)
      layers := List.replicate depth
        { selfAttn :=
            { qProj := id
              kProj := id
              vProj := id
              rope := ⟨(· + ·)⟩
              attend := fun q _ _ => some q }
          mlp := id
          inputLayernorm := id
          postAttentionLayernorm := id }
      norm := none
      lmHead := none }

/-- A prompt of two tokens and a decode step, with one layer. -/
theorem context_counts_tokens_of_one_layer :
    ∃ (traced : KVCacheManager (List (ℕ × ℕ))) (seen : List (List (View (ℕ × ℕ)))),
      Passes (plainModel 1).traced
        ((KVCacheManager.new.mapRows (Prod.mk 0)).registerRequest 1)
        [⟨1, [5, 7], 0⟩, ⟨1, [9], 0⟩] traced seen ∧
      seen.map (·.map (View.mapRows Prod.snd)) =
        [[⟨[50, 71], [50, 70], false⟩], [⟨[50, 71, 90], [50, 70, 90], true⟩]] ∧
      (3 = fedRows 1 [⟨1, [5, 7], 0⟩, ⟨1, [9], 0⟩] ∧
        List.Forall₂ (fun (pass : Pass ℕ) views => pass.requestId = 1 → OwnRows views)
          [⟨1, [5, 7], 0⟩, ⟨1, [9], 0⟩] seen ↔
          (plainModel 1).decoder.layers.length = 1 ∨
            fedRows 1 [(⟨1, [5, 7], 0⟩ : Pass ℕ), ⟨1, [9], 0⟩] = 0) := by
  obtain ⟨last, hrun, hcontext⟩ : ∃ last, Passes (plainModel 1)
      (KVCacheManager.new.registerRequest 1) [⟨1, [5, 7], 0⟩, ⟨1, [9], 0⟩] last
      [[⟨[50, 71], [50, 70], false⟩], [⟨[50, 71, 90], [50, 70, 90], true⟩]] ∧
      last.getContextLen 1 = 3 := ⟨_, .cons rfl (.cons rfl (.nil _)), rfl⟩
  rw [← hcontext]
  exact context_counts_tokens_iff hrun

/-- One pass over two tokens with two layers: the context is of four tokens. -/
theorem context_counts_layers :
    ∃ last : KVCacheManager (List (ℕ × ℕ)),
      Passes (plainModel 2).traced (KVCacheManager.new.registerRequest 1) [⟨1, [5, 7], 0⟩] last
        [[⟨[(0, 50), (0, 71)], [(0, 50), (0, 70)], false⟩,
          ⟨[(1, 200), (1, 283)], [(1, 200), (1, 282)], false⟩]] ∧
      last.getContextLen 1 = 4 ∧ fedRows 1 [(⟨1, [5, 7], 0⟩ : Pass ℕ)] = 2 :=
  ⟨_, .cons rfl (.nil _), rfl, rfl⟩

end Kyro
