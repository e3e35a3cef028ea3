import Kyro.Proof.Inference.Refines
import Kyro.Proof.Worker.Positions

/-!
# What a loaded model has read

A model with a layer takes an input with as many tokens as it has heads, and a single token only for
a slot with nothing in it. A slot is empty only until the first chunk of the prompt has been run,
and that is before the first decode step. So no decode step of any request ever has a result.
-/

namespace Kyro

/-! ### Slots -/

theorem Worker.lookup_registerItems {τ : Type} (cache : KVCacheManager τ) (batch : List WorkItem)
    (id : RequestId) :
    (registerItems cache batch).requestCaches.lookup id =
      if ∃ item ∈ batch, item.isPrefill ∧ item.needsCacheLookup ∧ item.reqId = id then
        some ⟨none, none, 0⟩
      else cache.requestCaches.lookup id := by
  induction batch generalizing cache with
  | nil => simp [registerItems]
  | cons item batch ih =>
      rw [registerItems, ih]
      by_cases hlater : ∃ item ∈ batch, item.isPrefill ∧ item.needsCacheLookup ∧ item.reqId = id
      · obtain ⟨later, hmem, hopens⟩ := hlater
        rw [if_pos ⟨later, hmem, hopens⟩, if_pos ⟨later, .tail _ hmem, hopens⟩]
      · rw [if_neg hlater]
        by_cases hitem : (item.isPrefill && item.needsCacheLookup) = true
        · rw [if_pos hitem]
          rw [Bool.and_eq_true] at hitem
          by_cases heq : item.reqId = id
          · rw [if_pos ⟨item, List.mem_cons_self, hitem.1, hitem.2, heq⟩, ← heq]
            exact AList.lookup_insert _
          · rw [if_neg]
            · exact AList.lookup_insert_ne (Ne.symm heq)
            · rintro ⟨other, hother, hopens⟩
              rcases List.mem_cons.mp hother with rfl | hother
              · exact heq hopens.2.2
              · exact hlater ⟨other, hother, hopens⟩
        · rw [if_neg hitem, if_neg]
          rintro ⟨other, hother, hopens⟩
          rcases List.mem_cons.mp hother with rfl | hother
          · exact hitem (Bool.and_eq_true_iff.mpr ⟨hopens.1, hopens.2.1⟩)
          · exact hlater ⟨other, hother, hopens⟩

namespace Loader

theorem Attention.Slot.count {R : Type} {attn : Attention (Tensor R)} {bSz n : ℕ}
    {slot : RequestKVCache (Tensor R)} (h : Slot attn bSz slot n) : slot.numCachedTokens = n := by
  cases h with
  | fresh => rfl
  | tokens _ _ => rfl

/-! ### Layers -/

variable {R : Type} [CommRing R] (kernels : Kernels R) {rope : RotaryEmbedding R}

/-- Every layer stores the keys and values of the input. -/
theorem forwardLayers_cached {layers : List (DecoderLayer (Tensor R))} {attn : Attention (Tensor R)}
    {hidden : ℕ} (hshaped : ∀ layer ∈ layers, layer.Shaped rope hidden ∧
      layer.selfAttn.nKvHeads = attn.nKvHeads ∧ layer.selfAttn.headDim = attn.headDim)
    {x out : Tensor R} {bSz seqLen n : ℕ} (hseq : 0 < seqLen) (hx : x.dims = [bSz, seqLen, hidden])
    (index : ℕ) {cache cache' : Option (CacheContext R)}
    (hcache : Attention.Cached attn bSz cache n) (hsome : cache.isSome)
    (hforward : forwardLayers (Qwen2DecoderLayer.forward kernels rope) index layers x cache =
      .ok (cache', some out)) :
    Attention.Cached attn bSz cache' (n + layers.length * seqLen) := by
  induction layers generalizing x n cache with
  | nil =>
      cases hforward
      rwa [List.length_nil, Nat.zero_mul, Nat.add_zero]
  | cons layer layers ih =>
      obtain ⟨hlayer, hkv, hdim⟩ := hshaped layer List.mem_cons_self
      obtain ⟨next, m, y, hfirst, ⟨hcached, hnext, hcount⟩, hshape⟩ :=
        layer_forward_cached kernels hlayer hseq hx index (hcache.congr hkv hdim)
      rw [forwardLayers, hfirst, Machine.ok_bind] at hforward
      cases y with
      | none => cases hforward
      | some y =>
          by_cases haccepted : Attention.Accepted layer.selfAttn n seqLen
          · rw [if_pos haccepted] at hshape
            have hm : m = n + seqLen :=
              (hcount haccepted.1).trans (if_pos hsome)
            have hlast := ih (fun other hother => hshaped other (.tail layer hother))
              ((Option.some.inj hshape).trans hx) (hcached.congr hkv.symm hdim.symm)
              (hnext ▸ hsome) hforward
            have hlength : n + (layers.length + 1) * seqLen =
                m + layers.length * seqLen := by rw [hm]; ring
            rwa [List.length_cons, hlength]
          · rw [if_neg haccepted] at hshape
            cases hshape

/-- Without a slot the first layer panics, or fails before. -/
theorem forwardLayers_slotless {layers : List (DecoderLayer (Tensor R))} (hne : layers ≠ [])
    {x out : Tensor R} (index : ℕ) {manager : KVCacheManager (Tensor R)} {id : RequestId}
    {cache' : Option (CacheContext R)}
    (hforward : forwardLayers (Qwen2DecoderLayer.forward kernels rope) index layers x
      (some ⟨manager, id⟩) = .ok (cache', some out)) : manager.Registered id := by
  obtain ⟨layer, layers, rfl⟩ := List.exists_cons_of_ne_nil hne
  rw [forwardLayers] at hforward
  obtain ⟨⟨next, y⟩, hfirst, hforward⟩ := Machine.bind_eq_ok.mp hforward
  cases y with
  | none => cases hforward
  | some y =>
      rw [Qwen2DecoderLayer.forward, DecoderLayer.forward] at hfirst
      split at hfirst
      · cases hfirst
      · rename_i normed hnormed
        obtain ⟨⟨stored, attended⟩, hattention, hfirst⟩ := Machine.bind_eq_ok.mp hfirst
        rw [Qwen2Attention.forward, Attention.forward] at hattention
        split at hattention
        · split at hattention
          · cases hattention
            cases hfirst
          · obtain ⟨⟨kept, full⟩, hfull, hattention⟩ := Machine.bind_eq_ok.mp hattention
            obtain ⟨⟨after, ok⟩, happend, -⟩ := Machine.bind_eq_ok.mp hfull
            exact (KVCacheManager.registered_appendKv happend).1
        · cases hattention
          cases hfirst

end Loader

namespace Inference

open Loader

variable {K : Type} [Field K] [LinearOrder K] {worker : Inference K} {env : Env}

/-! ### Items -/

/-- The input of an item as a matrix with one row. -/
theorem exists_input (item : WorkItem) :
    ∃ input : Tensor Token, (Tensor.fromSlice item.input [item.input.length]).bind
      (·.unsqueeze 0) = some input ∧ input.dims = [1, item.input.length] := by
  have hslice : Tensor.fromSlice item.input [item.input.length] =
      some ⟨[item.input.length], fun idx =>
        item.input.getD (Tensor.offset [item.input.length] idx) 0⟩ :=
    Tensor.fromSlice_eq_some (by simp)
  rw [hslice, Option.bind_some, Tensor.unsqueeze, if_pos (Nat.zero_le _)]
  exact ⟨_, rfl, rfl⟩

section Model

variable {hidden vocab nHeads nKvHeads headDim : ℕ}

/-- What a pass with logits says of the item and its slot. -/
theorem forward_filled
    (hshaped : worker.model.model.Shaped worker.rope hidden vocab nHeads nKvHeads headDim)
    {attn : Attention (Tensor K)} (hkv : attn.nKvHeads = nKvHeads) (hdim : attn.headDim = headDim)
    (hlayers : worker.model.model.layers ≠ []) {cache cache' : KVCacheManager (Tensor K)}
    {item : WorkItem} (hinput : item.input ≠ []) {logits : Tensor K}
    (hslots : ∀ slot, cache.requestCaches.lookup item.reqId = some slot →
      ∃ n, Attention.Slot attn 1 slot n)
    (hforward : worker.forward cache item = .ok (cache', some logits)) :
    ∃ slot slot' n m, cache.requestCaches.lookup item.reqId = some slot ∧
      cache'.requestCaches.lookup item.reqId = some slot' ∧ Attention.Slot attn 1 slot n ∧
      Attention.Slot attn 1 slot' m ∧ 0 < m ∧ item.input.length = nHeads ∧
      (item.input.length = 1 → n = 0) := by
  obtain ⟨input, hmatrix, hdims⟩ := exists_input item
  rw [forward, hmatrix] at hforward
  dsimp only at hforward
  obtain ⟨⟨ctx, out⟩, hcall, hforward⟩ := Machine.bind_eq_ok.mp hforward
  have happends := instance_appendsOnly worker.kernels worker.rope worker.dist
    worker.model input 0 cache item.reqId
  rw [hcall] at happends
  obtain ⟨manager', appends, ok, hall, rfl, hout⟩ := happends
  cases hforward
  rw [instance_forward_eq, Loader.Qwen2Model.forward, Loader.Model.forward] at hcall
  obtain ⟨table, htable, htableDims⟩ := hshaped.embed
  rw [htable, Option.bind_some] at hcall
  have hembed := shape?_embedding htableDims input
  split at hcall
  · cases hcall
  · rename_i x hx
    obtain ⟨⟨left, layered⟩, hrun, hcall⟩ := Machine.bind_eq_ok.mp hcall
    cases layered with
    | none => cases hcall
    | some y =>
        obtain rfl : left = some ⟨manager', item.reqId⟩ :=
          congrArg Prod.fst (Except.ok.inj hcall)
        have hxdims : x.dims = [1, item.input.length, hidden] := by
          rw [hx] at hembed
          split at hembed
          · have hdimsx : x.dims = input.dims ++ [hidden] := Option.some.inj hembed
            rw [hdimsx, hdims]
            rfl
          · cases hembed
        have hlength : 0 < item.input.length := List.length_pos_iff.mpr hinput
        have hregistered := forwardLayers_slotless worker.kernels hlayers 0 hrun
        obtain ⟨slot, hslot⟩ := Option.isSome_iff_exists.mp (AList.lookup_isSome.mpr hregistered)
        obtain ⟨n, hn⟩ := hslots slot hslot
        have hcached : Attention.Cached attn 1 (some ⟨cache, item.reqId⟩) n := .slot hslot hn
        have hlayer (layer) (hlayer : layer ∈ worker.model.model.layers) :
            layer.Shaped worker.rope hidden ∧ layer.selfAttn.nKvHeads = attn.nKvHeads ∧
              layer.selfAttn.headDim = attn.headDim := by
          obtain ⟨hl, -, hk, hd⟩ := hshaped.layers layer hlayer
          exact ⟨hl, hk.trans hkv.symm, hd.trans hdim.symm⟩
        have hafter := forwardLayers_cached worker.kernels hlayer hlength hxdims 0 hcached rfl hrun
        obtain ⟨last, result, hsame, -, hfailure⟩ := forwardLayers_shape worker.kernels
          hshaped.layers hlength hxdims 0 fun other hother =>
            hcached.congr (hlayer other hother).2.1 (hlayer other hother).2.2
        rw [hrun] at hsame
        cases hsame
        have hanswered := not_not.mp fun h => Option.some_ne_none y (hfailure h)
        have hdepth : 0 < worker.model.model.layers.length := List.length_pos_iff.mpr hlayers
        cases hafter with
        | slot hslot' hm =>
            refine ⟨slot, _, n, _, hslot, hslot', hn, hm, ?_, ?_⟩
            · exact Nat.lt_of_lt_of_le (Nat.mul_pos hdepth hlength) (Nat.le_add_left _ _)
            · rcases hanswered with hzero | ⟨-, hheads, hone⟩
              · exact absurd hzero hdepth.ne'
              · exact ⟨hheads, fun hsingle => (hone hsingle).1⟩

end Model

/-! ### The invariant -/

section Invariant

variable {R : Type}

/-- While the loop goes on, every slot is filled but those of prefill items that are still to be
run, and only prefill items with as many tokens as there are heads have been run. -/
structure Prefilling (attn : Attention (Tensor R)) (nHeads : ℕ) (world : World (Tensor R)) :
    Prop where
  slots : world.phase ≠ .stopped → ∀ id slot, world.cache.requestCaches.lookup id = some slot →
    ∃ n, Attention.Slot attn 1 slot n ∧
      (n = 0 → ∃ item ∈ world.phase.pending, item.reqId = id ∧ item.isPrefill = true)
  ran : ∀ item ∈ world.phase.ran, item.isPrefill = true ∧ item.input.length = nHeads

variable {attn : Attention (Tensor R)} {nHeads : ℕ} {world : World (Tensor R)}

theorem new_prefilling (attn : Attention (Tensor R)) (nHeads : ℕ) (env : Env)
    (blockSize numGpuBlocks : ℕ) (config : SchedulerConfig) :
    Prefilling attn nHeads (World.new env blockSize numGpuBlocks config) where
  slots _ id slot hlookup := by cases hlookup
  ran item hitem := by cases hitem

/-- A batch opens the slots of the requests that it starts with. -/
theorem begin_prefilling (h : Prefilling attn nHeads world) (hphase : world.phase = .idle)
    (scheduler : Scheduler) (toPrefill : List RequestId) (batch : List WorkItem) :
    Prefilling attn nHeads { world with
      scheduler
      cache := Worker.registerItems world.cache batch
      phase := .computing toPrefill batch [] } where
  slots _ id slot hlookup := by
    have hold := h.slots (by rw [hphase]; exact Phase.noConfusion) id slot
    rw [Worker.lookup_registerItems] at hlookup
    split at hlookup
    · rename_i hopened
      obtain ⟨item, hitem, hprefill, -, hid⟩ := hopened
      cases hlookup
      exact ⟨0, .fresh, fun _ => ⟨item, hitem, hid, hprefill⟩⟩
    · obtain ⟨n, hn, hempty⟩ := hold hlookup
      refine ⟨n, hn, fun hzero => ?_⟩
      obtain ⟨item, hitem, -⟩ := hempty hzero
      rw [hphase] at hitem
      cases hitem
  ran item hitem := by cases hitem

/-- An update closes slots only. -/
theorem updated_prefilling (h : Prefilling attn nHeads world) {toPrefill : List RequestId}
    {batch : List WorkItem} {results : List ComputeResult}
    (hphase : world.phase = .computing toPrefill batch results)
    (hlength : results.length = batch.length) {scheduler : Scheduler}
    {cache : KVCacheManager (Tensor R)} {sent : List (RequestId × Token)}
    (hupdate : Worker.update env world.scheduler world.cache toPrefill results =
      .ok (scheduler, cache, sent)) :
    Prefilling attn nHeads
      { world with scheduler, cache, phase := .idle, sent := world.sent ++ sent } where
  slots _ id slot hlookup := by
    obtain ⟨n, hn, hempty⟩ := h.slots (by rw [hphase]; exact Phase.noConfusion) id slot
      (Worker.update_lookup hupdate hlookup)
    refine ⟨n, hn, fun hzero => ?_⟩
    obtain ⟨item, hitem, -⟩ := hempty hzero
    rw [hphase, Phase.pending, hlength, List.drop_length] at hitem
    cases hitem
  ran item hitem := by cases hitem

/-- The loop has ended. -/
theorem stopped_prefilling (hstopped : world.phase = .stopped) : Prefilling attn nHeads world where
  slots hgoing := absurd hstopped hgoing
  ran item hitem := by
    rw [hstopped] at hitem
    cases hitem

end Invariant

section Steps

variable {hidden vocab nHeads nKvHeads headDim : ℕ} {attn : Attention (Tensor K)}
  {world world' : World (Tensor K)}

omit [Field K] [LinearOrder K] in
/-- An item of a batch has an input. -/
theorem input_ne_nil (hvalid : world.Valid)
    (hchunk : 0 < world.scheduler.config.maxPrefillChunkSize) {toPrefill : List RequestId}
    {batch : List WorkItem} {results : List ComputeResult}
    (hphase : world.phase = .computing toPrefill batch results) {item : WorkItem}
    (hitem : item ∈ batch) : item.input ≠ [] := by
  obtain ⟨prefills, hbatched⟩ := hvalid.batched _ _ _ hphase
  rcases hbatched.mem_batch.mp hitem with ⟨req, hreq, rfl⟩ | ⟨req, _, rfl⟩
  · obtain ⟨-, hopen⟩ := hbatched.prefill_running hreq
    apply List.length_pos_iff.mp
    rw [Request.length_chunkItem_input, Request.chunkSize]
    omega
  · exact List.cons_ne_nil _ _

/-- A pass with logits was one for a prefill item, and fills the slot. -/
theorem answered_prefilling
    (hshaped : worker.model.model.Shaped worker.rope hidden vocab nHeads nKvHeads headDim)
    (hkv : attn.nKvHeads = nKvHeads) (hdim : attn.headDim = headDim)
    (hlayers : worker.model.model.layers ≠ []) (hvalid : world.Valid)
    (hchunk : 0 < world.scheduler.config.maxPrefillChunkSize) (h : Prefilling attn nHeads world)
    {toPrefill : List RequestId} {batch : List WorkItem} {results : List ComputeResult}
    (hphase : world.phase = .computing toPrefill batch results) {item : WorkItem}
    (hitem : batch[results.length]? = some item) {cache : KVCacheManager (Tensor K)}
    {logits : Tensor K} (hforward : worker.forward world.cache item = .ok (cache, some logits))
    (token : Token) :
    Prefilling attn nHeads { world with
      cache
      phase := .computing toPrefill batch
        (results ++ [⟨item.reqId, token, item.isLastChunk⟩]) } := by
  have hgoing : world.phase ≠ .stopped := by rw [hphase]; exact Phase.noConfusion
  obtain ⟨prefills, hbatched⟩ := hvalid.batched _ _ _ hphase
  have hmem := List.mem_of_getElem? hitem
  obtain ⟨slot, slot', n, m, hslot, hslot', hn, hm, hpos, hheads, hsingle⟩ :=
    forward_filled hshaped hkv hdim hlayers (input_ne_nil hvalid hchunk hphase hmem)
      (fun slot hslot => (h.slots hgoing _ slot hslot).imp fun n hn => hn.1) hforward
  have hpending : world.phase.pending = item :: (Phase.computing toPrefill batch
      (results ++ [⟨item.reqId, token, item.isLastChunk⟩])).pending := by
    rw [hphase]
    exact Phase.pending_answer hitem _
  have hprefill : item.isPrefill = true := by
    rcases hbatched.mem_batch.mp hmem with ⟨req, _, rfl⟩ | ⟨req, _, rfl⟩
    · rfl
    · -- the slot of a decode step is still to be filled by a later item of the same request
      obtain ⟨k, hk, hempty⟩ := h.slots hgoing _ slot hslot
      have hzero : k = 0 := hk.count.symm.trans (hn.count.trans (hsingle rfl))
      obtain ⟨other, hother, hid, hprefill⟩ := hempty hzero
      have hmemOther : other ∈ batch := by
        rw [hphase] at hother
        exact List.mem_of_mem_drop hother
      have hsame := List.inj_on_of_nodup_map (hbatched.items_nodup hvalid) hmemOther hmem hid
      rwa [hsame] at hprefill
  constructor
  · intro _ id found hfound
    by_cases hid : id = item.reqId
    · rw [hid] at hfound
      cases hslot'.symm.trans hfound
      exact ⟨m, hm, fun hzero => absurd hzero hpos.ne'⟩
    · obtain ⟨appends, ok, hall, -⟩ := (worker.forward_appends world.cache item).2 _ _ hforward
      have hold := (KVCacheManager.lookup_appendAll hall hid).symm.trans hfound
      obtain ⟨k, hk, hempty⟩ := h.slots hgoing id found hold
      refine ⟨k, hk, fun hzero => ?_⟩
      obtain ⟨other, hother, hotherId, hprefill'⟩ := hempty hzero
      rw [hpending] at hother
      rcases List.mem_cons.mp hother with rfl | hlater
      · exact absurd hotherId.symm hid
      · exact ⟨other, hlater, hotherId, hprefill'⟩
  · intro other hother
    rw [Phase.ran_answer hitem] at hother
    rcases List.mem_append.mp hother with hold | hnew
    · exact h.ran other (by rwa [hphase])
    · rw [List.mem_singleton.mp hnew]
      exact ⟨hprefill, hheads⟩

/-- **Every step of the loop with a model keeps the invariant.** -/
theorem steps_prefilling
    (hshaped : worker.model.model.Shaped worker.rope hidden vocab nHeads nKvHeads headDim)
    (hkv : attn.nKvHeads = nKvHeads) (hdim : attn.headDim = headDim)
    (hlayers : worker.model.model.layers ≠ []) (hvalid : world.Valid)
    (hchunk : 0 < world.scheduler.config.maxPrefillChunkSize) (h : Prefilling attn nHeads world)
    {event : Event K} (hstep : worker.step env world event = .ok world') :
    Prefilling attn nHeads world' := by
  obtain ⟨event', -, hsteps, hforwards⟩ := step_cases hstep
  cases event' with
  | submit submission =>
      cases hsteps with
      | disabled _ => exact h
      | submit _ => exact ⟨h.slots, h.ran⟩
  | schedule now =>
      cases hsteps with
      | disabled _ => exact h
      | park _ _ => exact ⟨h.slots, h.ran⟩
      | begin hphase _ => exact begin_prefilling h hphase _ _ _
  | forward appends token =>
      obtain rfl | hstopped | ⟨toPrefill, batch, results, item, cache, logits, token, hphase, hitem,
        hforward, rfl⟩ := hforwards appends token rfl
      · exact h
      · exact stopped_prefilling hstopped
      · exact answered_prefilling hshaped hkv hdim hlayers hvalid hchunk h hphase hitem hforward
          token
  | update =>
      cases hsteps with
      | disabled _ => exact h
      | update hphase hlength hupdate => exact updated_prefilling h hphase hlength hupdate

end Steps

end Inference
end Kyro
