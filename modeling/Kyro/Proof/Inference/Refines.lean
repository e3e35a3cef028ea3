import Kyro.Inference
import Kyro.Proof.Model.Answers
import Kyro.Proof.Sampler.Safety
import Kyro.Proof.Worker.Valid

/-!
# The loop with a model is the loop

In `Worker.lean` the model may append anything to the slot of an item, fail at any time, and any
token may be sampled. A loaded model does no more: a pass through its layers is a list of appends to
the slot, after an append that fails it has no output, and it panics where an append does. So the
loop with a loaded model has only runs of the loop.
-/

namespace Kyro

/-- Appends after appends that the tensor library accepts. -/
theorem KVCacheManager.appendAll_append {τ : Type} {ops : TensorOps τ}
    {manager manager' : KVCacheManager τ} {id : RequestId} {appends : List (τ × τ)}
    (h : manager.appendAll ops id appends = .ok (manager', true)) (more : List (τ × τ)) :
    manager.appendAll ops id (appends ++ more) = manager'.appendAll ops id more := by
  induction appends generalizing manager with
  | nil =>
      cases h
      rfl
  | cons append rest ih =>
      obtain ⟨⟨next, ok⟩, happend, hrest⟩ := Machine.bind_eq_ok.mp h
      rw [List.cons_append, appendAll, happend, Machine.ok_bind]
      cases ok with
      | true => exact ih hrest
      | false => cases hrest

/-- An append writes one slot at most. -/
theorem KVCacheManager.appendKv_insert {τ : Type} {ops : TensorOps τ} {manager : KVCacheManager τ}
    {id : RequestId} {key value : τ} {result : KVCacheManager τ × Bool}
    (h : manager.appendKv ops id key value = .ok result) :
    result.1 = manager ∨ ∃ slot, result.1 = ⟨manager.requestCaches.insert id slot⟩ := by
  obtain ⟨cache, _, h⟩ := Machine.bind_eq_ok.mp h
  dsimp only at h
  split at h
  · right
    split at h
    · cases h
      exact ⟨_, rfl⟩
    · split at h
      · cases h
        exact ⟨_, rfl⟩
      · split at h
        · cases h
          exact ⟨_, rfl⟩
        · cases h
          exact ⟨_, rfl⟩
  · cases h
    exact Or.inl rfl

/-- Appends to one slot leave the others as they are. -/
theorem KVCacheManager.lookup_appendAll {τ : Type} {ops : TensorOps τ}
    {manager : KVCacheManager τ} {id : RequestId} {appends : List (τ × τ)}
    {result : KVCacheManager τ × Bool} (h : manager.appendAll ops id appends = .ok result)
    {other : RequestId} (hne : other ≠ id) :
    result.1.requestCaches.lookup other = manager.requestCaches.lookup other := by
  induction appends generalizing manager with
  | nil =>
      cases h
      rfl
  | cons append rest ih =>
      obtain ⟨⟨next, ok⟩, happend, hrest⟩ := Machine.bind_eq_ok.mp h
      have hnext : next.requestCaches.lookup other = manager.requestCaches.lookup other := by
        have hinsert : next = manager ∨
            ∃ slot, next = ⟨manager.requestCaches.insert id slot⟩ := appendKv_insert happend
        obtain rfl | ⟨slot, rfl⟩ := hinsert
        · rfl
        · exact AList.lookup_insert_ne hne
      cases ok with
      | true => exact (ih hrest).trans hnext
      | false =>
          cases hrest
          exact hnext

namespace World

variable {τ : Type} {env : Env} {ops : TensorOps τ} {world : World τ} {toPrefill : List RequestId}
  {batch : List WorkItem} {results : List ComputeResult} {item : WorkItem}
  {appends : List (τ × τ)} {cache : KVCacheManager τ}

theorem forward_error (hphase : world.phase = .computing toPrefill batch results)
    (hitem : batch[results.length]? = some item) {fault : Fault}
    (h : world.cache.appendAll ops item.reqId appends = .error fault) (token : Option Token) :
    world.step env ops (.forward appends token) = .error fault := by
  rw [step, hphase]
  dsimp only
  rw [hitem]
  dsimp only
  rw [h]
  rfl

theorem forward_stopped (hphase : world.phase = .computing toPrefill batch results)
    (hitem : batch[results.length]? = some item) {ok : Bool}
    (h : world.cache.appendAll ops item.reqId appends = .ok (cache, ok)) :
    world.step env ops (.forward appends none) =
      .ok { world with cache, phase := .stopped } := by
  rw [step, hphase]
  dsimp only
  rw [hitem]
  dsimp only
  rw [h]
  rfl

theorem forward_answered (hphase : world.phase = .computing toPrefill batch results)
    (hitem : batch[results.length]? = some item)
    (h : world.cache.appendAll ops item.reqId appends = .ok (cache, true)) (token : Token) :
    world.step env ops (.forward appends (some token)) =
      .ok { world with
        cache
        phase := .computing toPrefill batch
          (results ++ [⟨item.reqId, token, item.isLastChunk⟩]) } := by
  rw [step, hphase]
  dsimp only
  rw [hitem]
  dsimp only
  rw [h]
  rfl

end World

namespace Loader

variable {R : Type}

/-- A call with a cache appends to its slot, and gives nothing after an append that failed. -/
def AppendsOnly {α : Type} (manager : KVCacheManager (Tensor R)) (id : RequestId) :
    Except Fault (Option (CacheContext R) × Option α) → Prop
  | .ok (cache, out) => ∃ manager' appends ok,
      manager.appendAll (.shaped R) id appends = .ok (manager', ok) ∧
        cache = some ⟨manager', id⟩ ∧ (out.isSome → ok = true)
  | .error fault => ∃ appends, manager.appendAll (.shaped R) id appends = .error fault

section AppendsOnly

variable {α β : Type} {manager manager' : KVCacheManager (Tensor R)} {id : RequestId}
  {call : Except Fault (Option (CacheContext R) × Option α)}

/-- A call that does not come to an append. -/
theorem appendsOnly_none (manager : KVCacheManager (Tensor R)) (id : RequestId) :
    AppendsOnly manager id (.ok (some ⟨manager, id⟩, (none : Option α))) :=
  ⟨manager, [], true, rfl, rfl, fun _ => rfl⟩

/-- What follows a call on its output alone. -/
theorem AppendsOnly.bind (h : AppendsOnly manager id call) (f : α → Option β) :
    AppendsOnly manager id (call >>= fun output => return (output.1, output.2.bind f)) := by
  cases call with
  | error fault => exact h
  | ok output =>
      obtain ⟨manager', appends, ok, happends, hcache, hout⟩ := h
      refine ⟨manager', appends, ok, happends, hcache, fun hsome => hout ?_⟩
      exact Option.isSome_of_isSome_bind hsome

/-- A call after one that had an output. -/
theorem AppendsOnly.seq {appends : List (Tensor R × Tensor R)}
    (hfirst : manager.appendAll (.shaped R) id appends = .ok (manager', true))
    (h : AppendsOnly manager' id call) : AppendsOnly manager id call := by
  cases call with
  | error fault =>
      obtain ⟨more, hmore⟩ := h
      exact ⟨appends ++ more, (KVCacheManager.appendAll_append hfirst more).trans hmore⟩
  | ok output =>
      obtain ⟨last, more, ok, hmore, hcache, hout⟩ := h
      exact ⟨last, appends ++ more, ok, (KVCacheManager.appendAll_append hfirst more).trans hmore,
        hcache, hout⟩

end AppendsOnly

/-- `append_kv` is the one thing that attention does to the cache. -/
theorem fullKv_appendsOnly (k v : Tensor R) (seqLen : ℕ) (manager : KVCacheManager (Tensor R))
    (id : RequestId) : AppendsOnly manager id (fullKv (some ⟨manager, id⟩) k v seqLen) := by
  rw [fullKv]
  dsimp only
  cases happend : manager.appendKv (.shaped R) id k v with
  | error fault =>
      refine ⟨[(k, v)], ?_⟩
      rw [KVCacheManager.appendAll, happend]
      rfl
  | ok stored =>
      obtain ⟨manager', ok⟩ := stored
      have hall : manager.appendAll (.shaped R) id [(k, v)] = .ok (manager', ok) := by
        rw [KVCacheManager.appendAll, happend, Machine.ok_bind]
        cases ok with
        | true => rfl
        | false => rfl
      rw [Machine.ok_bind]
      dsimp only
      cases ok with
      | false => exact ⟨manager', [(k, v)], false, hall, rfl, fun hsome => hsome⟩
      | true =>
          rw [if_pos rfl]
          split
          · split
            · exact ⟨manager', [(k, v)], true, hall, rfl, fun _ => rfl⟩
            · exact ⟨manager', [(k, v)], true, hall, rfl, fun _ => rfl⟩
          · exact ⟨manager', [(k, v)], true, hall, rfl, fun _ => rfl⟩

variable [CommRing R] (kernels : Kernels R) (rope : RotaryEmbedding R)

theorem attention_appendsOnly (num : Numerics R) (attn : Attention (Tensor R)) (x : Tensor R)
    (index : ℕ) (manager : KVCacheManager (Tensor R)) (id : RequestId) :
    AppendsOnly manager id (attn.forward num rope x index (some ⟨manager, id⟩)) := by
  rw [Attention.forward]
  split
  · split
    · exact appendsOnly_none manager id
    · exact (fullKv_appendsOnly _ _ _ _ _).bind _
  · exact appendsOnly_none manager id

theorem layer_appendsOnly (layer : DecoderLayer (Tensor R)) (x : Tensor R) (index : ℕ)
    (manager : KVCacheManager (Tensor R)) (id : RequestId) :
    AppendsOnly manager id
      (Qwen2DecoderLayer.forward kernels rope layer x index (some ⟨manager, id⟩)) := by
  rw [Qwen2DecoderLayer.forward, DecoderLayer.forward]
  split
  · exact appendsOnly_none manager id
  · exact (attention_appendsOnly _ _ _ _ _ _ _).bind _

theorem layers_appendsOnly (index : ℕ) (layers : List (DecoderLayer (Tensor R))) (x : Tensor R)
    (manager : KVCacheManager (Tensor R)) (id : RequestId) :
    AppendsOnly manager id (forwardLayers (Qwen2DecoderLayer.forward kernels rope) index layers x
      (some ⟨manager, id⟩)) := by
  induction layers generalizing x manager with
  | nil => exact ⟨manager, [], true, rfl, rfl, fun _ => rfl⟩
  | cons layer layers ih =>
      have hlayer := layer_appendsOnly kernels rope layer x index manager id
      rw [forwardLayers]
      cases hcall : Qwen2DecoderLayer.forward kernels rope layer x index (some ⟨manager, id⟩) with
      | error fault =>
          rw [hcall] at hlayer
          exact hlayer
      | ok output =>
          obtain ⟨cache, out⟩ := output
          rw [hcall] at hlayer
          rw [Machine.ok_bind]
          cases out with
          | none => exact hlayer
          | some y =>
              obtain ⟨manager', appends, ok, happends, rfl, hout⟩ := hlayer
              rw [hout rfl] at happends
              exact (ih y manager').seq happends

/-- A pass through a model of either architecture is a list of appends to the slot. -/
theorem instance_appendsOnly (dist : DistributedContext) (loaded : ModelInstance (Tensor R))
    (ids : Tensor Token) (index : ℕ) (manager : KVCacheManager (Tensor R)) (id : RequestId) :
    AppendsOnly manager id
      (loaded.forward kernels rope dist ids index (some ⟨manager, id⟩)) := by
  rw [instance_forward_eq, Qwen2Model.forward, Model.forward]
  split
  · exact appendsOnly_none manager id
  · exact (layers_appendsOnly kernels rope index _ _ manager id).bind _

end Loader

namespace Inference

variable {K : Type} [Field K] [LinearOrder K] {worker : Inference K} {env : Env}

theorem mapError_eq_ok {α : Type} {x : Except Fault α} {a : α} :
    x.mapError Crash.fault = .ok a ↔ x = .ok a := by
  cases x with
  | error fault => simp [Except.mapError]
  | ok b => simp [Except.mapError]

theorem mapError_fault {α : Type} {x : Except Fault α} {fault : Fault} :
    x.mapError Crash.fault = .error (.fault fault) ↔ x = .error fault := by
  cases x with
  | error fault' => simp [Except.mapError]
  | ok b => simp [Except.mapError]

/-- The events that the loop takes for those of the loop with a model. -/
inductive Matches : Event K → Kyro.Event (Tensor K) → Prop
  | submit (submission : Submission) : Matches (.submit submission) (.submit submission)
  | schedule (now : Instant) : Matches (.schedule now) (.schedule now)
  | forward (draw : Draw K) (appends : List (Tensor K × Tensor K)) (token : Option Token) :
      Matches (.forward draw) (.forward appends token)
  | update : Matches .update .update

/-- What a pass of the model for an item does to the cache. -/
theorem forward_appends (cache : KVCacheManager (Tensor K)) (item : WorkItem) :
    (∀ fault, worker.forward cache item = .error fault →
        ∃ appends, cache.appendAll (.shaped K) item.reqId appends = .error fault) ∧
      ∀ cache' logits, worker.forward cache item = .ok (cache', logits) → ∃ appends ok,
        cache.appendAll (.shaped K) item.reqId appends = .ok (cache', ok) ∧
          (logits.isSome → ok = true) := by
  rw [forward]
  split
  · constructor
    · intro fault h
      cases h
    · intro cache' logits h
      cases h
      exact ⟨[], true, rfl, fun _ => rfl⟩
  · rename_i input hinput
    have happends := Loader.instance_appendsOnly worker.kernels worker.rope worker.dist worker.model
      input 0 cache item.reqId
    cases hcall : worker.model.forward worker.kernels worker.rope worker.dist input 0
        (some ⟨cache, item.reqId⟩) with
    | error fault =>
        rw [hcall] at happends
        constructor
        · intro fault' h
          cases h
          exact happends
        · intro cache' logits h
          cases h
    | ok output =>
        obtain ⟨ctx, out⟩ := output
        rw [hcall] at happends
        obtain ⟨manager', appends, ok, hall, rfl, hout⟩ := happends
        constructor
        · intro fault h
          cases h
        · intro cache' logits h
          rw [Machine.ok_bind] at h
          cases h
          exact ⟨appends, ok, hall, hout⟩

section Forward

variable {world world' : World (Tensor K)} {toPrefill : List RequestId} {batch : List WorkItem}
  {results : List ComputeResult} {item : WorkItem} {draw : Draw K}

theorem step_forward_disabled (h : ¬ world.Enabled (.forward [] none)) :
    worker.step env world (.forward draw) = .ok world := by
  rw [step]
  cases hphase : world.phase with
  | idle => rfl
  | stopped => rfl
  | computing toPrefill batch results =>
      dsimp only
      rw [World.no_item_of_disabled h hphase]

/-- A pass that does not panic. -/
theorem step_forward_ok (hphase : world.phase = .computing toPrefill batch results)
    (hitem : batch[results.length]? = some item)
    (h : worker.step env world (.forward draw) = .ok world') :
    ∃ cache logits, worker.forward world.cache item = .ok (cache, logits) ∧
      (world' = { world with cache, phase := .stopped } ∨
        ∃ token, logits.isSome ∧
          world' = { world with
            cache
            phase := .computing toPrefill batch
              (results ++ [⟨item.reqId, token, item.isLastChunk⟩]) }) := by
  rw [step, hphase] at h
  dsimp only at h
  rw [hitem] at h
  dsimp only at h
  cases hforward : worker.forward world.cache item with
  | error fault =>
      rw [hforward] at h
      cases h
  | ok output =>
      obtain ⟨cache, logits⟩ := output
      rw [hforward] at h
      refine ⟨cache, logits, rfl, ?_⟩
      cases logits with
      | none =>
          cases h
          exact Or.inl rfl
      | some logits =>
          dsimp only at h
          cases htoken : worker.token draw world.scheduler.runningQueue item logits with
          | ok token =>
              rw [htoken] at h
              cases h
              exact Or.inr ⟨token, rfl, rfl⟩
          | error failure =>
              rw [htoken] at h
              cases failure with
              | tensor =>
                  cases h
                  exact Or.inl rfl
              | panic panic => cases h

theorem step_forward_fault (hphase : world.phase = .computing toPrefill batch results)
    (hitem : batch[results.length]? = some item) {fault : Fault}
    (h : worker.step env world (.forward draw) = .error (.fault fault)) :
    worker.forward world.cache item = .error fault := by
  rw [step, hphase] at h
  dsimp only at h
  rw [hitem] at h
  dsimp only at h
  cases hforward : worker.forward world.cache item with
  | error fault' =>
      rw [hforward] at h
      cases h
      rfl
  | ok output =>
      obtain ⟨cache, logits⟩ := output
      rw [hforward] at h
      cases logits with
      | none => cases h
      | some logits =>
          dsimp only at h
          cases htoken : worker.token draw world.scheduler.runningQueue item logits with
          | ok token =>
              rw [htoken] at h
              cases h
          | error failure =>
              rw [htoken] at h
              cases failure with
              | tensor => cases h
              | panic panic => cases h

end Forward

/-- A step of the loop with a model is a step of the loop, and panics where the loop does, unless
the sampler panics. -/
theorem step_refines (worker : Inference K) (env : Env) (world : World (Tensor K))
    (event : Event K) :
    (∀ world', worker.step env world event = .ok world' →
        ∃ event', Matches event event' ∧ world.step env (.shaped K) event' = .ok world') ∧
      ∀ fault, worker.step env world event = .error (.fault fault) →
        ∃ event', Matches event event' ∧ world.step env (.shaped K) event' = .error fault := by
  cases event with
  | submit submission =>
      constructor
      · intro world' h
        cases h
        exact ⟨.submit submission, .submit submission, rfl⟩
      · intro fault h
        cases h
  | schedule now =>
      exact ⟨fun world' h => ⟨_, .schedule now, mapError_eq_ok.mp h⟩,
        fun fault h => ⟨_, .schedule now, mapError_fault.mp h⟩⟩
  | update =>
      exact ⟨fun world' h => ⟨_, .update, mapError_eq_ok.mp h⟩,
        fun fault h => ⟨_, .update, mapError_fault.mp h⟩⟩
  | forward draw =>
      by_cases henabled : world.Enabled (.forward [] none)
      · obtain ⟨toPrefill, batch, results, hphase, hlt⟩ := henabled
        have hitem := List.getElem?_eq_getElem hlt
        obtain ⟨hfault, happends⟩ := worker.forward_appends world.cache batch[results.length]
        constructor
        · intro world' h
          obtain ⟨cache, logits, hforward, hdone⟩ := worker.step_forward_ok hphase hitem h
          obtain ⟨appends, ok, hall, hout⟩ := happends _ _ hforward
          rcases hdone with rfl | ⟨token, hlogits, rfl⟩
          · exact ⟨_, .forward draw appends none, World.forward_stopped hphase hitem hall⟩
          · obtain rfl := hout hlogits
            exact ⟨_, .forward draw appends (some token),
              World.forward_answered hphase hitem hall token⟩
        · intro fault h
          obtain ⟨appends, herror⟩ := hfault fault (worker.step_forward_fault hphase hitem h)
          exact ⟨_, .forward draw appends none, World.forward_error hphase hitem herror none⟩
      · rw [worker.step_forward_disabled henabled]
        constructor
        · intro world' h
          cases h
          exact ⟨_, .forward draw [] none, World.step_of_disabled henabled⟩
        · intro fault h
          cases h

/-- A step of the loop with a model as one of the loop, with the pass of the model that it is. -/
theorem step_cases {world world' : World (Tensor K)} {event : Event K}
    (h : worker.step env world event = .ok world') :
    ∃ event', Matches event event' ∧ World.Steps env (.shaped K) world event' world' ∧
      ∀ appends token, event' = .forward appends token →
        world' = world ∨ world'.phase = .stopped ∨
          ∃ toPrefill batch results item cache logits token,
            world.phase = .computing toPrefill batch results ∧
              batch[results.length]? = some item ∧
              worker.forward world.cache item = .ok (cache, some logits) ∧
              world' = { world with
                cache
                phase := .computing toPrefill batch
                  (results ++ [⟨item.reqId, token, item.isLastChunk⟩]) } := by
  obtain ⟨event', hmatches, hstep⟩ := (worker.step_refines env world event).1 world' h
  refine ⟨event', hmatches, World.steps_of_step hstep, ?_⟩
  rintro appends token rfl
  cases hmatches with
  | forward draw =>
      by_cases henabled : world.Enabled (.forward [] none)
      · obtain ⟨toPrefill, batch, results, hphase, hlt⟩ := henabled
        have hitem := List.getElem?_eq_getElem hlt
        obtain ⟨cache, logits, hforward, hdone⟩ := worker.step_forward_ok hphase hitem h
        rcases hdone with rfl | ⟨token, hlogits, rfl⟩
        · exact Or.inr (Or.inl rfl)
        · obtain ⟨logits, rfl⟩ := Option.isSome_iff_exists.mp hlogits
          exact Or.inr (Or.inr ⟨toPrefill, batch, results, _, cache, logits, token, hphase, hitem,
            hforward, rfl⟩)
      · rw [worker.step_forward_disabled henabled] at h
        cases h
        exact Or.inl rfl

/-- **The loop with a model refines the loop.** Every run of the worker loop with a loaded model is
a run of the worker loop in which each pass of the model is a list of appends to the slot of the
item and a token or an error; submissions, clock readings and updates are the same, and so are the
states. -/
theorem history_refines {blockSize numGpuBlocks : ℕ} {config : SchedulerConfig}
    {events : List (Event K)}
    (hfresh : Machine.Along (worker.step env) Fresh (World.new env blockSize numGpuBlocks config)
      events)
    {world : World (Tensor K)}
    (hrun : worker.history env blockSize numGpuBlocks config events = .ok world) :
    ∃ events' : List (Kyro.Event (Tensor K)), List.Forall₂ Matches events events' ∧
      Machine.Along (World.step env (.shaped K)) World.Fresh
        (World.new env blockSize numGpuBlocks config) events' ∧
      World.history env (.shaped K) blockSize numGpuBlocks config events' = .ok world := by
  refine Machine.run_refines (fun world event world' => (worker.step_refines env world event).1
    world') ?_ hfresh hrun
  intro world event event' hmatches hfresh
  cases hmatches with
  | submit submission => exact hfresh
  | schedule now => trivial
  | forward draw appends token => trivial
  | update => trivial

/-! ### A small model -/

open Loader Sampler

/-- One head. -/
def oneHeadLayer : DecoderLayer (Tensor ℚ) where
  selfAttn := {
    qProj := zeroLinear 2 2
    kProj := zeroLinear 2 2
    vProj := zeroLinear 2 2
    oProj := zeroLinear 2 2
    nHeads := 1
    nKvHeads := 1
    headDim := 2 }
  mlp := {
    gateProj := zeroLinear 2 2
    upProj := zeroLinear 2 2
    downProj := zeroLinear 2 2 }
  inputLayernorm := .zeros [2]
  postAttentionLayernorm := .zeros [2]

/-- A model with one token. -/
def oneHeadModel : Model (Tensor ℚ) where
  embedTokens := some (.zeros [1, 2])
  layers := [oneHeadLayer]
  norm := some (.zeros [2])
  lmHead := some (zeroLinear 2 1)
  pipelineCtx := ⟨0, 1, 0, 1⟩

theorem oneHeadModel_shaped : oneHeadModel.Shaped flatRope 2 1 1 1 2 where
  embed := ⟨_, rfl, rfl⟩
  layers := by
    have hattn : Attention.Shaped flatRope oneHeadLayer.selfAttn 2 :=
      ⟨rfl, by decide, by decide, rfl, rfl, rfl, rfl, rfl, rfl, rfl, rfl⟩
    have hlayer : oneHeadLayer.Shaped flatRope 2 :=
      ⟨hattn, ⟨2, rfl, rfl, rfl, rfl, rfl, rfl⟩, rfl, rfl⟩
    simp only [oneHeadModel, List.mem_cons, List.not_mem_nil, or_false, forall_eq]
    exact ⟨hlayer, rfl, rfl, rfl⟩
  norm := ⟨_, rfl, rfl⟩
  lmHead := ⟨_, rfl, rfl, rfl⟩

def flatWorker : Inference ℚ where
  kernels := flatKernels
  rope := flatRope
  dist := ⟨0, 1⟩
  model := .llama oneHeadModel
  sampler := sorting (fun _ => 1) (fun _ => by decide) (by decide)
  grammar _ := none

def flatDraw : Draw ℚ where
  index := Fin.last 99
  unit := 1 / 3
  unit_nonneg := by norm_num
  unit_lt_one := by norm_num

/-- A prompt of one token gets one, and the loop ends on the decode step after it. -/
theorem history_refines_of_one :
    ∃ world events', flatWorker.history .counting 4 9 ⟨8, 1⟩
        [.submit (Submission.plain 1 [0] 9), .schedule 0, .forward flatDraw, .update, .schedule 1,
          .forward flatDraw] = .ok world ∧
      world.phase = .stopped ∧
      World.history .counting (.shaped ℚ) 4 9 ⟨8, 1⟩ events' = .ok world := by
  have hrun : ∃ world, flatWorker.history .counting 4 9 ⟨8, 1⟩
      [.submit (Submission.plain 1 [0] 9), .schedule 0, .forward flatDraw, .update, .schedule 1,
        .forward flatDraw] = .ok world ∧ world.phase = .stopped := by
    decide +kernel
  obtain ⟨world, hrun, hphase⟩ := hrun
  obtain ⟨events', -, -, hrefines⟩ := history_refines (by decide +kernel) hrun
  exact ⟨world, events', hrun, hphase, hrefines⟩

end Inference
end Kyro
