import Kyro.Proof.Worker.Update

/-!
# The states of the worker loop

What one event does, as a relation with a case for each thing that can happen, and the invariant of
all runs in which no id is drawn twice: the ids of the queued requests are distinct, waiting
requests are as the API submitted them, and a batch that is being run is the one the running queue,
as it is, would give.
-/

namespace Kyro

/-- The phases that a pass of the model ends in: the batch with one more result, or the end. -/
inductive Phase.Forwarded (toPrefill : List RequestId) (batch : List WorkItem)
    (results : List ComputeResult) : Phase → Prop
  | answer (result : ComputeResult) :
      Forwarded toPrefill batch results (.computing toPrefill batch (results ++ [result]))
  | fail : Forwarded toPrefill batch results .stopped

namespace World

open Worker

variable {τ : Type} {env : Env} {ops : TensorOps τ}

/-- The events that the phase admits. -/
def Enabled (world : World τ) : Event τ → Prop
  | .submit _ => True
  | .schedule _ => world.phase = .idle
  | .forward _ _ => ∃ toPrefill batch results, world.phase = .computing toPrefill batch results ∧
      results.length < batch.length
  | .update => ∃ toPrefill batch results, world.phase = .computing toPrefill batch results ∧
      results.length = batch.length

/-- When every item has its result, `P` holds of the prefills and the results. -/
def WhenDone (P : List RequestId → List ComputeResult → Prop) : Phase → Prop
  | .computing toPrefill batch results => results.length = batch.length → P toPrefill results
  | _ => True

instance (P : List RequestId → List ComputeResult → Prop)
    [∀ toPrefill results, Decidable (P toPrefill results)] : DecidablePred (WhenDone P)
  | .computing toPrefill batch results =>
    inferInstanceAs (Decidable (results.length = batch.length → P toPrefill results))
  | .idle => inferInstanceAs (Decidable True)
  | .stopped => inferInstanceAs (Decidable True)

theorem whenDone_of_disabled {world : World τ} (h : ¬ world.Enabled .update)
    (P : List RequestId → List ComputeResult → Prop) : WhenDone P world.phase := by
  cases hphase : world.phase with
  | computing toPrefill batch results =>
      intro hlength
      exact absurd ⟨toPrefill, batch, results, hphase, hlength⟩ h
  | idle => trivial
  | stopped => trivial

/-- What an event does. -/
inductive Steps (env : Env) (ops : TensorOps τ) (world : World τ) : Event τ → World τ → Prop
  | disabled {event : Event τ} (hdisabled : ¬ world.Enabled event) : Steps env ops world event world
  | submit (submission : Submission) :
      Steps env ops world (.submit submission) (world.submit submission)
  | park {now : Instant} {scheduler : Scheduler} (hphase : world.phase = .idle)
      (hschedule : world.scheduler.schedule env now = .ok (scheduler, [], [])) :
      Steps env ops world (.schedule now) { world with scheduler }
  | begin {now : Instant} {scheduler : Scheduler} {toPrefill toDecode : List RequestId}
      (hphase : world.phase = .idle)
      (hschedule : world.scheduler.schedule env now = .ok (scheduler, toPrefill, toDecode)) :
      Steps env ops world (.schedule now)
        { world with
          scheduler
          cache := registerItems world.cache
            (buildBatch scheduler.config scheduler.runningQueue toPrefill toDecode)
          phase := .computing toPrefill
            (buildBatch scheduler.config scheduler.runningQueue toPrefill toDecode) [] }
  | answer {appends : List (τ × τ)} {token : Token} {toPrefill : List RequestId}
      {batch : List WorkItem} {results : List ComputeResult} {item : WorkItem}
      {cache : KVCacheManager τ} (hphase : world.phase = .computing toPrefill batch results)
      (hitem : batch[results.length]? = some item)
      (happend : world.cache.appendAll ops item.reqId appends = .ok (cache, true)) :
      Steps env ops world (.forward appends (some token))
        { world with
          cache
          phase := .computing toPrefill batch
            (results ++ [⟨item.reqId, token, item.isLastChunk⟩]) }
  | fail {appends : List (τ × τ)} {token : Option Token} {toPrefill : List RequestId}
      {batch : List WorkItem} {results : List ComputeResult} {item : WorkItem}
      {cache : KVCacheManager τ} {ok : Bool}
      (hphase : world.phase = .computing toPrefill batch results)
      (hitem : batch[results.length]? = some item)
      (happend : world.cache.appendAll ops item.reqId appends = .ok (cache, ok)) :
      Steps env ops world (.forward appends token) { world with cache, phase := .stopped }
  | update {toPrefill : List RequestId} {batch : List WorkItem} {results : List ComputeResult}
      {scheduler : Scheduler} {cache : KVCacheManager τ} {sent : List (RequestId × Token)}
      (hphase : world.phase = .computing toPrefill batch results)
      (hlength : results.length = batch.length)
      (hupdate : Worker.update env world.scheduler world.cache toPrefill results =
        .ok (scheduler, cache, sent)) :
      Steps env ops world .update
        { world with scheduler, cache, phase := .idle, sent := world.sent ++ sent }

theorem no_item_of_disabled {world : World τ} {appends : List (τ × τ)} {token : Option Token}
    (h : ¬ world.Enabled (.forward appends token)) {toPrefill : List RequestId}
    {batch : List WorkItem} {results : List ComputeResult}
    (hphase : world.phase = .computing toPrefill batch results) :
    batch[results.length]? = none := by
  refine List.getElem?_eq_none ?_
  by_contra hlt
  exact h ⟨toPrefill, batch, results, hphase, Nat.lt_of_not_le hlt⟩

theorem step_of_disabled {world : World τ} {event : Event τ} (h : ¬ world.Enabled event) :
    world.step env ops event = .ok world := by
  cases event with
  | submit submission => exact absurd trivial h
  | schedule now =>
      rw [step]
      split
      · rename_i hphase
        exact absurd hphase h
      · rfl
  | forward appends token =>
      rw [step]
      split
      · rename_i toPrefill batch results hphase
        rw [no_item_of_disabled h hphase]
      · rfl
  | update =>
      rw [step]
      split
      · rename_i toPrefill batch results hphase
        rw [if_neg fun hlength => h ⟨toPrefill, batch, results, hphase, hlength⟩]
      · rfl

/-- Every step is one of these. -/
theorem steps_of_step {world world' : World τ} {event : Event τ}
    (h : world.step env ops event = .ok world') : Steps env ops world event world' := by
  by_cases henabled : world.Enabled event
  · cases event with
    | submit submission =>
        cases h
        exact .submit submission
    | schedule now =>
        rw [step, show world.phase = .idle from henabled] at h
        obtain ⟨⟨scheduler, toPrefill, toDecode⟩, hschedule, h⟩ := Machine.bind_eq_ok.mp h
        dsimp only at h
        split at h
        · rename_i hnone
          cases h
          rw [Bool.and_eq_true, List.isEmpty_iff, List.isEmpty_iff] at hnone
          obtain ⟨rfl, rfl⟩ := hnone
          exact .park henabled hschedule
        · cases h
          exact .begin henabled hschedule
    | forward appends token =>
        obtain ⟨toPrefill, batch, results, hphase, hlt⟩ := henabled
        have hitem := List.getElem?_eq_getElem hlt
        rw [step, hphase] at h
        dsimp only at h
        rw [hitem] at h
        obtain ⟨⟨cache, ok⟩, happend, h⟩ := Machine.bind_eq_ok.mp h
        cases token with
        | none =>
            cases h
            exact .fail hphase hitem happend
        | some token =>
            cases ok with
            | false =>
                cases h
                exact .fail hphase hitem happend
            | true =>
                cases h
                exact .answer hphase hitem happend
    | update =>
        obtain ⟨toPrefill, batch, results, hphase, hlength⟩ := henabled
        rw [step, hphase] at h
        dsimp only at h
        rw [if_pos hlength] at h
        obtain ⟨⟨scheduler, cache, sent⟩, hupdate, h⟩ := Machine.bind_eq_ok.mp h
        cases h
        exact .update hphase hlength hupdate
  · rw [step_of_disabled henabled] at h
    cases h
    exact .disabled henabled

/-! ### Requests and where they come from -/

end World

namespace Request

/-- A request as it was when it was submitted. -/
def origin (req : Request) : Request :=
  { req with generatedTokens := [], isPrefill := true, cachedPrefixLen := 0, prefillCursor := 0 }

theorem origin_of_unmarked {req req' : Request} (h : req'.unmarked = req.unmarked) :
    req'.origin = req.origin := by
  change req'.unmarked.origin = req.unmarked.origin
  rw [h]

theorem AdmittedAs.origin {req next : Request} (h : req.AdmittedAs next) :
    next.origin = req.origin := by
  obtain ⟨_, _, _, rfl⟩ := h
  rfl

@[simp] theorem settled_origin (config : SchedulerConfig) (toPrefill : List RequestId)
    (results : List ComputeResult) (req : Request) :
    (req.settled config toPrefill results).origin = req.origin := by
  rw [settled]
  split <;> rfl

end Request

/-- Every request in the queues after a `schedule` was in them before. -/
theorem Scheduler.Scheduled.exists_origin {now : Instant} {scheduler scheduler' : Scheduler}
    {toPrefill toDecode : List RequestId} {stays selected taken admitted : List Request}
    (h : Scheduler.Scheduled now scheduler scheduler' toPrefill toDecode stays selected taken
      admitted) {req : Request}
    (hreq : req ∈ scheduler'.runningQueue ++ scheduler'.waitingQueue) :
    ∃ old ∈ scheduler.runningQueue ++ scheduler.waitingQueue, req.origin = old.origin := by
  rcases List.mem_append.mp hreq with hreq | hreq
  · rcases h.mem_running hreq with ⟨old, hold, _, heq⟩ | ⟨old, hold, _, has⟩
    · exact ⟨old, List.mem_append_left _ hold, Request.origin_of_unmarked heq⟩
    · exact ⟨old, List.mem_append_right _ hold, has.origin⟩
  · exact ⟨req, List.mem_append_right _ (h.mem_waiting hreq), rfl⟩

/-! ### The batch -/

namespace Worker

variable {τ : Type}

/-- With distinct ids, the batch has a chunk for every selected prefill and a decode item for every
finished one. -/
theorem buildBatch_eq {config : SchedulerConfig} {running prefills : List Request}
    (hnodup : (ids running).Nodup) (hprefills : prefills.Sublist (Scheduler.unfinished running)) :
    buildBatch config running (ids prefills) (ids (Scheduler.finished running)) =
      prefills.map (·.chunkItem config) ++ (Scheduler.finished running).map (·.decodeItem) := by
  have hchunk : ∀ req ∈ prefills, (findRequest running req.id).bind (·.prefillItem config) =
      some (req.chunkItem config) := by
    intro req hreq
    have hopen := hprefills.subset hreq
    rw [findRequest_eq_some hnodup (List.mem_of_mem_filter hopen), Option.bind_some,
      Request.prefillItem,
      if_pos (Nat.lt_of_not_le (Scheduler.not_prefilled_of_mem_unfinished hopen))]
  have hdecode : ∀ req ∈ Scheduler.finished running,
      (findRequest running req.id).map (·.decodeItem) = some req.decodeItem := by
    intro req hreq
    rw [findRequest_eq_some hnodup (List.mem_of_mem_filter hreq), Option.map_some]
  rw [buildBatch, ids, ids, List.filterMap_map, List.filterMap_map]
  congr 1
  · rw [← List.filterMap_eq_map]
    exact List.filterMap_congr hchunk
  · rw [← List.filterMap_eq_map]
    exact List.filterMap_congr hdecode

theorem registered_registerItems (cache : KVCacheManager τ) (batch : List WorkItem)
    (id : RequestId) :
    (registerItems cache batch).Registered id ↔ cache.Registered id ∨
      ∃ item ∈ batch, item.isPrefill ∧ item.needsCacheLookup ∧ item.reqId = id := by
  induction batch generalizing cache with
  | nil => simp [registerItems]
  | cons item batch ih =>
      rw [registerItems, ih]
      by_cases hitem : (item.isPrefill && item.needsCacheLookup) = true
      · rw [if_pos hitem, KVCacheManager.registered_registerRequest]
        rw [Bool.and_eq_true] at hitem
        simp only [List.mem_cons, exists_eq_or_imp, hitem, true_and]
        constructor
        · rintro ((rfl | hold) | hnew)
          · exact Or.inr (Or.inl rfl)
          · exact Or.inl hold
          · exact Or.inr (Or.inr hnew)
        · rintro (hold | rfl | hnew)
          · exact Or.inl (Or.inr hold)
          · exact Or.inl (Or.inl rfl)
          · exact Or.inr hnew
      · rw [if_neg hitem]
        rw [Bool.and_eq_true, not_and] at hitem
        simp only [List.mem_cons, exists_eq_or_imp]
        exact or_congr_right ⟨Or.inr, fun h => h.resolve_left fun ⟨hprefill, hlookup, _⟩ =>
          hitem hprefill hlookup⟩

end Worker

/-! ### The invariant -/

namespace World

open Worker

variable {τ : Type} {env : Env} {ops : TensorOps τ}

/-- The batch that is being run is what the running queue gives for the selected `prefills`, and the
results so far are those of its first items. -/
structure Batched (scheduler : Scheduler) (toPrefill : List RequestId) (batch : List WorkItem)
    (results : List ComputeResult) (prefills : List Request) : Prop where
  prefills_sub : prefills.Sublist (Scheduler.unfinished scheduler.runningQueue)
  toPrefill_eq : toPrefill = ids prefills
  batch_eq : batch = prefills.map (·.chunkItem scheduler.config) ++
    (Scheduler.finished scheduler.runningQueue).map (·.decodeItem)
  results_eq : results.map (fun res => (res.reqId, res.isLastChunk)) <+:
    batch.map fun item => (item.reqId, item.isLastChunk)

structure Valid (world : World τ) : Prop where
  nodup : (ids (world.scheduler.runningQueue ++ world.scheduler.waitingQueue)).Nodup
  known : ∀ id ∈ ids (world.scheduler.runningQueue ++ world.scheduler.waitingQueue),
    id ∈ world.submitted
  registered_known : ∀ id, world.cache.Registered id → id ∈ world.submitted
  waiting_new : ∀ req ∈ world.scheduler.waitingQueue, req.origin = req
  origin : ∀ req ∈ world.scheduler.runningQueue ++ world.scheduler.waitingQueue,
    ∃ submission : Submission, req.origin = submission.toRequest
  cached_le : ∀ req ∈ world.scheduler.runningQueue,
    req.cachedPrefixLen ≤ req.promptTokens.length
  cursor_le : ∀ req ∈ world.scheduler.runningQueue,
    req.prefillCursor ≤ req.promptTokens.length
  /-- Where no cursor can wrap, it never falls behind the hit that it started from. -/
  cached_le_cursor : ∀ req ∈ world.scheduler.runningQueue,
    req.promptTokens.length + world.scheduler.config.maxPrefillChunkSize < 2 ^ 64 →
      req.cachedPrefixLen ≤ req.prefillCursor
  batched : ∀ toPrefill batch results, world.phase = .computing toPrefill batch results →
    ∃ prefills, Batched world.scheduler toPrefill batch results prefills

theorem Valid.running_nodup {world : World τ} (h : world.Valid) :
    (ids world.scheduler.runningQueue).Nodup := by
  have hnodup := h.nodup
  rw [ids_append] at hnodup
  exact (List.nodup_append.mp hnodup).1

theorem Valid.id_ne {world : World τ} (h : world.Valid) {req other : Request}
    (hreq : req ∈ world.scheduler.runningQueue) (hother : other ∈ world.scheduler.waitingQueue) :
    req.id ≠ other.id := by
  have hnodup := h.nodup
  rw [ids_append, List.nodup_append] at hnodup
  exact hnodup.2.2 _ (mem_ids.mpr ⟨req, hreq, rfl⟩) _ (mem_ids.mpr ⟨other, hother, rfl⟩)

theorem new_valid (env : Env) (blockSize numGpuBlocks : ℕ) (config : SchedulerConfig) :
    (new env blockSize numGpuBlocks config : World τ).Valid where
  nodup := List.nodup_nil
  known id hid := by cases hid
  registered_known id hid := absurd hid (KVCacheManager.not_registered_new id)
  waiting_new req hreq := by cases hreq
  origin req hreq := by cases hreq
  cached_le req hreq := by cases hreq
  cursor_le req hreq := by cases hreq
  cached_le_cursor req hreq := by cases hreq
  batched toPrefill batch results hphase := by cases hphase

theorem submit_valid {world : World τ} (h : world.Valid) {submission : Submission}
    (hfresh : submission.id ∉ world.submitted) : (world.submit submission).Valid := by
  have hids : ids ((world.submit submission).scheduler.runningQueue ++
      (world.submit submission).scheduler.waitingQueue) =
      ids (world.scheduler.runningQueue ++ world.scheduler.waitingQueue) ++ [submission.id] := by
    simp [submit, Scheduler.addRequest, ids, Submission.toRequest]
  refine ⟨?_, ?_, ?_, ?_, ?_, h.cached_le, h.cursor_le, h.cached_le_cursor, ?_⟩
  · rw [hids, List.nodup_append]
    refine ⟨h.nodup, List.nodup_singleton _, ?_⟩
    intro id hid other hother
    rw [List.mem_singleton] at hother
    rintro rfl
    exact hfresh (hother ▸ h.known id hid)
  · intro id hid
    rw [hids, List.mem_append, List.mem_singleton] at hid
    rcases hid with hid | rfl
    · exact List.mem_append_left _ (h.known id hid)
    · exact List.mem_append_right _ List.mem_cons_self
  · intro id hid
    exact List.mem_append_left _ (h.registered_known id hid)
  · intro req hreq
    rcases List.mem_append.mp hreq with hreq | hreq
    · exact h.waiting_new req hreq
    · rw [List.mem_singleton.mp hreq]
      rfl
  · intro req hreq
    rw [List.mem_append] at hreq
    rcases hreq with hreq | hreq
    · exact h.origin req (List.mem_append_left _ hreq)
    · rcases List.mem_append.mp hreq with hreq | hreq
      · exact h.origin req (List.mem_append_right _ hreq)
      · exact ⟨submission, by rw [List.mem_singleton.mp hreq]; rfl⟩
  · intro toPrefill batch results hphase
    obtain ⟨prefills, hbatched⟩ := h.batched toPrefill batch results hphase
    exact ⟨prefills, hbatched.prefills_sub, hbatched.toPrefill_eq, hbatched.batch_eq,
      hbatched.results_eq⟩

section Schedule

variable {now : Instant} {world : World τ} {scheduler : Scheduler}
  {toPrefill toDecode : List RequestId} {stays selected taken admitted : List Request}

/-- What a `schedule` leaves is valid with any cache and phase that fit to it. -/
theorem scheduled_valid (h : world.Valid)
    (hspec : Scheduler.Scheduled now world.scheduler scheduler toPrefill toDecode stays selected
      taken admitted)
    {cache : KVCacheManager τ} (hcache : ∀ id, cache.Registered id → id ∈ world.submitted)
    {phase : Phase}
    (hphase : ∀ toPrefill batch results, phase = .computing toPrefill batch results →
      ∃ prefills, Batched scheduler toPrefill batch results prefills) :
    Valid { world with scheduler, cache, phase } := by
  refine ⟨h.nodup.sublist hspec.ids_sublist, ?_, hcache, ?_, ?_, ?_, ?_, ?_, hphase⟩
  · intro id hid
    exact h.known id (hspec.ids_sublist.subset hid)
  · intro req hreq
    exact h.waiting_new req (hspec.mem_waiting hreq)
  · intro req hreq
    obtain ⟨old, hold, heq⟩ := hspec.exists_origin hreq
    rw [heq]
    exact h.origin old hold
  · apply hspec.forall_running (fun _ => Iff.rfl) h.cached_le
    rintro req _ _ ⟨cachedLen, _, hle, rfl⟩
    exact hle
  · apply hspec.forall_running (fun _ => Iff.rfl) h.cursor_le
    rintro req _ _ ⟨cachedLen, _, hle, rfl⟩
    exact hle
  · change ∀ req ∈ scheduler.runningQueue, req.promptTokens.length +
      scheduler.config.maxPrefillChunkSize < 2 ^ 64 → req.cachedPrefixLen ≤ req.prefillCursor
    rw [hspec.config_eq]
    apply hspec.forall_running (fun _ => Iff.rfl) h.cached_le_cursor
    rintro req _ _ ⟨cachedLen, _, _, rfl⟩ _
    exact Nat.le_refl _

/-- A `schedule` that begins no batch. -/
theorem scheduled_valid_of_idle (h : world.Valid)
    (hspec : Scheduler.Scheduled now world.scheduler scheduler toPrefill toDecode stays selected
      taken admitted) (hphase : world.phase = .idle) : Valid { world with scheduler } := by
  apply scheduled_valid h hspec h.registered_known
  intro _ _ _ hcomputing
  rw [hphase] at hcomputing
  cases hcomputing

/-- The batch that a `schedule` begins. -/
theorem batched_begin (h : world.Valid)
    (hspec : Scheduler.Scheduled now world.scheduler scheduler toPrefill toDecode stays selected
      taken admitted) :
    ∃ prefills, Batched scheduler toPrefill
      (buildBatch scheduler.config scheduler.runningQueue toPrefill toDecode) [] prefills := by
  obtain ⟨⟨prefills, hprefills, rfl⟩, rfl⟩ := hspec.selection
  have hnodup : (ids scheduler.runningQueue).Nodup := by
    have := h.nodup.sublist hspec.ids_sublist
    rw [ids_append] at this
    exact (List.nodup_append.mp this).1
  exact ⟨prefills, hprefills, rfl, buildBatch_eq hnodup hprefills, List.nil_prefix⟩

end Schedule

section Batched

variable {scheduler : Scheduler} {toPrefill : List RequestId} {batch : List WorkItem}
  {results : List ComputeResult} {prefills : List Request}

theorem Batched.mem_batch (h : Batched scheduler toPrefill batch results prefills)
    {item : WorkItem} : item ∈ batch ↔
      (∃ req ∈ prefills, req.chunkItem scheduler.config = item) ∨
        ∃ req ∈ Scheduler.finished scheduler.runningQueue, req.decodeItem = item := by
  rw [h.batch_eq, List.mem_append, List.mem_map, List.mem_map]

theorem Batched.prefill_running (h : Batched scheduler toPrefill batch results prefills)
    {req : Request} (hreq : req ∈ prefills) : req ∈ scheduler.runningQueue ∧ ¬ req.Prefilled :=
  ⟨List.mem_of_mem_filter (h.prefills_sub.subset hreq),
    Scheduler.not_prefilled_of_mem_unfinished (h.prefills_sub.subset hreq)⟩

/-- With distinct ids, the selected ids are those of the selected requests. -/
theorem Batched.mem_toPrefill (h : Batched scheduler toPrefill batch results prefills)
    (hnodup : (ids scheduler.runningQueue).Nodup) {req : Request}
    (hreq : req ∈ scheduler.runningQueue) : req.id ∈ toPrefill ↔ req ∈ prefills := by
  rw [h.toPrefill_eq]
  constructor
  · intro hid
    obtain ⟨other, hother, heq⟩ := mem_ids.mp hid
    rwa [← eq_of_id_eq hnodup (h.prefill_running hother).1 hreq heq]
  · intro hmem
    exact mem_ids.mpr ⟨req, hmem, rfl⟩

/-- The ids of the items are ids of running requests. -/
theorem Batched.item_running (h : Batched scheduler toPrefill batch results prefills)
    {item : WorkItem} (hitem : item ∈ batch) :
    ∃ req ∈ scheduler.runningQueue, req.id = item.reqId := by
  rcases h.mem_batch.mp hitem with ⟨req, hreq, rfl⟩ | ⟨req, hreq, rfl⟩
  · exact ⟨req, (h.prefill_running hreq).1, rfl⟩
  · exact ⟨req, List.mem_of_mem_filter hreq, rfl⟩

end Batched

theorem snoc_prefix {α : Type*} {l m : List α} {a : α} (h : l <+: m) (ha : m[l.length]? = some a) :
    l ++ [a] <+: m := by
  obtain ⟨rest, rfl⟩ := h
  rw [List.getElem?_append_right (Nat.le_refl _), Nat.sub_self] at ha
  cases rest with
  | nil => cases ha
  | cons head rest =>
      cases ha
      exact ⟨rest, by rw [List.append_assoc]; rfl⟩

theorem Batched.answer {scheduler : Scheduler} {toPrefill : List RequestId}
    {batch : List WorkItem} {results : List ComputeResult} {prefills : List Request}
    (h : Batched scheduler toPrefill batch results prefills) {item : WorkItem} {token : Token}
    (hitem : batch[results.length]? = some item) :
    Batched scheduler toPrefill batch (results ++ [⟨item.reqId, token, item.isLastChunk⟩])
      prefills where
  prefills_sub := h.prefills_sub
  toPrefill_eq := h.toPrefill_eq
  batch_eq := h.batch_eq
  results_eq := by
    rw [List.map_append]
    apply snoc_prefix h.results_eq
    rw [List.length_map, List.getElem?_map, hitem]
    rfl

/-- When every item has its result, the results are those of the items in order. -/
theorem Batched.results_full {scheduler : Scheduler} {toPrefill : List RequestId}
    {batch : List WorkItem} {results : List ComputeResult} {prefills : List Request}
    (h : Batched scheduler toPrefill batch results prefills)
    (hlength : results.length = batch.length) :
    results.map (fun res => (res.reqId, res.isLastChunk)) =
      batch.map fun item => (item.reqId, item.isLastChunk) :=
  h.results_eq.eq_of_length (by rw [List.length_map, List.length_map, hlength])

/-- Then every result is that of an item. -/
theorem Batched.exists_item {scheduler : Scheduler} {toPrefill : List RequestId}
    {batch : List WorkItem} {results : List ComputeResult} {prefills : List Request}
    (h : Batched scheduler toPrefill batch results prefills)
    (hlength : results.length = batch.length) {res : ComputeResult} (hres : res ∈ results) :
    ∃ item ∈ batch, item.reqId = res.reqId := by
  have hpair : (res.reqId, res.isLastChunk) ∈
      batch.map fun item => (item.reqId, item.isLastChunk) := by
    rw [← h.results_full hlength]
    exact List.mem_map.mpr ⟨res, hres, rfl⟩
  obtain ⟨item, hitem, heq⟩ := List.mem_map.mp hpair
  exact ⟨item, hitem, congrArg Prod.fst heq⟩

/-- And every item has one. -/
theorem Batched.exists_result_of_item {scheduler : Scheduler} {toPrefill : List RequestId}
    {batch : List WorkItem} {results : List ComputeResult} {prefills : List Request}
    (h : Batched scheduler toPrefill batch results prefills)
    (hlength : results.length = batch.length) {item : WorkItem} (hitem : item ∈ batch) :
    ∃ res ∈ results, res.reqId = item.reqId := by
  have hpair : (item.reqId, item.isLastChunk) ∈
      results.map fun res => (res.reqId, res.isLastChunk) := by
    rw [h.results_full hlength]
    exact List.mem_map.mpr ⟨item, hitem, rfl⟩
  obtain ⟨res, hres, heq⟩ := List.mem_map.mp hpair
  exact ⟨res, hres, congrArg Prod.fst heq⟩

section Update

variable {world : World τ} {toPrefill : List RequestId} {batch : List WorkItem}
  {results : List ComputeResult} {prefills : List Request} {scheduler : Scheduler}
  {cache : KVCacheManager τ} {sent : List (RequestId × Token)}

theorem Batched.toPrefill_nodup (hvalid : world.Valid)
    (h : Batched world.scheduler toPrefill batch results prefills) : toPrefill.Nodup := by
  rw [h.toPrefill_eq]
  exact hvalid.running_nodup.sublist ((h.prefills_sub.trans List.filter_sublist).map _)

/-- Every request has at most one item in a batch. -/
theorem Batched.items_nodup (hvalid : world.Valid)
    (h : Batched world.scheduler toPrefill batch results prefills) :
    (batch.map (·.reqId)).Nodup := by
  have hitems : batch.map (·.reqId) =
      ids prefills ++ ids (Scheduler.finished world.scheduler.runningQueue) := by
    rw [h.batch_eq, List.map_append, List.map_map, List.map_map]
    rfl
  rw [hitems, List.nodup_append]
  refine ⟨?_, ?_, ?_⟩
  · exact hvalid.running_nodup.sublist ((h.prefills_sub.trans List.filter_sublist).map _)
  · exact hvalid.running_nodup.sublist (List.filter_sublist.map _)
  · intro id hid other hother heq
    obtain ⟨selected, hselected, rfl⟩ := mem_ids.mp hid
    obtain ⟨decoded, hdecoded, rfl⟩ := mem_ids.mp hother
    obtain ⟨hrunning, hopen⟩ := h.prefill_running hselected
    obtain ⟨hdecoded, hprefilled⟩ := List.mem_filter.mp hdecoded
    obtain rfl := eq_of_id_eq hvalid.running_nodup hrunning hdecoded heq
    exact hopen (of_decide_eq_true hprefilled)

/-- In the end every request has at most one result. -/
theorem Batched.results_nodup (hvalid : world.Valid)
    (h : Batched world.scheduler toPrefill batch results prefills)
    (hlength : results.length = batch.length) : (results.map (·.reqId)).Nodup := by
  have hfull := congrArg (List.map Prod.fst) (h.results_full hlength)
  rw [List.map_map, List.map_map] at hfull
  have hids : results.map (·.reqId) = batch.map (·.reqId) := hfull
  rw [hids]
  exact h.items_nodup hvalid

/-- The requests that still run after an update. -/
theorem updated_running (h : world.Valid)
    (hphase : world.phase = .computing toPrefill batch results)
    (hupdate : Worker.update env world.scheduler world.cache toPrefill results =
      .ok (scheduler, cache, sent)) {req : Request} (hreq : req ∈ scheduler.runningQueue) :
    ∃ old ∈ world.scheduler.runningQueue,
      req = old.settled world.scheduler.config toPrefill results ∧ ¬ req.isDone := by
  obtain ⟨prefills, hbatched⟩ := h.batched _ _ _ hphase
  rw [(update_spec h.running_nodup (hbatched.toPrefill_nodup h) hupdate).1] at hreq
  obtain ⟨hmem, hdone⟩ := List.mem_filter.mp hreq
  obtain ⟨old, hold, rfl⟩ := List.mem_map.mp hmem
  exact ⟨old, hold, rfl, of_decide_eq_true hdone⟩

/-- The requests in the queues after an update were in them before. -/
theorem updated_origin (h : world.Valid)
    (hphase : world.phase = .computing toPrefill batch results)
    (hupdate : Worker.update env world.scheduler world.cache toPrefill results =
      .ok (scheduler, cache, sent)) {req : Request}
    (hreq : req ∈ scheduler.runningQueue ++ scheduler.waitingQueue) :
    ∃ old ∈ world.scheduler.runningQueue ++ world.scheduler.waitingQueue,
      req.origin = old.origin := by
  rcases List.mem_append.mp hreq with hreq | hreq
  · obtain ⟨old, hold, rfl, _⟩ := updated_running h hphase hupdate hreq
    exact ⟨old, List.mem_append_left _ hold, Request.settled_origin ..⟩
  · obtain ⟨prefills, hbatched⟩ := h.batched _ _ _ hphase
    rw [(update_spec h.running_nodup (hbatched.toPrefill_nodup h) hupdate).1] at hreq
    exact ⟨req, List.mem_append_right _ hreq, rfl⟩

theorem updated_valid (h : world.Valid)
    (hphase : world.phase = .computing toPrefill batch results)
    (hupdate : Worker.update env world.scheduler world.cache toPrefill results =
      .ok (scheduler, cache, sent)) :
    Valid { world with scheduler, cache, phase := .idle, sent := world.sent ++ sent } := by
  obtain ⟨prefills, hbatched⟩ := h.batched _ _ _ hphase
  obtain ⟨hscheduler, hcache, _⟩ :=
    update_spec h.running_nodup (hbatched.toPrefill_nodup h) hupdate
  have hwaiting : scheduler.waitingQueue = world.scheduler.waitingQueue := by rw [hscheduler]
  have hids : (ids (scheduler.runningQueue ++ scheduler.waitingQueue)).Sublist
      (ids (world.scheduler.runningQueue ++ world.scheduler.waitingQueue)) := by
    rw [hwaiting, ids_append, ids_append]
    apply List.Sublist.append_right
    have hsettled := ids_map (Request.settled_id world.scheduler.config toPrefill results)
      world.scheduler.runningQueue
    rw [hscheduler, ← hsettled]
    exact List.filter_sublist.map _
  refine ⟨h.nodup.sublist hids, ?_, ?_, ?_, ?_, ?_, ?_, ?_, ?_⟩
  · intro id hid
    exact h.known id (hids.subset hid)
  · intro id hid
    exact h.registered_known id ((hcache id).mp hid).1
  · intro req hreq
    exact h.waiting_new req (hwaiting ▸ hreq)
  · intro req hreq
    obtain ⟨old, hold, heq⟩ := updated_origin h hphase hupdate hreq
    rw [heq]
    exact h.origin old hold
  · intro req hreq
    obtain ⟨old, hold, rfl, _⟩ := updated_running h hphase hupdate hreq
    rw [Request.settled_cachedPrefixLen, Request.settled_promptTokens]
    exact h.cached_le old hold
  · intro req hreq
    obtain ⟨old, hold, rfl, _⟩ := updated_running h hphase hupdate hreq
    rw [Request.settled_prefillCursor, Request.settled_promptTokens]
    split
    · exact Nat.min_le_right _ _
    · exact h.cursor_le old hold
  · intro req hreq hsmall
    obtain ⟨old, hold, rfl, _⟩ := updated_running h hphase hupdate hreq
    rw [Request.settled_promptTokens, hscheduler] at hsmall
    rw [Request.settled_cachedPrefixLen, Request.settled_prefillCursor]
    have hle := h.cached_le_cursor old hold hsmall
    split
    · rw [Scheduler.nextCursor_eq (h.cursor_le old hold) hsmall]
      exact Nat.le_min.mpr ⟨Nat.le_add_right_of_le hle, h.cached_le old hold⟩
    · exact hle
  · intro _ _ _ hidle
    cases hidle

end Update

/-- Appending to the cache of a request registers none. -/
theorem Valid.appended {world : World τ} (h : world.Valid) {id : RequestId}
    {appends : List (τ × τ)} {cache : KVCacheManager τ} {ok : Bool}
    (happend : world.cache.appendAll ops id appends = .ok (cache, ok)) {phase : Phase}
    (hbatched : ∀ toPrefill batch results, phase = .computing toPrefill batch results →
      ∃ prefills, Batched world.scheduler toPrefill batch results prefills) :
    Valid { world with cache, phase } where
  nodup := h.nodup
  known := h.known
  registered_known id hid :=
    h.registered_known id ((KVCacheManager.registered_appendAll happend id).mp hid)
  waiting_new := h.waiting_new
  origin := h.origin
  cached_le := h.cached_le
  cursor_le := h.cursor_le
  cached_le_cursor := h.cached_le_cursor
  batched := hbatched

/-- **Every event keeps the invariant**, if it draws no id twice. -/
theorem steps_valid {world world' : World τ} {event : Event τ} (h : world.Valid)
    (hfresh : world.Fresh event) (hsteps : Steps env ops world event world') : world'.Valid := by
  cases hsteps with
  | disabled _ => exact h
  | submit submission => exact submit_valid h hfresh
  | park hphase hschedule =>
      obtain ⟨_, _, _, _, hspec⟩ := Scheduler.schedule_spec hschedule
      exact scheduled_valid_of_idle h hspec hphase
  | @begin _ scheduler _ _ hphase hschedule =>
      obtain ⟨_, _, _, _, hspec⟩ := Scheduler.schedule_spec hschedule
      obtain ⟨prefills, hbatched⟩ := batched_begin h hspec
      refine scheduled_valid h hspec ?_ ?_
      · intro id hid
        rcases (registered_registerItems _ _ id).mp hid with hold | ⟨item, hitem, _, _, rfl⟩
        · exact h.registered_known id hold
        · obtain ⟨req, hreq, hid⟩ := hbatched.item_running hitem
          have hmem : req.id ∈ ids (scheduler.runningQueue ++ scheduler.waitingQueue) :=
            mem_ids.mpr ⟨req, List.mem_append_left _ hreq, rfl⟩
          rw [← hid]
          exact h.known _ (hspec.ids_sublist.subset hmem)
      · intro _ _ _ hcomputing
        cases hcomputing
        exact ⟨prefills, hbatched⟩
  | answer hphase hitem happend =>
      obtain ⟨prefills, hbatched⟩ := h.batched _ _ _ hphase
      refine h.appended happend fun _ _ _ hcomputing => ?_
      cases hcomputing
      exact ⟨prefills, hbatched.answer hitem⟩
  | fail hphase hitem happend =>
      refine h.appended happend fun _ _ _ hcomputing => ?_
      cases hcomputing
  | update hphase hlength hupdate => exact updated_valid h hphase hupdate

theorem steps_config {world world' : World τ} {event : Event τ} (h : world.Valid)
    (hsteps : Steps env ops world event world') :
    world'.scheduler.config = world.scheduler.config := by
  cases hsteps with
  | disabled _ => rfl
  | submit submission => rfl
  | park hphase hschedule =>
      obtain ⟨_, _, _, _, hspec⟩ := Scheduler.schedule_spec hschedule
      exact hspec.config_eq
  | begin hphase hschedule =>
      obtain ⟨_, _, _, _, hspec⟩ := Scheduler.schedule_spec hschedule
      exact hspec.config_eq
  | answer hphase hitem happend => rfl
  | fail hphase hitem happend => rfl
  | update hphase hlength hupdate =>
      obtain ⟨prefills, hbatched⟩ := h.batched _ _ _ hphase
      rw [(update_spec h.running_nodup (hbatched.toPrefill_nodup h) hupdate).1]

/-! ### Runs in which no id is drawn twice -/

section History

variable {blockSize numGpuBlocks : ℕ} {config : SchedulerConfig} {events : List (Event τ)}
  {world : World τ}

/-- What every event keeps in a valid world holds after every run. -/
theorem history_invariant {I : World τ → Prop}
    (hkeep : ∀ w e w', w.Valid → I w → w.Fresh e → Steps env ops w e w' → I w')
    (hstart : I (new env blockSize numGpuBlocks config))
    (hfresh : Machine.Along (step env ops) Fresh (new env blockSize numGpuBlocks config) events)
    (hrun : history env ops blockSize numGpuBlocks config events = .ok world) :
    world.Valid ∧ I world := by
  apply Machine.run_invariant (I := fun w => w.Valid ∧ I w) _
    ⟨new_valid env blockSize numGpuBlocks config, hstart⟩ hfresh hrun
  intro w e w' hw hevent hstep
  have hsteps := steps_of_step hstep
  exact ⟨steps_valid hw.1 hevent hsteps, hkeep w e w' hw.1 hw.2 hevent hsteps⟩

theorem history_config
    (hfresh : Machine.Along (step env ops) Fresh (new env blockSize numGpuBlocks config) events)
    (hrun : history env ops blockSize numGpuBlocks config events = .ok world) :
    world.scheduler.config = config := by
  apply (history_invariant (I := fun w => w.scheduler.config = config) _ rfl hfresh hrun).2
  intro w e w' hvalid hconfig _ hsteps
  exact (steps_config hvalid hsteps).trans hconfig

variable {ω : Type} {emit : World τ → Event τ → List ω} {record : List ω}

/-- The same for a run with a record of what its events emit. -/
theorem recorded_invariant {I : World τ → List ω → Prop}
    (hkeep : ∀ w kept e w', w.Valid → I w kept → w.Fresh e → Steps env ops w e w' →
      I w' (kept ++ emit w e))
    (hstart : I (new env blockSize numGpuBlocks config) [])
    (hfresh : Machine.Along (step env ops) Fresh (new env blockSize numGpuBlocks config) events)
    (hrun : Machine.run (Machine.recorded (step env ops) emit)
      (new env blockSize numGpuBlocks config, []) events = .ok (world, record)) :
    world.Valid ∧ I world record := by
  apply Machine.run_invariant (P := fun (w : World τ × List ω) e => w.1.Fresh e)
    (I := fun w => w.1.Valid ∧ I w.1 w.2) _
    ⟨new_valid env blockSize numGpuBlocks config, hstart⟩ (Machine.along_recorded.mpr hfresh) hrun
  intro w e w' hw hevent hstep
  obtain ⟨hstep, hrecord⟩ := Machine.recorded_eq_ok.mp hstep
  have hsteps := steps_of_step hstep
  rw [hrecord]
  exact ⟨steps_valid hw.1 hevent hsteps, hkeep w.1 w.2 e w'.1 hw.1 hw.2 hevent hsteps⟩

end History

end World
end Kyro
