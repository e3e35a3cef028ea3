import Kyro.Proof.Worker.Valid

/-!
# Slots in the key/value cache

A request gets its slot when the chunk at position `0` of its prompt is put into a batch. Where the
prefix cache has a part of the prompt there is no such chunk, and an empty prompt has no chunk at
all: the model then runs a request that has no slot, and the first `append_kv` panics.
-/

namespace Kyro

namespace KVCacheManager

variable {τ : Type} {ops : TensorOps τ}

/-- With a slot no pass through the model panics. -/
theorem appendAll_ok (ops : TensorOps τ) {manager : KVCacheManager τ} {id : RequestId}
    (h : manager.Registered id) (appends : List (τ × τ)) :
    ∃ result, manager.appendAll ops id appends = .ok result := by
  induction appends generalizing manager with
  | nil => exact ⟨_, rfl⟩
  | cons append rest ih =>
      obtain ⟨⟨next, ok⟩, happend⟩ := appendKv_ok ops h append.1 append.2
      rw [appendAll, happend, Machine.ok_bind]
      cases ok with
      | true => exact ih (((registered_appendKv happend).2 id).mpr h)
      | false => exact ⟨_, rfl⟩

/-- Without one the first append does. -/
theorem appendAll_error {manager : KVCacheManager τ} {id : RequestId} (h : ¬ manager.Registered id)
    {appends : List (τ × τ)} (hnonempty : appends ≠ []) :
    manager.appendAll ops id appends = .error (.expect "request must be registered") := by
  obtain ⟨⟨key, value⟩, rest, rfl⟩ := List.exists_cons_of_ne_nil hnonempty
  have hlookup : manager.requestCaches.lookup id = none := AList.lookup_eq_none.mpr h
  rw [appendAll, appendKv, hlookup]
  rfl

end KVCacheManager

namespace World

open Worker

variable {τ : Type} {env : Env} {ops : TensorOps τ}

/-- Which requests have a slot. -/
structure Slots (world : World τ) : Prop where
  waiting : ∀ req ∈ world.scheduler.waitingQueue, ¬ world.cache.Registered req.id
  opened : ∀ req ∈ world.scheduler.runningQueue, req.cachedPrefixLen = 0 →
    0 < req.prefillCursor → world.cache.Registered req.id
  only : ∀ req ∈ world.scheduler.runningQueue,
    req.promptTokens.length + world.scheduler.config.maxPrefillChunkSize < 2 ^ 64 →
      world.cache.Registered req.id → req.cachedPrefixLen = 0 ∧ req.promptTokens ≠ []
  batch : ∀ toPrefill batch results, world.phase = .computing toPrefill batch results →
    ∀ item ∈ batch, item.isPrefill → item.needsCacheLookup → world.cache.Registered item.reqId

theorem new_slots (env : Env) (blockSize numGpuBlocks : ℕ) (config : SchedulerConfig) :
    (new env blockSize numGpuBlocks config : World τ).Slots where
  waiting req hreq := by cases hreq
  opened req hreq := by cases hreq
  only req hreq := by cases hreq
  batch toPrefill batch results hphase := by cases hphase

/-- Only the cache's keys matter. -/
theorem Slots.of_registered {world : World τ} (h : world.Slots) {cache : KVCacheManager τ}
    (hcache : ∀ id, cache.Registered id ↔ world.cache.Registered id) {phase : Phase}
    (hphase : ∀ toPrefill batch results, phase = .computing toPrefill batch results →
      ∃ before, world.phase = .computing toPrefill batch before) :
    Slots { world with cache, phase } := by
  refine ⟨?_, ?_, ?_, ?_⟩
  · intro req hreq hid
    exact h.waiting req hreq ((hcache req.id).mp hid)
  · intro req hreq hcached hcursor
    exact (hcache req.id).mpr (h.opened req hreq hcached hcursor)
  · intro req hreq hsmall hid
    exact h.only req hreq hsmall ((hcache req.id).mp hid)
  · intro toPrefill batch results hcomputing item hitem hprefill hlookup
    obtain ⟨before, hbefore⟩ := hphase toPrefill batch results hcomputing
    exact (hcache item.reqId).mpr
      (h.batch toPrefill batch before hbefore item hitem hprefill hlookup)

theorem submit_slots {world : World τ} (hvalid : world.Valid) (h : world.Slots)
    {submission : Submission} (hfresh : submission.id ∉ world.submitted) :
    (world.submit submission).Slots := by
  refine ⟨?_, h.opened, h.only, h.batch⟩
  intro req hreq hid
  rcases List.mem_append.mp hreq with hold | hnew
  · exact h.waiting req hold hid
  · rw [List.mem_singleton.mp hnew] at hid
    exact hfresh (hvalid.registered_known _ hid)

section Schedule

variable {now : Instant} {world : World τ} {scheduler : Scheduler}
  {toPrefill toDecode : List RequestId} {stays selected taken admitted : List Request}

/-- A `schedule` moves requests without a slot from the one queue to the other. -/
theorem scheduled_slots (h : world.Slots)
    (hspec : Scheduler.Scheduled now world.scheduler scheduler toPrefill toDecode stays selected
      taken admitted) (hphase : world.phase = .idle) : Slots { world with scheduler } := by
  refine ⟨?_, ?_, ?_, ?_⟩
  · intro req hreq
    exact h.waiting req (hspec.mem_waiting hreq)
  · apply hspec.forall_running (fun _ => Iff.rfl) h.opened
    rintro req _ _ ⟨cachedLen, _, _, rfl⟩ hcached hcursor
    exact absurd hcached (Nat.ne_of_gt hcursor)
  · change ∀ req ∈ scheduler.runningQueue, req.promptTokens.length +
      scheduler.config.maxPrefillChunkSize < 2 ^ 64 → world.cache.Registered req.id →
        req.cachedPrefixLen = 0 ∧ req.promptTokens ≠ []
    rw [hspec.config_eq]
    apply hspec.forall_running (fun _ => Iff.rfl) h.only
    rintro req hreq _ ⟨cachedLen, _, _, rfl⟩ _ hid
    exact absurd hid (h.waiting req hreq)
  · intro _ _ _ hcomputing
    rw [show ({ world with scheduler } : World τ).phase = .idle from hphase] at hcomputing
    cases hcomputing

end Schedule

/-- A batch opens slots for the requests that are at the beginning of their prompts. -/
theorem registered_slots {world : World τ} (hvalid : world.Valid) (h : world.Slots)
    {toPrefill : List RequestId} {batch : List WorkItem} {prefills : List Request}
    (hbatched : Batched world.scheduler toPrefill batch [] prefills) :
    Slots { world with
      cache := registerItems world.cache batch
      phase := .computing toPrefill batch [] } := by
  -- the slots that are new
  have hnew : ∀ item ∈ batch, item.isPrefill → item.needsCacheLookup →
      ∃ req ∈ world.scheduler.runningQueue, req.id = item.reqId ∧ ¬ req.Prefilled ∧
        req.prefillCursor = 0 := by
    intro item hitem hprefill hlookup
    rcases hbatched.mem_batch.mp hitem with ⟨req, hreq, rfl⟩ | ⟨req, _, rfl⟩
    · obtain ⟨hrunning, hopen⟩ := hbatched.prefill_running hreq
      exact ⟨req, hrunning, rfl, hopen, of_decide_eq_true hlookup⟩
    · cases hprefill
  refine ⟨?_, ?_, ?_, ?_⟩
  · intro req hreq hid
    rcases (registered_registerItems _ _ req.id).mp hid with hold | ⟨item, hitem, hp, hl, heq⟩
    · exact h.waiting req hreq hold
    · obtain ⟨other, hother, hotherId, _⟩ := hnew item hitem hp hl
      exact hvalid.id_ne hother hreq (hotherId.trans heq)
  · intro req hreq hcached hcursor
    exact (registered_registerItems _ _ req.id).mpr (Or.inl (h.opened req hreq hcached hcursor))
  · intro req hreq hsmall hid
    rcases (registered_registerItems _ _ req.id).mp hid with hold | ⟨item, hitem, hp, hl, heq⟩
    · exact h.only req hreq hsmall hold
    · obtain ⟨other, hother, hotherId, hopen, hcursor⟩ := hnew item hitem hp hl
      obtain rfl := eq_of_id_eq hvalid.running_nodup hother hreq (hotherId.trans heq)
      refine ⟨Nat.le_zero.mp (hcursor ▸ hvalid.cached_le_cursor other hother hsmall), ?_⟩
      intro hnil
      rw [Request.Prefilled, hnil] at hopen
      exact hopen (Nat.zero_le _)
  · intro _ _ _ hcomputing item hitem hprefill hlookup
    cases hcomputing
    exact (registered_registerItems _ _ _).mpr (Or.inr ⟨item, hitem, hprefill, hlookup, rfl⟩)

/-- In a batch, a request has a slot if it was admitted without a hit and has a prompt. -/
theorem Batched.registered {world : World τ} (h : world.Slots) {toPrefill : List RequestId}
    {batch : List WorkItem} {results : List ComputeResult} {prefills : List Request}
    (hbatched : Batched world.scheduler toPrefill batch results prefills)
    (hphase : world.phase = .computing toPrefill batch results) {req : Request}
    (hreq : req ∈ prefills ∨ req ∈ Scheduler.finished world.scheduler.runningQueue)
    (hcached : req.cachedPrefixLen = 0) (hprompt : req.promptTokens ≠ []) :
    world.cache.Registered req.id := by
  by_cases hcursor : req.prefillCursor = 0
  · rcases hreq with hreq | hreq
    · have hitem := hbatched.mem_batch.mpr (Or.inl ⟨req, hreq, rfl⟩)
      exact h.batch _ _ _ hphase _ hitem rfl (decide_eq_true hcursor)
    · have hprefilled : req.Prefilled := of_decide_eq_true (List.mem_filter.mp hreq).2
      rw [Request.Prefilled, hcursor] at hprefilled
      exact absurd (List.eq_nil_of_length_eq_zero (Nat.le_zero.mp hprefilled)) hprompt
  · have hrunning : req ∈ world.scheduler.runningQueue := by
      rcases hreq with hreq | hreq
      · exact (hbatched.prefill_running hreq).1
      · exact List.mem_of_mem_filter hreq
    exact h.opened req hrunning hcached (Nat.pos_of_ne_zero hcursor)

theorem updated_slots {world : World τ} (hvalid : world.Valid) (h : world.Slots)
    {toPrefill : List RequestId} {batch : List WorkItem} {results : List ComputeResult}
    {scheduler : Scheduler} {cache : KVCacheManager τ} {sent : List (RequestId × Token)}
    (hphase : world.phase = .computing toPrefill batch results)
    (hupdate : Worker.update env world.scheduler world.cache toPrefill results =
      .ok (scheduler, cache, sent)) :
    Slots { world with scheduler, cache, phase := .idle, sent := world.sent ++ sent } := by
  obtain ⟨prefills, hbatched⟩ := hvalid.batched _ _ _ hphase
  obtain ⟨hscheduler, hcache, _⟩ :=
    update_spec hvalid.running_nodup (hbatched.toPrefill_nodup hvalid) hupdate
  refine ⟨?_, ?_, ?_, ?_⟩
  · intro req hreq hid
    rw [hscheduler] at hreq
    exact h.waiting req hreq ((hcache req.id).mp hid).1
  · intro req hreq hcached hcursor
    obtain ⟨old, hold, rfl, hdone⟩ := updated_running hvalid hphase hupdate hreq
    rw [Request.settled_cachedPrefixLen] at hcached
    rw [Request.settled_id, hcache]
    constructor
    · by_cases hmem : old.id ∈ toPrefill
      · have hprefill := (hbatched.mem_toPrefill hvalid.running_nodup hold).mp hmem
        apply hbatched.registered h hphase (Or.inl hprefill) hcached
        intro hnil
        apply (hbatched.prefill_running hprefill).2
        rw [Request.Prefilled, hnil]
        exact Nat.zero_le _
      · rw [Request.settled_prefillCursor, if_neg hmem] at hcursor
        exact h.opened old hold hcached hcursor
    · intro other hother hid
      rwa [eq_of_id_eq hvalid.running_nodup hother hold hid]
  · intro req hreq hsmall hid
    obtain ⟨old, hold, rfl, _⟩ := updated_running hvalid hphase hupdate hreq
    rw [Request.settled_promptTokens, hscheduler] at hsmall
    rw [Request.settled_id, hcache] at hid
    rw [Request.settled_cachedPrefixLen, Request.settled_promptTokens]
    exact h.only old hold hsmall hid.1
  · intro _ _ _ hidle
    cases hidle

/-- **Every event keeps the slots right.** -/
theorem steps_slots {world world' : World τ} {event : Event τ} (hvalid : world.Valid)
    (h : world.Slots) (hfresh : world.Fresh event) (hsteps : Steps env ops world event world') :
    world'.Slots := by
  cases hsteps with
  | disabled _ => exact h
  | submit submission => exact submit_slots hvalid h hfresh
  | park hphase hschedule =>
      obtain ⟨_, _, _, _, hspec⟩ := Scheduler.schedule_spec hschedule
      exact scheduled_slots h hspec hphase
  | @begin _ scheduler _ _ hphase hschedule =>
      obtain ⟨_, _, _, _, hspec⟩ := Scheduler.schedule_spec hschedule
      obtain ⟨prefills, hbatched⟩ := batched_begin hvalid hspec
      exact registered_slots (scheduled_valid_of_idle hvalid hspec hphase)
        (scheduled_slots h hspec hphase) hbatched
  | answer hphase hitem happend =>
      apply h.of_registered (KVCacheManager.registered_appendAll happend)
      intro _ _ _ hcomputing
      cases hcomputing
      exact ⟨_, hphase⟩
  | fail hphase hitem happend =>
      apply h.of_registered (KVCacheManager.registered_appendAll happend)
      intro _ _ _ hcomputing
      cases hcomputing
  | update hphase hlength hupdate => exact updated_slots hvalid h hphase hupdate

/-- **The model has a slot for a request that has a prompt and was admitted without a hit, and for
no other.** (A cursor that wraps around to `0` would open one late.) And for a request without a
slot, a pass through the model that appends anything panics. -/
theorem forward_has_slot_iff (env : Env) (ops : TensorOps τ) {blockSize numGpuBlocks : ℕ}
    {config : SchedulerConfig} {events : List (Event τ)}
    (hfresh : Machine.Along (step env ops) Fresh (new env blockSize numGpuBlocks config) events)
    {world : World τ} (hrun : history env ops blockSize numGpuBlocks config events = .ok world)
    {toPrefill : List RequestId} {batch : List WorkItem} {results : List ComputeResult}
    (hphase : world.phase = .computing toPrefill batch results) {item : WorkItem}
    (hitem : batch[results.length]? = some item) :
    ∃ req ∈ world.scheduler.runningQueue, req.id = item.reqId ∧
      (req.cachedPrefixLen = 0 ∧ req.promptTokens ≠ [] → world.cache.Registered item.reqId) ∧
      (req.promptTokens.length + config.maxPrefillChunkSize < 2 ^ 64 →
        world.cache.Registered item.reqId → req.cachedPrefixLen = 0 ∧ req.promptTokens ≠ []) ∧
      ∀ appends token, appends ≠ [] →
        (world.step env ops (.forward appends token) =
            .error (.expect "request must be registered") ↔
          ¬ world.cache.Registered item.reqId) := by
  obtain ⟨hvalid, hslots⟩ := history_invariant (I := Slots)
    (fun _ _ _ hvalid h hevent hsteps => steps_slots hvalid h hevent hsteps)
    (new_slots env blockSize numGpuBlocks config) hfresh hrun
  rw [← history_config hfresh hrun]
  obtain ⟨prefills, hbatched⟩ := hvalid.batched _ _ _ hphase
  have hrequest : ∃ req, (req ∈ prefills ∨
      req ∈ Scheduler.finished world.scheduler.runningQueue) ∧ req.id = item.reqId := by
    rcases hbatched.mem_batch.mp (List.mem_of_getElem? hitem) with
      ⟨req, hreq, rfl⟩ | ⟨req, hreq, rfl⟩
    · exact ⟨req, Or.inl hreq, rfl⟩
    · exact ⟨req, Or.inr hreq, rfl⟩
  obtain ⟨req, hreq, hid⟩ := hrequest
  have hrunning : req ∈ world.scheduler.runningQueue := by
    rcases hreq with hreq | hreq
    · exact (hbatched.prefill_running hreq).1
    · exact List.mem_of_mem_filter hreq
  rw [← hid]
  refine ⟨req, hrunning, rfl, ?_, hslots.only req hrunning, ?_⟩
  · rintro ⟨hcached, hprompt⟩
    exact hbatched.registered hslots hphase hreq hcached hprompt
  · intro appends token hnonempty
    rw [step, hphase]
    dsimp only
    rw [hitem]
    dsimp only
    rw [← hid]
    constructor
    · intro hpanic hregistered
      obtain ⟨⟨cache, ok⟩, happend⟩ := KVCacheManager.appendAll_ok ops hregistered appends
      rw [happend, Machine.ok_bind] at hpanic
      cases token with
      | none => cases hpanic
      | some token => cases ok <;> cases hpanic
    · intro hnot
      rw [KVCacheManager.appendAll_error hnot hnonempty]
      rfl

theorem forward_has_slot_of_prompt :
    ∃ world, history .counting (.rows ℕ) 4 9 ⟨8, 4⟩
        [.submit (.plain 1 [5, 7] 2), .schedule 0] = .ok world ∧ world.cache.Registered 1 := by
  have hrun : ∃ world, history .counting (.rows ℕ) 4 9 ⟨8, 4⟩
      [.submit (.plain 1 [5, 7] 2), .schedule 0] = .ok world ∧
      world.phase = .computing [1] [⟨1, [5, 7], true, (Submission.plain 1 [5, 7] 2).sampling, true,
        true⟩] [] ∧
      ∀ req ∈ world.scheduler.runningQueue, req.cachedPrefixLen = 0 ∧ req.promptTokens ≠ [] := by
    decide +kernel
  obtain ⟨world, hrun, hphase, hstart⟩ := hrun
  obtain ⟨req, hreq, _, hslot, _⟩ := forward_has_slot_iff .counting (.rows ℕ) (by decide +kernel)
    hrun hphase rfl
  exact ⟨world, hrun, hslot (hstart req hreq)⟩

/-- The second of two prompts with a common block starts behind it, and its first chunk panics. -/
theorem forward_without_slot :
    Machine.Along (step .counting (.rows ℕ)) Fresh (new .counting 2 9 ⟨8, 4⟩)
        [.submit (.plain 1 [5, 7] 1), .schedule 0, .forward [([1, 2], [1, 2])] (some 3), .update,
          .submit (.plain 2 [5, 7, 8] 1), .schedule 1] ∧
      ∃ world, history .counting (.rows ℕ) 2 9 ⟨8, 4⟩
          [.submit (.plain 1 [5, 7] 1), .schedule 0, .forward [([1, 2], [1, 2])] (some 3), .update,
            .submit (.plain 2 [5, 7, 8] 1), .schedule 1] = .ok world ∧
        world.phase = .computing [2] [⟨2, [8], true, (Submission.plain 2 [5, 7, 8] 1).sampling,
          true, false⟩] [] ∧
        ¬ world.cache.Registered 2 ∧
        ∃ fault, world.step .counting (.rows ℕ) (.forward [([3], [3])] (some 4)) = .error fault ∧
          fault = .expect "request must be registered" := by
  decide +kernel

end World
end Kyro
