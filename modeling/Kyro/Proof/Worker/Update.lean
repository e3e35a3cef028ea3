import Kyro.Worker
import Kyro.Proof.Scheduler.Queues

/-!
# What one update does

The update phase goes through the running queue once for every result, once for every prefill and
once for every finished request. With distinct ids the passes do not interfere, and the phase is a
map over the queue and a filter: every request gets its tokens and its new cursor, and the ones that
are then done leave.
-/

namespace Kyro

namespace Request

/-- A request with the tokens of its results. -/
def answered (results : List ComputeResult) (req : Request) : Request :=
  { req with
    generatedTokens := req.generatedTokens ++
      (results.filter fun res => res.reqId = req.id).map (·.token) }

/-- A request with its cursor moved by one chunk. -/
def advanced (config : SchedulerConfig) (req : Request) : Request :=
  { req with prefillCursor := Scheduler.nextCursor config req }

/-- A request after the update phase, if it is not done. -/
def settled (config : SchedulerConfig) (toPrefill : List RequestId) (results : List ComputeResult)
    (req : Request) : Request :=
  if req.id ∈ toPrefill then (req.answered results).advanced config else req.answered results

section Fields

variable (config : SchedulerConfig) (toPrefill : List RequestId) (results : List ComputeResult)
  (req : Request)

@[simp] theorem answered_id : (req.answered results).id = req.id := rfl

@[simp] theorem advanced_id : (req.advanced config).id = req.id := rfl

@[simp] theorem settled_id : (req.settled config toPrefill results).id = req.id := by
  rw [settled]
  split <;> rfl

@[simp] theorem settled_promptTokens :
    (req.settled config toPrefill results).promptTokens = req.promptTokens := by
  rw [settled]
  split <;> rfl

@[simp] theorem settled_cachedPrefixLen :
    (req.settled config toPrefill results).cachedPrefixLen = req.cachedPrefixLen := by
  rw [settled]
  split <;> rfl

theorem settled_generatedTokens : (req.settled config toPrefill results).generatedTokens =
    req.generatedTokens ++ (results.filter fun res => res.reqId = req.id).map (·.token) := by
  rw [settled]
  split <;> rfl

theorem settled_prefillCursor : (req.settled config toPrefill results).prefillCursor =
    if req.id ∈ toPrefill then Scheduler.nextCursor config req else req.prefillCursor := by
  rw [settled]
  split <;> rfl

theorem settled_isDone : (req.settled config toPrefill results).isDone =
    (req.answered results).isDone := by
  rw [settled]
  split <;> rfl

end Fields

end Request

/-- The cursor of a request whose sum does not wrap. -/
theorem Scheduler.nextCursor_of_lt {config : SchedulerConfig} {req : Request}
    (hsum : req.prefillCursor + config.maxPrefillChunkSize < 2 ^ 64) :
    nextCursor config req =
      min (req.prefillCursor + config.maxPrefillChunkSize) req.promptTokens.length := by
  rw [nextCursor, wrappingAdd_of_lt hsum]

theorem Scheduler.nextCursor_eq {config : SchedulerConfig} {req : Request}
    (hcursor : req.prefillCursor ≤ req.promptTokens.length)
    (hsmall : req.promptTokens.length + config.maxPrefillChunkSize < 2 ^ 64) :
    nextCursor config req =
      min (req.prefillCursor + config.maxPrefillChunkSize) req.promptTokens.length :=
  nextCursor_of_lt (Nat.lt_of_le_of_lt (Nat.add_le_add_right hcursor _) hsmall)

namespace Worker

theorem findRequest_eq_some {reqs : List Request} (hnodup : (ids reqs).Nodup) {req : Request}
    (hreq : req ∈ reqs) : findRequest reqs req.id = some req := by
  induction reqs with
  | nil => cases hreq
  | cons head reqs ih =>
      obtain ⟨hnotMem, hrest⟩ := List.nodup_cons.mp hnodup
      rw [findRequest, List.find?_cons]
      by_cases hid : head.id = req.id
      · rw [decide_eq_true hid]
        rcases List.mem_cons.mp hreq with rfl | hmem
        · rfl
        · exact absurd (mem_ids.mpr ⟨req, hmem, hid.symm⟩) hnotMem
      · rw [decide_eq_false hid]
        exact ih hrest ((List.mem_cons.mp hreq).resolve_left fun h => hid (h ▸ rfl))

theorem findRequest_spec {reqs : List Request} {id : RequestId} {req : Request}
    (h : findRequest reqs id = some req) : req ∈ reqs ∧ req.id = id :=
  ⟨List.mem_of_find?_eq_some h, by simpa using List.find?_some h⟩

theorem findRequest_eq_none {reqs : List Request} {id : RequestId} :
    findRequest reqs id = none ↔ id ∉ ids reqs := by
  simp [findRequest, mem_ids]

/-! ### The three loops -/

theorem pushResults_running {reqs : List Request} (hnodup : (ids reqs).Nodup)
    (results : List ComputeResult) :
    (pushResults reqs results).1 = reqs.map (·.answered results) := by
  induction results generalizing reqs with
  | nil =>
      refine (List.map_id' reqs).symm.trans (List.map_congr_left fun req _ => ?_)
      simp [Request.answered]
  | cons res results ih =>
      rw [pushResults]
      cases hfind : findRequest reqs res.reqId with
      | none =>
          dsimp only
          rw [ih hnodup]
          refine List.map_congr_left fun req hreq => ?_
          have hid : res.reqId ≠ req.id := fun h =>
            findRequest_eq_none.mp hfind (mem_ids.mpr ⟨req, hreq, h.symm⟩)
          simp [Request.answered, hid]
      | some found =>
          dsimp only
          rw [updateRequest_eq_map hnodup, ih, List.map_map]
          · refine List.map_congr_left fun req hreq => ?_
            by_cases hid : req.id = res.reqId
            · simp [Request.answered, Request.pushToken, hid]
            · simp [Request.answered, hid, Ne.symm hid]
          · rw [ids_map fun req => by split <;> rfl]
            exact hnodup

theorem foldl_advance {scheduler : Scheduler} (hnodup : (ids scheduler.runningQueue).Nodup)
    {toPrefill : List RequestId} (hprefill : toPrefill.Nodup) :
    toPrefill.foldl Scheduler.advancePrefillCursor scheduler =
      { scheduler with
        runningQueue := scheduler.runningQueue.map fun req =>
          if req.id ∈ toPrefill then req.advanced scheduler.config else req } := by
  induction toPrefill generalizing scheduler with
  | nil => simp
  | cons id toPrefill ih =>
      obtain ⟨hnotMem, hrest⟩ := List.nodup_cons.mp hprefill
      have hstep : scheduler.advancePrefillCursor id = { scheduler with
          runningQueue := scheduler.runningQueue.map fun req =>
            if req.id = id then req.advanced scheduler.config else req } := by
        rw [Scheduler.advancePrefillCursor, updateRequest_eq_map hnodup]
        rfl
      have hkept : (ids (scheduler.advancePrefillCursor id).runningQueue).Nodup := by
        rw [hstep, ids_map fun req => by split <;> rfl]
        exact hnodup
      rw [List.foldl_cons, ih hkept hrest, hstep]
      congr 1
      rw [List.map_map]
      refine List.map_congr_left fun req _ => ?_
      by_cases hid : req.id = id
      · simp [hid, hnotMem]
      · simp [hid]

theorem finishRequest_spec {env : Env} {scheduler scheduler' : Scheduler}
    (hnodup : (ids scheduler.runningQueue).Nodup) {id : RequestId}
    (h : scheduler.finishRequest env id = .ok scheduler') :
    scheduler' = { scheduler with
      runningQueue := scheduler.runningQueue.filter fun req => req.id ≠ id
      blockManager := scheduler'.blockManager } := by
  rw [Scheduler.finishRequest] at h
  split at h
  · obtain ⟨blockManager, _, heq⟩ := Machine.bind_eq_ok.mp h
    cases heq
    rw [eraseP_eq_filter hnodup]
  · rename_i hnone
    cases h
    simp only [Bool.not_eq_true, List.any_eq_false, decide_eq_true_eq] at hnone
    rw [List.filter_eq_self.mpr fun req hreq => by simpa using hnone req hreq]

section Finish

variable {τ : Type} {env : Env}

theorem finishAll_spec {scheduler scheduler' : Scheduler} {cache cache' : KVCacheManager τ}
    (hnodup : (ids scheduler.runningQueue).Nodup) {finished : List RequestId}
    (h : finishAll env scheduler cache finished = .ok (scheduler', cache')) :
    scheduler' = { scheduler with
      runningQueue := scheduler.runningQueue.filter fun req => req.id ∉ finished
      blockManager := scheduler'.blockManager } ∧
    ∀ id, cache'.Registered id ↔ id ∉ finished ∧ cache.Registered id := by
  induction finished generalizing scheduler cache with
  | nil =>
      cases h
      simp
  | cons id finished ih =>
      obtain ⟨next, hfinish, h⟩ := Machine.bind_eq_ok.mp h
      have hnext := finishRequest_spec hnodup hfinish
      have hkept : (ids next.runningQueue).Nodup := by
        rw [hnext]
        exact hnodup.sublist (List.filter_sublist.map _)
      obtain ⟨hscheduler, hcache⟩ := ih hkept h
      refine ⟨?_, fun other => ?_⟩
      · rw [hscheduler, hnext]
        congr 1
        rw [List.filter_filter]
        refine List.filter_congr fun req _ => ?_
        simp [Bool.and_comm]
      · rw [hcache, KVCacheManager.registered_unregisterRequest, List.mem_cons, not_or]
        tauto

/-- A slot that is left is as it was. -/
theorem finishAll_lookup {scheduler scheduler' : Scheduler} {cache cache' : KVCacheManager τ}
    {finished : List RequestId}
    (h : finishAll env scheduler cache finished = .ok (scheduler', cache')) {id : RequestId}
    {slot : RequestKVCache τ} (hslot : cache'.requestCaches.lookup id = some slot) :
    cache.requestCaches.lookup id = some slot := by
  induction finished generalizing scheduler cache with
  | nil =>
      cases h
      exact hslot
  | cons done finished ih =>
      obtain ⟨next, _, h⟩ := Machine.bind_eq_ok.mp h
      have hnext := ih h
      rw [KVCacheManager.unregisterRequest] at hnext
      by_cases heq : id = done
      · rw [heq, AList.lookup_erase] at hnext
        cases hnext
      · rwa [AList.lookup_erase_ne heq] at hnext

theorem update_lookup {scheduler scheduler' : Scheduler} {cache cache' : KVCacheManager τ}
    {toPrefill : List RequestId} {results : List ComputeResult} {sent : List (RequestId × Token)}
    (h : update env scheduler cache toPrefill results = .ok (scheduler', cache', sent))
    {id : RequestId} {slot : RequestKVCache τ}
    (hslot : cache'.requestCaches.lookup id = some slot) :
    cache.requestCaches.lookup id = some slot := by
  obtain ⟨_, hfinish, heq⟩ := Machine.bind_eq_ok.mp h
  cases heq
  exact finishAll_lookup hfinish hslot

/-- The loops over the results and over the prefills settle every running request. -/
theorem settle_eq {scheduler : Scheduler} (hnodup : (ids scheduler.runningQueue).Nodup)
    {toPrefill : List RequestId} (hprefill : toPrefill.Nodup) (results : List ComputeResult) :
    toPrefill.foldl Scheduler.advancePrefillCursor
      { scheduler with runningQueue := (pushResults scheduler.runningQueue results).1 } =
      { scheduler with runningQueue :=
        scheduler.runningQueue.map (·.settled scheduler.config toPrefill results) } := by
  have hpushed := pushResults_running hnodup results
  have hanswered : (ids (pushResults scheduler.runningQueue results).1).Nodup := by
    rw [hpushed, ids_map (Request.answered_id results)]
    exact hnodup
  rw [foldl_advance hanswered hprefill]
  congr 1
  rw [hpushed, List.map_map]
  rfl

/-- **The update phase**: every running request is settled, and those that are then done leave the
queue and the cache. -/
theorem update_spec {scheduler scheduler' : Scheduler} {cache cache' : KVCacheManager τ}
    (hnodup : (ids scheduler.runningQueue).Nodup) {toPrefill : List RequestId}
    (hprefill : toPrefill.Nodup) {results : List ComputeResult} {sent : List (RequestId × Token)}
    (h : update env scheduler cache toPrefill results = .ok (scheduler', cache', sent)) :
    scheduler' = { scheduler with
      runningQueue := (scheduler.runningQueue.map
        (·.settled scheduler.config toPrefill results)).filter (fun req => ¬ req.isDone)
      blockManager := scheduler'.blockManager } ∧
    (∀ id, cache'.Registered id ↔ cache.Registered id ∧ ∀ req ∈ scheduler.runningQueue,
      req.id = id → ¬ (req.settled scheduler.config toPrefill results).isDone) ∧
    sent = (pushResults scheduler.runningQueue results).2 := by
  obtain ⟨⟨next, nextCache⟩, hfinish, heq⟩ := Machine.bind_eq_ok.mp h
  cases heq
  have hids : (ids (scheduler.runningQueue.map
      (·.settled scheduler.config toPrefill results))).Nodup := by
    rw [ids_map (Request.settled_id scheduler.config toPrefill results)]
    exact hnodup
  rw [settle_eq hnodup hprefill results] at hfinish
  obtain ⟨hscheduler, hcache⟩ := finishAll_spec hids hfinish
  -- with distinct ids, the ids of the done requests are the ids of no other
  have hdone : ∀ req ∈ scheduler.runningQueue.map (·.settled scheduler.config toPrefill results),
      req.id ∈ ((scheduler.runningQueue.map (·.settled scheduler.config toPrefill results)).filter
        (·.isDone)).map (·.id) ↔ req.isDone := by
    intro req hreq
    constructor
    · intro hmem
      obtain ⟨other, hother, hid⟩ := List.mem_map.mp hmem
      obtain ⟨hother, hisDone⟩ := List.mem_filter.mp hother
      rwa [eq_of_id_eq hids hreq hother hid.symm]
    · intro hisDone
      exact List.mem_map_of_mem (List.mem_filter.mpr ⟨hreq, hisDone⟩)
  refine ⟨?_, fun id => ?_, rfl⟩
  · rw [hscheduler]
    congr 1
    refine List.filter_congr fun req hreq => ?_
    rw [decide_eq_decide, hdone req hreq]
  · rw [hcache, and_comm]
    refine and_congr_right fun _ => ⟨fun hnot req hreq hid hisDone => ?_, fun hall hmem => ?_⟩
    · exact hnot (List.mem_map.mpr ⟨_, List.mem_filter.mpr ⟨List.mem_map_of_mem hreq, hisDone⟩,
        (Request.settled_id ..).trans hid⟩)
    · obtain ⟨other, hother, hid⟩ := List.mem_map.mp hmem
      obtain ⟨hother, hisDone⟩ := List.mem_filter.mp hother
      obtain ⟨req, hreq, rfl⟩ := List.mem_map.mp hother
      exact hall req hreq ((Request.settled_id ..).symm.trans hid) hisDone

end Finish

end Worker
end Kyro
