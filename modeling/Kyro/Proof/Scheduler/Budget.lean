import Kyro.Proof.Scheduler.Schedule

/-!
# The token budget

The decodes are selected without a look at the budget. They stay within it all the same: a request
is admitted only while the budget is not used up, and every running request that was selected before
it has taken at least one token of it, so there are never more running requests than tokens in the
budget.
-/

namespace Kyro

namespace Scheduler

theorem updateRequest_length (id : RequestId) (f : Request → Request) (reqs : List Request) :
    (updateRequest id f reqs).length = reqs.length := by
  induction reqs with
  | nil => rfl
  | cons req reqs ih =>
      rw [updateRequest]
      split
      · rfl
      · rw [List.length_cons, List.length_cons, ih]

section Scheduled

variable {now : Instant} {scheduler scheduler' : Scheduler} {toPrefill toDecode : List RequestId}
  {stays selected taken admitted : List Request}

theorem Scheduled.stays_length_le
    (h : Scheduled now scheduler scheduler' toPrefill toDecode stays selected taken admitted) :
    stays.length ≤ scheduler.runningQueue.length := by
  have hlength := congrArg List.length h.stays_eq
  rw [List.length_map, List.length_map] at hlength
  rw [hlength]
  exact List.length_filter_le _ _

theorem Scheduled.running_le
    (h : Scheduled now scheduler scheduler' toPrefill toDecode stays selected taken admitted)
    (hchunk : 0 < scheduler.config.maxPrefillChunkSize)
    (hle : scheduler.runningQueue.length ≤ scheduler.config.maxTokensPerIter) :
    scheduler'.runningQueue.length ≤ scheduler.config.maxTokensPerIter := by
  rw [h.running_eq, List.length_append]
  have := h.stays_length_le
  by_cases hadmitted : admitted = []
  · rw [hadmitted, List.length_nil]
    omega
  · exact (h.room hchunk hadmitted).2

/-- The oldest running request with an unfinished prefill is selected. -/
theorem Scheduled.oldest_selected
    (h : Scheduled now scheduler scheduler' toPrefill toDecode stays selected taken admitted)
    (hle : scheduler.runningQueue.length ≤ scheduler.config.maxTokensPerIter) {oldest : Request}
    (holdest : (scheduler.runningQueue.filter fun req => ¬ req.Expired now).find?
      (fun req => ¬ req.Prefilled) = some oldest) : oldest.id ∈ toPrefill := by
  -- the marks do not change which requests are unfinished
  have hunfinished := filter_unmarked (p := fun req => ¬ req.Prefilled) (fun _ => rfl) h.stays_eq
  rw [← List.head?_filter] at holdest
  obtain ⟨rest, hrest⟩ := List.head?_eq_some_iff.mp holdest
  rw [hrest, List.map_cons] at hunfinished
  obtain ⟨marked, tail, hsplit, hmarked, _⟩ := List.map_eq_cons_iff.mp hunfinished
  change unfinished stays = marked :: tail at hsplit
  have hdecodes : (finished stays).length < scheduler.config.maxTokensPerIter := by
    have := h.stays_length_le
    have hlength := length_finished_add_unfinished stays
    rw [hsplit, List.length_cons] at hlength
    omega
  have hfront := h.front
  rw [hsplit] at hfront
  cases selected with
  | nil =>
      have := h.started hdecodes rfl
      rw [hsplit] at this
      cases this
  | cons first others =>
      obtain ⟨rfl, _⟩ := List.cons_prefix_cons.mp hfront
      have hid : first.id = oldest.id := congrArg (·.id) hmarked
      rw [h.toPrefill_eq, ← hid]
      simp

end Scheduled

theorem sum_work (config : SchedulerConfig) (reqs : List Request) :
    (reqs.map (work config)).sum =
      (finished reqs).length + ((unfinished reqs).map (·.chunkSize config)).sum := by
  induction reqs with
  | nil => rfl
  | cons req reqs ih =>
      rw [List.map_cons, List.sum_cons, finished_cons, unfinished_cons, ih, work]
      split
      · rw [List.length_cons]
        omega
      · rw [List.map_cons, List.sum_cons]
        omega

/-- Every call keeps the running queue within the budget. -/
theorem exec_running_le {env : Env} {scheduler scheduler' : Scheduler} {call : Call}
    (hchunk : 0 < scheduler.config.maxPrefillChunkSize)
    (hle : scheduler.runningQueue.length ≤ scheduler.config.maxTokensPerIter)
    (hexec : scheduler.exec env call = .ok scheduler') :
    scheduler'.runningQueue.length ≤ scheduler.config.maxTokensPerIter := by
  cases call with
  | addRequest request =>
      cases hexec
      exact hle
  | schedule now =>
      obtain ⟨_, _, hschedule⟩ := exec_schedule hexec
      obtain ⟨_, _, _, _, hspec⟩ := schedule_spec hschedule
      exact hspec.running_le hchunk hle
  | advancePrefillCursor requestId =>
      cases hexec
      rw [advancePrefillCursor, updateRequest_length]
      exact hle
  | finishRequest requestId =>
      rw [exec, finishRequest] at hexec
      split at hexec
      · obtain ⟨blockManager, _, heq⟩ := Machine.bind_eq_ok.mp hexec
        cases heq
        exact (List.eraseP_sublist.length_le).trans hle
      · cases hexec
        exact hle

/-- **Budget and concurrency.** In every state that calls on a fresh scheduler lead to, there are at
most as many running requests as tokens in the budget. So a `schedule` selects work of less than the
budget and one chunk, and the oldest running request whose prefill is unfinished is always part of
it. -/
theorem budget_and_concurrency (env : Env) {blockSize numGpuBlocks : ℕ} {config : SchedulerConfig}
    (hchunk : 0 < config.maxPrefillChunkSize) {calls : List Call} {scheduler : Scheduler}
    (hrun : history env blockSize numGpuBlocks config calls = .ok scheduler) :
    scheduler.runningQueue.length ≤ config.maxTokensPerIter ∧
    ∀ now scheduler' toPrefill toDecode,
      scheduler.schedule env now = .ok (scheduler', toPrefill, toDecode) →
      (∃ prefills decodes : List Request, prefills.Sublist scheduler'.runningQueue ∧
        decodes.Sublist scheduler'.runningQueue ∧
        toPrefill = prefills.map (·.id) ∧ toDecode = decodes.map (·.id) ∧
        (∀ req ∈ prefills, ¬ req.Prefilled) ∧ (∀ req ∈ decodes, req.Prefilled) ∧
        decodes.length + (prefills.map (·.chunkSize config)).sum ≤
          config.maxTokensPerIter + config.maxPrefillChunkSize - 1) ∧
      ∀ oldest, (scheduler.runningQueue.filter fun req => ¬ req.Expired now).find?
          (fun req => ¬ req.Prefilled) = some oldest → oldest.id ∈ toPrefill := by
  obtain ⟨rfl, hle⟩ := Machine.run_invariant (P := fun _ _ => True)
    (I := fun scheduler : Scheduler => scheduler.config = config ∧
      scheduler.runningQueue.length ≤ config.maxTokensPerIter)
    (fun _ _ _ ⟨hconfig, hle⟩ _ hexec => ⟨(exec_config hexec).trans hconfig, by
      subst hconfig
      exact exec_running_le hchunk hle hexec⟩) ⟨rfl, Nat.zero_le _⟩
    (Machine.along_true _ _) hrun
  refine ⟨hle, fun now scheduler' toPrefill toDecode hschedule => ?_⟩
  obtain ⟨stays, selected, taken, admitted, h⟩ := schedule_spec hschedule
  refine ⟨⟨selected ++ unfinished admitted, finished stays ++ finished admitted, ?_, ?_,
    h.toPrefill_eq, h.toDecode_eq, ?_, ?_, ?_⟩, fun oldest => h.oldest_selected hle⟩
  · rw [h.running_eq]
    exact (h.front.sublist.trans List.filter_sublist).append List.filter_sublist
  · rw [h.running_eq]
    exact List.filter_sublist.append List.filter_sublist
  · intro req hreq
    rcases List.mem_append.mp hreq with hreq | hreq
    · exact not_prefilled_of_mem_unfinished (h.front.subset hreq)
    · exact not_prefilled_of_mem_unfinished hreq
  · intro req hreq
    rcases List.mem_append.mp hreq with hreq | hreq
    · simpa using (List.mem_filter.mp hreq).2
    · simpa using (List.mem_filter.mp hreq).2
  · have hdecodes : (finished stays).length ≤ scheduler.config.maxTokensPerIter :=
      (List.length_filter_le _ _).trans (h.stays_length_le.trans hle)
    have hwithin := h.within hchunk hdecodes
    rw [sum_work] at hwithin
    rw [List.length_append, List.map_append, List.sum_append]
    omega

theorem budget_and_concurrency_two_prefills :
    ∃ scheduler, history .counting 4 100 ⟨6, 4⟩ [.addRequest (makeReq 1 20 50),
        .addRequest (makeReq 2 20 50), .schedule 0, .advancePrefillCursor 1] = .ok scheduler ∧
      scheduler.runningQueue.length ≤ 6 := by
  have hrun : ∃ scheduler, history .counting 4 100 ⟨6, 4⟩ [.addRequest (makeReq 1 20 50),
      .addRequest (makeReq 2 20 50), .schedule 0, .advancePrefillCursor 1] = .ok scheduler ∧
      True := by
    decide +kernel
  obtain ⟨scheduler, hrun, -⟩ := hrun
  exact ⟨scheduler, hrun, (budget_and_concurrency .counting (by decide) hrun).1⟩

end Scheduler
end Kyro
