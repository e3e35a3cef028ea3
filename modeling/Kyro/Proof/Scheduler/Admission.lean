import Kyro.Proof.Scheduler.Schedule
import Kyro.Proof.Blocks.Room

/-!
# Admission

No call of the scheduler panics. And with nothing running, whether the first waiting request is
admitted is decided by the block manager alone: it is exactly when its prompt fits.
-/

namespace Kyro

namespace BlockManager

theorem free_owns (env : Env) {manager : BlockManager} (h : manager.Owns []) (id : RequestId) :
    ∃ manager', manager.free env id = .ok manager' ∧ manager'.Owns [] :=
  exec_owns env h (.free id)

theorem allocateWithPrefix_owns (env : Env) {manager : BlockManager} (h : manager.Owns [])
    (id : RequestId) (promptTokens : List Token) :
    ∃ manager' result, manager.allocateWithPrefix env id promptTokens = .ok (manager', result) ∧
      manager'.Owns [] ∧
      ∀ blocks cachedLen, result = some (blocks, cachedLen) →
        cachedLen ≤ promptTokens.length := by
  obtain ⟨_, _, _, _, ⟨_, _, heq, _, howns⟩ | ⟨_, manager', heq, _, _, howns⟩⟩ :=
    allocateWithPrefix_spec env h id promptTokens
  · exact ⟨_, none, heq, howns, by simp⟩
  · refine ⟨manager', _, heq, howns, fun blocks cachedLen hresult => ?_⟩
    cases hresult
    exact manager.radixCache.matchPrefix_le env promptTokens

end BlockManager

namespace Scheduler

theorem expireRunning_owns (env : Env) (now : Instant) {blockManager : BlockManager}
    (h : blockManager.Owns []) (reqs : List Request) :
    ∃ result, expireRunning env now blockManager reqs = .ok result ∧ result.1.Owns [] := by
  induction reqs generalizing blockManager with
  | nil => exact ⟨_, rfl, h⟩
  | cons req reqs ih =>
      rw [expireRunning]
      split
      · obtain ⟨freed, hfree, howns⟩ := BlockManager.free_owns env h req.id
        rw [hfree, Machine.ok_bind]
        exact ih howns
      · obtain ⟨result, hresult, howns⟩ := ih h
        rw [hresult, Machine.ok_bind]
        exact ⟨_, rfl, howns⟩

theorem admit_owns (env : Env) (config : SchedulerConfig) {blockManager : BlockManager}
    (h : blockManager.Owns []) (waiting : List Request) (before : ℕ) :
    ∃ admission, admitWaiting env config blockManager waiting before = .ok admission ∧
      admission.blockManager.Owns [] := by
  induction waiting generalizing blockManager before with
  | nil => exact ⟨_, rfl, h⟩
  | cons req waiting ih =>
      rw [admitWaiting]
      split
      · exact ⟨_, rfl, h⟩
      · obtain ⟨manager, result, hallocate, howns, hcached⟩ :=
          BlockManager.allocateWithPrefix_owns env h req.id req.promptTokens
        rw [hallocate, Machine.ok_bind]
        cases result with
        | none => exact ⟨_, rfl, howns⟩
        | some pair =>
            obtain ⟨blocks, cachedLen⟩ := pair
            have hle : (req.startAt cachedLen).prefillCursor ≤
                (req.startAt cachedLen).promptTokens.length := hcached blocks cachedLen rfl
            simp only [checkedSub_of_le hle, Machine.ok_bind]
            split
            · obtain ⟨rest, hrest, hrestOwns⟩ :=
                ih howns (before + (req.startAt cachedLen).chunkSize config)
              rw [hrest, Machine.ok_bind]
              exact ⟨_, rfl, hrestOwns⟩
            · obtain ⟨rest, hrest, hrestOwns⟩ := ih howns (before + 1)
              rw [hrest, Machine.ok_bind]
              exact ⟨_, rfl, hrestOwns⟩

theorem schedule_owns (env : Env) (now : Instant) {scheduler : Scheduler}
    (h : scheduler.blockManager.Owns []) :
    ∃ result, scheduler.schedule env now = .ok result ∧ result.1.blockManager.Owns [] := by
  obtain ⟨⟨blockManager, kept⟩, hexpire, hkept⟩ :=
    expireRunning_owns env now h scheduler.runningQueue
  obtain ⟨admission, hloop, howns⟩ := admit_owns env scheduler.config hkept
    (scheduler.waitingQueue.filter fun req => ¬ req.Expired now)
    (selectPrefills scheduler.config (markDecodes kept)
      ((kept.filter fun req => req.Prefilled).map (·.id)).length).2.2
  simp only [schedule, hexpire, Machine.ok_bind, hloop]
  exact ⟨_, rfl, howns⟩

/-- **No call of the scheduler panics**, and every call keeps the ledger of the blocks sound. -/
theorem exec_owns (env : Env) {scheduler : Scheduler} (h : scheduler.blockManager.Owns [])
    (call : Call) :
    ∃ scheduler', scheduler.exec env call = .ok scheduler' ∧
      scheduler'.blockManager.Owns [] := by
  cases call with
  | addRequest request => exact ⟨_, rfl, h⟩
  | schedule now =>
      obtain ⟨result, hschedule, howns⟩ := schedule_owns env now h
      exact ⟨result.1, by rw [exec, hschedule]; rfl, howns⟩
  | advancePrefillCursor requestId => exact ⟨_, rfl, h⟩
  | finishRequest requestId =>
      rw [exec, finishRequest]
      split
      · obtain ⟨blockManager, hfree, howns⟩ := BlockManager.free_owns env h requestId
        rw [hfree, Machine.ok_bind]
        exact ⟨_, rfl, howns⟩
      · exact ⟨scheduler, rfl, h⟩

theorem history_owns (env : Env) {blockSize : ℕ} (hsize : 0 < blockSize) (numGpuBlocks : ℕ)
    (config : SchedulerConfig) (calls : List Call) :
    ∃ scheduler, history env blockSize numGpuBlocks config calls = .ok scheduler ∧
      scheduler.blockManager.Owns [] :=
  Machine.run_progress (P := fun _ _ => True)
    (I := fun scheduler : Scheduler => scheduler.blockManager.Owns [])
    (fun _ call h _ => exec_owns env h call) (BlockManager.new_owns env hsize numGpuBlocks)
    (Machine.along_true _ _)

/-! ### The idle engine -/

/-- With nothing running, a `schedule` is the admission loop on what is not expired. -/
theorem schedule_idle {env : Env} {now : Instant} {scheduler scheduler' : Scheduler}
    {toPrefill toDecode : List RequestId} (hidle : scheduler.runningQueue = [])
    (h : scheduler.schedule env now = .ok (scheduler', toPrefill, toDecode)) :
    ∃ admission, admitWaiting env scheduler.config scheduler.blockManager
        (scheduler.waitingQueue.filter fun req => ¬ req.Expired now) 0 = .ok admission ∧
      scheduler'.runningQueue = admission.admitted := by
  rw [schedule, hidle] at h
  obtain ⟨⟨blockManager, kept⟩, hexpire, h⟩ := Machine.bind_eq_ok.mp h
  cases hexpire
  obtain ⟨admission, hloop, heq⟩ := Machine.bind_eq_ok.mp h
  cases heq
  exact ⟨admission, hloop, rfl⟩

/-- The first waiting request is admitted exactly when its allocation succeeds. -/
theorem admit_first_iff {env : Env} {config : SchedulerConfig} {blockManager : BlockManager}
    (howns : blockManager.Owns []) {req : Request} {waiting : List Request} {before : ℕ}
    (hbudget : before < config.maxTokensPerIter) {admission : Admission}
    (h : admitWaiting env config blockManager (req :: waiting) before = .ok admission) :
    (∃ next ∈ admission.admitted, req.AdmittedAs next) ↔
      blockManager.Fits env req.promptTokens := by
  rcases admit_cons h with ⟨hspent, _⟩ | ⟨_, _, hallocate, rfl⟩ |
    ⟨_, _, _, cachedLen, next, _, hallocate, hle, hnext, _, rfl⟩
  · exact absurd hbudget (Nat.not_lt.mpr hspent)
  · have hnone := BlockManager.allocateWithPrefix_isSome_iff env howns hallocate
    simpa using hnone
  · have hsome := BlockManager.allocateWithPrefix_isSome_iff env howns hallocate
    exact ⟨fun _ => hsome.mp rfl,
      fun _ => ⟨next, List.mem_cons_self, cachedLen, _, hle, hnext⟩⟩

/-- **An idle engine admits the first request if and only if its prompt fits**: the blocks the
prompt needs beyond its hit are free, or a single eviction makes them so. -/
theorem idle_admits_iff_fits (env : Env) {blockSize : ℕ} (hsize : 0 < blockSize)
    (numGpuBlocks : ℕ) {config : SchedulerConfig} (hbudget : 0 < config.maxTokensPerIter)
    (calls : List Call) :
    ∃ scheduler, history env blockSize numGpuBlocks config calls = .ok scheduler ∧
      ∀ now req rest, scheduler.runningQueue = [] →
        (scheduler.waitingQueue.filter fun req => ¬ req.Expired now) = req :: rest →
        ∃ scheduler' toPrefill toDecode,
          scheduler.schedule env now = .ok (scheduler', toPrefill, toDecode) ∧
          ((∃ next ∈ scheduler'.runningQueue, req.AdmittedAs next) ↔
            scheduler.blockManager.Fits env req.promptTokens) := by
  obtain ⟨scheduler, hrun, howns⟩ := history_owns env hsize numGpuBlocks config calls
  have hconfig : scheduler.config = config := history_config hrun
  refine ⟨scheduler, hrun, fun now req rest hidle hfirst => ?_⟩
  obtain ⟨⟨scheduler', toPrefill, toDecode⟩, hschedule, _⟩ := schedule_owns env now howns
  obtain ⟨admission, hloop, hrunning⟩ := schedule_idle hidle hschedule
  rw [hfirst] at hloop
  refine ⟨scheduler', toPrefill, toDecode, hschedule, ?_⟩
  rw [hrunning]
  exact admit_first_iff howns (hconfig ▸ hbudget) hloop

/-- A new request is admitted by an engine on which nothing has run. -/
theorem idle_admits_iff_fits_fresh :
    ∃ scheduler, history .counting 4 3 ⟨6, 4⟩ [.addRequest (makeReq 1 5 50)] = .ok scheduler ∧
      ∃ result, scheduler.schedule .counting 0 = .ok result ∧
        ∃ next ∈ result.1.runningQueue, (makeReq 1 5 50).AdmittedAs next := by
  obtain ⟨scheduler, hrun, hadmits⟩ := @idle_admits_iff_fits .counting 4 (by decide) 3 ⟨6, 4⟩
    (by decide) [.addRequest (makeReq 1 5 50)]
  have hstate : ∃ scheduler,
      history .counting 4 3 ⟨6, 4⟩ [.addRequest (makeReq 1 5 50)] = .ok scheduler ∧
      scheduler.runningQueue = [] ∧
      (scheduler.waitingQueue.filter fun req => ¬ req.Expired 0) = [makeReq 1 5 50] ∧
      scheduler.blockManager.Fits .counting (makeReq 1 5 50).promptTokens := by
    decide +kernel
  obtain ⟨same, hsame, hidle, hfirst, hfits⟩ := hstate
  rw [hrun] at hsame
  cases hsame
  obtain ⟨scheduler', toPrefill, toDecode, hschedule, hiff⟩ := hadmits 0 _ [] hidle hfirst
  exact ⟨scheduler, hrun, _, hschedule, hiff.mpr hfits⟩

/-- A request of two blocks leaves an engine of three blocks with one, and an engine of two
single-block nodes in its cache evicts only one of them. Both have nothing running and refuse a
prompt that the memory holds. -/
theorem idle_refuses :
    (∃ scheduler, history .counting 4 3 ⟨6, 4⟩ [.addRequest (makeReq 1 5 50), .schedule 0,
        .finishRequest 1, .addRequest (makeReq 2 9 50), .schedule 0, .schedule 0] =
          .ok scheduler ∧
      scheduler.runningQueue = [] ∧
      (scheduler.waitingQueue.filter fun req => ¬ req.Expired 0) = [makeReq 2 9 50] ∧
      (9 + 4 - 1) / 4 ≤ scheduler.blockManager.numGpuBlocks ∧
      ∃ result, scheduler.schedule .counting 0 = .ok result ∧ result.1.runningQueue = []) ∧
    ∃ scheduler, history .counting 4 6 ⟨6, 4⟩
        [.addRequest { makeReq 1 0 50 with promptTokens := [7] },
        .schedule 0, .finishRequest 1, .addRequest { makeReq 2 0 50 with promptTokens := [9] },
        .schedule 0, .finishRequest 2, .addRequest (makeReq 3 24 50)] = .ok scheduler ∧
      scheduler.runningQueue = [] ∧
      (scheduler.waitingQueue.filter fun req => ¬ req.Expired 0) = [makeReq 3 24 50] ∧
      (24 + 4 - 1) / 4 ≤ scheduler.blockManager.numGpuBlocks ∧
      ∃ result, scheduler.schedule .counting 0 = .ok result ∧ result.1.runningQueue = [] := by
  decide +kernel

end Scheduler
end Kyro
