import Kyro.Proof.Scheduler.Order
import Kyro.Proof.Radix.Cache

/-!
# The tables of the block manager

The block manager has an entry for exactly the running requests: their blocks and their prompts.
The two are kept in step by the scheduler, which allocates on admission and frees on expiry and at
the end of a request.
-/

namespace Kyro

namespace BlockManager

variable {env : Env} {manager manager' : BlockManager} {id : RequestId}

/-- `free` takes both entries of a request that has blocks. -/
theorem free_tables (h : manager.free env id = .ok manager') :
    (id ∉ manager.blockTable ∧ manager' = manager) ∨
      (manager'.blockTable = manager.blockTable.erase id ∧
        manager'.promptTable = manager.promptTable.erase id) := by
  rw [free] at h
  split at h
  · rename_i hnone
    cases h
    exact Or.inl ⟨AList.lookup_eq_none.mp hnone, rfl⟩
  · apply Or.inr
    obtain ⟨refCounts, _, h⟩ := Machine.bind_eq_ok.mp h
    split at h
    · obtain ⟨pinned, _, h⟩ := Machine.bind_eq_ok.mp h
      obtain ⟨radixCache, _, h⟩ := Machine.bind_eq_ok.mp h
      cases h
      exact ⟨rfl, rfl⟩
    · obtain ⟨freeGpuBlocks, _, h⟩ := Machine.bind_eq_ok.mp h
      cases h
      exact ⟨rfl, rfl⟩

theorem pinPrefix_tables {promptTokens : List Token} {result : BlockManager × List BlockId × ℕ}
    (h : manager.pinPrefix env promptTokens = .ok result) :
    result.1.blockTable = manager.blockTable ∧ result.1.promptTable = manager.promptTable := by
  obtain ⟨refCounts, _, h⟩ := Machine.bind_eq_ok.mp h
  cases h
  exact ⟨rfl, rfl⟩

theorem makeRoom_tables {needed : ℕ} (h : manager.makeRoom env needed = .ok manager') :
    manager'.blockTable = manager.blockTable ∧ manager'.promptTable = manager.promptTable := by
  rw [makeRoom] at h
  split at h
  · obtain ⟨⟨radixCache, evicted⟩, _, h⟩ := Machine.bind_eq_ok.mp h
    obtain ⟨⟨refCounts, freeGpuBlocks⟩, _, h⟩ := Machine.bind_eq_ok.mp h
    cases h
    exact ⟨rfl, rfl⟩
  · cases h
    exact ⟨rfl, rfl⟩

/-- An allocation that succeeds makes both entries, and one that fails makes none. -/
theorem allocateWithPrefix_tables {promptTokens : List Token}
    {result : Option (List BlockId × ℕ)}
    (h : manager.allocateWithPrefix env id promptTokens = .ok (manager', result)) :
    (result = none ∧ manager'.blockTable = manager.blockTable ∧
      manager'.promptTable = manager.promptTable) ∨
    (result ≠ none ∧ ∃ blocks, manager'.blockTable = manager.blockTable.insert id blocks ∧
      manager'.promptTable = manager.promptTable.insert id promptTokens) := by
  obtain ⟨⟨pinned, cachedBlocks, cachedLen⟩, hpin, h⟩ := Machine.bind_eq_ok.mp h
  obtain ⟨needed, _, h⟩ := Machine.bind_eq_ok.mp h
  obtain ⟨roomy, hroom, h⟩ := Machine.bind_eq_ok.mp h
  obtain ⟨hpinBlocks, hpinPrompt⟩ := pinPrefix_tables hpin
  obtain ⟨hroomBlocks, hroomPrompt⟩ := makeRoom_tables hroom
  have hblocks : roomy.blockTable = manager.blockTable := hroomBlocks.trans hpinBlocks
  have hprompt : roomy.promptTable = manager.promptTable := hroomPrompt.trans hpinPrompt
  dsimp only at h
  split at h
  · obtain ⟨refCounts, _, h⟩ := Machine.bind_eq_ok.mp h
    cases h
    exact Or.inl ⟨rfl, hblocks, hprompt⟩
  · obtain ⟨⟨refCounts, freeGpuBlocks, newBlocks⟩, _, h⟩ := Machine.bind_eq_ok.mp h
    cases h
    apply Or.inr
    rw [← hblocks, ← hprompt]
    exact ⟨Option.some_ne_none _, _, rfl, rfl⟩

/-- The tables have the blocks and the prompts of exactly these requests. -/
structure Tables (manager : BlockManager) (reqs : List Request) : Prop where
  blocks : ∀ id, id ∈ manager.blockTable ↔ id ∈ ids reqs
  prompts : ∀ id, id ∈ manager.promptTable ↔ id ∈ ids reqs
  prompt : ∀ req ∈ reqs, manager.promptTable.lookup req.id = some req.promptTokens

theorem new_tables (env : Env) (blockSize numGpuBlocks : ℕ) :
    (new env blockSize numGpuBlocks).Tables [] where
  blocks id := ⟨fun h => absurd h (AList.notMem_empty id), fun h => by cases h⟩
  prompts id := ⟨fun h => absurd h (AList.notMem_empty id), fun h => by cases h⟩
  prompt req hreq := by cases hreq

/-- Only the ids and the prompts matter. -/
theorem Tables.congr {reqs reqs' : List Request} (h : manager.Tables reqs)
    (hids : ∀ id, id ∈ ids reqs' ↔ id ∈ ids reqs)
    (hprompt : ∀ req' ∈ reqs', ∃ req ∈ reqs, req.id = req'.id ∧
      req.promptTokens = req'.promptTokens) : manager.Tables reqs' where
  blocks id := (h.blocks id).trans (hids id).symm
  prompts id := (h.prompts id).trans (hids id).symm
  prompt req' hreq' := by
    obtain ⟨req, hreq, hid, heq⟩ := hprompt req' hreq'
    rw [← hid, ← heq]
    exact h.prompt req hreq

theorem Tables.of_eq {reqs : List Request} (h : manager.Tables reqs)
    (hblocks : manager'.blockTable = manager.blockTable)
    (hprompts : manager'.promptTable = manager.promptTable) : manager'.Tables reqs where
  blocks id := by rw [hblocks, h.blocks]
  prompts id := by rw [hprompts, h.prompts]
  prompt req hreq := by rw [hprompts, h.prompt req hreq]

/-- The tables after a request has been freed. -/
theorem Tables.free {reqs reqs' : List Request} (h : manager.Tables reqs)
    (hfree : manager.free env id = .ok manager')
    (hreqs : ∀ req, req ∈ reqs' ↔ req ∈ reqs ∧ req.id ≠ id) : manager'.Tables reqs' := by
  have hids : ∀ other, other ∈ ids reqs' ↔ other ≠ id ∧ other ∈ ids reqs := by
    intro other
    rw [mem_ids, mem_ids]
    constructor
    · rintro ⟨req, hreq, rfl⟩
      exact ⟨((hreqs req).mp hreq).2, req, ((hreqs req).mp hreq).1, rfl⟩
    · rintro ⟨hne, req, hreq, rfl⟩
      exact ⟨req, (hreqs req).mpr ⟨hreq, hne⟩, rfl⟩
  rcases free_tables hfree with ⟨hnot, rfl⟩ | ⟨hblocks, hprompts⟩
  · apply h.congr
    · intro other
      rw [hids]
      apply and_iff_right_of_imp
      rintro hother rfl
      exact hnot ((h.blocks other).mpr hother)
    · intro req hreq
      exact ⟨req, ((hreqs req).mp hreq).1, rfl, rfl⟩
  · refine ⟨?_, ?_, ?_⟩
    · intro other
      rw [hblocks, AList.mem_erase, h.blocks, hids]
    · intro other
      rw [hprompts, AList.mem_erase, h.prompts, hids]
    · intro req hreq
      obtain ⟨hmem, hne⟩ := (hreqs req).mp hreq
      rw [hprompts, AList.lookup_erase_ne hne]
      exact h.prompt req hmem

/-- The tables after an allocation for a request that is not among these. -/
theorem Tables.insert {reqs : List Request} (h : manager.Tables reqs) {req : Request}
    (hnew : req.id ∉ ids reqs) {blocks : List BlockId}
    (hblocks : manager'.blockTable = manager.blockTable.insert req.id blocks)
    (hprompts : manager'.promptTable = manager.promptTable.insert req.id req.promptTokens) :
    manager'.Tables (reqs ++ [req]) := by
  refine ⟨?_, ?_, ?_⟩
  · intro other
    rw [hblocks, AList.mem_insert, h.blocks, ids_append, List.mem_append, or_comm]
    exact or_congr_right List.mem_singleton.symm
  · intro other
    rw [hprompts, AList.mem_insert, h.prompts, ids_append, List.mem_append, or_comm]
    exact or_congr_right List.mem_singleton.symm
  · intro other hother
    rw [hprompts]
    rcases List.mem_append.mp hother with hold | hother
    · have hne : other.id ≠ req.id := by
        intro heq
        exact hnew (heq ▸ mem_ids.mpr ⟨other, hold, rfl⟩)
      rw [AList.lookup_insert_ne hne]
      exact h.prompt other hold
    · rw [List.mem_singleton.mp hother, AList.lookup_insert]

end BlockManager

namespace Scheduler

open BlockManager

variable {env : Env} {now : Instant} {blockManager blockManager' : BlockManager}

/-- The `retain` of `schedule` takes the entries of what it drops. -/
theorem expireRunning_tables (others : List Request) {reqs kept : List Request}
    (hnodup : (ids (others ++ reqs)).Nodup) (htables : blockManager.Tables (others ++ reqs))
    (h : expireRunning env now blockManager reqs = .ok (blockManager', kept)) :
    blockManager'.Tables (others ++ kept) := by
  induction reqs generalizing others blockManager kept with
  | nil =>
      cases h
      exact htables
  | cons req reqs ih =>
      rw [expireRunning] at h
      by_cases hexpired : req.Expired now
      · rw [if_pos hexpired] at h
        obtain ⟨freed, hfree, h⟩ := Machine.bind_eq_ok.mp h
        have hrest : (ids (others ++ reqs)).Nodup ∧ req.id ∉ ids (others ++ reqs) := by
          have hperm : (ids (others ++ req :: reqs)).Perm (req.id :: ids (others ++ reqs)) :=
            List.perm_middle.map _
          exact (List.nodup_cons.mp (hperm.nodup_iff.mp hnodup)).symm
        apply ih others hrest.1 _ h
        apply htables.free hfree
        intro other
        rw [List.mem_append, List.mem_append, List.mem_cons]
        constructor
        · intro hother
          refine ⟨hother.imp_right Or.inr, fun hid => ?_⟩
          exact hrest.2 (mem_ids.mpr ⟨other, List.mem_append.mpr hother, hid⟩)
        · rintro ⟨hother | rfl | hother, hne⟩
          · exact Or.inl hother
          · exact absurd rfl hne
          · exact Or.inr hother
      · rw [if_neg hexpired] at h
        obtain ⟨⟨next, rest⟩, hloop, heq⟩ := Machine.bind_eq_ok.mp h
        cases heq
        rw [List.append_cons] at hnodup htables ⊢
        exact ih _ hnodup htables hloop

/-- The admission loop makes the entries of what it admits. -/
theorem admit_tables {config : SchedulerConfig} {reqs waiting : List Request} {before : ℕ}
    {admission : Admission} (hnodup : (ids (reqs ++ waiting)).Nodup)
    (htables : blockManager.Tables reqs)
    (h : admitWaiting env config blockManager waiting before = .ok admission) :
    admission.blockManager.Tables (reqs ++ admission.admitted) := by
  induction waiting generalizing reqs blockManager before admission with
  | nil =>
      cases h
      rwa [List.append_nil]
  | cons req waiting ih =>
      rcases admit_cons h with ⟨_, rfl⟩ | ⟨_, manager, hallocate, rfl⟩ |
        ⟨_, manager, blocks, cachedLen, next, rest, hallocate, _, rfl, hloop, rfl⟩
      · rwa [List.append_nil]
      · rw [List.append_nil]
        rcases allocateWithPrefix_tables hallocate with ⟨_, hblocks, hprompts⟩ | ⟨hsome, _⟩
        · exact htables.of_eq hblocks hprompts
        · exact absurd rfl hsome
      · rcases allocateWithPrefix_tables hallocate with ⟨hnone, _⟩ | ⟨_, blocks, hblocks, hprompts⟩
        · cases hnone
        · rw [List.append_cons] at hnodup
          have hnew : req.id ∉ ids reqs := by
            rw [ids_append, ids_append, List.append_assoc] at hnodup
            intro hid
            exact (List.nodup_append.mp hnodup).2.2 _ hid _ List.mem_cons_self rfl
          have hnext : manager.Tables (reqs ++ [(req.startAt cachedLen).setPrefill
              (cachedLen < req.promptTokens.length)]) :=
            htables.insert hnew hblocks hprompts
          rw [List.append_cons]
          apply ih _ hnext hloop
          rw [ids_append, ids_append] at hnodup ⊢
          exact hnodup

/-- A `schedule` keeps the tables in step with the running queue. -/
theorem schedule_tables {scheduler scheduler' : Scheduler} {toPrefill toDecode : List RequestId}
    (hnodup : (ids (scheduler.runningQueue ++ scheduler.waitingQueue)).Nodup)
    (htables : scheduler.blockManager.Tables scheduler.runningQueue)
    (h : scheduler.schedule env now = .ok (scheduler', toPrefill, toDecode)) :
    scheduler'.blockManager.Tables scheduler'.runningQueue := by
  obtain ⟨⟨expired, kept⟩, hexpire, h⟩ := Machine.bind_eq_ok.mp h
  obtain ⟨admission, hloop, heq⟩ := Machine.bind_eq_ok.mp h
  obtain ⟨selected, hselects⟩ := selectPrefills_spec scheduler.config (markDecodes kept)
    ((kept.filter fun req => req.Prefilled).map (·.id)).length
  have hunmarked := hselects.unmarked.trans (markDecodes_unmarked kept)
  have hkept := expireRunning_kept hexpire
  have hstays : expired.Tables (selectPrefills scheduler.config (markDecodes kept)
      ((kept.filter fun req => req.Prefilled).map (·.id)).length).1 := by
    have hexpired : expired.Tables kept := by
      rw [ids_append] at hnodup
      exact expireRunning_tables [] (List.nodup_append.mp hnodup).1 htables hexpire
    apply hexpired.congr
    · intro id
      rw [ids_of_unmarked hunmarked]
    · intro req hreq
      obtain ⟨old, hold, heq⟩ := exists_of_unmarked hunmarked hreq
      exact ⟨old, hold, (Request.id_of_unmarked heq).symm,
        (Request.promptTokens_of_unmarked heq).symm⟩
  cases heq
  apply admit_tables _ hstays hloop
  rw [ids_append, ids_of_unmarked hunmarked, hkept, ← ids_append]
  exact hnodup.sublist ((List.filter_sublist.append List.filter_sublist).map _)

theorem finishRequest_tables {scheduler scheduler' : Scheduler}
    (hnodup : (ids scheduler.runningQueue).Nodup)
    (htables : scheduler.blockManager.Tables scheduler.runningQueue) {id : RequestId}
    (h : scheduler.finishRequest env id = .ok scheduler') :
    scheduler'.blockManager.Tables scheduler'.runningQueue := by
  rw [finishRequest] at h
  split at h
  · obtain ⟨blockManager, hfree, heq⟩ := Machine.bind_eq_ok.mp h
    cases heq
    apply htables.free hfree
    intro req
    rw [eraseP_eq_filter hnodup, List.mem_filter, decide_eq_true_eq]
  · cases h
    exact htables

/-- **Every call keeps the tables in step with the running queue**, as long as the ids are
distinct. -/
theorem exec_tables {scheduler scheduler' : Scheduler} {call : Call}
    (hnodup : (ids (scheduler.runningQueue ++ scheduler.waitingQueue)).Nodup)
    (htables : scheduler.blockManager.Tables scheduler.runningQueue)
    (h : scheduler.exec env call = .ok scheduler') :
    scheduler'.blockManager.Tables scheduler'.runningQueue := by
  cases call with
  | addRequest request =>
      cases h
      exact htables
  | schedule now =>
      obtain ⟨_, _, hschedule⟩ := exec_schedule h
      exact schedule_tables hnodup htables hschedule
  | advancePrefillCursor id =>
      cases h
      apply htables.congr
      · intro other
        rw [advancePrefillCursor, ids_updateRequest]
        exact fun _ => rfl
      · intro req hreq
        obtain ⟨old, hold, rfl | rfl⟩ := exists_of_mem_updateRequest hreq
        · exact ⟨req, hold, rfl, rfl⟩
        · exact ⟨old, hold, rfl, rfl⟩
  | finishRequest id =>
      rw [ids_append] at hnodup
      exact finishRequest_tables (List.nodup_append.mp hnodup).1 htables h

/-! ### The positions in the prompts -/

/-- The hit and the cursor of a request are positions in its prompt. -/
def Within (req : Request) : Prop :=
  req.cachedPrefixLen ≤ req.promptTokens.length ∧ req.prefillCursor ≤ req.promptTokens.length

theorem exec_within {scheduler scheduler' : Scheduler} {call : Call}
    (hwithin : ∀ req ∈ scheduler.runningQueue, Within req)
    (h : scheduler.exec env call = .ok scheduler') :
    ∀ req ∈ scheduler'.runningQueue, Within req := by
  cases call with
  | addRequest request =>
      cases h
      exact hwithin
  | schedule now =>
      obtain ⟨_, _, hschedule⟩ := exec_schedule h
      obtain ⟨_, _, _, _, hspec⟩ := schedule_spec hschedule
      apply hspec.forall_running (fun _ => Iff.rfl) hwithin
      rintro req _ _ ⟨cachedLen, _, hle, rfl⟩
      exact ⟨hle, hle⟩
  | advancePrefillCursor id =>
      cases h
      intro req hreq
      obtain ⟨old, hold, rfl | rfl⟩ := exists_of_mem_updateRequest hreq
      · exact hwithin req hold
      · exact ⟨(hwithin old hold).1, Nat.min_le_right _ _⟩
  | finishRequest id =>
      rw [exec, finishRequest] at h
      split at h
      · obtain ⟨blockManager, _, heq⟩ := Machine.bind_eq_ok.mp h
        cases heq
        intro req hreq
        exact hwithin req (List.mem_of_mem_eraseP hreq)
      · cases h
        exact hwithin

end Scheduler

/-! ### The subtraction on admission

Only the admission loop subtracts prompt positions, and a hit is never longer than its prompt. -/

namespace RadixCache

theorem evictLru_ne_promptPosition (env : Env) (cache : RadixCache) :
    cache.evictLru env ≠ .error .promptPosition := by
  have hloop : ∀ fuel (cache : RadixCache) blocks,
      evictLoop env fuel cache blocks ≠ .error .promptPosition := by
    intro fuel
    induction fuel with
    | zero => exact fun _ _ h => by cases h
    | succ fuel ih =>
        intro cache blocks
        rw [evictLoop]
        split
        · exact fun h => by cases h
        · apply Machine.bind_ne_error (checkedSub_ne (by decide) _ _)
          intro numCachedBlocks _
          split
          · exact fun h => by cases h
          · exact ih _ _
  exact hloop _ _ _

theorem insert_ne_promptPosition (env : Env) (cache : RadixCache) (tokens : List Token)
    (blockIds : List BlockId) : cache.insert env tokens blockIds ≠ .error .promptPosition := by
  rw [insert]
  split
  · have hevict := evictLru_ne_promptPosition env (cache.attach env tokens blockIds)
    cases hresult : (cache.attach env tokens blockIds).evictLru env with
    | error fault =>
        intro h
        cases h
        exact hevict hresult
    | ok result => exact fun h => by cases h
  · exact fun h => by cases h

end RadixCache

namespace BlockManager

theorem pushUnreferenced_ne_promptPosition (refCounts : List ℕ) (free blocks : List BlockId) :
    pushUnreferenced refCounts free blocks ≠ .error .promptPosition := by
  induction blocks generalizing free with
  | nil => exact fun h => by cases h
  | cons block blocks ih =>
      apply Machine.bind_ne_error (orPanic_ne (by decide) _)
      intro count _
      exact ih _

theorem free_ne_promptPosition (env : Env) (manager : BlockManager) (id : RequestId) :
    manager.free env id ≠ .error .promptPosition := by
  rw [free]
  split
  · exact fun h => by cases h
  · apply Machine.bind_ne_error (orPanic_ne (by decide) _)
    intro refCounts _
    split
    · apply Machine.bind_ne_error (orPanic_ne (by decide) _)
      intro pinned _
      apply Machine.bind_ne_error (RadixCache.insert_ne_promptPosition _ _ _ _)
      exact fun _ _ h => by cases h
    · apply Machine.bind_ne_error (pushUnreferenced_ne_promptPosition _ _ _)
      exact fun _ _ h => by cases h

theorem allocateWithPrefix_ne_promptPosition (env : Env) (manager : BlockManager)
    (id : RequestId) (promptTokens : List Token) :
    manager.allocateWithPrefix env id promptTokens ≠ .error .promptPosition := by
  rw [allocateWithPrefix, pinPrefix]
  apply Machine.bind_ne_error
  · apply Machine.bind_ne_error (orPanic_ne (by decide) _)
    exact fun _ _ h => by cases h
  · intro pinned _
    apply Machine.bind_ne_error
    · rw [divCeil]
      split
      · exact fun h => by cases h
      · exact fun h => by cases h
    · intro needed _
      apply Machine.bind_ne_error
      · rw [makeRoom]
        split
        · apply Machine.bind_ne_error (RadixCache.evictLru_ne_promptPosition _ _)
          intro evicted _
          apply Machine.bind_ne_error (orPanic_ne (by decide) _)
          exact fun _ _ h => by cases h
        · exact fun h => by cases h
      · intro roomy _
        dsimp only
        split
        · apply Machine.bind_ne_error (orPanic_ne (by decide) _)
          exact fun _ _ h => by cases h
        · apply Machine.bind_ne_error (orPanic_ne (by decide) _)
          exact fun _ _ h => by cases h

theorem allocateWithPrefix_cached_le {env : Env} {manager manager' : BlockManager}
    {id : RequestId} {promptTokens : List Token} {blocks : List BlockId} {cachedLen : ℕ}
    (h : manager.allocateWithPrefix env id promptTokens =
      .ok (manager', some (blocks, cachedLen))) : cachedLen ≤ promptTokens.length := by
  obtain ⟨⟨pinned, cachedBlocks, hit⟩, hpin, h⟩ := Machine.bind_eq_ok.mp h
  obtain ⟨refCounts, _, heq⟩ := Machine.bind_eq_ok.mp hpin
  cases heq
  obtain ⟨needed, _, h⟩ := Machine.bind_eq_ok.mp h
  obtain ⟨roomy, _, h⟩ := Machine.bind_eq_ok.mp h
  dsimp only at h
  split at h
  · obtain ⟨refCounts, _, h⟩ := Machine.bind_eq_ok.mp h
    cases h
  · obtain ⟨taken, _, h⟩ := Machine.bind_eq_ok.mp h
    cases h
    exact manager.radixCache.matchPrefix_le env promptTokens

end BlockManager

namespace Scheduler

theorem expireRunning_ne_promptPosition (env : Env) (now : Instant) (blockManager : BlockManager)
    (reqs : List Request) :
    expireRunning env now blockManager reqs ≠ .error .promptPosition := by
  induction reqs generalizing blockManager with
  | nil => exact fun h => by cases h
  | cons req reqs ih =>
      rw [expireRunning]
      split
      · apply Machine.bind_ne_error (BlockManager.free_ne_promptPosition _ _ _)
        exact fun _ _ => ih _
      · apply Machine.bind_ne_error (ih _)
        exact fun _ _ h => by cases h

theorem admit_ne_promptPosition (env : Env) (config : SchedulerConfig)
    (blockManager : BlockManager) (waiting : List Request) (before : ℕ) :
    admitWaiting env config blockManager waiting before ≠ .error .promptPosition := by
  induction waiting generalizing blockManager before with
  | nil => exact fun h => by cases h
  | cons req waiting ih =>
      rw [admitWaiting]
      split
      · exact fun h => by cases h
      · apply Machine.bind_ne_error (BlockManager.allocateWithPrefix_ne_promptPosition _ _ _ _)
        rintro ⟨manager, result⟩ hallocate
        cases result with
        | none => exact fun h => by cases h
        | some pair =>
            have hle : (req.startAt pair.2).prefillCursor ≤
                (req.startAt pair.2).promptTokens.length :=
              BlockManager.allocateWithPrefix_cached_le hallocate
            dsimp only
            rw [checkedSub_of_le hle, Machine.ok_bind]
            split
            · apply Machine.bind_ne_error (ih _ _)
              exact fun _ _ h => by cases h
            · apply Machine.bind_ne_error (ih _ _)
              exact fun _ _ h => by cases h

theorem schedule_ne_promptPosition (env : Env) (now : Instant) (scheduler : Scheduler) :
    scheduler.schedule env now ≠ .error .promptPosition := by
  apply Machine.bind_ne_error (expireRunning_ne_promptPosition _ _ _ _)
  intro expired _
  apply Machine.bind_ne_error (admit_ne_promptPosition _ _ _ _ _)
  exact fun _ _ h => by cases h

/-! ### Runs -/

/-- **The scheduler and the block manager stay in step**: after every sequence of calls with
distinct ids, the two tables have entries for exactly the running requests, the prompts are theirs,
hits and cursors are positions in the prompts, and no `schedule` subtracts below zero. -/
theorem tables_in_step (env : Env) {blockSize numGpuBlocks : ℕ} {config : SchedulerConfig}
    {calls : List Call} (hdistinct : (arrivals calls).Nodup) {scheduler : Scheduler}
    (hrun : history env blockSize numGpuBlocks config calls = .ok scheduler) :
    (∀ id, id ∈ scheduler.blockManager.blockTable ↔ id ∈ ids scheduler.runningQueue) ∧
    (∀ id, id ∈ scheduler.blockManager.promptTable ↔ id ∈ ids scheduler.runningQueue) ∧
    (∀ req ∈ scheduler.runningQueue,
      scheduler.blockManager.promptTable.lookup req.id = some req.promptTokens ∧
      req.cachedPrefixLen ≤ req.promptTokens.length ∧
      req.prefillCursor ≤ req.promptTokens.length) ∧
    ∀ now, scheduler.schedule env now ≠ .error .promptPosition := by
  have hkept : (ids (scheduler.runningQueue ++ scheduler.waitingQueue)).Sublist (arrivals calls) ∧
      ((arrivals calls).Nodup → scheduler.blockManager.Tables scheduler.runningQueue) ∧
      ∀ req ∈ scheduler.runningQueue, Within req := by
    apply Machine.run_history (I := fun calls (s : Scheduler) =>
      (ids (s.runningQueue ++ s.waitingQueue)).Sublist (arrivals calls) ∧
        ((arrivals calls).Nodup → s.blockManager.Tables s.runningQueue) ∧
        ∀ req ∈ s.runningQueue, Within req) _ _ hrun
    · rintro calls s call s' ⟨hsub, htables, hwithin⟩ hexec
      rw [arrivals_snoc]
      refine ⟨(exec_ids hexec).1.trans (hsub.append_right _), ?_, exec_within hwithin hexec⟩
      intro hnodup
      have hbefore := hnodup.sublist (List.sublist_append_left _ _)
      exact exec_tables (hbefore.sublist hsub) (htables hbefore) hexec
    · refine ⟨List.Sublist.refl _, fun _ => BlockManager.new_tables env blockSize numGpuBlocks, ?_⟩
      intro req hreq
      cases hreq
  obtain ⟨_, htables, hwithin⟩ := hkept
  have hstep := htables hdistinct
  exact ⟨hstep.blocks, hstep.prompts, fun req hreq => ⟨hstep.prompt req hreq, hwithin req hreq⟩,
    fun now => schedule_ne_promptPosition env now scheduler⟩

theorem tables_in_step_two_requests :
    ∃ scheduler, history .counting 4 9 ⟨8, 4⟩
        [.addRequest (makeReq 1 5 50), .addRequest (makeReq 2 2 50), .schedule 0,
          .advancePrefillCursor 1, .finishRequest 2, .addRequest (makeReq 3 2 50)] =
          .ok scheduler ∧
      ids scheduler.runningQueue = [1] ∧
      ∀ id, id ∈ scheduler.blockManager.blockTable ↔ id ∈ ids scheduler.runningQueue := by
  have hrun : ∃ scheduler, history .counting 4 9 ⟨8, 4⟩
      [.addRequest (makeReq 1 5 50), .addRequest (makeReq 2 2 50), .schedule 0,
        .advancePrefillCursor 1, .finishRequest 2, .addRequest (makeReq 3 2 50)] = .ok scheduler ∧
      ids scheduler.runningQueue = [1] := by
    decide +kernel
  obtain ⟨scheduler, hrun, hids⟩ := hrun
  exact ⟨scheduler, hrun, hids, (tables_in_step .counting (by decide) hrun).1⟩

end Scheduler
end Kyro
