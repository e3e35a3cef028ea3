import Kyro.Proof.Worker.Chunks

/-!
# The cursor and the end of the chunk

The worker bounds a chunk by the rest of the prompt before it adds the chunk to the cursor, and
`advance_prefill_cursor` adds first and takes the minimum with the prompt afterwards. On machine
integers the two meet exactly as long as the sum does not wrap: a sum that wraps lands before the
cursor.
-/

namespace Kyro

namespace Request

variable {config : SchedulerConfig} {req : Request}

/-- `chunk_end` of `run_loop`. -/
def chunkEnd (config : SchedulerConfig) (req : Request) : ℕ :=
  req.prefillCursor + req.chunkSize config

/-- The chunk end is where the slice that the worker feeds ends. -/
theorem chunkEnd_eq_add_length (config : SchedulerConfig) (req : Request) :
    req.chunkEnd config = req.prefillCursor + (req.chunkItem config).input.length := by
  rw [chunkEnd, length_chunkItem_input]

theorem le_chunkEnd (config : SchedulerConfig) (req : Request) :
    req.prefillCursor ≤ req.chunkEnd config := Nat.le_add_right _ _

theorem chunkEnd_eq_min (hcursor : req.prefillCursor ≤ req.promptTokens.length) :
    req.chunkEnd config =
      min (req.prefillCursor + config.maxPrefillChunkSize) req.promptTokens.length := by
  rw [chunkEnd, chunkSize, ← Nat.add_min_add_left, Nat.add_sub_cancel' hcursor, Nat.min_comm]

/-- A sum that wraps lands before the cursor. -/
theorem nextCursor_lt (hmax : config.maxPrefillChunkSize < 2 ^ 64)
    (hcursor : req.prefillCursor < 2 ^ 64)
    (hwrap : 2 ^ 64 ≤ req.prefillCursor + config.maxPrefillChunkSize) :
    Scheduler.nextCursor config req < req.prefillCursor := by
  have hsum : wrappingAdd req.prefillCursor config.maxPrefillChunkSize =
      req.prefillCursor + config.maxPrefillChunkSize - 2 ^ 64 := by
    rw [wrappingAdd, Nat.mod_eq_sub_mod hwrap, Nat.mod_eq_of_lt]
    omega
  have hback : req.prefillCursor + config.maxPrefillChunkSize - 2 ^ 64 < req.prefillCursor := by
    omega
  calc Scheduler.nextCursor config req
      ≤ wrappingAdd req.prefillCursor config.maxPrefillChunkSize := Nat.min_le_left _ _
    _ < req.prefillCursor := hsum ▸ hback

theorem nextCursor_eq_chunkEnd_iff (hcursor : req.prefillCursor ≤ req.promptTokens.length)
    (hlength : req.promptTokens.length < 2 ^ 64) (hmax : config.maxPrefillChunkSize < 2 ^ 64) :
    Scheduler.nextCursor config req = req.chunkEnd config ↔
      req.prefillCursor + config.maxPrefillChunkSize < 2 ^ 64 := by
  constructor
  · intro heq
    by_contra hwrap
    have hlt := nextCursor_lt hmax (Nat.lt_of_le_of_lt hcursor hlength) (Nat.le_of_not_lt hwrap)
    rw [heq] at hlt
    exact Nat.not_lt.mpr (le_chunkEnd config req) hlt
  · intro hsum
    rw [Scheduler.nextCursor_of_lt hsum, chunkEnd_eq_min hcursor]

end Request

namespace Worker

theorem findRequest_cons (head : Request) (reqs : List Request) (id : RequestId) :
    findRequest (head :: reqs) id = if head.id = id then some head else findRequest reqs id := by
  rw [findRequest, List.find?_cons]
  by_cases hid : head.id = id
  · rw [decide_eq_true hid, if_pos hid]
  · rw [decide_eq_false hid, if_neg hid]
    rfl

theorem findRequest_updateRequest {f : Request → Request} (hf : ∀ req, (f req).id = req.id)
    (reqs : List Request) (id : RequestId) :
    findRequest (updateRequest id f reqs) id = (findRequest reqs id).map f := by
  induction reqs with
  | nil => rfl
  | cons head reqs ih =>
      rw [updateRequest, findRequest_cons]
      by_cases hid : head.id = id
      · rw [if_pos hid, if_pos hid, findRequest_cons, hf, if_pos hid]
        rfl
      · rw [if_neg hid, if_neg hid, findRequest_cons, if_neg hid, ih]

theorem findRequest_updateRequest_of_ne {f : Request → Request} (hf : ∀ req, (f req).id = req.id)
    (reqs : List Request) {id other : RequestId} (hne : other ≠ id) :
    findRequest (updateRequest id f reqs) other = findRequest reqs other := by
  induction reqs with
  | nil => rfl
  | cons head reqs ih =>
      rw [updateRequest]
      split
      · rw [findRequest_cons, findRequest_cons, hf]
        rename_i hid
        rw [hid, if_neg hne.symm, if_neg hne.symm]
      · rw [findRequest_cons, findRequest_cons, ih]

/-- Pushing the results of a batch moves no cursor. -/
theorem findRequest_pushResults {reqs : List Request} {id : RequestId} {req : Request}
    (hfind : findRequest reqs id = some req) (results : List ComputeResult) :
    ∃ answered, findRequest (pushResults reqs results).1 id = some answered ∧
      answered.promptTokens = req.promptTokens ∧ answered.prefillCursor = req.prefillCursor := by
  induction results generalizing reqs req with
  | nil => exact ⟨req, hfind, rfl, rfl⟩
  | cons res results ih =>
      rw [pushResults]
      cases hres : findRequest reqs res.reqId with
      | none => exact ih hfind
      | some found =>
          have hpush : ∀ req, (Request.pushToken res.token req).id = req.id := fun _ => rfl
          by_cases hid : id = res.reqId
          · subst hid
            have hfound : findRequest (updateRequest res.reqId (Request.pushToken res.token) reqs)
                res.reqId = some (req.pushToken res.token) := by
              rw [findRequest_updateRequest hpush, hfind]
              rfl
            obtain ⟨answered, hanswered, hsame⟩ := ih hfound
            exact ⟨answered, hanswered, hsame⟩
          · refine ih ?_
            rw [findRequest_updateRequest_of_ne hpush reqs hid, hfind]

end Worker

namespace Scheduler

open Worker

/-- The scheduler when the cursors are moved: the API has added requests since the batch was built,
and the results of the batch are pushed. -/
def afterBatch (scheduler : Scheduler) (added : List Request) (results : List ComputeResult) :
    Scheduler :=
  { scheduler with
    waitingQueue := scheduler.waitingQueue ++ added
    runningQueue := (pushResults scheduler.runningQueue results).1 }

/-- The request with this id after `advance_prefill_cursor`. -/
theorem findRequest_advancePrefillCursor (scheduler : Scheduler) {id : RequestId} {req : Request}
    (hfind : findRequest scheduler.runningQueue id = some req) :
    findRequest (scheduler.advancePrefillCursor id).runningQueue id =
      some (req.advanced scheduler.config) := by
  have hkept : ∀ req : Request, (req.advanced scheduler.config).id = req.id := fun _ => rfl
  calc findRequest (scheduler.advancePrefillCursor id).runningQueue id
      = (findRequest scheduler.runningQueue id).map (·.advanced scheduler.config) :=
        findRequest_updateRequest hkept scheduler.runningQueue id
    _ = some (req.advanced scheduler.config) := congrArg _ hfind

/-- **The cursor moves to the end of the chunk exactly if the sum does not wrap.** -/
theorem cursor_reaches_chunkEnd_iff {scheduler : Scheduler} {id : RequestId} {req : Request}
    (hfind : findRequest scheduler.runningQueue id = some req)
    (hcursor : req.prefillCursor ≤ req.promptTokens.length)
    (hlength : req.promptTokens.length < 2 ^ 64)
    (hmax : scheduler.config.maxPrefillChunkSize < 2 ^ 64)
    (added : List Request) (results : List ComputeResult) :
    (∃ moved, findRequest
        ((scheduler.afterBatch added results).advancePrefillCursor id).runningQueue id =
          some moved ∧
      moved.prefillCursor = req.chunkEnd scheduler.config ∧
      req.prefillCursor ≤ moved.prefillCursor) ↔
    req.prefillCursor + scheduler.config.maxPrefillChunkSize < 2 ^ 64 := by
  obtain ⟨answered, hanswered, hprompt, hsame⟩ := findRequest_pushResults hfind results
  have hmoved : findRequest
      ((scheduler.afterBatch added results).advancePrefillCursor id).runningQueue id =
        some (answered.advanced scheduler.config) :=
    findRequest_advancePrefillCursor _ hanswered
  have hnext : (answered.advanced scheduler.config).prefillCursor =
      nextCursor scheduler.config req := by
    rw [Request.advanced, nextCursor, nextCursor, hprompt, hsame]
  rw [← Request.nextCursor_eq_chunkEnd_iff hcursor hlength hmax, ← hnext]
  constructor
  · rintro ⟨moved, hfound, hend, _⟩
    obtain rfl : moved = answered.advanced scheduler.config :=
      Option.some.inj (hfound.symm.trans hmoved)
    exact hend
  · intro hend
    exact ⟨_, hmoved, hend, hend ▸ Request.le_chunkEnd _ _⟩

/-- A scheduler that runs one request of six tokens, four of which are cached. -/
def halfway (maxPrefillChunkSize : ℕ) : Scheduler :=
  { new (BlockManager.new .counting 4 9) ⟨8, maxPrefillChunkSize⟩ with
    runningQueue := [(makeReq 1 6 2).startAt 4] }

theorem cursor_reaches_chunkEnd_halfway :
    ∃ moved, findRequest (((halfway 4).afterBatch [makeReq 2 3 1]
        [⟨1, 7, true⟩]).advancePrefillCursor 1).runningQueue 1 = some moved ∧
      moved.prefillCursor = 6 ∧ 4 ≤ moved.prefillCursor := by
  have hfind : findRequest (halfway 4).runningQueue 1 = some ((makeReq 1 6 2).startAt 4) := by
    decide
  exact (cursor_reaches_chunkEnd_iff hfind (by decide) (by decide) (by decide) [makeReq 2 3 1]
    [⟨1, 7, true⟩]).mpr (by decide)

/-- With the largest chunk size a hit of six tokens out of eight is followed by a cursor of five. -/
theorem cursor_goes_back :
    ∃ scheduler, history .counting 4 9 ⟨8, 2 ^ 64 - 1⟩
        [.addRequest (makeReq 1 6 1), .schedule 0, .advancePrefillCursor 1, .finishRequest 1,
          .addRequest (makeReq 2 8 1), .schedule 1] = .ok scheduler ∧
      (findRequest scheduler.runningQueue 2).map (·.prefillCursor) = some 6 ∧
      (findRequest scheduler.runningQueue 2).map (·.chunkEnd scheduler.config) = some 8 ∧
      (findRequest (scheduler.advancePrefillCursor 2).runningQueue 2).map (·.prefillCursor) =
        some 5 := by
  decide +kernel

end Scheduler
end Kyro
