import Kyro.Proof.Worker.Valid

/-!
# The chunks of a prompt

The chunk of a request is computed three times: `schedule` counts it against the budget, the worker
cuts it out of the prompt, and `advance_prefill_cursor` moves the cursor over it. The three agree as
long as the cursor does not wrap, whatever else runs in the same batch and whatever the API adds in
between: the inputs fed to the model are the prompt from the end of the hit to the cursor.
-/

namespace Kyro

/-- Two slices that meet. -/
theorem take_drop_append {α : Type*} {l : List α} {start middle stop : ℕ} (hstart : start ≤ middle)
    (hmiddle : middle ≤ stop) :
    (l.take middle).drop start ++ (l.take stop).drop middle = (l.take stop).drop start := by
  have hfront : (l.take middle).drop start = ((l.take stop).drop start).take (middle - start) := by
    rw [← List.drop_take, List.take_take, Nat.min_eq_left hmiddle]
  have hback : (l.take stop).drop middle = ((l.take stop).drop start).drop (middle - start) := by
    rw [List.drop_drop, Nat.add_sub_cancel' hstart]
  rw [hfront, hback, List.take_append_drop]

namespace Request

/-- The part of the prompt between the end of the hit and the cursor. -/
def readTokens (req : Request) : List Token :=
  (req.promptTokens.take req.prefillCursor).drop req.cachedPrefixLen

theorem length_readTokens {req : Request} (hcursor : req.prefillCursor ≤ req.promptTokens.length) :
    req.readTokens.length = req.prefillCursor - req.cachedPrefixLen := by
  rw [readTokens, List.length_drop, List.length_take, Nat.min_eq_left hcursor]

/-- The slice of the worker ends where the cursor goes. -/
theorem chunk_end {config : SchedulerConfig} {req : Request}
    (hcursor : req.prefillCursor ≤ req.promptTokens.length)
    (hsmall : req.promptTokens.length + config.maxPrefillChunkSize < 2 ^ 64) :
    req.prefillCursor + req.chunkSize config = Scheduler.nextCursor config req := by
  rw [Scheduler.nextCursor_eq hcursor hsmall, chunkSize]
  omega

/-- The slice of the worker as a number of tokens from the cursor on. -/
theorem chunkItem_input (config : SchedulerConfig) (req : Request) :
    (req.chunkItem config).input =
      (req.promptTokens.drop req.prefillCursor).take config.maxPrefillChunkSize := by
  have hslice : (req.chunkItem config).input =
    (req.promptTokens.take (req.prefillCursor + req.chunkSize config)).drop req.prefillCursor := rfl
  rw [hslice, List.drop_take, Nat.add_sub_cancel_left, chunkSize, List.take_eq_take_iff,
    List.length_drop]
  omega

theorem length_chunkItem_input (config : SchedulerConfig) (req : Request) :
    (req.chunkItem config).input.length = req.chunkSize config := by
  rw [chunkItem_input, List.length_take, List.length_drop, chunkSize, Nat.min_comm]

/-- Moving the cursor reads exactly the chunk. -/
theorem readTokens_settled {config : SchedulerConfig} {toPrefill : List RequestId}
    {results : List ComputeResult} {req : Request}
    (hcached : req.cachedPrefixLen ≤ req.prefillCursor)
    (hcursor : req.prefillCursor ≤ req.promptTokens.length)
    (hsmall : req.promptTokens.length + config.maxPrefillChunkSize < 2 ^ 64) :
    (req.settled config toPrefill results).readTokens =
      req.readTokens ++ if req.id ∈ toPrefill then (req.chunkItem config).input else [] := by
  rw [readTokens, settled_promptTokens, settled_cachedPrefixLen, settled_prefillCursor]
  split
  · rw [← chunk_end hcursor hsmall]
    exact (take_drop_append hcached (Nat.le_add_right _ _)).symm
  · rw [List.append_nil, readTokens]

end Request

namespace World

open Worker

variable {τ : Type} {env : Env} {ops : TensorOps τ}

/-- The item that an event feeds to the model. -/
def feeds (world : World τ) : Event τ → List WorkItem
  | .forward _ _ =>
    match world.phase with
    | .computing _ batch results => batch[results.length]?.toList
    | _ => []
  | _ => []

/-- All prefill inputs of a request, one after another. -/
def fedTokens (fed : List WorkItem) (id : RequestId) : List Token :=
  (fed.filter fun item => item.isPrefill && decide (item.reqId = id)).flatMap (·.input)

@[simp] theorem fedTokens_append (fed more : List WorkItem) (id : RequestId) :
    fedTokens (fed ++ more) id = fedTokens fed id ++ fedTokens more id := by
  rw [fedTokens, List.filter_append, List.flatMap_append]
  rfl

theorem fedTokens_of_not_mem {fed : List WorkItem} {id : RequestId}
    (h : ∀ item ∈ fed, item.reqId ≠ id) : fedTokens fed id = [] := by
  have hnone : (fed.filter fun item => item.isPrefill && decide (item.reqId = id)) = [] := by
    apply List.filter_eq_nil_iff.mpr
    intro item hitem hand
    exact h item hitem (of_decide_eq_true (Bool.and_eq_true_iff.mp hand).2)
  rw [fedTokens, hnone]
  rfl

/-- With distinct ids an item is the only one of its request. -/
theorem fedTokens_of_nodup {batch : List WorkItem} (hnodup : (batch.map (·.reqId)).Nodup)
    {item : WorkItem} (hitem : item ∈ batch) :
    fedTokens batch item.reqId = if item.isPrefill then item.input else [] := by
  obtain ⟨front, back, rfl⟩ := List.append_of_mem hitem
  rw [List.map_append, List.map_cons, List.nodup_middle, List.nodup_cons, List.mem_append] at hnodup
  have hfront : fedTokens front item.reqId = [] := by
    apply fedTokens_of_not_mem
    intro other hother heq
    exact hnodup.1 (Or.inl (List.mem_map.mpr ⟨other, hother, heq⟩))
  have hback : fedTokens back item.reqId = [] := by
    apply fedTokens_of_not_mem
    intro other hother heq
    exact hnodup.1 (Or.inr (List.mem_map.mpr ⟨other, hother, heq⟩))
  rw [fedTokens_append, hfront, List.nil_append, ← List.singleton_append, fedTokens_append, hback,
    List.append_nil, fedTokens, List.filter_singleton]
  cases item.isPrefill <;> simp

end World

/-- The items of the batch that have been run. -/
def Phase.ran : Phase → List WorkItem
  | .computing _ batch results => batch.take results.length
  | _ => []

theorem Phase.ran_answer {toPrefill : List RequestId} {batch : List WorkItem}
    {results : List ComputeResult} {item : WorkItem} (hitem : batch[results.length]? = some item)
    (res : ComputeResult) :
    (Phase.computing toPrefill batch (results ++ [res])).ran =
      (Phase.computing toPrefill batch results).ran ++ [item] := by
  rw [ran, ran, List.length_append, List.length_singleton, List.take_add_one, hitem]
  rfl

namespace World

open Worker

variable {τ : Type} {env : Env} {ops : TensorOps τ}

section Batch

variable {world : World τ} {toPrefill : List RequestId} {batch : List WorkItem}
  {results : List ComputeResult} {prefills : List Request}

/-- What a whole batch feeds for one request. -/
theorem Batched.fedTokens_batch (hvalid : world.Valid)
    (h : Batched world.scheduler toPrefill batch results prefills) {req : Request}
    (hreq : req ∈ world.scheduler.runningQueue) :
    fedTokens batch req.id =
      if req.id ∈ toPrefill then (req.chunkItem world.scheduler.config).input else [] := by
  split
  · rename_i hmem
    have hprefill := (h.mem_toPrefill hvalid.running_nodup hreq).mp hmem
    have hitem := h.mem_batch.mpr (Or.inl ⟨req, hprefill, rfl⟩)
    exact fedTokens_of_nodup (h.items_nodup hvalid) hitem
  · rename_i hmem
    have hnone :
        (batch.filter fun item => item.isPrefill && decide (item.reqId = req.id)) = [] := by
      apply List.filter_eq_nil_iff.mpr
      intro item hitem hand
      obtain ⟨hprefill, hid⟩ := Bool.and_eq_true_iff.mp hand
      rcases h.mem_batch.mp hitem with ⟨other, hother, rfl⟩ | ⟨other, _, rfl⟩
      · apply hmem
        rw [h.toPrefill_eq]
        exact mem_ids.mpr ⟨other, hother, of_decide_eq_true hid⟩
      · cases hprefill
    rw [fedTokens, hnone]
    rfl

/-- Nothing of a request has been fed in this iteration before its item. -/
theorem Batched.fedTokens_before (hvalid : world.Valid)
    (h : Batched world.scheduler toPrefill batch results prefills) {item : WorkItem}
    (hitem : batch[results.length]? = some item) :
    fedTokens (batch.take results.length) item.reqId = [] := by
  obtain ⟨hlt, hget⟩ := List.getElem?_eq_some_iff.mp hitem
  have hnodup := h.items_nodup hvalid
  rw [← List.take_append_drop results.length batch, List.drop_eq_getElem_cons hlt, hget,
    List.map_append, List.map_cons, List.nodup_middle, List.nodup_cons, List.mem_append] at hnodup
  apply fedTokens_of_not_mem
  intro other hother heq
  exact hnodup.1 (Or.inl (List.mem_map.mpr ⟨other, hother, heq⟩))

end Batch

/-! ### The invariant -/

/-- What has been fed is what the cursors say, and the items of this iteration. -/
structure Covers (world : World τ) (fed : List WorkItem) : Prop where
  known : ∀ item ∈ fed, item.reqId ∈ world.submitted
  waiting : ∀ req ∈ world.scheduler.waitingQueue, ∀ item ∈ fed, item.reqId ≠ req.id
  running : world.phase ≠ .stopped → ∀ req ∈ world.scheduler.runningQueue,
    req.promptTokens.length + world.scheduler.config.maxPrefillChunkSize < 2 ^ 64 →
      fedTokens fed req.id = req.readTokens ++ fedTokens world.phase.ran req.id

theorem new_covers (env : Env) (blockSize numGpuBlocks : ℕ) (config : SchedulerConfig) :
    (new env blockSize numGpuBlocks config : World τ).Covers [] where
  known item hitem := by cases hitem
  waiting req hreq := by cases hreq
  running hrun req hreq := by cases hreq

theorem feeds_forward {world : World τ} {toPrefill : List RequestId} {batch : List WorkItem}
    {results : List ComputeResult} (hphase : world.phase = .computing toPrefill batch results)
    {item : WorkItem} (hitem : batch[results.length]? = some item) (appends : List (τ × τ))
    (token : Option Token) : world.feeds (.forward appends token) = [item] := by
  rw [feeds, hphase]
  dsimp only
  rw [hitem]
  rfl

theorem feeds_of_disabled {world : World τ} {event : Event τ} (h : ¬ world.Enabled event) :
    world.feeds event = [] := by
  cases event with
  | forward appends token =>
      rw [feeds]
      split
      · rename_i toPrefill batch results hphase
        rw [no_item_of_disabled h hphase]
        rfl
      · rfl
  | submit submission => rfl
  | schedule now => rfl
  | update => rfl

theorem submit_covers {world : World τ} {fed : List WorkItem} (h : world.Covers fed)
    {submission : Submission} (hfresh : submission.id ∉ world.submitted) :
    (world.submit submission).Covers fed := by
  refine ⟨?_, ?_, h.running⟩
  · intro item hitem
    exact List.mem_append_left _ (h.known item hitem)
  · intro req hreq item hitem
    rcases List.mem_append.mp hreq with hold | hnew
    · exact h.waiting req hold item hitem
    · intro heq
      rw [List.mem_singleton.mp hnew] at heq
      apply hfresh
      rw [← show item.reqId = submission.id from heq]
      exact h.known item hitem

/-- A `schedule` begins an iteration in which nothing is fed yet. -/
theorem scheduled_covers {now : Instant} {world : World τ} {fed : List WorkItem}
    {scheduler : Scheduler} {toPrefill toDecode : List RequestId}
    {stays selected taken admitted : List Request} (h : world.Covers fed)
    (hspec : Scheduler.Scheduled now world.scheduler scheduler toPrefill toDecode stays selected
      taken admitted)
    (hidle : world.phase = .idle) {cache : KVCacheManager τ} {phase : Phase}
    (hphase : phase.ran = []) : Covers { world with scheduler, cache, phase } fed := by
  refine ⟨h.known, ?_, ?_⟩
  · intro req hreq
    exact h.waiting req (hspec.mem_waiting hreq)
  · intro _
    change ∀ req ∈ scheduler.runningQueue, req.promptTokens.length +
      scheduler.config.maxPrefillChunkSize < 2 ^ 64 →
        fedTokens fed req.id = req.readTokens ++ fedTokens phase.ran req.id
    rw [hspec.config_eq, hphase]
    refine hspec.forall_running (fun _ => Iff.rfl) ?_ ?_
    · have hrunning := h.running (by rw [hidle]; intro h; cases h)
      rwa [hidle] at hrunning
    · -- nothing is read of a request when it is admitted, and nothing has been fed for it
      rintro req hreq _ ⟨cachedLen, mark, _, rfl⟩ _
      have hnone : ((req.startAt cachedLen).setPrefill mark).readTokens = [] := by
        apply List.drop_eq_nil_of_le
        exact List.length_take_le _ _
      rw [hnone]
      exact fedTokens_of_not_mem (h.waiting req hreq)

/-- Feeding an item to the model. -/
theorem fed_covers {world : World τ} {fed : List WorkItem} (hvalid : world.Valid)
    (h : world.Covers fed) {toPrefill : List RequestId} {batch : List WorkItem}
    {results : List ComputeResult} (hphase : world.phase = .computing toPrefill batch results)
    {item : WorkItem} (hitem : batch[results.length]? = some item) {cache : KVCacheManager τ}
    {phase : Phase} (hnext : phase.Forwarded toPrefill batch results) :
    Covers { world with cache, phase } (fed ++ [item]) := by
  obtain ⟨prefills, hbatched⟩ := hvalid.batched _ _ _ hphase
  have hmem := List.mem_of_getElem? hitem
  obtain ⟨runner, hrunner, hid⟩ := hbatched.item_running hmem
  refine ⟨?_, ?_, ?_⟩
  · intro other hother
    rcases List.mem_append.mp hother with hold | hnew
    · exact h.known other hold
    · rw [List.mem_singleton.mp hnew, ← hid]
      exact hvalid.known _ (mem_ids.mpr ⟨runner, List.mem_append_left _ hrunner, rfl⟩)
  · intro req hreq other hother
    rcases List.mem_append.mp hother with hold | hnew
    · exact h.waiting req hreq other hold
    · rw [List.mem_singleton.mp hnew, ← hid]
      exact hvalid.id_ne hrunner hreq
  · intro hrun req hreq hsmall
    cases hnext with
    | fail => exact absurd rfl hrun
    | answer result =>
        have hrunning := h.running (by rw [hphase]; intro h; cases h) req hreq hsmall
        rw [hphase] at hrunning
        rw [Phase.ran_answer hitem, fedTokens_append, fedTokens_append, hrunning, List.append_assoc]

theorem updated_covers {world : World τ} {fed : List WorkItem} (hvalid : world.Valid)
    (h : world.Covers fed) {toPrefill : List RequestId} {batch : List WorkItem}
    {results : List ComputeResult} {scheduler : Scheduler} {cache : KVCacheManager τ}
    {sent : List (RequestId × Token)}
    (hphase : world.phase = .computing toPrefill batch results)
    (hlength : results.length = batch.length)
    (hupdate : Worker.update env world.scheduler world.cache toPrefill results =
      .ok (scheduler, cache, sent)) :
    Covers { world with scheduler, cache, phase := .idle, sent := world.sent ++ sent } fed := by
  obtain ⟨prefills, hbatched⟩ := hvalid.batched _ _ _ hphase
  obtain ⟨hscheduler, _, _⟩ :=
    update_spec hvalid.running_nodup (hbatched.toPrefill_nodup hvalid) hupdate
  refine ⟨h.known, ?_, ?_⟩
  · intro req hreq
    rw [hscheduler] at hreq
    exact h.waiting req hreq
  · intro _ req hreq hsmall
    rw [hscheduler] at hsmall
    obtain ⟨old, hold, rfl, _⟩ := updated_running hvalid hphase hupdate hreq
    rw [Request.settled_promptTokens] at hsmall
    have hrunning := h.running (by rw [hphase]; intro h; cases h) old hold hsmall
    rw [hphase, Phase.ran, hlength, List.take_length, hbatched.fedTokens_batch hvalid hold]
      at hrunning
    rw [Request.settled_id, hrunning, Request.readTokens_settled
      (hvalid.cached_le_cursor old hold hsmall) (hvalid.cursor_le old hold) hsmall]
    exact (List.append_nil _).symm

/-- An event that feeds nothing. -/
theorem Covers.feeds_nil {world world' : World τ} {event : Event τ} {fed : List WorkItem}
    (h : world'.Covers fed) (hfeeds : world.feeds event = []) :
    world'.Covers (fed ++ world.feeds event) := by
  rwa [hfeeds, List.append_nil]

theorem steps_covers {world world' : World τ} {event : Event τ} {fed : List WorkItem}
    (hvalid : world.Valid) (h : world.Covers fed) (hfresh : world.Fresh event)
    (hsteps : Steps env ops world event world') : world'.Covers (fed ++ world.feeds event) := by
  cases hsteps with
  | disabled hdisabled => exact h.feeds_nil (feeds_of_disabled hdisabled)
  | submit submission => exact (submit_covers h hfresh).feeds_nil rfl
  | park hphase hschedule =>
      obtain ⟨_, _, _, _, hspec⟩ := Scheduler.schedule_spec hschedule
      have hran : world.phase.ran = [] := by rw [hphase]; rfl
      exact (scheduled_covers h hspec hphase hran).feeds_nil rfl
  | begin hphase hschedule =>
      obtain ⟨_, _, _, _, hspec⟩ := Scheduler.schedule_spec hschedule
      exact (scheduled_covers h hspec hphase rfl).feeds_nil rfl
  | answer hphase hitem happend =>
      rw [feeds_forward hphase hitem]
      exact fed_covers hvalid h hphase hitem (.answer _)
  | fail hphase hitem happend =>
      rw [feeds_forward hphase hitem]
      exact fed_covers hvalid h hphase hitem .fail
  | update hphase hlength hupdate =>
      exact (updated_covers hvalid h hphase hlength hupdate).feeds_nil rfl

/-! ### Runs -/

/-- A run that keeps what is fed to the model. -/
def feedHistory (env : Env) (ops : TensorOps τ) (blockSize numGpuBlocks : ℕ)
    (config : SchedulerConfig) (events : List (Event τ)) :
    Except Fault (World τ × List WorkItem) :=
  Machine.run (Machine.recorded (step env ops) feeds)
    (new env blockSize numGpuBlocks config, []) events

/-- **Chunked prefill covers the prompt exactly once.** Between two iterations the inputs fed for a
request are its prompt from the end of its hit to its cursor. And the next prefill input at any time
is the next chunk behind what has been fed, marked as the last one exactly if the prompt ends with
it. -/
theorem prefill_covers_prompt (env : Env) (ops : TensorOps τ) {blockSize numGpuBlocks : ℕ}
    {config : SchedulerConfig} {events : List (Event τ)}
    (hfresh : Machine.Along (step env ops) Fresh (new env blockSize numGpuBlocks config) events)
    {world : World τ} {fed : List WorkItem}
    (hrun : feedHistory env ops blockSize numGpuBlocks config events = .ok (world, fed)) :
    (world.phase = .idle → ∀ req ∈ world.scheduler.runningQueue,
      req.promptTokens.length + config.maxPrefillChunkSize < 2 ^ 64 →
        fedTokens fed req.id =
          (req.promptTokens.take req.prefillCursor).drop req.cachedPrefixLen ∧
        req.cachedPrefixLen ≤ req.prefillCursor ∧
        req.prefillCursor ≤ req.promptTokens.length) ∧
    ∀ toPrefill batch results item, world.phase = .computing toPrefill batch results →
      batch[results.length]? = some item → item.isPrefill = true →
      ∃ req ∈ world.scheduler.runningQueue, req.id = item.reqId ∧
        (req.promptTokens.length + config.maxPrefillChunkSize < 2 ^ 64 →
          let position := req.cachedPrefixLen + (fedTokens fed req.id).length
          position < req.promptTokens.length ∧
          item.input = (req.promptTokens.drop position).take config.maxPrefillChunkSize ∧
          (item.isLastChunk = true ↔
            position + item.input.length = req.promptTokens.length)) := by
  have hconfig := history_config hfresh (Machine.run_of_recorded hrun)
  obtain ⟨hvalid, hcovers⟩ := recorded_invariant (I := Covers)
    (fun _ _ _ _ hvalid h hevent hsteps => steps_covers hvalid h hevent hsteps)
    (new_covers env blockSize numGpuBlocks config) hfresh hrun
  rw [← hconfig]
  constructor
  · intro hidle req hreq hsmall
    have hrunning := hcovers.running (by rw [hidle]; intro h; cases h) req hreq hsmall
    rw [hidle] at hrunning
    exact ⟨hrunning.trans (List.append_nil _), hvalid.cached_le_cursor req hreq hsmall,
      hvalid.cursor_le req hreq⟩
  · intro toPrefill batch results item hphase hitem hprefill
    obtain ⟨prefills, hbatched⟩ := hvalid.batched _ _ _ hphase
    rcases hbatched.mem_batch.mp (List.mem_of_getElem? hitem) with
      ⟨req, hreq, rfl⟩ | ⟨_, _, rfl⟩
    · obtain ⟨hrunning, hopen⟩ := hbatched.prefill_running hreq
      refine ⟨req, hrunning, rfl, fun hsmall => ?_⟩
      have hfed := hcovers.running (by rw [hphase]; intro h; cases h) req hrunning hsmall
      have hbefore := hbatched.fedTokens_before hvalid hitem
      rw [hphase, Phase.ran] at hfed
      have hposition : req.cachedPrefixLen + (fedTokens fed req.id).length =
          req.prefillCursor := by
        rw [hfed, show fedTokens (batch.take results.length) req.id = [] from hbefore,
          List.append_nil, Request.length_readTokens (hvalid.cursor_le req hrunning)]
        exact Nat.add_sub_cancel' (hvalid.cached_le_cursor req hrunning hsmall)
      dsimp only
      rw [hposition]
      refine ⟨?_, Request.chunkItem_input _ _, ?_⟩
      · exact Nat.lt_of_not_le hopen
      · rw [Request.length_chunkItem_input]
        exact decide_eq_true_iff
    · cases hprefill

theorem prefill_covers_prompt_two_chunks :
    ∃ world fed, feedHistory .counting (.rows ℕ) 4 9 ⟨8, 4⟩
        [.submit (.plain 1 [1, 2, 3, 4, 5, 6] 9), .schedule 0,
          .forward [([1, 2, 3, 4], [1, 2, 3, 4])] (some 7), .update,
          .submit (.plain 2 [1, 2] 9), .schedule 1, .forward [([5, 6], [5, 6])] (some 8),
          .forward [([1, 2], [1, 2])] (some 8), .update] = .ok (world, fed) ∧
      ∀ req ∈ world.scheduler.runningQueue, req.id = 1 →
        fedTokens fed 1 = (req.promptTokens.take 6).drop 0 := by
  have hrun : ∃ ran, feedHistory .counting (.rows ℕ) 4 9 ⟨8, 4⟩
        [.submit (.plain 1 [1, 2, 3, 4, 5, 6] 9), .schedule 0,
          .forward [([1, 2, 3, 4], [1, 2, 3, 4])] (some 7), .update,
          .submit (.plain 2 [1, 2] 9), .schedule 1, .forward [([5, 6], [5, 6])] (some 8),
          .forward [([1, 2], [1, 2])] (some 8), .update] = .ok ran ∧ ran.1.phase = .idle ∧
      ∀ req ∈ ran.1.scheduler.runningQueue, req.id = 1 →
        req.promptTokens.length = 6 ∧ req.prefillCursor = 6 ∧ req.cachedPrefixLen = 0 := by
    decide +kernel
  obtain ⟨⟨world, fed⟩, hrun, hidle, hcursors⟩ := hrun
  refine ⟨world, fed, hrun, fun req hreq hid => ?_⟩
  obtain ⟨hlength, hcursor, hcached⟩ := hcursors req hreq hid
  obtain ⟨hcover, _⟩ := prefill_covers_prompt .counting (.rows ℕ) (by decide +kernel) hrun
  have hsmall : req.promptTokens.length + 4 < 2 ^ 64 := by
    rw [hlength]
    decide
  have hfed := (hcover hidle req hreq hsmall).1
  rwa [hid, hcursor, hcached] at hfed

end World
end Kyro
