import Kyro.Proof.Blocks.PrefixReuse
import Kyro.Proof.Scheduler.Tables
import Kyro.Proof.Worker.Valid

/-!
# What a leaving request deposits

The block manager keeps the prompt of every request from its admission on, and `free` files the
blocks of the request under the whole of it. It does not know how far the prefill has come. So what
enters the prefix cache is computed as long as no request leaves in the middle of its prompt, by its
deadline or because the tokens sampled from its first chunks end it, and no longer.
-/

namespace Kyro

namespace BlockManager

variable {env : Env} {manager manager' : BlockManager} {id other : RequestId}

/-- The tokens that `free` deposits for a request. -/
abbrev deposit (manager : BlockManager) (id : RequestId) : Option (List Token) :=
  manager.freedPrompt (.free id)

theorem deposit_congr (hblocks : manager'.blockTable.lookup other = manager.blockTable.lookup other)
    (hprompt : manager'.promptTable.lookup other = manager.promptTable.lookup other) :
    manager'.deposit other = manager.deposit other := by
  rw [deposit, freedPrompt, hblocks, hprompt]
  rfl

theorem free_deposit (h : manager.free env id = .ok manager') (hne : other ≠ id) :
    manager'.deposit other = manager.deposit other := by
  rcases free_tables h with ⟨_, rfl⟩ | ⟨hblocks, hprompts⟩
  · rfl
  · apply deposit_congr
    · rw [hblocks, AList.lookup_erase_ne hne]
    · rw [hprompts, AList.lookup_erase_ne hne]

/-- The deposit of a request is its prompt. -/
theorem Tables.deposit {reqs : List Request} (h : manager.Tables reqs) {req : Request}
    (hreq : req ∈ reqs) : manager.deposit req.id = some req.promptTokens := by
  have hmem : req.id ∈ manager.blockTable := (h.blocks _).mpr (mem_ids.mpr ⟨req, hreq, rfl⟩)
  obtain ⟨blocks, hblocks⟩ := Option.isSome_iff_exists.mp (AList.lookup_isSome.mpr hmem)
  rw [BlockManager.deposit, freedPrompt, hblocks, h.prompt req hreq]
  rfl

end BlockManager

/-- A request that leaves the running queue, as it leaves, with what is deposited for it. -/
structure Departure where
  request : Request
  deposit : Option (List Token)
  deriving DecidableEq

/-- The departure of a request whose whole prompt is deposited. -/
def Request.leave (req : Request) : Departure := ⟨req, some req.promptTokens⟩

namespace Scheduler

/-- The block manager knows the prompts of the running requests. -/
def Tracked (blockManager : BlockManager) (reqs : List Request) : Prop :=
  ∀ req ∈ reqs, blockManager.deposit req.id = some req.promptTokens

theorem tracked_of_tables {blockManager : BlockManager} {reqs : List Request}
    (h : blockManager.Tables reqs) : Tracked blockManager reqs := fun _ hreq => h.deposit hreq

/-- The departures of the `retain` at the beginning of `schedule`. -/
def expireDepartures (env : Env) (now : Instant) : BlockManager → List Request → List Departure
  | _, [] => []
  | blockManager, req :: reqs =>
    if req.Expired now then
      ⟨req, blockManager.deposit req.id⟩ ::
        match blockManager.free env req.id with
        | .ok blockManager => expireDepartures env now blockManager reqs
        | .error _ => []
    else expireDepartures env now blockManager reqs

section Schedule

variable {env : Env} {now : Instant} {blockManager blockManager' : BlockManager}

theorem expireDepartures_eq {reqs kept : List Request} (hnodup : (ids reqs).Nodup)
    (htracked : Tracked blockManager reqs)
    (h : expireRunning env now blockManager reqs = .ok (blockManager', kept)) :
    expireDepartures env now blockManager reqs =
      (reqs.filter fun req => req.Expired now).map Request.leave := by
  induction reqs generalizing blockManager kept with
  | nil => rfl
  | cons req reqs ih =>
      obtain ⟨hnotMem, hrest⟩ := List.nodup_cons.mp hnodup
      rw [expireRunning] at h
      rw [expireDepartures]
      by_cases hexpired : req.Expired now
      · rw [if_pos hexpired] at h ⊢
        obtain ⟨freed, hfree, h⟩ := Machine.bind_eq_ok.mp h
        have hfreed : Tracked freed reqs := by
          intro other hother
          rw [BlockManager.free_deposit hfree]
          · exact htracked other (List.mem_cons_of_mem _ hother)
          · intro heq
            exact hnotMem (mem_ids.mpr ⟨other, hother, heq⟩)
        rw [hfree, List.filter_cons_of_pos (by simpa using hexpired), List.map_cons,
          htracked req List.mem_cons_self]
        dsimp only
        rw [ih hrest hfreed h]
        rfl
      · rw [if_neg hexpired] at h ⊢
        obtain ⟨⟨next, rest⟩, hloop, heq⟩ := Machine.bind_eq_ok.mp h
        cases heq
        rw [List.filter_cons_of_neg (by simpa using hexpired)]
        exact ih hrest (fun other hother => htracked other (List.mem_cons_of_mem _ hother)) hloop

end Schedule

end Scheduler

namespace Worker

open Scheduler

/-- The departures of the loop over the finished ids. -/
def finishDepartures (env : Env) : Scheduler → List RequestId → List Departure
  | _, [] => []
  | scheduler, id :: ids =>
    ((findRequest scheduler.runningQueue id).toList.map
        (⟨·, scheduler.blockManager.deposit id⟩)) ++
      match scheduler.finishRequest env id with
      | .ok scheduler => finishDepartures env scheduler ids
      | .error _ => []

section Finish

variable {τ : Type} {env : Env} {scheduler scheduler' : Scheduler}
  {cache cache' : KVCacheManager τ}

theorem finishRequest_tracked (hnodup : (ids scheduler.runningQueue).Nodup)
    (htracked : Tracked scheduler.blockManager scheduler.runningQueue) {id : RequestId}
    (h : scheduler.finishRequest env id = .ok scheduler') :
    (ids scheduler'.runningQueue).Nodup ∧
      Tracked scheduler'.blockManager scheduler'.runningQueue := by
  have hspec := finishRequest_spec hnodup h
  have hrunning : scheduler'.runningQueue =
      scheduler.runningQueue.filter fun req => req.id ≠ id := by rw [hspec]
  rw [hrunning]
  refine ⟨hnodup.sublist (List.filter_sublist.map _), fun req hreq => ?_⟩
  obtain ⟨hmem, hne⟩ := List.mem_filter.mp hreq
  rw [Scheduler.finishRequest] at h
  split at h
  · obtain ⟨blockManager, hfree, heq⟩ := Machine.bind_eq_ok.mp h
    cases heq
    exact (BlockManager.free_deposit hfree (of_decide_eq_true hne)).trans (htracked req hmem)
  · cases h
    exact htracked req hmem

theorem finishAll_tables (hnodup : (ids scheduler.runningQueue).Nodup)
    (htables : scheduler.blockManager.Tables scheduler.runningQueue)
    {finished : List RequestId}
    (h : finishAll env scheduler cache finished = .ok (scheduler', cache')) :
    scheduler'.blockManager.Tables scheduler'.runningQueue := by
  induction finished generalizing scheduler cache with
  | nil =>
      cases h
      exact htables
  | cons id finished ih =>
      obtain ⟨next, hnext, h⟩ := Machine.bind_eq_ok.mp h
      apply ih _ (finishRequest_tables hnodup htables hnext) h
      rw [finishRequest_spec hnodup hnext]
      exact hnodup.sublist (List.filter_sublist.map _)

theorem finishDepartures_eq (hnodup : (ids scheduler.runningQueue).Nodup)
    (htracked : Tracked scheduler.blockManager scheduler.runningQueue) {done : List Request}
    (hdone : done.Sublist scheduler.runningQueue)
    (h : finishAll env scheduler cache (ids done) = .ok (scheduler', cache')) :
    finishDepartures env scheduler (ids done) = done.map Request.leave := by
  induction done generalizing scheduler cache with
  | nil => rfl
  | cons req done ih =>
      obtain ⟨next, hnext, h⟩ := Machine.bind_eq_ok.mp h
      have hreq := hdone.subset List.mem_cons_self
      obtain ⟨hnextNodup, hnextTracked⟩ := finishRequest_tracked hnodup htracked hnext
      have hkept : done.Sublist next.runningQueue := by
        have hnotMem := (List.nodup_cons.mp (hnodup.sublist (hdone.map _))).1
        rw [finishRequest_spec hnodup hnext]
        have hall : (done.filter fun other => other.id ≠ req.id) = done := by
          apply List.filter_eq_self.mpr
          intro other hother
          apply decide_eq_true
          intro hid
          exact hnotMem (List.mem_map.mpr ⟨other, hother, hid⟩)
        rw [← hall]
        exact ((List.sublist_cons_self req done).trans hdone).filter _
      have htail : finishDepartures env next (ids done) = done.map Request.leave :=
        ih hnextNodup hnextTracked hkept h
      rw [ids, List.map_cons, ← ids, finishDepartures, findRequest_eq_some hnodup hreq, hnext]
      dsimp only
      rw [htail, htracked req hreq]
      rfl

end Finish

end Worker

namespace World

open Worker Scheduler

variable {τ : Type} {env : Env} {ops : TensorOps τ}

/-- The requests that leave the running queue, and their deposits. -/
def departures (env : Env) (world : World τ) : Event τ → List Departure
  | .schedule now =>
    match world.phase with
    | .idle => expireDepartures env now world.scheduler.blockManager world.scheduler.runningQueue
    | _ => []
  | .update =>
    match world.phase with
    | .computing toPrefill batch results =>
      if results.length = batch.length then
        let running := (pushResults world.scheduler.runningQueue results).1
        let scheduler := toPrefill.foldl Scheduler.advancePrefillCursor
          { world.scheduler with runningQueue := running }
        finishDepartures env scheduler
          ((scheduler.runningQueue.filter (·.isDone)).map (·.id))
      else []
    | _ => []
  | _ => []

/-- No request expires in the middle of its prompt, and none that the new tokens end is still in the
middle of it after its chunk. -/
def LeavesRead (world : World τ) : Event τ → Prop
  | .schedule now => world.phase = .idle →
    ∀ req ∈ world.scheduler.runningQueue, req.Expired now → req.Prefilled
  | .update => WhenDone (fun toPrefill results =>
      ∀ req ∈ world.scheduler.runningQueue, (req.answered results).isDone →
        req.promptTokens.length ≤
          if req.id ∈ toPrefill then nextCursor world.scheduler.config req else req.prefillCursor)
    world.phase
  | _ => True

instance (world : World τ) : DecidablePred world.LeavesRead
  | .update => inferInstanceAs (Decidable (WhenDone _ world.phase))
  | .submit _ => inferInstanceAs (Decidable True)
  | .schedule now => inferInstanceAs (Decidable (world.phase = .idle →
      ∀ req ∈ world.scheduler.runningQueue, req.Expired now → req.Prefilled))
  | .forward _ _ => inferInstanceAs (Decidable True)

/-- Departures of whole prompts are good exactly if their requests have been read. -/
theorem good_departures_iff (reqs : List Request) :
    (∀ departure ∈ reqs.map Request.leave, ∀ tokens ∈ departure.deposit,
        tokens.length ≤ departure.request.prefillCursor) ↔ ∀ req ∈ reqs, req.Prefilled := by
  simp [Request.leave]

section Update

variable {world : World τ} {toPrefill : List RequestId} {batch : List WorkItem}
  {results : List ComputeResult} {scheduler : Scheduler} {cache : KVCacheManager τ}
  {sent : List (RequestId × Token)}

/-- What leaves in an update is what is settled and done. -/
theorem departures_update (hvalid : world.Valid)
    (htables : world.scheduler.blockManager.Tables world.scheduler.runningQueue)
    (hphase : world.phase = .computing toPrefill batch results)
    (hlength : results.length = batch.length)
    (hupdate : Worker.update env world.scheduler world.cache toPrefill results =
      .ok (scheduler, cache, sent)) :
    scheduler.blockManager.Tables scheduler.runningQueue ∧
    world.departures env .update = ((world.scheduler.runningQueue.map
      (·.settled world.scheduler.config toPrefill results)).filter (·.isDone)).map
        Request.leave := by
  obtain ⟨prefills, hbatched⟩ := hvalid.batched _ _ _ hphase
  obtain ⟨⟨next, nextCache⟩, hfinish, heq⟩ := Machine.bind_eq_ok.mp hupdate
  cases heq
  have hsettle := settle_eq hvalid.running_nodup (hbatched.toPrefill_nodup hvalid) results
  rw [hsettle] at hfinish
  have hnodup : (ids (world.scheduler.runningQueue.map
      (·.settled world.scheduler.config toPrefill results))).Nodup := by
    rw [ids_map (Request.settled_id world.scheduler.config toPrefill results)]
    exact hvalid.running_nodup
  have hsettled : world.scheduler.blockManager.Tables (world.scheduler.runningQueue.map
      (·.settled world.scheduler.config toPrefill results)) := by
    apply htables.congr
    · intro id
      rw [ids_map (Request.settled_id world.scheduler.config toPrefill results)]
    · intro req hreq
      obtain ⟨old, hold, rfl⟩ := List.mem_map.mp hreq
      exact ⟨old, hold, (Request.settled_id ..).symm, (Request.settled_promptTokens ..).symm⟩
  refine ⟨finishAll_tables (by exact hnodup) (by exact hsettled) hfinish, ?_⟩
  rw [departures, hphase]
  dsimp only
  rw [if_pos hlength, hsettle]
  exact finishDepartures_eq (by exact hnodup) (tracked_of_tables hsettled) List.filter_sublist
    hfinish

end Update

theorem departures_of_disabled {world : World τ} {event : Event τ} (h : ¬ world.Enabled event) :
    world.departures env event = [] := by
  cases event with
  | submit submission => rfl
  | schedule now =>
      rw [departures]
      split
      · rename_i hphase
        exact absurd hphase h
      · rfl
  | forward appends token => rfl
  | update =>
      rw [departures]
      split
      · rename_i toPrefill batch results hphase
        rw [if_neg fun hlength => h ⟨toPrefill, batch, results, hphase, hlength⟩]
      · rfl

theorem leavesRead_of_disabled {world : World τ} {event : Event τ} (h : ¬ world.Enabled event) :
    world.LeavesRead event := by
  cases event with
  | submit submission => trivial
  | schedule now => exact fun hphase => absurd hphase h
  | forward appends token => trivial
  | update => exact whenDone_of_disabled h _

/-- The requests that leave by an event of a valid world, as they leave. -/
theorem steps_departures {world world' : World τ} {event : Event τ} (hvalid : world.Valid)
    (htables : world.scheduler.blockManager.Tables world.scheduler.runningQueue)
    (hsteps : Steps env ops world event world') :
    world'.scheduler.blockManager.Tables world'.scheduler.runningQueue ∧
      ∃ leaving : List Request, world.departures env event = leaving.map Request.leave ∧
        ((∀ req ∈ leaving, req.Prefilled) ↔ world.LeavesRead event) := by
  have hexpired : ∀ {now : Instant} {result}, world.phase = .idle →
      world.scheduler.schedule env now = .ok result →
      ∃ leaving : List Request, world.departures env (.schedule now) =
        leaving.map Request.leave ∧
        ((∀ req ∈ leaving, req.Prefilled) ↔ world.LeavesRead (.schedule now)) := by
    intro now result hphase hschedule
    obtain ⟨⟨expired, kept⟩, hexpire, _⟩ := Machine.bind_eq_ok.mp hschedule
    refine ⟨world.scheduler.runningQueue.filter fun req => req.Expired now, ?_, ?_⟩
    · rw [departures, hphase]
      exact expireDepartures_eq hvalid.running_nodup (tracked_of_tables htables) hexpire
    · simp [LeavesRead, hphase, List.mem_filter]
  cases hsteps with
  | disabled hdisabled =>
      refine ⟨htables, [], departures_of_disabled hdisabled, ?_⟩
      exact ⟨fun _ => leavesRead_of_disabled hdisabled, fun _ req hreq => by cases hreq⟩
  | submit submission =>
      exact ⟨htables, [], rfl, fun _ => trivial, fun _ req hreq => by cases hreq⟩
  | park hphase hschedule =>
      exact ⟨schedule_tables hvalid.nodup htables hschedule, hexpired hphase hschedule⟩
  | begin hphase hschedule =>
      exact ⟨schedule_tables hvalid.nodup htables hschedule, hexpired hphase hschedule⟩
  | answer hphase hitem happend =>
      exact ⟨htables, [], rfl, fun _ => trivial, fun _ req hreq => by cases hreq⟩
  | fail hphase hitem happend =>
      exact ⟨htables, [], rfl, fun _ => trivial, fun _ req hreq => by cases hreq⟩
  | update hphase hlength hupdate =>
      obtain ⟨hnext, hleaving⟩ := departures_update hvalid htables hphase hlength hupdate
      refine ⟨hnext, _, hleaving, ?_⟩
      rw [LeavesRead, hphase]
      simp only [WhenDone, List.mem_filter, List.mem_map, and_imp, forall_exists_index,
        forall_apply_eq_imp_iff₂, Request.settled_isDone, Request.Prefilled,
        Request.settled_promptTokens, Request.settled_prefillCursor, hlength, true_implies]

/-! ### Runs -/

/-- A run that keeps which requests leave. -/
def departureHistory (env : Env) (ops : TensorOps τ) (blockSize numGpuBlocks : ℕ)
    (config : SchedulerConfig) (events : List (Event τ)) :
    Except Fault (World τ × List Departure) :=
  Machine.run (Machine.recorded (step env ops) (departures env))
    (new env blockSize numGpuBlocks config, []) events

/-- **Only computed blocks enter the prefix cache exactly as long as no request leaves in the middle
of its prompt**: what is deposited is always the whole prompt. -/
theorem deposits_computed_iff (env : Env) (ops : TensorOps τ) {blockSize numGpuBlocks : ℕ}
    {config : SchedulerConfig} {events : List (Event τ)}
    (hfresh : Machine.Along (step env ops) Fresh (new env blockSize numGpuBlocks config) events)
    {world : World τ} {left : List Departure}
    (hrun : departureHistory env ops blockSize numGpuBlocks config events = .ok (world, left)) :
    (∀ departure ∈ left, departure.deposit = some departure.request.promptTokens) ∧
    ((∀ departure ∈ left, ∀ tokens ∈ departure.deposit,
        tokens.length ≤ departure.request.prefillCursor) ↔
      Machine.Along (step env ops) LeavesRead (new env blockSize numGpuBlocks config) events) := by
  have hstart : (new env blockSize numGpuBlocks config : World τ).Valid ∧
      (new env blockSize numGpuBlocks config : World τ).scheduler.blockManager.Tables [] :=
    ⟨new_valid env blockSize numGpuBlocks config, BlockManager.new_tables ..⟩
  constructor
  · apply (recorded_invariant (I := fun (w : World τ) kept =>
      w.scheduler.blockManager.Tables w.scheduler.runningQueue ∧
        ∀ departure ∈ kept, departure.deposit = some departure.request.promptTokens)
      _ ⟨hstart.2, fun _ hmem => by cases hmem⟩ hfresh hrun).2.2
    intro w kept e w' hvalid hw _ hsteps
    obtain ⟨htables, leaving, hleaving, _⟩ := steps_departures hvalid hw.1 hsteps
    refine ⟨htables, fun departure hmem => ?_⟩
    rcases List.mem_append.mp hmem with hold | hnew
    · exact hw.2 departure hold
    · rw [hleaving] at hnew
      obtain ⟨req, _, rfl⟩ := List.mem_map.mp hnew
      rfl
  · rw [Machine.forall_mem_record_iff (I := fun w : World τ => w.Valid ∧
      w.scheduler.blockManager.Tables w.scheduler.runningQueue) _ _ hstart hfresh hrun]
    · exact and_iff_right fun _ hmem => by cases hmem
    · intro w e w' hw hevent hstep
      have hsteps := steps_of_step hstep
      exact ⟨steps_valid hw.1 hevent hsteps, (steps_departures hw.1 hw.2 hsteps).1⟩
    · intro w e w' hw _ hstep
      obtain ⟨_, leaving, hleaving, hiff⟩ := steps_departures hw.1 hw.2 (steps_of_step hstep)
      rw [hleaving, good_departures_iff, hiff]

theorem deposits_computed_whole_prompt :
    ∃ world left, departureHistory .counting (.rows ℕ) 4 9 ⟨8, 4⟩ [.submit (.plain 1 [5, 7] 1),
        .schedule 0, .forward [([1, 2], [1, 2])] (some 3), .update] = .ok (world, left) ∧
      left.length = 1 ∧
      ∀ departure ∈ left, ∀ tokens ∈ departure.deposit,
        tokens.length ≤ departure.request.prefillCursor := by
  have hrun : ∃ ran, departureHistory .counting (.rows ℕ) 4 9 ⟨8, 4⟩
      [.submit (.plain 1 [5, 7] 1), .schedule 0, .forward [([1, 2], [1, 2])] (some 3),
        .update] = .ok ran ∧ ran.2.length = 1 := by
    decide +kernel
  obtain ⟨⟨world, left⟩, hrun, hlength⟩ := hrun
  exact ⟨world, left, hrun, hlength,
    (deposits_computed_iff .counting (.rows ℕ) (by decide +kernel) hrun).2.mpr
      (by decide +kernel)⟩

/-- A request that its first token ends after the first of its two chunks deposits both. -/
theorem deposit_of_unread_prompt :
    Machine.Along (step .counting (.rows ℕ)) Fresh (new .counting 4 9 ⟨8, 4⟩)
        [.submit (.plain 1 [1, 2, 3, 4, 5, 6] 1), .schedule 0,
          .forward [([1, 2, 3, 4], [1, 2, 3, 4])] (some 9), .update] ∧
      ∃ ran, departureHistory .counting (.rows ℕ) 4 9 ⟨8, 4⟩
          [.submit (.plain 1 [1, 2, 3, 4, 5, 6] 1), .schedule 0,
            .forward [([1, 2, 3, 4], [1, 2, 3, 4])] (some 9), .update] = .ok ran ∧
        ∃ departure ∈ ran.2, departure.deposit = some [1, 2, 3, 4, 5, 6] ∧
          departure.request.prefillCursor = 4 := by
  decide +kernel

end World
end Kyro
