import Kyro.Proof.Service.Replies
import Kyro.Proof.Worker.Slots

/-!
# Endings

The service panics for one reason only. A request whose deadline has passed is silent from the next
`schedule` on, and once the worker loop has returned an error, no request that is queued is ever
answered.
-/

namespace Kyro

namespace World

open Worker

variable {τ : Type} {env : Env} {ops : TensorOps τ} {world world' : World τ}

/-- The item that the next pass of the model is for. -/
def nextItem (world : World τ) : Option WorkItem :=
  match world.phase with
  | .computing _ batch results => batch[results.length]?
  | _ => none

/-- The next pass of the model stores keys for a request without a slot. -/
def Slotless (world : World τ) : Event τ → Prop
  | .forward appends _ =>
    appends ≠ [] ∧ ∃ item ∈ world.nextItem, ¬ world.cache.Registered item.reqId
  | _ => False

instance (world : World τ) : DecidablePred world.Slotless
  | .submit _ => inferInstanceAs (Decidable False)
  | .schedule _ => inferInstanceAs (Decidable False)
  | .forward appends _ =>
    have : Decidable (appends ≠ []) := decidable_of_iff (appends.isEmpty = false) (by
      cases appends <;> simp)
    inferInstanceAs (Decidable (appends ≠ [] ∧
      ∃ item ∈ world.nextItem, ¬ world.cache.Registered item.reqId))
  | .update => inferInstanceAs (Decidable False)

/-- A pass of the model, with an item to run. -/
theorem step_forward (ops : TensorOps τ) {toPrefill : List RequestId} {batch : List WorkItem}
    {results : List ComputeResult} (hphase : world.phase = .computing toPrefill batch results)
    {item : WorkItem} (hitem : batch[results.length]? = some item) (appends : List (τ × τ))
    (token : Option Token) :
    ((appends = [] ∨ world.cache.Registered item.reqId) →
        ∃ next, world.step env ops (.forward appends token) = .ok next) ∧
      (appends ≠ [] → ¬ world.cache.Registered item.reqId →
        world.step env ops (.forward appends token) =
          .error (.expect "request must be registered")) := by
  rw [step, hphase]
  dsimp only
  rw [hitem]
  dsimp only
  constructor
  · intro hslot
    have happend : ∃ result, world.cache.appendAll ops item.reqId appends = .ok result := by
      rcases hslot with rfl | hslot
      · exact ⟨_, rfl⟩
      · exact KVCacheManager.appendAll_ok ops hslot appends
    obtain ⟨⟨cache, ok⟩, happend⟩ := happend
    rw [happend, Machine.ok_bind]
    dsimp only
    split
    · split
      · exact ⟨_, rfl⟩
      · exact ⟨_, rfl⟩
    · exact ⟨_, rfl⟩
  · intro hne hslot
    rw [KVCacheManager.appendAll_error hslot hne]
    rfl

theorem nextItem_of_computing {toPrefill : List RequestId} {batch : List WorkItem}
    {results : List ComputeResult} (hphase : world.phase = .computing toPrefill batch results) :
    world.nextItem = batch[results.length]? := by
  rw [nextItem, hphase]

/-- **The only panic of the worker loop** is that of `append_kv` without a slot. -/
theorem step_failure (env : Env) (ops : TensorOps τ)
    (howns : world.scheduler.blockManager.Owns []) (event : Event τ) :
    (¬ world.Slotless event → ∃ next, world.step env ops event = .ok next) ∧
      (world.Slotless event →
        world.step env ops event = .error (.expect "request must be registered")) := by
  by_cases henabled : world.Enabled event
  · cases event with
    | submit submission => exact ⟨fun _ => ⟨_, rfl⟩, False.elim⟩
    | schedule now =>
        refine ⟨fun _ => ?_, False.elim⟩
        obtain ⟨⟨scheduler, toPrefill, toDecode⟩, hschedule, _⟩ :=
          Scheduler.schedule_owns env now howns
        rw [step, show world.phase = .idle from henabled]
        dsimp only
        rw [schedule, hschedule, Machine.ok_bind]
        dsimp only
        split
        · exact ⟨_, rfl⟩
        · exact ⟨_, rfl⟩
    | forward appends token =>
        obtain ⟨toPrefill, batch, results, hphase, hlt⟩ := henabled
        have hitem := List.getElem?_eq_getElem hlt
        obtain ⟨hok, herror⟩ := @step_forward _ env world ops _ _ _ hphase _ hitem appends token
        rw [Slotless, nextItem_of_computing hphase, hitem]
        refine ⟨fun h => hok ?_, ?_⟩
        · by_contra hslot
          rw [not_or] at hslot
          exact h ⟨hslot.1, _, rfl, hslot.2⟩
        · rintro ⟨hne, _, hsome, hslot⟩
          cases hsome
          exact herror hne hslot
    | update =>
        refine ⟨fun _ => ?_, False.elim⟩
        obtain ⟨toPrefill, batch, results, hphase, hlength⟩ := henabled
        obtain ⟨⟨scheduler, cache, sent⟩, hupdate, _⟩ :=
          update_owns env howns world.cache toPrefill results
        rw [step, hphase]
        dsimp only
        rw [if_pos hlength, hupdate, Machine.ok_bind]
        exact ⟨_, rfl⟩
  · refine ⟨fun _ => ⟨_, step_of_disabled henabled⟩, fun h => absurd ?_ henabled⟩
    cases event with
    | forward appends token =>
        obtain ⟨_, item, hitem, _⟩ := h
        rw [nextItem] at hitem
        split at hitem
        · rename_i toPrefill batch results hphase
          exact ⟨toPrefill, batch, results, hphase, (List.getElem?_eq_some_iff.mp hitem).1⟩
        · cases hitem
    | submit _ => exact h.elim
    | schedule _ => exact h.elim
    | update => exact h.elim

/-- A `schedule` leaves no expired request in the queues. -/
theorem scheduled_unexpired {now : Instant} (hvalid : world.Valid) (hphase : world.phase = .idle)
    (hsteps : Steps env ops world (.schedule now) world') {req : Request}
    (hreq : req ∈ world.scheduler.runningQueue ++ world.scheduler.waitingQueue)
    (hexpired : req.Expired now) : req.id ∉ world'.queued := by
  have hids : world'.queued = ids ((world.scheduler.runningQueue ++
      world.scheduler.waitingQueue).filter fun req => ¬ req.Expired now) := by
    cases hsteps with
    | disabled hdisabled => exact absurd hphase hdisabled
    | park _ hschedule =>
        obtain ⟨_, _, _, _, hspec⟩ := Scheduler.schedule_spec hschedule
        exact hspec.ids_eq
    | begin _ hschedule =>
        obtain ⟨_, _, _, _, hspec⟩ := Scheduler.schedule_spec hschedule
        exact hspec.ids_eq
  rw [hids, mem_ids]
  rintro ⟨other, hother, hid⟩
  obtain ⟨hmem, hunexpired⟩ := List.mem_filter.mp hother
  rw [List.inj_on_of_nodup_map hvalid.nodup hmem hreq hid] at hunexpired
  exact of_decide_eq_true hunexpired hexpired

/-- A stopped loop does nothing. -/
theorem steps_stopped {event : Event τ} (hphase : world.phase = .stopped)
    (hsteps : Steps env ops world event world')
    (hevent : ∀ submission, event ≠ .submit submission) : world' = world := by
  cases hsteps with
  | disabled _ => rfl
  | submit submission => exact absurd rfl (hevent submission)
  | park hidle _ => rw [hphase] at hidle; cases hidle
  | begin hidle _ => rw [hphase] at hidle; cases hidle
  | answer hcomputing _ _ => rw [hphase] at hcomputing; cases hcomputing
  | fail hcomputing _ _ => rw [hphase] at hcomputing; cases hcomputing
  | update hcomputing _ _ => rw [hphase] at hcomputing; cases hcomputing

end World

namespace Service

variable {τ : Type} {env : Env} {ops : TensorOps τ} {tokenizer : Option LuminaTokenizer}
  {second : ℕ} {service service' : Service τ}

/-! ### Panics -/

/-- The next pass of the model stores keys for a request without a slot. -/
def Slotless (service : Service τ) (action : Action τ) : Prop :=
  ∃ event ∈ service.eventOf action, service.engine.world.Slotless event

instance (service : Service τ) : DecidablePred service.Slotless := fun action =>
  inferInstanceAs (Decidable (∃ event ∈ service.eventOf action,
    service.engine.world.Slotless event))

theorem not_slotless {action : Action τ} (h : service.eventOf action = none) :
    ¬ service.Slotless action := by
  rintro ⟨event, hevent, -⟩
  rw [h] at hevent
  cases hevent

/-- An action panics only with the event that it is. -/
theorem step_failure (env : Env) (ops : TensorOps τ) (tokenizer : Option LuminaTokenizer)
    (second : ℕ) (howns : service.world.scheduler.blockManager.Owns []) (action : Action τ) :
    (¬ service.Slotless action →
        ∃ next, service.step env ops tokenizer second action = .ok next) ∧
      (service.Slotless action → service.step env ops tokenizer second action =
        .error (.expect "request must be registered")) := by
  have hworld := World.step_failure env ops howns
  cases action with
  | chat handler =>
      refine ⟨fun _ => ?_, fun h => absurd h (not_slotless rfl)⟩
      rw [step]
      split
      · exact ⟨_, rfl⟩
      · exact ⟨_, rfl⟩
  | notify handler =>
      refine ⟨fun _ => ?_, fun h => absurd h (not_slotless rfl)⟩
      rw [step, advance, Engine.step]
      split
      · exact ⟨_, rfl⟩
      · exact ⟨_, rfl⟩
  | schedule now =>
      rw [step, advance, Engine.step]
      split
      · rename_i hidle
        obtain ⟨hok, -⟩ := hworld (.schedule now)
        obtain ⟨next, hnext⟩ := hok id
        refine ⟨fun _ => ⟨_, by rw [hnext]; rfl⟩, ?_⟩
        rintro ⟨event, hevent, hslotless⟩
        rw [eventOf, if_pos hidle] at hevent
        cases hevent
        exact hslotless.elim
      · rename_i hidle
        refine ⟨fun _ => ⟨_, rfl⟩, ?_⟩
        rintro ⟨event, hevent, hslotless⟩
        rw [eventOf, if_neg hidle] at hevent
        cases hevent
  | await =>
      refine ⟨fun _ => ?_, fun h => absurd h (not_slotless rfl)⟩
      rw [step, advance, Engine.step]
      split
      · exact ⟨_, rfl⟩
      · exact ⟨_, rfl⟩
  | forward appends token =>
      obtain ⟨hok, herror⟩ := hworld (.forward appends token)
      rw [step, advance, Engine.step]
      refine ⟨fun h => ?_, ?_⟩
      · obtain ⟨next, hnext⟩ := hok fun hslotless => h ⟨_, rfl, hslotless⟩
        exact ⟨_, by rw [hnext]; rfl⟩
      · rintro ⟨event, hevent, hslotless⟩
        cases hevent
        rw [herror hslotless]
        rfl
  | update =>
      obtain ⟨hok, -⟩ := hworld .update
      obtain ⟨next, hnext⟩ := hok id
      refine ⟨fun _ => ?_, ?_⟩
      · rw [step, advance, Engine.step, hnext]
        exact ⟨_, rfl⟩
      · rintro ⟨event, hevent, hslotless⟩
        cases hevent
        exact hslotless.elim
  | reply requestId =>
      refine ⟨fun _ => ?_, fun h => absurd h (not_slotless rfl)⟩
      rw [step]
      split
      · split
        · exact ⟨_, rfl⟩
        · exact ⟨_, rfl⟩
      · exact ⟨_, rfl⟩
  | disconnect requestId =>
      refine ⟨fun _ => ?_, fun h => absurd h (not_slotless rfl)⟩
      rw [step]
      split
      · exact ⟨_, rfl⟩
      · exact ⟨_, rfl⟩

theorem steps_owns {action : Action τ} (h : service.world.scheduler.blockManager.Owns [])
    (hsteps : Steps env ops tokenizer second service action service') :
    service'.world.scheduler.blockManager.Owns [] := by
  cases hsteps with
  | refuse _ => exact h
  | accept _ => exact h
  | turn hworld _ => rwa [world, hworld]
  | work _ hsteps => exact World.steps_owns h hsteps
  | reply _ _ => exact h
  | disconnect _ => exact h

section Panics

variable {blockSize numGpuBlocks : ℕ} {config : SchedulerConfig}

/-- **The service panics exactly where the model stores keys for a request without a slot.** No run
of the service, whatever the payloads, the ids, the clock and the order of the tasks, panics for
another reason. -/
theorem panics_iff (env : Env) (ops : TensorOps τ) (tokenizer : Option LuminaTokenizer)
    (second : ℕ) (hsize : 0 < blockSize) (actions : List (Action τ)) :
    ((∃ service, history env ops tokenizer second blockSize numGpuBlocks config actions =
        .ok service) ↔
      Machine.Along (step env ops tokenizer second) (fun service action => ¬ service.Slotless action)
        (new env blockSize numGpuBlocks config) actions) ∧
      ∀ fault, history env ops tokenizer second blockSize numGpuBlocks config actions =
        .error fault → fault = .expect "request must be registered" := by
  have hstart : (new env blockSize numGpuBlocks config : Service τ).world.scheduler.blockManager.Owns
      [] := BlockManager.new_owns env hsize numGpuBlocks
  unfold history
  refine Machine.run_failure (I := fun s : Service τ => s.world.scheduler.blockManager.Owns [])
    (E := fun fault => fault = Fault.expect "request must be registered") ?_ ?_ ?_ hstart
  · exact fun _ _ _ howns hstep => steps_owns howns (steps_of_step hstep)
  · exact fun _ action howns hslot => (step_failure env ops tokenizer second howns action).1 hslot
  · intro service action howns hslot
    have hfault := (step_failure env ops tokenizer second howns action).2 (not_not.mp hslot)
    exact ⟨_, hfault, rfl⟩

/-- A run in which the request has a slot. -/
theorem panics_iff_of_one :
    (∃ service, history .counting (.rows ℕ) none 1 4 9 ⟨8, 4⟩
        [.chat (.plain 1 2 0), .schedule 0, .forward [([1, 2, 3], [1, 2, 3])] (some 7), .update] =
          .ok service) ∧
      ∀ fault, history .counting (.rows ℕ) none 1 4 9 ⟨8, 4⟩
        [.chat (.plain 1 2 0), .schedule 0, .forward [([1, 2, 3], [1, 2, 3])] (some 7), .update] =
          .error fault → fault = .expect "request must be registered" :=
  have hpanics := @panics_iff _ 4 9 ⟨8, 4⟩ .counting (.rows ℕ) none 1 (by decide)
    [.chat (.plain 1 2 0), .schedule 0, .forward [([1, 2, 3], [1, 2, 3])] (some 7), .update]
  ⟨hpanics.1.mpr (by decide +kernel), hpanics.2⟩

end Panics

/-! ### Deadlines -/

section Settled

variable {submitted : List Submission}

/-- An action leaves a call that is settled as it is. -/
theorem steps_settled {action : Action τ} (h : Served tokenizer second service submitted)
    (hfresh : service.Fresh action) {id : RequestId} (hcall : id ∈ service.calls.map (·.requestId))
    (hclosed : id ∉ service.world.queued)
    (hsteps : Steps env ops tokenizer second service action service') :
    id ∈ service'.calls.map (·.requestId) ∧ id ∉ service'.world.queued ∧
      service'.received id = service.received id := by
  have hcall' : id ∈ service'.calls.map (·.requestId) := by
    obtain ⟨handler, hhandler, rfl⟩ := List.mem_map.mp hcall
    exact List.mem_map_of_mem ((steps_calls hsteps).mem_iff.mpr (List.mem_append_left _ hhandler))
  refine ⟨hcall', ?_⟩
  cases hsteps with
  | refuse _ => exact ⟨hclosed, rfl⟩
  | @accept handler submission haccept =>
      refine ⟨?_, rfl⟩
      rw [world, World.queued_submit, List.mem_append, List.mem_singleton,
        (Handler.accept_ok haccept).1]
      rintro (hqueued | rfl)
      · exact hclosed hqueued
      · exact hfresh hcall
  | turn hworld _ =>
      rw [received_eq, world, hworld]
      exact ⟨hclosed, rfl⟩
  | work hevent hsteps =>
      obtain ⟨hqueued, hstream⟩ := World.steps_settled h.valid hsteps (eventOf_quiet hevent).2
      exact ⟨fun hmem => hclosed (hqueued hmem), hstream id hclosed⟩
  | reply _ _ => exact ⟨hclosed, rfl⟩
  | disconnect _ => exact ⟨hclosed, rfl⟩

/-- **A call that is settled stays so**: its request never comes back and nothing more is sent. -/
theorem run_settled (h : Served tokenizer second service submitted) {id : RequestId}
    (hcall : id ∈ service.calls.map (·.requestId)) (hclosed : id ∉ service.world.queued)
    {more : List (Action τ)}
    (hfresh : Machine.Along (step env ops tokenizer second) Fresh service more)
    (hrun : Machine.run (step env ops tokenizer second) service more = .ok service') :
    id ∉ service'.world.queued ∧ service'.received id = service.received id := by
  have hkept := Machine.run_invariant (P := Fresh)
    (I := fun s : Service τ => (∃ submitted, Served tokenizer second s submitted) ∧
      id ∈ s.calls.map (·.requestId) ∧ id ∉ s.world.queued ∧
      s.received id = service.received id)
    ?_ ⟨⟨submitted, h⟩, hcall, hclosed, rfl⟩ hfresh hrun
  · exact hkept.2.2
  · rintro s action s' ⟨⟨submitted, hs⟩, hcall, hclosed, hsame⟩ hfresh hstep
    have hsteps := steps_of_step hstep
    obtain ⟨hcall', hclosed', hsame'⟩ := steps_settled hs hfresh hcall hclosed hsteps
    exact ⟨steps_served hs hfresh hsteps, hcall', hclosed', hsame'.trans hsame⟩

/-- A `schedule` that finds a deadline passed settles the call. -/
theorem scheduled_settled (h : Served tokenizer second service submitted) {now : Instant}
    (hplace : service.engine.place = .running) (hphase : service.engine.world.phase = .idle)
    (hstep : service.step env ops tokenizer second (.schedule now) = .ok service')
    {handler : Handler} (hcall : handler ∈ service.calls)
    (hdue : handler.now + 300 * second ≤ now) :
    handler.requestId ∉ service'.world.queued ∧
      service'.received handler.requestId = service.received handler.requestId := by
  obtain ⟨engine, hengine, rfl⟩ := advance_eq_ok hstep
  rw [Engine.step, if_pos ⟨hplace, hphase⟩] at hengine
  obtain ⟨next, hnext, heq⟩ := Machine.bind_eq_ok.mp hengine
  cases heq
  have hsteps := World.steps_of_step hnext
  obtain ⟨hqueued, hstream⟩ := World.steps_settled h.valid hsteps fun _ => by simp
  by_cases hmem : handler.requestId ∈ service.world.queued
  · -- its request is in a queue, with the deadline that the handler gave it
    obtain ⟨req, hreq, hid⟩ := mem_ids.mp hmem
    obtain ⟨submission, hsubmission, horigin⟩ := h.streamed.origin req hreq
    have hids : submission.id = handler.requestId :=
      (congrArg Request.id horigin : req.id = submission.id).symm.trans hid
    have haccept := h.accepted hcall hsubmission hids
    have hdeadline : req.deadline = some submission.deadline := congrArg Request.deadline horigin
    have hexpired : req.Expired now := by
      refine ⟨submission.deadline, hdeadline, ?_⟩
      rw [(Handler.accept_ok haccept).2.2.2]
      exact hdue
    have hleft := World.scheduled_unexpired h.valid hphase hsteps hreq hexpired
    rw [hid] at hleft
    refine ⟨hleft, ?_⟩
    cases hsteps with
    | disabled _ => rfl
    | park _ _ => rfl
    | begin _ _ => rfl
  · exact ⟨fun hnew => hmem (hqueued hnew), hstream _ hmem⟩

end Settled

section Deadlines

variable {blockSize numGpuBlocks : ℕ} {config : SchedulerConfig}

/-- **No token after the deadline.** Once a `schedule` of the running worker has read an instant at
or after the deadline of a call, nothing is sent to its client any more, whatever happens from then
on, and the handler finds its channel closed. -/
theorem silent_after_deadline {before more : List (Action τ)} {now : Instant}
    (hfresh : Machine.Along (step env ops tokenizer second) Fresh
      (new env blockSize numGpuBlocks config) before)
    (hbefore : history env ops tokenizer second blockSize numGpuBlocks config before = .ok service)
    (hplace : service.engine.place = .running) (hphase : service.engine.world.phase = .idle)
    {next last : Service τ}
    (hstep : service.step env ops tokenizer second (.schedule now) = .ok next)
    (hmore : Machine.run (step env ops tokenizer second) next more = .ok last)
    (hlater : Machine.Along (step env ops tokenizer second) Fresh next more)
    {handler : Handler} (hcall : Action.chat handler ∈ before)
    (hdue : handler.now + 300 * second ≤ now) :
    last.received handler.requestId = service.received handler.requestId ∧
      last.Closed handler.requestId := by
  obtain ⟨submitted, h⟩ := history_served hfresh hbefore
  have hmem : handler ∈ service.calls := by
    refine (calls_perm hbefore).mem_iff.mpr ?_
    exact List.mem_filterMap.mpr ⟨_, hcall, rfl⟩
  obtain ⟨hclosed, hsame⟩ := scheduled_settled h hplace hphase hstep hmem hdue
  have hsteps := steps_of_step hstep
  have hquiet : service.Fresh (.schedule now) := trivial
  obtain ⟨_, hnext⟩ := steps_served h hquiet hsteps
  have hcalls : handler.requestId ∈ next.calls.map (·.requestId) :=
    List.mem_map_of_mem ((steps_calls hsteps).mem_iff.mpr (List.mem_append_left _ hmem))
  obtain ⟨hlast, hsettled⟩ := run_settled hnext hcalls hclosed hlater hmore
  exact ⟨hsettled.trans hsame, closed_iff.mpr hlast⟩

/-- A request for three tokens whose deadline passes after the first. -/
theorem silent_after_deadline_of_one :
    ∃ service next last : Service (List ℕ),
      history .counting (.rows ℕ) none 1 4 9 ⟨8, 4⟩
        [.chat (.plain 1 3 0), .schedule 0, .forward [([1, 2, 3], [1, 2, 3])] (some 7),
          .update] = .ok service ∧
      service.step .counting (.rows ℕ) none 1 (.schedule 300) = .ok next ∧
      Machine.run (step .counting (.rows ℕ) none 1) next
        [.chat (.plain 2 1 300), .notify 2, .await, .schedule 300,
          .forward [([1, 2, 3], [1, 2, 3])] (some 8), .update] = .ok last ∧
      last.received 1 = service.received 1 ∧ service.received 1 = [7] ∧ last.Closed 1 := by
  have hrun : ∃ service, history .counting (.rows ℕ) none 1 4 9 ⟨8, 4⟩
      [.chat (.plain 1 3 0), .schedule 0, .forward [([1, 2, 3], [1, 2, 3])] (some 7),
        .update] = .ok service ∧
      (service.engine.place = .running ∧ service.engine.world.phase = .idle ∧
        service.received 1 = [7]) ∧
      ∃ next, service.step .counting (.rows ℕ) none 1 (.schedule 300) = .ok next ∧
        Machine.Along (step .counting (.rows ℕ) none 1) Fresh next
          [.chat (.plain 2 1 300), .notify 2, .await, .schedule 300,
            .forward [([1, 2, 3], [1, 2, 3])] (some 8), .update] ∧
        ∃ last, Machine.run (step .counting (.rows ℕ) none 1) next
          [.chat (.plain 2 1 300), .notify 2, .await, .schedule 300,
            .forward [([1, 2, 3], [1, 2, 3])] (some 8), .update] = .ok last ∧ True := by
    decide +kernel
  obtain ⟨service, hrun, ⟨hplace, hphase, htoken⟩, next, hstep, hlater, last, hmore, -⟩ := hrun
  obtain ⟨hsame, hclosed⟩ := silent_after_deadline (by decide +kernel)
    hrun hplace hphase hstep hmore hlater List.mem_cons_self (by decide)
  exact ⟨service, next, last, hrun, hstep, hmore, hsame, htoken, hclosed⟩

end Deadlines

/-! ### The end of the worker loop -/

/-- What is left of a service whose worker loop stopped in the state `stop`: the queued requests
stay, and who waits for them gets no reply. -/
structure Hung (tokenizer : Option LuminaTokenizer) (second : ℕ) (stop service : Service τ) :
    Prop where
  phase : service.engine.world.phase = .stopped
  queued : stop.world.queued <+: service.world.queued
  received : ∀ id, service.received id = stop.received id
  handlers : ∀ handler ∈ service.handlers,
    handler ∈ stop.handlers ∨ handler.requestId ∈ service.world.queued
  replies : ∀ entry ∈ service.replies, entry ∈ stop.replies ∨
    (entry.1 ∈ stop.handlers ∧ stop.Closed entry.1.requestId) ∨
    entry.1.accept tokenizer second = .error entry.2

theorem hung_refl {stop : Service τ} (hphase : stop.engine.world.phase = .stopped) :
    Hung tokenizer second stop stop where
  phase := hphase
  queued := List.prefix_refl _
  received _ := rfl
  handlers _ hhandler := Or.inl hhandler
  replies _ hentry := Or.inl hentry

theorem Hung.of_world {stop : Service τ} (h : Hung tokenizer second stop service)
    (hworld : service'.world = service.world) (hhandlers : service'.handlers = service.handlers)
    (hreplies : service'.replies = service.replies) : Hung tokenizer second stop service' where
  phase := by
    rw [show service'.engine.world = service.engine.world from hworld]
    exact h.phase
  queued := by
    rw [hworld]
    exact h.queued
  received id := by
    rw [received_eq, hworld]
    exact h.received id
  handlers := by
    rw [hworld, hhandlers]
    exact h.handlers
  replies := by
    rw [hreplies]
    exact h.replies

theorem mem_of_mem_without {id : RequestId} {handler : Handler}
    (h : handler ∈ service.without id) : handler ∈ service.handlers := List.mem_of_mem_eraseP h

theorem steps_hung {stop : Service τ} {action : Action τ} (h : Hung tokenizer second stop service)
    (hsteps : Steps env ops tokenizer second service action service') :
    Hung tokenizer second stop service' := by
  cases hsteps with
  | refuse haccept =>
      refine ⟨h.phase, h.queued, h.received, h.handlers, ?_⟩
      intro entry hentry
      rcases List.mem_append.mp hentry with hold | hnew
      · exact h.replies entry hold
      · rw [List.mem_singleton.mp hnew]
        exact Or.inr (Or.inr haccept)
  | @accept handler submission haccept =>
      have hqueued : World.queued (service.engine.world.submit submission) =
          service.world.queued ++ [submission.id] := World.queued_submit _ _
      refine ⟨h.phase, ?_, h.received, ?_, h.replies⟩
      · rw [world, hqueued]
        exact h.queued.trans (List.prefix_append _ _)
      · intro other hother
        rw [world, hqueued, List.mem_append, List.mem_singleton, (Handler.accept_ok haccept).1]
        rcases List.mem_append.mp hother with hold | hnew
        · exact (h.handlers other hold).imp_right Or.inl
        · rw [List.mem_singleton.mp hnew]
          exact Or.inr (Or.inr rfl)
  | turn hworld _ => exact h.of_world hworld rfl rfl
  | work hevent hsteps =>
      exact h.of_world (World.steps_stopped h.phase hsteps (eventOf_quiet hevent).2) rfl rfl
  | @reply requestId handler hfind hclosed =>
      refine ⟨h.phase, h.queued, h.received,
        fun other hother => h.handlers other (mem_of_mem_without hother), ?_⟩
      intro entry hentry
      rcases List.mem_append.mp hentry with hold | hnew
      · exact h.replies entry hold
      · rw [List.mem_singleton.mp hnew]
        have hid := findHandler_id hfind
        have hout := closed_iff.mp hclosed
        have hmem : handler ∈ service.handlers := List.mem_of_find?_eq_some hfind
        refine Or.inr (Or.inl ⟨(h.handlers handler hmem).resolve_right (hid ▸ hout), ?_⟩)
        exact closed_iff.mpr fun hqueued => hout (hid ▸ h.queued.subset hqueued)
  | disconnect hfind =>
      exact ⟨h.phase, h.queued, h.received,
        fun other hother => h.handlers other (mem_of_mem_without hother), h.replies⟩

/-- **After an error of the worker loop no queued request is answered.** From a stopped state on, all
replies but refusals go to handlers that waited then and whose requests had left the queues; the
queued requests stay where they are, and no client is sent another token. -/
theorem stopped_hangs {stop last : Service τ} (hstop : stop.engine.world.phase = .stopped)
    {more : List (Action τ)}
    (hmore : Machine.run (step env ops tokenizer second) stop more = .ok last) :
    (∀ req ∈ stop.engine.world.scheduler.runningQueue ++ stop.engine.world.scheduler.waitingQueue,
        ¬ last.Closed req.id) ∧
      (∀ id, last.received id = stop.received id) ∧
      ∀ entry ∈ last.replies, entry ∈ stop.replies ∨
        (entry.1 ∈ stop.handlers ∧ stop.Closed entry.1.requestId) ∨
        entry.1.accept tokenizer second = .error entry.2 := by
  have hhung : Hung tokenizer second stop last :=
    Machine.run_invariant (P := fun _ _ => True) (I := Hung tokenizer second stop)
      (fun _ _ _ h _ hstep => steps_hung h (steps_of_step hstep)) (hung_refl hstop)
      (Machine.along_true _ _) hmore
  refine ⟨fun req hreq hclosed => ?_, hhung.received, hhung.replies⟩
  exact closed_iff.mp hclosed (hhung.queued.subset (mem_ids.mpr ⟨req, hreq, rfl⟩))

/-- The second of two requests makes the model fail. -/
theorem stopped_hangs_of_two :
    ∃ stop last : Service (List ℕ),
      history .counting (.rows ℕ) none 1 4 9 ⟨8, 4⟩
        [.chat (.plain 1 1 0), .chat (.plain 2 1 0), .schedule 0,
          .forward [([1, 2, 3], [1, 2, 3])] (some 7), .forward [] none] = .ok stop ∧
      Machine.run (step .counting (.rows ℕ) none 1) stop
        [.update, .schedule 300, .reply 1, .disconnect 2] = .ok last ∧
      stop.engine.world.scheduler.runningQueue.map (·.id) = [1, 2] ∧
      ∀ req ∈ stop.engine.world.scheduler.runningQueue ++
        stop.engine.world.scheduler.waitingQueue, ¬ last.Closed req.id := by
  have hrun : ∃ stop, history .counting (.rows ℕ) none 1 4 9 ⟨8, 4⟩
      [.chat (.plain 1 1 0), .chat (.plain 2 1 0), .schedule 0,
        .forward [([1, 2, 3], [1, 2, 3])] (some 7), .forward [] none] = .ok stop ∧
      stop.engine.world.phase = .stopped ∧
      stop.engine.world.scheduler.runningQueue.map (·.id) = [1, 2] ∧
      ∃ last, Machine.run (step .counting (.rows ℕ) none 1) stop
        [.update, .schedule 300, .reply 1, .disconnect 2] = .ok last ∧ True := by
    decide +kernel
  obtain ⟨stop, hrun, hstop, hids, last, hmore, -⟩ := hrun
  exact ⟨stop, last, hrun, hmore, hids, (stopped_hangs hstop hmore).1⟩

end Service
end Kyro
