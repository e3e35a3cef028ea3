import Kyro.Proof.Worker.Stream
import Kyro.Proof.Worker.Wakeup
import Kyro.Service

/-!
# The steps of the service

An action of the service is one of five things: nothing, a refusal, a request that is added, an
event of the worker loop, or a handler that ends. A request that has left the queues is settled: no
event of the worker sends another token on its channel.
-/

namespace Kyro

namespace World

open Worker

variable {τ : Type} {env : Env} {ops : TensorOps τ} {world world' : World τ}

/-- The requests in the queues. -/
def queued (world : World τ) : List RequestId :=
  ids (world.scheduler.runningQueue ++ world.scheduler.waitingQueue)

@[simp] theorem queued_submit (world : World τ) (submission : Submission) :
    (world.submit submission).queued = world.queued ++ [submission.id] := by
  simp [queued, submit, Scheduler.addRequest, ids, Submission.toRequest]

/-- What the counter of the tokens is moved by. -/
def counted (world : World τ) : Event τ → ℕ
  | .update => world.generated
  | _ => 0

/-- An update keeps the ids of the waiting requests, and of the running ones those that are not
done. -/
theorem updated_queued (hvalid : world.Valid) {toPrefill : List RequestId} {batch : List WorkItem}
    {results : List ComputeResult} {scheduler : Scheduler} {cache : KVCacheManager τ}
    {sent : List (RequestId × Token)}
    (hphase : world.phase = .computing toPrefill batch results)
    (hupdate : Worker.update env world.scheduler world.cache toPrefill results =
      .ok (scheduler, cache, sent)) :
    ids (scheduler.runningQueue ++ scheduler.waitingQueue) ⊆ world.queued := by
  obtain ⟨prefills, hbatched⟩ := hvalid.batched _ _ _ hphase
  intro id hid
  rw [ids_append, List.mem_append] at hid
  rw [queued, ids_append, List.mem_append]
  rcases hid with hid | hid
  · obtain ⟨req, hreq, rfl⟩ := mem_ids.mp hid
    obtain ⟨old, hold, rfl, _⟩ := updated_running hvalid hphase hupdate hreq
    exact Or.inl (mem_ids.mpr ⟨old, hold, (Request.settled_id ..).symm⟩)
  · rw [(update_spec hvalid.running_nodup (hbatched.toPrefill_nodup hvalid) hupdate).1] at hid
    exact Or.inr hid

/-- **What has left the queues is settled.** Only a submission puts an id into the queues, and no
event sends a token to a client whose request is not in them. -/
theorem steps_settled {event : Event τ} (hvalid : world.Valid)
    (hsteps : Steps env ops world event world')
    (hevent : ∀ submission, event ≠ .submit submission) :
    world'.queued ⊆ world.queued ∧
      ∀ id, id ∉ world.queued → world'.stream id = world.stream id := by
  cases hsteps with
  | disabled hdisabled => exact ⟨List.Subset.refl _, fun _ _ => rfl⟩
  | submit submission => exact absurd rfl (hevent submission)
  | park hphase hschedule =>
      obtain ⟨_, _, _, _, hspec⟩ := Scheduler.schedule_spec hschedule
      exact ⟨hspec.ids_sublist.subset, fun _ _ => rfl⟩
  | begin hphase hschedule =>
      obtain ⟨_, _, _, _, hspec⟩ := Scheduler.schedule_spec hschedule
      exact ⟨hspec.ids_sublist.subset, fun _ _ => rfl⟩
  | answer hphase hitem happend => exact ⟨List.Subset.refl _, fun _ _ => rfl⟩
  | fail hphase hitem happend => exact ⟨List.Subset.refl _, fun _ _ => rfl⟩
  | @update toPrefill batch results scheduler cache sent hphase hlength hupdate =>
      obtain ⟨prefills, hbatched⟩ := hvalid.batched _ _ _ hphase
      refine ⟨updated_queued hvalid hphase hupdate, fun id hid => ?_⟩
      obtain rfl := hbatched.sent_results hvalid hlength hupdate
      have hrunning : id ∉ ids world.scheduler.runningQueue := by
        intro hmem
        apply hid
        rw [queued, ids_append]
        exact List.mem_append_left _ hmem
      rw [stream_update, hbatched.answers_eq_nil hlength hrunning, List.append_nil]

end World

namespace Service

variable {τ : Type} {env : Env} {ops : TensorOps τ} {tokenizer : Option LuminaTokenizer}
  {second : ℕ} {service service' : Service τ}

/-- The worker loop that the service runs. -/
abbrev world (service : Service τ) : World τ := service.engine.world

theorem received_eq (service : Service τ) (id : RequestId) :
    service.received id = service.world.stream id := rfl

theorem closed_iff {id : RequestId} : service.Closed id ↔ id ∉ service.world.queued := by
  rw [Closed, World.queued, mem_ids]
  exact ⟨fun h ⟨req, hreq, hid⟩ => h req hreq hid, fun h req hreq hid => h ⟨req, hreq, hid⟩⟩

/-- All calls of `chat_completions` so far. -/
def calls (service : Service τ) : List Handler :=
  service.handlers ++ service.replies.map Prod.fst ++ service.dropped

/-- The call that an action begins. -/
def Action.call : Action τ → Option Handler
  | .chat handler => some handler
  | _ => none

/-- The event of the worker loop that an action is, if the worker can take it. -/
def eventOf (service : Service τ) : Action τ → Option (Event τ)
  | .schedule now =>
    if service.engine.place = .running ∧ service.engine.world.phase = .idle then
      some (.schedule now)
    else none
  | .forward appends token => some (.forward appends token)
  | .update => some .update
  | _ => none

/-- The worker does not submit, and its actions are no calls. -/
theorem eventOf_quiet {action : Action τ} {event : Event τ}
    (h : service.eventOf action = some event) :
    action.call = none ∧ ∀ submission, event ≠ .submit submission := by
  constructor
  · cases action with
    | chat _ => cases h
    | notify _ => rfl
    | schedule _ => rfl
    | await => rfl
    | forward _ _ => rfl
    | update => rfl
    | reply _ => rfl
    | disconnect _ => rfl
  · rintro submission rfl
    cases action with
    | schedule now =>
        rw [eventOf] at h
        split at h
        · cases h
        · cases h
    | chat _ => cases h
    | notify _ => cases h
    | await => cases h
    | forward _ _ => cases h
    | update => cases h
    | reply _ => cases h
    | disconnect _ => cases h

/-- What an action does. -/
inductive Steps (env : Env) (ops : TensorOps τ) (tokenizer : Option LuminaTokenizer) (second : ℕ)
    (service : Service τ) : Action τ → Service τ → Prop
  | refuse {handler : Handler} {reply : Reply}
      (haccept : handler.accept tokenizer second = .error reply) :
      Steps env ops tokenizer second service (.chat handler)
        { service with replies := service.replies ++ [(handler, reply)] }
  | accept {handler : Handler} {submission : Submission}
      (haccept : handler.accept tokenizer second = .ok submission) :
      Steps env ops tokenizer second service (.chat handler)
        { service with
          engine := { service.engine with world := service.engine.world.submit submission }
          handlers := service.handlers ++ [handler] }
  /-- The permit or the place of the worker changes at most. -/
  | turn {action : Action τ} {engine : Engine τ} (hworld : engine.world = service.engine.world)
      (hcall : action.call = none) :
      Steps env ops tokenizer second service action { service with engine }
  | work {action : Action τ} {event : Event τ} {engine : Engine τ}
      (hevent : service.eventOf action = some event)
      (hsteps : World.Steps env ops service.engine.world event engine.world) :
      Steps env ops tokenizer second service action
        { service with
          engine
          totalTokensGenerated :=
            service.totalTokensGenerated + service.engine.world.counted event }
  | reply {requestId : RequestId} {handler : Handler}
      (hfind : service.findHandler requestId = some handler) (hclosed : service.Closed requestId) :
      Steps env ops tokenizer second service (.reply requestId)
        { service with
          handlers := service.without requestId
          replies := service.replies ++
            [(handler, handler.reply tokenizer (service.received requestId))] }
  | disconnect {requestId : RequestId} {handler : Handler}
      (hfind : service.findHandler requestId = some handler) :
      Steps env ops tokenizer second service (.disconnect requestId)
        { service with
          handlers := service.without requestId
          dropped := service.dropped ++ [handler] }

theorem advance_eq_ok {action : Kyro.Action τ} (h : service.advance env ops action = .ok service') :
    ∃ engine, service.engine.step env ops action = .ok engine ∧
      service' = { service with engine } := by
  obtain ⟨engine, hstep, heq⟩ := Machine.bind_eq_ok.mp h
  cases heq
  exact ⟨engine, hstep, rfl⟩

/-- Every step is one of these. -/
theorem steps_of_step {action : Action τ}
    (h : service.step env ops tokenizer second action = .ok service') :
    Steps env ops tokenizer second service action service' := by
  cases action with
  | chat handler =>
      rw [step] at h
      split at h
      · rename_i reply haccept
        cases h
        exact .refuse haccept
      · rename_i submission haccept
        obtain ⟨next, hadvance, heq⟩ := Machine.bind_eq_ok.mp h
        obtain ⟨engine, hstep, rfl⟩ := advance_eq_ok hadvance
        cases hstep
        cases heq
        exact .accept haccept
  | notify handler =>
      obtain ⟨engine, hstep, rfl⟩ := advance_eq_ok h
      rw [Engine.step] at hstep
      refine .turn ?_ rfl
      split at hstep
      · cases hstep
        exact service.engine.notifyOne_world
      · cases hstep
        rfl
  | schedule now =>
      obtain ⟨engine, hstep, rfl⟩ := advance_eq_ok h
      rw [Engine.step] at hstep
      split at hstep
      · rename_i hidle
        obtain ⟨world, hworld, heq⟩ := Machine.bind_eq_ok.mp hstep
        cases heq
        have hevent : service.eventOf (.schedule now) = some (.schedule now) := if_pos hidle
        exact .work hevent (World.steps_of_step hworld)
      · cases hstep
        exact .turn rfl rfl
  | await =>
      obtain ⟨engine, hstep, rfl⟩ := advance_eq_ok h
      rw [Engine.step] at hstep
      refine .turn ?_ rfl
      split at hstep
      · cases hstep
        rw [Engine.awaitNotified]
        split <;> rfl
      · cases hstep
        rfl
  | forward appends token =>
      obtain ⟨engine, hstep, rfl⟩ := advance_eq_ok h
      obtain ⟨world, hworld, heq⟩ := Machine.bind_eq_ok.mp hstep
      cases heq
      have hevent : service.eventOf (.forward appends token) = some (.forward appends token) := rfl
      exact .work hevent (World.steps_of_step hworld)
  | update =>
      obtain ⟨next, hadvance, heq⟩ := Machine.bind_eq_ok.mp h
      obtain ⟨engine, hstep, rfl⟩ := advance_eq_ok hadvance
      obtain ⟨world, hworld, heq'⟩ := Machine.bind_eq_ok.mp hstep
      cases heq'
      cases heq
      have hevent : service.eventOf .update = some .update := rfl
      exact .work hevent (World.steps_of_step hworld)
  | reply requestId =>
      rw [step] at h
      split at h
      · rename_i handler hfind
        split at h
        · rename_i hclosed
          cases h
          exact .reply hfind hclosed
        · cases h
          exact .turn rfl rfl
      · cases h
        exact .turn rfl rfl
  | disconnect requestId =>
      rw [step] at h
      split at h
      · rename_i handler hfind
        cases h
        exact .disconnect hfind
      · cases h
        exact .turn rfl rfl

end Service
end Kyro
