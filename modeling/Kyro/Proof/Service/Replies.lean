import Kyro.Proof.Service.Steps
import Kyro.Proof.Worker.Drain

/-!
# Replies

A reply is what the whole stream of its request gives: the handler replies when the request has left
the queues, and then nothing more is sent. A payload that is refused never reaches the scheduler,
and no call is lost or answered twice.
-/

namespace Kyro

namespace Handler

variable {tokenizer : Option LuminaTokenizer} {second : ℕ} {handler : Handler}

/-- A refusal is the reply to the payload, whatever tokens there are. -/
theorem accept_error {refusal : Reply} (h : handler.accept tokenizer second = .error refusal)
    (tokens : List Token) : handler.reply tokenizer tokens = refusal := by
  rw [accept] at h
  rw [reply, OpenAi.chatCompletions]
  split at h
  · rename_i hempty
    cases h
    rw [if_pos hempty]
  · rename_i hempty
    rw [if_neg hempty]
    dsimp only
    cases hprompt : OpenAi.promptTokens tokenizer
        (OpenAi.extractPromptText handler.request.payload.messages) with
    | error e =>
        rw [hprompt] at h
        cases h
        rfl
    | ok promptTokens =>
        rw [hprompt] at h
        cases h

/-- What a request that is added has from its payload. -/
theorem accept_ok {submission : Submission} (h : handler.accept tokenizer second = .ok submission) :
    submission.id = handler.requestId ∧ submission.maxTokens = handler.request.maxTokensOr ∧
      submission.stopTokens = handler.request.stopTokens tokenizer ∧
      submission.deadline = handler.now + 300 * second := by
  rw [accept] at h
  split at h
  · cases h
  · split at h
    · cases h
    · cases h
      exact ⟨rfl, rfl, rfl, rfl⟩

end Handler

namespace Service

variable {τ : Type} {env : Env} {ops : TensorOps τ} {tokenizer : Option LuminaTokenizer}
  {second : ℕ} {service service' : Service τ}

/-! ### Calls -/

/-- Taking out what a search finds. -/
theorem perm_eraseP_of_find? {α : Type*} {p : α → Bool} {l : List α} {a : α}
    (h : l.find? p = some a) : l.Perm (a :: l.eraseP p) := by
  induction l with
  | nil => cases h
  | cons b l ih =>
      rw [List.find?_cons] at h
      split at h
      · rename_i hb
        cases h
        rw [List.eraseP_cons_of_pos hb]
      · rename_i hb
        rw [List.eraseP_cons_of_neg (by simp [hb])]
        exact ((ih h).cons b).trans (.swap a b _)

theorem findHandler_id {id : RequestId} {handler : Handler}
    (h : service.findHandler id = some handler) : handler.requestId = id := by
  rw [findHandler] at h
  simpa using List.find?_some h

theorem handlers_perm {id : RequestId} {handler : Handler}
    (h : service.findHandler id = some handler) :
    service.handlers.Perm (handler :: service.without id) := perm_eraseP_of_find? h

/-- An action adds the call that it begins, and no other loses or changes one. -/
theorem steps_calls {action : Action τ}
    (hsteps : Steps env ops tokenizer second service action service') :
    service'.calls.Perm (service.calls ++ action.call.toList) := by
  cases hsteps with
  | @refuse handler refusal haccept =>
      rw [calls, calls, List.map_append]
      refine List.perm_iff_count.mpr fun other => ?_
      simp only [Action.call, Option.toList_some, List.map_cons, List.map_nil, List.count_append]
      omega
  | @accept handler submission haccept =>
      rw [calls, calls]
      refine List.perm_iff_count.mpr fun other => ?_
      simp only [Action.call, Option.toList_some, List.count_append]
      omega
  | turn hworld hcall =>
      rw [hcall, Option.toList_none, List.append_nil]
      exact .refl _
  | work hevent hsteps =>
      rw [(eventOf_quiet hevent).1, Option.toList_none, List.append_nil]
      exact .refl _
  | @reply requestId handler hfind hclosed =>
      have hcount := List.perm_iff_count.mp (handlers_perm hfind)
      rw [calls, calls, List.map_append]
      refine List.perm_iff_count.mpr fun other => ?_
      have := hcount other
      simp only [Action.call, Option.toList_none, List.map_cons, List.map_nil, List.count_append,
        List.count_cons, List.count_nil] at this ⊢
      omega
  | @disconnect requestId handler hfind =>
      have hcount := List.perm_iff_count.mp (handlers_perm hfind)
      rw [calls, calls]
      refine List.perm_iff_count.mpr fun other => ?_
      have := hcount other
      simp only [Action.call, Option.toList_none, List.count_append, List.count_cons,
        List.count_nil] at this ⊢
      omega

/-! ### The invariant -/

/-- The submitted requests come from the calls; those in the queues have a handler that has not
replied, and a reply is what the stream of its request gives. -/
structure Served (tokenizer : Option LuminaTokenizer) (second : ℕ) (service : Service τ)
    (submitted : List Submission) : Prop where
  valid : service.world.Valid
  streamed : service.world.Streamed submitted
  nodup : (service.calls.map (·.requestId)).Nodup
  origin : ∀ submission ∈ submitted, ∃ handler ∈ service.calls,
    handler.accept tokenizer second = .ok submission
  waits : ∀ id ∈ service.world.queued,
    id ∈ service.handlers.map (·.requestId) ∨ id ∈ service.dropped.map (·.requestId)
  replied : ∀ entry ∈ service.replies,
    entry.2 = entry.1.reply tokenizer (service.received entry.1.requestId)

section Invariant

variable {submitted : List Submission}

/-- Only calls submit requests. -/
theorem Served.known (h : Served tokenizer second service submitted) {id : RequestId}
    (hid : id ∈ service.world.submitted) : id ∈ service.calls.map (·.requestId) := by
  rw [← h.streamed.ids_eq] at hid
  obtain ⟨submission, hsubmission, rfl⟩ := List.mem_map.mp hid
  obtain ⟨handler, hhandler, haccept⟩ := h.origin submission hsubmission
  rw [(Handler.accept_ok haccept).1]
  exact List.mem_map_of_mem hhandler

/-- A request with a reply is not queued. -/
theorem Served.closed (h : Served tokenizer second service submitted) {entry : Handler × Reply}
    (hentry : entry ∈ service.replies) : entry.1.requestId ∉ service.world.queued := by
  intro hqueued
  have hreplied : entry.1.requestId ∈ (service.replies.map Prod.fst).map (·.requestId) :=
    List.mem_map_of_mem (List.mem_map_of_mem hentry)
  have hnodup := h.nodup
  rw [calls, List.map_append, List.map_append] at hnodup
  obtain ⟨hfront, -, hdropped⟩ := List.nodup_append.mp hnodup
  obtain ⟨-, -, hhandlers⟩ := List.nodup_append.mp hfront
  rcases h.waits _ hqueued with hmem | hmem
  · exact hhandlers _ hmem _ hreplied rfl
  · exact hdropped _ (List.mem_append_right _ hreplied) _ hmem rfl

/-- The submission of a call is its own. -/
theorem Served.accepted (h : Served tokenizer second service submitted) {handler : Handler}
    (hhandler : handler ∈ service.calls) {submission : Submission}
    (hsubmission : submission ∈ submitted) (hid : submission.id = handler.requestId) :
    handler.accept tokenizer second = .ok submission := by
  obtain ⟨other, hother, haccept⟩ := h.origin submission hsubmission
  have heq : other = handler := List.inj_on_of_nodup_map h.nodup hother hhandler
    ((Handler.accept_ok haccept).1.symm.trans hid)
  exact heq ▸ haccept

/-- A refused call submits nothing. -/
theorem Served.refused (h : Served tokenizer second service submitted) {handler : Handler}
    (hhandler : handler ∈ service.calls) {refusal : Reply}
    (hrefused : handler.accept tokenizer second = .error refusal) :
    handler.requestId ∉ service.world.submitted := by
  intro hknown
  rw [← h.streamed.ids_eq] at hknown
  obtain ⟨submission, hsubmission, hid⟩ := List.mem_map.mp hknown
  rw [h.accepted hhandler hsubmission hid] at hrefused
  cases hrefused

theorem new_served (env : Env) (blockSize numGpuBlocks : ℕ) (config : SchedulerConfig) :
    Served tokenizer second (new env blockSize numGpuBlocks config : Service τ) [] where
  valid := World.new_valid env blockSize numGpuBlocks config
  streamed := World.new_streamed env blockSize numGpuBlocks config
  nodup := List.nodup_nil
  origin submission hsubmission := by cases hsubmission
  waits id hid := by cases hid
  replied entry hentry := by cases hentry

/-- An action that leaves the world as it is. -/
theorem Served.of_world (h : Served tokenizer second service submitted)
    (hworld : service'.world = service.world)
    (hnodup : (service'.calls.map (·.requestId)).Nodup)
    (hcalls : ∀ handler ∈ service.calls, handler ∈ service'.calls)
    (hwaits : ∀ id ∈ service.world.queued,
      id ∈ service'.handlers.map (·.requestId) ∨ id ∈ service'.dropped.map (·.requestId))
    (hreplied : ∀ entry ∈ service'.replies,
      entry.2 = entry.1.reply tokenizer (service.received entry.1.requestId)) :
    Served tokenizer second service' submitted where
  valid := hworld ▸ h.valid
  streamed := hworld ▸ h.streamed
  nodup := hnodup
  origin submission hsubmission := by
    obtain ⟨handler, hhandler, haccept⟩ := h.origin submission hsubmission
    exact ⟨handler, hcalls handler hhandler, haccept⟩
  waits id hid := hwaits id (hworld ▸ hid)
  replied entry hentry := by
    rw [received_eq, hworld]
    exact hreplied entry hentry

/-- The ids of the calls stay distinct. -/
theorem steps_nodup {action : Action τ} (h : (service.calls.map (·.requestId)).Nodup)
    (hfresh : service.Fresh action)
    (hsteps : Steps env ops tokenizer second service action service') :
    (service'.calls.map (·.requestId)).Nodup := by
  rw [((steps_calls hsteps).map _).nodup_iff, List.map_append, List.nodup_append]
  refine ⟨h, ?_, ?_⟩
  · cases action.call with
    | none => exact List.nodup_nil
    | some handler => exact List.nodup_singleton _
  · rintro id hid other hother rfl
    cases action with
    | chat handler =>
        rw [List.mem_singleton.mp hother] at hid
        exact hfresh hid
    | notify _ => cases hother
    | schedule _ => cases hother
    | await => cases hother
    | forward _ _ => cases hother
    | update => cases hother
    | reply _ => cases hother
    | disconnect _ => cases hother

/-- A handler that ends: the others stay. -/
theorem mem_ids_of_ended {requestId id : RequestId} {handler : Handler}
    (hfind : service.findHandler requestId = some handler)
    (hid : id ∈ service.handlers.map (·.requestId)) :
    id = requestId ∨ id ∈ (service.without requestId).map (·.requestId) := by
  have hmem := (((handlers_perm hfind).map (·.requestId)).mem_iff).mp hid
  rw [List.map_cons, List.mem_cons, findHandler_id hfind] at hmem
  exact hmem

/-- **Every action keeps the calls and their replies in order.** -/
theorem steps_served {action : Action τ} (h : Served tokenizer second service submitted)
    (hfresh : service.Fresh action)
    (hsteps : Steps env ops tokenizer second service action service') :
    ∃ submitted', Served tokenizer second service' submitted' := by
  have hnodup := steps_nodup h.nodup hfresh hsteps
  have hcalls : ∀ handler ∈ service.calls, handler ∈ service'.calls := fun handler hhandler =>
    (steps_calls hsteps).mem_iff.mpr (List.mem_append_left _ hhandler)
  cases hsteps with
  | refuse haccept =>
      refine ⟨submitted, h.of_world rfl hnodup hcalls h.waits ?_⟩
      intro entry hentry
      rcases List.mem_append.mp hentry with hold | hnew
      · exact h.replied entry hold
      · rw [List.mem_singleton.mp hnew]
        exact (Handler.accept_error haccept _).symm
  | @accept handler submission haccept =>
      have hid := (Handler.accept_ok haccept).1
      have hnew : submission.id ∉ service.world.submitted := by
        rw [hid]
        exact fun hmem => hfresh (h.known hmem)
      refine ⟨submitted ++ [submission], World.submit_valid h.valid hnew,
        World.submit_streamed h.streamed hnew, hnodup, ?_, ?_, h.replied⟩
      · intro other hother
        rcases List.mem_append.mp hother with hold | hlast
        · obtain ⟨caller, hcaller, haccepted⟩ := h.origin other hold
          exact ⟨caller, hcalls caller hcaller, haccepted⟩
        · rw [List.mem_singleton.mp hlast]
          refine ⟨handler, ?_, haccept⟩
          simp [calls]
      · intro id hmem
        rw [world, World.queued_submit, List.mem_append, List.mem_singleton, hid] at hmem
        rw [List.map_append, List.mem_append]
        rcases hmem with hold | rfl
        · exact (h.waits id hold).imp_left Or.inl
        · exact Or.inl (Or.inr List.mem_cons_self)
  | turn hworld hcall =>
      refine ⟨submitted, h.of_world hworld hnodup hcalls h.waits h.replied⟩
  | @work action event engine hevent hsteps =>
      have hquiet := (eventOf_quiet hevent).2
      have hworld : service.world.Fresh event := World.fresh_of_quiet hquiet _
      obtain ⟨hqueued, hsettled⟩ := World.steps_settled h.valid hsteps hquiet
      have hnone : service.world.submissions event = [] := by
        cases event with
        | submit submission => exact absurd rfl (hquiet submission)
        | schedule _ => rfl
        | forward _ _ => rfl
        | update => rfl
      have hstreamed := World.steps_streamed h.valid h.streamed hworld hsteps
      rw [hnone, List.append_nil] at hstreamed
      refine ⟨submitted, World.steps_valid h.valid hworld hsteps, hstreamed, hnodup, h.origin,
        fun id hid => h.waits id (hqueued hid), ?_⟩
      intro entry hentry
      rw [received_eq, world, hsettled _ (h.closed hentry)]
      exact h.replied entry hentry
  | @reply requestId handler hfind hclosed =>
      refine ⟨submitted, h.of_world rfl hnodup hcalls ?_ ?_⟩
      · intro id hid
        refine (h.waits id hid).imp_left fun hmem => ?_
        refine (mem_ids_of_ended hfind hmem).resolve_left ?_
        rintro rfl
        exact closed_iff.mp hclosed hid
      · intro entry hentry
        rcases List.mem_append.mp hentry with hold | hnew
        · exact h.replied entry hold
        · rw [List.mem_singleton.mp hnew]
          dsimp only
          rw [findHandler_id hfind]
  | @disconnect requestId handler hfind =>
      refine ⟨submitted, h.of_world rfl hnodup hcalls ?_ h.replied⟩
      intro id hid
      rw [List.map_append, List.mem_append, List.map_singleton, List.mem_singleton]
      rcases h.waits id hid with hmem | hmem
      · rcases mem_ids_of_ended hfind hmem with rfl | hother
        · exact Or.inr (Or.inr (findHandler_id hfind).symm)
        · exact Or.inl hother
      · exact Or.inr (Or.inl hmem)

end Invariant

section History

variable {blockSize numGpuBlocks : ℕ} {config : SchedulerConfig} {actions : List (Action τ)}

theorem history_served
    (hfresh : Machine.Along (step env ops tokenizer second) Fresh
      (new env blockSize numGpuBlocks config) actions)
    (hrun : history env ops tokenizer second blockSize numGpuBlocks config actions = .ok service) :
    ∃ submitted, Served tokenizer second service submitted :=
  Machine.run_invariant (I := fun s => ∃ submitted, Served tokenizer second s submitted)
    (fun _ _ _ ⟨_, h⟩ hfresh hstep => steps_served h hfresh (steps_of_step hstep))
    ⟨[], new_served env blockSize numGpuBlocks config⟩ hfresh hrun

/-- **A reply is final.** At any time of any run, every reply that has gone out is the one that all
tokens sent for its request give: none was sent after it. The tokens are within the limit of the
payload and have its stop sequences at their end only, and a refused payload has never reached the
scheduler. -/
theorem replies_final
    (hfresh : Machine.Along (step env ops tokenizer second) Fresh
      (new env blockSize numGpuBlocks config) actions)
    (hrun : history env ops tokenizer second blockSize numGpuBlocks config actions = .ok service)
    {handler : Handler} {reply : Reply} (hreply : (handler, reply) ∈ service.replies) :
    reply = handler.reply tokenizer (service.received handler.requestId) ∧
      (service.received handler.requestId).length ≤ max 1 handler.request.maxTokensOr ∧
      (∀ stop ∈ handler.request.stopTokens tokenizer, stop ≠ [] →
        ¬ stop <:+: (service.received handler.requestId).dropLast) ∧
      ∀ refusal, handler.accept tokenizer second = .error refusal →
        handler.requestId ∉ service.engine.world.submitted := by
  obtain ⟨submitted, h⟩ := history_served hfresh hrun
  have hcall : handler ∈ service.calls :=
    List.mem_append_left _ (List.mem_append_right _ (List.mem_map_of_mem (f := Prod.fst) hreply))
  refine ⟨h.replied _ hreply, ?_⟩
  rw [← and_assoc]
  refine ⟨?_, fun refusal hrefused => h.refused hcall hrefused⟩
  by_cases hknown : handler.requestId ∈ service.world.submitted
  · have hmem := hknown
    rw [← h.streamed.ids_eq] at hmem
    obtain ⟨submission, hsubmission, hid⟩ := List.mem_map.mp hmem
    have haccept := h.accepted hcall hsubmission hid
    obtain ⟨-, hmax, hstops, -⟩ := Handler.accept_ok haccept
    have hbounded := h.streamed.bounded submission hsubmission
    rw [hid] at hbounded
    exact ⟨hmax ▸ hbounded.length_le, fun stop hstop => hbounded.stop_last stop (hstops ▸ hstop)⟩
  · have hnone := h.streamed.unknown _ hknown
    rw [received_eq, hnone]
    exact ⟨Nat.zero_le _, fun stop _ hne hwindow => hne (List.infix_nil.mp hwindow)⟩

/-- A call for one token, and the reply. -/
theorem replies_final_of_one :
    ∃ service, history .counting (.rows ℕ) none 1 4 9 ⟨8, 4⟩
        [.chat (.plain 1 1 0), .notify 1, .schedule 0,
          .forward [([1, 2, 3], [1, 2, 3])] (some 7), .update, .reply 1] = .ok service ∧
      service.replies.map Prod.fst = [Handler.plain 1 1 0] ∧
      service.received 1 = [7] ∧
      ∀ handler reply, (handler, reply) ∈ service.replies →
        reply = handler.reply none (service.received handler.requestId) ∧
          (service.received handler.requestId).length ≤ max 1 handler.request.maxTokensOr := by
  have hrun : ∃ service, history .counting (.rows ℕ) none 1 4 9 ⟨8, 4⟩
      [.chat (.plain 1 1 0), .notify 1, .schedule 0,
        .forward [([1, 2, 3], [1, 2, 3])] (some 7), .update, .reply 1] = .ok service ∧
      service.replies.map Prod.fst = [Handler.plain 1 1 0] ∧ service.received 1 = [7] := by
    decide +kernel
  obtain ⟨service, hrun, hreplies, hreceived⟩ := hrun
  refine ⟨service, hrun, hreplies, hreceived, fun handler reply hreply => ?_⟩
  obtain ⟨hfinal, hlength, -, -⟩ := replies_final (by decide +kernel) hrun hreply
  exact ⟨hfinal, hlength⟩

/-- The calls of a service are those of its run. -/
theorem calls_perm
    (hrun : history env ops tokenizer second blockSize numGpuBlocks config actions = .ok service) :
    service.calls.Perm (actions.filterMap Action.call) := by
  refine Machine.run_history (I := fun es s => s.calls.Perm (es.filterMap Action.call)) ?_
    (.refl _) hrun
  intro es s e s' hs hstep
  refine (steps_calls (steps_of_step hstep)).trans ?_
  rw [List.filterMap_append]
  refine hs.append ?_
  cases hcall : e.call with
  | none => simp [hcall]
  | some handler => simp [hcall]

/-- **No call is lost or answered twice.** The handlers that wait, the replies and the handlers that
went with their clients are together the calls that were made, one each; a handler of a request in
the queues has not replied. -/
theorem calls_accounted
    (hfresh : Machine.Along (step env ops tokenizer second) Fresh
      (new env blockSize numGpuBlocks config) actions)
    (hrun : history env ops tokenizer second blockSize numGpuBlocks config actions = .ok service) :
    (service.handlers ++ service.replies.map Prod.fst ++ service.dropped).Perm
        (actions.filterMap Action.call) ∧
      ((actions.filterMap Action.call).map (·.requestId)).Nodup ∧
      ∀ req ∈ service.engine.world.scheduler.runningQueue ++
          service.engine.world.scheduler.waitingQueue,
        req.id ∉ service.replies.map (·.1.requestId) ∧
          ∃ handler ∈ service.handlers ++ service.dropped, handler.requestId = req.id := by
  obtain ⟨submitted, h⟩ := history_served hfresh hrun
  have hperm := calls_perm hrun
  refine ⟨hperm, ((hperm.map _).nodup_iff).mp h.nodup, fun req hreq => ?_⟩
  have hqueued : req.id ∈ service.world.queued := mem_ids.mpr ⟨req, hreq, rfl⟩
  refine ⟨fun hmem => ?_, ?_⟩
  · obtain ⟨entry, hentry, hid⟩ := List.mem_map.mp hmem
    exact h.closed hentry (hid ▸ hqueued)
  · rcases h.waits _ hqueued with hmem | hmem
    · obtain ⟨handler, hhandler, hid⟩ := List.mem_map.mp hmem
      exact ⟨handler, List.mem_append_left _ hhandler, hid⟩
    · obtain ⟨handler, hhandler, hid⟩ := List.mem_map.mp hmem
      exact ⟨handler, List.mem_append_right _ hhandler, hid⟩

/-- One call has its reply, one waits and one has gone. -/
theorem calls_accounted_of_three :
    ∃ service, history .counting (.rows ℕ) none 1 4 9 ⟨8, 4⟩
        [.chat (.plain 1 1 0), .chat (.plain 2 2 0), .chat (.plain 3 3 0), .schedule 0,
          .forward [([1, 2, 3], [1, 2, 3])] (some 7), .forward [([1, 2, 3], [1, 2, 3])] (some 8),
          .forward [([1, 2, 3], [1, 2, 3])] (some 9), .update, .reply 1, .disconnect 2] =
          .ok service ∧
      service.replies.map Prod.fst = [Handler.plain 1 1 0] ∧
      service.dropped = [Handler.plain 2 2 0] ∧
      (service.handlers ++ service.replies.map Prod.fst ++ service.dropped).Perm
        [.plain 1 1 0, .plain 2 2 0, .plain 3 3 0] := by
  have hrun : ∃ service, history .counting (.rows ℕ) none 1 4 9 ⟨8, 4⟩
      [.chat (.plain 1 1 0), .chat (.plain 2 2 0), .chat (.plain 3 3 0), .schedule 0,
        .forward [([1, 2, 3], [1, 2, 3])] (some 7), .forward [([1, 2, 3], [1, 2, 3])] (some 8),
        .forward [([1, 2, 3], [1, 2, 3])] (some 9), .update, .reply 1, .disconnect 2] =
        .ok service ∧
      service.replies.map Prod.fst = [Handler.plain 1 1 0] ∧
      service.dropped = [Handler.plain 2 2 0] := by
    decide +kernel
  obtain ⟨service, hrun, hreplies, hdropped⟩ := hrun
  exact ⟨service, hrun, hreplies, hdropped, (calls_accounted (by decide +kernel) hrun).1⟩

end History

end Service
end Kyro
