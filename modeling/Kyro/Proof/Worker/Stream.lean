import Kyro.Proof.Worker.Tokens

/-!
# The stream of a request

What the client of a request receives is what the request has generated. It ends with the first
stop sequence, and it has no more tokens than the client asked for, if it asked for any: the limit
is looked at after a token has been sent, so a request for none is sent one.
-/

namespace Kyro

namespace Request

theorem matchesStop_iff (gen stopSeq : List Token) :
    matchesStop gen stopSeq = true ↔ stopSeq <:+ gen := by
  rw [matchesStop, Bool.and_eq_true, decide_eq_true_eq, beq_iff_eq]
  constructor
  · rintro ⟨_, heq⟩
    rw [← heq]
    exact List.drop_suffix _ _
  · intro h
    exact ⟨h.length_le, (List.suffix_iff_eq_drop.mp h).symm⟩

theorem not_isDone_iff (req : Request) :
    ¬ req.isDone ↔ req.generatedTokens.length < req.maxTokens ∧
      ∀ stop ∈ req.stopTokenIds, ¬ stop <:+ req.generatedTokens := by
  rw [isDone, Bool.or_eq_true, not_or, decide_eq_true_eq, Nat.not_le, List.any_eq_true, not_exists]
  simp only [not_and, matchesStop_iff]

end Request

theorem Submission.mem_stopTokenIds {submission : Submission} {stop : List Token} :
    stop ∈ submission.toRequest.stopTokenIds ↔ stop ∈ submission.stopTokens ∧ stop ≠ [] := by
  rw [toRequest, List.mem_filter]
  simp

namespace Worker

/-- The tokens that the results have for a request. -/
def answers (results : List ComputeResult) (id : RequestId) : List Token :=
  (results.filter fun res => res.reqId = id).map (·.token)

theorem length_answers_le {results : List ComputeResult} (hnodup : (results.map (·.reqId)).Nodup)
    (id : RequestId) : (answers results id).length ≤ 1 := by
  have hcount := List.nodup_iff_count_le_one.mp hnodup id
  rw [List.count, List.countP_map] at hcount
  rw [answers, List.length_map, ← List.countP_eq_length_filter]
  apply Nat.le_trans (Nat.le_of_eq _) hcount
  apply List.countP_congr
  intro res _
  simp

theorem answers_eq_nil {results : List ComputeResult} {id : RequestId}
    (h : ∀ res ∈ results, res.reqId ≠ id) : answers results id = [] := by
  rw [answers, List.map_eq_nil_iff, List.filter_eq_nil_iff]
  intro res hres hid
  exact h res hres (of_decide_eq_true hid)

end Worker

namespace World

open Worker

variable {τ : Type} {env : Env} {ops : TensorOps τ}

/-- The tokens sent to the client of a request. -/
def stream (world : World τ) (id : RequestId) : List Token :=
  (world.sent.filter fun token => token.1 = id).map (·.2)

theorem stream_append (world : World τ) (results : List ComputeResult) (id : RequestId) :
    stream { world with
      sent := world.sent ++ results.map fun res => (res.reqId, res.token) } id =
      world.stream id ++ answers results id := by
  rw [stream, stream, answers, List.filter_append, List.map_append, List.filter_map, List.map_map]
  rfl

theorem stream_update (world : World τ) (scheduler : Scheduler) (cache : KVCacheManager τ)
    (results : List ComputeResult) (id : RequestId) :
    stream { world with
      scheduler := scheduler
      cache := cache
      phase := .idle
      sent := world.sent ++ results.map fun res => (res.reqId, res.token) } id =
      world.stream id ++ answers results id := stream_append world results id

/-- The requests that an event submits. -/
def submissions (_ : World τ) : Event τ → List Submission
  | .submit submission => [submission]
  | _ => []

/-! ### The invariant -/

/-- A running request: its tokens have been sent, and they have not come to their end. -/
structure Going (world : World τ) (req : Request) : Prop where
  stream_eq : world.stream req.id = req.generatedTokens
  no_stop : ∀ stop ∈ req.stopTokenIds, ¬ stop <:+: req.generatedTokens
  below : req.generatedTokens = [] ∨ req.generatedTokens.length < req.maxTokens

/-- What a client may receive. -/
structure Bounded (submission : Submission) (tokens : List Token) : Prop where
  stop_last : ∀ stop ∈ submission.stopTokens, stop ≠ [] → ¬ stop <:+: tokens.dropLast
  length_le : tokens.length ≤ max 1 submission.maxTokens

structure Streamed (world : World τ) (submitted : List Submission) : Prop where
  ids_eq : submitted.map (·.id) = world.submitted
  nodup : world.submitted.Nodup
  origin : ∀ req ∈ world.scheduler.runningQueue ++ world.scheduler.waitingQueue,
    ∃ submission ∈ submitted, req.origin = submission.toRequest
  running : ∀ req ∈ world.scheduler.runningQueue, world.Going req
  waiting : ∀ req ∈ world.scheduler.waitingQueue, world.stream req.id = []
  unknown : ∀ id, id ∉ world.submitted → world.stream id = []
  bounded : ∀ submission ∈ submitted, Bounded submission (world.stream submission.id)

theorem bounded_nil (submission : Submission) : Bounded submission [] where
  stop_last _ _ hne hwindow := hne (List.infix_nil.mp hwindow)
  length_le := Nat.zero_le _

/-- A request comes from the submission with its id. -/
theorem Streamed.origin_eq {world : World τ} {submitted : List Submission}
    (h : world.Streamed submitted) {req : Request}
    (hreq : req ∈ world.scheduler.runningQueue ++ world.scheduler.waitingQueue)
    {submission : Submission} (hsubmission : submission ∈ submitted)
    (hid : req.id = submission.id) : req.origin = submission.toRequest := by
  obtain ⟨other, hother, horigin⟩ := h.origin req hreq
  have hnodup := h.nodup
  rw [← h.ids_eq] at hnodup
  have hids : other.id = submission.id := (congrArg Request.id horigin).symm.trans hid
  rw [horigin, List.inj_on_of_nodup_map hnodup hother hsubmission hids]

/-- The next token of a request that is going on. -/
theorem Going.bounded {world : World τ} {req : Request} (h : world.Going req)
    {submission : Submission} (horigin : req.origin = submission.toRequest) {tokens : List Token}
    (htokens : tokens.length ≤ 1) : Bounded submission (req.generatedTokens ++ tokens) := by
  have hstops : req.origin.stopTokenIds = submission.toRequest.stopTokenIds := by rw [horigin]
  have hlimit : req.origin.maxTokens = submission.toRequest.maxTokens := by rw [horigin]
  change req.stopTokenIds = _ at hstops
  change req.maxTokens = submission.maxTokens at hlimit
  constructor
  · intro stop hstop hne hwindow
    apply h.no_stop stop (hstops ▸ Submission.mem_stopTokenIds.mpr ⟨hstop, hne⟩)
    apply hwindow.trans
    apply List.IsPrefix.isInfix
    match tokens, htokens with
    | [], _ =>
        rw [List.append_nil]
        exact List.dropLast_prefix _
    | [token], _ =>
        rw [List.dropLast_concat]
  · rw [List.length_append, ← hlimit]
    rcases h.below with hnil | hlt
    · rw [hnil, List.length_nil]
      omega
    · omega

/-- A request that is still running after its token goes on. -/
theorem Going.settled {world : World τ} {config : SchedulerConfig} {toPrefill : List RequestId}
    {results : List ComputeResult} {req : Request} (h : world.Going req)
    (hone : (answers results req.id).length ≤ 1)
    (hdone : ¬ (req.settled config toPrefill results).isDone) :
    Going { world with sent := world.sent ++ results.map fun res => (res.reqId, res.token) }
      (req.settled config toPrefill results) := by
  obtain ⟨hlt, hstop⟩ := (Request.not_isDone_iff _).mp hdone
  have hstops : (req.settled config toPrefill results).stopTokenIds = req.stopTokenIds := by
    rw [Request.settled]
    split <;> rfl
  have hgenerated : (req.settled config toPrefill results).generatedTokens =
      req.generatedTokens ++ answers results req.id := Request.settled_generatedTokens ..
  refine ⟨?_, ?_, Or.inr hlt⟩
  · rw [Request.settled_id, stream_append, h.stream_eq, hgenerated]
  · intro stop hmem hwindow
    have hnew := hstop stop hmem
    rw [hgenerated] at hwindow hnew
    rw [hstops] at hmem
    cases hanswers : answers results req.id with
    | nil =>
        rw [hanswers, List.append_nil] at hwindow
        exact h.no_stop stop hmem hwindow
    | cons token rest =>
        have hrest : rest = [] := by
          rw [hanswers, List.length_cons] at hone
          exact List.eq_nil_of_length_eq_zero (by omega)
        rw [hanswers, hrest] at hwindow hnew
        exact (List.infix_concat_iff.mp hwindow).elim hnew (h.no_stop stop hmem)

theorem new_streamed (env : Env) (blockSize numGpuBlocks : ℕ) (config : SchedulerConfig) :
    (new env blockSize numGpuBlocks config : World τ).Streamed [] where
  ids_eq := rfl
  nodup := List.nodup_nil
  origin req hreq := by cases hreq
  running req hreq := by cases hreq
  waiting req hreq := by cases hreq
  unknown _ _ := rfl
  bounded submission hsubmission := by cases hsubmission

theorem submit_streamed {world : World τ} {submitted : List Submission}
    (h : world.Streamed submitted) {submission : Submission}
    (hfresh : submission.id ∉ world.submitted) :
    (world.submit submission).Streamed (submitted ++ [submission]) := by
  have hnone : world.stream submission.id = [] := h.unknown _ hfresh
  refine ⟨?_, ?_, ?_, ?_, ?_, ?_, ?_⟩
  · rw [List.map_append, h.ids_eq]
    rfl
  · apply List.nodup_append.mpr
    refine ⟨h.nodup, List.nodup_singleton _, ?_⟩
    rintro id hid other hother rfl
    exact hfresh (List.mem_singleton.mp hother ▸ hid)
  · intro req hreq
    change req ∈ world.scheduler.runningQueue ++
      (world.scheduler.waitingQueue ++ [submission.toRequest]) at hreq
    rw [← List.append_assoc] at hreq
    rcases List.mem_append.mp hreq with hold | hnew
    · obtain ⟨other, hother, horigin⟩ := h.origin req hold
      exact ⟨other, List.mem_append_left _ hother, horigin⟩
    · rw [List.mem_singleton.mp hnew]
      exact ⟨submission, List.mem_append_right _ List.mem_cons_self, rfl⟩
  · intro req hreq
    obtain ⟨hstream, hstop, hbelow⟩ := h.running req hreq
    exact ⟨hstream, hstop, hbelow⟩
  · intro req hreq
    rcases List.mem_append.mp hreq with hold | hnew
    · exact h.waiting req hold
    · rw [List.mem_singleton.mp hnew]
      exact hnone
  · intro id hid
    apply h.unknown id
    intro hold
    exact hid (List.mem_append_left _ hold)
  · intro other hother
    rcases List.mem_append.mp hother with hold | hnew
    · exact h.bounded other hold
    · rw [List.mem_singleton.mp hnew]
      exact hnone ▸ bounded_nil submission

/-- Only the queues and what has been sent matter. -/
theorem Streamed.of_sent {world : World τ} {submitted : List Submission}
    (h : world.Streamed submitted) (cache : KVCacheManager τ) (phase : Phase) :
    Streamed { world with cache, phase } submitted :=
  ⟨h.ids_eq, h.nodup, h.origin,
    fun req hreq => ⟨(h.running req hreq).stream_eq, (h.running req hreq).no_stop,
      (h.running req hreq).below⟩, h.waiting, h.unknown, h.bounded⟩

section Schedule

variable {now : Instant} {world : World τ} {submitted : List Submission} {scheduler : Scheduler}
  {toPrefill toDecode : List RequestId} {stays selected taken admitted : List Request}

theorem scheduled_streamed (hvalid : world.Valid) (h : world.Streamed submitted)
    (hspec : Scheduler.Scheduled now world.scheduler scheduler toPrefill toDecode stays selected
      taken admitted) (cache : KVCacheManager τ) (phase : Phase) :
    Streamed { world with scheduler, cache, phase } submitted := by
  refine ⟨h.ids_eq, h.nodup, ?_, ?_, ?_, h.unknown, h.bounded⟩
  · intro req hreq
    obtain ⟨old, hold, heq⟩ := hspec.exists_origin hreq
    rw [heq]
    exact h.origin old hold
  · intro req hreq
    have hgoing : world.Going req := by
      revert req
      apply hspec.forall_running _ h.running
      · -- an admitted request has generated nothing, and no stop sequence is empty
        rintro req hreq _ ⟨cachedLen, mark, _, rfl⟩
        have hnone : req.generatedTokens = [] :=
          (congrArg Request.generatedTokens (hvalid.waiting_new req hreq)).symm
        refine ⟨(h.waiting req hreq).trans hnone.symm, ?_, Or.inl hnone⟩
        intro stop hstop hwindow
        change stop <:+: req.generatedTokens at hwindow
        rw [hnone] at hwindow
        obtain ⟨submission, _, horigin⟩ := h.origin req (List.mem_append_right _ hreq)
        have hstops : req.origin.stopTokenIds = submission.toRequest.stopTokenIds := by
          rw [horigin]
        apply (Submission.mem_stopTokenIds.mp (hstops ▸ hstop)).2
        exact List.infix_nil.mp hwindow
      · intro req
        exact ⟨fun ⟨hstream, hstop, hbelow⟩ => ⟨hstream, hstop, hbelow⟩,
          fun ⟨hstream, hstop, hbelow⟩ => ⟨hstream, hstop, hbelow⟩⟩
    exact ⟨hgoing.stream_eq, hgoing.no_stop, hgoing.below⟩
  · intro req hreq
    exact h.waiting req (hspec.mem_waiting hreq)

end Schedule

section Update

variable {world : World τ} {submitted : List Submission} {toPrefill : List RequestId}
  {batch : List WorkItem} {results : List ComputeResult} {prefills : List Request}
  {scheduler : Scheduler} {cache : KVCacheManager τ} {sent : List (RequestId × Token)}

/-- Only running requests have results. -/
theorem Batched.answers_eq_nil (h : Batched world.scheduler toPrefill batch results prefills)
    (hlength : results.length = batch.length) {id : RequestId}
    (hid : id ∉ ids world.scheduler.runningQueue) : answers results id = [] := by
  apply Worker.answers_eq_nil
  intro res hres heq
  obtain ⟨item, hitem, hitemId⟩ := h.exists_item hlength hres
  obtain ⟨req, hreq, hreqId⟩ := h.item_running hitem
  exact hid (mem_ids.mpr ⟨req, hreq, hreqId.trans (hitemId.trans heq)⟩)

theorem updated_streamed (hvalid : world.Valid) (h : world.Streamed submitted)
    (hphase : world.phase = .computing toPrefill batch results)
    (hlength : results.length = batch.length)
    (hupdate : Worker.update env world.scheduler world.cache toPrefill results =
      .ok (scheduler, cache, sent)) :
    Streamed { world with scheduler, cache, phase := .idle, sent := world.sent ++ sent }
      submitted := by
  obtain ⟨prefills, hbatched⟩ := hvalid.batched _ _ _ hphase
  obtain rfl := hbatched.sent_results hvalid hlength hupdate
  have hone := length_answers_le (hbatched.results_nodup hvalid hlength)
  have hstream := stream_update world scheduler cache results
  refine ⟨h.ids_eq, h.nodup, ?_, ?_, ?_, ?_, ?_⟩
  · intro req hreq
    obtain ⟨old, hold, heq⟩ := updated_origin hvalid hphase hupdate hreq
    rw [heq]
    exact h.origin old hold
  · intro req hreq
    obtain ⟨old, hold, rfl, hdone⟩ := updated_running hvalid hphase hupdate hreq
    have hgoing := (h.running old hold).settled (hone old.id) hdone
    exact ⟨hgoing.stream_eq, hgoing.no_stop, hgoing.below⟩
  · intro req hreq
    rw [(update_spec hvalid.running_nodup (hbatched.toPrefill_nodup hvalid) hupdate).1] at hreq
    rw [hstream, h.waiting req hreq, hbatched.answers_eq_nil hlength]
    · rfl
    · intro hid
      obtain ⟨other, hother, heq⟩ := mem_ids.mp hid
      exact hvalid.id_ne hother hreq heq
  · intro id hid
    rw [hstream, h.unknown id hid, hbatched.answers_eq_nil hlength]
    · rfl
    · intro hrunning
      apply hid
      apply hvalid.known
      rw [ids_append]
      exact List.mem_append_left _ hrunning
  · intro submission hsubmission
    rw [hstream]
    by_cases hrunning : submission.id ∈ ids world.scheduler.runningQueue
    · obtain ⟨old, hold, hid⟩ := mem_ids.mp hrunning
      have hgoing := h.running old hold
      rw [← hid, hgoing.stream_eq]
      exact hgoing.bounded (h.origin_eq (List.mem_append_left _ hold) hsubmission hid)
        (hone old.id)
    · rw [hbatched.answers_eq_nil hlength hrunning, List.append_nil]
      exact h.bounded submission hsubmission

end Update

theorem submissions_of_disabled {world : World τ} {event : Event τ} (h : ¬ world.Enabled event) :
    world.submissions event = [] := by
  cases event with
  | submit submission => exact absurd trivial h
  | schedule now => rfl
  | forward appends token => rfl
  | update => rfl

/-- An event that submits nothing. -/
theorem Streamed.submissions_nil {world world' : World τ} {event : Event τ}
    {submitted : List Submission} (h : world'.Streamed submitted)
    (hnone : world.submissions event = []) :
    world'.Streamed (submitted ++ world.submissions event) := by
  rwa [hnone, List.append_nil]

/-- **Every event keeps the streams within their bounds.** -/
theorem steps_streamed {world world' : World τ} {event : Event τ} {submitted : List Submission}
    (hvalid : world.Valid) (h : world.Streamed submitted) (hfresh : world.Fresh event)
    (hsteps : Steps env ops world event world') :
    world'.Streamed (submitted ++ world.submissions event) := by
  cases hsteps with
  | disabled hdisabled => exact h.submissions_nil (submissions_of_disabled hdisabled)
  | submit submission => exact submit_streamed h hfresh
  | park hphase hschedule =>
      obtain ⟨_, _, _, _, hspec⟩ := Scheduler.schedule_spec hschedule
      exact (scheduled_streamed hvalid h hspec world.cache world.phase).submissions_nil rfl
  | begin hphase hschedule =>
      obtain ⟨_, _, _, _, hspec⟩ := Scheduler.schedule_spec hschedule
      exact (scheduled_streamed hvalid h hspec _ _).submissions_nil rfl
  | answer hphase hitem happend =>
      exact (h.of_sent _ _).submissions_nil rfl
  | fail hphase hitem happend =>
      exact (h.of_sent _ _).submissions_nil rfl
  | update hphase hlength hupdate =>
      exact (updated_streamed hvalid h hphase hlength hupdate).submissions_nil rfl

/-! ### Runs -/

/-- A run that keeps the submitted requests. -/
def submissionHistory (env : Env) (ops : TensorOps τ) (blockSize numGpuBlocks : ℕ)
    (config : SchedulerConfig) (events : List (Event τ)) :
    Except Fault (World τ × List Submission) :=
  Machine.run (Machine.recorded (step env ops) submissions)
    (new env blockSize numGpuBlocks config, []) events

section History

variable {blockSize numGpuBlocks : ℕ} {config : SchedulerConfig} {events : List (Event τ)}
  {world : World τ} {submitted : List Submission}

theorem submissionHistory_streamed
    (hfresh : Machine.Along (step env ops) Fresh (new env blockSize numGpuBlocks config) events)
    (hrun : submissionHistory env ops blockSize numGpuBlocks config events =
      .ok (world, submitted)) : world.Valid ∧ world.Streamed submitted :=
  recorded_invariant (fun _ _ _ _ hvalid h hevent hsteps => steps_streamed hvalid h hevent hsteps)
    (new_streamed env blockSize numGpuBlocks config) hfresh hrun

/-- **A stream ends with the first stop sequence.** The tokens of a running request, which are those
sent for it, contain none of its stop sequences. The stream of a submitted request contains none of
them before its last token, and once it contains one, it ends with it and the request does not run
any more. -/
theorem stream_ends_at_stop (env : Env) (ops : TensorOps τ)
    (hfresh : Machine.Along (step env ops) Fresh (new env blockSize numGpuBlocks config) events)
    (hrun : submissionHistory env ops blockSize numGpuBlocks config events =
      .ok (world, submitted)) :
    (∀ req ∈ world.scheduler.runningQueue, world.stream req.id = req.generatedTokens ∧
      ∀ stop ∈ req.stopTokenIds, ¬ stop <:+: req.generatedTokens) ∧
    ∀ submission ∈ submitted, ∀ stop ∈ submission.stopTokens, stop ≠ [] →
      ¬ stop <:+: (world.stream submission.id).dropLast ∧
      (stop <:+: world.stream submission.id →
        stop <:+ world.stream submission.id ∧
        submission.id ∉ ids world.scheduler.runningQueue) := by
  obtain ⟨hvalid, h⟩ := submissionHistory_streamed hfresh hrun
  refine ⟨fun req hreq => ⟨(h.running req hreq).stream_eq, (h.running req hreq).no_stop⟩, ?_⟩
  intro submission hsubmission stop hstop hne
  have hlast := (h.bounded submission hsubmission).stop_last stop hstop hne
  refine ⟨hlast, fun hwindow => ⟨?_, ?_⟩⟩
  · rcases List.eq_nil_or_concat (world.stream submission.id) with hnil | ⟨front, last, heq⟩
    · rw [hnil] at hwindow
      exact absurd (List.infix_nil.mp hwindow) hne
    · rw [List.concat_eq_append] at heq
      rw [heq] at hwindow hlast ⊢
      rw [List.dropLast_concat] at hlast
      exact (List.infix_concat_iff.mp hwindow).resolve_right hlast
  · intro hrunning
    obtain ⟨req, hreq, hid⟩ := mem_ids.mp hrunning
    have horigin := h.origin_eq (List.mem_append_left _ hreq) hsubmission hid
    have hstops : req.origin.stopTokenIds = submission.toRequest.stopTokenIds := by rw [horigin]
    have hmem : stop ∈ req.origin.stopTokenIds :=
      hstops ▸ Submission.mem_stopTokenIds.mpr ⟨hstop, hne⟩
    have hgoing := h.running req hreq
    rw [← hid, hgoing.stream_eq] at hwindow
    exact hgoing.no_stop stop hmem hwindow

end History

theorem stream_ends_at_stop_of_two :
    ∃ world submitted, submissionHistory .counting (.rows ℕ) 4 9 ⟨8, 4⟩
        [.submit { Submission.plain 1 [5, 7] 9 with stopTokens := [[3, 4], []] }, .schedule 0,
          .forward [([1, 2], [1, 2])] (some 3), .update, .schedule 1,
          .forward [([3], [3])] (some 4), .update] = .ok (world, submitted) ∧
      world.stream 1 = [3, 4] ∧
      ∀ submission ∈ submitted, ∀ stop ∈ submission.stopTokens, stop ≠ [] →
        ¬ stop <:+: (world.stream submission.id).dropLast ∧
        (stop <:+: world.stream submission.id →
          stop <:+ world.stream submission.id ∧
          submission.id ∉ ids world.scheduler.runningQueue) := by
  have hrun : ∃ ran, submissionHistory .counting (.rows ℕ) 4 9 ⟨8, 4⟩
      [.submit { Submission.plain 1 [5, 7] 9 with stopTokens := [[3, 4], []] }, .schedule 0,
        .forward [([1, 2], [1, 2])] (some 3), .update, .schedule 1,
        .forward [([3], [3])] (some 4), .update] = .ok ran ∧ ran.1.stream 1 = [3, 4] := by
    decide +kernel
  obtain ⟨⟨world, submitted⟩, hrun, hstream⟩ := hrun
  exact ⟨world, submitted, hrun, hstream,
    (stream_ends_at_stop .counting (.rows ℕ) (by decide +kernel) hrun).2⟩

/-! ### The limit -/

/-- No request that asks for no token has a result when the results are handed out. -/
def NoneUnasked (world : World τ) : Event τ → Prop
  | .update => WhenDone (fun _ results =>
      ∀ req ∈ world.scheduler.runningQueue, req.maxTokens = 0 → ∀ res ∈ results,
        res.reqId ≠ req.id)
    world.phase
  | _ => True

instance (world : World τ) : DecidablePred world.NoneUnasked
  | .update => inferInstanceAs (Decidable (WhenDone _ world.phase))
  | .submit _ => inferInstanceAs (Decidable True)
  | .schedule _ => inferInstanceAs (Decidable True)
  | .forward _ _ => inferInstanceAs (Decidable True)

/-- Every client has been sent no more tokens than it asked for. -/
def WithinLimits (world : World τ) (submitted : List Submission) : Prop :=
  ∀ submission ∈ submitted, (world.stream submission.id).length ≤ submission.maxTokens

section Limit

variable {world world' : World τ} {submitted : List Submission} {toPrefill : List RequestId}
  {batch : List WorkItem} {results : List ComputeResult} {prefills : List Request}
  {scheduler : Scheduler} {cache : KVCacheManager τ} {sent : List (RequestId × Token)}

theorem updated_limits_iff (hvalid : world.Valid) (h : world.Streamed submitted)
    (hphase : world.phase = .computing toPrefill batch results)
    (hlength : results.length = batch.length)
    (hupdate : Worker.update env world.scheduler world.cache toPrefill results =
      .ok (scheduler, cache, sent)) :
    WithinLimits { world with scheduler, cache, phase := .idle, sent := world.sent ++ sent }
      submitted ↔
    world.WithinLimits submitted ∧ ∀ req ∈ world.scheduler.runningQueue, req.maxTokens = 0 →
      ∀ res ∈ results, res.reqId ≠ req.id := by
  have hafter := updated_streamed hvalid h hphase hlength hupdate
  obtain ⟨prefills, hbatched⟩ := hvalid.batched _ _ _ hphase
  obtain rfl := hbatched.sent_results hvalid hlength hupdate
  have hstream := stream_update world scheduler cache results
  have hlimit : ∀ req ∈ world.scheduler.runningQueue, ∀ submission ∈ submitted,
      req.id = submission.id → req.maxTokens = submission.maxTokens := by
    intro req hreq submission hsubmission hid
    exact congrArg Request.maxTokens
      (h.origin_eq (List.mem_append_left _ hreq) hsubmission hid : req.origin = _)
  constructor
  · intro hwithin
    constructor
    · intro submission hsubmission
      have := hwithin submission hsubmission
      rw [hstream, List.length_append] at this
      omega
    · intro req hreq hzero res hres hid
      obtain ⟨submission, hsubmission, horigin⟩ := h.origin req (List.mem_append_left _ hreq)
      have hids : req.id = submission.id := congrArg Request.id horigin
      have hnone := hwithin submission hsubmission
      rw [hstream, ← hlimit req hreq submission hsubmission hids, hzero, ← hids] at hnone
      have hnil := (List.append_eq_nil_iff.mp (List.length_eq_zero_iff.mp (Nat.le_zero.mp hnone))).2
      rw [answers, List.map_eq_nil_iff, List.filter_eq_nil_iff] at hnil
      exact hnil res hres (decide_eq_true hid)
  · rintro ⟨hwithin, hnone⟩ submission hsubmission
    have hmax := (hafter.bounded submission hsubmission).length_le
    by_cases hzero : submission.maxTokens = 0
    · -- nothing comes in for a request that asks for nothing
      have hnil : answers results submission.id = [] := by
        apply Worker.answers_eq_nil
        intro res hres heq
        obtain ⟨item, hitem, hitemId⟩ := hbatched.exists_item hlength hres
        obtain ⟨req, hreq, hreqId⟩ := hbatched.item_running hitem
        have hid : res.reqId = req.id := hitemId.symm.trans hreqId.symm
        refine hnone req hreq ?_ res hres hid
        rw [hlimit req hreq submission hsubmission (hid.symm.trans heq), hzero]
      rw [hstream, hnil, List.append_nil]
      exact hwithin submission hsubmission
    · omega

/-- An event that submits nothing and sends nothing. -/
theorem withinLimits_of_quiet {event : Event τ} (hnone : world.submissions event = [])
    (hunasked : world.NoneUnasked event) (hstream : ∀ id, world'.stream id = world.stream id) :
    world'.WithinLimits (submitted ++ world.submissions event) ↔
      world.WithinLimits submitted ∧ world.NoneUnasked event := by
  rw [hnone, List.append_nil, and_iff_left hunasked, WithinLimits, WithinLimits]
  simp only [hstream]

/-- What an event does to the limits. -/
theorem steps_limits_iff {event : Event τ} (hvalid : world.Valid) (h : world.Streamed submitted)
    (hfresh : world.Fresh event) (hsteps : Steps env ops world event world') :
    world'.WithinLimits (submitted ++ world.submissions event) ↔
      world.WithinLimits submitted ∧ world.NoneUnasked event := by
  cases hsteps with
  | disabled hdisabled =>
      have htrue : world.NoneUnasked event := by
        cases event with
        | update => exact whenDone_of_disabled hdisabled _
        | submit submission => trivial
        | schedule now => trivial
        | forward appends token => trivial
      exact withinLimits_of_quiet (submissions_of_disabled hdisabled) htrue fun _ => rfl
  | submit submission =>
      have hnone : world.stream submission.id = [] := h.unknown _ hfresh
      apply Iff.trans _ (and_iff_left trivial).symm
      constructor
      · intro hwithin other hother
        exact hwithin other (List.mem_append_left _ hother)
      · intro hwithin other hother
        rcases List.mem_append.mp hother with hold | hnew
        · exact hwithin other hold
        · rw [List.mem_singleton.mp hnew]
          change (world.stream submission.id).length ≤ submission.maxTokens
          rw [hnone]
          exact Nat.zero_le _
  | park hphase hschedule => exact withinLimits_of_quiet rfl trivial fun _ => rfl
  | begin hphase hschedule => exact withinLimits_of_quiet rfl trivial fun _ => rfl
  | answer hphase hitem happend => exact withinLimits_of_quiet rfl trivial fun _ => rfl
  | fail hphase hitem happend => exact withinLimits_of_quiet rfl trivial fun _ => rfl
  | update hphase hlength hupdate =>
      change WithinLimits _ (submitted ++ []) ↔ _
      rw [List.append_nil, updated_limits_iff hvalid h hphase hlength hupdate, NoneUnasked, hphase]
      apply and_congr_right
      intro _
      exact ⟨fun hnone _ => hnone, fun hnone => hnone hlength⟩

/-- **The limit is respected exactly as long as no request for zero tokens is answered.** No client
is ever sent more than one token beyond that. -/
theorem stream_within_limit_iff (env : Env) (ops : TensorOps τ) {blockSize numGpuBlocks : ℕ}
    {config : SchedulerConfig} {events : List (Event τ)}
    (hfresh : Machine.Along (step env ops) Fresh (new env blockSize numGpuBlocks config) events)
    (hrun : submissionHistory env ops blockSize numGpuBlocks config events =
      .ok (world, submitted)) :
    (∀ submission ∈ submitted,
      (world.stream submission.id).length ≤ max 1 submission.maxTokens) ∧
    ((∀ submission ∈ submitted, (world.stream submission.id).length ≤ submission.maxTokens) ↔
      Machine.Along (step env ops) NoneUnasked (new env blockSize numGpuBlocks config) events) := by
  obtain ⟨_, h⟩ := submissionHistory_streamed hfresh hrun
  refine ⟨fun submission hsubmission => (h.bounded submission hsubmission).length_le, ?_⟩
  have hgood := Machine.run_good_iff (P := fun (w : World τ × List Submission) e =>
      w.1.NoneUnasked e) (Q := fun w e => w.1.Fresh e)
    (I := fun w => w.1.Valid ∧ w.1.Streamed w.2) (G := fun w => w.1.WithinLimits w.2) ?_ ?_
    ⟨new_valid env blockSize numGpuBlocks config, new_streamed env blockSize numGpuBlocks config⟩
    (Machine.along_recorded.mpr hfresh) hrun
  · rw [Machine.along_recorded] at hgood
    apply hgood.trans
    apply and_iff_right
    intro _ hmem
    cases hmem
  · intro w e w' hw hevent hstep
    obtain ⟨hstep, hrecord⟩ := Machine.recorded_eq_ok.mp hstep
    have hsteps := steps_of_step hstep
    rw [hrecord]
    exact ⟨steps_valid hw.1 hevent hsteps, steps_streamed hw.1 hw.2 hevent hsteps⟩
  · intro w e w' hw hevent hstep
    obtain ⟨hstep, hrecord⟩ := Machine.recorded_eq_ok.mp hstep
    rw [hrecord]
    exact steps_limits_iff hw.1 hw.2 hevent (steps_of_step hstep)

end Limit

theorem stream_within_limit_of_two :
    ∃ world submitted, submissionHistory .counting (.rows ℕ) 4 9 ⟨8, 4⟩
        [.submit (.plain 1 [5, 7] 2), .schedule 0, .forward [([1, 2], [1, 2])] (some 3), .update,
          .schedule 1, .forward [([3], [3])] (some 4), .update, .schedule 2] =
          .ok (world, submitted) ∧
      world.stream 1 = [3, 4] ∧
      ∀ submission ∈ submitted,
        (world.stream submission.id).length ≤ submission.maxTokens := by
  have hrun : ∃ ran, submissionHistory .counting (.rows ℕ) 4 9 ⟨8, 4⟩
      [.submit (.plain 1 [5, 7] 2), .schedule 0, .forward [([1, 2], [1, 2])] (some 3), .update,
        .schedule 1, .forward [([3], [3])] (some 4), .update, .schedule 2] = .ok ran ∧
      ran.1.stream 1 = [3, 4] := by
    decide +kernel
  obtain ⟨⟨world, submitted⟩, hrun, hstream⟩ := hrun
  exact ⟨world, submitted, hrun, hstream,
    (stream_within_limit_iff .counting (.rows ℕ) (by decide +kernel) hrun).2.mpr
      (by decide +kernel)⟩

/-- A request for no token is sent one. -/
theorem stream_beyond_limit :
    Machine.Along (step .counting (.rows ℕ)) Fresh (new .counting 4 9 ⟨8, 4⟩)
        [.submit (.plain 1 [5, 7] 0), .schedule 0, .forward [([1, 2], [1, 2])] (some 3),
          .update] ∧
      ∃ ran, submissionHistory .counting (.rows ℕ) 4 9 ⟨8, 4⟩
          [.submit (.plain 1 [5, 7] 0), .schedule 0, .forward [([1, 2], [1, 2])] (some 3),
            .update] = .ok ran ∧
        ran.1.stream 1 = [3] ∧
        ∃ submission ∈ ran.2, ¬ (ran.1.stream submission.id).length ≤ submission.maxTokens := by
  decide +kernel

end World
end Kyro
