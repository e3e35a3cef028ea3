import Kyro.Proof.Inference.Prefill
import Kyro.Proof.Worker.Stream

/-!
# What a client of a loaded model gets

Every token comes from a chunk of the prompt with as many tokens as the model has heads, and no part
of the prompt is read twice. So the tokens of a request, times the heads, are not more than the
tokens of its prompt.
-/

namespace Kyro
namespace World

open Worker

variable {τ : Type} {env : Env} {ops : TensorOps τ} {heads : ℕ} {world : World τ}
  {submitted : List Submission}

/-- Every token that was sent has been paid for with the tokens of a chunk. -/
structure Paid (heads : ℕ) (world : World τ) (submitted : List Submission) : Prop where
  running : ∀ req ∈ world.scheduler.runningQueue,
    req.promptTokens.length + world.scheduler.config.maxPrefillChunkSize < 2 ^ 64 →
      req.generatedTokens.length * heads ≤ req.prefillCursor
  streams : ∀ submission ∈ submitted,
    submission.promptTokens.length + world.scheduler.config.maxPrefillChunkSize < 2 ^ 64 →
      (world.stream submission.id).length * heads ≤ submission.promptTokens.length

theorem new_paid (heads : ℕ) (env : Env) (blockSize numGpuBlocks : ℕ) (config : SchedulerConfig) :
    (new env blockSize numGpuBlocks config : World τ).Paid heads [] where
  running req hreq := by cases hreq
  streams submission hsubmission := by cases hsubmission

theorem submit_paid (h : world.Paid heads submitted) (hstreamed : world.Streamed submitted)
    {submission : Submission} (hfresh : submission.id ∉ world.submitted) :
    (world.submit submission).Paid heads (submitted ++ [submission]) where
  running := h.running
  streams other hother hsmall := by
    rcases List.mem_append.mp hother with hold | hnew
    · exact h.streams other hold hsmall
    · have hnone : world.stream submission.id = [] := hstreamed.unknown _ hfresh
      rw [List.mem_singleton.mp hnew]
      show (world.stream submission.id).length * heads ≤ _
      rw [hnone, List.length_nil, Nat.zero_mul]
      exact Nat.zero_le _

theorem scheduled_paid (hvalid : world.Valid) (h : world.Paid heads submitted) {now : Instant}
    {scheduler : Scheduler} {toPrefill toDecode : List RequestId}
    {stays selected taken admitted : List Request}
    (hspec : Scheduler.Scheduled now world.scheduler scheduler toPrefill toDecode stays selected
      taken admitted) (cache : KVCacheManager τ) (phase : Phase) :
    Paid heads { world with scheduler, cache, phase } submitted where
  running := by
    rw [hspec.config_eq]
    apply hspec.forall_running (fun _ => Iff.rfl) h.running
    rintro req hreq _ ⟨cachedLen, mark, _, rfl⟩ _
    have hnone : req.generatedTokens = [] :=
      (congrArg Request.generatedTokens (hvalid.waiting_new req hreq)).symm
    show req.generatedTokens.length * heads ≤ _
    rw [hnone, List.length_nil, Nat.zero_mul]
    exact Nat.zero_le _
  streams := by
    rw [hspec.config_eq]
    exact h.streams

section Update

variable {toPrefill : List RequestId} {batch : List WorkItem} {results : List ComputeResult}
  {prefills : List Request}

/-- A request with a result has read a chunk for it. -/
theorem Batched.answered_paid (hvalid : world.Valid)
    (hbatched : Batched world.scheduler toPrefill batch results prefills)
    (hlength : results.length = batch.length)
    (hread : ∀ item ∈ batch, item.isPrefill = true ∧ item.input.length = heads)
    {req : Request} (hreq : req ∈ world.scheduler.runningQueue)
    (hsmall : req.promptTokens.length + world.scheduler.config.maxPrefillChunkSize < 2 ^ 64)
    (hpaid : req.generatedTokens.length * heads ≤ req.prefillCursor) :
    let next := req.settled world.scheduler.config toPrefill results
    (req.generatedTokens ++ answers results req.id).length * heads ≤ next.prefillCursor ∧
      next.prefillCursor ≤ req.promptTokens.length := by
  have hone := length_answers_le (hbatched.results_nodup hvalid hlength) req.id
  have hcursor := hvalid.cursor_le req hreq
  dsimp only
  rw [Request.settled_prefillCursor, List.length_append, Nat.add_mul]
  by_cases hprefill : req.id ∈ toPrefill
  · have hmem := (hbatched.mem_toPrefill hvalid.running_nodup hreq).mp hprefill
    have hchunk : req.chunkSize world.scheduler.config = heads := by
      rw [← Request.length_chunkItem_input]
      exact (hread _ (hbatched.mem_batch.mpr (Or.inl ⟨req, hmem, rfl⟩))).2
    have hend : req.prefillCursor + req.chunkSize world.scheduler.config = _ :=
      Request.chunk_end hcursor hsmall
    rw [if_pos hprefill, ← hend, hchunk]
    constructor
    · exact Nat.add_le_add hpaid ((Nat.mul_le_mul_right _ hone).trans_eq (Nat.one_mul _))
    · rw [← hchunk, Request.chunkSize]
      omega
  · have hnone : answers results req.id = [] := by
      apply Worker.answers_eq_nil
      intro res hres hid
      obtain ⟨item, hitem, hitemId⟩ := hbatched.exists_item hlength hres
      rcases hbatched.mem_batch.mp hitem with ⟨other, hother, rfl⟩ | ⟨other, _, rfl⟩
      · apply hprefill
        rw [← hid, ← hitemId, hbatched.toPrefill_eq]
        exact mem_ids.mpr ⟨other, hother, rfl⟩
      · cases (hread _ hitem).1
    rw [if_neg hprefill, hnone, List.length_nil, Nat.zero_mul, Nat.add_zero]
    exact ⟨hpaid, hcursor⟩

theorem updated_paid (hvalid : world.Valid) (h : world.Paid heads submitted)
    (hstreamed : world.Streamed submitted)
    (hphase : world.phase = .computing toPrefill batch results)
    (hlength : results.length = batch.length)
    (hread : ∀ item ∈ batch, item.isPrefill = true ∧ item.input.length = heads)
    {scheduler : Scheduler} {cache : KVCacheManager τ} {sent : List (RequestId × Token)}
    (hupdate : Worker.update env world.scheduler world.cache toPrefill results =
      .ok (scheduler, cache, sent)) :
    Paid heads { world with scheduler, cache, phase := .idle, sent := world.sent ++ sent }
      submitted := by
  obtain ⟨prefills, hbatched⟩ := hvalid.batched _ _ _ hphase
  obtain rfl := hbatched.sent_results hvalid hlength hupdate
  have hconfig : scheduler.config = world.scheduler.config := by
    rw [(update_spec hvalid.running_nodup (hbatched.toPrefill_nodup hvalid) hupdate).1]
  constructor
  · rw [hconfig]
    intro req hreq hsmall
    obtain ⟨old, hold, rfl, -⟩ := updated_running hvalid hphase hupdate hreq
    rw [Request.settled_promptTokens] at hsmall
    rw [Request.settled_generatedTokens]
    exact (hbatched.answered_paid hvalid hlength hread hold hsmall
      (h.running old hold hsmall)).1
  · rw [hconfig]
    intro submission hsubmission hsmall
    rw [stream_update world scheduler cache results]
    by_cases hrunning : submission.id ∈ ids world.scheduler.runningQueue
    · obtain ⟨old, hold, hid⟩ := mem_ids.mp hrunning
      have horigin := hstreamed.origin_eq (List.mem_append_left _ hold) hsubmission hid
      have hprompt : old.promptTokens = submission.promptTokens :=
        congrArg Request.promptTokens horigin
      rw [← hprompt] at hsmall ⊢
      rw [← hid, (hstreamed.running old hold).stream_eq]
      obtain ⟨hpaid, hcursor⟩ := hbatched.answered_paid hvalid hlength hread hold hsmall
        (h.running old hold hsmall)
      exact hpaid.trans hcursor
    · rw [hbatched.answers_eq_nil hlength hrunning, List.append_nil]
      exact h.streams submission hsubmission hsmall

end Update

end World

namespace Inference

open Loader

variable {K : Type} [Field K] [LinearOrder K] {worker : Inference K} {env : Env}
  {world world' : World (Tensor K)}

/-! ### Runs -/

def submissions (_ : World (Tensor K)) : Event K → List Submission
  | .submit submission => [submission]
  | _ => []

/-- A run that keeps the submitted requests. -/
def submissionHistory (worker : Inference K) (env : Env) (blockSize numGpuBlocks : ℕ)
    (config : SchedulerConfig) (events : List (Event K)) :
    Except Crash (World (Tensor K) × List Submission) :=
  Machine.run (Machine.recorded (worker.step env) submissions)
    (World.new env blockSize numGpuBlocks config, []) events

section Model

variable {hidden vocab nHeads nKvHeads headDim blockSize numGpuBlocks : ℕ}
  {config : SchedulerConfig} {events : List (Event K)} {submitted : List Submission}

/-- What holds in every run. -/
structure Reading (attn : Attention (Tensor K)) (nHeads : ℕ) (config : SchedulerConfig)
    (world : World (Tensor K)) (submitted : List Submission) : Prop where
  valid : world.Valid
  streamed : world.Streamed submitted
  prefilling : Prefilling attn nHeads world
  paid : world.Paid nHeads submitted
  config_eq : world.scheduler.config = config

omit [Field K] [LinearOrder K] in
theorem new_reading (attn : Attention (Tensor K)) (nHeads : ℕ) (env : Env)
    (blockSize numGpuBlocks : ℕ) (config : SchedulerConfig) :
    Reading attn nHeads config (World.new env blockSize numGpuBlocks config) [] where
  valid := World.new_valid env blockSize numGpuBlocks config
  streamed := World.new_streamed env blockSize numGpuBlocks config
  prefilling := new_prefilling attn nHeads env blockSize numGpuBlocks config
  paid := World.new_paid nHeads env blockSize numGpuBlocks config
  config_eq := rfl

omit [Field K] [LinearOrder K] in
theorem steps_paid {attn : Attention (Tensor K)} (h : Reading attn nHeads config world submitted)
    {event' : Kyro.Event (Tensor K)} (hfresh : world.Fresh event')
    (hsteps : World.Steps env (.shaped K) world event' world') :
    world'.Paid nHeads (submitted ++ world.submissions event') := by
  cases hsteps with
  | disabled hdisabled =>
      rw [World.submissions_of_disabled hdisabled, List.append_nil]
      exact h.paid
  | submit submission => exact World.submit_paid h.paid h.streamed hfresh
  | park _ hschedule =>
      obtain ⟨_, _, _, _, hspec⟩ := Scheduler.schedule_spec hschedule
      simpa only [World.submissions, List.append_nil] using
        World.scheduled_paid h.valid h.paid hspec world.cache world.phase
  | begin _ hschedule =>
      obtain ⟨_, _, _, _, hspec⟩ := Scheduler.schedule_spec hschedule
      simpa only [World.submissions, List.append_nil] using
        World.scheduled_paid h.valid h.paid hspec _ _
  | answer _ _ _ =>
      simpa only [World.submissions, List.append_nil] using ⟨h.paid.running, h.paid.streams⟩
  | fail _ _ _ =>
      simpa only [World.submissions, List.append_nil] using ⟨h.paid.running, h.paid.streams⟩
  | @update toPrefill batch results _ _ _ hphase hlength hupdate =>
      have hran := h.prefilling.ran
      rw [hphase, Phase.ran, hlength, List.take_length] at hran
      simpa only [World.submissions, List.append_nil] using
        World.updated_paid h.valid h.paid h.streamed hphase hlength hran hupdate

theorem Matches.submissions_eq {event : Event K} {event' : Kyro.Event (Tensor K)}
    (h : Matches event event') : submissions world event = world.submissions event' := by
  cases h with
  | submit _ => rfl
  | schedule _ => rfl
  | forward _ _ _ => rfl
  | update => rfl

theorem Matches.fresh {event : Event K} {event' : Kyro.Event (Tensor K)}
    (h : Matches event event') (hfresh : Fresh world event) : world.Fresh event' := by
  cases h with
  | submit _ => exact hfresh
  | schedule _ => trivial
  | forward _ _ _ => trivial
  | update => trivial

theorem submissionHistory_reading
    (hshaped : worker.model.model.Shaped worker.rope hidden vocab nHeads nKvHeads headDim)
    {attn : Attention (Tensor K)} (hkv : attn.nKvHeads = nKvHeads) (hdim : attn.headDim = headDim)
    (hlayers : worker.model.model.layers ≠ []) (hchunk : 0 < config.maxPrefillChunkSize)
    (hfresh : Machine.Along (worker.step env) Fresh (World.new env blockSize numGpuBlocks config)
      events)
    (hrun : worker.submissionHistory env blockSize numGpuBlocks config events =
      .ok (world, submitted)) : Reading attn nHeads config world submitted := by
  refine Machine.run_invariant (P := fun w e => Fresh w.1 e)
    (I := fun w : World (Tensor K) × List Submission => Reading attn nHeads config w.1 w.2)
    ?_ (new_reading attn nHeads env blockSize numGpuBlocks config)
    (Machine.along_recorded.mpr hfresh) hrun
  rintro ⟨world, submitted⟩ event ⟨world', submitted'⟩ h hevent hstep
  obtain ⟨hstep, hrecord⟩ := Machine.recorded_eq_ok.mp hstep
  obtain ⟨event', hmatches, hsteps, -⟩ := step_cases hstep
  have hevent' := hmatches.fresh hevent
  dsimp only at h hstep hrecord hsteps hevent' ⊢
  rw [hrecord, hmatches.submissions_eq]
  exact {
    valid := World.steps_valid h.valid hevent' hsteps
    streamed := World.steps_streamed h.valid h.streamed hevent' hsteps
    prefilling := steps_prefilling hshaped hkv hdim hlayers h.valid (h.config_eq ▸ hchunk)
      h.prefilling hstep
    paid := steps_paid h hevent' hsteps
    config_eq := (World.steps_config h.valid hsteps).trans h.config_eq }

/-- **A loaded model never decodes.** In every run of the worker loop with a loaded model that has a
layer, the only items that ever have a result are chunks of prompts with as many tokens as the model
has heads, and a client gets no more than one token for so many tokens of its prompt. -/
theorem tokens_for_chunks
    (hshaped : worker.model.model.Shaped worker.rope hidden vocab nHeads nKvHeads headDim)
    (hlayers : worker.model.model.layers ≠ []) (hchunk : 0 < config.maxPrefillChunkSize)
    (hfresh : Machine.Along (worker.step env) Fresh (World.new env blockSize numGpuBlocks config)
      events)
    (hrun : worker.submissionHistory env blockSize numGpuBlocks config events =
      .ok (world, submitted)) :
    (∀ toPrefill batch results, world.phase = .computing toPrefill batch results →
        ∀ item ∈ batch.take results.length, item.isPrefill = true ∧ item.input.length = nHeads) ∧
      ∀ submission ∈ submitted,
        submission.promptTokens.length + config.maxPrefillChunkSize < 2 ^ 64 →
          (world.stream submission.id).length * nHeads ≤ submission.promptTokens.length := by
  obtain ⟨layer, layers, hlayer⟩ := List.exists_cons_of_ne_nil hlayers
  obtain ⟨-, -, hkv, hdim⟩ := hshaped.layers layer (by rw [hlayer]; exact List.mem_cons_self)
  have h := submissionHistory_reading hshaped hkv hdim hlayers hchunk hfresh hrun
  constructor
  · intro toPrefill batch results hphase item hitem
    exact h.prefilling.ran item (by rwa [hphase])
  · intro submission hsubmission hsmall
    exact h.paid.streams submission hsubmission (by rwa [h.config_eq])

end Model

/-- A prompt of one token gets one, and no second. -/
theorem tokens_for_chunks_of_one :
    ∃ world submitted, flatWorker.submissionHistory .counting 4 9 ⟨8, 1⟩
        [.submit (Submission.plain 1 [0] 9), .schedule 0, .forward flatDraw, .update, .schedule 1,
          .forward flatDraw] = .ok (world, submitted) ∧
      world.stream 1 = [0] ∧ world.phase = .stopped ∧
      ∀ submission ∈ submitted, submission.promptTokens.length + 1 < 2 ^ 64 →
        (world.stream submission.id).length * 1 ≤ submission.promptTokens.length := by
  have hrun : ∃ ran, flatWorker.submissionHistory .counting 4 9 ⟨8, 1⟩
      [.submit (Submission.plain 1 [0] 9), .schedule 0, .forward flatDraw, .update, .schedule 1,
        .forward flatDraw] = .ok ran ∧ ran.1.stream 1 = [0] ∧ ran.1.phase = .stopped := by
    decide +kernel
  obtain ⟨⟨world, submitted⟩, hrun, hstream, hphase⟩ := hrun
  have hlayers : flatWorker.model.model.layers ≠ [] := List.cons_ne_nil _ _
  exact ⟨world, submitted, hrun, hstream, hphase,
    (tokens_for_chunks oneHeadModel_shaped hlayers one_pos (by decide +kernel) hrun).2⟩

end Inference
end Kyro
