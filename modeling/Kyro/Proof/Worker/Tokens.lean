import Kyro.Proof.Worker.Decode

/-!
# Tokens sampled before the prompt is read

Every item of a batch has a token sampled from it and pushed to its request, a chunk in the middle
of a prompt like any other: the flag that says which chunk is the last one is carried along and
never looked at. So a run pushes tokens of finished prompts only exactly as long as every chunk it
runs reaches the end of its prompt.
-/

namespace Kyro

namespace World

open Worker

variable {τ : Type} {env : Env} {ops : TensorOps τ}

/-- The items whose tokens an update pushes to a running request, with their results. -/
def pushed (world : World τ) : Event τ → List (WorkItem × ComputeResult)
  | .update =>
    match world.phase with
    | .computing _ batch results =>
      if results.length = batch.length then
        (batch.zip results).filter fun push =>
          (findRequest world.scheduler.runningQueue push.2.reqId).isSome
      else []
    | _ => []
  | _ => []

/-- The chunks that an update finds done reach the end of their prompts, where `add` moves the
cursor. -/
def ChunksReach (add : ℕ → ℕ → ℕ) (world : World τ) : Event τ → Prop
  | .update => WhenDone (fun toPrefill _ =>
      ∀ req ∈ world.scheduler.runningQueue, req.id ∈ toPrefill →
        req.promptTokens.length ≤
          add req.prefillCursor world.scheduler.config.maxPrefillChunkSize)
    world.phase
  | _ => True

instance (add : ℕ → ℕ → ℕ) (world : World τ) : DecidablePred (world.ChunksReach add)
  | .update => inferInstanceAs (Decidable (WhenDone _ world.phase))
  | .submit _ => inferInstanceAs (Decidable True)
  | .schedule _ => inferInstanceAs (Decidable True)
  | .forward _ _ => inferInstanceAs (Decidable True)

/-- Every chunk that is run is the last one of its prompt. -/
abbrev LastChunks (world : World τ) : Event τ → Prop := world.ChunksReach (· + ·)

section Update

variable {world : World τ} {toPrefill : List RequestId} {batch : List WorkItem}
  {results : List ComputeResult} {prefills : List Request}

theorem chunkItem_isLastChunk {config : SchedulerConfig} {req : Request} (hopen : ¬ req.Prefilled) :
    (req.chunkItem config).isLastChunk = true ↔
      req.promptTokens.length ≤ req.prefillCursor + config.maxPrefillChunkSize := by
  have hlast : (req.chunkItem config).isLastChunk =
    decide (req.prefillCursor + req.chunkSize config = req.promptTokens.length) := rfl
  rw [hlast, decide_eq_true_eq, Request.chunkSize]
  rw [Request.Prefilled] at hopen
  omega

/-- All results are pushed. -/
theorem Batched.pushed_eq (h : Batched world.scheduler toPrefill batch results prefills)
    (hvalid : world.Valid) (hphase : world.phase = .computing toPrefill batch results)
    (hlength : results.length = batch.length) : world.pushed .update = batch.zip results := by
  rw [pushed, hphase]
  dsimp only
  rw [if_pos hlength]
  apply List.filter_eq_self.mpr
  intro push hpush
  obtain ⟨item, hitem, heq⟩ := h.exists_item hlength (List.of_mem_zip hpush).2
  obtain ⟨req, hreq, hid⟩ := h.item_running hitem
  rw [← heq, ← hid, findRequest_eq_some hvalid.running_nodup hreq]
  rfl

/-- An update pushes only tokens of last chunks and decodes exactly when all its chunks are last. -/
theorem Batched.pushed_good_iff (h : Batched world.scheduler toPrefill batch results prefills)
    (hvalid : world.Valid) (hphase : world.phase = .computing toPrefill batch results)
    (hlength : results.length = batch.length) :
    (∀ push ∈ world.pushed .update, push.1.isLastChunk ∨ push.1.isPrefill = false) ↔
      ∀ req ∈ world.scheduler.runningQueue, req.id ∈ toPrefill →
        req.promptTokens.length ≤
          req.prefillCursor + world.scheduler.config.maxPrefillChunkSize := by
  rw [h.pushed_eq hvalid hphase hlength]
  constructor
  · intro hgood req hreq hid
    have hprefill := (h.mem_toPrefill hvalid.running_nodup hreq).mp hid
    have hitem := h.mem_batch.mpr (Or.inl ⟨req, hprefill, rfl⟩)
    rw [← chunkItem_isLastChunk (h.prefill_running hprefill).2]
    have hfst : (batch.zip results).map Prod.fst = batch :=
      List.map_fst_zip (Nat.le_of_eq hlength.symm)
    rw [← hfst] at hitem
    obtain ⟨push, hpush, hpushItem⟩ := List.mem_map.mp hitem
    rcases hgood push hpush with hlast | hdecode
    · rwa [hpushItem] at hlast
    · rw [hpushItem] at hdecode
      cases hdecode
  · intro hlast push hpush
    rcases h.mem_batch.mp (List.of_mem_zip hpush).1 with ⟨req, hreq, heq⟩ | ⟨req, _, heq⟩
    · apply Or.inl
      obtain ⟨hrunning, hopen⟩ := h.prefill_running hreq
      rw [← heq, chunkItem_isLastChunk hopen]
      apply hlast req hrunning
      exact (h.mem_toPrefill hvalid.running_nodup hrunning).mpr hreq
    · apply Or.inr
      rw [← heq]
      rfl

end Update

/-- What is sent while the results are pushed. -/
theorem pushResults_sent {reqs : List Request} (hnodup : (ids reqs).Nodup)
    {results : List ComputeResult} (hrunning : ∀ res ∈ results, res.reqId ∈ ids reqs)
    (hsender : ∀ req ∈ reqs, req.tokenSender = true) :
    (pushResults reqs results).2 = results.map fun res => (res.reqId, res.token) := by
  induction results generalizing reqs with
  | nil => rfl
  | cons res results ih =>
      rw [pushResults]
      cases hfind : findRequest reqs res.reqId with
      | none => exact absurd (hrunning res List.mem_cons_self) (findRequest_eq_none.mp hfind)
      | some req =>
          have hids : ids (updateRequest res.reqId (Request.pushToken res.token) reqs) =
              ids reqs := by
            rw [updateRequest_eq_map hnodup]
            exact ids_map (fun req => by split <;> rfl) reqs
          dsimp only
          rw [if_pos (hsender req (findRequest_spec hfind).1), ih, List.map_cons]
          · rw [hids]
            exact hnodup
          · intro other hother
            rw [hids]
            exact hrunning other (List.mem_cons_of_mem _ hother)
          · intro other hother
            rw [updateRequest_eq_map hnodup] at hother
            obtain ⟨old, hold, rfl⟩ := List.mem_map.mp hother
            have hsent := hsender old hold
            split
            · exact hsent
            · exact hsent

section Update

variable {world : World τ} {toPrefill : List RequestId} {batch : List WorkItem}
  {results : List ComputeResult} {prefills : List Request} {scheduler : Scheduler}
  {cache : KVCacheManager τ} {sent : List (RequestId × Token)}

/-- An update sends the token of every result. -/
theorem Batched.sent_results (h : Batched world.scheduler toPrefill batch results prefills)
    (hvalid : world.Valid) (hlength : results.length = batch.length)
    (hupdate : Worker.update env world.scheduler world.cache toPrefill results =
      .ok (scheduler, cache, sent)) : sent = results.map fun res => (res.reqId, res.token) := by
  obtain ⟨_, _, hsent⟩ := update_spec hvalid.running_nodup (h.toPrefill_nodup hvalid) hupdate
  rw [hsent, pushResults_sent hvalid.running_nodup]
  · intro res hres
    obtain ⟨item, hitem, heq⟩ := h.exists_item hlength hres
    obtain ⟨req, hreq, hid⟩ := h.item_running hitem
    exact mem_ids.mpr ⟨req, hreq, hid.trans heq⟩
  · intro req hreq
    obtain ⟨submission, horigin⟩ := hvalid.origin req (List.mem_append_left _ hreq)
    exact congrArg Request.tokenSender horigin

/-- What an update sends is what it pushes. -/
theorem Batched.sent_eq (h : Batched world.scheduler toPrefill batch results prefills)
    (hvalid : world.Valid) (hphase : world.phase = .computing toPrefill batch results)
    (hlength : results.length = batch.length)
    (hupdate : Worker.update env world.scheduler world.cache toPrefill results =
      .ok (scheduler, cache, sent)) :
    sent = (world.pushed .update).map fun push => (push.2.reqId, push.2.token) := by
  have hsnd : (batch.zip results).map Prod.snd = results :=
    List.map_snd_zip (Nat.le_of_eq hlength)
  rw [h.sent_results hvalid hlength hupdate, h.pushed_eq hvalid hphase hlength, ← hsnd,
    List.map_map, hsnd]
  rfl

end Update

theorem pushed_of_disabled {world : World τ} {event : Event τ} (h : ¬ world.Enabled event) :
    world.pushed event = [] := by
  cases event with
  | update =>
      rw [pushed]
      split
      · rename_i toPrefill batch results hphase
        rw [if_neg fun hlength => h ⟨toPrefill, batch, results, hphase, hlength⟩]
      · rfl
  | submit submission => rfl
  | schedule now => rfl
  | forward appends token => rfl

theorem chunksReach_of_disabled {add : ℕ → ℕ → ℕ} {world : World τ} {event : Event τ}
    (h : ¬ world.Enabled event) : world.ChunksReach add event := by
  cases event with
  | update => exact whenDone_of_disabled h _
  | submit submission => trivial
  | schedule now => trivial
  | forward appends token => trivial

/-- What one event pushes is sampled from finished prompts exactly if its chunks are last chunks. -/
theorem steps_pushed_iff {world world' : World τ} {event : Event τ} (hvalid : world.Valid)
    (hsteps : Steps env ops world event world') :
    (∀ push ∈ world.pushed event, push.1.isLastChunk ∨ push.1.isPrefill = false) ↔
      world.LastChunks event := by
  cases hsteps with
  | disabled hdisabled =>
      rw [pushed_of_disabled hdisabled]
      exact ⟨fun _ => chunksReach_of_disabled hdisabled, fun _ push hpush => by cases hpush⟩
  | update hphase hlength hupdate =>
      obtain ⟨prefills, hbatched⟩ := hvalid.batched _ _ _ hphase
      rw [hbatched.pushed_good_iff hvalid hphase hlength, LastChunks, ChunksReach, hphase]
      exact ⟨fun h _ => h, fun h => h hlength⟩
  | submit submission => exact ⟨fun _ => trivial, fun _ push hpush => by cases hpush⟩
  | park hphase hschedule => exact ⟨fun _ => trivial, fun _ push hpush => by cases hpush⟩
  | begin hphase hschedule => exact ⟨fun _ => trivial, fun _ push hpush => by cases hpush⟩
  | answer hphase hitem happend => exact ⟨fun _ => trivial, fun _ push hpush => by cases hpush⟩
  | fail hphase hitem happend => exact ⟨fun _ => trivial, fun _ push hpush => by cases hpush⟩

theorem steps_sent {world world' : World τ} {event : Event τ} (hvalid : world.Valid)
    (hsteps : Steps env ops world event world') :
    world'.sent = world.sent ++
      (world.pushed event).map fun push => (push.2.reqId, push.2.token) := by
  cases hsteps with
  | disabled hdisabled =>
      rw [pushed_of_disabled hdisabled, List.map_nil, List.append_nil]
  | update hphase hlength hupdate =>
      obtain ⟨prefills, hbatched⟩ := hvalid.batched _ _ _ hphase
      rw [← hbatched.sent_eq hvalid hphase hlength hupdate]
  | submit submission => exact (List.append_nil _).symm
  | park hphase hschedule => exact (List.append_nil _).symm
  | begin hphase hschedule => exact (List.append_nil _).symm
  | answer hphase hitem happend => exact (List.append_nil _).symm
  | fail hphase hitem happend => exact (List.append_nil _).symm

/-! ### The boundaries of the iterations -/

/-- A request in the middle of its prompt has no token. -/
def Unread (world : World τ) : Prop :=
  ∀ req ∈ world.scheduler.runningQueue, ¬ req.Prefilled → req.generatedTokens = []

theorem scheduled_unread {now : Instant} {world : World τ} {scheduler : Scheduler}
    {toPrefill toDecode : List RequestId} {stays selected taken admitted : List Request}
    (hvalid : world.Valid) (h : world.Unread)
    (hspec : Scheduler.Scheduled now world.scheduler scheduler toPrefill toDecode stays selected
      taken admitted) :
    ∀ req ∈ scheduler.runningQueue, ¬ req.Prefilled → req.generatedTokens = [] := by
  apply hspec.forall_running (fun _ => Iff.rfl) h
  rintro req hreq _ ⟨cachedLen, _, _, rfl⟩ _
  exact (congrArg Request.generatedTokens (hvalid.waiting_new req hreq)).symm

/-- An update whose cursors reach the ends of the prompts leaves no token in the middle of one. -/
theorem updated_unread {world : World τ} {toPrefill : List RequestId} {batch : List WorkItem}
    {results : List ComputeResult} {prefills : List Request}
    (hbatched : Batched world.scheduler toPrefill batch results prefills)
    (hlength : results.length = batch.length) (h : world.Unread)
    (hreach : ∀ req ∈ world.scheduler.runningQueue, req.id ∈ toPrefill →
      req.promptTokens.length ≤
        wrappingAdd req.prefillCursor world.scheduler.config.maxPrefillChunkSize)
    {old : Request} (hvalid : world.Valid) (hold : old ∈ world.scheduler.runningQueue)
    (hopen : ¬ (old.settled world.scheduler.config toPrefill results).Prefilled) :
    (old.settled world.scheduler.config toPrefill results).generatedTokens = [] := by
  rw [Request.Prefilled, Request.settled_promptTokens, Request.settled_prefillCursor] at hopen
  by_cases hmem : old.id ∈ toPrefill
  · rw [if_pos hmem, Scheduler.nextCursor, Nat.min_eq_right (hreach old hold hmem)] at hopen
    exact absurd (Nat.le_refl _) hopen
  · rw [if_neg hmem] at hopen
    rw [Request.settled_generatedTokens, h old hold hopen, List.nil_append, List.map_eq_nil_iff]
    apply List.filter_eq_nil_iff.mpr
    intro res hres hid
    -- a result is for a selected prefill or for a finished one, and `old` is neither
    obtain ⟨item, hitem, heq⟩ := hbatched.exists_item hlength hres
    have hitemId : item.reqId = old.id := heq.trans (of_decide_eq_true hid)
    rcases hbatched.mem_batch.mp hitem with ⟨req, hreq, rfl⟩ | ⟨req, hreq, rfl⟩
    · apply hmem
      rw [hbatched.toPrefill_eq]
      exact mem_ids.mpr ⟨req, hreq, hitemId⟩
    · obtain ⟨hrunning, hprefilled⟩ := List.mem_filter.mp hreq
      obtain rfl := eq_of_id_eq hvalid.running_nodup hrunning hold hitemId
      exact hopen (of_decide_eq_true hprefilled)

theorem steps_unread {world world' : World τ} {event : Event τ} (hvalid : world.Valid)
    (h : world.Unread) (hreach : world.ChunksReach wrappingAdd event)
    (hsteps : Steps env ops world event world') : world'.Unread := by
  cases hsteps with
  | disabled _ => exact h
  | submit submission => exact h
  | park hphase hschedule =>
      obtain ⟨_, _, _, _, hspec⟩ := Scheduler.schedule_spec hschedule
      exact scheduled_unread hvalid h hspec
  | begin hphase hschedule =>
      obtain ⟨_, _, _, _, hspec⟩ := Scheduler.schedule_spec hschedule
      exact scheduled_unread hvalid h hspec
  | answer hphase hitem happend => exact h
  | fail hphase hitem happend => exact h
  | update hphase hlength hupdate =>
      obtain ⟨prefills, hbatched⟩ := hvalid.batched _ _ _ hphase
      rw [ChunksReach, hphase] at hreach
      intro req hreq hopen
      obtain ⟨old, hold, rfl, _⟩ := updated_running hvalid hphase hupdate hreq
      exact updated_unread hbatched hlength h (hreach hlength) hvalid hold hopen

/-! ### Runs -/

/-- A run that keeps what its updates push. -/
def pushHistory (env : Env) (ops : TensorOps τ) (blockSize numGpuBlocks : ℕ)
    (config : SchedulerConfig) (events : List (Event τ)) :
    Except Fault (World τ × List (WorkItem × ComputeResult)) :=
  Machine.run (Machine.recorded (step env ops) pushed)
    (new env blockSize numGpuBlocks config, []) events

/-- **Tokens are sampled from finished prompts exactly as long as every chunk is a last chunk.**
What is pushed in a run is what is sent to the API. And where every cursor reaches the end of its
prompt in one step, a request in the middle of its prompt has no token. -/
theorem pushed_after_prompt_iff (env : Env) (ops : TensorOps τ) {blockSize numGpuBlocks : ℕ}
    {config : SchedulerConfig} {events : List (Event τ)}
    (hfresh : Machine.Along (step env ops) Fresh (new env blockSize numGpuBlocks config) events)
    {world : World τ} {pushes : List (WorkItem × ComputeResult)}
    (hrun : pushHistory env ops blockSize numGpuBlocks config events = .ok (world, pushes)) :
    world.sent = pushes.map (fun push => (push.2.reqId, push.2.token)) ∧
    ((∀ push ∈ pushes, push.1.isLastChunk ∨ push.1.isPrefill = false) ↔
      Machine.Along (step env ops) LastChunks (new env blockSize numGpuBlocks config) events) ∧
    (Machine.Along (step env ops) (ChunksReach wrappingAdd) (new env blockSize numGpuBlocks config)
      events → ∀ req ∈ world.scheduler.runningQueue,
        req.prefillCursor < req.promptTokens.length → req.generatedTokens = []) := by
  have hnew := new_valid (τ := τ) env blockSize numGpuBlocks config
  have hkeep : ∀ (w : World τ) e w', w.Valid → w.Fresh e → w.step env ops e = .ok w' → w'.Valid :=
    fun w e w' hvalid hfresh hstep => steps_valid hvalid hfresh (steps_of_step hstep)
  have hhistory := Machine.run_of_recorded hrun
  refine ⟨?_, ?_, ?_⟩
  · apply (recorded_invariant (I := fun (w : World τ) kept =>
      w.sent = kept.map fun push => (push.2.reqId, push.2.token)) _ rfl hfresh hrun).2
    intro w kept e w' hvalid hsent _ hsteps
    rw [steps_sent hvalid hsteps, hsent, List.map_append]
  · rw [Machine.forall_mem_record_iff hkeep (fun w e w' hvalid _ hstep =>
      steps_pushed_iff hvalid (steps_of_step hstep)) hnew hfresh hrun]
    simp
  · intro hreach req hreq hopen
    have hunread : world.Valid ∧ world.Unread := by
      apply Machine.run_invariant (I := fun w => w.Valid ∧ w.Unread) _ ⟨hnew, _⟩
        (hfresh.and hreach) hhistory
      · intro w e w' hw hevent hstep
        exact ⟨hkeep _ _ _ hw.1 hevent.1 hstep,
          steps_unread hw.1 hw.2 hevent.2 (steps_of_step hstep)⟩
      · intro req hreq
        cases hreq
    exact hunread.2 req hreq (Nat.not_le.mpr hopen)

theorem pushed_after_prompt_one_chunk :
    ∃ world pushes, pushHistory .counting (.rows ℕ) 4 9 ⟨8, 4⟩ [.submit (.plain 1 [5, 7] 2),
        .schedule 0, .forward [([1, 2], [1, 2])] (some 3), .update] = .ok (world, pushes) ∧
      world.sent = pushes.map (fun push => (push.2.reqId, push.2.token)) ∧
      (∀ push ∈ pushes, push.1.isLastChunk ∨ push.1.isPrefill = false) ∧
      ∀ req ∈ world.scheduler.runningQueue,
        req.prefillCursor < req.promptTokens.length → req.generatedTokens = [] := by
  have hrun : ∃ ran, pushHistory .counting (.rows ℕ) 4 9 ⟨8, 4⟩ [.submit (.plain 1 [5, 7] 2),
      .schedule 0, .forward [([1, 2], [1, 2])] (some 3), .update] = .ok ran ∧ True := by
    decide +kernel
  obtain ⟨⟨world, pushes⟩, hrun, _⟩ := hrun
  obtain ⟨hsent, hiff, hunread⟩ := pushed_after_prompt_iff .counting (.rows ℕ)
    (by decide +kernel) hrun
  exact ⟨world, pushes, hrun, hsent, hiff.mpr (by decide +kernel), hunread (by decide +kernel)⟩

/-- The first of two chunks is answered, and its token is sent on. -/
theorem pushed_after_first_chunk :
    Machine.Along (step .counting (.rows ℕ)) Fresh (new .counting 4 9 ⟨8, 4⟩)
        [.submit (.plain 1 [1, 2, 3, 4, 5, 6] 2), .schedule 0,
          .forward [([1, 2, 3, 4], [1, 2, 3, 4])] (some 9), .update] ∧
      ∃ ran, pushHistory .counting (.rows ℕ) 4 9 ⟨8, 4⟩
          [.submit (.plain 1 [1, 2, 3, 4, 5, 6] 2), .schedule 0,
            .forward [([1, 2, 3, 4], [1, 2, 3, 4])] (some 9), .update] = .ok ran ∧
        (∃ push ∈ ran.2, push.1.isPrefill = true ∧ push.1.isLastChunk = false) ∧
        ran.1.sent = [(1, 9)] ∧
        ∃ req ∈ ran.1.scheduler.runningQueue, req.id = 1 ∧
          req.prefillCursor < req.promptTokens.length ∧ req.generatedTokens = [9] := by
  decide +kernel

end World
end Kyro
