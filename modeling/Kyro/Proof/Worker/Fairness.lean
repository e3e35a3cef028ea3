import Kyro.Proof.Worker.Drain
import Kyro.Proof.Scheduler.Budget

/-!
# No request starves

Requests may go on coming in forever. A waiting request is behind the running ones and those that
came before it, and every iteration gives one of these a token: so it is admitted after as many
iterations as they can get tokens, whatever comes in after it. A running request may have to stand
back, since decodes go before prefills and the requests behind it may be decodes already; but a
`schedule` that leaves it out admits nobody. So the requests that it stands back for are those of
the last `schedule` that did select it, and of these there are no more than tokens in the budget.
-/

namespace Kyro

theorem Request.AdmittedAs.remaining_eq {req next : Request} (h : req.AdmittedAs next) :
    next.remaining = req.remaining := by
  obtain ⟨_, _, _, rfl⟩ := h
  rfl

theorem Request.remaining_of_unmarked {req req' : Request} (h : req'.unmarked = req.unmarked) :
    req'.remaining = req.remaining := by
  change req'.unmarked.remaining = req.unmarked.remaining
  rw [h]

namespace Phase

/-- What a request can still get after the batch that is being run. -/
def owed : Phase → Request → ℕ
  | .idle, req => req.remaining
  | .computing _ batch _, req =>
    if req.id ∈ batch.map (·.reqId) then req.remaining - 1 else req.remaining
  | .stopped, _ => 0

theorem owed_le (phase : Phase) (req : Request) : phase.owed req ≤ req.remaining := by
  cases phase with
  | idle => exact Nat.le_refl _
  | computing toPrefill batch results =>
      rw [owed]
      split
      · exact Nat.sub_le _ _
      · exact Nat.le_refl _
  | stopped => exact Nat.zero_le _

theorem owed_of_mem {toPrefill : List RequestId} {batch : List WorkItem}
    {results : List ComputeResult} {req : Request} (h : req.id ∈ batch.map (·.reqId)) :
    (computing toPrefill batch results).owed req = req.remaining - 1 := if_pos h

/-- A pass through the model does not add to it. -/
theorem Forwarded.owed_le {phase : Phase} {toPrefill : List RequestId} {batch : List WorkItem}
    {results : List ComputeResult} (h : phase.Forwarded toPrefill batch results) (req : Request) :
    phase.owed req ≤ (computing toPrefill batch results).owed req := by
  cases h with
  | answer result => exact Nat.le_refl _
  | fail => exact Nat.zero_le _

theorem sum_owed_le (phase : Phase) (reqs : List Request) :
    (reqs.map phase.owed).sum ≤ (reqs.map Request.remaining).sum :=
  List.sum_le_sum fun req _ => phase.owed_le req

end Phase

namespace Scheduler

/-! ### What is before a request -/

/-- The tokens of the running requests and of those `ahead` in the queue, and `factor` times those
of the request itself. -/
def cost (scheduler : Scheduler) (phase : Phase) (factor : ℕ) (ahead : List Request)
    (req : Request) : ℕ :=
  ((scheduler.runningQueue ++ ahead).map phase.owed).sum + factor * phase.owed req

/-- The request waits, and its cost is at most `n`. -/
def Waits (scheduler : Scheduler) (phase : Phase) (factor : ℕ) (id : RequestId) (n : ℕ) : Prop :=
  ∃ ahead req behind, scheduler.waitingQueue = ahead ++ req :: behind ∧ req.id = id ∧
    scheduler.cost phase factor ahead req ≤ n

/-- The request runs, and its cost is at most `n`. -/
def Runs (scheduler : Scheduler) (phase : Phase) (factor : ℕ) (id : RequestId) (n : ℕ) : Prop :=
  ∃ req ∈ scheduler.runningQueue, req.id = id ∧ scheduler.cost phase factor [] req ≤ n

theorem Waits.mem {scheduler : Scheduler} {phase : Phase} {factor n : ℕ} {id : RequestId}
    (h : scheduler.Waits phase factor id n) : id ∈ ids scheduler.waitingQueue := by
  obtain ⟨ahead, req, behind, hqueue, rfl, _⟩ := h
  rw [hqueue]
  exact mem_ids.mpr ⟨req, by simp, rfl⟩

theorem Runs.mem {scheduler : Scheduler} {phase : Phase} {factor n : ℕ} {id : RequestId}
    (h : scheduler.Runs phase factor id n) : id ∈ ids scheduler.runningQueue := by
  obtain ⟨req, hreq, hid, _⟩ := h
  exact mem_ids.mpr ⟨req, hreq, hid⟩

section Phases

variable {scheduler : Scheduler} {phase phase' : Phase} {factor n : ℕ} {id : RequestId}

theorem cost_le (hle : ∀ req, phase'.owed req ≤ phase.owed req) (ahead : List Request)
    (req : Request) : scheduler.cost phase' factor ahead req ≤
      scheduler.cost phase factor ahead req :=
  Nat.add_le_add (List.sum_le_sum fun other _ => hle other) (Nat.mul_le_mul_left _ (hle req))

theorem Waits.of_owed_le (h : scheduler.Waits phase factor id n)
    (hle : ∀ req, phase'.owed req ≤ phase.owed req) : scheduler.Waits phase' factor id n := by
  obtain ⟨ahead, req, behind, hqueue, hid, hcost⟩ := h
  exact ⟨ahead, req, behind, hqueue, hid, (cost_le hle ahead req).trans hcost⟩

theorem Runs.of_owed_le (h : scheduler.Runs phase factor id n)
    (hle : ∀ req, phase'.owed req ≤ phase.owed req) : scheduler.Runs phase' factor id n := by
  obtain ⟨req, hreq, hid, hcost⟩ := h
  exact ⟨req, hreq, hid, (cost_le hle [] req).trans hcost⟩

end Phases

section Schedule

variable {now : Instant} {scheduler scheduler' : Scheduler} {toPrefill toDecode : List RequestId}
  {stays selected taken admitted : List Request} {phase : Phase} {factor n charge : ℕ}
  {id : RequestId}

theorem Scheduled.sum_running_le
    (h : Scheduled now scheduler scheduler' toPrefill toDecode stays selected taken admitted) :
    (scheduler'.runningQueue.map Request.remaining).sum ≤
      (scheduler.runningQueue.map Request.remaining).sum + (taken.map Request.remaining).sum := by
  have hstays : (stays.map Request.remaining).sum ≤
      (scheduler.runningQueue.map Request.remaining).sum := by
    have hmarks : ∀ reqs : List Request, reqs.map Request.remaining =
        (reqs.map Request.unmarked).map Request.remaining := by
      intro reqs
      rw [List.map_map]
      rfl
    rw [hmarks, h.stays_eq, ← hmarks]
    exact (List.filter_sublist.map _).sum_le_sum fun _ _ => Nat.zero_le _
  have hadmitted : admitted.map Request.remaining = taken.map Request.remaining := by
    have hall := h.admitted_as
    clear h
    induction hall with
    | nil => rfl
    | cons hreq _ ih => rw [List.map_cons, List.map_cons, hreq.remaining_eq, ih]
  rw [h.running_eq, List.map_append, List.sum_append, hadmitted]
  exact Nat.add_le_add_right hstays _

/-- A request that goes on waiting has the rest of the requests ahead of it that were not dropped or
admitted. -/
theorem Scheduled.still_waits
    (h : Scheduled now scheduler scheduler' toPrefill toDecode stays selected taken admitted)
    (hnodup : (ids scheduler.waitingQueue).Nodup) {ahead behind : List Request} {req : Request}
    (hqueue : scheduler.waitingQueue = ahead ++ req :: behind)
    (hwaits : req.id ∈ ids scheduler'.waitingQueue) :
    ∃ ahead' behind', scheduler'.waitingQueue = ahead' ++ req :: behind' ∧
      (taken ++ ahead').Sublist ahead := by
  obtain ⟨same, hsame, hid⟩ := mem_ids.mp hwaits
  have hreq : req ∈ scheduler.waitingQueue := by
    rw [hqueue]
    simp
  obtain rfl := eq_of_id_eq hnodup (h.mem_waiting hsame) hreq hid
  have hkept : ¬ same.Expired now := by
    have hmem : same ∈ scheduler.waitingQueue.filter fun req => ¬ req.Expired now := by
      rw [h.waiting_eq]
      exact List.mem_append_right _ hsame
    exact of_decide_eq_true (List.mem_filter.mp hmem).2
  have hsplit : taken ++ scheduler'.waitingQueue =
      ahead.filter (fun req => ¬ req.Expired now) ++
        same :: behind.filter (fun req => ¬ req.Expired now) := by
    rw [← h.waiting_eq, hqueue, List.filter_append, List.filter_cons_of_pos]
    exact decide_eq_true hkept
  have hnotTaken : same ∉ taken := by
    intro htaken
    have hids := hnodup.sublist ((List.filter_sublist
      (p := fun req => ¬ req.Expired now) (l := scheduler.waitingQueue)).map Request.id)
    rw [h.waiting_eq, List.map_append, List.nodup_append] at hids
    exact hids.2.2 same.id (List.mem_map_of_mem htaken) same.id (List.mem_map_of_mem hsame) rfl
  rcases List.append_eq_append_iff.mp hsplit with ⟨rest, hahead, hrest⟩ | ⟨rest, htaken, hrest⟩
  · refine ⟨rest, _, hrest, ?_⟩
    rw [← hahead]
    exact List.filter_sublist
  · cases rest with
    | nil =>
        rw [List.append_nil] at htaken
        refine ⟨[], _, hrest.symm, ?_⟩
        rw [List.append_nil, htaken]
        exact List.filter_sublist
    | cons head rest =>
        obtain ⟨rfl, _⟩ := List.cons.inj hrest
        apply absurd _ hnotTaken
        rw [htaken]
        simp

/-- A `schedule` after which the request waits has paid for the tokens of its batch. -/
theorem Scheduled.waits
    (h : Scheduled now scheduler scheduler' toPrefill toDecode stays selected taken admitted)
    (hnodup : (ids scheduler.waitingQueue).Nodup)
    (hcharge : charge + (scheduler'.runningQueue.map phase.owed).sum ≤
      (scheduler'.runningQueue.map Request.remaining).sum)
    (hbefore : scheduler.Waits .idle factor id n)
    (hwaits : id ∈ ids scheduler'.waitingQueue) :
    ∃ m, scheduler'.Waits phase factor id m ∧ charge + m ≤ n := by
  obtain ⟨ahead, req, behind, hqueue, rfl, hcost⟩ := hbefore
  obtain ⟨ahead', behind', hqueue', hahead⟩ := h.still_waits hnodup hqueue hwaits
  refine ⟨_, ⟨ahead', req, behind', hqueue', rfl, Nat.le_refl _⟩, ?_⟩
  have hrunning := h.sum_running_le
  have hrest : (taken.map Request.remaining).sum + (ahead'.map Request.remaining).sum ≤
      (ahead.map Request.remaining).sum := by
    rw [← List.sum_append, ← List.map_append]
    exact (hahead.map _).sum_le_sum fun _ _ => Nat.zero_le _
  have howed := phase.sum_owed_le ahead'
  have hfactor : factor * phase.owed req ≤ factor * req.remaining :=
    Nat.mul_le_mul_left _ (phase.owed_le req)
  change ((scheduler.runningQueue ++ ahead).map Request.remaining).sum +
    factor * req.remaining ≤ n at hcost
  rw [List.map_append, List.sum_append] at hcost
  rw [cost, List.map_append, List.sum_append]
  omega

/-- Where somebody is admitted, every running request is selected. -/
theorem Scheduled.all_selected
    (h : Scheduled now scheduler scheduler' toPrefill toDecode stays selected taken admitted)
    (hchunk : 0 < scheduler.config.maxPrefillChunkSize) (hadmitted : admitted ≠ [])
    {req : Request} (hreq : req ∈ scheduler'.runningQueue) : req.id ∈ toPrefill ++ toDecode := by
  have hall := (h.room hchunk hadmitted).1
  rw [h.running_eq] at hreq
  rw [h.toPrefill_eq, h.toDecode_eq, hall, ← unfinished_append, ← finished_append,
    List.mem_append]
  by_cases hdone : req.Prefilled
  · exact Or.inr (List.mem_map_of_mem (List.mem_filter.mpr ⟨hreq, decide_eq_true hdone⟩))
  · exact Or.inl (List.mem_map_of_mem (List.mem_filter.mpr ⟨hreq, by simpa using hdone⟩))

/-- A request that runs after a `schedule` was in the queues before it, with the same tokens. -/
theorem Scheduled.exists_remaining
    (h : Scheduled now scheduler scheduler' toPrefill toDecode stays selected taken admitted)
    {next : Request} (hnext : next ∈ scheduler'.runningQueue) :
    ∃ old ∈ scheduler.runningQueue ++ scheduler.waitingQueue, old.id = next.id ∧
      next.remaining = old.remaining := by
  rcases h.mem_running hnext with ⟨old, hold, _, heq⟩ | ⟨old, hold, _, has⟩
  · exact ⟨old, List.mem_append_left _ hold, (Request.id_of_unmarked heq).symm,
      Request.remaining_of_unmarked heq⟩
  · refine ⟨old, List.mem_append_right _ hold, ?_, has.remaining_eq⟩
    obtain ⟨_, _, _, rfl⟩ := has
    rfl

/-- A `schedule` after which the request runs has paid for the tokens of its batch: with what the
running requests can get if it admits nobody, and with a token of the request if it does. -/
theorem Scheduled.runs
    (h : Scheduled now scheduler scheduler' toPrefill toDecode stays selected taken admitted)
    (hnodup : (ids (scheduler.runningQueue ++ scheduler.waitingQueue)).Nodup)
    (hcharge : charge + (scheduler'.runningQueue.map phase.owed).sum ≤
      (scheduler'.runningQueue.map Request.remaining).sum)
    (hfactor : (scheduler'.runningQueue.map Request.remaining).sum ≤ factor)
    (hturn : admitted ≠ [] → ∀ req ∈ scheduler'.runningQueue,
      phase.owed req + 1 ≤ req.remaining)
    (hbefore : scheduler.Waits .idle factor id n ∨ scheduler.Runs .idle factor id n)
    (hruns : id ∈ ids scheduler'.runningQueue) :
    ∃ m, scheduler'.Runs phase factor id m ∧ charge + m ≤ n := by
  obtain ⟨next, hnext, rfl⟩ := mem_ids.mp hruns
  refine ⟨_, ⟨next, hnext, rfl, Nat.le_refl _⟩, ?_⟩
  have hcost :
      (scheduler.runningQueue.map Request.remaining).sum + factor * next.remaining ≤ n := by
    obtain ⟨old, hold, hid, hremaining⟩ := h.exists_remaining hnext
    rw [hremaining]
    rcases hbefore with ⟨ahead, req, behind, hqueue, hreq, hcost⟩ | ⟨req, hmem, hreq, hcost⟩
    · have hmem : req ∈ scheduler.runningQueue ++ scheduler.waitingQueue := by
        rw [hqueue]
        simp
      obtain rfl := eq_of_id_eq hnodup hold hmem (hid.trans hreq.symm)
      change ((scheduler.runningQueue ++ ahead).map Request.remaining).sum +
        factor * old.remaining ≤ n at hcost
      rw [List.map_append, List.sum_append] at hcost
      omega
    · obtain rfl := eq_of_id_eq hnodup hold (List.mem_append_left _ hmem) (hid.trans hreq.symm)
      change ((scheduler.runningQueue ++ []).map Request.remaining).sum +
        factor * old.remaining ≤ n at hcost
      rwa [List.append_nil] at hcost
  rw [cost, List.append_nil]
  by_cases hadmitted : admitted = []
  · have htaken : taken = [] := by
      have hall := h.admitted_as
      rw [hadmitted] at hall
      exact List.forall₂_nil_right_iff.mp hall
    have hrunning := h.sum_running_le
    have howed : factor * phase.owed next ≤ factor * next.remaining :=
      Nat.mul_le_mul_left _ (phase.owed_le next)
    rw [htaken, List.map_nil, List.sum_nil] at hrunning
    omega
  · have howed : factor * phase.owed next + factor ≤ factor * next.remaining := by
      rw [← Nat.mul_succ]
      exact Nat.mul_le_mul_left _ (hturn hadmitted next hnext)
    omega

end Schedule

end Scheduler

namespace World

open Worker

variable {τ : Type} {env : Env} {ops : TensorOps τ}

/-! ### One event -/

theorem Batched.item_ids {scheduler : Scheduler} {toPrefill : List RequestId}
    {batch : List WorkItem} {results : List ComputeResult} {prefills : List Request}
    (h : Batched scheduler toPrefill batch results prefills) :
    batch.map (·.reqId) = toPrefill ++ ids (Scheduler.finished scheduler.runningQueue) := by
  rw [h.batch_eq, List.map_append, List.map_map, List.map_map, h.toPrefill_eq]
  rfl

section Begin

variable {world : World τ} {now : Instant} {scheduler : Scheduler}
  {toPrefill toDecode : List RequestId}

/-- A batch is paid for with a token of one of its requests. -/
theorem begin_charge (hvalid : world.Valid) (hphase : world.phase = .idle)
    (hschedule : world.scheduler.schedule env now = .ok (scheduler, toPrefill, toDecode))
    (hpos : ∀ req ∈ scheduler.runningQueue, 0 < req.remaining) :
    (world.selections env (.schedule now)).length + (scheduler.runningQueue.map
      (Phase.computing toPrefill
        (buildBatch scheduler.config scheduler.runningQueue toPrefill toDecode) []).owed).sum ≤
      (scheduler.runningQueue.map Request.remaining).sum := by
  rw [selections_schedule hphase hschedule]
  by_cases hselected : (toPrefill.isEmpty && toDecode.isEmpty) = true
  · rw [if_pos hselected, List.length_nil, Nat.zero_add]
    exact Phase.sum_owed_le _ _
  · obtain ⟨_, _, _, _, hspec⟩ := Scheduler.schedule_spec hschedule
    obtain ⟨prefills, hbatched⟩ := batched_begin hvalid hspec
    obtain ⟨hbatch, _⟩ := begin_ne_nil hvalid hschedule hselected
    obtain ⟨item, hitem⟩ := List.exists_mem_of_ne_nil _ hbatch
    obtain ⟨req, hreq, hid⟩ := hbatched.item_running hitem
    have hreqPos := hpos req hreq
    rw [if_neg hselected, List.length_singleton, Nat.add_comm]
    apply Nat.succ_le_of_lt
    apply List.sum_lt_sum
    · exact fun other _ => Phase.owed_le _ other
    · refine ⟨req, hreq, ?_⟩
      rw [Phase.owed_of_mem (hid ▸ List.mem_map_of_mem hitem)]
      omega

/-- In a batch that a `schedule` with an admission begins, every running request has an item. -/
theorem begin_turn (hvalid : world.Valid)
    {stays selected taken admitted : List Request}
    (hspec : Scheduler.Scheduled now world.scheduler scheduler toPrefill toDecode stays selected
      taken admitted)
    (hchunk : 0 < world.scheduler.config.maxPrefillChunkSize) (hadmitted : admitted ≠ [])
    {req : Request} (hreq : req ∈ scheduler.runningQueue) (hpos : 0 < req.remaining) :
    (Phase.computing toPrefill
      (buildBatch scheduler.config scheduler.runningQueue toPrefill toDecode) []).owed req + 1 ≤
      req.remaining := by
  obtain ⟨prefills, hbatched⟩ := batched_begin hvalid hspec
  obtain ⟨_, hdecode⟩ := hspec.selection
  have hmem := hspec.all_selected hchunk hadmitted hreq
  rw [hdecode, ← hbatched.item_ids] at hmem
  rw [Phase.owed_of_mem hmem]
  omega

end Begin

section Update

variable {world : World τ} {toPrefill : List RequestId} {batch : List WorkItem}
  {results : List ComputeResult} {scheduler : Scheduler} {cache : KVCacheManager τ}
  {sent : List (RequestId × Token)}

/-- A waiting request has no item. -/
theorem owed_of_waiting (hvalid : world.Valid)
    (hphase : world.phase = .computing toPrefill batch results) {req : Request}
    (hreq : req ∈ world.scheduler.waitingQueue) : world.phase.owed req = req.remaining := by
  obtain ⟨prefills, hbatched⟩ := hvalid.batched _ _ _ hphase
  rw [hphase, Phase.owed, if_neg]
  intro hmem
  obtain ⟨item, hitem, hid⟩ := List.mem_map.mp hmem
  obtain ⟨other, hother, hsame⟩ := hbatched.item_running hitem
  exact hvalid.id_ne hother hreq (hsame.trans hid)

/-- A running request has got the token of its item. -/
theorem settled_remaining_le (hvalid : world.Valid)
    (hphase : world.phase = .computing toPrefill batch results)
    (hlength : results.length = batch.length) (req : Request) :
    (req.settled world.scheduler.config toPrefill results).remaining ≤ world.phase.owed req := by
  obtain ⟨prefills, hbatched⟩ := hvalid.batched _ _ _ hphase
  rw [remaining_settled, hphase, Phase.owed]
  split
  · rename_i hmem
    obtain ⟨item, hitem, hid⟩ := List.mem_map.mp hmem
    obtain ⟨res, hres, hresId⟩ := hbatched.exists_result_of_item hlength hitem
    have hanswer : 0 < (answers results req.id).length := by
      rw [answers, List.length_map]
      apply List.length_pos_of_mem
      exact List.mem_filter.mpr ⟨hres, decide_eq_true (hresId.trans hid)⟩
    omega
  · exact Nat.sub_le _ _

/-- The running requests after an update can get what the batch left them. -/
theorem updated_sum_le (hvalid : world.Valid)
    (hphase : world.phase = .computing toPrefill batch results)
    (hlength : results.length = batch.length)
    (hupdate : Worker.update env world.scheduler world.cache toPrefill results =
      .ok (scheduler, cache, sent)) :
    (scheduler.runningQueue.map Request.remaining).sum ≤
      (world.scheduler.runningQueue.map world.phase.owed).sum := by
  obtain ⟨prefills, hbatched⟩ := hvalid.batched _ _ _ hphase
  have hscheduler :=
    (update_spec hvalid.running_nodup (hbatched.toPrefill_nodup hvalid) hupdate).1
  rw [hscheduler]
  calc (((world.scheduler.runningQueue.map
        (·.settled world.scheduler.config toPrefill results)).filter
          (fun req => ¬ req.isDone)).map Request.remaining).sum
    _ ≤ ((world.scheduler.runningQueue.map
        (·.settled world.scheduler.config toPrefill results)).map Request.remaining).sum :=
      (List.filter_sublist.map _).sum_le_sum fun _ _ => Nat.zero_le _
    _ ≤ (world.scheduler.runningQueue.map world.phase.owed).sum := by
      rw [List.map_map]
      exact List.sum_le_sum fun req _ => settled_remaining_le hvalid hphase hlength req

theorem updated_waits {factor n : ℕ} {id : RequestId} (hvalid : world.Valid)
    (hphase : world.phase = .computing toPrefill batch results)
    (hlength : results.length = batch.length)
    (hupdate : Worker.update env world.scheduler world.cache toPrefill results =
      .ok (scheduler, cache, sent)) (h : world.scheduler.Waits world.phase factor id n) :
    scheduler.Waits .idle factor id n := by
  obtain ⟨ahead, req, behind, hqueue, hid, hcost⟩ := h
  obtain ⟨prefills, hbatched⟩ := hvalid.batched _ _ _ hphase
  have hwaiting : scheduler.waitingQueue = world.scheduler.waitingQueue := by
    rw [(update_spec hvalid.running_nodup (hbatched.toPrefill_nodup hvalid) hupdate).1]
  have hmem : ∀ other ∈ req :: ahead, other ∈ world.scheduler.waitingQueue := by
    intro other hother
    rw [hqueue]
    rcases List.mem_cons.mp hother with rfl | hother
    · simp
    · exact List.mem_append_left _ hother
  refine ⟨ahead, req, behind, hwaiting.trans hqueue, hid, ?_⟩
  have hrunning := updated_sum_le hvalid hphase hlength hupdate
  have hahead : ahead.map world.phase.owed = ahead.map Request.remaining :=
    List.map_congr_left fun other hother =>
      owed_of_waiting hvalid hphase (hmem other (.tail _ hother))
  rw [Scheduler.cost, List.map_append, List.sum_append, hahead,
    owed_of_waiting hvalid hphase (hmem req List.mem_cons_self)] at hcost
  change ((scheduler.runningQueue ++ ahead).map Request.remaining).sum +
    factor * req.remaining ≤ n
  rw [List.map_append, List.sum_append]
  omega

theorem updated_runs {factor n : ℕ} {id : RequestId} (hvalid : world.Valid)
    (hphase : world.phase = .computing toPrefill batch results)
    (hlength : results.length = batch.length)
    (hupdate : Worker.update env world.scheduler world.cache toPrefill results =
      .ok (scheduler, cache, sent)) (h : world.scheduler.Runs world.phase factor id n)
    (hruns : id ∈ ids scheduler.runningQueue) : scheduler.Runs .idle factor id n := by
  obtain ⟨req, hreq, rfl, hcost⟩ := h
  obtain ⟨next, hnext, hid⟩ := mem_ids.mp hruns
  refine ⟨next, hnext, hid, ?_⟩
  obtain ⟨old, hold, rfl, _⟩ := updated_running hvalid hphase hupdate hnext
  obtain rfl := eq_of_id_eq hvalid.running_nodup hold hreq ((Request.settled_id ..).symm.trans hid)
  have hrunning := updated_sum_le hvalid hphase hlength hupdate
  have howed := Nat.mul_le_mul_left factor (settled_remaining_le hvalid hphase hlength old)
  rw [Scheduler.cost, List.append_nil] at hcost ⊢
  change (scheduler.runningQueue.map Request.remaining).sum +
    factor * (old.settled world.scheduler.config toPrefill results).remaining ≤ n
  omega

end Update

section Steps

variable {world world' : World τ} {event : Event τ} {factor n : ℕ} {id : RequestId}

/-- What is queued has been queued before, or it has just come in. -/
theorem steps_queued (hvalid : world.Valid) (hsteps : Steps env ops world event world')
    (hfresh : world.Fresh event) (hknown : id ∈ world.submitted) :
    (id ∈ ids world'.scheduler.waitingQueue → id ∈ ids world.scheduler.waitingQueue) ∧
      (id ∈ ids (world'.scheduler.runningQueue ++ world'.scheduler.waitingQueue) →
        id ∈ ids (world.scheduler.runningQueue ++ world.scheduler.waitingQueue)) := by
  have hscheduled : ∀ {now : Instant} {scheduler : Scheduler} {toPrefill toDecode},
      world.scheduler.schedule env now = .ok (scheduler, toPrefill, toDecode) →
      (id ∈ ids scheduler.waitingQueue → id ∈ ids world.scheduler.waitingQueue) ∧
        (id ∈ ids (scheduler.runningQueue ++ scheduler.waitingQueue) →
          id ∈ ids (world.scheduler.runningQueue ++ world.scheduler.waitingQueue)) := by
    intro now scheduler toPrefill toDecode hschedule
    obtain ⟨_, _, _, _, hspec⟩ := Scheduler.schedule_spec hschedule
    refine ⟨fun hmem => ?_, fun hmem => hspec.ids_sublist.subset hmem⟩
    obtain ⟨req, hreq, rfl⟩ := mem_ids.mp hmem
    exact mem_ids.mpr ⟨req, hspec.mem_waiting hreq, rfl⟩
  cases hsteps with
  | disabled _ => exact ⟨fun h => h, fun h => h⟩
  | submit submission =>
      have hne : id ≠ submission.id := by
        rintro rfl
        exact hfresh hknown
      have hnew : ∀ reqs, id ∈ ids (reqs ++ [submission.toRequest]) → id ∈ ids reqs := by
        intro reqs hmem
        rw [ids_append, List.mem_append] at hmem
        exact hmem.resolve_right fun h => hne (List.mem_singleton.mp h)
      refine ⟨hnew _, fun hmem => hnew _ ?_⟩
      rw [List.append_assoc]
      exact hmem
  | park hphase hschedule => exact hscheduled hschedule
  | begin hphase hschedule => exact hscheduled hschedule
  | answer hphase hitem happend => exact ⟨fun h => h, fun h => h⟩
  | fail hphase hitem happend => exact ⟨fun h => h, fun h => h⟩
  | @update toPrefill batch results scheduler _ _ hphase hlength hupdate =>
      obtain ⟨prefills, hbatched⟩ := hvalid.batched _ _ _ hphase
      have hwaiting : scheduler.waitingQueue = world.scheduler.waitingQueue := by
        rw [(update_spec hvalid.running_nodup (hbatched.toPrefill_nodup hvalid) hupdate).1]
      refine ⟨fun h => hwaiting ▸ h, fun h => ?_⟩
      obtain ⟨req, hreq, rfl⟩ := mem_ids.mp h
      rcases List.mem_append.mp hreq with hreq | hreq
      · obtain ⟨old, hold, rfl, _⟩ := updated_running hvalid hphase hupdate hreq
        exact mem_ids.mpr ⟨old, List.mem_append_left _ hold, (Request.settled_id ..).symm⟩
      · exact mem_ids.mpr ⟨req, List.mem_append_right _ (hwaiting ▸ hreq), rfl⟩

theorem not_running_of_waiting (hvalid : world.Valid)
    (hwaits : id ∈ ids world.scheduler.waitingQueue) : id ∉ ids world.scheduler.runningQueue := by
  intro hruns
  obtain ⟨req, hreq, rfl⟩ := mem_ids.mp hruns
  obtain ⟨other, hother, hid⟩ := mem_ids.mp hwaits
  exact hvalid.id_ne hreq hother hid.symm

theorem Drainable.scheduled_pos (h : world.Drainable) {now : Instant} {scheduler : Scheduler}
    {toPrefill toDecode : List RequestId}
    (hschedule : world.scheduler.schedule env now = .ok (scheduler, toPrefill, toDecode)) :
    ∀ req ∈ scheduler.runningQueue, 0 < req.remaining := by
  obtain ⟨_, _, _, _, hspec⟩ := Scheduler.schedule_spec hschedule
  apply hspec.forall_running (fun _ => Iff.rfl) fun req hreq => h.remaining_pos hreq
  intro req hreq next has
  rw [has.remaining_eq, ← h.valid.waiting_new req hreq]
  exact Nat.lt_of_lt_of_le Nat.zero_lt_one (Nat.le_max_left _ _)

/-- While the request waits, an event pays for the batch that it selects. -/
theorem steps_waits (h : world.Drainable) (hsteps : Steps env ops world event world')
    (hbefore : world.scheduler.Waits world.phase factor id n)
    (hwaits : id ∈ ids world'.scheduler.waitingQueue) :
    ∃ m, world'.scheduler.Waits world'.phase factor id m ∧
      (world.selections env event).length + m ≤ n := by
  have hnodup : (ids world.scheduler.waitingQueue).Nodup := by
    have hall := h.valid.nodup
    rw [ids_append] at hall
    exact (List.nodup_append.mp hall).2.1
  cases hsteps with
  | disabled hdisabled =>
      rw [selections_of_disabled env hdisabled]
      exact ⟨n, hbefore, Nat.le_of_eq (Nat.zero_add n)⟩
  | submit submission =>
      obtain ⟨ahead, req, behind, hqueue, hid, hcost⟩ := hbefore
      refine ⟨n, ⟨ahead, req, behind ++ [submission.toRequest], ?_, hid, hcost⟩,
        Nat.le_of_eq (Nat.zero_add n)⟩
      change world.scheduler.waitingQueue ++ [submission.toRequest] = _
      rw [hqueue, List.append_assoc]
      rfl
  | @park now scheduler hphase hschedule =>
      obtain ⟨_, _, _, _, hspec⟩ := Scheduler.schedule_spec hschedule
      rw [hphase] at hbefore
      rw [selections_schedule hphase hschedule]
      change ∃ m, scheduler.Waits world.phase factor id m ∧ _
      rw [hphase]
      exact hspec.waits hnodup (Nat.le_of_eq (Nat.zero_add _)) hbefore hwaits
  | @begin now scheduler toPrefill toDecode hphase hschedule =>
      obtain ⟨_, _, _, _, hspec⟩ := Scheduler.schedule_spec hschedule
      rw [hphase] at hbefore
      exact hspec.waits hnodup (begin_charge h.valid hphase hschedule
        (h.scheduled_pos hschedule)) hbefore hwaits
  | answer hphase hitem happend =>
      rw [hphase] at hbefore
      exact ⟨n, hbefore.of_owed_le fun req => (Phase.Forwarded.answer _).owed_le req,
        Nat.le_of_eq (Nat.zero_add n)⟩
  | fail hphase hitem happend =>
      rw [hphase] at hbefore
      exact ⟨n, hbefore.of_owed_le fun req => Phase.Forwarded.fail.owed_le req,
        Nat.le_of_eq (Nat.zero_add n)⟩
  | update hphase hlength hupdate =>
      exact ⟨n, updated_waits h.valid hphase hlength hupdate hbefore,
        Nat.le_of_eq (Nat.zero_add n)⟩

/-- No request may get more than `limit` tokens, and there are no more running requests than tokens
in the budget. -/
structure Capped (limit : ℕ) (world : World τ) : Prop where
  chunk_pos : 0 < world.scheduler.config.maxPrefillChunkSize
  limited : ∀ req ∈ world.scheduler.runningQueue ++ world.scheduler.waitingQueue,
    req.maxTokens ≤ limit
  running_le : world.scheduler.runningQueue.length ≤ world.scheduler.config.maxTokensPerIter

theorem Capped.sum_le {limit : ℕ} (h : world.Capped limit) :
    (world.scheduler.runningQueue.map Request.remaining).sum ≤
      world.scheduler.config.maxTokensPerIter * max 1 limit := by
  have heach : ∀ x ∈ world.scheduler.runningQueue.map Request.remaining, x ≤ max 1 limit := by
    intro x hx
    obtain ⟨req, hreq, rfl⟩ := List.mem_map.mp hx
    have hlimit := h.limited req (List.mem_append_left _ hreq)
    rw [Request.remaining, Request.allowance]
    omega
  calc (world.scheduler.runningQueue.map Request.remaining).sum
    _ ≤ (world.scheduler.runningQueue.map Request.remaining).length * max 1 limit :=
      List.sum_le_card_nsmul _ _ heach
    _ ≤ world.scheduler.config.maxTokensPerIter * max 1 limit := by
      rw [List.length_map]
      exact Nat.mul_le_mul_right _ h.running_le

theorem maxTokens_of_origin {req old : Request} (h : req.origin = old.origin) :
    req.maxTokens = old.maxTokens := by
  change req.origin.maxTokens = old.origin.maxTokens
  rw [h]

theorem steps_capped {limit : ℕ} (hvalid : world.Valid) (h : world.Capped limit)
    (hlimit : ∀ submission, event = .submit submission → submission.maxTokens ≤ limit)
    (hsteps : Steps env ops world event world') : world'.Capped limit := by
  have hscheduled : ∀ {now : Instant} {scheduler : Scheduler} {toPrefill toDecode},
      world.scheduler.schedule env now = .ok (scheduler, toPrefill, toDecode) →
      ∀ (cache : KVCacheManager τ) (phase : Phase),
        Capped limit { world with scheduler, cache, phase } := by
    intro now scheduler toPrefill toDecode hschedule cache phase
    obtain ⟨_, _, _, _, hspec⟩ := Scheduler.schedule_spec hschedule
    refine ⟨hspec.config_eq ▸ h.chunk_pos, ?_, ?_⟩
    · intro req hreq
      obtain ⟨old, hold, horigin⟩ := hspec.exists_origin hreq
      exact maxTokens_of_origin horigin ▸ h.limited old hold
    · change scheduler.runningQueue.length ≤ scheduler.config.maxTokensPerIter
      rw [hspec.config_eq]
      exact hspec.running_le h.chunk_pos h.running_le
  cases hsteps with
  | disabled _ => exact h
  | submit submission =>
      refine ⟨h.chunk_pos, ?_, h.running_le⟩
      intro req hreq
      rcases List.mem_append.mp hreq with hreq | hreq
      · exact h.limited req (List.mem_append_left _ hreq)
      · rcases List.mem_append.mp hreq with hreq | hreq
        · exact h.limited req (List.mem_append_right _ hreq)
        · rw [List.mem_singleton.mp hreq]
          exact hlimit submission rfl
  | park hphase hschedule => exact hscheduled hschedule _ _
  | begin hphase hschedule => exact hscheduled hschedule _ _
  | answer hphase hitem happend => exact ⟨h.chunk_pos, h.limited, h.running_le⟩
  | fail hphase hitem happend => exact ⟨h.chunk_pos, h.limited, h.running_le⟩
  | @update toPrefill batch results scheduler _ _ hphase hlength hupdate =>
      obtain ⟨prefills, hbatched⟩ := hvalid.batched _ _ _ hphase
      have hscheduler :=
        (update_spec hvalid.running_nodup (hbatched.toPrefill_nodup hvalid) hupdate).1
      refine ⟨?_, ?_, ?_⟩
      · rw [hscheduler]
        exact h.chunk_pos
      · intro req hreq
        rcases List.mem_append.mp hreq with hreq | hreq
        · obtain ⟨old, hold, rfl, _⟩ := updated_running hvalid hphase hupdate hreq
          rw [maxTokens_of_origin (Request.settled_origin ..)]
          exact h.limited old (List.mem_append_left _ hold)
        · rw [hscheduler] at hreq
          exact h.limited req (List.mem_append_right _ hreq)
      · rw [hscheduler]
        exact (List.length_filter_le _ _).trans ((List.length_map _).trans_le h.running_le)

/-- An event after which the request runs pays for the batch that it selects. -/
theorem steps_runs {limit : ℕ} (h : world.Drainable) (hcapped : world'.Capped limit)
    (hfactor : factor = world'.scheduler.config.maxTokensPerIter * max 1 limit)
    (hsteps : Steps env ops world event world')
    (hbefore : world.scheduler.Waits world.phase factor id n ∨
      world.scheduler.Runs world.phase factor id n)
    (hruns : id ∈ ids world'.scheduler.runningQueue) :
    ∃ m, world'.scheduler.Runs world'.phase factor id m ∧
      (world.selections env event).length + m ≤ n := by
  have hrunning : id ∈ ids world.scheduler.runningQueue →
      world.scheduler.Runs world.phase factor id n := by
    intro hmem
    apply hbefore.resolve_left
    intro hwaits
    exact not_running_of_waiting h.valid hwaits.mem hmem
  have hsum := hfactor ▸ hcapped.sum_le
  have hchunk := hcapped.chunk_pos
  cases hsteps with
  | disabled hdisabled =>
      rw [selections_of_disabled env hdisabled]
      exact ⟨n, hrunning hruns, Nat.le_of_eq (Nat.zero_add n)⟩
  | submit submission =>
      obtain ⟨req, hreq, hid, hcost⟩ := hrunning hruns
      exact ⟨n, ⟨req, hreq, hid, hcost⟩, Nat.le_of_eq (Nat.zero_add n)⟩
  | @park now scheduler hphase hschedule =>
      obtain ⟨_, _, _, _, hspec⟩ := Scheduler.schedule_spec hschedule
      change 0 < scheduler.config.maxPrefillChunkSize at hchunk
      rw [hphase] at hbefore
      rw [hspec.config_eq] at hchunk
      rw [selections_schedule hphase hschedule]
      change ∃ m, scheduler.Runs world.phase factor id m ∧ _
      rw [hphase]
      apply hspec.runs h.valid.nodup (Nat.le_of_eq (Nat.zero_add _)) hsum _ hbefore hruns
      intro hadmitted req hreq
      have hnone := hspec.all_selected hchunk hadmitted hreq
      cases hnone
  | @begin now scheduler toPrefill toDecode hphase hschedule =>
      obtain ⟨_, _, _, _, hspec⟩ := Scheduler.schedule_spec hschedule
      change 0 < scheduler.config.maxPrefillChunkSize at hchunk
      rw [hphase] at hbefore
      rw [hspec.config_eq] at hchunk
      have hpos := h.scheduled_pos hschedule
      apply hspec.runs h.valid.nodup (begin_charge h.valid hphase hschedule hpos) hsum _ hbefore
        hruns
      intro hadmitted req hreq
      exact begin_turn h.valid hspec hchunk hadmitted hreq (hpos req hreq)
  | answer hphase hitem happend =>
      have hbefore := hrunning hruns
      rw [hphase] at hbefore
      exact ⟨n, hbefore.of_owed_le fun req => (Phase.Forwarded.answer _).owed_le req,
        Nat.le_of_eq (Nat.zero_add n)⟩
  | fail hphase hitem happend =>
      have hbefore := hrunning hruns
      rw [hphase] at hbefore
      exact ⟨n, hbefore.of_owed_le fun req => Phase.Forwarded.fail.owed_le req,
        Nat.le_of_eq (Nat.zero_add n)⟩
  | update hphase hlength hupdate =>
      refine ⟨n, updated_runs h.valid hphase hlength hupdate (hrunning ?_) hruns,
        Nat.le_of_eq (Nat.zero_add n)⟩
      obtain ⟨req, hreq, rfl⟩ := mem_ids.mp hruns
      obtain ⟨old, hold, rfl, _⟩ := updated_running h.valid hphase hupdate hreq
      exact mem_ids.mpr ⟨old, hold, (Request.settled_id ..).symm⟩

end Steps

/-- The runs that the argument is about, for a request that has been submitted. -/
def Underway (id : RequestId) (world : World τ) : Prop := world.Drainable ∧ id ∈ world.submitted

theorem step_underway {world world' : World τ} {event : Event τ} {id : RequestId}
    (h : world.Underway id) (hfresh : world.Fresh event)
    (hstep : world.step env ops event = .ok world') : world'.Underway id := by
  have hsteps := steps_of_step hstep
  refine ⟨steps_drainable h.1 hfresh hsteps, ?_⟩
  cases hsteps with
  | submit submission => exact List.mem_append_left _ h.2
  | disabled _ => exact h.2
  | park hphase hschedule => exact h.2
  | begin hphase hschedule => exact h.2
  | answer hphase hitem happend => exact h.2
  | fail hphase hitem happend => exact h.2
  | update hphase hlength hupdate => exact h.2

/-! ### Going to sleep -/

section Park

variable {world : World τ} {now : Instant} {scheduler : Scheduler}
  (hbudget : 0 < world.scheduler.config.maxTokensPerIter)
  (hschedule : world.scheduler.schedule env now = .ok (scheduler, [], []))

include hbudget hschedule

/-- A `schedule` that selects nothing leaves nothing running. -/
theorem parked_running : scheduler.runningQueue = [] := by
  obtain ⟨stays, selected, taken, admitted, hspec⟩ := Scheduler.schedule_spec hschedule
  have hprefill := List.map_eq_nil_iff.mp hspec.toPrefill_eq.symm
  have hdecode := List.map_eq_nil_iff.mp hspec.toDecode_eq.symm
  rw [List.append_eq_nil_iff] at hprefill hdecode
  have hstays : Scheduler.unfinished stays = [] :=
    hspec.started (by rwa [hdecode.1, List.length_nil]) hprefill.1
  apply List.eq_nil_of_length_eq_zero
  rw [← Scheduler.length_finished_add_unfinished, hspec.running_eq, Scheduler.finished_append,
    Scheduler.unfinished_append, hdecode.1, hdecode.2, hstays, hprefill.2]
  rfl

/-- If it leaves somebody waiting, the first prompt does not fit in the memory. -/
theorem parked_refuses (howns : world.scheduler.blockManager.Owns [])
    (hwaits : scheduler.waitingQueue ≠ []) :
    ∃ manager first rest,
      Scheduler.expireRunning env now world.scheduler.blockManager
        world.scheduler.runningQueue = .ok (manager, []) ∧
      (world.scheduler.waitingQueue.filter fun req => ¬ req.Expired now) = first :: rest ∧
      ¬ manager.Fits env first.promptTokens := by
  have hparked := parked_running hbudget hschedule
  obtain ⟨stays, _, taken, _, hspec⟩ := Scheduler.schedule_spec hschedule
  have hrunning := hparked
  rw [hspec.running_eq, List.append_eq_nil_iff] at hrunning
  obtain ⟨⟨manager, kept⟩, hexpire, hkept⟩ :=
    Scheduler.expireRunning_owns env now howns world.scheduler.runningQueue
  have hnone : kept = [] := by
    have hstays := hspec.stays_eq
    rw [hrunning.1, ← Scheduler.expireRunning_kept hexpire] at hstays
    exact List.map_eq_nil_iff.mp hstays.symm
  obtain ⟨first, rest, hfirst⟩ :
      ∃ first rest, taken ++ scheduler.waitingQueue = first :: rest :=
    List.exists_cons_of_ne_nil (List.append_ne_nil_of_right_ne_nil _ hwaits)
  rw [← hspec.waiting_eq] at hfirst
  rw [hnone] at hexpire
  refine ⟨manager, first, rest, hexpire, hfirst, ?_⟩
  -- with nothing running, the call is the loop over the waiting queue
  rw [Scheduler.schedule, hexpire, Machine.ok_bind] at hschedule
  obtain ⟨admission, hloop, heq⟩ := Machine.bind_eq_ok.mp hschedule
  rw [hfirst] at hloop
  rw [← Scheduler.admit_first_iff hkept hbudget hloop]
  rintro ⟨next, hnext, _⟩
  have hadmitted : admission.admitted = scheduler.runningQueue :=
    congrArg (fun result => result.1.runningQueue) (Except.ok.inj heq)
  rw [hadmitted, hparked] at hnext
  cases hnext

end Park

/-! ### Runs -/

section History

variable {blockSize numGpuBlocks : ℕ} {config : SchedulerConfig} {events more : List (Event τ)}
  {world last : World τ} {selected : List Instant} {ahead behind : List Request} {req : Request}

/-- **A request waits for those ahead of it alone.** However many requests come in behind it, a
waiting request is admitted, or dropped, before more iterations select something than the running
requests and those ahead of it in the queue may still get tokens. And while it waits, the worker
goes to sleep only with nothing running, and when the first prompt in the queue does not fit in the
memory. -/
theorem waits_in_turn (env : Env) (ops : TensorOps τ) (hsize : 0 < blockSize)
    (hbudget : 0 < config.maxTokensPerIter)
    (hfresh : Machine.Along (step env ops) Fresh (new env blockSize numGpuBlocks config) events)
    (hrun : history env ops blockSize numGpuBlocks config events = .ok world)
    (hqueue : world.scheduler.waitingQueue = ahead ++ req :: behind)
    (hmore : Machine.Along (step env ops) Fresh world more)
    (hrest : Machine.run (Machine.recorded (step env ops) (selections env)) (world, []) more =
      .ok (last, selected))
    (hwaits : req.id ∈ ids last.scheduler.waitingQueue) :
    selected.length ≤ ((world.scheduler.runningQueue ++ ahead).map fun other =>
      max 1 other.maxTokens - other.generatedTokens.length).sum ∧
    ∀ now next, last.phase = .idle → last.step env ops (.schedule now) = .ok next →
      next.phase = .idle → req.id ∈ ids next.scheduler.waitingQueue →
      ∃ manager first rest,
        Scheduler.expireRunning env now last.scheduler.blockManager
          last.scheduler.runningQueue = .ok (manager, []) ∧
        (last.scheduler.waitingQueue.filter fun other => ¬ other.Expired now) = first :: rest ∧
        ¬ manager.Fits env first.promptTokens := by
  have hdrainable := history_drainable hsize hfresh hrun
  have hunderway : world.Underway req.id := by
    refine ⟨hdrainable, hdrainable.valid.known _ (mem_ids.mpr ⟨req, ?_, rfl⟩)⟩
    rw [hqueue]
    simp
  constructor
  · apply Machine.record_length_le (K := fun w : World τ => req.id ∈ ids w.scheduler.waitingQueue)
      (D := fun w : World τ => w.scheduler.Waits w.phase 0 req.id)
      (fun w e w' hw hevent hstep => step_underway hw hevent hstep) _ _ hunderway hmore _ hrest
      hwaits
    · intro w e w' n hw _ hstep hmem hbefore
      exact steps_waits hw.1 (steps_of_step hstep) hbefore hmem
    · intro w e w' hw hevent hstep hmem
      exact (steps_queued hw.1.valid (steps_of_step hstep) hevent hw.2).1 hmem
    · refine ⟨ahead, req, behind, hqueue, rfl, ?_⟩
      rw [Scheduler.cost, Nat.zero_mul, Nat.add_zero]
      exact Phase.sum_owed_le _ _
  · intro now next hidle hstep hnext hwaitsNext
    have hlast : last.Drainable ∧ last.scheduler.config = config := by
      apply Machine.run_invariant (I := fun w => w.Drainable ∧ w.scheduler.config = config) _ _
        hmore (Machine.run_of_recorded hrest)
      · intro w e w' hw hevent hstep
        have hsteps := steps_of_step hstep
        exact ⟨steps_drainable hw.1 hevent hsteps, (steps_config hw.1.valid hsteps).trans hw.2⟩
      · exact ⟨hdrainable, history_config hfresh hrun⟩
    cases steps_of_step hstep with
    | disabled hdisabled => exact absurd hidle hdisabled
    | park _ hschedule =>
        apply parked_refuses (hlast.2 ▸ hbudget) hschedule hlast.1.owns
        intro hnil
        rw [hnil] at hwaitsNext
        cases hwaitsNext
    | begin _ _ => cases hnext

theorem waits_in_turn_of_two :
    ∃ (last : World (List ℕ)) (selected : List Instant),
      selected.length ≤ 3 ∧ 2 ∈ ids last.scheduler.waitingQueue := by
  have hrun : ∃ world : World (List ℕ), history .counting (.rows ℕ) 4 9 ⟨2, 4⟩
      [.submit (.plain 1 [5, 7] 3), .submit (.plain 2 [6, 8] 2)] = .ok world ∧
      world.scheduler.runningQueue = [] ∧ world.scheduler.waitingQueue =
        [(Submission.plain 1 [5, 7] 3).toRequest] ++ [(Submission.plain 2 [6, 8] 2).toRequest] ∧
      Machine.Along (step .counting (.rows ℕ)) Fresh world
        [.schedule 0, .forward [] (some 9), .update] ∧
      ∃ result, Machine.run (Machine.recorded (step .counting (.rows ℕ)) (selections .counting))
          (world, []) [.schedule 0, .forward [] (some 9), .update] = .ok result ∧
        2 ∈ ids result.1.scheduler.waitingQueue := by
    decide +kernel
  obtain ⟨world, hrun, hnone, hqueue, hmore, ⟨last, selected⟩, hrest, hmem⟩ := hrun
  have hbound := waits_in_turn .counting (.rows ℕ) (by decide) (by decide) (by decide +kernel) hrun
    hqueue hmore hrest hmem
  refine ⟨last, selected, ?_, hmem⟩
  rw [hnone] at hbound
  exact hbound.1

/-- The states of a run of which no request may get more than `limit` tokens. -/
structure Metered (config : SchedulerConfig) (limit : ℕ) (world : World τ) : Prop where
  drainable : world.Drainable
  capped : world.Capped limit
  config_eq : world.scheduler.config = config

theorem step_metered {event : Event τ} {limit : ℕ} (h : world.Metered config limit)
    (hfresh : world.Fresh event)
    (hlimit : ∀ submission, event = .submit submission → submission.maxTokens ≤ limit)
    (hstep : world.step env ops event = .ok last) : last.Metered config limit := by
  have hsteps := steps_of_step hstep
  exact ⟨steps_drainable h.drainable hfresh hsteps,
    steps_capped h.drainable.valid h.capped hlimit hsteps,
    (steps_config h.drainable.valid hsteps).trans h.config_eq⟩

theorem run_metered {limit : ℕ} (h : world.Metered config limit)
    (hfresh : Machine.Along (step env ops) Fresh world more)
    (hlimit : ∀ submission, Event.submit submission ∈ more → submission.maxTokens ≤ limit)
    (hrun : Machine.run (step env ops) world more = .ok last) : last.Metered config limit := by
  have hsmall : Machine.Along (step env ops)
      (fun _ event => ∀ submission, event = .submit submission → submission.maxTokens ≤ limit)
      world more := by
    refine Machine.along_of_forall ?_ world
    intro event hevent submission heq
    exact hlimit submission (heq ▸ hevent)
  exact Machine.run_invariant
    (fun w e w' hw hevent hstep => step_metered hw hevent.1 hevent.2 hstep) h
    (hfresh.and hsmall) hrun

theorem history_metered (hsize : 0 < blockSize) (hchunk : 0 < config.maxPrefillChunkSize)
    {limit : ℕ}
    (hfresh : Machine.Along (step env ops) Fresh (new env blockSize numGpuBlocks config) events)
    (hlimit : ∀ submission, Event.submit submission ∈ events → submission.maxTokens ≤ limit)
    (hrun : history env ops blockSize numGpuBlocks config events = .ok world) :
    world.Metered config limit := by
  apply run_metered _ hfresh hlimit hrun
  refine ⟨?_, ⟨hchunk, ?_, Nat.zero_le _⟩, rfl⟩
  · have hstart : Machine.Along (step env ops) Fresh
        (new env blockSize numGpuBlocks config) [] := trivial
    exact history_drainable hsize hstart rfl
  · intro req hreq
    cases hreq

/-- **Every request gets its turn.** Where no request may get more than `limit` tokens, a waiting
request has left both queues, with its last token or dropped, before more iterations select
something than there are tokens for those ahead of it, and for each of its own tokens a batch of
requests that may each get `limit`. And the worker goes to sleep only with nothing running. -/
theorem leaves_in_turn (env : Env) (ops : TensorOps τ) (hsize : 0 < blockSize)
    (hbudget : 0 < config.maxTokensPerIter) (hchunk : 0 < config.maxPrefillChunkSize) {limit : ℕ}
    (hlimit : ∀ submission, Event.submit submission ∈ events ++ more →
      submission.maxTokens ≤ limit)
    (hfresh : Machine.Along (step env ops) Fresh (new env blockSize numGpuBlocks config) events)
    (hrun : history env ops blockSize numGpuBlocks config events = .ok world)
    (hqueue : world.scheduler.waitingQueue = ahead ++ req :: behind)
    (hmore : Machine.Along (step env ops) Fresh world more)
    (hrest : Machine.run (Machine.recorded (step env ops) (selections env)) (world, []) more =
      .ok (last, selected))
    (hqueued : req.id ∈ ids (last.scheduler.runningQueue ++ last.scheduler.waitingQueue)) :
    selected.length ≤ ((world.scheduler.runningQueue ++ ahead).map fun other =>
      max 1 other.maxTokens - other.generatedTokens.length).sum +
        config.maxTokensPerIter * max 1 limit * max 1 req.maxTokens ∧
    ∀ now next, last.phase = .idle → last.step env ops (.schedule now) = .ok next →
      next.phase = .idle → next.scheduler.runningQueue = [] := by
  have hmetered := history_metered hsize hchunk hfresh
    (fun submission h => hlimit submission (List.mem_append_left _ h)) hrun
  have hsmall : Machine.Along (step env ops)
      (fun _ event => ∀ submission, event = .submit submission → submission.maxTokens ≤ limit)
      world more := by
    refine Machine.along_of_forall ?_ world
    intro event hevent submission heq
    exact hlimit submission (List.mem_append_right _ (heq ▸ hevent))
  have hunderway : world.Underway req.id := by
    refine ⟨hmetered.drainable, hmetered.drainable.valid.known _ (mem_ids.mpr ⟨req, ?_, rfl⟩)⟩
    rw [hqueue]
    simp
  constructor
  · apply Machine.record_length_le
      (I := fun w : World τ => w.Metered config limit ∧ w.Underway req.id)
      (K := fun w : World τ =>
        req.id ∈ ids (w.scheduler.runningQueue ++ w.scheduler.waitingQueue))
      (D := fun w n => w.scheduler.Waits w.phase (config.maxTokensPerIter * max 1 limit) req.id n ∨
        w.scheduler.Runs w.phase (config.maxTokensPerIter * max 1 limit) req.id n)
      _ _ _ ⟨hmetered, hunderway⟩ (hmore.and hsmall) _ hrest hqueued
    · intro w e w' hw hevent hstep
      exact ⟨step_metered hw.1 hevent.1 hevent.2 hstep, step_underway hw.2 hevent.1 hstep⟩
    · intro w e w' n hw hevent hstep hmem hbefore
      have hnext := step_metered hw.1 hevent.1 hevent.2 hstep
      have hsteps := steps_of_step hstep
      rw [ids_append, List.mem_append] at hmem
      rcases hmem with hruns | hwaits
      · obtain ⟨m, hm, hle⟩ := steps_runs hw.2.1 hnext.capped (by rw [hnext.config_eq]) hsteps
          hbefore hruns
        exact ⟨m, Or.inr hm, hle⟩
      · have hwaited := (steps_queued hw.2.1.valid hsteps hevent.1 hw.2.2).1 hwaits
        have hstill := hbefore.resolve_right fun hruns =>
          not_running_of_waiting hw.2.1.valid hwaited hruns.mem
        obtain ⟨m, hm, hle⟩ := steps_waits hw.2.1 hsteps hstill hwaits
        exact ⟨m, Or.inl hm, hle⟩
    · intro w e w' hw hevent hstep hmem
      exact (steps_queued hw.2.1.valid (steps_of_step hstep) hevent.1 hw.2.2).2 hmem
    · refine Or.inl ⟨ahead, req, behind, hqueue, rfl, ?_⟩
      have howed : world.phase.owed req ≤ max 1 req.maxTokens :=
        (world.phase.owed_le req).trans (Nat.sub_le _ _)
      exact Nat.add_le_add (Phase.sum_owed_le _ _) (Nat.mul_le_mul_left _ howed)
  · intro now next hidle hstep hnext
    have hlast := run_metered hmetered hmore
      (fun submission h => hlimit submission (List.mem_append_right _ h))
      (Machine.run_of_recorded hrest)
    cases steps_of_step hstep with
    | disabled hdisabled => exact absurd hidle hdisabled
    | park _ hschedule => exact parked_running (hlast.config_eq ▸ hbudget) hschedule
    | begin _ _ => cases hnext

/-- The first request fills the budget, so the second waits; a third comes in behind it. -/
def threeInTurn : List (Event (List ℕ)) :=
  [.schedule 0, .forward [] (some 9), .update, .submit (.plain 3 [4] 3), .schedule 0]

theorem leaves_in_turn_of_three :
    ∃ (last : World (List ℕ)) (selected : List Instant),
      selected.length ≤ 15 ∧ 2 ∈ ids last.scheduler.runningQueue := by
  have hrun : ∃ world : World (List ℕ), history .counting (.rows ℕ) 4 9 ⟨2, 4⟩
      [.submit (.plain 1 [5, 7] 3), .submit (.plain 2 [6, 8] 2)] = .ok world ∧
      world.scheduler.runningQueue = [] ∧ world.scheduler.waitingQueue =
        [(Submission.plain 1 [5, 7] 3).toRequest] ++ [(Submission.plain 2 [6, 8] 2).toRequest] ∧
      Machine.Along (step .counting (.rows ℕ)) Fresh world threeInTurn ∧
      ∃ result, Machine.run (Machine.recorded (step .counting (.rows ℕ)) (selections .counting))
          (world, []) threeInTurn = .ok result ∧
        2 ∈ ids result.1.scheduler.runningQueue := by
    decide +kernel
  obtain ⟨world, hrun, hnone, hqueue, hmore, ⟨last, selected⟩, hrest, hmem⟩ := hrun
  have hlimit : ∀ submission, Event.submit submission ∈
      [Event.submit (.plain 1 [5, 7] 3), .submit (.plain 2 [6, 8] 2)] ++ threeInTurn →
      submission.maxTokens ≤ 3 := by
    intro submission hmem
    simp only [threeInTurn, List.cons_append, List.nil_append, List.mem_cons, Event.submit.injEq,
      reduceCtorEq, List.not_mem_nil, or_false, false_or] at hmem
    rcases hmem with rfl | rfl | rfl
    · decide
    · decide
    · decide
  have hqueued : 2 ∈ ids (last.scheduler.runningQueue ++ last.scheduler.waitingQueue) := by
    rw [ids_append]
    exact List.mem_append_left _ hmem
  have hbound := leaves_in_turn .counting (.rows ℕ) (by decide) (by decide) (by decide) hlimit
    (by decide +kernel) hrun hqueue hmore hrest hqueued
  refine ⟨last, selected, ?_, hmem⟩
  rw [hnone] at hbound
  exact hbound.1

end History

end World
end Kyro
