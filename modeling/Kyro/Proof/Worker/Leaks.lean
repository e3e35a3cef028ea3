import Kyro.Proof.Worker.Slots

/-!
# Slots that outlive their requests

A request that is finished gives its slot back, one that expires does not: `schedule` drops it from
the running queue and frees its blocks, but the cache belongs to the worker. Nothing else ever takes
the slot, since no request with that id comes back.
-/

namespace Kyro

namespace World

open Worker

variable {τ : Type} {env : Env} {ops : TensorOps τ}

/-- Every slot belongs to a running request. -/
def SlotsRunning (world : World τ) : Prop :=
  ∀ id, world.cache.Registered id → id ∈ ids world.scheduler.runningQueue

/-- No running request that has a slot expires. -/
def SlotsUnexpired (world : World τ) : Event τ → Prop
  | .schedule now => world.phase = .idle →
    ∀ req ∈ world.scheduler.runningQueue, req.Expired now → ¬ world.cache.Registered req.id
  | _ => True

instance (world : World τ) : DecidablePred world.SlotsUnexpired
  | .update => inferInstanceAs (Decidable True)
  | .submit _ => inferInstanceAs (Decidable True)
  | .schedule now => inferInstanceAs (Decidable (world.phase = .idle →
      ∀ req ∈ world.scheduler.runningQueue, req.Expired now → ¬ world.cache.Registered req.id))
  | .forward _ _ => inferInstanceAs (Decidable True)

section Schedule

variable {now : Instant} {world : World τ} {scheduler : Scheduler}
  {toPrefill toDecode : List RequestId} {stays selected taken admitted : List Request}

/-- A `schedule` leaves every slot with a running request exactly if it finds them so and expires
none of these. -/
theorem scheduled_slots_iff (hvalid : world.Valid) (hslots : world.Slots)
    (hspec : Scheduler.Scheduled now world.scheduler scheduler toPrefill toDecode stays selected
      taken admitted) :
    (∀ id, world.cache.Registered id → id ∈ ids scheduler.runningQueue) ↔
      world.SlotsRunning ∧ ∀ req ∈ world.scheduler.runningQueue, req.Expired now →
        ¬ world.cache.Registered req.id := by
  constructor
  · intro hafter
    -- a slot that is left belongs to a request that was running and is not expired
    have hold : ∀ id, world.cache.Registered id →
        ∃ req ∈ world.scheduler.runningQueue, ¬ req.Expired now ∧ req.id = id := by
      intro id hid
      obtain ⟨next, hnext, rfl⟩ := mem_ids.mp (hafter id hid)
      rcases hspec.mem_running hnext with ⟨req, hreq, hlive, heq⟩ | ⟨req, hreq, _, has⟩
      · exact ⟨req, hreq, hlive, (Request.id_of_unmarked heq).symm⟩
      · obtain ⟨_, _, _, rfl⟩ := has
        exact absurd hid (hslots.waiting req hreq)
    constructor
    · intro id hid
      obtain ⟨req, hreq, _, heq⟩ := hold id hid
      exact mem_ids.mpr ⟨req, hreq, heq⟩
    · intro req hreq hexpired hid
      obtain ⟨other, hother, hlive, heq⟩ := hold req.id hid
      rw [eq_of_id_eq hvalid.running_nodup hother hreq heq] at hlive
      exact hlive hexpired
  · rintro ⟨hrunning, hlive⟩ id hid
    obtain ⟨req, hreq, rfl⟩ := mem_ids.mp (hrunning id hid)
    have hstays : req.id ∈ ids stays := by
      rw [ids_of_unmarked hspec.stays_eq]
      apply mem_ids.mpr
      refine ⟨req, List.mem_filter.mpr ⟨hreq, decide_eq_true ?_⟩, rfl⟩
      intro hexpired
      exact hlive req hreq hexpired hid
    rw [hspec.running_eq, ids_append]
    exact List.mem_append_left _ hstays

end Schedule

/-- The new slots are for items of the batch, whose requests run. -/
theorem registered_slots_iff {running : List Request} {batch : List WorkItem}
    (hrunning : ∀ item ∈ batch, ∃ req ∈ running, req.id = item.reqId) (cache : KVCacheManager τ) :
    (∀ id, (registerItems cache batch).Registered id → id ∈ ids running) ↔
      ∀ id, cache.Registered id → id ∈ ids running := by
  constructor
  · intro h id hid
    exact h id ((registered_registerItems _ _ id).mpr (Or.inl hid))
  · intro h id hid
    rcases (registered_registerItems _ _ id).mp hid with hold | ⟨item, hitem, _, _, heq⟩
    · exact h id hold
    · obtain ⟨req, hreq, hreqId⟩ := hrunning item hitem
      exact mem_ids.mpr ⟨req, hreq, hreqId.trans heq⟩

/-- An update takes the slots of the requests that it ends. -/
theorem updated_slots_iff {world : World τ} (hvalid : world.Valid) {toPrefill : List RequestId}
    {batch : List WorkItem} {results : List ComputeResult} {scheduler : Scheduler}
    {cache : KVCacheManager τ} {sent : List (RequestId × Token)}
    (hphase : world.phase = .computing toPrefill batch results)
    (hupdate : Worker.update env world.scheduler world.cache toPrefill results =
      .ok (scheduler, cache, sent)) :
    (∀ id, cache.Registered id → id ∈ ids scheduler.runningQueue) ↔ world.SlotsRunning := by
  obtain ⟨prefills, hbatched⟩ := hvalid.batched _ _ _ hphase
  obtain ⟨hscheduler, hcache, _⟩ :=
    update_spec hvalid.running_nodup (hbatched.toPrefill_nodup hvalid) hupdate
  constructor
  · intro h id hid
    by_contra hnot
    obtain ⟨req, hreq, rfl⟩ := mem_ids.mp (h id ((hcache id).mpr ⟨hid, fun req hreq heq =>
      absurd (mem_ids.mpr ⟨req, hreq, heq⟩) hnot⟩))
    obtain ⟨old, hold, rfl, _⟩ := updated_running hvalid hphase hupdate hreq
    rw [Request.settled_id] at hnot
    exact hnot (mem_ids.mpr ⟨old, hold, rfl⟩)
  · intro h id hid
    obtain ⟨hold, hdone⟩ := (hcache id).mp hid
    obtain ⟨req, hreq, rfl⟩ := mem_ids.mp (h id hold)
    rw [hscheduler]
    apply mem_ids.mpr
    refine ⟨_, List.mem_filter.mpr ⟨List.mem_map_of_mem hreq, ?_⟩, Request.settled_id ..⟩
    exact decide_eq_true (hdone req hreq rfl)

/-- What an event does to the slots. A slot without its request stays so. -/
theorem steps_slots_iff {world world' : World τ} {event : Event τ} (hvalid : world.Valid)
    (hslots : world.Slots) (hsteps : Steps env ops world event world') :
    world'.SlotsRunning ↔ world.SlotsRunning ∧ world.SlotsUnexpired event := by
  cases hsteps with
  | disabled hdisabled =>
      have htrue : world.SlotsUnexpired event := by
        cases event with
        | schedule now => exact fun hphase => absurd hphase hdisabled
        | submit submission => trivial
        | forward appends token => trivial
        | update => trivial
      exact (and_iff_left htrue).symm
  | submit submission => exact (and_iff_left trivial).symm
  | @park now _ hphase hschedule =>
      obtain ⟨_, _, _, _, hspec⟩ := Scheduler.schedule_spec hschedule
      apply (scheduled_slots_iff hvalid hslots hspec).trans
      apply and_congr_right
      intro _
      exact ⟨fun hlive _ => hlive, fun hlive => hlive hphase⟩
  | @begin now scheduler toPrefill toDecode hphase hschedule =>
      obtain ⟨_, _, _, _, hspec⟩ := Scheduler.schedule_spec hschedule
      obtain ⟨prefills, hbatched⟩ := batched_begin hvalid hspec
      apply (registered_slots_iff (fun item => hbatched.item_running) world.cache).trans
      apply (scheduled_slots_iff hvalid hslots hspec).trans
      apply and_congr_right
      intro _
      exact ⟨fun hlive _ => hlive, fun hlive => hlive hphase⟩
  | answer hphase hitem happend =>
      apply Iff.trans _ (and_iff_left trivial).symm
      apply forall_congr'
      intro id
      rw [KVCacheManager.registered_appendAll happend]
  | fail hphase hitem happend =>
      apply Iff.trans _ (and_iff_left trivial).symm
      apply forall_congr'
      intro id
      rw [KVCacheManager.registered_appendAll happend]
  | update hphase hlength hupdate =>
      exact (updated_slots_iff hvalid hphase hupdate).trans (and_iff_left trivial).symm

/-- **No slot outlives its request exactly as long as no request that has one expires.** -/
theorem slots_running_iff (env : Env) (ops : TensorOps τ) {blockSize numGpuBlocks : ℕ}
    {config : SchedulerConfig} {events : List (Event τ)}
    (hfresh : Machine.Along (step env ops) Fresh (new env blockSize numGpuBlocks config) events)
    {world : World τ} (hrun : history env ops blockSize numGpuBlocks config events = .ok world) :
    (∀ id, world.cache.Registered id → id ∈ ids world.scheduler.runningQueue) ↔
      Machine.Along (step env ops) SlotsUnexpired (new env blockSize numGpuBlocks config)
        events := by
  have hgood := Machine.run_good_iff (P := fun (w : World τ) e => w.SlotsUnexpired e)
    (Q := Fresh) (I := fun w => w.Valid ∧ w.Slots) (G := SlotsRunning) ?_ ?_
    ⟨new_valid env blockSize numGpuBlocks config, new_slots env blockSize numGpuBlocks config⟩
    hfresh hrun
  · apply hgood.trans
    apply and_iff_right
    intro id hid
    exact absurd hid (KVCacheManager.not_registered_new id)
  · intro w e w' hw hevent hstep
    have hsteps := steps_of_step hstep
    exact ⟨steps_valid hw.1 hevent hsteps, steps_slots hw.1 hw.2 hevent hsteps⟩
  · intro w e w' hw _ hstep
    exact steps_slots_iff hw.1 hw.2 (steps_of_step hstep)

theorem slots_running_of_two :
    ∃ world, history .counting (.rows ℕ) 4 9 ⟨8, 4⟩ [.submit (.plain 1 [5, 7] 1),
        .submit (.plain 2 [6, 8] 2), .schedule 0, .forward [([1, 2], [1, 2])] (some 3),
        .forward [([1, 2], [1, 2])] (some 3), .update, .schedule 1] = .ok world ∧
      ids world.scheduler.runningQueue = [2] ∧
      ∀ id, world.cache.Registered id → id ∈ ids world.scheduler.runningQueue := by
  have hrun : ∃ world, history .counting (.rows ℕ) 4 9 ⟨8, 4⟩ [.submit (.plain 1 [5, 7] 1),
      .submit (.plain 2 [6, 8] 2), .schedule 0, .forward [([1, 2], [1, 2])] (some 3),
      .forward [([1, 2], [1, 2])] (some 3), .update, .schedule 1] = .ok world ∧
      ids world.scheduler.runningQueue = [2] := by
    decide +kernel
  obtain ⟨world, hrun, hids⟩ := hrun
  exact ⟨world, hrun, hids,
    (slots_running_iff .counting (.rows ℕ) (by decide +kernel) hrun).mpr (by decide +kernel)⟩

/-- A request that expires while it is decoding leaves its slot behind. -/
theorem slot_of_expired :
    Machine.Along (step .counting (.rows ℕ)) Fresh (new .counting 4 9 ⟨8, 4⟩)
        [.submit (.plain 1 [5, 7] 9), .schedule 0, .forward [([1, 2], [1, 2])] (some 3), .update,
          .schedule 300] ∧
      ∃ world, history .counting (.rows ℕ) 4 9 ⟨8, 4⟩ [.submit (.plain 1 [5, 7] 9), .schedule 0,
          .forward [([1, 2], [1, 2])] (some 3), .update, .schedule 300] = .ok world ∧
        world.phase = .idle ∧ world.cache.Registered 1 ∧ world.scheduler.runningQueue = [] := by
  decide +kernel

end World
end Kyro
