import Kyro.Proof.Worker.Valid

/-!
# What a decode step continues from

A decode item carries the last generated token, or `0` where there is none. A request that reached
the end of its prompt in a prefill has been given a token on the way, so the `0` is only sent for a
request whose whole prompt was a hit when it was admitted.
-/

namespace Kyro

namespace World

open Worker

variable {τ : Type} {env : Env} {ops : TensorOps τ}

section Results

variable {scheduler : Scheduler} {toPrefill : List RequestId} {batch : List WorkItem}
  {results : List ComputeResult} {prefills : List Request}

/-- Every selected request has a result in the end. -/
theorem Batched.exists_result (h : Batched scheduler toPrefill batch results prefills)
    (hlength : results.length = batch.length) {id : RequestId} (hid : id ∈ toPrefill) :
    ∃ res ∈ results, res.reqId = id := by
  rw [h.toPrefill_eq] at hid
  obtain ⟨req, hreq, rfl⟩ := mem_ids.mp hid
  exact h.exists_result_of_item hlength (h.mem_batch.mpr (Or.inl ⟨req, hreq, rfl⟩))

end Results

theorem settled_generatedTokens_ne_nil {config : SchedulerConfig} {toPrefill : List RequestId}
    {results : List ComputeResult} {req : Request} {res : ComputeResult} (hres : res ∈ results)
    (hid : res.reqId = req.id) : (req.settled config toPrefill results).generatedTokens ≠ [] := by
  rw [Request.settled_generatedTokens]
  apply List.append_ne_nil_of_right_ne_nil
  have hmem : res ∈ results.filter fun res => res.reqId = req.id :=
    List.mem_filter.mpr ⟨hres, decide_eq_true hid⟩
  exact List.ne_nil_of_mem (List.mem_map_of_mem hmem)

/-- A request whose prefill has ended, with more to do than its hit, has a token. -/
def Continues (world : World τ) : Prop :=
  ∀ req ∈ world.scheduler.runningQueue, req.Prefilled →
    req.cachedPrefixLen < req.promptTokens.length → req.generatedTokens ≠ []

theorem scheduled_continues {now : Instant} {world : World τ} {scheduler : Scheduler}
    {toPrefill toDecode : List RequestId} {stays selected taken admitted : List Request}
    (h : world.Continues)
    (hspec : Scheduler.Scheduled now world.scheduler scheduler toPrefill toDecode stays selected
      taken admitted) :
    ∀ req ∈ scheduler.runningQueue, req.Prefilled →
      req.cachedPrefixLen < req.promptTokens.length → req.generatedTokens ≠ [] := by
  apply hspec.forall_running (fun _ => Iff.rfl) h
  -- an admitted request starts where its hit ends
  rintro req _ _ ⟨cachedLen, _, _, rfl⟩ hprefilled hcached
  exact absurd hprefilled (Nat.not_le.mpr hcached)

theorem steps_continues {world world' : World τ} {event : Event τ} (hvalid : world.Valid)
    (h : world.Continues) (hsteps : Steps env ops world event world') : world'.Continues := by
  cases hsteps with
  | disabled _ => exact h
  | submit submission => exact h
  | park hphase hschedule =>
      obtain ⟨_, _, _, _, hspec⟩ := Scheduler.schedule_spec hschedule
      exact scheduled_continues h hspec
  | begin hphase hschedule =>
      obtain ⟨_, _, _, _, hspec⟩ := Scheduler.schedule_spec hschedule
      exact scheduled_continues h hspec
  | answer hphase hitem happend => exact h
  | fail hphase hitem happend => exact h
  | @update toPrefill _ _ _ _ _ hphase hlength hupdate =>
      obtain ⟨prefills, hbatched⟩ := hvalid.batched _ _ _ hphase
      intro req hreq hprefilled hcached
      obtain ⟨old, hold, rfl, _⟩ := updated_running hvalid hphase hupdate hreq
      by_cases hmem : old.id ∈ toPrefill
      · obtain ⟨res, hres, hid⟩ := hbatched.exists_result hlength hmem
        exact settled_generatedTokens_ne_nil hres hid
      · rw [Request.settled_cachedPrefixLen, Request.settled_promptTokens] at hcached
        rw [Request.settled_generatedTokens]
        apply List.append_ne_nil_of_left_ne_nil
        apply h old hold _ hcached
        rwa [Request.Prefilled, Request.settled_prefillCursor, if_neg hmem,
          Request.settled_promptTokens] at hprefilled

/-- **A decode step continues from the last token of its request, except after a full hit**: its
input is that token unless the whole prompt was a hit, no token has been generated yet, and the
prompt does not end in the token `0`. -/
theorem decode_input_iff (env : Env) (ops : TensorOps τ) {blockSize numGpuBlocks : ℕ}
    {config : SchedulerConfig} {events : List (Event τ)}
    (hfresh : Machine.Along (step env ops) Fresh (new env blockSize numGpuBlocks config) events)
    {world : World τ} (hrun : history env ops blockSize numGpuBlocks config events = .ok world)
    {toPrefill : List RequestId} {batch : List WorkItem} {results : List ComputeResult}
    (hphase : world.phase = .computing toPrefill batch results) {item : WorkItem}
    (hitem : item ∈ batch) (hdecode : item.isPrefill = false) :
    ∃ req ∈ world.scheduler.runningQueue, req.id = item.reqId ∧
      ((∃ last, (req.promptTokens ++ req.generatedTokens).getLast? = some last ∧
          item.input = [last]) ↔
        ¬ (req.cachedPrefixLen = req.promptTokens.length ∧ req.generatedTokens = [] ∧
          req.promptTokens.getLast? ≠ some 0)) := by
  obtain ⟨hvalid, hcontinues⟩ := history_invariant (I := Continues)
    (fun _ _ _ hvalid h _ hsteps => steps_continues hvalid h hsteps)
    (fun _ hreq => by cases hreq) hfresh hrun
  obtain ⟨prefills, hbatched⟩ := hvalid.batched _ _ _ hphase
  rcases hbatched.mem_batch.mp hitem with ⟨req, _, rfl⟩ | ⟨req, hreq, rfl⟩
  · cases hdecode
  · obtain ⟨hreq, hprefilled⟩ := List.mem_filter.mp hreq
    refine ⟨req, hreq, rfl, ?_⟩
    by_cases hnone : req.generatedTokens = []
    · have hcached : req.cachedPrefixLen = req.promptTokens.length := by
        apply Nat.le_antisymm (hvalid.cached_le req hreq)
        by_contra hlt
        exact hcontinues req hreq (of_decide_eq_true hprefilled) (Nat.lt_of_not_le hlt) hnone
      simp [Request.decodeItem, hnone, hcached]
    · obtain ⟨front, last, heq⟩ := (List.eq_nil_or_concat _).resolve_left hnone
      simp [Request.decodeItem, heq]

theorem decode_input_after_prefill :
    ∃ world, history .counting (.rows ℕ) 4 9 ⟨8, 4⟩ [.submit (.plain 1 [5, 7] 2), .schedule 0,
        .forward [([1, 2], [1, 2])] (some 3), .update, .schedule 1] = .ok world ∧
      ∃ req ∈ world.scheduler.runningQueue, req.id = 1 ∧
        ∃ last, (req.promptTokens ++ req.generatedTokens).getLast? = some last ∧ [3] = [last] := by
  have hrun : ∃ world, history .counting (.rows ℕ) 4 9 ⟨8, 4⟩ [.submit (.plain 1 [5, 7] 2),
      .schedule 0, .forward [([1, 2], [1, 2])] (some 3), .update, .schedule 1] = .ok world ∧
      world.phase = .computing [] [⟨1, [3], false, (Submission.plain 1 [5, 7] 2).sampling, false,
        false⟩] [] ∧
      ∀ req ∈ world.scheduler.runningQueue, req.generatedTokens = [3] := by
    decide +kernel
  obtain ⟨world, hrun, hphase, hgenerated⟩ := hrun
  obtain ⟨req, hreq, hid, hiff⟩ := decode_input_iff .counting (.rows ℕ) (by decide +kernel) hrun
    hphase List.mem_cons_self rfl
  exact ⟨world, hrun, req, hreq, hid, hiff.mpr fun h => by simp [hgenerated req hreq] at h⟩

/-- The second request of a prompt is admitted with all of it as its hit, and its first step decodes
the token `0`. -/
theorem decode_input_after_full_hit :
    Machine.Along (step .counting (.rows ℕ)) Fresh (new .counting 4 9 ⟨8, 4⟩)
        [.submit (.plain 1 [5, 7] 1), .schedule 0, .forward [([1, 2], [1, 2])] (some 3), .update,
          .submit (.plain 2 [5, 7] 1), .schedule 1] ∧
      ∃ world, history .counting (.rows ℕ) 4 9 ⟨8, 4⟩ [.submit (.plain 1 [5, 7] 1), .schedule 0,
          .forward [([1, 2], [1, 2])] (some 3), .update, .submit (.plain 2 [5, 7] 1),
          .schedule 1] = .ok world ∧
        world.phase = .computing [] [⟨2, [0], false, (Submission.plain 2 [5, 7] 1).sampling, false,
          false⟩] [] ∧
        ∃ req ∈ world.scheduler.runningQueue, req.id = 2 ∧
          (req.promptTokens ++ req.generatedTokens).getLast? = some 7 := by
  decide +kernel

end World
end Kyro
