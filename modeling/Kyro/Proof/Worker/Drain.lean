import Kyro.Proof.Worker.Stream
import Kyro.Proof.Scheduler.Admission
import Mathlib.Algebra.Order.BigOperators.Group.List
import Mathlib.Algebra.Order.Group.Nat

/-!
# The worker drains

With no more requests coming in, every iteration that selects anything gives a running request a
token, and every request has only so many tokens left to get. The cursors play no role: a prefill
that does not move is given its token all the same.
-/

namespace Kyro

namespace Request

/-- The number of tokens a request gets at most. -/
def allowance (req : Request) : ℕ := max 1 req.maxTokens

/-- What is left of it. -/
def remaining (req : Request) : ℕ := req.allowance - req.generatedTokens.length

theorem AdmittedAs.remaining_le {req next : Request} (h : req.AdmittedAs next) :
    next.remaining ≤ req.allowance := by
  obtain ⟨_, _, _, rfl⟩ := h
  exact Nat.sub_le _ _

end Request

namespace Scheduler

/-- The tokens that the requests in the queues can still get. -/
def allowance (scheduler : Scheduler) : ℕ :=
  (scheduler.runningQueue.map Request.remaining).sum +
    (scheduler.waitingQueue.map Request.allowance).sum

section Schedule

variable {now : Instant} {scheduler scheduler' : Scheduler} {toPrefill toDecode : List RequestId}
  {stays selected taken admitted : List Request}

/-- A `schedule` creates no allowance: what is admitted brings its own. -/
theorem Scheduled.allowance_le
    (h : Scheduled now scheduler scheduler' toPrefill toDecode stays selected taken admitted) :
    scheduler'.allowance ≤ scheduler.allowance := by
  have hstays : (stays.map Request.remaining).sum ≤
      (scheduler.runningQueue.map Request.remaining).sum := by
    have hmarks : ∀ reqs : List Request, reqs.map Request.remaining =
        (reqs.map Request.unmarked).map Request.remaining := by
      intro reqs
      rw [List.map_map]
      rfl
    rw [hmarks, h.stays_eq, ← hmarks]
    exact (List.filter_sublist.map _).sum_le_sum fun _ _ => Nat.zero_le _
  have hadmitted : (admitted.map Request.remaining).sum ≤ (taken.map Request.allowance).sum := by
    have hall := h.admitted_as
    clear h
    induction hall with
    | nil => exact Nat.le_refl _
    | cons hreq _ ih =>
        rw [List.map_cons, List.sum_cons, List.map_cons, List.sum_cons]
        exact Nat.add_le_add hreq.remaining_le ih
  have hwaiting : (taken.map Request.allowance).sum +
      (scheduler'.waitingQueue.map Request.allowance).sum ≤
      (scheduler.waitingQueue.map Request.allowance).sum := by
    rw [← List.sum_append, ← List.map_append, ← h.waiting_eq]
    exact (List.filter_sublist.map _).sum_le_sum fun _ _ => Nat.zero_le _
  rw [allowance, allowance, h.running_eq, List.map_append, List.sum_append]
  omega

end Schedule

end Scheduler

namespace Worker

theorem foldl_advance_blockManager (scheduler : Scheduler) (toPrefill : List RequestId) :
    (toPrefill.foldl Scheduler.advancePrefillCursor scheduler).blockManager =
      scheduler.blockManager := by
  induction toPrefill generalizing scheduler with
  | nil => rfl
  | cons id toPrefill ih => exact ih _

variable {τ : Type}

theorem finishAll_owns (env : Env) {scheduler : Scheduler} (h : scheduler.blockManager.Owns [])
    (cache : KVCacheManager τ) (finished : List RequestId) :
    ∃ result, finishAll env scheduler cache finished = .ok result ∧
      result.1.blockManager.Owns [] := by
  induction finished generalizing scheduler cache with
  | nil => exact ⟨_, rfl, h⟩
  | cons id finished ih =>
      obtain ⟨next, hfinish, hnext⟩ := Scheduler.exec_owns env h (.finishRequest id)
      rw [finishAll, show scheduler.finishRequest env id = .ok next from hfinish, Machine.ok_bind]
      exact ih hnext _

/-- The update phase does not panic. -/
theorem update_owns (env : Env) {scheduler : Scheduler} (h : scheduler.blockManager.Owns [])
    (cache : KVCacheManager τ) (toPrefill : List RequestId) (results : List ComputeResult) :
    ∃ result, update env scheduler cache toPrefill results = .ok result ∧
      result.1.blockManager.Owns [] := by
  have hadvanced : (toPrefill.foldl Scheduler.advancePrefillCursor { scheduler with
      runningQueue := (pushResults scheduler.runningQueue results).1 }).blockManager.Owns [] := by
    rw [foldl_advance_blockManager]
    exact h
  obtain ⟨result, hfinish, howns⟩ := finishAll_owns env hadvanced cache
    (((toPrefill.foldl Scheduler.advancePrefillCursor { scheduler with
      runningQueue := (pushResults scheduler.runningQueue results).1 }).runningQueue.filter
        (·.isDone)).map (·.id))
  rw [update]
  dsimp only
  rw [hfinish, Machine.ok_bind]
  exact ⟨_, rfl, howns⟩

end Worker

namespace World

open Worker

variable {τ : Type} {env : Env} {ops : TensorOps τ}

/-- A running request has something left. -/
theorem Going.remaining_pos {world : World τ} {req : Request} (h : world.Going req) :
    0 < req.remaining := by
  rw [Request.remaining, Request.allowance]
  rcases h.below with hnil | hlt
  · rw [hnil, List.length_nil]
    omega
  · omega

/-- The states of the runs that the argument is about. -/
structure Drainable (world : World τ) : Prop where
  valid : world.Valid
  owns : world.scheduler.blockManager.Owns []
  going : ∃ submitted, world.Streamed submitted

theorem Drainable.remaining_pos {world : World τ} (h : world.Drainable) {req : Request}
    (hreq : req ∈ world.scheduler.runningQueue) : 0 < req.remaining := by
  obtain ⟨submitted, hstreamed⟩ := h.going
  exact (hstreamed.running req hreq).remaining_pos

theorem Drainable.allowance_pos {world : World τ} (h : world.Drainable) {req : Request}
    (hreq : req ∈ world.scheduler.runningQueue) : 0 < world.scheduler.allowance := by
  have hone : req.remaining ≤ (world.scheduler.runningQueue.map Request.remaining).sum :=
    List.single_le_sum (fun _ _ => Nat.zero_le _) _ (List.mem_map_of_mem hreq)
  have hpos := h.remaining_pos hreq
  rw [Scheduler.allowance]
  omega

theorem steps_owns {world world' : World τ} {event : Event τ}
    (h : world.scheduler.blockManager.Owns []) (hsteps : Steps env ops world event world') :
    world'.scheduler.blockManager.Owns [] := by
  cases hsteps with
  | disabled _ => exact h
  | submit submission => exact h
  | @park now _ hphase hschedule =>
      obtain ⟨result, hresult, howns⟩ := Scheduler.schedule_owns env now h
      rw [hschedule] at hresult
      cases hresult
      exact howns
  | @begin now _ _ _ hphase hschedule =>
      obtain ⟨result, hresult, howns⟩ := Scheduler.schedule_owns env now h
      rw [hschedule] at hresult
      cases hresult
      exact howns
  | answer hphase hitem happend => exact h
  | fail hphase hitem happend => exact h
  | @update toPrefill _ results _ _ _ hphase hlength hupdate =>
      obtain ⟨result, hresult, howns⟩ := update_owns env h world.cache toPrefill results
      rw [hupdate] at hresult
      cases hresult
      exact howns

theorem steps_drainable {world world' : World τ} {event : Event τ} (h : world.Drainable)
    (hfresh : world.Fresh event) (hsteps : Steps env ops world event world') :
    world'.Drainable := by
  obtain ⟨submitted, hstreamed⟩ := h.going
  exact ⟨steps_valid h.valid hfresh hsteps, steps_owns h.owns hsteps,
    _, steps_streamed h.valid hstreamed hfresh hsteps⟩

section Update

variable {world : World τ} {toPrefill : List RequestId} {batch : List WorkItem}
  {results : List ComputeResult} {scheduler : Scheduler} {cache : KVCacheManager τ}
  {sent : List (RequestId × Token)}

theorem remaining_settled (config : SchedulerConfig) (toPrefill : List RequestId)
    (results : List ComputeResult) (req : Request) :
    (req.settled config toPrefill results).remaining =
      req.remaining - (answers results req.id).length := by
  have hallowance : (req.settled config toPrefill results).allowance = req.allowance := by
    rw [Request.settled]
    split <;> rfl
  rw [Request.remaining, hallowance, Request.settled_generatedTokens, List.length_append,
    Nat.sub_add_eq]
  rfl

/-- An update takes from the allowance, and something if there was anything in the batch. -/
theorem updated_allowance (h : world.Drainable)
    (hphase : world.phase = .computing toPrefill batch results)
    (hlength : results.length = batch.length)
    (hupdate : Worker.update env world.scheduler world.cache toPrefill results =
      .ok (scheduler, cache, sent)) :
    scheduler.allowance ≤ world.scheduler.allowance ∧
      (batch ≠ [] → scheduler.allowance < world.scheduler.allowance) := by
  obtain ⟨prefills, hbatched⟩ := h.valid.batched _ _ _ hphase
  have hscheduler :=
    (update_spec h.valid.running_nodup (hbatched.toPrefill_nodup h.valid) hupdate).1
  let left (req : Request) : ℕ :=
    if ¬ (req.settled world.scheduler.config toPrefill results).isDone then
      (req.settled world.scheduler.config toPrefill results).remaining
    else 0
  have hrunning : (scheduler.runningQueue.map Request.remaining).sum =
      (world.scheduler.runningQueue.map left).sum := by
    rw [List.sum_map_ite, hscheduler, List.filter_map, List.map_map]
    simp [Function.comp_def]
  have hle : ∀ req ∈ world.scheduler.runningQueue, left req ≤ req.remaining := by
    intro req _
    dsimp only [left]
    rw [remaining_settled]
    split
    · exact Nat.sub_le _ _
    · exact Nat.zero_le _
  have hwaiting : scheduler.waitingQueue = world.scheduler.waitingQueue := by rw [hscheduler]
  rw [Scheduler.allowance, Scheduler.allowance, hrunning, hwaiting]
  refine ⟨Nat.add_le_add_right (List.sum_le_sum hle) _, fun hbatch => ?_⟩
  apply Nat.add_lt_add_right
  apply List.sum_lt_sum _ _ hle
  -- the first item has a result, and its request is running
  obtain ⟨item, items, rfl⟩ := List.exists_cons_of_ne_nil hbatch
  obtain ⟨req, hreq, hid⟩ := hbatched.item_running List.mem_cons_self
  obtain ⟨res, hres, hresId⟩ := hbatched.exists_result_of_item hlength List.mem_cons_self
  refine ⟨req, hreq, ?_⟩
  have hpos := h.remaining_pos hreq
  have hanswer : 0 < (answers results req.id).length := by
    rw [answers, List.length_map]
    apply List.length_pos_of_mem
    exact List.mem_filter.mpr ⟨hres, decide_eq_true (hresId.trans hid.symm)⟩
  dsimp only [left]
  rw [remaining_settled]
  split
  · omega
  · exact hpos

end Update

/-! ### Iterations that select something -/

/-- The clock reading of a `schedule` that selects anything. -/
def selections (env : Env) (world : World τ) : Event τ → List Instant
  | .schedule now =>
    match world.phase with
    | .idle =>
      match world.scheduler.schedule env now with
      | .ok (_, toPrefill, toDecode) =>
        if toPrefill.isEmpty && toDecode.isEmpty then [] else [now]
      | .error _ => []
    | _ => []
  | _ => []

/-- There is a batch to be answered, or one was not. -/
structure Owing (world : World τ) : Prop where
  allowance_pos : 0 < world.scheduler.allowance
  not_idle : world.phase ≠ .idle
  batch_ne_nil : ∀ toPrefill batch results,
    world.phase = .computing toPrefill batch results → batch ≠ []

/-- The iterations so far have been paid for, but perhaps for the last one. -/
def Spent (total : ℕ) (world : World τ) (selected : List Instant) : Prop :=
  selected.length + world.scheduler.allowance ≤ total ∨
    (world.Owing ∧ selected.length + world.scheduler.allowance ≤ total + 1)

theorem Spent.length_le {total : ℕ} {world : World τ} {selected : List Instant}
    (h : Spent total world selected) : selected.length ≤ total := by
  rcases h with h | ⟨howing, h⟩
  · omega
  · have := howing.allowance_pos
    omega

theorem Spent.of_idle {total : ℕ} {world : World τ} {selected : List Instant}
    (h : Spent total world selected) (hphase : world.phase = .idle) :
    selected.length + world.scheduler.allowance ≤ total := by
  rcases h with h | ⟨howing, _⟩
  · exact h
  · exact absurd hphase howing.not_idle

/-- A batch has an item for every selected id, and the item is for a running request. -/
theorem begin_ne_nil {world : World τ} (hvalid : world.Valid) {now : Instant}
    {scheduler : Scheduler} {toPrefill toDecode : List RequestId}
    (hschedule : world.scheduler.schedule env now = .ok (scheduler, toPrefill, toDecode))
    (hselected : ¬ (toPrefill.isEmpty && toDecode.isEmpty) = true) :
    buildBatch scheduler.config scheduler.runningQueue toPrefill toDecode ≠ [] ∧
      ∃ req, req ∈ scheduler.runningQueue := by
  obtain ⟨_, _, _, _, hspec⟩ := Scheduler.schedule_spec hschedule
  obtain ⟨prefills, hbatched⟩ := batched_begin hvalid hspec
  obtain ⟨_, hdecode⟩ := hspec.selection
  have hbatch : buildBatch scheduler.config scheduler.runningQueue toPrefill toDecode ≠ [] := by
    intro hnil
    have hempty := hbatched.batch_eq
    rw [hnil] at hempty
    obtain ⟨hprefills, hfinished⟩ := List.append_eq_nil_iff.mp hempty.symm
    apply hselected
    rw [hbatched.toPrefill_eq, hdecode, List.map_eq_nil_iff.mp hprefills,
      List.map_eq_nil_iff.mp hfinished]
    rfl
  obtain ⟨item, hitem⟩ := List.exists_mem_of_ne_nil _ hbatch
  obtain ⟨req, hreq, _⟩ := hbatched.item_running hitem
  exact ⟨hbatch, req, hreq⟩

theorem fresh_of_quiet {event : Event τ} (h : ∀ submission, event ≠ .submit submission)
    (world : World τ) : world.Fresh event := by
  cases event with
  | submit submission => exact absurd rfl (h submission)
  | schedule now => trivial
  | forward appends token => trivial
  | update => trivial

theorem selections_of_disabled (env : Env) {world : World τ} {event : Event τ}
    (h : ¬ world.Enabled event) : world.selections env event = [] := by
  cases event with
  | schedule now =>
      rw [selections]
      split
      · rename_i hphase
        exact absurd hphase h
      · rfl
  | submit submission => rfl
  | forward appends token => rfl
  | update => rfl

theorem selections_schedule {world : World τ} (hphase : world.phase = .idle) {now : Instant}
    {scheduler : Scheduler} {toPrefill toDecode : List RequestId}
    (hschedule : world.scheduler.schedule env now = .ok (scheduler, toPrefill, toDecode)) :
    world.selections env (.schedule now) =
      if toPrefill.isEmpty && toDecode.isEmpty then [] else [now] := by
  rw [selections, hphase]
  dsimp only
  rw [hschedule]

/-- An event that selects nothing. -/
theorem Spent.selections_nil {total : ℕ} {world world' : World τ} {event : Event τ}
    {selected : List Instant} (h : Spent total world' selected)
    (hnone : world.selections env event = []) :
    Spent total world' (selected ++ world.selections env event) := by
  rwa [hnone, List.append_nil]

/-- A pass through the model leaves the batch. -/
theorem Owing.forwarded {world : World τ} (h : world.Owing) {toPrefill : List RequestId}
    {batch : List WorkItem} {results : List ComputeResult}
    (hphase : world.phase = .computing toPrefill batch results) (cache : KVCacheManager τ)
    {phase : Phase} (hnext : phase.Forwarded toPrefill batch results) :
    Owing { world with cache, phase } := by
  refine ⟨h.allowance_pos, ?_, ?_⟩
  · intro hidle
    cases hnext with
    | fail => cases hidle
    | answer result => cases hidle
  · intro _ _ _ hcomputing
    cases hnext with
    | fail => cases hcomputing
    | answer result =>
        cases hcomputing
        exact h.batch_ne_nil _ _ _ hphase

theorem Spent.forwarded {total : ℕ} {world : World τ} {selected : List Instant}
    (h : Spent total world selected) {toPrefill : List RequestId} {batch : List WorkItem}
    {results : List ComputeResult} (hphase : world.phase = .computing toPrefill batch results)
    (cache : KVCacheManager τ) {phase : Phase}
    (hnext : phase.Forwarded toPrefill batch results) :
    Spent total { world with cache, phase } selected := by
  rcases h with hspent | ⟨howing, hspent⟩
  · exact Or.inl hspent
  · exact Or.inr ⟨howing.forwarded hphase cache hnext, hspent⟩

theorem steps_spent {total : ℕ} {world world' : World τ} {event : Event τ}
    {selected : List Instant} (h : world.Drainable) (hspent : Spent total world selected)
    (hquiet : ∀ submission, event ≠ .submit submission)
    (hsteps : Steps env ops world event world') :
    Spent total world' (selected ++ world.selections env event) := by
  cases hsteps with
  | disabled hdisabled => exact hspent.selections_nil (selections_of_disabled env hdisabled)
  | submit submission => exact absurd rfl (hquiet submission)
  | @park now scheduler hphase hschedule =>
      obtain ⟨_, _, _, _, hspec⟩ := Scheduler.schedule_spec hschedule
      have hle := hspec.allowance_le
      have hbefore := hspent.of_idle hphase
      apply Spent.selections_nil _ (selections_schedule hphase hschedule)
      apply Or.inl
      change selected.length + scheduler.allowance ≤ total
      omega
  | @begin now scheduler toPrefill toDecode hphase hschedule =>
      obtain ⟨_, _, _, _, hspec⟩ := Scheduler.schedule_spec hschedule
      have hle := hspec.allowance_le
      have hbefore := hspent.of_idle hphase
      rw [selections_schedule hphase hschedule]
      by_cases hselected : (toPrefill.isEmpty && toDecode.isEmpty) = true
      · rw [if_pos hselected, List.append_nil]
        apply Or.inl
        change selected.length + scheduler.allowance ≤ total
        omega
      · obtain ⟨hbatch, req, hreq⟩ := begin_ne_nil h.valid hschedule hselected
        have hafter := steps_drainable h (by exact trivial)
          (Steps.begin hphase hschedule : Steps env ops world (.schedule now) _)
        rw [if_neg hselected]
        apply Or.inr
        refine ⟨⟨?_, ?_, ?_⟩, ?_⟩
        · exact hafter.allowance_pos hreq
        · intro hidle
          cases hidle
        · intro _ _ _ hcomputing
          cases hcomputing
          exact hbatch
        · rw [List.length_append, List.length_singleton]
          change selected.length + 1 + scheduler.allowance ≤ total + 1
          omega
  | answer hphase hitem happend =>
      exact (hspent.forwarded hphase _ (.answer _)).selections_nil rfl
  | fail hphase hitem happend =>
      exact (hspent.forwarded hphase _ .fail).selections_nil rfl
  | @update _ _ _ scheduler _ _ hphase hlength hupdate =>
      obtain ⟨hle, hlt⟩ := updated_allowance h hphase hlength hupdate
      apply Spent.selections_nil _ rfl
      apply Or.inl
      change selected.length + scheduler.allowance ≤ total
      rcases hspent with hspent | ⟨howing, hspent⟩
      · omega
      · have := hlt (howing.batch_ne_nil _ _ _ hphase)
        omega

/-! ### The worker parks -/

/-- Whatever the clock reads, the `schedule` at the top of the loop succeeds, and it selects nothing
or, when all items are answered, whatever the tokens are, the update succeeds, at most `n` times. -/
def Parks (env : Env) (ops : TensorOps τ) : ℕ → World τ → Prop
  | 0, world => ∀ now, ∃ next, world.step env ops (.schedule now) = .ok next ∧ next.phase = .idle
  | n + 1, world => ∀ now, ∃ next, world.step env ops (.schedule now) = .ok next ∧
      (next.phase = .idle ∨ ∀ (passes : List (List (τ × τ) × Token)) (ran : World τ),
        Machine.run (step env ops) next (passes.map fun pass => .forward pass.1 (some pass.2)) =
          .ok ran →
        ran.Enabled .update →
        ∃ done, ran.step env ops .update = .ok done ∧ done.phase = .idle ∧ Parks env ops n done)

/-- What `schedule` at the top of the loop does. -/
theorem step_schedule (env : Env) (ops : TensorOps τ) {world : World τ} (h : world.Drainable)
    (hphase : world.phase = .idle) (now : Instant) :
    ∃ next, world.step env ops (.schedule now) = .ok next ∧ next.Drainable ∧
      next.scheduler.allowance ≤ world.scheduler.allowance ∧
      (next.phase = .idle ∨ next.Owing) := by
  obtain ⟨⟨scheduler, toPrefill, toDecode⟩, hschedule, _⟩ :=
    Scheduler.schedule_owns env now h.owns
  obtain ⟨_, _, _, _, hspec⟩ := Scheduler.schedule_spec hschedule
  have hstep : world.step env ops (.schedule now) =
      if toPrefill.isEmpty && toDecode.isEmpty then .ok { world with scheduler } else .ok
        { world with
          scheduler
          cache := registerItems world.cache
            (buildBatch scheduler.config scheduler.runningQueue toPrefill toDecode)
          phase := .computing toPrefill
            (buildBatch scheduler.config scheduler.runningQueue toPrefill toDecode) [] } := by
    rw [step, hphase]
    dsimp only
    rw [schedule, hschedule, Machine.ok_bind, ← hphase]
    rfl
  by_cases hselected : (toPrefill.isEmpty && toDecode.isEmpty) = true
  · rw [if_pos hselected] at hstep
    have hafter := steps_drainable h (by exact trivial) (steps_of_step hstep)
    exact ⟨_, hstep, hafter, hspec.allowance_le, Or.inl hphase⟩
  · rw [if_neg hselected] at hstep
    have hafter := steps_drainable h (by exact trivial) (steps_of_step hstep)
    obtain ⟨hbatch, req, hreq⟩ := begin_ne_nil h.valid hschedule hselected
    refine ⟨_, hstep, hafter, hspec.allowance_le, Or.inr ⟨hafter.allowance_pos hreq, ?_, ?_⟩⟩
    · intro hidle
      cases hidle
    · intro _ _ _ hcomputing
      cases hcomputing
      exact hbatch

/-- The items of a batch leave the allowance alone. -/
theorem forwards_kept {world ran : World τ} (h : world.Drainable) (howing : world.Owing)
    {passes : List (List (τ × τ) × Token)}
    (hrun : Machine.run (step env ops) world
      (passes.map fun pass => .forward pass.1 (some pass.2)) = .ok ran) :
    ran.Drainable ∧ ran.Owing ∧ ran.scheduler.allowance = world.scheduler.allowance := by
  induction passes generalizing world with
  | nil =>
      cases hrun
      exact ⟨h, howing, rfl⟩
  | cons pass passes ih =>
      obtain ⟨next, hstep, hrest⟩ := Machine.run_cons.mp hrun
      have hsteps := steps_of_step hstep
      have hnext := steps_drainable h (by exact trivial) hsteps
      have hkept : next.Owing ∧ next.scheduler.allowance = world.scheduler.allowance := by
        cases hsteps with
        | disabled _ => exact ⟨howing, rfl⟩
        | answer hphase hitem happend =>
            exact ⟨howing.forwarded hphase _ (.answer _), rfl⟩
        | fail hphase hitem happend => exact ⟨howing.forwarded hphase _ .fail, rfl⟩
      obtain ⟨hran, hranOwing, heq⟩ := ih hnext hkept.1 hrest
      exact ⟨hran, hranOwing, heq.trans hkept.2⟩

theorem parks_of_allowance_le {n : ℕ} {world : World τ} (h : world.Drainable)
    (hphase : world.phase = .idle) (hle : world.scheduler.allowance ≤ n) :
    Parks env ops n world := by
  induction n generalizing world with
  | zero =>
      intro now
      obtain ⟨next, hstep, _, hnext, hidle | howing⟩ := step_schedule env ops h hphase now
      · exact ⟨next, hstep, hidle⟩
      · have := howing.allowance_pos
        omega
  | succ n ih =>
      intro now
      obtain ⟨next, hstep, hdrainable, hnext, hidle | howing⟩ :=
        step_schedule env ops h hphase now
      · exact ⟨next, hstep, Or.inl hidle⟩
      · refine ⟨next, hstep, Or.inr ?_⟩
        intro passes ran hrun henabled
        obtain ⟨hran, hranOwing, heq⟩ := forwards_kept hdrainable howing hrun
        obtain ⟨toPrefill, batch, results, hcomputing, hlength⟩ := henabled
        obtain ⟨⟨scheduler, cache, sent⟩, hupdate, _⟩ :=
          update_owns env hran.owns ran.cache toPrefill results
        have hdone : ran.step env ops .update = .ok
            { ran with scheduler, cache, phase := .idle, sent := ran.sent ++ sent } := by
          rw [step, hcomputing]
          dsimp only
          rw [if_pos hlength, hupdate]
          rfl
        have hlt := (updated_allowance hran hcomputing hlength hupdate).2
          (hranOwing.batch_ne_nil _ _ _ hcomputing)
        refine ⟨_, hdone, rfl, ?_⟩
        apply ih (steps_drainable hran (by exact trivial) (steps_of_step hdone)) rfl
        change scheduler.allowance ≤ n
        omega

/-! ### Runs -/

section History

variable {blockSize numGpuBlocks : ℕ} {config : SchedulerConfig} {events : List (Event τ)}
  {world : World τ}

theorem history_drainable (hsize : 0 < blockSize)
    (hfresh : Machine.Along (step env ops) Fresh (new env blockSize numGpuBlocks config) events)
    (hrun : history env ops blockSize numGpuBlocks config events = .ok world) :
    world.Drainable := by
  obtain ⟨submitted, hrecorded⟩ := Machine.exists_recorded submissions hrun []
  obtain ⟨hvalid, hstreamed⟩ := submissionHistory_streamed hfresh hrecorded
  have howns : world.scheduler.blockManager.Owns [] :=
    (history_invariant (I := fun w => w.scheduler.blockManager.Owns [])
      (fun _ _ _ _ h _ hsteps => steps_owns h hsteps)
      (BlockManager.new_owns env hsize numGpuBlocks) hfresh hrun).2
  exact ⟨hvalid, howns, submitted, hstreamed⟩

/-- **The worker drains.** From every state at the top of the loop, without further submissions, the
iterations that select anything are at most as many as the running and the waiting requests may
still get tokens, whatever else happens. And if every pass through the model succeeds, then the
worker parks after at most so many iterations. -/
theorem drains (env : Env) (ops : TensorOps τ) (hsize : 0 < blockSize)
    (hfresh : Machine.Along (step env ops) Fresh (new env blockSize numGpuBlocks config) events)
    (hrun : history env ops blockSize numGpuBlocks config events = .ok world)
    (hphase : world.phase = .idle) :
    (∀ (more : List (Event τ)) (last : World τ) (selected : List Instant),
      (∀ submission, Event.submit submission ∉ more) →
      Machine.run (Machine.recorded (step env ops) (selections env)) (world, []) more =
        .ok (last, selected) →
      selected.length ≤
        (world.scheduler.runningQueue.map fun req =>
          max 1 req.maxTokens - req.generatedTokens.length).sum +
          (world.scheduler.waitingQueue.map fun req => max 1 req.maxTokens).sum) ∧
    Parks env ops
      ((world.scheduler.runningQueue.map fun req =>
        max 1 req.maxTokens - req.generatedTokens.length).sum +
        (world.scheduler.waitingQueue.map fun req => max 1 req.maxTokens).sum) world := by
  have hdrainable := history_drainable hsize hfresh hrun
  refine ⟨?_, parks_of_allowance_le hdrainable hphase (Nat.le_refl _)⟩
  intro more last selected hquiet hmore
  have hkept : last.Drainable ∧ Spent world.scheduler.allowance last selected := by
    apply Machine.run_invariant (I := fun w : World τ × List Instant =>
      w.1.Drainable ∧ Spent world.scheduler.allowance w.1 w.2)
      (P := fun _ e => ∀ submission, e ≠ .submit submission) _ _ _ hmore
    · intro w e w' hw hevent hstep
      obtain ⟨hstep, hrecord⟩ := Machine.recorded_eq_ok.mp hstep
      have hsteps := steps_of_step hstep
      rw [hrecord]
      exact ⟨steps_drainable hw.1 (fresh_of_quiet hevent w.1) hsteps,
        steps_spent hw.1 hw.2 hevent hsteps⟩
    · exact ⟨hdrainable, Or.inl (Nat.le_of_eq (Nat.zero_add _))⟩
    · apply Machine.along_of_forall
      rintro _ hmem submission rfl
      exact hquiet submission hmem
  exact hkept.2.length_le

end History

theorem drains_zero_chunk :
    ∃ world : World (List ℕ), history .counting (.rows ℕ) 4 9 ⟨8, 0⟩
        [.submit (.plain 1 [5, 7] 2), .submit (.plain 2 [6] 0)] = .ok world ∧
      Parks .counting (.rows ℕ) 3 world := by
  have hrun : ∃ world : World (List ℕ), history .counting (.rows ℕ) 4 9 ⟨8, 0⟩
      [.submit (.plain 1 [5, 7] 2), .submit (.plain 2 [6] 0)] = .ok world ∧
      world.phase = .idle ∧
      (world.scheduler.runningQueue.map fun req =>
        max 1 req.maxTokens - req.generatedTokens.length).sum +
        (world.scheduler.waitingQueue.map fun req => max 1 req.maxTokens).sum = 3 := by
    decide +kernel
  obtain ⟨world, hrun, hphase, hsum⟩ := hrun
  obtain ⟨_, hparks⟩ := drains .counting (.rows ℕ) (by decide) (by decide +kernel) hrun hphase
  rw [hsum] at hparks
  exact ⟨world, hrun, hparks⟩

end World
end Kyro
