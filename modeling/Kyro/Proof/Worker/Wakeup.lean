import Kyro.Engine
import Kyro.Proof.Worker.Valid

/-!
# No wakeup is lost

A worker that waits has seen every request whose handler is done. The permit carries the wakeup over
the gap between the `schedule` that did not see the request and the call of `notified()`.
-/

namespace Kyro

namespace Engine

open World

variable {τ : Type} {env : Env} {ops : TensorOps τ}

/-! ### The engine runs the worker loop -/

theorem notifyOne_world (engine : Engine τ) : engine.notifyOne.world = engine.world := by
  rw [notifyOne]
  split <;> rfl

/-- The world of an engine takes the steps of the worker loop, or none. -/
theorem step_world {engine engine' : Engine τ} {action : Action τ}
    (h : engine.step env ops action = .ok engine') :
    engine'.world = engine.world ∨
      ∃ event, engine.world.step env ops event = .ok engine'.world := by
  cases action with
  | add submission =>
      cases h
      exact Or.inr ⟨.submit submission, rfl⟩
  | notify handler =>
      apply Or.inl
      rw [step] at h
      split at h
      · cases h
        exact engine.notifyOne_world
      · cases h
        rfl
  | schedule now =>
      rw [step] at h
      split at h
      · obtain ⟨world, hstep, heq⟩ := Machine.bind_eq_ok.mp h
        cases heq
        exact Or.inr ⟨_, hstep⟩
      · cases h
        exact Or.inl rfl
  | await =>
      apply Or.inl
      rw [step] at h
      split at h
      · cases h
        rw [awaitNotified]
        split <;> rfl
      · cases h
        rfl
  | forward appends token =>
      obtain ⟨world, hstep, heq⟩ := Machine.bind_eq_ok.mp h
      cases heq
      exact Or.inr ⟨_, hstep⟩
  | update =>
      obtain ⟨world, hstep, heq⟩ := Machine.bind_eq_ok.mp h
      cases heq
      exact Or.inr ⟨_, hstep⟩

/-- Every run of an engine is one of the worker loop. -/
theorem history_world {blockSize numGpuBlocks : ℕ} {config : SchedulerConfig}
    {actions : List (Action τ)} {engine : Engine τ}
    (hrun : history env ops blockSize numGpuBlocks config actions = .ok engine) :
    ∃ events, World.history env ops blockSize numGpuBlocks config events = .ok engine.world := by
  apply Machine.run_invariant (P := fun _ _ => True) (I := fun e : Engine τ => ∃ events,
    World.history env ops blockSize numGpuBlocks config events = .ok e.world) _ ⟨[], rfl⟩
    (Machine.along_true _ _) hrun
  rintro engine action engine' ⟨events, hevents⟩ _ hstep
  rcases step_world hstep with heq | ⟨event, hevent⟩
  · exact ⟨events, heq ▸ hevents⟩
  · exact ⟨events ++ [event], Machine.run_snoc hevents hevent⟩

theorem submitted_le {world world' : World τ} {event : Event τ}
    (hstep : world.step env ops event = .ok world') :
    world.submitted.length ≤ world'.submitted.length := by
  cases steps_of_step hstep with
  | submit submission =>
      change _ ≤ (world.submitted ++ [submission.id]).length
      rw [List.length_append]
      exact Nat.le_add_right _ _
  | disabled _ => exact Nat.le_refl _
  | park _ _ => exact Nat.le_refl _
  | begin _ _ => exact Nat.le_refl _
  | answer _ _ _ => exact Nat.le_refl _
  | fail _ _ _ => exact Nat.le_refl _
  | update _ _ _ => exact Nat.le_refl _

/-! ### The invariant -/

/-- A handler whose request the worker has not seen has not yet notified, or its permit is there
when the worker calls `notified()`. -/
structure Awake (engine : Engine τ) : Prop where
  added : ∀ handler ∈ engine.notified, handler < engine.world.submitted.length
  released : engine.place = .released → ∀ handler ∈ engine.notified, engine.seen ≤ handler →
    engine.permit = true
  parked : engine.place = .parked → ∀ handler ∈ engine.notified, handler < engine.seen

theorem new_awake (env : Env) (blockSize numGpuBlocks : ℕ) (config : SchedulerConfig) :
    (new env blockSize numGpuBlocks config : Engine τ).Awake where
  added handler hmem := by cases hmem
  released hplace := by cases hplace
  parked hplace := by cases hplace

/-- The worlds of an engine come and go, with no request taken back. -/
theorem Awake.of_world {engine : Engine τ} (h : engine.Awake) {world : World τ}
    (hle : engine.world.submitted.length ≤ world.submitted.length) :
    Awake { engine with world } :=
  ⟨fun handler hmem => Nat.lt_of_lt_of_le (h.added handler hmem) hle, h.released, h.parked⟩

theorem notifyOne_not_parked (engine : Engine τ) : engine.notifyOne.place ≠ .parked := by
  intro hparked
  rw [notifyOne] at hparked
  split at hparked
  · cases hparked
  · rename_i hnot
    exact hnot hparked

theorem notifyOne_permit {engine : Engine τ} (h : engine.notifyOne.place = .released) :
    engine.notifyOne.permit = true := by
  rw [notifyOne] at h ⊢
  split at h
  · cases h
  · rfl

theorem notify_awake {engine : Engine τ} (h : engine.Awake) {handler : ℕ}
    (hadded : handler < engine.world.submitted.length) :
    Awake { engine.notifyOne with notified := handler :: engine.notified } := by
  refine ⟨?_, fun hplace _ _ _ => notifyOne_permit hplace,
    fun hplace => absurd hplace engine.notifyOne_not_parked⟩
  intro other hother
  change other < engine.notifyOne.world.submitted.length
  rw [notifyOne_world]
  rcases List.mem_cons.mp hother with rfl | hmem
  · exact hadded
  · exact h.added other hmem

theorem await_awake {engine : Engine τ} (h : engine.Awake) (hplace : engine.place = .released) :
    engine.awaitNotified.Awake := by
  rw [awaitNotified]
  by_cases hpermit : engine.permit = true
  · rw [if_pos hpermit]
    exact ⟨h.added, (fun hreleased => by cases hreleased), (fun hparked => by cases hparked)⟩
  · rw [if_neg hpermit]
    refine ⟨h.added, (fun hreleased => by cases hreleased), fun _ handler hmem => ?_⟩
    by_contra hunseen
    exact hpermit (h.released hplace handler hmem (Nat.le_of_not_lt hunseen))

/-- **Every action keeps the worker awake to what it has not seen.** -/
theorem step_awake {engine engine' : Engine τ} {action : Action τ} (h : engine.Awake)
    (hstep : engine.step env ops action = .ok engine') : engine'.Awake := by
  cases action with
  | add submission =>
      cases hstep
      apply h.of_world
      have hsubmit : engine.world.step env ops (.submit submission) =
          .ok (engine.world.submit submission) := rfl
      exact submitted_le hsubmit
  | notify handler =>
      rw [step] at hstep
      split at hstep
      · rename_i hadded
        cases hstep
        exact notify_awake h hadded.1
      · cases hstep
        exact h
  | schedule now =>
      rw [step] at hstep
      split at hstep
      · obtain ⟨world, hworld, heq⟩ := Machine.bind_eq_ok.mp hstep
        cases heq
        have hle := submitted_le hworld
        -- all that was added has been seen
        refine ⟨fun handler hmem => Nat.lt_of_lt_of_le (h.added handler hmem) hle, ?_, ?_⟩
        · intro _ handler hmem hunseen
          exact absurd (h.added handler hmem) (Nat.not_lt.mpr hunseen)
        · intro _ handler hmem
          exact h.added handler hmem
      · cases hstep
        exact h
  | await =>
      rw [step] at hstep
      split at hstep
      · rename_i hplace
        cases hstep
        exact await_awake h hplace
      · cases hstep
        exact h
  | forward appends token =>
      obtain ⟨world, hworld, heq⟩ := Machine.bind_eq_ok.mp hstep
      cases heq
      exact h.of_world (submitted_le hworld)
  | update =>
      obtain ⟨world, hworld, heq⟩ := Machine.bind_eq_ok.mp hstep
      cases heq
      exact h.of_world (submitted_le hworld)

/-- **No lost wakeup**: while the worker waits, every request that was added after its last
`schedule` belongs to a handler that has not yet called `notify_one`. -/
theorem no_lost_wakeup (env : Env) (ops : TensorOps τ) {blockSize numGpuBlocks : ℕ}
    {config : SchedulerConfig} {actions : List (Action τ)} {engine : Engine τ}
    (hrun : history env ops blockSize numGpuBlocks config actions = .ok engine)
    (hparked : engine.place = .parked) :
    ∀ handler, engine.seen ≤ handler → handler < engine.world.submitted.length →
      handler ∉ engine.notified := by
  have hawake : engine.Awake :=
    Machine.run_invariant (P := fun _ _ => True) (I := Awake)
      (fun _ _ _ h _ hstep => step_awake h hstep)
      (new_awake env blockSize numGpuBlocks config) (Machine.along_true _ _) hrun
  intro handler hunseen _ hmem
  exact absurd (hawake.parked hparked handler hmem) (Nat.not_lt.mpr hunseen)

/-- Two requests are added and one handler is done before the worker calls `notified()`, which
returns at once; the second handler is still to come when it waits. -/
theorem no_lost_wakeup_of_two :
    ∃ engine : Engine (List ℕ), history .counting (.rows ℕ) 4 9 ⟨0, 4⟩
        [.schedule 0, .add (.plain 1 [5] 2), .notify 0, .await, .schedule 0,
          .add (.plain 2 [6] 2), .await] = .ok engine ∧
      engine.seen = 1 ∧ engine.world.submitted = [1, 2] ∧ 1 ∉ engine.notified := by
  have hrun : ∃ engine : Engine (List ℕ), history .counting (.rows ℕ) 4 9 ⟨0, 4⟩
      [.schedule 0, .add (.plain 1 [5] 2), .notify 0, .await, .schedule 0,
        .add (.plain 2 [6] 2), .await] = .ok engine ∧
      engine.place = .parked ∧ engine.seen = 1 ∧ engine.world.submitted = [1, 2] := by
    decide +kernel
  obtain ⟨engine, hrun, hparked, hseen, hsubmitted⟩ := hrun
  refine ⟨engine, hrun, hseen, hsubmitted, ?_⟩
  apply no_lost_wakeup .counting (.rows ℕ) hrun hparked
  · rw [hseen]
  · rw [hsubmitted]
    decide

end Engine
end Kyro
