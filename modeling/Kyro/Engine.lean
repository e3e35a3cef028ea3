import Kyro.Worker

/-!
# Handlers and the waiting worker

A handler of the API adds its request under the scheduler's lock and then calls `notify_one`. The
worker that has selected nothing gives the lock back and then awaits `notified()`. Between any two
of these steps the other tasks may run.

Of `tokio::sync::Notify` the model has what is documented of it: `notify_one` wakes a task that
waits, and if there is none it stores a permit, of which there is at most one; `notified()` takes
the permit or waits.
-/

namespace Kyro

/-- Where the worker is in an iteration that has selected nothing. -/
inductive Place where
  /-- At the top of the loop, or with a batch. -/
  | running
  /-- The lock is dropped and `notified()` not yet called. -/
  | released
  /-- Waiting in `notified()`. -/
  | parked
  deriving DecidableEq

/-- A handler goes by the number of its request in the order of the submissions. -/
structure Engine (τ : Type) where
  world : World τ
  place : Place
  permit : Bool
  /-- The handlers that have called `notify_one`. -/
  notified : List ℕ
  /-- The number of requests that were submitted before the last `schedule`. -/
  seen : ℕ

inductive Action (τ : Type) where
  /-- A handler adds its request. -/
  | add (submission : Submission)
  /-- A handler that has added its request calls `notify_one`. -/
  | notify (handler : ℕ)
  | schedule (now : Instant)
  /-- The worker calls `notified()`. -/
  | await
  | forward (appends : List (τ × τ)) (token : Option Token)
  | update
  deriving DecidableEq

namespace Engine

variable {τ : Type}

def new (env : Env) (blockSize numGpuBlocks : ℕ) (config : SchedulerConfig) : Engine τ where
  world := World.new env blockSize numGpuBlocks config
  place := .running
  permit := false
  notified := []
  seen := 0

/-- `notify_one` -/
def notifyOne (engine : Engine τ) : Engine τ :=
  match engine.place with
  | .parked => { engine with place := .running }
  | _ => { engine with permit := true }

/-- `notified().await` -/
def awaitNotified (engine : Engine τ) : Engine τ :=
  if engine.permit then { engine with permit := false, place := .running }
  else { engine with place := .parked }

/-- An action that its task cannot take changes nothing. -/
def step (env : Env) (ops : TensorOps τ) (engine : Engine τ) :
    Action τ → Except Fault (Engine τ)
  | .add submission => .ok { engine with world := engine.world.submit submission }
  | .notify handler =>
    if handler < engine.world.submitted.length ∧ handler ∉ engine.notified then
      .ok { engine.notifyOne with notified := handler :: engine.notified }
    else .ok engine
  | .schedule now =>
    if engine.place = .running ∧ engine.world.phase = .idle then do
      let world ← engine.world.step env ops (.schedule now)
      return { engine with
        world
        place := if world.phase = .idle then .released else .running
        seen := engine.world.submitted.length }
    else .ok engine
  | .await => if engine.place = .released then .ok engine.awaitNotified else .ok engine
  | .forward appends token => do
    let world ← engine.world.step env ops (.forward appends token)
    return { engine with world }
  | .update => do
    let world ← engine.world.step env ops .update
    return { engine with world }

/-- The engine after a sequence of actions. -/
def history (env : Env) (ops : TensorOps τ) (blockSize numGpuBlocks : ℕ)
    (config : SchedulerConfig) (actions : List (Action τ)) : Except Fault (Engine τ) :=
  Machine.run (step env ops) (new env blockSize numGpuBlocks config) actions

end Engine
end Kyro
