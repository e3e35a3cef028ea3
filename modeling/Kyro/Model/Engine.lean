import Kyro.Scheduler.Basic
import Kyro.Lib.Run
import Mathlib.Data.List.AList

/-!
# The execution engine

`src/model/engine.rs`. An `EngineModel` wraps a model and runs it in one of four modes, which differ
only in `FullGraph`: while a capture is on, a call also stores its input and its output, and
afterwards every call returns what is stored.

The inner model is a parameter: what it answers to an input at an index and what becomes of its
state, the cache that the call is given included. An error of the inner model is an answer, not the
end of a run.
-/

namespace Kyro

inductive ExecutionMode where
  | eager
  /-- The whole forward pass as one captured graph. -/
  | fullGraph
  | piecewise
  | kernelDispatch
  deriving DecidableEq, Repr

structure GraphReplay (χ υ : Type) where
  name : String
  inputs : List χ
  outputs : List υ
  iteration : ℕ
  deriving DecidableEq, Repr

structure GraphCapture (χ υ : Type) where
  isCapturing : Bool
  replayBuffer : AList fun _ : String => GraphReplay χ υ

structure ExecutionEngine (χ υ : Type) where
  mode : ExecutionMode
  graphCapture : GraphCapture χ υ

structure EngineModel (σ χ υ : Type) where
  engine : ExecutionEngine χ υ
  inner : σ

variable {σ χ υ φ : Type}

def GraphCapture.new : GraphCapture χ υ where
  isCapturing := false
  replayBuffer := ∅

namespace ExecutionEngine

def new (mode : ExecutionMode) : ExecutionEngine χ υ where
  mode := mode
  graphCapture := .new

def setMode (engine : ExecutionEngine χ υ) (mode : ExecutionMode) : ExecutionEngine χ υ :=
  { engine with mode }

def beginGraphCapture (engine : ExecutionEngine χ υ) : ExecutionEngine χ υ :=
  { engine with graphCapture := { engine.graphCapture with isCapturing := true } }

def endGraphCapture (engine : ExecutionEngine χ υ) : ExecutionEngine χ υ :=
  { engine with graphCapture := { engine.graphCapture with isCapturing := false } }

/-- `replay_buffer.insert("full_forward", GraphReplay { .. })` -/
def capture (engine : ExecutionEngine χ υ) (x : χ) (output : υ) : ExecutionEngine χ υ :=
  { engine with graphCapture := { engine.graphCapture with
      replayBuffer := engine.graphCapture.replayBuffer.insert "full_forward"
        { name := "full_forward", inputs := [x], outputs := [output], iteration := 0 } } }

/-- `replay_buffer.get("full_forward")` -/
def captured (engine : ExecutionEngine χ υ) : Option (GraphReplay χ υ) :=
  engine.graphCapture.replayBuffer.lookup "full_forward"

@[simp] theorem captured_capture (engine : ExecutionEngine χ υ) (x : χ) (output : υ) :
    (engine.capture x output).captured = some ⟨"full_forward", [x], [output], 0⟩ :=
  AList.lookup_insert _

end ExecutionEngine

namespace EngineModel

def new (inner : σ) (mode : ExecutionMode) : EngineModel σ χ υ where
  engine := .new mode
  inner := inner

/-- The inner model's `forward`. -/
abbrev InnerForward (σ χ υ φ : Type) := σ → χ → ℕ → Except φ υ × σ

variable (innerForward : InnerForward σ χ υ φ)

/-- `self.inner.forward(x, index, cache)` -/
def delegate (model : EngineModel σ χ υ) (x : χ) (index : ℕ) :
    EngineModel σ χ υ × Except φ υ :=
  let result := innerForward model.inner x index
  ({ model with inner := result.2 }, result.1)

/-- Execute the forward pass using the current execution mode. -/
def forward (model : EngineModel σ χ υ) (x : χ) (index : ℕ) :
    Except Fault (EngineModel σ χ υ × Except φ υ) :=
  match model.engine.mode with
  | .eager => .ok (model.delegate innerForward x index)
  | .fullGraph =>
    if model.engine.graphCapture.isCapturing then
      match model.delegate innerForward x index with
      | (model, .error e) => .ok (model, .error e)
      | (model, .ok output) =>
        .ok ({ model with engine := model.engine.capture x output }, .ok output)
    else
      match model.engine.captured with
      | some replay => do
        let output ← orPanic .outOfRange replay.outputs[0]?
        return (model, .ok output)
      | none => .ok (model.delegate innerForward x index)
  | .piecewise => .ok (model.delegate innerForward x index)
  | .kernelDispatch => .ok (model.delegate innerForward x index)

/-! ### Call sequences -/

inductive Call (χ : Type) where
  | setMode (mode : ExecutionMode)
  | beginGraphCapture
  | endGraphCapture
  | forward (x : χ) (index : ℕ)
  deriving DecidableEq

/-- The model after a call. -/
def exec (model : EngineModel σ χ υ) : Call χ → Except Fault (EngineModel σ χ υ)
  | .setMode mode => .ok { model with engine := model.engine.setMode mode }
  | .beginGraphCapture => .ok { model with engine := model.engine.beginGraphCapture }
  | .endGraphCapture => .ok { model with engine := model.engine.endGraphCapture }
  | .forward x index => (model.forward innerForward x index).map Prod.fst

/-- The input of a `forward` and what it returns. -/
def answers (model : EngineModel σ χ υ) : Call χ → List (χ × Except φ υ)
  | .forward x index =>
    match model.forward innerForward x index with
    | .ok result => [(x, result.2)]
    | .error _ => []
  | _ => []

/-- A run of calls on a new model, with the answers of its `forward`s in order. -/
def history (inner : σ) (mode : ExecutionMode) (calls : List (Call χ)) :
    Except Fault (EngineModel σ χ υ × List (χ × Except φ υ)) :=
  Machine.run (Machine.recorded (exec innerForward) (answers innerForward)) (new inner mode, [])
    calls

end EngineModel
end Kyro
