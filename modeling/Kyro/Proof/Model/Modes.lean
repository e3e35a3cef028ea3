import Kyro.Model.Engine

/-!
# Whether the execution modes agree

Over an inner model that computes a function, every answer is the function's value at its input but
for a replay, which is the value at the input of the last capture.
-/

namespace Kyro

namespace EngineModel

variable {σ χ υ φ : Type} {innerForward : InnerForward σ χ υ φ} {f : χ → Except φ υ}

/-- The inner model computes `f`, whatever its state and the index. -/
def Computes (innerForward : InnerForward σ χ υ φ) (f : χ → Except φ υ) : Prop :=
  ∀ s x index, (innerForward s x index).1 = f x

/-- What is stored is one input and the value there. -/
def Faithful (f : χ → Except φ υ) (model : EngineModel σ χ υ) : Prop :=
  ∀ replay, model.engine.captured = some replay →
    ∃ x output, replay.inputs = [x] ∧ replay.outputs = [output] ∧ f x = .ok output

/-- Where the call is a replay, `f` has the same value at its input and at the captured one. -/
def ReplaysSame (f : χ → Except φ υ) (model : EngineModel σ χ υ) : Call χ → Prop
  | .forward x _ => model.engine.mode = .fullGraph → model.engine.graphCapture.isCapturing = false →
      ∀ replay ∈ model.engine.captured, ∀ captured ∈ replay.inputs, f captured = f x
  | _ => True

instance [DecidableEq υ] [DecidableEq φ] (f : χ → Except φ υ) (model : EngineModel σ χ υ) :
    DecidablePred (model.ReplaysSame f)
  | .setMode _ => inferInstanceAs (Decidable True)
  | .beginGraphCapture => inferInstanceAs (Decidable True)
  | .endGraphCapture => inferInstanceAs (Decidable True)
  | .forward x _ => inferInstanceAs (Decidable (model.engine.mode = .fullGraph →
      model.engine.graphCapture.isCapturing = false →
        ∀ replay ∈ model.engine.captured, ∀ captured ∈ replay.inputs, f captured = f x))

/-- What a `forward` does, in any mode: it asks the inner model and may store the answer, or it
replays. -/
theorem forward_cases (hf : Computes innerForward f) {model : EngineModel σ χ υ}
    (hmodel : model.Faithful f) (x : χ) (index : ℕ) :
    (∃ model', model.forward innerForward x index = .ok (model', f x) ∧ model'.Faithful f ∧
      ¬ (model.engine.mode = .fullGraph ∧ model.engine.graphCapture.isCapturing = false ∧
        model.engine.captured.isSome)) ∨
    (model.engine.mode = .fullGraph ∧ model.engine.graphCapture.isCapturing = false ∧
      ∃ replay captured, model.engine.captured = some replay ∧ replay.inputs = [captured] ∧
        model.forward innerForward x index = .ok (model, f captured)) := by
  obtain ⟨asked, hdelegate, hengine⟩ : ∃ asked : EngineModel σ χ υ,
      model.delegate innerForward x index = (asked, f x) ∧ asked.engine = model.engine :=
    ⟨_, Prod.ext rfl (hf model.inner x index), rfl⟩
  have hasked : asked.Faithful f := by
    rw [Faithful, hengine]
    exact hmodel
  rw [forward]
  cases hmode : model.engine.mode with
  | eager => exact Or.inl ⟨asked, congrArg Except.ok hdelegate, hasked, by simp⟩
  | piecewise => exact Or.inl ⟨asked, congrArg Except.ok hdelegate, hasked, by simp⟩
  | kernelDispatch => exact Or.inl ⟨asked, congrArg Except.ok hdelegate, hasked, by simp⟩
  | fullGraph =>
      dsimp only
      by_cases hcapturing : model.engine.graphCapture.isCapturing = true
      · rw [if_pos hcapturing, hdelegate]
        apply Or.inl
        cases hvalue : f x with
        | error e => exact ⟨asked, rfl, hasked, by simp [hcapturing]⟩
        | ok output =>
            refine ⟨{ asked with engine := asked.engine.capture x output }, rfl, ?_,
              by simp [hcapturing]⟩
            intro replay hreplay
            rw [ExecutionEngine.captured_capture] at hreplay
            cases hreplay
            exact ⟨x, output, rfl, rfl, hvalue⟩
      · rw [if_neg hcapturing]
        have hnot : model.engine.graphCapture.isCapturing = false := by simpa using hcapturing
        cases hcaptured : model.engine.captured with
        | none => exact Or.inl ⟨asked, congrArg Except.ok hdelegate, hasked, by simp⟩
        | some replay =>
            obtain ⟨captured, output, hinputs, houtputs, hvalue⟩ := hmodel replay hcaptured
            refine Or.inr ⟨rfl, hnot, replay, captured, rfl, hinputs, ?_⟩
            dsimp only
            rw [houtputs, hvalue]
            rfl

/-- **One call.** It does not panic, and its answer is right exactly where it replays no other
value. -/
theorem exec_answers (hf : Computes innerForward f) {model : EngineModel σ χ υ}
    (hmodel : model.Faithful f) (call : Call χ) :
    (∃ model', model.exec innerForward call = .ok model' ∧ model'.Faithful f) ∧
      ((∀ answer ∈ model.answers innerForward call, answer.2 = f answer.1) ↔
        model.ReplaysSame f call) := by
  cases call with
  | setMode mode => exact ⟨⟨_, rfl, hmodel⟩, by simp [answers, ReplaysSame]⟩
  | beginGraphCapture => exact ⟨⟨_, rfl, hmodel⟩, by simp [answers, ReplaysSame]⟩
  | endGraphCapture => exact ⟨⟨_, rfl, hmodel⟩, by simp [answers, ReplaysSame]⟩
  | forward x index =>
      rcases forward_cases hf hmodel x index with ⟨model', heq, hfaithful, hnot⟩ |
        ⟨hmode, hcapturing, replay, captured, hcaptured, hinputs, heq⟩
      · refine ⟨⟨model', by rw [exec, heq]; rfl, hfaithful⟩, ?_⟩
        rw [answers, heq]
        simp only [List.mem_singleton, forall_eq, true_iff]
        intro hmode hcapturing replay hcaptured
        exact absurd ⟨hmode, hcapturing, by rw [hcaptured]; rfl⟩ hnot
      · refine ⟨⟨model, by rw [exec, heq]; rfl, hmodel⟩, ?_⟩
        rw [answers, heq]
        simp [ReplaysSame, hmode, hcapturing, hcaptured, hinputs]

/-- **When the modes agree.** Whatever the calls, none panics, and all answers are the function's
values, as in `Eager` mode, if and only if no replay is of an input with another value. -/
theorem modes_agree_iff (hf : Computes innerForward f) (inner : σ) (mode : ExecutionMode)
    (calls : List (Call χ)) :
    ∃ model record, history innerForward inner mode calls = .ok (model, record) ∧
      ((∀ answer ∈ record, answer.2 = f answer.1) ↔
        Machine.Along (exec innerForward) (ReplaysSame f) (new inner mode) calls) := by
  have hstart : (new inner mode : EngineModel σ χ υ).Faithful f := by
    intro replay hreplay
    cases hreplay
  obtain ⟨model, hrun, _⟩ := Machine.run_progress (P := fun _ _ => True)
    (fun model call hmodel _ => (exec_answers hf hmodel call).1) hstart
    (Machine.along_true _ calls)
  obtain ⟨record, hrecord⟩ := Machine.exists_recorded (answers innerForward) hrun []
  refine ⟨model, record, hrecord, ?_⟩
  have hiff := Machine.forall_mem_record_iff (I := Faithful f) (Q := fun _ _ => True)
    (fun model call model' hmodel _ hexec => by
      obtain ⟨same, hsame, hfaithful⟩ := (exec_answers hf hmodel call).1
      rw [hexec] at hsame
      cases hsame
      exact hfaithful)
    (fun model call model' hmodel _ _ => (exec_answers hf hmodel call).2)
    hstart (Machine.along_true _ _) hrecord
  rw [hiff]
  simp

/-- A model without a state that adds one. -/
def successor : InnerForward Unit ℕ ℕ Unit := fun s x _ => (.ok (x + 1), s)

theorem successor_computes : Computes successor fun x => .ok (x + 1) := fun _ _ _ => rfl

/-- The captured input again, and another one in another mode. -/
theorem modes_agree_same_input :
    ∃ model record, history successor () .fullGraph [.beginGraphCapture, .forward 3 0,
        .endGraphCapture, .forward 3 1, .setMode .piecewise, .forward 5 2] = .ok (model, record) ∧
      ∀ answer ∈ record, answer.2 = .ok (answer.1 + 1) := by
  obtain ⟨model, record, hrun, hiff⟩ := modes_agree_iff successor_computes () .fullGraph
    [.beginGraphCapture, .forward 3 0, .endGraphCapture, .forward 3 1, .setMode .piecewise,
      .forward 5 2]
  exact ⟨model, record, hrun, hiff.mpr (by decide +kernel)⟩

/-- After a capture at 3 every input gets the value at 3. -/
theorem replay_ignores_input :
    ∃ ran, history successor () .fullGraph
        [.beginGraphCapture, .forward 3 0, .endGraphCapture, .forward 5 1] = .ok ran ∧
      ran.2 = [(3, .ok 4), (5, .ok 4)] := by
  decide +kernel

end EngineModel
end Kyro
