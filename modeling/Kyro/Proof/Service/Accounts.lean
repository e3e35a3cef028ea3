import Kyro.Proof.Service.Replies

/-!
# Accounts

The counter of `src/metrics.rs` and what the clients have been sent. Every token that the counter
has counted was sent to the client of exactly one call: it is in the reply to the call, or waits in
the channel of its handler, or was for a client that has gone.
-/

namespace Kyro

/-- The tokens in a reply. -/
def Reply.tokens : Reply → ℕ
  | .error _ _ => 0
  | .sse events => events.length - 1
  | .json response => response.usage.completionTokens

theorem OpenAi.length_streamEvents (tokenizer : Option LuminaTokenizer) (payload : ChatPayload)
    (requestId : RequestId) (created : ℕ) (received tokens : List Token) :
    (streamEvents tokenizer payload requestId created received tokens).length =
      tokens.length + 1 := by
  induction tokens generalizing received with
  | nil => rfl
  | cons token rest ih =>
      rw [streamEvents, List.length_cons, ih, List.length_cons]

/-- The reply to a payload that is not refused has all its tokens. -/
theorem Handler.tokens_reply {tokenizer : Option LuminaTokenizer} {second : ℕ} {handler : Handler}
    {submission : Submission} (h : handler.accept tokenizer second = .ok submission)
    (tokens : List Token) : (handler.reply tokenizer tokens).tokens = tokens.length := by
  rw [accept] at h
  rw [reply, OpenAi.chatCompletions]
  split at h
  · cases h
  · rename_i hempty
    rw [if_neg hempty]
    dsimp only
    cases hprompt : OpenAi.promptTokens tokenizer
        (OpenAi.extractPromptText handler.request.payload.messages) with
    | error e =>
        rw [hprompt] at h
        cases h
    | ok promptTokens =>
        dsimp only
        split
        · rw [Reply.tokens, OpenAi.length_streamEvents, Nat.add_sub_cancel]
        · rfl

theorem Handler.tokens_refusal {tokenizer : Option LuminaTokenizer} {second : ℕ} {handler : Handler}
    {refusal : Reply} (h : handler.accept tokenizer second = .error refusal) :
    refusal.tokens = 0 := by
  rw [accept] at h
  split at h
  · cases h
    rfl
  · split at h
    · cases h
      rfl
    · cases h

/-- A key stands once in a list without duplicates. -/
theorem sum_ite_eq {κ : Type*} [DecidableEq κ] {keys : List κ} (hnodup : keys.Nodup) (a : κ) :
    (keys.map fun key => if a = key then 1 else 0).sum = if a ∈ keys then 1 else 0 := by
  rw [← hnodup.count]
  induction keys with
  | nil => rfl
  | cons key keys ih =>
      rw [List.map_cons, List.sum_cons, ih (List.nodup_cons.mp hnodup).2, List.count_cons,
        Nat.add_comm]
      by_cases hkey : a = key
      · simp [hkey]
      · simp [hkey, Ne.symm hkey]

/-- The entries of a list, counted by their keys. -/
theorem sum_length_filter {κ α : Type*} [DecidableEq κ] {keys : List κ} (hnodup : keys.Nodup)
    {l : List (κ × α)} (hkeys : ∀ a ∈ l, a.1 ∈ keys) :
    (keys.map fun key => (l.filter fun a => a.1 = key).length).sum = l.length := by
  induction l with
  | nil => simp
  | cons a l ih =>
      have hone : (keys.map fun key => if a.1 = key then 1 else 0).sum = 1 := by
        rw [sum_ite_eq hnodup, if_pos (hkeys a List.mem_cons_self)]
      have hrest := ih fun b hb => hkeys b (List.mem_cons_of_mem _ hb)
      calc (keys.map fun key => ((a :: l).filter fun a => a.1 = key).length).sum
          = (keys.map fun key => (if a.1 = key then 1 else 0) +
              (l.filter fun a => a.1 = key).length).sum := by
            congr 1
            refine List.map_congr_left fun key _ => ?_
            by_cases hkey : a.1 = key
            · simp [hkey, Nat.add_comm]
            · simp [hkey]
        _ = (a :: l).length := by
            rw [List.sum_map_add, hone, hrest, List.length_cons, Nat.add_comm]

namespace World

open Worker

variable {τ : Type}

/-- The counter moves by the tokens that are pushed. -/
theorem counted_eq (world : World τ) (event : Event τ) :
    world.counted event = (world.pushed event).length := by
  cases event with
  | submit _ => rfl
  | schedule _ => rfl
  | forward _ _ => rfl
  | update =>
      rw [counted, generated, pushed]
      cases world.phase with
      | idle => rfl
      | stopped => rfl
      | computing toPrefill batch results =>
          dsimp only
          split
          · rename_i hlength
            rw [← List.countP_eq_length_filter]
            have hzip : (batch.zip results).map Prod.snd = results :=
              List.map_snd_zip hlength.le
            conv_lhs => rw [← hzip, List.countP_map]
            rfl
          · rfl

end World

namespace Service

variable {τ : Type} {env : Env} {ops : TensorOps τ} {tokenizer : Option LuminaTokenizer}
  {second : ℕ} {service service' : Service τ}

theorem steps_counted {action : Action τ} (hvalid : service.world.Valid)
    (h : service.totalTokensGenerated = service.world.sent.length)
    (hsteps : Steps env ops tokenizer second service action service') :
    service'.totalTokensGenerated = service'.world.sent.length := by
  cases hsteps with
  | refuse _ => exact h
  | accept _ => exact h
  | turn hworld _ =>
      rw [world, hworld]
      exact h
  | work hevent hsteps =>
      rw [World.steps_sent hvalid hsteps, List.length_append, List.length_map,
        ← World.counted_eq]
      dsimp only
      rw [h]
  | reply _ _ => exact h
  | disconnect _ => exact h

section History

variable {blockSize numGpuBlocks : ℕ} {config : SchedulerConfig} {actions : List (Action τ)}

theorem history_counted
    (hfresh : Machine.Along (step env ops tokenizer second) Fresh
      (new env blockSize numGpuBlocks config) actions)
    (hrun : history env ops tokenizer second blockSize numGpuBlocks config actions = .ok service) :
    service.totalTokensGenerated = service.world.sent.length := by
  have hboth := Machine.run_invariant (P := Fresh)
    (I := fun s : Service τ => (∃ submitted, Served tokenizer second s submitted) ∧
      s.totalTokensGenerated = s.world.sent.length)
    ?_ ⟨⟨[], new_served env blockSize numGpuBlocks config⟩, rfl⟩ hfresh hrun
  · exact hboth.2
  · rintro s action s' ⟨⟨submitted, hs⟩, hcounted⟩ hfresh hstep
    have hsteps := steps_of_step hstep
    exact ⟨steps_served hs hfresh hsteps, steps_counted hs.valid hcounted hsteps⟩

/-- **Every counted token was for one call.** The counter is at all times the tokens in the replies,
the tokens that wait for the handlers and those of the clients that have gone. -/
theorem tokens_accounted
    (hfresh : Machine.Along (step env ops tokenizer second) Fresh
      (new env blockSize numGpuBlocks config) actions)
    (hrun : history env ops tokenizer second blockSize numGpuBlocks config actions = .ok service) :
    service.totalTokensGenerated =
      (service.handlers.map fun handler => (service.received handler.requestId).length).sum +
      (service.replies.map fun entry => entry.2.tokens).sum +
      (service.dropped.map fun handler => (service.received handler.requestId).length).sum := by
  obtain ⟨submitted, h⟩ := history_served hfresh hrun
  have hkeys : ∀ token ∈ service.world.sent, token.1 ∈ service.calls.map (·.requestId) := by
    intro token htoken
    apply h.known
    by_contra hunknown
    have hnone := h.streamed.unknown _ hunknown
    rw [World.stream, List.map_eq_nil_iff, List.filter_eq_nil_iff] at hnone
    exact hnone token htoken (decide_eq_true rfl)
  have hsum := sum_length_filter h.nodup hkeys
  rw [← history_counted hfresh hrun, calls, List.map_map, List.map_append, List.map_append,
    List.sum_append, List.sum_append, List.map_map] at hsum
  rw [← hsum]
  have hlength : ∀ id, (service.received id).length =
      (service.world.sent.filter fun token => token.1 = id).length :=
    fun id => List.length_map _
  have hreplies : service.replies.map (fun entry => entry.2.tokens) =
      service.replies.map fun entry => (service.received entry.1.requestId).length := by
    refine List.map_congr_left fun entry hentry => ?_
    cases haccept : entry.1.accept tokenizer second with
    | ok submission => rw [h.replied entry hentry, Handler.tokens_reply haccept]
    | error refusal =>
        have hcall : entry.1 ∈ service.calls := List.mem_append_left _
          (List.mem_append_right _ (List.mem_map_of_mem (f := Prod.fst) hentry))
        have hnone := h.streamed.unknown _ (h.refused hcall haccept)
        rw [h.replied entry hentry, Handler.accept_error haccept, Handler.tokens_refusal haccept,
          received_eq, hnone, List.length_nil]
  rw [hreplies]
  simp only [hlength, Function.comp_def]

/-- One token of a reply, one that waits and one that is lost. -/
theorem tokens_accounted_of_three :
    ∃ service, history .counting (.rows ℕ) none 1 4 9 ⟨8, 4⟩
        [.chat (.plain 1 1 0), .chat (.plain 2 2 0), .chat (.plain 3 3 0), .schedule 0,
          .forward [([1, 2, 3], [1, 2, 3])] (some 7), .forward [([1, 2, 3], [1, 2, 3])] (some 8),
          .forward [([1, 2, 3], [1, 2, 3])] (some 9), .update, .reply 1, .disconnect 2] =
          .ok service ∧
      (service.handlers.length = 1 ∧ service.replies.length = 1 ∧ service.dropped.length = 1 ∧
        service.totalTokensGenerated = 3) ∧
      service.totalTokensGenerated =
        (service.handlers.map fun handler => (service.received handler.requestId).length).sum +
        (service.replies.map fun entry => entry.2.tokens).sum +
        (service.dropped.map fun handler => (service.received handler.requestId).length).sum := by
  have hrun : ∃ service, history .counting (.rows ℕ) none 1 4 9 ⟨8, 4⟩
      [.chat (.plain 1 1 0), .chat (.plain 2 2 0), .chat (.plain 3 3 0), .schedule 0,
        .forward [([1, 2, 3], [1, 2, 3])] (some 7), .forward [([1, 2, 3], [1, 2, 3])] (some 8),
        .forward [([1, 2, 3], [1, 2, 3])] (some 9), .update, .reply 1, .disconnect 2] =
        .ok service ∧
      (service.handlers.length = 1 ∧ service.replies.length = 1 ∧ service.dropped.length = 1 ∧
        service.totalTokensGenerated = 3) := by
    decide +kernel
  obtain ⟨service, hrun, hcounts⟩ := hrun
  exact ⟨service, hrun, hcounts, tokens_accounted (by decide +kernel) hrun⟩

end History

end Service
end Kyro
