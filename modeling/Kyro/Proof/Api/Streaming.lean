import Kyro.Api.OpenAi
import Mathlib.Data.List.Basic

/-!
# Streamed and unstreamed text

A chunk has the text of all tokens received so far, not what the last one adds. So the chunks repeat
what earlier ones had, and they make up the message only where all of them but the last are empty.
-/

namespace Kyro

/-- Decoding maps no tokens to no text, and a part of the tokens from the start on to such a part of
the text. -/
structure LuminaTokenizer.Lawful (tk : LuminaTokenizer) : Prop where
  nil : tk.decode [] = .ok ""
  mono : ∀ p l, p <+: l → ∃ s t, tk.decode p = .ok s ∧ tk.decode l = .ok t ∧
    s.toList <+: t.toList

namespace OpenAi

variable {tokenizer : Option LuminaTokenizer} {payload : ChatPayload} {requestId : RequestId}
  {created : ℕ}

theorem deltaContents_streamEvents_snoc (allTokens tokens : List Token) (token : Token) :
    deltaContents (streamEvents tokenizer payload requestId created allTokens
        (tokens ++ [token])) =
      deltaContents (streamEvents tokenizer payload requestId created allTokens tokens) ++
        [chunkContent tokenizer (allTokens ++ tokens ++ [token]) token] := by
  induction tokens generalizing allTokens with
  | nil => simp [streamEvents, deltaContents, chunk]
  | cons first rest ih =>
      have hrest := ih (allTokens ++ [first])
      simp only [deltaContents, streamEvents, List.cons_append, List.flatMap_cons] at hrest ⊢
      rw [hrest]
      simp [chunk]

/-- Without a tokenizer a chunk has its own token only. -/
theorem deltaContents_none (allTokens tokens : List Token) :
    deltaContents (streamEvents none payload requestId created allTokens tokens) =
      tokens.map tokenText := by
  induction tokens using List.reverseRecOn with
  | nil => rfl
  | append_singleton tokens token ih =>
      rw [deltaContents_streamEvents_snoc, ih, List.map_append]
      rfl

section Tokenizer

variable {tk : LuminaTokenizer}

theorem chunkContent_some {allTokens : List Token} {token : Token} {text : String}
    (h : tk.decode allTokens = .ok text) : chunkContent (some tk) allTokens token = text := by
  rw [chunkContent, h]
  rfl

theorem messageContent_some {allTokens : List Token} {text : String}
    (h : tk.decode allTokens = .ok text) : messageContent (some tk) allTokens = text := by
  rw [messageContent, h]
  rfl

/-- The chunks are all empty exactly if the last one, which has the text of all tokens, is. -/
theorem deltaContents_empty_iff (hlawful : tk.Lawful) (tokens : List Token) :
    String.join (deltaContents (streamEvents (some tk) payload requestId created [] tokens)) = "" ↔
      tk.decode tokens = .ok "" := by
  induction tokens using List.reverseRecOn with
  | nil => simp [streamEvents, deltaContents, hlawful.nil]
  | append_singleton tokens token ih =>
      obtain ⟨before, after, hbefore, hafter, hmono⟩ :=
        hlawful.mono tokens (tokens ++ [token]) (List.prefix_append _ _)
      rw [deltaContents_streamEvents_snoc, List.nil_append, chunkContent_some hafter, hafter,
        String.join_append, String.append_eq_empty_iff, ih, hbefore]
      simp only [String.join_cons, String.join_nil, String.append_empty, Except.ok.injEq,
        and_iff_right_iff_imp]
      intro hempty
      rw [hempty] at hmono
      exact String.toList_eq_nil_iff.mp (List.prefix_nil.mp hmono)

end Tokenizer

/-- **When the stream says what the message says.** -/
theorem join_deltaContents_iff (hlawful : ∀ tk ∈ tokenizer, tk.Lawful) (tokens : List Token) :
    String.join (deltaContents (streamEvents tokenizer payload requestId created [] tokens)) =
        messageContent tokenizer tokens ↔
      ∀ tk ∈ tokenizer, tk.decode tokens.dropLast = .ok "" := by
  cases tokenizer with
  | none =>
      rw [deltaContents_none]
      simp [messageContent]
  | some tk =>
      have hlaw := hlawful tk rfl
      induction tokens using List.reverseRecOn with
      | nil => simp [streamEvents, deltaContents, messageContent_some hlaw.nil, hlaw.nil]
      | append_singleton tokens token _ =>
          obtain ⟨_, text, _, htext, _⟩ := hlaw.mono _ _ (List.prefix_refl (tokens ++ [token]))
          rw [deltaContents_streamEvents_snoc, List.nil_append, chunkContent_some htext,
            messageContent_some htext, String.join_append, String.join_cons, String.join_nil,
            String.append_empty, List.dropLast_concat]
          have hself : ∀ s : String, s ++ text = text ↔ s = "" := by
            intro s
            rw [← String.toList_inj, ← String.toList_inj, String.toList_append]
            simp
          rw [hself, deltaContents_empty_iff hlaw]
          simp

/-- **Streaming and not streaming the same tokens.** With a lawful tokenizer, or none, the contents
of the chunks put together are the content of the message if and only if the tokenizer, where there
is one, decodes all tokens but the last to the empty text. -/
theorem streams_agree_iff (hlawful : ∀ tk ∈ tokenizer, tk.Lawful) {tokens : List Token}
    {events : List SseEvent} {response : ChatCompletionResponse}
    (hstream : chatCompletions tokenizer { payload with stream := some true } requestId created
      tokens = .sse events)
    (hplain : chatCompletions tokenizer { payload with stream := some false } requestId created
      tokens = .json response) :
    (response.choices.map (·.message.content) = [.text (String.join (deltaContents events))]) ↔
      ∀ tk ∈ tokenizer, tk.decode tokens.dropLast = .ok "" := by
  rw [chatCompletions] at hstream hplain
  split at hstream
  · cases hstream
  · rename_i hmessages
    rw [if_neg hmessages] at hplain
    dsimp only at hstream hplain
    cases hencode : promptTokens tokenizer (extractPromptText payload.messages) with
    | error e =>
        rw [hencode] at hstream
        cases hstream
    | ok prompt =>
        rw [hencode] at hstream hplain
        cases hstream
        cases hplain
        rw [← @join_deltaContents_iff tokenizer { payload with stream := some true } requestId
          created hlawful tokens]
        simp only [completion, List.map_cons, List.map_nil, List.cons.injEq, and_true,
          MessageContent.text.injEq]
        exact eq_comm

/-- A tokenizer whose tokens are all one letter. -/
def unary : LuminaTokenizer where
  encode text := .ok (text.toList.map fun _ => 0)
  decode tokens := .ok (String.ofList (tokens.map fun _ => 'a'))

theorem unary_lawful : unary.Lawful where
  nil := rfl
  mono p l h := ⟨_, _, rfl, rfl, by
    rw [String.toList_ofList, String.toList_ofList]
    exact h.map _⟩

/-- A payload of one message. -/
def hello : ChatPayload where
  model := "llama"
  messages := [{ role := "user", content := .text "Hi" }]
  stream := none

/-- One token is one chunk, and it has the whole text. -/
theorem streams_agree_one_token :
    ∃ events response,
      chatCompletions (some unary) { hello with stream := some true } 1 0 [7] = .sse events ∧
      chatCompletions (some unary) { hello with stream := some false } 1 0 [7] = .json response ∧
      response.choices.map (·.message.content) =
        [.text (String.join (deltaContents events))] := by
  refine ⟨_, _, rfl, rfl, ?_⟩
  have hlawful : ∀ tk ∈ some unary, tk.Lawful := by
    intro tk htk
    cases htk
    exact unary_lawful
  apply (@streams_agree_iff (some unary) hello 1 0 hlawful [7] _ _ rfl rfl).mpr
  intro tk htk
  cases htk
  rfl

/-- Of two tokens the first is in both chunks. -/
theorem stream_repeats_text :
    unary.Lawful ∧
    chatCompletions (some unary) { hello with stream := some true } 1 0 [7, 8] =
      .sse [.chunk (chunk { hello with stream := some true } 1 0 "a"),
        .chunk (chunk { hello with stream := some true } 1 0 "aa"), .done] ∧
    String.join (deltaContents [.chunk (chunk { hello with stream := some true } 1 0 "a"),
      .chunk (chunk { hello with stream := some true } 1 0 "aa"), .done]) = "aaa" ∧
    chatCompletions (some unary) { hello with stream := some false } 1 0 [7, 8] =
      .json (completion (some unary) { hello with stream := some false } 1 0
        (extractPromptText hello.messages) [7, 8]) ∧
    messageContent (some unary) [7, 8] = "aa" := by
  refine ⟨unary_lawful, rfl, ?_, rfl, rfl⟩
  decide +kernel

end OpenAi
end Kyro
