import Kyro.Proof.Speculative.Lossless
import Kyro.Model.KvCache

/-!
# What speculation leaves in the cache

The drafting and the verification of a step append to the same slot, and nothing takes rows out of
it. A single-layer model appends one row for every token that it is fed; a row is its token here, so
the slot shows what was fed to either model and in which order.
-/

namespace Kyro

/-- The tokens of a feed. -/
def Feed.fed : Feed (List Token) → List Token
  | .input ts => ts
  | .tokens ts => ts

/-- What a model returns once its tokens are in the cache: the argmax of every row, or an error. -/
abbrev Logits := KVCacheManager (List Token) → Feed (List Token) → ℕ →
  Except CandleError (List Token)

/-- A model of one layer: one `append_kv`, then the logits. -/
def cachedForward (id : RequestId) (logits : Logits) :
    Forward (KVCacheManager (List Token)) (List Token) := fun manager feed index =>
  match manager.appendKv (.rows Token) id feed.fed feed.fed with
  | .error fault => .error fault
  | .ok (manager, false) => .ok (manager, .error .tensor)
  | .ok (manager, true) => .ok (manager, logits manager feed index)

/-- The slot of the request has exactly these entries. -/
def Holds (manager : KVCacheManager (List Token)) (id : RequestId) (entries : List Token) : Prop :=
  ∃ cache, manager.requestCaches.lookup id = some cache ∧ cache.keyTensor.getD [] = entries ∧
    cache.valueTensor.getD [] = entries ∧ cache.numCachedTokens = entries.length

theorem Holds.unique {manager : KVCacheManager (List Token)} {id : RequestId}
    {entries others : List Token} (h : Holds manager id entries) (h' : Holds manager id others) :
    entries = others := by
  obtain ⟨cache, hlookup, hkeys, _⟩ := h
  obtain ⟨same, hsame, hkeys', _⟩ := h'
  rw [hlookup] at hsame
  cases hsame
  exact hkeys.symm.trans hkeys'

theorem Holds.iff {manager : KVCacheManager (List Token)} {id : RequestId}
    {entries others : List Token} (h : Holds manager id entries) :
    Holds manager id others ↔ entries = others :=
  ⟨fun h' => h.unique h', fun heq => heq ▸ h⟩

theorem holds_registered (id : RequestId) :
    Holds (KVCacheManager.new.registerRequest id) id [] :=
  ⟨⟨none, none, 0⟩, AList.lookup_insert _, rfl, rfl, rfl⟩

/-- A forward appends what it is fed. -/
theorem cachedForward_spec {manager : KVCacheManager (List Token)} {id : RequestId}
    {entries : List Token} (h : Holds manager id entries) (logits : Logits)
    (feed : Feed (List Token)) (index : ℕ) :
    ∃ manager', cachedForward id logits manager feed index =
        .ok (manager', logits manager' feed index) ∧ Holds manager' id (entries ++ feed.fed) := by
  obtain ⟨cache, hlookup, hkeys, hvalues, hcount⟩ := h
  refine ⟨⟨manager.requestCaches.insert id (cache.extend feed.fed feed.fed)⟩, ?_,
    cache.extend feed.fed feed.fed, AList.lookup_insert _, ?_, ?_, ?_⟩
  · rw [cachedForward, KVCacheManager.appendKv_rows hlookup]
  · rw [← hkeys]
    rfl
  · rw [← hvalues]
    rfl
  · rw [List.length_append, ← hcount]
    rfl

namespace SpeculativeDecoder

/-! ### What is appended -/

theorem only_eq_ok {rows : List Token} {token : Token} :
    only rows = .ok token ↔ rows = [token] := by
  rw [only.eq_def]
  split
  · simp
  · next hmany =>
      constructor
      · intro h
        cases h
      · exact fun h => absurd h (hmany token)

theorem length_ne_one_of_only {rows : List Token} {e : CandleError} (h : only rows = .error e) :
    rows.length ≠ 1 := by
  intro hone
  obtain ⟨token, rfl⟩ := List.length_eq_one_iff.mp hone
  cases h

/-- The draft loop appends its first feed and its tokens but for the last. One that fails has
appended its first feed, and nothing else if it fails at once. -/
theorem draftLoop_spec {id : RequestId} (logits : Logits) (n : ℕ)
    {manager : KVCacheManager (List Token)} {entries : List Token}
    (h : Holds manager id entries) (feed : Feed (List Token)) (index : ℕ) :
    ∃ manager' result fed,
      draftLoop (cachedForward id logits) n manager feed index = .ok (manager', result) ∧
      Holds manager' id (entries ++ fed) ∧
      (∀ drafts, result = .ok drafts →
        drafts.length = n ∧ fed = if drafts = [] then [] else feed.fed ++ drafts.dropLast) ∧
      ∀ e, result = .error e → feed.fed <+: fed ∧
        (fed = feed.fed ↔ ∀ next rows,
          cachedForward id logits manager feed index = .ok (next, .ok rows) → rows.length ≠ 1) := by
  induction n generalizing manager entries feed index with
  | zero =>
      refine ⟨manager, .ok [], [], rfl, by rwa [List.append_nil], ?_, by simp⟩
      intro drafts hdrafts
      cases hdrafts
      exact ⟨rfl, rfl⟩
  | succ n ih =>
      obtain ⟨next, hforward, hnext⟩ := cachedForward_spec h logits feed index
      rw [draftLoop, hforward]
      cases hlogits : logits next feed index with
      | error e =>
          exact ⟨next, .error e, feed.fed, rfl, hnext, by simp, by simp⟩
      | ok rows =>
          cases honly : only rows with
          | error e =>
              have hrows := length_ne_one_of_only honly
              refine ⟨next, .error e, feed.fed, ?_, hnext, by simp, by simpa using hrows⟩
              simp only [Outcome.andThen, honly]
          | ok token =>
              have hrows := only_eq_ok.mp honly
              obtain ⟨last, result, fed, hloop, hlast, hmade, hfailed⟩ :=
                ih hnext (.tokens [token]) (index + 1)
              rw [List.append_assoc] at hlast
              cases result with
              | error e =>
                  refine ⟨last, .error e, feed.fed ++ fed, ?_, hlast, by simp, ?_⟩
                  · simp only [Outcome.andThen, honly, hloop]
                  · intro e' _
                    obtain ⟨hfirst, _⟩ := hfailed e rfl
                    refine ⟨List.prefix_append _ _, ?_⟩
                    have hfed : fed ≠ [] := by
                      rintro rfl
                      cases List.prefix_nil.mp hfirst
                    simp [hfed, hrows]
              | ok drafts =>
                  obtain ⟨hlength, hfed⟩ := hmade drafts rfl
                  refine ⟨last, .ok (token :: drafts), feed.fed ++ fed, ?_, hlast, ?_, by simp⟩
                  · simp only [Outcome.andThen, honly, hloop]
                  · intro drafts' hdrafts'
                    cases hdrafts'
                    refine ⟨by rw [List.length_cons, hlength], ?_⟩
                    rw [if_neg (List.cons_ne_nil token drafts), hfed]
                    cases drafts with
                    | nil => rfl
                    | cons draft drafts => rfl

/-- The draft loop makes drafts where the draft model answers each feed with one row. -/
theorem draftLoop_succ_eq_ok {σ χ : Type} {draft : Forward σ χ} {n : ℕ} {s last : σ} {feed : Feed χ}
    {index : ℕ} {drafts : List Token} :
    draftLoop draft (n + 1) s feed index = .ok (last, .ok drafts) ↔
      ∃ next token rest, draft s feed index = .ok (next, .ok [token]) ∧
        draftLoop draft n next (.tokens [token]) (index + 1) = .ok (last, .ok rest) ∧
          drafts = token :: rest := by
  rw [draftLoop, Outcome.andThen_eq_ok]
  constructor
  · intro h
    obtain ⟨next, rows, hforward, hrest⟩ := h
    cases honly : only rows with
    | error e =>
        rw [honly] at hrest
        cases hrest
    | ok token =>
        rw [honly] at hrest
        obtain ⟨last', rest, hloop, heq⟩ := Outcome.andThen_eq_ok.mp hrest
        cases heq
        exact ⟨next, token, rest, only_eq_ok.mp honly ▸ hforward, hloop, rfl⟩
  · intro h
    obtain ⟨next, token, rest, hforward, hloop, rfl⟩ := h
    exact ⟨next, [token], hforward, Outcome.andThen_eq_ok.mpr ⟨last, rest, hloop, rfl⟩⟩

/-- A decoder of two single-layer models that share the slot of the request. -/
def cached (id : RequestId) (target : Logits) (draft : Option Logits) (lookahead : ℕ)
    (strategy : DraftStrategy) (ngramTable : AList fun _ : List Token => Token) :
    SpeculativeDecoder (KVCacheManager (List Token)) (List Token) where
  targetModel := cachedForward id target
  draftModel := draft.map (cachedForward id)
  lookahead := lookahead
  strategy := strategy
  ngramTable := ngramTable

/-- The input, where the drafting feeds it to a model. -/
def inputFed (decoder : SpeculativeDecoder (KVCacheManager (List Token)) (List Token))
    (input : List Token) : List Token :=
  if decoder.strategy = .draftModel ∧ decoder.draftModel.isSome then input else []

/-- A drafting that fails has been fed nothing but the input: the draft model does not return one
row for it, or there are no tokens to draft for in parallel. -/
def FailsAtOnce (decoder : SpeculativeDecoder (KVCacheManager (List Token)) (List Token))
    (manager : KVCacheManager (List Token)) (input : List Token) (index : ℕ) : Prop :=
  match decoder.strategy with
  | .draftModel =>
    ∀ draft, decoder.draftModel = some draft → ∀ next rows,
      draft manager (.input input) index = .ok (next, .ok rows) → rows.length ≠ 1
  | .ngram _ => True
  | .parallel => decoder.lookahead = 0

section Step

variable {id : RequestId} {target : Logits} {draft : Option Logits} {lookahead : ℕ}
  {strategy : DraftStrategy} {ngramTable : AList fun _ : List Token => Token}
  {manager : KVCacheManager (List Token)} {entries input : List Token} {index : ℕ}
  {contextTokens : List Token}

/-- What a drafting that makes these drafts appends. -/
def drafting (strategy : DraftStrategy) (input contextTokens drafts : List Token) : List Token :=
  match strategy with
  | .draftModel => if drafts = [] then [] else input ++ drafts.dropLast
  | .ngram _ => []
  | .parallel => List.replicate drafts.length (contextTokens.getLast?.getD 0)

theorem length_firstRows {logits tokens : List Token} {k : ℕ}
    (h : firstRows logits k = .ok tokens) : tokens.length = k := by
  induction k generalizing tokens with
  | zero =>
      cases h
      rfl
  | succ k ih =>
      obtain ⟨init, hinit, h⟩ := Machine.bind_eq_ok.mp h
      obtain ⟨token, _, h⟩ := Machine.bind_eq_ok.mp h
      cases h
      rw [List.length_append, ih hinit, List.length_singleton]

/-- The drafting, whether it makes drafts or fails. -/
theorem generateDrafts_spec (h : Holds manager id entries)
    {manager' : KVCacheManager (List Token)} {result : Except CandleError (List Token)}
    (hmade : (cached id target draft lookahead strategy ngramTable).generateDrafts manager input
      index contextTokens = .ok (manager', result)) :
    ∃ fed, Holds manager' id (entries ++ fed) ∧
      (∀ drafts, result = .ok drafts → fed = drafting strategy input contextTokens drafts ∧
        (strategy = .draftModel → drafts.length = lookahead)) ∧
      ∀ e, result = .error e →
        inputFed (cached id target draft lookahead strategy ngramTable) input <+: fed ∧
        (fed = inputFed (cached id target draft lookahead strategy ngramTable) input ↔
          FailsAtOnce (cached id target draft lookahead strategy ngramTable) manager input
            index) := by
  cases strategy with
  | draftModel =>
      cases draft with
      | none =>
          cases hmade
          exact ⟨[], by rwa [List.append_nil], by simp, by simp [inputFed, FailsAtOnce, cached]⟩
      | some logits =>
          obtain ⟨last, result', fed, hloop, hlast, hok, hfailed⟩ :=
            draftLoop_spec logits lookahead h (.input input) index
          rw [generateDrafts] at hmade
          dsimp only [cached, Option.map_some] at hmade
          rw [hloop] at hmade
          cases hmade
          refine ⟨fed, hlast, fun drafts hdrafts => ?_, fun e he => ?_⟩
          · obtain ⟨hlength, hfed⟩ := hok drafts hdrafts
            exact ⟨hfed, fun _ => hlength⟩
          · obtain ⟨hfirst, hiff⟩ := hfailed e he
            refine ⟨hfirst, hiff.trans ?_⟩
            simp [FailsAtOnce, cached]
  | ngram order =>
      rw [generateDrafts] at hmade
      dsimp only [cached] at hmade
      cases hloop : ngramLoop ngramTable order lookahead contextTokens with
      | error fault =>
          rw [hloop] at hmade
          cases hmade
      | ok drafts =>
          rw [hloop] at hmade
          cases hmade
          refine ⟨[], by rwa [List.append_nil], ?_, by simp⟩
          intro drafts' _
          exact ⟨rfl, by simp⟩
  | parallel =>
      obtain ⟨next, hforward, hnext⟩ := cachedForward_spec h target
        (.tokens (List.replicate lookahead (contextTokens.getLast?.getD 0))) index
      rw [generateDrafts] at hmade
      dsimp only [cached] at hmade
      rw [hforward] at hmade
      have hends : manager' = next ∧ ∀ drafts, result = .ok drafts → drafts.length = lookahead := by
        cases hlogits : target next
            (.tokens (List.replicate lookahead (contextTokens.getLast?.getD 0))) index with
        | error e =>
            rw [hlogits] at hmade
            cases hmade
            exact ⟨rfl, by simp⟩
        | ok rows =>
            rw [hlogits] at hmade
            cases hmade
            exact ⟨rfl, fun drafts hdrafts => length_firstRows hdrafts⟩
      obtain ⟨rfl, hlength⟩ := hends
      refine ⟨_, hnext, fun drafts hdrafts => ⟨?_, by simp⟩, fun e _ => ?_⟩
      · rw [drafting, hlength drafts hdrafts]
        rfl
      · simp [inputFed, FailsAtOnce, cached, Feed.fed]

end Step

/-! ### What is verified -/

/-- The drafts among the tokens that a step returns: those before the first that differs. -/
def acceptedDrafts : List Token → List Token → List Token
  | draft :: drafts, token :: tokens =>
    if draft = token then draft :: acceptedDrafts drafts tokens else []
  | _, _ => []

/-- The tokens that a step returns, if any. -/
def returned : Except CandleError (List Token) → List Token
  | .ok tokens => tokens
  | .error _ => []

@[simp] theorem acceptedDrafts_nil_right (drafts : List Token) : acceptedDrafts drafts [] = [] := by
  cases drafts <;> rfl

@[simp] theorem acceptedDrafts_self (drafts : List Token) :
    acceptedDrafts drafts drafts = drafts := by
  induction drafts with
  | nil => rfl
  | cons draft drafts ih => rw [acceptedDrafts, if_pos rfl, ih]

theorem acceptedDrafts_front (drafts tokens : List Token) :
    acceptedDrafts drafts tokens <+: drafts := by
  induction drafts generalizing tokens with
  | nil => simp [acceptedDrafts]
  | cons draft drafts ih =>
      cases tokens with
      | nil => simp
      | cons token tokens =>
          rw [acceptedDrafts]
          split
          · exact (List.prefix_cons_inj _).mpr (ih tokens)
          · exact List.nil_prefix

theorem row_eq_ok {logits : List Token} {i : ℕ} {token : Token} :
    row logits i = .ok token ↔ logits[i]? = some token := by
  rw [row]
  split
  · next top htop => simp [htop]
  · next htop => simp [htop]

/-- Drafts that the rows predict are all accepted. -/
theorem acceptLoop_of_predicted {logits drafts : List Token} {i : ℕ}
    (h : drafts <+: logits.drop i) : acceptLoop logits drafts i = .ok drafts := by
  induction drafts generalizing i with
  | nil => rfl
  | cons draft drafts ih =>
      obtain ⟨rest, hrest⟩ := h
      have hrow : logits[i]? = some draft := by
        rw [← List.head?_drop, ← hrest]
        rfl
      have htail : drafts <+: logits.drop (i + 1) := by
        rw [← List.tail_drop, ← hrest]
        exact List.prefix_append drafts rest
      rw [acceptLoop, row_eq_ok.mpr hrow, Machine.ok_bind, if_pos rfl, ih htail]
      rfl

/-- A loop that returns has a token for the first draft, and accepts all only where the rows predict
them. -/
theorem acceptLoop_spec {logits drafts tokens : List Token} {i : ℕ}
    (h : acceptLoop logits drafts i = .ok tokens) :
    (drafts ≠ [] → tokens ≠ []) ∧
      (acceptedDrafts drafts tokens = drafts → drafts <+: logits.drop i) := by
  induction drafts generalizing i tokens with
  | nil => simp
  | cons draft drafts ih =>
      obtain ⟨top, htop, h⟩ := Machine.bind_eq_ok.mp h
      split at h
      · next heq =>
          obtain ⟨rest, hrest, h⟩ := Machine.bind_eq_ok.mp h
          cases h
          refine ⟨by simp, fun hall => ?_⟩
          rw [acceptedDrafts, if_pos rfl, List.cons.injEq] at hall
          have hi := row_eq_ok.mp htop
          obtain ⟨hlt, hget⟩ := List.getElem?_eq_some_iff.mp hi
          rw [List.drop_eq_getElem_cons hlt, hget, heq]
          exact (List.prefix_cons_inj draft).mpr ((ih hrest).2 hall.2)
      · next hne =>
          cases h
          refine ⟨by simp, fun hall => ?_⟩
          rw [acceptedDrafts, if_neg (Ne.symm hne)] at hall
          cases hall

section Step

variable {id : RequestId} {target : Logits} {draft : Option Logits} {lookahead : ℕ}
  {strategy : DraftStrategy} {ngramTable : AList fun _ : List Token => Token}
  {manager : KVCacheManager (List Token)} {entries input : List Token} {index : ℕ}

/-- The verification appends the drafts, or the input where there are none. -/
theorem verifyDrafts_spec (h : Holds manager id entries) (input : List Token) (index : ℕ)
    (drafts : List Token) :
    ∃ manager' result,
      (cached id target draft lookahead strategy ngramTable).verifyDrafts manager input index
        drafts = .ok (manager', result) ∧
      Holds manager' id (entries ++ if drafts = [] then input else drafts) ∧
      (drafts ≠ [] → (acceptedDrafts drafts (returned result) = drafts ↔
        ∃ next rows, cachedForward id target manager (.tokens drafts) index =
          .ok (next, .ok rows) ∧ drafts <+: rows)) := by
  by_cases hnone : drafts = []
  · subst hnone
    obtain ⟨next, hforward, hnext⟩ := cachedForward_spec h target (.input input) index
    rw [verifyDrafts, List.length_nil, if_pos rfl, forwardInput]
    dsimp only [cached]
    rw [hforward]
    cases hlogits : target next (.input input) index with
    | error e => exact ⟨next, _, rfl, hnext, by simp⟩
    | ok rows => exact ⟨next, _, rfl, hnext, by simp⟩
  · obtain ⟨next, hforward, hnext⟩ := cachedForward_spec h target (.tokens drafts) index
    rw [verifyDrafts, if_neg (by simpa using hnone), if_neg hnone]
    dsimp only [cached]
    rw [hforward]
    cases hlogits : target next (.tokens drafts) index with
    | error e =>
        refine ⟨next, .error e, rfl, hnext, fun _ => ?_⟩
        simp [returned, Ne.symm hnone]
    | ok rows =>
        dsimp only [Outcome.andThen]
        cases hloop : acceptLoop rows drafts 0 with
        | error e =>
            refine ⟨next, .error e, rfl, hnext, fun _ => ?_⟩
            have hnot : ¬ drafts <+: rows := fun hall => by
              rw [acceptLoop_of_predicted (i := 0) hall] at hloop
              cases hloop
            simp [returned, Ne.symm hnone, hnot]
        | ok tokens =>
            obtain ⟨hne, hall⟩ := acceptLoop_spec hloop
            refine ⟨next, .ok tokens, ?_, hnext, fun _ => ⟨fun haccepted => ?_, ?_⟩⟩
            · dsimp only
              rw [if_neg (by simpa using hne hnone)]
            · exact ⟨next, rows, rfl, hall haccepted⟩
            · intro hpredicts
              obtain ⟨next', rows', hrows', hpredicted⟩ := hpredicts
              cases hrows'
              rw [acceptLoop_of_predicted (i := 0) hpredicted] at hloop
              cases hloop
              exact acceptedDrafts_self drafts

end Step

/-- What a step with these drafts appends: the drafting, then the verification. -/
def appended (strategy : DraftStrategy) (input contextTokens drafts : List Token) : List Token :=
  drafting strategy input contextTokens drafts ++ if drafts = [] then input else drafts

/-- What it adds to the verified context: the input, where a model is fed it, and the accepted
drafts. The target is fed the input only where there are no drafts. -/
def verified (strategy : DraftStrategy) (input drafts tokens : List Token) : List Token :=
  (if drafts = [] ∨ strategy = .draftModel then input else []) ++ acceptedDrafts drafts tokens

theorem drafting_nil (strategy : DraftStrategy) (input contextTokens : List Token) :
    drafting strategy input contextTokens [] = [] := by
  cases strategy <;> rfl

theorem verified_sublist (strategy : DraftStrategy)
    (input contextTokens drafts tokens : List Token) :
    (verified strategy input drafts tokens).Sublist
      (appended strategy input contextTokens drafts) := by
  have haccepted := (acceptedDrafts_front drafts tokens).sublist
  rw [verified, appended]
  by_cases hnone : drafts = []
  · subst hnone
    rw [drafting_nil]
    simp [acceptedDrafts]
  · rw [if_neg hnone]
    cases strategy with
    | draftModel =>
        rw [drafting, if_neg hnone, if_pos (Or.inr rfl)]
        exact (List.sublist_append_left _ _).append haccepted
    | ngram order => simpa [hnone, drafting] using haccepted
    | parallel =>
        rw [if_neg (by simp [hnone]), List.nil_append]
        exact haccepted.trans (List.sublist_append_right _ _)

/-- Nothing but the verified tokens is appended exactly where the drafts are fed only once and are
all accepted. -/
theorem appended_eq_verified_iff {drafts : List Token} (hnone : drafts ≠ [])
    (strategy : DraftStrategy) (input contextTokens tokens : List Token) :
    appended strategy input contextTokens drafts = verified strategy input drafts tokens ↔
      ((∃ order, strategy = .ngram order) ∨ strategy = .draftModel ∧ drafts.length = 1) ∧
        acceptedDrafts drafts tokens = drafts := by
  have haccepted := acceptedDrafts_front drafts tokens
  have hlength := haccepted.length_le
  have hpos : 0 < drafts.length := List.length_pos_of_ne_nil hnone
  have hsub := verified_sublist strategy input contextTokens drafts tokens
  have heq : appended strategy input contextTokens drafts = verified strategy input drafts tokens ↔
      (appended strategy input contextTokens drafts).length =
        (verified strategy input drafts tokens).length :=
    ⟨congrArg _, fun h => (hsub.eq_of_length h.symm).symm⟩
  have hall : acceptedDrafts drafts tokens = drafts ↔
      (acceptedDrafts drafts tokens).length = drafts.length :=
    ⟨congrArg _, haccepted.eq_of_length⟩
  rw [heq, hall, appended, verified, if_neg hnone]
  cases strategy with
  | draftModel =>
      rw [drafting, if_neg hnone, if_pos (Or.inr rfl)]
      simp only [List.length_append, List.length_dropLast, reduceCtorEq, exists_false, false_or,
        true_and]
      omega
  | ngram order =>
      rw [drafting, if_neg (by simp [hnone])]
      simp only [List.nil_append, DraftStrategy.ngram.injEq, exists_eq', true_or, true_and]
      omega
  | parallel =>
      rw [drafting, if_neg (by simp [hnone])]
      simp only [List.length_append, List.length_replicate, List.nil_append, reduceCtorEq,
        exists_false, false_and, or_false, iff_false]
      omega

/-- A call of `step`, with the input as tokens. -/
structure StepCall where
  input : List Token
  index : ℕ
  contextTokens : List Token
  deriving DecidableEq

section Runs

variable (decoder : SpeculativeDecoder (KVCacheManager (List Token)) (List Token))

/-- The cache after a step. -/
def exec (manager : KVCacheManager (List Token)) (call : StepCall) :
    Except Fault (KVCacheManager (List Token)) :=
  (decoder.step manager call.input call.index call.contextTokens).map Prod.fst

/-- What a step adds to the verified context; where the drafting fails, the input if it was fed. -/
def verifiedBy (manager : KVCacheManager (List Token)) (call : StepCall) : List Token :=
  match decoder.generateDrafts manager call.input call.index call.contextTokens with
  | .ok (_, .ok drafts) =>
    match decoder.step manager call.input call.index call.contextTokens with
    | .ok (_, result) => verified decoder.strategy call.input drafts (returned result)
    | .error _ => []
  | .ok (_, .error _) => inputFed decoder call.input
  | .error _ => []

/-- The rows that the target returns for these drafts start with them. -/
def Predicts (s : KVCacheManager (List Token)) (index : ℕ) (drafts : List Token) : Prop :=
  ∃ next rows, decoder.targetModel s (.tokens drafts) index = .ok (next, .ok rows) ∧ drafts <+: rows

/-- A call that feeds nothing that is not verified, and nothing twice. The draft model may answer
the input with a single row only where the lookahead is 1 and the target predicts this draft; the
drafts of the n-gram table must all be predicted; `Parallel` must not look ahead. -/
def FeedsOnce (manager : KVCacheManager (List Token)) (call : StepCall) : Prop :=
  match decoder.strategy with
  | .draftModel => 0 < decoder.lookahead → ∀ draft, decoder.draftModel = some draft →
    ∀ next token, draft manager (.input call.input) call.index = .ok (next, .ok [token]) →
      decoder.lookahead = 1 ∧ Predicts decoder next call.index [token]
  | .ngram order => ∀ drafts,
    ngramLoop decoder.ngramTable order decoder.lookahead call.contextTokens = .ok drafts →
      drafts ≠ [] → Predicts decoder manager call.index drafts
  | .parallel => decoder.lookahead = 0

variable {decoder} {manager drafted : KVCacheManager (List Token)} {call : StepCall}

/-- Where the drafts are made, they are of a kind that is fed once, and predicted. -/
theorem feedsOnce_iff_of_made {drafts : List Token}
    (hmade : decoder.generateDrafts manager call.input call.index call.contextTokens =
      .ok (drafted, .ok drafts)) :
    FeedsOnce decoder manager call ↔ (drafts ≠ [] →
      ((∃ order, decoder.strategy = .ngram order) ∨
        decoder.strategy = .draftModel ∧ decoder.lookahead = 1) ∧
      Predicts decoder drafted call.index drafts) := by
  obtain ⟨target, draft, lookahead, strategy, ngramTable⟩ := decoder
  rw [generateDrafts] at hmade
  dsimp only [FeedsOnce] at hmade ⊢
  cases strategy with
  | draftModel =>
      cases draft with
      | none => cases hmade
      | some forward =>
          cases lookahead with
          | zero =>
              cases hmade
              simp
          | succ n =>
              obtain ⟨next, token, rest, hforward, hrest, rfl⟩ := draftLoop_succ_eq_ok.mp hmade
              constructor
              · intro honce _
                obtain ⟨hone, hpredicts⟩ := honce (Nat.zero_lt_succ n) _ rfl next token hforward
                obtain rfl : n = 0 := by omega
                cases hrest
                exact ⟨Or.inr ⟨rfl, hone⟩, hpredicts⟩
              · intro h _ _ hdraft next' token' hforward'
                cases hdraft
                cases hforward.symm.trans hforward'
                obtain ⟨hkind, hpredicts⟩ := h (List.cons_ne_nil token rest)
                have hone : n + 1 = 1 := by simpa using hkind
                obtain rfl : n = 0 := by omega
                cases hrest
                exact ⟨hone, hpredicts⟩
  | ngram order =>
      dsimp only at hmade ⊢
      cases hloop : ngramLoop ngramTable order lookahead call.contextTokens with
      | error fault =>
          rw [hloop] at hmade
          cases hmade
      | ok made =>
          rw [hloop] at hmade
          cases hmade
          simp
  | parallel =>
      obtain ⟨next, logits, _, hrows⟩ := Outcome.andThen_eq_ok.mp hmade
      have hlength : drafts.length = lookahead :=
        length_firstRows (Prod.mk.inj (Except.ok.inj hrows)).2
      rw [← hlength, List.length_eq_zero_iff]
      simp

theorem feedsOnce_iff_of_failed {e : CandleError}
    (hmade : decoder.generateDrafts manager call.input call.index call.contextTokens =
      .ok (drafted, .error e)) :
    FeedsOnce decoder manager call ↔ FailsAtOnce decoder manager call.input call.index := by
  obtain ⟨target, draft, lookahead, strategy, ngramTable⟩ := decoder
  rw [generateDrafts] at hmade
  dsimp only [FeedsOnce, FailsAtOnce] at hmade ⊢
  cases strategy with
  | draftModel =>
      cases draft with
      | none => simp
      | some forward =>
          cases lookahead with
          | zero => cases hmade
          | succ n =>
              constructor
              · intro honce _ hdraft next rows hforward hrows
                obtain ⟨token, rfl⟩ := List.length_eq_one_iff.mp hrows
                obtain ⟨hone, _⟩ := honce (Nat.zero_lt_succ n) _ hdraft next token hforward
                obtain rfl : n = 0 := by omega
                cases hdraft
                -- a single draft is made at once
                have hloop : draftLoop forward 1 manager (.input call.input) call.index =
                    .ok (next, .ok [token]) :=
                  draftLoop_succ_eq_ok.mpr ⟨next, token, [], hforward, rfl, rfl⟩
                cases hloop.symm.trans hmade
              · intro hfails _ _ hdraft next token hforward
                exact absurd rfl (hfails _ hdraft next [token] hforward)
  | ngram order =>
      dsimp only at hmade
      cases hloop : ngramLoop ngramTable order lookahead call.contextTokens with
      | error fault =>
          rw [hloop] at hmade
          cases hmade
      | ok made =>
          rw [hloop] at hmade
          cases hmade
  | parallel => exact Iff.rfl

end Runs

section Entries

variable {id : RequestId} {target : Logits} {draft : Option Logits} {lookahead : ℕ}
  {strategy : DraftStrategy} {ngramTable : AList fun _ : List Token => Token}
  {manager manager' : KVCacheManager (List Token)} {entries : List Token} {call : StepCall}

/-- **One step** appends what is verified and, unless it feeds its drafts once, more. -/
theorem exec_spec (h : Holds manager id entries)
    (hexec : exec (cached id target draft lookahead strategy ngramTable) manager call =
      .ok manager') :
    ∃ more, Holds manager' id (entries ++ more) ∧
      (verifiedBy (cached id target draft lookahead strategy ngramTable) manager call).Sublist
        more ∧
      (more = verifiedBy (cached id target draft lookahead strategy ngramTable) manager call ↔
        FeedsOnce (cached id target draft lookahead strategy ngramTable) manager call) := by
  obtain ⟨input, index, contextTokens⟩ := call
  cases hmade : (cached id target draft lookahead strategy ngramTable).generateDrafts manager input
      index contextTokens with
  | error fault =>
      rw [exec, step, hmade] at hexec
      cases hexec
  | ok made =>
      obtain ⟨drafted, outcome⟩ := made
      obtain ⟨fed, hdrafted, hok, hfailed⟩ := generateDrafts_spec h hmade
      cases outcome with
      | error e =>
          rw [exec, step, hmade] at hexec
          cases hexec
          obtain ⟨hfirst, hiff⟩ := hfailed e rfl
          simp only [verifiedBy, hmade]
          exact ⟨fed, hdrafted, hfirst.sublist,
            hiff.trans
              (@feedsOnce_iff_of_failed _ _ _ ⟨input, index, contextTokens⟩ _ hmade).symm⟩
      | ok drafts =>
          obtain ⟨rfl, hlookahead⟩ := hok drafts rfl
          obtain ⟨last, result, hverify, hlast, hrows⟩ :=
            @verifyDrafts_spec id target draft lookahead strategy ngramTable _ _ hdrafted input
              index drafts
          have hstep : (cached id target draft lookahead strategy ngramTable).step manager input
              index contextTokens = .ok (last, result) := by
            rw [step, hmade]
            exact hverify
          rw [exec, hstep] at hexec
          cases hexec
          simp only [verifiedBy, hmade, hstep]
          refine ⟨appended strategy input contextTokens drafts, ?_,
            verified_sublist strategy input contextTokens drafts (returned result), ?_⟩
          · rw [appended, ← List.append_assoc]
            exact hlast
          · rw [@feedsOnce_iff_of_made _ _ _ ⟨input, index, contextTokens⟩ _ hmade]
            by_cases hnone : drafts = []
            · subst hnone
              simp [appended, verified, drafting_nil, acceptedDrafts]
            · have hdrafts : strategy = .draftModel ∧ drafts.length = 1 ↔
                  strategy = .draftModel ∧ lookahead = 1 :=
                and_congr_right fun hmodel => by rw [hlookahead hmodel]
              refine (appended_eq_verified_iff hnone strategy input contextTokens _).trans ?_
              rw [hrows hnone, hdrafts]
              exact ⟨fun hall _ => hall, fun hall => hall hnone⟩

theorem sublist_append_eq_iff {as bs cs ds : List Token} (hab : as.Sublist bs)
    (hcd : cs.Sublist ds) : bs ++ ds = as ++ cs ↔ bs = as ∧ ds = cs := by
  constructor
  · intro h
    have hlength := congrArg List.length h
    have hle := hab.length_le
    have hle' := hcd.length_le
    rw [List.length_append, List.length_append] at hlength
    exact ⟨(hab.eq_of_length (by omega)).symm, (hcd.eq_of_length (by omega)).symm⟩
  · rintro ⟨rfl, rfl⟩
    rfl

/-- **Whole runs.** The slot that starts with the entries of the initial context has exactly those
of the verified context at the end if and only if every step feeds its drafts once and accepts them
all. A step that does not is never made up for. -/
theorem entries_verified_iff {start finish : KVCacheManager (List Token)}
    {context verifiedContext : List Token} {calls : List StepCall} (hstart : Holds start id context)
    (hrun : Machine.run
      (Machine.recorded (exec (cached id target draft lookahead strategy ngramTable))
        (verifiedBy (cached id target draft lookahead strategy ngramTable)))
      (start, context) calls = .ok (finish, verifiedContext)) :
    Holds finish id verifiedContext ↔
      Machine.Along (exec (cached id target draft lookahead strategy ngramTable))
        (FeedsOnce (cached id target draft lookahead strategy ngramTable)) start calls := by
  have hstep : ∀ s call s',
      (∃ entries, Holds s.1 id entries ∧ s.2.Sublist entries) →
      Machine.recorded (exec (cached id target draft lookahead strategy ngramTable))
        (verifiedBy (cached id target draft lookahead strategy ngramTable)) s call = .ok s' →
      (∃ entries, Holds s'.1 id entries ∧ s'.2.Sublist entries) ∧
      (Holds s'.1 id s'.2 ↔ Holds s.1 id s.2 ∧
        FeedsOnce (cached id target draft lookahead strategy ngramTable) s.1 call) := by
    intro s call s' hs hnext
    obtain ⟨entries, hentries, hsub⟩ := hs
    obtain ⟨hexec, hrecord⟩ := Machine.recorded_eq_ok.mp hnext
    obtain ⟨more, hmore, hmoresub, hiff⟩ := exec_spec hentries hexec
    refine ⟨⟨entries ++ more, hmore, hrecord ▸ hsub.append hmoresub⟩, ?_⟩
    rw [hmore.iff, hentries.iff, hrecord, sublist_append_eq_iff hsub hmoresub, hiff]
  have hiff := Machine.run_good_iff (Q := fun _ _ => True)
    (P := fun s call => FeedsOnce (cached id target draft lookahead strategy ngramTable) s.1 call)
    (I := fun s => ∃ entries, Holds s.1 id entries ∧ s.2.Sublist entries)
    (G := fun s => Holds s.1 id s.2)
    (fun s call s' hs _ hnext => (hstep s call s' hs hnext).1)
    (fun s call s' hs _ hnext => (hstep s call s' hs hnext).2)
    ⟨context, hstart, List.Sublist.refl _⟩ (Machine.along_true _ _) hrun
  rw [hiff, and_iff_right hstart]
  exact Machine.along_recorded

end Entries

/-- A target that predicts a 1 after the token 7 and repeats the others. -/
def oneAfterSeven : Logits := fun _ feed _ =>
  .ok (feed.fed.map fun token => if token = 7 then 1 else token)

/-- A step with no drafts, then one whose draft, from the n-gram table, is accepted. -/
theorem entries_verified_of_two_steps :
    ∃ finish,
      Machine.run
        (Machine.recorded
          (exec (cached 1 oneAfterSeven none 1 (.ngram 2) (AList.singleton [1] 2)))
          (verifiedBy (cached 1 oneAfterSeven none 1 (.ngram 2) (AList.singleton [1] 2))))
        (KVCacheManager.new.registerRequest 1, []) [⟨[7], 0, [7]⟩, ⟨[1], 1, [7, 1]⟩] =
          .ok (finish, [7, 2]) ∧
      Holds finish 1 [7, 2] := by
  refine ⟨_, rfl, ?_⟩
  refine (@entries_verified_iff 1 oneAfterSeven none 1 (.ngram 2) (AList.singleton [1] 2) _ _ []
    [7, 2] [⟨[7], 0, [7]⟩, ⟨[1], 1, [7, 1]⟩] (holds_registered 1) rfl).mpr ⟨?_, ?_⟩
  · exact (@feedsOnce_iff_of_made _ _ _ _ [] rfl).mpr (fun h => absurd rfl h)
  · intro s hs
    cases hs
    refine ⟨(@feedsOnce_iff_of_made _ _ _ _ [2] rfl).mpr fun _ => ?_, fun _ _ => trivial⟩
    exact ⟨Or.inl ⟨2, rfl⟩, _, [2], rfl, List.prefix_rfl⟩

/-- A target that predicts a 3 and a draft model that predicts a 5. -/
def atOdds : SpeculativeDecoder (KVCacheManager (List Token)) (List Token) :=
  cached 1 (fun _ _ _ => .ok [3]) (some fun _ _ _ => .ok [5]) 1 .draftModel ∅

/-- The draft 5 is rejected and stays in the cache. -/
theorem rejected_draft_stays :
    ∃ finish,
      Machine.run (Machine.recorded (exec atOdds) (verifiedBy atOdds))
        (KVCacheManager.new.registerRequest 1, []) [⟨[7], 0, [7]⟩] = .ok (finish, [7]) ∧
      Holds finish 1 [7, 5] ∧ ¬ Holds finish 1 [7] := by
  obtain ⟨finish, hrun, hentries⟩ : ∃ finish,
      Machine.run (Machine.recorded (exec atOdds) (verifiedBy atOdds))
        (KVCacheManager.new.registerRequest 1, []) [⟨[7], 0, [7]⟩] = .ok (finish, [7]) ∧
      Holds finish 1 [7, 5] := ⟨_, rfl, _, rfl, rfl, rfl, rfl⟩
  exact ⟨finish, hrun, hentries, fun h => by cases hentries.unique h⟩

end SpeculativeDecoder
end Kyro
