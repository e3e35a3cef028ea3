import Kyro.Proof.Worker.Chunks
import Kyro.Proof.Worker.Slots
import Kyro.Proof.Model.Layers

/-!
# The positions of the cached keys

The worker calls the model with the index `0` for every input, so the rows of a later chunk and of a
decode step are rotated for the positions from `0` on, wherever in the request they are. Only the
first chunk of a prompt is at these positions. With one layer, the cached keys of a request are
right as long as that is all it has been run on.
-/

namespace Kyro

/-- The cached keys of a request. -/
def KVCacheManager.keys {κ : Type} (cache : KVCacheManager (List κ)) (id : RequestId) :
    Option (List κ) :=
  (cache.requestCaches.lookup id).map fun slot => slot.keyTensor.getD []

/-- The items of the batch that have not been run. -/
def Phase.pending : Phase → List WorkItem
  | .computing _ batch results => batch.drop results.length
  | _ => []

theorem Phase.pending_answer {toPrefill : List RequestId} {batch : List WorkItem}
    {results : List ComputeResult} {item : WorkItem} (hitem : batch[results.length]? = some item)
    (res : ComputeResult) :
    (Phase.computing toPrefill batch results).pending =
      item :: (Phase.computing toPrefill batch (results ++ [res])).pending := by
  rw [pending, pending, List.length_append, List.length_singleton]
  obtain ⟨hlt, rfl⟩ := List.getElem?_eq_some_iff.mp hitem
  exact List.drop_eq_getElem_cons hlt

namespace World

open Worker

variable {χ κ : Type} {env : Env}

/-! ### What happens to a slot -/

theorem keys_registerItems (cache : KVCacheManager (List κ)) (batch : List WorkItem)
    (id : RequestId) :
    (registerItems cache batch).keys id =
      if ∃ item ∈ batch, item.isPrefill ∧ item.needsCacheLookup ∧ item.reqId = id then some []
      else cache.keys id := by
  induction batch generalizing cache with
  | nil => simp [registerItems]
  | cons item batch ih =>
      rw [registerItems, ih]
      by_cases hlater : ∃ item ∈ batch, item.isPrefill ∧ item.needsCacheLookup ∧ item.reqId = id
      · rw [if_pos hlater, if_pos]
        obtain ⟨later, hmem, hlater⟩ := hlater
        exact ⟨later, .tail _ hmem, hlater⟩
      · rw [if_neg hlater]
        by_cases hitem : (item.isPrefill && item.needsCacheLookup) = true
        · rw [if_pos hitem]
          rw [Bool.and_eq_true] at hitem
          by_cases heq : item.reqId = id
          · rw [if_pos ⟨item, List.mem_cons_self, hitem.1, hitem.2, heq⟩, KVCacheManager.keys,
              KVCacheManager.registerRequest, heq, AList.lookup_insert]
            rfl
          · rw [if_neg, KVCacheManager.keys, KVCacheManager.registerRequest,
              AList.lookup_insert_ne (Ne.symm heq)]
            · rfl
            · rintro ⟨other, hother, hfirst⟩
              rcases List.mem_cons.mp hother with rfl | hmem
              · exact heq hfirst.2.2
              · exact hlater ⟨other, hmem, hfirst⟩
        · rw [if_neg hitem, if_neg]
          rintro ⟨other, hother, hfirst⟩
          rcases List.mem_cons.mp hother with rfl | hmem
          · exact hitem (Bool.and_eq_true_iff.mpr ⟨hfirst.1, hfirst.2.1⟩)
          · exact hlater ⟨other, hmem, hfirst⟩

theorem keys_appendAll {cache cache' : KVCacheManager (List κ)} {id : RequestId}
    {key value : List κ} {ok : Bool}
    (h : cache.appendAll (.rows κ) id [(key, value)] = .ok (cache', ok)) :
    (∃ ks, cache.keys id = some ks ∧ cache'.keys id = some (ks ++ key)) ∧
      ∀ other ≠ id, cache'.keys other = cache.keys other := by
  obtain ⟨⟨next, done⟩, happend, h⟩ := Machine.bind_eq_ok.mp h
  obtain ⟨slot, hslot⟩ := Option.isSome_iff_exists.mp
    (AList.lookup_isSome.mpr (KVCacheManager.registered_appendKv happend).1)
  rw [KVCacheManager.appendKv_rows hslot] at happend
  cases happend
  cases h
  constructor
  · refine ⟨slot.keyTensor.getD [], ?_, ?_⟩
    · rw [KVCacheManager.keys, hslot]
      rfl
    · rw [KVCacheManager.keys, AList.lookup_insert]
      rfl
  · intro other hne
    rw [KVCacheManager.keys, AList.lookup_insert_ne hne]
    rfl

theorem keys_before {cache cache' : KVCacheManager (List κ)} {reqId id : RequestId}
    {key value ks' : List κ} {ok : Bool}
    (h : cache.appendAll (.rows κ) reqId [(key, value)] = .ok (cache', ok))
    (hkeys : cache'.keys id = some ks') :
    (∃ ks, id = reqId ∧ cache.keys id = some ks ∧ ks' = ks ++ key) ∨
      cache.keys id = some ks' := by
  obtain ⟨⟨ks, hold, hnew⟩, hother⟩ := keys_appendAll h
  by_cases heq : id = reqId
  · subst heq
    rw [hnew] at hkeys
    exact Or.inl ⟨ks, rfl, hold, (Option.some.inj hkeys).symm⟩
  · rw [hother id heq] at hkeys
    exact Or.inr hkeys

/-- A slot that is empty after an append was so before. -/
theorem keys_nil_before {cache cache' : KVCacheManager (List κ)} {reqId id : RequestId}
    {key value : List κ} {ok : Bool}
    (h : cache.appendAll (.rows κ) reqId [(key, value)] = .ok (cache', ok))
    (hkeys : cache'.keys id = some []) :
    cache.keys id = some [] ∧ (id = reqId → key = []) := by
  obtain ⟨⟨ks, hold, hnew⟩, hother⟩ := keys_appendAll h
  by_cases heq : id = reqId
  · subst heq
    rw [hnew] at hkeys
    obtain ⟨rfl, hkey⟩ := List.append_eq_nil_iff.mp (Option.some.inj hkeys)
    exact ⟨hold, fun _ => hkey⟩
  · rw [hother id heq] at hkeys
    exact ⟨hkeys, fun hid => absurd hid heq⟩

theorem keys_update {scheduler scheduler' : Scheduler} {cache cache' : KVCacheManager (List κ)}
    {toPrefill : List RequestId} {results : List ComputeResult} {sent : List (RequestId × Token)}
    (h : update env scheduler cache toPrefill results = .ok (scheduler', cache', sent))
    {id : RequestId} {ks : List κ} (hkeys : cache'.keys id = some ks) :
    cache.keys id = some ks := by
  obtain ⟨slot, hslot, rfl⟩ := Option.map_eq_some_iff.mp hkeys
  rw [KVCacheManager.keys, update_lookup h hslot]
  rfl

/-- A waiting request has no keys. -/
theorem Slots.waiting_keys {world : World (List κ)} (h : world.Slots) {req : Request}
    (hreq : req ∈ world.scheduler.waitingQueue) {ks : List κ} :
    world.cache.keys req.id ≠ some ks := by
  rw [KVCacheManager.keys, AList.lookup_eq_none.mpr (h.waiting req hreq)]
  intro heq
  cases heq

/-! ### The invariant -/

/-- An empty slot is that of a request at the beginning of its prompt, and an item that opens one
finds it empty. -/
structure Filled (world : World (List κ)) : Prop where
  start : ∀ req ∈ world.scheduler.runningQueue, world.cache.keys req.id = some [] →
    req.prefillCursor = 0 ∧ req.promptTokens ≠ []
  ran : ∀ req ∈ world.scheduler.runningQueue, world.cache.keys req.id = some [] →
    ∀ item ∈ world.phase.ran, item.reqId = req.id → item.input = []
  pending : ∀ item ∈ world.phase.pending, item.needsCacheLookup →
    world.cache.keys item.reqId = some []
  chunk : ∀ req ∈ world.scheduler.runningQueue, ∀ ks, world.cache.keys req.id = some ks →
    ks ≠ [] → 0 < world.scheduler.config.maxPrefillChunkSize

theorem new_filled (env : Env) (blockSize numGpuBlocks : ℕ) (config : SchedulerConfig) :
    (new env blockSize numGpuBlocks config : World (List κ)).Filled where
  start req hreq := by cases hreq
  ran req hreq := by cases hreq
  pending item hitem := by cases hitem
  chunk req hreq := by cases hreq

section Schedule

variable {now : Instant} {world : World (List κ)} {scheduler : Scheduler}
  {toPrefill toDecode : List RequestId} {stays selected taken admitted : List Request}

theorem scheduled_filled (hslots : world.Slots) (h : world.Filled)
    (hspec : Scheduler.Scheduled now world.scheduler scheduler toPrefill toDecode stays selected
      taken admitted) (hphase : world.phase = .idle) : Filled { world with scheduler } := by
  refine ⟨?_, ?_, ?_, ?_⟩
  · apply hspec.forall_running (fun _ => Iff.rfl) h.start
    rintro req hreq _ ⟨cachedLen, _, _, rfl⟩ hkeys
    exact absurd hkeys (hslots.waiting_keys hreq)
  · intro req _ _ item hitem
    rw [show ({ world with scheduler } : World (List κ)).phase = .idle from hphase] at hitem
    cases hitem
  · intro item hitem
    rw [show ({ world with scheduler } : World (List κ)).phase = .idle from hphase] at hitem
    cases hitem
  · change ∀ req ∈ scheduler.runningQueue, ∀ ks, world.cache.keys req.id = some ks → ks ≠ [] →
      0 < scheduler.config.maxPrefillChunkSize
    rw [hspec.config_eq]
    apply hspec.forall_running (fun _ => Iff.rfl) h.chunk
    rintro req hreq _ ⟨cachedLen, _, _, rfl⟩ ks hkeys
    exact absurd hkeys (hslots.waiting_keys hreq)

end Schedule

/-- The first chunk of a prompt starts at the cursor `0`. -/
theorem Batched.first_chunk {scheduler : Scheduler} {toPrefill : List RequestId}
    {batch : List WorkItem} {results : List ComputeResult} {prefills : List Request}
    (h : Batched scheduler toPrefill batch results prefills) {item : WorkItem}
    (hitem : item ∈ batch) (hfirst : item.needsCacheLookup) :
    ∃ req ∈ scheduler.runningQueue, item = req.chunkItem scheduler.config ∧
      req.prefillCursor = 0 ∧ req.promptTokens ≠ [] := by
  rcases h.mem_batch.mp hitem with ⟨req, hreq, rfl⟩ | ⟨req, _, rfl⟩
  · obtain ⟨hrunning, hopen⟩ := h.prefill_running hreq
    refine ⟨req, hrunning, rfl, of_decide_eq_true hfirst, ?_⟩
    intro hnil
    rw [Request.Prefilled, hnil] at hopen
    exact hopen (Nat.zero_le _)
  · cases hfirst

/-- A batch empties the slots that it opens. -/
theorem registered_filled {world : World (List κ)} (hvalid : world.Valid) (h : world.Filled)
    {toPrefill : List RequestId} {batch : List WorkItem} {prefills : List Request}
    (hbatched : Batched world.scheduler toPrefill batch [] prefills) :
    Filled { world with
      cache := registerItems world.cache batch
      phase := .computing toPrefill batch [] } := by
  refine ⟨?_, ?_, ?_, ?_⟩
  · intro req hreq hkeys
    change (registerItems world.cache batch).keys req.id = some [] at hkeys
    rw [keys_registerItems] at hkeys
    split at hkeys
    · rename_i hopened
      obtain ⟨item, hitem, _, hfirst, hid⟩ := hopened
      obtain ⟨other, hother, rfl, hstart⟩ := hbatched.first_chunk hitem hfirst
      obtain rfl := eq_of_id_eq hvalid.running_nodup hother hreq hid
      exact hstart
    · exact h.start req hreq hkeys
  · intro req _ _ item hitem
    cases hitem
  · intro item hitem hfirst
    change item ∈ batch at hitem
    change (registerItems world.cache batch).keys item.reqId = some []
    obtain ⟨req, _, rfl, _⟩ := hbatched.first_chunk hitem hfirst
    rw [keys_registerItems, if_pos ⟨_, hitem, rfl, hfirst, rfl⟩]
  · intro req hreq ks hkeys hne
    change (registerItems world.cache batch).keys req.id = some ks at hkeys
    rw [keys_registerItems] at hkeys
    split at hkeys
    · exact absurd (Option.some.inj hkeys).symm hne
    · exact h.chunk req hreq ks hkeys hne

/-- An item that opens no slot is of a request whose slot is not empty, and has an input. -/
theorem later_item {world : World (List κ)} (hvalid : world.Valid) (h : world.Filled)
    {toPrefill : List RequestId} {batch : List WorkItem} {results : List ComputeResult}
    (hphase : world.phase = .computing toPrefill batch results) {item : WorkItem}
    (hitem : item ∈ batch) (hlater : ¬ item.needsCacheLookup) {ks : List κ}
    (hkeys : world.cache.keys item.reqId = some ks) : ks ≠ [] ∧ item.input ≠ [] := by
  obtain ⟨prefills, hbatched⟩ := hvalid.batched _ _ _ hphase
  rcases hbatched.mem_batch.mp hitem with ⟨req, hreq, rfl⟩ | ⟨req, hreq, rfl⟩
  · obtain ⟨hrunning, hopen⟩ := hbatched.prefill_running hreq
    have hne : ks ≠ [] := by
      rintro rfl
      exact hlater (decide_eq_true (h.start req hrunning hkeys).1)
    refine ⟨hne, List.ne_nil_of_length_pos ?_⟩
    have hchunk := h.chunk req hrunning ks hkeys hne
    rw [Request.Prefilled] at hopen
    rw [Request.length_chunkItem_input, Request.chunkSize]
    omega
  · obtain ⟨hrunning, hprefilled⟩ := List.mem_filter.mp hreq
    have hprefilled : req.Prefilled := of_decide_eq_true hprefilled
    refine ⟨?_, List.cons_ne_nil _ _⟩
    rintro rfl
    obtain ⟨hcursor, hprompt⟩ := h.start req hrunning hkeys
    rw [Request.Prefilled, hcursor] at hprefilled
    exact hprompt (List.eq_nil_of_length_eq_zero (Nat.le_zero.mp hprefilled))

/-- The items that are pending after one has been run are of other requests. -/
theorem Batched.pending_answer {world : World (List κ)} (hvalid : world.Valid)
    {toPrefill : List RequestId} {batch : List WorkItem} {results : List ComputeResult}
    {prefills : List Request} (h : Batched world.scheduler toPrefill batch results prefills)
    {item other : WorkItem} (hitem : batch[results.length]? = some item) {res : ComputeResult}
    (hother : other ∈ (Phase.computing toPrefill batch (results ++ [res])).pending) :
    other ∈ (Phase.computing toPrefill batch results).pending ∧ other.reqId ≠ item.reqId := by
  have hsplit : (Phase.computing toPrefill batch results).pending =
      item :: (Phase.computing toPrefill batch (results ++ [res])).pending :=
    Phase.pending_answer hitem res
  have hnodup : ((Phase.computing toPrefill batch results).pending.map (·.reqId)).Nodup :=
    (h.items_nodup hvalid).sublist ((List.drop_sublist results.length batch).map (·.reqId))
  rw [hsplit, List.map_cons, List.nodup_cons] at hnodup
  constructor
  · rw [hsplit]
    exact .tail _ hother
  · intro heq
    exact hnodup.1 (heq ▸ List.mem_map_of_mem hother)

/-- Running an item fills the slot of its request with a row for each of the input. -/
theorem fed_filled {world : World (List κ)} (hvalid : world.Valid) (h : world.Filled)
    {toPrefill : List RequestId} {batch : List WorkItem} {results : List ComputeResult}
    (hphase : world.phase = .computing toPrefill batch results) {item : WorkItem}
    (hitem : batch[results.length]? = some item) {key value : List κ} {ok : Bool}
    (hkey : key = [] ↔ item.input = []) {cache : KVCacheManager (List κ)}
    (happend : world.cache.appendAll (.rows κ) item.reqId [(key, value)] = .ok (cache, ok))
    {phase : Phase} (hnext : phase.Forwarded toPrefill batch results) :
    Filled { world with cache, phase } := by
  obtain ⟨prefills, hbatched⟩ := hvalid.batched _ _ _ hphase
  have hmem := List.mem_of_getElem? hitem
  refine ⟨?_, ?_, ?_, ?_⟩
  · intro req hreq hkeys
    exact h.start req hreq (keys_nil_before happend hkeys).1
  · intro req hreq hkeys other hother hid
    obtain ⟨hempty, hown⟩ := keys_nil_before happend hkeys
    cases hnext with
    | fail => cases hother
    | answer result =>
        change other ∈ (Phase.computing toPrefill batch (results ++ [result])).ran at hother
        rw [Phase.ran_answer hitem, ← hphase, List.mem_append, List.mem_singleton] at hother
        rcases hother with hran | rfl
        · exact h.ran req hreq hempty other hran hid
        · exact hkey.mp (hown hid.symm)
  · intro other hpending hfirst
    cases hnext with
    | fail => cases hpending
    | answer result =>
        obtain ⟨hbefore, hne⟩ := hbatched.pending_answer hvalid hitem hpending
        show cache.keys other.reqId = some []
        rw [(keys_appendAll happend).2 other.reqId hne]
        apply h.pending other _ hfirst
        rwa [hphase]
  · intro req hreq ks' hkeys hne
    rcases keys_before happend hkeys with ⟨ks, hid, hold, rfl⟩ | hold
    · by_cases hnil : ks = []
      · subst hnil
        by_cases hfirst : item.needsCacheLookup
        · -- the chunk that fills the slot is not empty
          obtain ⟨other, _, rfl, _⟩ := hbatched.first_chunk hmem hfirst
          have hlength := List.length_pos_of_ne_nil fun hinput => hne (hkey.mpr hinput)
          rw [Request.length_chunkItem_input, Request.chunkSize] at hlength
          show 0 < world.scheduler.config.maxPrefillChunkSize
          omega
        · rw [hid] at hold
          exact absurd rfl (later_item hvalid h hphase hmem hfirst hold).1
      · exact h.chunk req hreq ks hold hnil
    · exact h.chunk req hreq ks' hold hne

theorem updated_filled {world : World (List κ)} (hvalid : world.Valid) (h : world.Filled)
    {toPrefill : List RequestId} {batch : List WorkItem} {results : List ComputeResult}
    {scheduler : Scheduler} {cache : KVCacheManager (List κ)} {sent : List (RequestId × Token)}
    (hphase : world.phase = .computing toPrefill batch results)
    (hlength : results.length = batch.length)
    (hupdate : Worker.update env world.scheduler world.cache toPrefill results =
      .ok (scheduler, cache, sent)) :
    Filled { world with scheduler, cache, phase := .idle, sent := world.sent ++ sent } := by
  obtain ⟨prefills, hbatched⟩ := hvalid.batched _ _ _ hphase
  obtain ⟨hscheduler, _, _⟩ :=
    update_spec hvalid.running_nodup (hbatched.toPrefill_nodup hvalid) hupdate
  refine ⟨?_, ?_, ?_, ?_⟩
  · intro req hreq hkeys
    obtain ⟨old, hold, rfl, _⟩ := updated_running hvalid hphase hupdate hreq
    rw [Request.settled_id] at hkeys
    have hkeys := keys_update hupdate hkeys
    obtain ⟨hcursor, hprompt⟩ := h.start old hold hkeys
    rw [Request.settled_prefillCursor, Request.settled_promptTokens]
    refine ⟨?_, hprompt⟩
    split
    · -- the chunk was empty although the prompt is not
      rename_i hprefill
      have hselected := (hbatched.mem_toPrefill hvalid.running_nodup hold).mp hprefill
      have hran : old.chunkItem world.scheduler.config ∈ world.phase.ran := by
        rw [hphase, Phase.ran, hlength, List.take_length]
        exact hbatched.mem_batch.mpr (Or.inl ⟨old, hselected, rfl⟩)
      have hinput := congrArg List.length (h.ran old hold hkeys _ hran rfl)
      have hpos := List.length_pos_of_ne_nil hprompt
      rw [Request.length_chunkItem_input, Request.chunkSize, hcursor, List.length_nil] at hinput
      have hchunk : world.scheduler.config.maxPrefillChunkSize = 0 := by omega
      rw [Scheduler.nextCursor, hcursor, hchunk]
      exact Nat.zero_min _
    · exact hcursor
  · intro req _ _ item hitem
    cases hitem
  · intro item hitem
    cases hitem
  · intro req hreq ks hkeys hne
    obtain ⟨old, hold, rfl, _⟩ := updated_running hvalid hphase hupdate hreq
    rw [Request.settled_id] at hkeys
    change 0 < scheduler.config.maxPrefillChunkSize
    rw [hscheduler]
    exact h.chunk old hold ks (keys_update hupdate hkeys) hne

/-! ### The positions -/

/-- Slot `j` of a running request holds the key of its token `j`, rotated for the position `j`. -/
def PositionsRight (single : SingleLayer χ κ) (world : World (List κ)) : Prop :=
  ∀ req ∈ world.scheduler.runningQueue, ∀ ks ∈ world.cache.keys req.id,
    ks <+: (req.promptTokens ++ req.generatedTokens).mapIdx fun j token => single.key token j

instance [DecidableEq κ] (single : SingleLayer χ κ) : DecidablePred (PositionsRight single) :=
  fun world => inferInstanceAs (Decidable (∀ req ∈ world.scheduler.runningQueue,
    ∀ ks ∈ world.cache.keys req.id,
      ks <+: (req.promptTokens ++ req.generatedTokens).mapIdx fun j token => single.key token j))

/-- The model is run on the input of the item. -/
def Computed (single : SingleLayer χ κ) (world : World (List κ)) : Event (List κ) → Prop
  | .forward appends token =>
    ∀ item ∈ world.feeds (.forward appends token), appends = single.appends item.input
  | _ => True

instance [DecidableEq κ] (single : SingleLayer χ κ) (world : World (List κ)) :
    DecidablePred (Computed single world)
  | .forward appends token => inferInstanceAs (Decidable
      (∀ item ∈ world.feeds (.forward appends token), appends = single.appends item.input))
  | .submit _ => inferInstanceAs (Decidable True)
  | .schedule _ => inferInstanceAs (Decidable True)
  | .update => inferInstanceAs (Decidable True)

/-- Only first chunks of prompts are run: the items that open a slot. -/
def FirstChunks (world : World (List κ)) (event : Event (List κ)) : Prop :=
  ∀ item ∈ world.feeds event, item.needsCacheLookup

instance (world : World (List κ)) : DecidablePred world.FirstChunks := fun event =>
  inferInstanceAs (Decidable (∀ item ∈ world.feeds event, item.needsCacheLookup))

section Forward

variable {world : World (List κ)} {toPrefill : List RequestId} {batch : List WorkItem}
  {results : List ComputeResult} {item : WorkItem} {appends : List (List κ × List κ)}
  {token : Option Token}

theorem computed_forward (hphase : world.phase = .computing toPrefill batch results)
    (hitem : batch[results.length]? = some item) {single : SingleLayer χ κ} :
    Computed single world (.forward appends token) ↔ appends = single.appends item.input := by
  rw [Computed, feeds_forward hphase hitem appends token]
  exact List.forall_mem_singleton

theorem firstChunks_forward (hphase : world.phase = .computing toPrefill batch results)
    (hitem : batch[results.length]? = some item) :
    world.FirstChunks (.forward appends token) ↔ item.needsCacheLookup := by
  rw [FirstChunks, feeds_forward hphase hitem appends token]
  exact List.forall_mem_singleton

end Forward

theorem prefix_mapIdx {α β : Type} {l m : List α} (h : l <+: m) (f : ℕ → α → β) :
    l.mapIdx f <+: m.mapIdx f := by
  obtain ⟨rest, rfl⟩ := h
  rw [List.mapIdx_append]
  exact List.prefix_append _ _

/-- The keys of a first chunk are those of the beginning of the prompt. -/
theorem prefix_first_chunk {config : SchedulerConfig} {req : Request}
    (hcursor : req.prefillCursor = 0) (f : ℕ → Token → κ) :
    (req.chunkItem config).input.mapIdx f <+:
      (req.promptTokens ++ req.generatedTokens).mapIdx f := by
  rw [Request.chunkItem_input, hcursor, List.drop_zero]
  exact prefix_mapIdx ((List.take_prefix _ _).trans (List.prefix_append _ _)) f

/-- Keys that start over at the position `0` are not those of later positions. -/
theorem not_prefix_of_later {single : SingleLayer χ κ}
    (hposition : ∀ t t' p p', single.key t p = single.key t' p' → p = p') {ks : List κ}
    (hks : ks ≠ []) {input : List Token} (hinput : input ≠ []) (tokens : List Token) :
    ¬ ks ++ (input.mapIdx fun i token => single.key token i) <+:
      tokens.mapIdx fun j token => single.key token j := by
  rintro ⟨more, heq⟩
  obtain ⟨token, rest, rfl⟩ := List.exists_cons_of_ne_nil hinput
  have hget := congrArg (fun keys : List κ => keys[ks.length]?) heq
  rw [List.append_assoc, List.getElem?_append_right (Nat.le_refl _), Nat.sub_self, List.mapIdx_cons,
    List.cons_append, List.getElem?_cons_zero, List.getElem?_mapIdx] at hget
  obtain ⟨other, _, hkey⟩ := Option.map_eq_some_iff.mp hget.symm
  exact hks (List.eq_nil_of_length_eq_zero (hposition _ _ _ _ hkey))

section Steps

variable {world world' : World (List κ)} {event : Event (List κ)}

theorem scheduled_positions {now : Instant} {scheduler : Scheduler}
    {toPrefill toDecode : List RequestId} {stays selected taken admitted : List Request}
    (hslots : world.Slots) {single : SingleLayer χ κ} (h : PositionsRight single world)
    (hspec : Scheduler.Scheduled now world.scheduler scheduler toPrefill toDecode stays selected
      taken admitted) : PositionsRight single { world with scheduler } := by
  apply hspec.forall_running (fun _ => Iff.rfl) h
  rintro req hreq _ ⟨cachedLen, _, _, rfl⟩ ks hkeys
  exact absurd hkeys (hslots.waiting_keys hreq)

theorem updated_positions (hvalid : world.Valid) {single : SingleLayer χ κ}
    (h : PositionsRight single world) {toPrefill : List RequestId} {batch : List WorkItem}
    {results : List ComputeResult} {scheduler : Scheduler} {cache : KVCacheManager (List κ)}
    {sent : List (RequestId × Token)}
    (hphase : world.phase = .computing toPrefill batch results)
    (hupdate : Worker.update env world.scheduler world.cache toPrefill results =
      .ok (scheduler, cache, sent)) :
    PositionsRight single
      { world with scheduler, cache, phase := .idle, sent := world.sent ++ sent } := by
  intro req hreq ks hkeys
  obtain ⟨old, hold, rfl, _⟩ := updated_running hvalid hphase hupdate hreq
  rw [Request.settled_id] at hkeys
  rw [Request.settled_promptTokens, Request.settled_generatedTokens, ← List.append_assoc]
  exact (h old hold ks (keys_update hupdate hkeys)).trans (prefix_mapIdx (List.prefix_append _ _) _)

/-- What running an item does to the positions. -/
theorem fed_positions (hvalid : world.Valid) (hfilled : world.Filled) {single : SingleLayer χ κ}
    (h : PositionsRight single world) {toPrefill : List RequestId} {batch : List WorkItem}
    {results : List ComputeResult} (hphase : world.phase = .computing toPrefill batch results)
    {item : WorkItem} (hitem : batch[results.length]? = some item)
    {cache : KVCacheManager (List κ)} {ok : Bool}
    (happend : world.cache.appendAll (.rows κ) item.reqId (single.appends item.input) =
      .ok (cache, ok)) (phase : Phase) :
    (item.needsCacheLookup → PositionsRight single { world with cache, phase }) ∧
    ((∀ t t' p p', single.key t p = single.key t' p' → p = p') →
      PositionsRight single { world with cache, phase } → item.needsCacheLookup) := by
  obtain ⟨prefills, hbatched⟩ := hvalid.batched _ _ _ hphase
  have hmem := List.mem_of_getElem? hitem
  rw [single.appends_eq] at happend
  obtain ⟨⟨ks, hold, hnew⟩, hother⟩ := keys_appendAll happend
  constructor
  · intro hfirst req hreq ks' hkeys
    change cache.keys req.id = some ks' at hkeys
    by_cases heq : req.id = item.reqId
    · obtain ⟨opener, hopener, hchunk, hcursor, _⟩ := hbatched.first_chunk hmem hfirst
      have hid : opener.id = item.reqId := by rw [hchunk]; rfl
      obtain rfl := eq_of_id_eq hvalid.running_nodup hreq hopener (heq.trans hid.symm)
      have hpending : item ∈ world.phase.pending := by
        rw [hphase, Phase.pending_answer hitem ⟨item.reqId, 0, false⟩]
        exact List.mem_cons_self
      have hempty := hfilled.pending item hpending hfirst
      rw [hempty] at hold
      cases hold
      rw [heq, hnew] at hkeys
      cases hkeys
      rw [List.nil_append, hchunk]
      exact prefix_first_chunk hcursor _
    · rw [hother req.id heq] at hkeys
      exact h req hreq ks' hkeys
  · intro hposition hright
    by_contra hlater
    obtain ⟨hks, hinput⟩ := later_item hvalid hfilled hphase hmem hlater hold
    obtain ⟨req, hreq, hid⟩ := hbatched.item_running hmem
    apply not_prefix_of_later hposition hks hinput
    exact hright req hreq _ (show cache.keys req.id = _ from hid ▸ hnew)

/-- What a step does to the slots that are opened. -/
theorem registered_positions {single : SingleLayer χ κ}
    (h : PositionsRight single world) (batch : List WorkItem) (phase : Phase) :
    PositionsRight single { world with cache := registerItems world.cache batch, phase } := by
  intro req hreq ks hkeys
  change (registerItems world.cache batch).keys req.id = some ks at hkeys
  rw [keys_registerItems] at hkeys
  split at hkeys
  · cases hkeys
    exact List.nil_prefix
  · exact h req hreq ks hkeys

/-- **Every event keeps the slots filled as far as the cursors**, where the model is run. -/
theorem steps_filled {single : SingleLayer χ κ} (hvalid : world.Valid) (hslots : world.Slots)
    (h : world.Filled) (hcomputed : Computed single world event)
    (hsteps : Steps env (.rows κ) world event world') : world'.Filled := by
  cases hsteps with
  | disabled _ => exact h
  | submit submission => exact ⟨h.start, h.ran, h.pending, h.chunk⟩
  | park hphase hschedule =>
      obtain ⟨_, _, _, _, hspec⟩ := Scheduler.schedule_spec hschedule
      exact scheduled_filled hslots h hspec hphase
  | @begin _ scheduler _ _ hphase hschedule =>
      obtain ⟨_, _, _, _, hspec⟩ := Scheduler.schedule_spec hschedule
      obtain ⟨prefills, hbatched⟩ := batched_begin hvalid hspec
      exact registered_filled (scheduled_valid_of_idle hvalid hspec hphase)
        (scheduled_filled hslots h hspec hphase) hbatched
  | answer hphase hitem happend =>
      rw [computed_forward hphase hitem] at hcomputed
      rw [hcomputed, single.appends_eq] at happend
      exact fed_filled hvalid h hphase hitem List.mapIdx_eq_nil_iff happend (.answer _)
  | fail hphase hitem happend =>
      rw [computed_forward hphase hitem] at hcomputed
      rw [hcomputed, single.appends_eq] at happend
      exact fed_filled hvalid h hphase hitem List.mapIdx_eq_nil_iff happend .fail
  | update hphase hlength hupdate => exact updated_filled hvalid h hphase hlength hupdate

/-- **A step keeps the positions right if it runs a first chunk or nothing**, and otherwise only
where the keys do not tell the positions apart. -/
theorem steps_positions {single : SingleLayer χ κ} (hvalid : world.Valid) (hslots : world.Slots)
    (hfilled : world.Filled) (h : PositionsRight single world)
    (hcomputed : Computed single world event)
    (hsteps : Steps env (.rows κ) world event world') :
    (world.FirstChunks event → PositionsRight single world') ∧
    ((∀ t t' p p', single.key t p = single.key t' p' → p = p') →
      PositionsRight single world' → world.FirstChunks event) := by
  -- an event that runs nothing
  have hnothing : world.feeds event = [] → PositionsRight single world' →
      (world.FirstChunks event → PositionsRight single world') ∧
      ((∀ t t' p p', single.key t p = single.key t' p' → p = p') →
        PositionsRight single world' → world.FirstChunks event) := by
    intro hfeeds hright
    refine ⟨fun _ => hright, ?_⟩
    intro _ _ item hitem
    rw [hfeeds] at hitem
    cases hitem
  cases hsteps with
  | disabled hdisabled => exact hnothing (feeds_of_disabled hdisabled) h
  | submit submission => exact hnothing rfl h
  | park hphase hschedule =>
      obtain ⟨_, _, _, _, hspec⟩ := Scheduler.schedule_spec hschedule
      exact hnothing rfl (scheduled_positions hslots h hspec)
  | @begin _ scheduler _ _ hphase hschedule =>
      obtain ⟨_, _, _, _, hspec⟩ := Scheduler.schedule_spec hschedule
      exact hnothing rfl (registered_positions (scheduled_positions hslots h hspec) _ _)
  | answer hphase hitem happend =>
      rw [computed_forward hphase hitem] at hcomputed
      rw [firstChunks_forward hphase hitem]
      exact fed_positions hvalid hfilled h hphase hitem (hcomputed ▸ happend) _
  | fail hphase hitem happend =>
      rw [computed_forward hphase hitem] at hcomputed
      rw [firstChunks_forward hphase hitem]
      exact fed_positions hvalid hfilled h hphase hitem (hcomputed ▸ happend) _
  | update hphase hlength hupdate => exact hnothing rfl (updated_positions hvalid h hphase hupdate)

end Steps

/-! ### Runs -/

/-- **The cached keys are right as long as only first chunks are run.** Where the keys tell the
positions apart, these are the only runs in which they are right all the way. -/
theorem cached_positions_iff (env : Env) (single : SingleLayer χ κ) {blockSize numGpuBlocks : ℕ}
    {config : SchedulerConfig} {events : List (Event (List κ))}
    (hfresh : Machine.Along (step env (.rows κ)) Fresh
      (new env blockSize numGpuBlocks config) events)
    (hcomputed : Machine.Along (step env (.rows κ)) (Computed single)
      (new env blockSize numGpuBlocks config) events) {world : World (List κ)}
    (hrun : history env (.rows κ) blockSize numGpuBlocks config events = .ok world) :
    (Machine.Along (step env (.rows κ)) FirstChunks (new env blockSize numGpuBlocks config) events →
      PositionsRight single world) ∧
    ((∀ t t' p p', single.key t p = single.key t' p' → p = p') →
      (Machine.Along (step env (.rows κ))
          (fun w e => ∀ w', w.step env (.rows κ) e = .ok w' → PositionsRight single w')
          (new env blockSize numGpuBlocks config) events ↔
        Machine.Along (step env (.rows κ)) FirstChunks (new env blockSize numGpuBlocks config)
          events)) := by
  let I : World (List κ) → Prop := fun w => w.Valid ∧ w.Slots ∧ w.Filled
  have hstart : I (new env blockSize numGpuBlocks config) :=
    ⟨new_valid env blockSize numGpuBlocks config, new_slots env blockSize numGpuBlocks config,
      new_filled env blockSize numGpuBlocks config⟩
  have hempty : PositionsRight single (new env blockSize numGpuBlocks config) := by
    intro req hreq
    cases hreq
  have hkeep : ∀ w e w', I w → w.Fresh e ∧ Computed single w e →
      w.step env (.rows κ) e = .ok w' → I w' := by
    rintro w e w' ⟨hvalid, hslots, hfilled⟩ ⟨hevent, happends⟩ hstep
    have hsteps := steps_of_step hstep
    exact ⟨steps_valid hvalid hevent hsteps, steps_slots hvalid hslots hevent hsteps,
      steps_filled hvalid hslots hfilled happends hsteps⟩
  constructor
  · intro hfirst
    apply (Machine.run_invariant (I := fun w => I w ∧ PositionsRight single w) _
      ⟨hstart, hempty⟩ ((hfresh.and hcomputed).and hfirst) hrun).2
    rintro w e w' ⟨hw, hright⟩ ⟨hevent, hchunk⟩ hstep
    refine ⟨hkeep w e w' hw hevent hstep, ?_⟩
    exact (steps_positions hw.1 hw.2.1 hw.2.2 hright hevent.2 (steps_of_step hstep)).1 hchunk
  · intro hposition
    apply Machine.along_good_iff hkeep _ hstart hempty (hfresh.and hcomputed) hrun
    intro w e w' hw hright hevent hstep
    have hsteps := steps_positions hw.1 hw.2.1 hw.2.2 hright hevent.2 (steps_of_step hstep)
    exact ⟨hsteps.2 hposition, hsteps.1⟩

/-- A model whose keys are the tokens and their positions. -/
def positionModel : SingleLayer Token (Token × ℕ) :=
  let layer : LlamaDecoderLayer Token (Token × ℕ) :=
    { selfAttn :=
        { qProj := (·, 0)
          kProj := (·, 0)
          vProj := (·, 0)
          rope := ⟨fun row position => (row.1, position)⟩
          attend := fun q _ _ => some (q.map Prod.fst) }
      mlp := id
      inputLayernorm := id
      postAttentionLayernorm := id }
  { model := ⟨none, [layer], none, none⟩
    layer
    layers_eq := rfl
    row := id }

theorem cached_positions_of_one_chunk :
    ∃ world, history .counting (.rows (Token × ℕ)) 4 9 ⟨8, 4⟩
        [.submit (.plain 1 [5, 7] 2), .schedule 0,
          .forward [([(5, 0), (7, 1)], [(5, 0), (7, 0)])] (some 3)] = .ok world ∧
      world.cache.keys 1 = some [(5, 0), (7, 1)] ∧ PositionsRight positionModel world ∧
      Machine.Along (step .counting (.rows (Token × ℕ)))
        (fun w e => ∀ w', w.step .counting (.rows (Token × ℕ)) e = .ok w' →
          PositionsRight positionModel w') (new .counting 4 9 ⟨8, 4⟩)
        [.submit (.plain 1 [5, 7] 2), .schedule 0,
          .forward [([(5, 0), (7, 1)], [(5, 0), (7, 0)])] (some 3)] := by
  have hrun : ∃ world, history .counting (.rows (Token × ℕ)) 4 9 ⟨8, 4⟩
      [.submit (.plain 1 [5, 7] 2), .schedule 0,
        .forward [([(5, 0), (7, 1)], [(5, 0), (7, 0)])] (some 3)] = .ok world ∧
      world.cache.keys 1 = some [(5, 0), (7, 1)] := by
    decide +kernel
  obtain ⟨world, hrun, hkeys⟩ := hrun
  obtain ⟨hright, hall⟩ :=
    cached_positions_iff .counting positionModel (by decide +kernel) (by decide +kernel) hrun
  refine ⟨world, hrun, hkeys, hright (by decide +kernel), (hall ?_).mpr (by decide +kernel)⟩
  exact fun _ _ _ _ heq => (Prod.mk.inj heq).2

/-- The second chunk of a prompt and the decode step behind it are at the position `0` again. -/
theorem cached_positions_of_two_chunks :
    Machine.Along (step .counting (.rows (Token × ℕ)))
        (fun w e => w.Fresh e ∧ Computed positionModel w e) (new .counting 4 9 ⟨8, 2⟩)
        [.submit (.plain 1 [5, 7, 8] 9), .schedule 0,
          .forward [([(5, 0), (7, 1)], [(5, 0), (7, 0)])] (some 3), .update, .schedule 1,
          .forward [([(8, 0)], [(8, 0)])] (some 4), .update, .schedule 2,
          .forward [([(4, 0)], [(4, 0)])] (some 6)] ∧
      ∃ world, history .counting (.rows (Token × ℕ)) 4 9 ⟨8, 2⟩
          [.submit (.plain 1 [5, 7, 8] 9), .schedule 0,
            .forward [([(5, 0), (7, 1)], [(5, 0), (7, 0)])] (some 3), .update, .schedule 1,
            .forward [([(8, 0)], [(8, 0)])] (some 4), .update, .schedule 2,
            .forward [([(4, 0)], [(4, 0)])] (some 6)] = .ok world ∧
        world.cache.keys 1 = some [(5, 0), (7, 1), (8, 0), (4, 0)] ∧
        ¬ PositionsRight positionModel world := by
  decide +kernel

end World
end Kyro
