import Kyro.Scheduler.ContinuousBatching
import Mathlib.Data.List.Forall2

/-!
# What one `schedule` does

The loops of `schedule` only mark requests, let some in and put ids on two lists. The two queues
after it are those before it without the expired requests, up to the marks, with a front part of the
waiting requests moved over; the ids are those of the running decodes and of a front part of the
running prefills.
-/

namespace Kyro

namespace Request

section Fields

variable (req : Request) (mark : Bool) (cachedLen : ℕ) (config : SchedulerConfig)

@[simp] theorem setPrefill_id : (req.setPrefill mark).id = req.id := rfl

end Fields

/-- A request without its mark. -/
def unmarked (req : Request) : Request := req.setPrefill false

@[simp] theorem unmarked_setPrefill (req : Request) (mark : Bool) :
    (req.setPrefill mark).unmarked = req.unmarked := rfl

theorem id_of_unmarked {req req' : Request} (h : req'.unmarked = req.unmarked) :
    req'.id = req.id := by
  change req'.unmarked.id = req.unmarked.id
  rw [h]

theorem promptTokens_of_unmarked {req req' : Request} (h : req'.unmarked = req.unmarked) :
    req'.promptTokens = req.promptTokens := by
  change req'.unmarked.promptTokens = req.unmarked.promptTokens
  rw [h]

/-- `next` is `req` with the hit of its admission recorded. -/
def AdmittedAs (req next : Request) : Prop :=
  ∃ cachedLen mark, cachedLen ≤ req.promptTokens.length ∧
    next = (req.startAt cachedLen).setPrefill mark

end Request

namespace Scheduler

section Expire

variable {env : Env} {now : Instant}

theorem expireRunning_kept {blockManager blockManager' : BlockManager} {reqs kept : List Request}
    (h : expireRunning env now blockManager reqs = .ok (blockManager', kept)) :
    kept = reqs.filter fun req => ¬ req.Expired now := by
  induction reqs generalizing blockManager blockManager' kept with
  | nil =>
      cases h
      rfl
  | cons req reqs ih =>
      rw [expireRunning] at h
      by_cases hexpired : req.Expired now
      · rw [if_pos hexpired] at h
        obtain ⟨freed, _, hrest⟩ := Machine.bind_eq_ok.mp h
        rw [ih hrest, List.filter_cons_of_neg (by simpa [Request.Expired] using hexpired)]
      · rw [if_neg hexpired] at h
        obtain ⟨⟨freed, rest⟩, hrest, heq⟩ := Machine.bind_eq_ok.mp h
        cases heq
        rw [ih hrest, List.filter_cons_of_pos (by simpa [Request.Expired] using hexpired)]

end Expire

/-! ### The running requests -/

theorem markDecodes_unmarked (reqs : List Request) :
    (markDecodes reqs).map Request.unmarked = reqs.map Request.unmarked := by
  rw [markDecodes, List.map_map]
  refine List.map_congr_left fun req _ => ?_
  by_cases hprefilled : req.Prefilled
  · simp [hprefilled]
  · simp [hprefilled]

/-- What does not look at the mark selects the same requests, up to the mark. -/
theorem filter_unmarked {reqs reqs' : List Request} {p : Request → Bool}
    (hp : ∀ req, p req.unmarked = p req)
    (h : reqs'.map Request.unmarked = reqs.map Request.unmarked) :
    (reqs'.filter p).map Request.unmarked = (reqs.filter p).map Request.unmarked := by
  have hcomm : ∀ l : List Request,
      (l.filter p).map Request.unmarked = (l.map Request.unmarked).filter p := fun l => by
    rw [List.filter_map, Function.comp_def]
    simp only [hp]
  rw [hcomm, hcomm, h]

/-- The running requests whose prefill is not finished. -/
def unfinished (reqs : List Request) : List Request := reqs.filter fun req => ¬ req.Prefilled

/-- The running requests with a finished prefill. -/
def finished (reqs : List Request) : List Request := reqs.filter fun req => req.Prefilled

theorem unfinished_cons (req : Request) (reqs : List Request) :
    unfinished (req :: reqs) =
      if req.Prefilled then unfinished reqs else req :: unfinished reqs := by
  rw [unfinished, List.filter_cons]
  by_cases h : req.Prefilled
  · simp [h, unfinished]
  · simp [h, unfinished]

theorem finished_cons (req : Request) (reqs : List Request) :
    finished (req :: reqs) = if req.Prefilled then req :: finished reqs else finished reqs := by
  rw [finished, List.filter_cons]
  by_cases h : req.Prefilled
  · simp [h, finished]
  · simp [h, finished]

theorem unfinished_append (reqs others : List Request) :
    unfinished (reqs ++ others) = unfinished reqs ++ unfinished others := List.filter_append ..

theorem finished_append (reqs others : List Request) :
    finished (reqs ++ others) = finished reqs ++ finished others := List.filter_append ..

/-- The loop over the running prefills ends with the requests `marked` and has selected a front part
of the unfinished prefills: all of them, if the budget is not used up. -/
structure Selects (config : SchedulerConfig) (reqs : List Request) (before : ℕ)
    (marked : List Request) (ids : List RequestId) (after : ℕ) (selected : List Request) :
    Prop where
  unmarked : marked.map Request.unmarked = reqs.map Request.unmarked
  front : selected <+: unfinished marked
  ids_eq : ids = selected.map (·.id)
  total : after = before + (selected.map (·.chunkSize config)).sum
  complete : after < config.maxTokensPerIter → selected = unfinished marked
  started : before < config.maxTokensPerIter → selected = [] → unfinished marked = []
  within : selected ≠ [] → after < config.maxTokensPerIter + config.maxPrefillChunkSize

theorem selectPrefills_spec (config : SchedulerConfig) (reqs : List Request) (before : ℕ) :
    ∃ selected, Selects config reqs before (selectPrefills config reqs before).1
      (selectPrefills config reqs before).2.1 (selectPrefills config reqs before).2.2 selected := by
  induction reqs generalizing before with
  | nil => exact ⟨[], rfl, List.prefix_rfl, rfl, rfl, fun _ => rfl, fun _ _ => rfl, by simp⟩
  | cons req reqs ih =>
      rw [selectPrefills]
      by_cases hbudget : config.maxTokensPerIter ≤ before
      · rw [if_pos hbudget]
        exact ⟨[], rfl, List.nil_prefix, rfl, rfl, fun hlt => absurd hbudget (Nat.not_le.mpr hlt),
          fun hlt => absurd hbudget (Nat.not_le.mpr hlt), by simp⟩
      · rw [if_neg hbudget]
        by_cases hcursor : req.prefillCursor < req.promptTokens.length
        · obtain ⟨selected, h⟩ := ih (before + req.chunkSize config)
          have hchunk : req.chunkSize config ≤ config.maxPrefillChunkSize := Nat.min_le_right _ _
          have hsplit := unfinished_cons (req.setPrefill true)
            (selectPrefills config reqs (before + req.chunkSize config)).1
          have hopen : ¬ (req.setPrefill true).Prefilled := Nat.not_le.mpr hcursor
          rw [if_neg hopen] at hsplit
          rw [if_pos hcursor]
          refine ⟨req.setPrefill true :: selected, ?_, ?_, ?_, ?_, ?_, by simp, ?_⟩
          · simp [h.unmarked]
          · rw [hsplit]
            exact (List.prefix_cons_inj _).mpr h.front
          · simp [h.ids_eq]
          · have htotal := h.total
            change (selectPrefills config reqs (before + req.chunkSize config)).2.2 =
              before + (req.chunkSize config + (selected.map (·.chunkSize config)).sum)
            omega
          · intro hlt
            rw [hsplit, ← h.complete hlt]
          · intro _
            by_cases hnone : selected = []
            · have htotal := h.total
              simp only [hnone, List.map_nil, List.sum_nil] at htotal
              change (selectPrefills config reqs (before + req.chunkSize config)).2.2 < _
              omega
            · exact h.within hnone
        · obtain ⟨selected, h⟩ := ih before
          have hsplit := unfinished_cons req (selectPrefills config reqs before).1
          have hdone : req.Prefilled := Nat.le_of_not_lt hcursor
          rw [if_pos hdone] at hsplit
          rw [if_neg hcursor]
          refine ⟨selected, ?_, ?_, h.ids_eq, h.total, ?_, ?_, h.within⟩
          · simp [h.unmarked]
          · rw [hsplit]
            exact h.front
          · intro hlt
            rw [hsplit]
            exact h.complete hlt
          · intro hlt hnone
            rw [hsplit]
            exact h.started hlt hnone

/-! ### Admission -/

/-- What a selected request is charged with. -/
def work (config : SchedulerConfig) (req : Request) : ℕ :=
  if req.Prefilled then 1 else req.chunkSize config

theorem work_pos {config : SchedulerConfig} (hchunk : 0 < config.maxPrefillChunkSize)
    (req : Request) : 0 < work config req := by
  rw [work, Request.chunkSize]
  split <;> omega

theorem work_le {config : SchedulerConfig} (hchunk : 0 < config.maxPrefillChunkSize)
    (req : Request) : work config req ≤ config.maxPrefillChunkSize := by
  rw [work, Request.chunkSize]
  split <;> omega

/-- The loop over the waiting queue moves a front part of it over, each request with its hit, and
stops as soon as the budget is used up. -/
structure Admits (config : SchedulerConfig) (waiting : List Request) (before : ℕ)
    (admission : Admission) : Prop where
  front : ∃ taken, waiting = taken ++ admission.waiting ∧
    List.Forall₂ Request.AdmittedAs taken admission.admitted
  toPrefill : admission.toPrefill = (unfinished admission.admitted).map (·.id)
  toDecode : admission.toDecode = (finished admission.admitted).map (·.id)
  total : admission.totalTokens = before + (admission.admitted.map (work config)).sum
  within : 0 < config.maxPrefillChunkSize → admission.admitted ≠ [] →
    admission.totalTokens < config.maxTokensPerIter + config.maxPrefillChunkSize
  room : 0 < config.maxPrefillChunkSize → admission.admitted ≠ [] →
    before + admission.admitted.length ≤ config.maxTokensPerIter

/-- The loop stops before the first request. -/
theorem admits_none (config : SchedulerConfig) (blockManager : BlockManager)
    (waiting : List Request) (before : ℕ) :
    Admits config waiting before ⟨blockManager, waiting, [], [], [], before⟩ :=
  ⟨⟨[], rfl, .nil⟩, rfl, rfl, rfl, fun _ h => absurd rfl h, fun _ h => absurd rfl h⟩

/-- The loop takes the first request and goes on. -/
theorem Admits.cons {config : SchedulerConfig} {req next : Request} {waiting : List Request}
    {before : ℕ} {rest : Admission} (hbudget : before < config.maxTokensPerIter)
    (hreq : req.AdmittedAs next)
    (h : Admits config waiting (before + work config next) rest) :
    Admits config (req :: waiting) before { rest with
      admitted := next :: rest.admitted
      toPrefill := if next.Prefilled then rest.toPrefill else next.id :: rest.toPrefill
      toDecode := if next.Prefilled then next.id :: rest.toDecode else rest.toDecode } where
  front := by
    obtain ⟨taken, hwaiting, htaken⟩ := h.front
    exact ⟨req :: taken, by rw [hwaiting]; rfl, .cons hreq htaken⟩
  toPrefill := by
    rw [unfinished_cons, h.toPrefill]
    split <;> rfl
  toDecode := by
    rw [finished_cons, h.toDecode]
    split <;> rfl
  total := by
    rw [List.map_cons, List.sum_cons, ← Nat.add_assoc]
    exact h.total
  within hchunk _ := by
    change rest.totalTokens < _
    by_cases hnone : rest.admitted = []
    · have htotal := h.total
      have := work_le hchunk next
      rw [hnone] at htotal
      simp only [List.map_nil, List.sum_nil] at htotal
      omega
    · exact h.within hchunk hnone
  room hchunk _ := by
    rw [List.length_cons]
    by_cases hnone : rest.admitted = []
    · rw [hnone, List.length_nil]
      omega
    · have := h.room hchunk hnone
      have := work_pos hchunk next
      omega

/-- One turn of the loop over the waiting queue. -/
theorem admit_cons {env : Env} {config : SchedulerConfig} {blockManager : BlockManager}
    {req : Request} {waiting : List Request} {before : ℕ} {admission : Admission}
    (h : admitWaiting env config blockManager (req :: waiting) before = .ok admission) :
    (config.maxTokensPerIter ≤ before ∧
      admission = ⟨blockManager, req :: waiting, [], [], [], before⟩) ∨
    (before < config.maxTokensPerIter ∧ ∃ blockManager',
      blockManager.allocateWithPrefix env req.id req.promptTokens = .ok (blockManager', none) ∧
      admission = ⟨blockManager', req :: waiting, [], [], [], before⟩) ∨
    (before < config.maxTokensPerIter ∧ ∃ blockManager' blocks cachedLen next rest,
      blockManager.allocateWithPrefix env req.id req.promptTokens =
        .ok (blockManager', some (blocks, cachedLen)) ∧
      cachedLen ≤ req.promptTokens.length ∧
      next = (req.startAt cachedLen).setPrefill (cachedLen < req.promptTokens.length) ∧
      admitWaiting env config blockManager' waiting (before + work config next) = .ok rest ∧
      admission = { rest with
        admitted := next :: rest.admitted
        toPrefill := if next.Prefilled then rest.toPrefill else next.id :: rest.toPrefill
        toDecode := if next.Prefilled then next.id :: rest.toDecode else rest.toDecode }) := by
  rw [admitWaiting] at h
  by_cases hbudget : config.maxTokensPerIter ≤ before
  · rw [if_pos hbudget] at h
    cases h
    exact Or.inl ⟨hbudget, rfl⟩
  · rw [if_neg hbudget] at h
    obtain ⟨⟨manager, allocation⟩, hallocate, h⟩ := Machine.bind_eq_ok.mp h
    refine Or.inr ?_
    cases allocation with
    | none =>
        cases h
        exact Or.inl ⟨Nat.lt_of_not_le hbudget, manager, hallocate, rfl⟩
    | some result =>
        obtain ⟨blocks, cachedLen⟩ := result
        obtain ⟨remaining, hremaining, h⟩ := Machine.bind_eq_ok.mp h
        obtain ⟨hle, rfl⟩ := checkedSub_eq_ok hremaining
        refine Or.inr ⟨Nat.lt_of_not_le hbudget, manager, blocks, cachedLen, ?_⟩
        by_cases hpos : 0 < (req.startAt cachedLen).promptTokens.length -
            (req.startAt cachedLen).prefillCursor
        · rw [if_pos hpos] at h
          obtain ⟨rest, hrest, heq⟩ := Machine.bind_eq_ok.mp h
          have hopen : ¬ ((req.startAt cachedLen).setPrefill true).Prefilled :=
            Nat.not_le.mpr (Nat.sub_pos_iff_lt.mp hpos)
          have hmark : decide (cachedLen < req.promptTokens.length) = true :=
            decide_eq_true (Nat.sub_pos_iff_lt.mp hpos)
          refine ⟨(req.startAt cachedLen).setPrefill true, rest, hallocate, hle,
            by rw [hmark], ?_, ?_⟩
          · rw [work, if_neg hopen]
            exact hrest
          · rw [if_neg hopen, if_neg hopen]
            exact (Except.ok.inj heq).symm
        · rw [if_neg hpos] at h
          obtain ⟨rest, hrest, heq⟩ := Machine.bind_eq_ok.mp h
          have hdone : ((req.startAt cachedLen).setPrefill false).Prefilled :=
            Nat.sub_eq_zero_iff_le.mp (Nat.eq_zero_of_not_pos hpos)
          have hmark : decide (cachedLen < req.promptTokens.length) = false :=
            decide_eq_false (Nat.not_lt.mpr hdone)
          refine ⟨(req.startAt cachedLen).setPrefill false, rest, hallocate, hle,
            by rw [hmark], ?_, ?_⟩
          · rw [work, if_pos hdone]
            exact hrest
          · rw [if_pos hdone, if_pos hdone]
            exact (Except.ok.inj heq).symm

theorem admit_spec {env : Env} {config : SchedulerConfig} {blockManager : BlockManager}
    {waiting : List Request} {before : ℕ} {admission : Admission}
    (h : admitWaiting env config blockManager waiting before = .ok admission) :
    Admits config waiting before admission := by
  induction waiting generalizing blockManager before admission with
  | nil =>
      cases h
      exact admits_none config blockManager [] before
  | cons req waiting ih =>
      rcases admit_cons h with ⟨_, rfl⟩ | ⟨_, manager, _, rfl⟩ |
        ⟨hbudget, manager, blocks, cachedLen, next, rest, _, hle, hnext, hrest, rfl⟩
      · exact admits_none config _ _ _
      · exact admits_none config _ _ _
      · exact Admits.cons hbudget ⟨cachedLen, _, hle, hnext⟩ (ih hrest)

/-! ### The whole call -/

/-- What a `schedule` does: the running requests that are not expired stay, up to their marks, the
requests `taken` from the front of the queue join them as `admitted`, and the ids are those of the
finished prefills, of a front part of the unfinished ones and of the admitted requests. -/
structure Scheduled (now : Instant) (scheduler scheduler' : Scheduler)
    (toPrefill toDecode : List RequestId) (stays selected taken admitted : List Request) :
    Prop where
  config_eq : scheduler'.config = scheduler.config
  stays_eq : stays.map Request.unmarked =
    (scheduler.runningQueue.filter fun req => ¬ req.Expired now).map Request.unmarked
  running_eq : scheduler'.runningQueue = stays ++ admitted
  waiting_eq : (scheduler.waitingQueue.filter fun req => ¬ req.Expired now) =
    taken ++ scheduler'.waitingQueue
  admitted_as : List.Forall₂ Request.AdmittedAs taken admitted
  front : selected <+: unfinished stays
  toPrefill_eq : toPrefill = (selected ++ unfinished admitted).map (·.id)
  toDecode_eq : toDecode = (finished stays ++ finished admitted).map (·.id)
  /-- The budget is passed by less than one chunk. -/
  within : 0 < scheduler.config.maxPrefillChunkSize →
    (finished stays).length ≤ scheduler.config.maxTokensPerIter →
      (finished stays).length + (selected.map (·.chunkSize scheduler.config)).sum +
          (admitted.map (work scheduler.config)).sum <
        scheduler.config.maxTokensPerIter + scheduler.config.maxPrefillChunkSize
  /-- New requests are admitted only where every running one has its share of the budget. -/
  room : 0 < scheduler.config.maxPrefillChunkSize → admitted ≠ [] →
    selected = unfinished stays ∧
      stays.length + admitted.length ≤ scheduler.config.maxTokensPerIter
  started : (finished stays).length < scheduler.config.maxTokensPerIter →
    selected = [] → unfinished stays = []

theorem length_finished_add_unfinished (reqs : List Request) :
    (finished reqs).length + (unfinished reqs).length = reqs.length := by
  induction reqs with
  | nil => rfl
  | cons req reqs ih =>
      rw [finished_cons, unfinished_cons, List.length_cons]
      split
      · rw [List.length_cons]
        omega
      · rw [List.length_cons]
        omega

/-- Every unfinished prefill takes at least one token. -/
theorem length_le_sum_chunkSize {config : SchedulerConfig}
    (hchunk : 0 < config.maxPrefillChunkSize) {reqs : List Request}
    (hopen : ∀ req ∈ reqs, ¬ req.Prefilled) :
    reqs.length ≤ (reqs.map (·.chunkSize config)).sum := by
  induction reqs with
  | nil => rfl
  | cons req reqs ih =>
      have hrest := ih fun other hother => hopen other (List.mem_cons_of_mem _ hother)
      have hreq : 0 < req.chunkSize config := by
        have := hopen req List.mem_cons_self
        rw [Request.chunkSize]
        omega
      rw [List.length_cons, List.map_cons, List.sum_cons]
      omega

theorem not_prefilled_of_mem_unfinished {req : Request} {reqs : List Request}
    (h : req ∈ unfinished reqs) : ¬ req.Prefilled := by
  simpa using (List.mem_filter.mp h).2

theorem schedule_spec {env : Env} {now : Instant} {scheduler scheduler' : Scheduler}
    {toPrefill toDecode : List RequestId}
    (h : scheduler.schedule env now = .ok (scheduler', toPrefill, toDecode)) :
    ∃ stays selected taken admitted,
      Scheduled now scheduler scheduler' toPrefill toDecode stays selected taken admitted := by
  obtain ⟨⟨blockManager, kept⟩, hexpire, h⟩ := Machine.bind_eq_ok.mp h
  obtain ⟨admission, hloop, heq⟩ := Machine.bind_eq_ok.mp h
  have hadmits := admit_spec hloop
  obtain ⟨selected, hselects⟩ := selectPrefills_spec scheduler.config (markDecodes kept)
    ((kept.filter fun req => req.Prefilled).map (·.id)).length
  generalize hmarked : selectPrefills scheduler.config (markDecodes kept)
    ((kept.filter fun req => req.Prefilled).map (·.id)).length = marked at *
  obtain ⟨stays, ids, total⟩ := marked
  dsimp only at hselects hadmits heq
  obtain ⟨taken, htaken, hadmitted⟩ := hadmits.front
  have hunmarked := hselects.unmarked.trans (markDecodes_unmarked kept)
  have hdecode :
      (kept.filter fun req => req.Prefilled).map (·.id) = (finished stays).map (·.id) := by
    have hfilter := filter_unmarked (p := fun req => req.Prefilled) (fun _ => rfl) hunmarked
    simpa [Function.comp_def, Request.unmarked, finished] using
      (congrArg (List.map (·.id)) hfilter).symm
  have hbefore : ((kept.filter fun req => req.Prefilled).map (·.id)).length =
      (finished stays).length := by rw [hdecode, List.length_map]
  cases heq
  refine ⟨stays, selected, taken, admission.admitted, rfl, ?_, rfl, htaken, hadmitted,
    hselects.front, ?_, ?_, ?_, ?_, ?_⟩
  · rw [hunmarked, expireRunning_kept hexpire]
  · rw [List.map_append, ← hselects.ids_eq, ← hadmits.toPrefill]
  · rw [List.map_append, ← hdecode, ← hadmits.toDecode]
  · intro hchunk hfinished
    have htotal := hselects.total
    by_cases hadmitted : admission.admitted = []
    · rw [hadmitted, List.map_nil, List.sum_nil]
      by_cases hselected : selected = []
      · rw [hselected, List.map_nil, List.sum_nil]
        omega
      · have := hselects.within hselected
        omega
    · have := hadmits.within hchunk hadmitted
      have := hadmits.total
      omega
  · intro hchunk hadmitted
    have hroom := hadmits.room hchunk hadmitted
    have hpos := List.length_pos_iff.mpr hadmitted
    have hall : selected = unfinished stays := hselects.complete (by omega)
    refine ⟨hall, ?_⟩
    have htotal := hselects.total
    have hshare := length_le_sum_chunkSize hchunk fun req (hreq : req ∈ unfinished stays) =>
      not_prefilled_of_mem_unfinished hreq
    have hlength := length_finished_add_unfinished stays
    rw [hall] at htotal
    omega
  · intro hlt hnone
    exact hselects.started (by rw [hbefore]; exact hlt) hnone

/-- What a call did, when it was a `schedule`. -/
theorem exec_schedule {env : Env} {now : Instant} {scheduler scheduler' : Scheduler}
    (h : scheduler.exec env (.schedule now) = .ok scheduler') :
    ∃ toPrefill toDecode, scheduler.schedule env now = .ok (scheduler', toPrefill, toDecode) := by
  rw [exec] at h
  cases hschedule : scheduler.schedule env now with
  | error fault =>
      rw [hschedule] at h
      cases h
  | ok result =>
      rw [hschedule] at h
      cases h
      exact ⟨_, _, rfl⟩

theorem exec_config {env : Env} {scheduler scheduler' : Scheduler} {call : Call}
    (h : scheduler.exec env call = .ok scheduler') : scheduler'.config = scheduler.config := by
  cases call with
  | addRequest request =>
      cases h
      rfl
  | schedule now =>
      obtain ⟨_, _, hschedule⟩ := exec_schedule h
      obtain ⟨_, _, _, _, hspec⟩ := schedule_spec hschedule
      exact hspec.config_eq
  | advancePrefillCursor requestId =>
      cases h
      rfl
  | finishRequest requestId =>
      rw [exec, finishRequest] at h
      split at h
      · obtain ⟨blockManager, _, heq⟩ := Machine.bind_eq_ok.mp h
        cases heq
        rfl
      · cases h
        rfl

theorem history_config {env : Env} {blockSize numGpuBlocks : ℕ} {config : SchedulerConfig}
    {calls : List Call} {scheduler : Scheduler}
    (h : history env blockSize numGpuBlocks config calls = .ok scheduler) :
    scheduler.config = config :=
  Machine.run_invariant (P := fun _ _ => True) (I := fun s : Scheduler => s.config = config)
    (fun _ _ _ hconfig _ hexec => (exec_config hexec).trans hconfig) rfl
    (Machine.along_true _ _) h

end Scheduler
end Kyro
